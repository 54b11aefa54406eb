import DocStore.Proofs.SortedMap
import DocStore.Record

-- The trees that documents are written as, and what these trees mean.
namespace DocStore

namespace Wire

-- What both formats can hold: whole numbers of 64 bits, finite floats and texts.
inductive Plain : Wire → Prop where
  | null : Plain .null
  | bool (b : Bool) : Plain (.bool b)
  | int {n : Int} : Word.isSigned n = true ∨ Word.isUnsigned n = true → Plain (.int n)
  | float {x : Double} : x.isFinite = true → Plain (.float x)
  | text (s : String) : Plain (.text s)
  | list {items : List Wire} : (∀ w ∈ items, Plain w) → Plain (.list items)
  | map {entries : List (String × Wire)} : (∀ e ∈ entries, Plain e.2) → Plain (.map entries)

mutual

-- Texts and containers have lengths that take up four bytes at most.
def isShort : Wire → Bool
  | .text s => decide ((Bytes.ofString s).length < 0x100000000)
  | .blob s => decide ((Bytes.ofString s).length < 0x100000000)
  | .list items => decide (items.length < 0x100000000) && areShort items
  | .map entries => decide (entries.length < 0x100000000) && entriesShort entries
  | _ => true

def areShort : List Wire → Bool
  | [] => true
  | w :: rest => isShort w && areShort rest

def entriesShort : List (String × Wire) → Bool
  | [] => true
  | (key, w) :: rest =>
    decide ((Bytes.ofString key).length < 0x100000000) && isShort w && entriesShort rest

end

theorem isShort_of_mem {items : List Wire} (h : areShort items = true) {w : Wire} (hw : w ∈ items) :
    w.isShort = true := by
  induction items with
  | nil => cases hw
  | cons first rest ih =>
      rw [areShort, Bool.and_eq_true] at h
      rcases List.mem_cons.mp hw with rfl | hw
      · exact h.1
      · exact ih h.2 hw

theorem isShort_of_mem_entries {entries : List (String × Wire)} (h : entriesShort entries = true)
    {e : String × Wire} (he : e ∈ entries) :
    (Bytes.ofString e.1).length < 0x100000000 ∧ e.2.isShort = true := by
  induction entries with
  | nil => cases he
  | cons first rest ih =>
      obtain ⟨key, w⟩ := first
      rw [entriesShort, Bool.and_eq_true, Bool.and_eq_true, decide_eq_true_eq] at h
      rcases List.mem_cons.mp he with rfl | he
      · exact h.1
      · exact ih h.2 he

mutual

-- How deeply containers are nested: none in a scalar, one in an empty container.
def depth : Wire → Nat
  | .list items => itemsDepth items + 1
  | .map entries => entriesDepth entries + 1
  | _ => 0

def itemsDepth : List Wire → Nat
  | [] => 0
  | w :: rest => max w.depth (itemsDepth rest)

def entriesDepth : List (String × Wire) → Nat
  | [] => 0
  | (_, w) :: rest => max w.depth (entriesDepth rest)

end

theorem depth_le_itemsDepth {items : List Wire} {w : Wire} (h : w ∈ items) :
    w.depth ≤ itemsDepth items := by
  induction items with
  | nil => cases h
  | cons first rest ih =>
      rw [itemsDepth]
      rcases List.mem_cons.mp h with rfl | h
      · exact Nat.le_max_left _ _
      · exact Nat.le_trans (ih h) (Nat.le_max_right _ _)

theorem depth_le_entriesDepth {entries : List (String × Wire)} {e : String × Wire}
    (h : e ∈ entries) : e.2.depth ≤ entriesDepth entries := by
  induction entries with
  | nil => cases h
  | cons first rest ih =>
      obtain ⟨key, w⟩ := first
      rw [entriesDepth]
      rcases List.mem_cons.mp h with rfl | h
      · exact Nat.le_max_left _ _
      · exact Nat.le_trans (ih h) (Nat.le_max_right _ _)

end Wire

namespace Value

-- A body that a writer may give: finite floats, and fields in ascending order without repetitions.
inductive Storable : Value → Prop where
  | null : Storable .null
  | bool (b : Bool) : Storable (.bool b)
  | int (n : Int64) : Storable (.int n)
  | float {x : Double} : x.isFinite = true → Storable (.float x)
  | string (s : String) : Storable (.string s)
  | array {items : List Value} : (∀ v ∈ items, Storable v) → Storable (.array items)
  | object {fields : Fields} : Assoc.Ascending fields → (∀ e ∈ fields, Storable e.2) →
    Storable (.object fields)

end Value

namespace Assoc

variable {κ α : Type} [LT κ] [LE κ] [DecidableLT κ] [Std.IsLinearOrder κ] [Std.LawfulOrderLT κ]

theorem insert_of_forall_lt {key : κ} {value : α} {entries : List (κ × α)}
    (h : ∀ e ∈ entries, e.1 < key) : insert key value entries = entries ++ [(key, value)] := by
  induction entries with
  | nil => rfl
  | cons e rest ih =>
      have hlt := h e (List.mem_cons_self ..)
      rw [insert, if_neg (Std.not_lt.mpr (Std.le_of_lt hlt)), if_pos hlt,
        ih fun e he => h e (List.mem_cons_of_mem _ he)]
      rfl

-- Entries that ascend already are left as they are.
theorem ofList_of_ascending {entries : List (κ × α)} (h : Ascending entries) :
    ofList entries = entries := by
  have hfold : ∀ front back : List (κ × α), Ascending (front ++ back) →
      back.foldl (fun acc e => insert e.1 e.2 acc) front = front ++ back := by
    intro front back hasc
    induction back generalizing front with
    | nil => rw [List.foldl_nil, List.append_nil]
    | cons e back ih =>
        have hlt : ∀ other ∈ front, other.1 < e.1 := fun other hother =>
          (List.pairwise_append.mp hasc).2.2 other hother e (List.mem_cons_self ..)
        have hsplit : front ++ e :: back = front ++ [e] ++ back := List.append_cons ..
        rw [List.foldl_cons, insert_of_forall_lt hlt, hsplit]
        exact ih _ (hsplit ▸ hasc)
  exact hfold [] entries h

end Assoc

namespace Wire

theorem ofItems_eq_map (items : List Value) : ofItems items = items.map ofValue := by
  induction items with
  | nil => rfl
  | cons v rest ih => rw [ofItems, ih, List.map_cons]

theorem ofFields_eq_map (fields : Fields) :
    ofFields fields = fields.map fun e => (e.1, ofValue e.2) := by
  induction fields with
  | nil => rfl
  | cons e rest ih =>
      obtain ⟨key, v⟩ := e
      rw [ofFields, ih, List.map_cons]

theorem plain_ofValue {v : Value} (h : v.Storable) : (ofValue v).Plain := by
  induction h with
  | null => exact .null
  | bool b => exact .bool b
  | int n => exact .int (.inl (by
      simp only [Word.isSigned, Bool.and_eq_true, decide_eq_true_eq]
      exact ⟨n.le_toInt, n.toInt_lt⟩))
  | float hx => exact .float hx
  | string s => exact .text s
  | array _ ih =>
      rw [ofValue, ofItems_eq_map]
      refine .list fun w hw => ?_
      obtain ⟨v, hv, rfl⟩ := List.mem_map.mp hw
      exact ih v hv
  | object _ _ ih =>
      rw [ofValue, ofFields_eq_map]
      refine .map fun e he => ?_
      obtain ⟨field, hfield, rfl⟩ := List.mem_map.mp he
      exact ih field hfield

theorem toItems?_ofItems {nesting : Nat} {items : List Value}
    (h : ∀ v ∈ items, toValue? nesting (ofValue v) = some v) :
    toItems? nesting (ofItems items) = some items := by
  induction items with
  | nil => rfl
  | cons v rest ih =>
      rw [ofItems, toItems?, h v (List.mem_cons_self ..),
        ih fun w hw => h w (List.mem_cons_of_mem _ hw)]
      rfl

theorem toFields?_ofFields {nesting : Nat} {fields : Fields}
    (h : ∀ e ∈ fields, toValue? nesting (ofValue e.2) = some e.2) :
    toFields? nesting (ofFields fields) = some fields := by
  induction fields with
  | nil => rfl
  | cons e rest ih =>
      obtain ⟨key, v⟩ := e
      have hv : toValue? nesting (ofValue v) = some v := h (key, v) (List.mem_cons_self ..)
      rw [ofFields, toFields?, hv, ih fun e he => h e (List.mem_cons_of_mem _ he)]
      rfl

-- A body is made of its tree again, as long as that is not nested too deeply.
theorem toValue?_ofValue {v : Value} (h : v.Storable) {nesting : Nat}
    (hdepth : (ofValue v).depth ≤ nesting) : toValue? nesting (ofValue v) = some v := by
  induction h generalizing nesting with
  | null => rfl
  | bool b => rfl
  | int n =>
      have hfits : Word.isSigned n.toInt = true := by
        simp only [Word.isSigned, Bool.and_eq_true, decide_eq_true_eq]
        exact ⟨n.le_toInt, n.toInt_lt⟩
      rw [ofValue, toValue?, if_pos hfits, Int64.ofInt_toInt]
  | float hx => rfl
  | string s => rfl
  | @array items _ ih =>
      rw [ofValue, depth] at hdepth
      obtain ⟨nesting, rfl⟩ : ∃ k, nesting = k + 1 := ⟨nesting - 1, by omega⟩
      rw [ofValue, toValue?, toItems?_ofItems fun v hv => ih v hv ?_]
      · rfl
      · have hle := depth_le_itemsDepth (ofItems_eq_map items ▸ List.mem_map_of_mem hv)
        omega
  | @object fields hascending _ ih =>
      rw [ofValue, depth] at hdepth
      obtain ⟨nesting, rfl⟩ : ∃ k, nesting = k + 1 := ⟨nesting - 1, by omega⟩
      rw [ofValue, toValue?, toFields?_ofFields fun e he => ih e he ?_, Option.map_some,
        Value.ofFields, Assoc.ofList_of_ascending hascending]
      have hle := depth_le_entriesDepth (ofFields_eq_map fields ▸ List.mem_map_of_mem he)
      simp only at hle
      omega

end Wire

end DocStore
