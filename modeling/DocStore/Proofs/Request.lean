import Mathlib
import DocStore.Proofs.Document
import DocStore.Proofs.Json.Tree
import DocStore.Proofs.Search.Filter

-- Search requests are read from JSON as they were written, but for operators whose operand is a
-- null: what is read does not have them, and finds what the request does not.
namespace DocStore

namespace Wire

theorem optional_ofValue {nesting : Nat} {operand : Option Value}
    (h : ∀ v, operand = some v → v.Storable ∧ (ofValue v).depth ≤ nesting) :
    optional (toValue? nesting) (operand.map ofValue) =
      some (operand.filter (fun v => !v.isNull)) := by
  cases operand with
  | none => rfl
  | some v =>
      obtain ⟨hstorable, hdepth⟩ := h v rfl
      by_cases hnull : v = .null
      · subst hnull
        rfl
      · have hkept : (!v.isNull) = true := by cases v <;> first | rfl | exact absurd rfl hnull
        rw [Option.map_some, optional, toValue?_ofValue hstorable hdepth, Option.filter_some,
          if_pos hkept]
        · rfl
        · exact Document.ofValue_ne_null hnull

end Wire

namespace Filter

def operands (f : Filter) : List (Option Value) := [f.equal, f.greater, f.less, f.start, f.skip]

-- Operands that a writer may give.
def Sendable (f : Filter) : Prop := ∀ v, some v ∈ f.operands → v.Storable

def NullFree (f : Filter) : Prop := some Value.null ∉ f.operands

-- What is left of a filter without the operators that compare with a null.
def withoutNulls (f : Filter) : Filter :=
  let kept (operand : Option Value) := operand.filter (fun v => !v.isNull)
  { f with
    equal := kept f.equal
    greater := kept f.greater
    less := kept f.less
    start := kept f.start
    skip := kept f.skip }

def partNames : List String := ["key", "equal", "greater", "less", "prefix", "skip"]

def parts (f : Filter) : List (Option Wire) :=
  some (.text f.key) :: f.operands.map (Option.map Wire.ofValue)

variable {f : Filter} {nesting : Nat}

theorem toWire_eq (f : Filter) : f.toWire = .map (Wire.recordOf partNames f.parts) := by
  obtain ⟨key, equal, greater, less, start, skip⟩ := f
  cases equal <;> cases greater <;> cases less <;> cases start <;> cases skip <;> rfl

theorem plain_toWire (h : f.Sendable) : f.toWire.Plain := by
  rw [toWire_eq]
  refine .map fun e he => ?_
  have hpart := (List.of_mem_zip (Wire.mem_recordOf_iff.mp he)).2
  rcases List.mem_cons.mp hpart with heq | hpart
  · rw [Option.some.inj heq]
    exact .text _
  · obtain ⟨operand, hoperand, hmap⟩ := List.mem_map.mp hpart
    obtain ⟨v, rfl, hv⟩ := Option.map_eq_some_iff.mp hmap
    exact hv ▸ Wire.plain_ofValue (h v hoperand)

theorem ofWire?_toWire (h : f.Sendable) (hdepth : f.toWire.depth ≤ nesting) :
    ofWire? nesting f.toWire = some f.withoutNulls := by
  rw [toWire_eq, Wire.depth] at hdepth
  obtain ⟨nesting, rfl⟩ : ∃ k, nesting = k + 1 := ⟨nesting - 1, by omega⟩
  have hread : ∀ operand ∈ f.operands,
      Wire.optional (Wire.toValue? nesting) (operand.map Wire.ofValue) =
        some (operand.filter (fun v => !v.isNull)) := by
    intro operand hoperand
    refine Wire.optional_ofValue fun v hv => ⟨h v (hv ▸ hoperand), ?_⟩
    have hpart : some (Wire.ofValue v) ∈ f.parts :=
      List.mem_cons_of_mem _ (List.mem_map.mpr ⟨operand, hoperand, by rw [hv]; rfl⟩)
    have hle : (Wire.ofValue v).depth ≤ Wire.entriesDepth (Wire.recordOf partNames f.parts) :=
      Wire.depth_part hpart rfl
    omega
  simp only [operands, List.forall_mem_cons] at hread
  obtain ⟨hequal, hgreater, hless, hstart, hskip, -⟩ := hread
  rw [toWire_eq]
  refine bind_eq_some_of (Wire.record?_recordOf (by decide) rfl) ?_
  refine bind_eq_some_of (a := f.key) rfl ?_
  refine bind_eq_some_of hequal (bind_eq_some_of hgreater (bind_eq_some_of hless ?_))
  exact bind_eq_some_of hstart (bind_eq_some_of hskip rfl)

theorem withoutNulls_eq_self_iff : f.withoutNulls = f ↔ f.NullFree := by
  have hkept : ∀ operand : Option Value,
      operand.filter (fun v => !v.isNull) = operand ↔ operand ≠ some .null := by
    intro operand
    rcases operand with _ | v
    · simp
    · cases v <;> simp [Value.isNull]
  obtain ⟨key, equal, greater, less, start, skip⟩ := f
  simp only [withoutNulls, NullFree, operands, mk.injEq, true_and, hkept, List.mem_cons,
    List.not_mem_nil, or_false, not_or, ne_eq, eq_comm (a := some Value.null)]

-- Nothing that is indexed compares with a null.
theorem not_matches_of_null (hf : f.WellFormed) (hnull : ¬f.NullFree) (doc : Document) :
    ¬f.Matches doc := by
  rintro ⟨v, hv, hadmits⟩
  have hencoded := (IndexEntry.mem_leavesAt.mp hv).2
  have hbelow : ∀ a b : Value, a.Below b → a ≠ .null ∧ b ≠ .null := by
    rintro a b (⟨s, t, rfl, rfl, -⟩ | ⟨x, y, hx, hy, -⟩)
    · exact ⟨Value.noConfusion, Value.noConfusion⟩
    · exact ⟨fun h => by simp [h, Value.number?] at hx, fun h => by simp [h, Value.number?] at hy⟩
  simp only [NullFree, operands, List.mem_cons, List.not_mem_nil, or_false, not_not] at hnull
  rcases hnull with hequal | hgreater | hless | hstart | hskip
  · rw [(hadmits.equal _ hequal.symm).2] at hencoded
    cases hencoded
  · exact (hbelow _ _ (hadmits.greater _ hgreater.symm)).1 rfl
  · exact (hbelow _ _ (hadmits.less _ hless.symm)).2 rfl
  · obtain ⟨s, hs⟩ := hf.start _ hstart.symm
    cases hs
  · cases hstart : f.start with
    | none => cases (hf.skip hstart).symm.trans hskip.symm
    | some start =>
        obtain ⟨s, t, -, -, -, hskips⟩ := hadmits.start _ hstart
        obtain ⟨k, hk, -⟩ := hskips _ hskip.symm
        cases hk

-- What is read in the place of a comparison with a null asks for the field to be present.
theorem withoutNulls_eq_present (hf : f.WellFormed)
    (hnull : some Value.null ∈ [f.equal, f.greater, f.less]) : f.withoutNulls = present f.key := by
  obtain ⟨hcount, hskip, -⟩ := hf
  obtain ⟨key, equal, greater, less, start, skip⟩ := f
  -- with any operator beside the one that has the null, there would be two
  cases equal <;> cases greater <;> cases less <;> cases start <;>
    simp_all [operatorCount, withoutNulls, present, Value.isNull] <;> rw [← hnull]

theorem matches_present (key : String) (doc : Document) :
    (present key).Matches doc ↔ IndexEntry.leavesAt doc.val (Plan.indexPath key) ≠ [] := by
  have hadmits : ∀ v, (present key).Admits v := fun v => ⟨nofun, nofun, nofun, nofun⟩
  rw [← List.length_pos_iff, List.length_pos_iff_exists_mem]
  exact exists_congr fun v => and_iff_left (hadmits v)

end Filter

namespace SearchRequest

mutual

-- What is left of a request without the operators that compare with a null.
def withoutNulls : SearchRequest → SearchRequest
  | .mk model filters cursor limit full links =>
    .mk model (filters.map Filter.withoutNulls) cursor limit full (linksWithoutNulls links)

def linksWithoutNulls : List SearchRequest → List SearchRequest
  | [] => []
  | link :: rest => withoutNulls link :: linksWithoutNulls rest

end

-- Requests that a writer may give: limits of 64 bits, and operands of finite floats and of fields
-- in ascending order.
inductive Sendable : SearchRequest → Prop where
  | mk {model : String} {filters : List Filter} {cursor : Option String} {limit : Option Nat}
      {full : Bool} {links : List SearchRequest} :
      (∀ f ∈ filters, f.Sendable) → (∀ n : Nat, limit = some n → Word.isUnsigned n = true) →
      (∀ link ∈ links, Sendable link) → Sendable (.mk model filters cursor limit full links)

-- No filter compares with a null, at any link.
inductive NullFree : SearchRequest → Prop where
  | mk {model : String} {filters : List Filter} {cursor : Option String} {limit : Option Nat}
      {full : Bool} {links : List SearchRequest} :
      (∀ f ∈ filters, f.NullFree) → (∀ link ∈ links, NullFree link) →
      NullFree (.mk model filters cursor limit full links)

def listPart : List Wire → Option Wire
  | [] => none
  | items => some (.list items)

def partNames : List String := ["model", "filters", "cursor", "limit", "full", "links"]

def parts (r : SearchRequest) : List (Option Wire) :=
  [some (.text r.model), listPart (r.filters.map Filter.toWire), r.cursor.map .text,
    r.limit.map (fun n : Nat => .int n), some (.bool r.full), listPart (r.links.map toWire)]

theorem linksToWire_eq_map (links : List SearchRequest) : linksToWire links = links.map toWire := by
  induction links with
  | nil => rfl
  | cons link rest ih => rw [linksToWire, ih, List.map_cons]

theorem linksWithoutNulls_eq_map (links : List SearchRequest) :
    linksWithoutNulls links = links.map withoutNulls := by
  induction links with
  | nil => rfl
  | cons link rest ih => rw [linksWithoutNulls, ih, List.map_cons]

theorem toWire_eq (r : SearchRequest) : r.toWire = .map (Wire.recordOf partNames r.parts) := by
  obtain ⟨model, filters, cursor, limit, full, links⟩ := r
  simp only [toWire, parts, linksToWire_eq_map]
  cases filters.map Filter.toWire <;> cases cursor <;> cases limit <;> cases links.map toWire <;> rfl

theorem plain_listPart {items : List Wire} (h : ∀ w ∈ items, w.Plain) {w : Wire}
    (hw : listPart items = some w) : w.Plain := by
  cases items with
  | nil => cases hw
  | cons first rest => exact Option.some.inj hw ▸ .list h

theorem plain_toWire {r : SearchRequest} (h : r.Sendable) : r.toWire.Plain := by
  induction h with
  | @mk model filters cursor limit full links hfilters hlimit _ ih =>
      rw [toWire_eq]
      refine .map fun e he => ?_
      have hpart := (List.of_mem_zip (Wire.mem_recordOf_iff.mp he)).2
      simp only [parts, List.mem_cons, List.not_mem_nil, or_false] at hpart
      rcases hpart with hpart | hpart | hpart | hpart | hpart | hpart
      · exact Option.some.inj hpart ▸ .text _
      · refine plain_listPart (fun w hw => ?_) hpart.symm
        obtain ⟨f, hf, rfl⟩ := List.mem_map.mp hw
        exact Filter.plain_toWire (hfilters f hf)
      · obtain ⟨s, -, hs⟩ := Option.map_eq_some_iff.mp hpart.symm
        exact hs ▸ .text s
      · obtain ⟨n, hn, hw⟩ := Option.map_eq_some_iff.mp hpart.symm
        exact hw ▸ .int (.inr (hlimit n hn))
      · exact Option.some.inj hpart ▸ .bool _
      · refine plain_listPart (fun w hw => ?_) hpart.symm
        obtain ⟨link, hlink, rfl⟩ := List.mem_map.mp hw
        exact ih link hlink

-- A list is read where it stands or is left out, and its items are nested less deeply than it.
theorem items?_listPart (nesting : Nat) (items : List Wire)
    (h : ∀ w, listPart items = some w → w.depth ≤ nesting) :
    ∃ inner ≤ nesting, items? nesting (listPart items) = some (inner, items) ∧
      ∀ w ∈ items, w.depth ≤ inner := by
  cases items with
  | nil => exact ⟨0, Nat.zero_le _, rfl, fun w hw => nomatch hw⟩
  | cons first rest =>
      have hdepth := h _ rfl
      rw [Wire.depth] at hdepth
      obtain ⟨nesting, rfl⟩ : ∃ k, nesting = k + 1 := ⟨nesting - 1, by omega⟩
      refine ⟨nesting, Nat.le_succ _, rfl, fun w hw => ?_⟩
      have hle := Wire.depth_le_itemsDepth hw
      omega

theorem mapM_map_eq_some {α β : Type} {read : Wire → Option β} {write : α → Wire} {kept : α → β}
    {items : List α} (h : ∀ a ∈ items, read (write a) = some (kept a)) :
    (items.map write).mapM read = some (items.map kept) := by
  induction items with
  | nil => rfl
  | cons a rest ih =>
      rw [List.map_cons, List.mapM_cons]
      refine bind_eq_some_of (h a (List.mem_cons_self ..)) ?_
      exact bind_eq_some_of (ih fun b hb => h b (List.mem_cons_of_mem _ hb)) rfl

-- A request is made of its tree again, but for the nulls. Each link is one level further down, in
-- the count of linked requests as in the count of containers.
theorem ofWireUpTo?_toWire {r : SearchRequest} (h : r.Sendable) {levels nesting : Nat}
    (hlevels : nesting ≤ levels) (hdepth : r.toWire.depth ≤ nesting) :
    ofWireUpTo? levels nesting r.toWire = some r.withoutNulls := by
  induction h generalizing levels nesting with
  | @mk model filters cursor limit full links hfilters hlimit _ ih =>
      rw [toWire_eq, Wire.depth] at hdepth
      obtain ⟨nesting, rfl⟩ : ∃ k, nesting = k + 1 := ⟨nesting - 1, by omega⟩
      obtain ⟨levels, rfl⟩ : ∃ k, levels = k + 1 := ⟨levels - 1, by omega⟩
      have hpart : ∀ w, some w ∈ parts (.mk model filters cursor limit full links) →
          w.depth ≤ nesting := by
        intro w hw
        have hle : w.depth ≤ Wire.entriesDepth (Wire.recordOf partNames _) :=
          Wire.depth_part hw rfl
        omega
      obtain ⟨filterNesting, -, hfilterItems, hfilterDepth⟩ :=
        items?_listPart nesting (filters.map Filter.toWire)
          fun w hw => hpart w (by simp [parts, hw])
      obtain ⟨linkNesting, hle, hlinkItems, hlinkDepth⟩ :=
        items?_listPart nesting (links.map toWire)
          fun w hw => hpart w (by simp [parts, hw])
      have hreadFilters : (filters.map Filter.toWire).mapM (Filter.ofWire? filterNesting) =
          some (filters.map Filter.withoutNulls) :=
        mapM_map_eq_some fun f hf =>
          Filter.ofWire?_toWire (hfilters f hf) (hfilterDepth _ (List.mem_map_of_mem hf))
      have hreadLinks : (links.map toWire).mapM (ofWireUpTo? levels linkNesting) =
          some (links.map withoutNulls) :=
        mapM_map_eq_some fun link hlink =>
          ih link hlink (by omega) (hlinkDepth _ (List.mem_map_of_mem hlink))
      have hcursor : Wire.optional Wire.text? (cursor.map .text) = some cursor :=
        Wire.optional_map fun s _ => ⟨Wire.noConfusion, rfl⟩
      have hlimit : Wire.optional Wire.word? (limit.map (fun n : Nat => .int n)) = some limit :=
        Wire.optional_map fun n hn =>
          ⟨Wire.noConfusion, by rw [Wire.word?, if_pos (hlimit n hn), Int.toNat_natCast]⟩
      rw [toWire_eq, withoutNulls, linksWithoutNulls_eq_map]
      refine bind_eq_some_of (Wire.record?_recordOf (by decide) rfl) ?_
      refine bind_eq_some_of hfilterItems (bind_eq_some_of hlinkItems ?_)
      refine bind_eq_some_of (a := model) rfl (bind_eq_some_of hreadFilters ?_)
      refine bind_eq_some_of hcursor (bind_eq_some_of hlimit (bind_eq_some_of (a := full) rfl ?_))
      exact bind_eq_some_of hreadLinks rfl

theorem withoutNulls_eq_self_iff {r : SearchRequest} (h : r.Sendable) :
    r.withoutNulls = r ↔ r.NullFree := by
  induction h with
  | @mk model filters cursor limit full links _ _ _ ih =>
      have hfilters : filters.map Filter.withoutNulls = filters ↔ ∀ f ∈ filters, f.NullFree := by
        conv_lhs => rw [← List.map_id filters, List.map_map, List.map_inj_left]
        exact forall₂_congr fun f _ => Filter.withoutNulls_eq_self_iff
      have hlinks : links.map withoutNulls = links ↔ ∀ link ∈ links, link.NullFree := by
        conv_lhs => rw [← List.map_id links, List.map_map, List.map_inj_left]
        exact forall₂_congr ih
      rw [withoutNulls, linksWithoutNulls_eq_map, mk.injEq]
      constructor
      · rintro ⟨-, hfilterEq, -, -, -, hlinkEq⟩
        exact .mk (hfilters.mp hfilterEq) (hlinks.mp hlinkEq)
      · rintro ⟨hfilterFree, hlinkFree⟩
        exact ⟨rfl, hfilters.mpr hfilterFree, rfl, rfl, rfl, hlinks.mpr hlinkFree⟩

-- The request that is read from the JSON form of a request lacks the operators that compare with a
-- null, and nothing else.
theorem read_of_written {r : SearchRequest} (h : r.Sendable)
    (hdepth : r.toWire.depth ≤ Json.maxNesting) :
    (Json.read? (Json.write r.toWire)).bind (ofWire? Json.maxNesting) = some r.withoutNulls := by
  rw [Json.read?_write (plain_toWire h)]
  exact ofWireUpTo?_toWire h (Nat.le_refl _) hdepth

-- It is the same request just when no operator compares with a null.
theorem reread_iff {r : SearchRequest} (h : r.Sendable)
    (hdepth : r.toWire.depth ≤ Json.maxNesting) :
    (Json.read? (Json.write r.toWire)).bind (ofWire? Json.maxNesting) = some r ↔ r.NullFree := by
  rw [read_of_written h hdepth, Option.some_inj, withoutNulls_eq_self_iff h]

-- The books whose author is null, which are none.
def anonymous : SearchRequest :=
  .mk "com.ex.Book" [⟨"author", some .null, none, none, none, none⟩] none none true
    [.mk "com.ex.Author" [.present "name"] none (some 1) false []]

-- What is read asks for the books that have an author.
theorem reread_anonymous : (Json.read? (Json.write anonymous.toWire)).bind
    (ofWire? Json.maxNesting) = some { anonymous with filters := [.present "author"] } := by
  cbv

end SearchRequest

end DocStore
