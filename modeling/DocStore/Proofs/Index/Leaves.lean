import DocStore.Proofs.Index.Entry
import Mathlib.Data.List.Basic
import Mathlib.Data.Set.Basic

-- Index entries against the scalars of a body. A scalar is indexed under the names of the fields that
-- lead to it, with dots between them. Names may have dots of their own or be empty, so that different
-- places of a body can have one path.
namespace DocStore

namespace Value

def isScalar : Value → Bool
  | .array _ => false
  | .object _ => false
  | _ => true

-- A tree has a scalar behind the names of some fields. The items of an array have no names, so that
-- all of them stand where the array does.
inductive Bears : Value → List String → Value → Prop where
  | scalar {x : Value} : x.isScalar = true → Bears x [] x
  | item {items : List Value} {v : Value} {names : List String} {x : Value} :
      v ∈ items → Bears v names x → Bears (.array items) names x
  | field {fields : Fields} {name : String} {v : Value} {names : List String} {x : Value} :
      (name, v) ∈ fields → Bears v names x → Bears (.object fields) (name :: names) x

-- The path behind the names of some fields, from the path of the tree.
def pathOf (path : String) (names : List String) : String :=
  names.foldl (fun path name => path ++ "." ++ name) path

theorem leaves_of_isScalar {x : Value} (h : x.isScalar = true) (path : String) :
    x.leaves path = [(path, x)] := by
  cases x with
  | array items => cases h
  | object fields => cases h
  | null | bool | int | float | string => rfl

theorem mem_itemLeaves {path : String} {items : List Value} {leaf : String × Value} :
    leaf ∈ itemLeaves path items ↔ ∃ v ∈ items, leaf ∈ v.leaves path := by
  induction items with
  | nil => simp [itemLeaves]
  | cons v rest ih => rw [itemLeaves, List.mem_append, ih, List.exists_mem_cons_iff]

theorem mem_fieldLeaves {path : String} {fields : Fields} {leaf : String × Value} :
    leaf ∈ fieldLeaves path fields ↔ ∃ f ∈ fields, leaf ∈ f.2.leaves (path ++ "." ++ f.1) := by
  induction fields with
  | nil => simp [fieldLeaves]
  | cons f rest ih =>
      obtain ⟨name, v⟩ := f
      rw [fieldLeaves, List.mem_append, ih, List.exists_mem_cons_iff]

theorem mem_leaves_of_bears {v x : Value} {names : List String} (h : v.Bears names x)
    (path : String) : (pathOf path names, x) ∈ v.leaves path := by
  induction h generalizing path with
  | scalar hx => simp [leaves_of_isScalar hx, pathOf]
  | item hv _ ih => exact mem_itemLeaves.mpr ⟨_, hv, ih path⟩
  | field hv _ ih => exact mem_fieldLeaves.mpr ⟨_, hv, ih _⟩

theorem bears_of_mem_leaves {v x : Value} {root path : String} (h : (path, x) ∈ v.leaves root) :
    ∃ names, v.Bears names x ∧ pathOf root names = path := by
  match v with
  | .array items =>
      obtain ⟨v, hv, hleaf⟩ := mem_itemLeaves.mp h
      obtain ⟨names, hbears, hpath⟩ := bears_of_mem_leaves hleaf
      exact ⟨names, .item hv hbears, hpath⟩
  | .object fields =>
      obtain ⟨⟨name, v⟩, hv, hleaf⟩ := mem_fieldLeaves.mp h
      -- a field is a pair, and it is its second part that the recursion goes to
      have hsmaller : sizeOf v < 1 + sizeOf fields := by
        have hfield := List.sizeOf_lt_of_mem hv
        rw [Prod.mk.sizeOf_spec] at hfield
        omega
      obtain ⟨names, hbears, hpath⟩ := bears_of_mem_leaves hleaf
      exact ⟨name :: names, .field hv hbears, hpath⟩
  | .null | .bool _ | .int _ | .float _ | .string _ =>
      rw [leaves_of_isScalar rfl, List.mem_singleton, Prod.mk.injEq] at h
      obtain ⟨rfl, rfl⟩ := h
      exact ⟨[], .scalar rfl, rfl⟩
termination_by v

theorem mem_leaves_iff {v x : Value} {root path : String} :
    (path, x) ∈ v.leaves root ↔ ∃ names, v.Bears names x ∧ pathOf root names = path := by
  constructor
  · exact bears_of_mem_leaves
  · rintro ⟨names, hbears, rfl⟩
    exact mem_leaves_of_bears hbears root

end Value

namespace IndexEntry

variable (val : Value) (path : String)

-- What the entries at a path hold is what the indexed scalars at the path are indexed as, and those
-- are the scalars of the body, in whatever place, whose path it is.
theorem entries_eq_leaves :
    {p | ∃ v ∈ leavesAt val path, (Key.encode? v, ScalarKind.of? v) = p} =
        {p | ∃ e ∈ ofBody val, e.path = path ∧ (some e.encoded, some e.kind) = p} ∧
      ∀ v, v ∈ leavesAt val path ↔
        (∃ names, val.Bears names v ∧ Value.pathOf root names = path) ∧
          (Key.encode? v).isSome = true := by
  refine ⟨Set.ext fun p => ⟨?_, ?_⟩, fun v => ?_⟩
  · rintro ⟨v, hv, rfl⟩
    obtain ⟨e, he, hpath, hencoded, hkind⟩ := exists_of_mem_leavesAt hv
    exact ⟨e, he, hpath, by rw [hencoded, hkind]⟩
  · rintro ⟨e, he, rfl, rfl⟩
    obtain ⟨v, hv, hencoded, hkind⟩ := mem_ofBody_iff.mp he
    exact ⟨v, hv, by rw [hencoded, hkind]⟩
  · rw [mem_leavesAt, Value.mem_leaves_iff]

-- Two places with one path.
example :
    leavesAt (.object [("a", .object [("b", .int 1)]),
        ("a.b", .array [.float ⟨0x3FF0000000000000⟩, .string "x"])]) "val.a.b" =
      [.int 1, .float ⟨0x3FF0000000000000⟩, .string "x"] := by
  cbv

end IndexEntry

end DocStore
