import DocStore.Index.Entry
import Mathlib.Order.Basic

-- The index entries of a body are its indexed scalars.
namespace DocStore

theorem Key.scalarKind_of_encode? {v : Value} {encoded : Bytes} (h : encode? v = some encoded) :
    ∃ kind, ScalarKind.of? v = some kind := by
  cases v with
  | string s => exact ⟨.text, rfl⟩
  | int n => exact ⟨.number, rfl⟩
  | float x => exact ⟨.number, rfl⟩
  | null | bool | array | object => simp [encode?] at h

namespace IndexEntry

-- Entries of which neither is before the other are the same.
theorem eq_of_not_before {a b : IndexEntry} (h : a.before b = false) (h' : b.before a = false) :
    a = b := by
  obtain ⟨path, encoded, kind⟩ := a
  obtain ⟨path', encoded', kind'⟩ := b
  simp only [before] at h h'
  rcases Std.lt_trichotomy path path' with hlt | rfl | hlt
  · simp [hlt] at h
  · rcases Std.lt_trichotomy encoded encoded' with hlt | rfl | hlt
    · simp [hlt] at h
    · cases kind <;> cases kind' <;> simp_all
    · simp [hlt] at h'
  · simp [hlt] at h'

theorem mem_insert {e x : IndexEntry} {entries : List IndexEntry} :
    x ∈ insert e entries ↔ x = e ∨ x ∈ entries := by
  induction entries with
  | nil => simp [insert]
  | cons head rest ih =>
      simp only [insert]
      split
      · simp
      · split
        · simp only [List.mem_cons, ih]
          exact or_left_comm
        · next hbefore hafter =>
          have heq : e = head := eq_of_not_before (by simpa using hbefore) (by simpa using hafter)
          rw [heq, List.mem_cons, or_self_left]

theorem mem_ofBody {e : IndexEntry} {val : Value} :
    e ∈ ofBody val ↔ ∃ leaf ∈ val.leaves root, ofLeaf? leaf = some e := by
  have hfold : ∀ entries acc : List IndexEntry,
      e ∈ entries.foldl (fun acc x => insert x acc) acc ↔ e ∈ entries ∨ e ∈ acc := by
    intro entries
    induction entries with
    | nil => simp
    | cons x rest ih =>
        intro acc
        rw [List.foldl_cons, ih, mem_insert, List.mem_cons]
        exact or_left_comm.trans or_assoc.symm
  rw [ofBody, hfold, List.mem_filterMap]
  simp

theorem ofLeaf?_eq_some_iff {leaf : String × Value} {e : IndexEntry} :
    ofLeaf? leaf = some e ↔ leaf.1 = e.path ∧ Key.encode? leaf.2 = some e.encoded ∧
      ScalarKind.of? leaf.2 = some e.kind := by
  obtain ⟨path, encoded, kind⟩ := e
  simp only [ofLeaf?, Option.bind_eq_bind, Option.bind_eq_some_iff, Option.some.injEq,
    IndexEntry.mk.injEq]
  constructor
  · rintro ⟨_, hencoded, _, hkind, hpath, rfl, rfl⟩
    exact ⟨hpath, hencoded, hkind⟩
  · rintro ⟨hpath, hencoded, hkind⟩
    exact ⟨_, hencoded, _, hkind, hpath, rfl, rfl⟩

theorem mem_leavesAt {val v : Value} {path : String} :
    v ∈ leavesAt val path ↔ (path, v) ∈ val.leaves root ∧ (Key.encode? v).isSome := by
  simp only [leavesAt, List.mem_map, List.mem_filter, Bool.and_eq_true, beq_iff_eq]
  constructor
  · rintro ⟨⟨p, x⟩, ⟨hm, rfl, hencoded⟩, rfl⟩
    exact ⟨hm, hencoded⟩
  · rintro ⟨hm, hencoded⟩
    exact ⟨(path, v), ⟨hm, rfl, hencoded⟩, rfl⟩

-- A body has an entry exactly if one of its indexed scalars at the path is indexed so.
theorem mem_ofBody_iff {e : IndexEntry} {val : Value} :
    e ∈ ofBody val ↔ ∃ v ∈ leavesAt val e.path,
      Key.encode? v = some e.encoded ∧ ScalarKind.of? v = some e.kind := by
  rw [mem_ofBody]
  constructor
  · rintro ⟨⟨path, v⟩, hm, hleaf⟩
    obtain ⟨rfl, hencoded, hkind⟩ := ofLeaf?_eq_some_iff.mp hleaf
    exact ⟨v, mem_leavesAt.mpr ⟨hm, by rw [hencoded]; rfl⟩, hencoded, hkind⟩
  · rintro ⟨v, hv, hencoded, hkind⟩
    exact ⟨(e.path, v), (mem_leavesAt.mp hv).1, ofLeaf?_eq_some_iff.mpr ⟨rfl, hencoded, hkind⟩⟩

-- Every indexed scalar is behind some entry.
theorem exists_of_mem_leavesAt {val v : Value} {path : String} (h : v ∈ leavesAt val path) :
    ∃ e ∈ ofBody val, e.path = path ∧ Key.encode? v = some e.encoded ∧
      ScalarKind.of? v = some e.kind := by
  obtain ⟨encoded, hencoded⟩ := Option.isSome_iff_exists.mp (mem_leavesAt.mp h).2
  obtain ⟨kind, hkind⟩ := Key.scalarKind_of_encode? hencoded
  exact ⟨⟨path, encoded, kind⟩, mem_ofBody_iff.mpr ⟨v, h, hencoded, hkind⟩, rfl, hencoded, hkind⟩

end IndexEntry

end DocStore
