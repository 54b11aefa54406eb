import Mathlib.Order.Basic
import DocStore.KeyRange
import DocStore.Proofs.SortedMap

namespace DocStore

namespace Bytes

-- Nothing lies between a byte string and the one that is a zero byte longer.
theorem lt_successor_iff (a b : Bytes) : b < successor a ↔ ¬a < b := by
  induction a generalizing b with
  | nil =>
      cases b with
      | nil => simp [successor]
      | cons x rest => simp [successor, List.cons_lt_cons_iff]
  | cons y a ih =>
      cases b with
      | nil => simp [successor]
      | cons x rest =>
          have hrest : rest < a ++ [0] ↔ ¬a < rest := ih rest
          simp only [successor, List.cons_append, List.cons_lt_cons_iff, hrest, not_or, not_and]
          rcases Std.lt_trichotomy x y with h | h | h
          · have h' : ¬y < x := fun hyx => Std.lt_irrefl (Std.lt_trans h hyx)
            have hne : y ≠ x := fun he => Std.lt_irrefl (he ▸ h)
            simp [h, h', hne]
          · subst h
            simp [Std.lt_irrefl]
          · have h' : ¬x < y := fun hxy => Std.lt_irrefl (Std.lt_trans h hxy)
            have hne : x ≠ y := fun he => Std.lt_irrefl (he ▸ h)
            simp [h, h', hne]

theorem successor_le_iff (a b : Bytes) : successor a ≤ b ↔ a < b := by
  rw [← not_iff_not, ← lt_successor_iff a b]
  exact Std.not_le

end Bytes

namespace KeyRange

variable {α : Type}

theorem contains_iff (range : KeyRange) (key : Bytes) : range.contains key = true ↔
    range.start ≤ key ∧ (range.stop = [] ∨ key < range.stop) := by
  simp [contains]

-- The range of a prefix holds the keys that begin with it, and no others.
theorem contains_ofPrefix (start key : Bytes) :
    (ofPrefix start).contains key = true ↔ start <+: key := by
  rw [contains_iff]
  show start ≤ key ∧ (start.afterPrefix = [] ∨ key < start.afterPrefix) ↔ start <+: key
  induction start generalizing key with
  | nil => simp [Bytes.afterPrefix]
  | cons b rest ih =>
      cases key with
      | nil => simp
      | cons c key =>
          have hkey := ih key
          rw [List.cons_prefix_cons, ← hkey, List.cons_le_cons_iff]
          cases hafter : Bytes.afterPrefix rest with
          | cons next nexts =>
              simp only [Bytes.afterPrefix, hafter, List.cons_lt_cons_iff, reduceCtorEq, false_or]
              constructor
              · rintro ⟨hlt | ⟨rfl, hle⟩, hgt | ⟨heq, h⟩⟩
                · exact absurd hgt (Std.not_lt.mpr (Std.le_of_lt hlt))
                · exact absurd hlt (heq ▸ Std.lt_irrefl)
                · exact absurd hgt Std.lt_irrefl
                · exact ⟨rfl, hle, h⟩
              · rintro ⟨rfl, hle, h⟩
                exact ⟨.inr ⟨rfl, hle⟩, .inr ⟨rfl, h⟩⟩
          | nil =>
              simp only [Bytes.afterPrefix, hafter, true_or, and_true]
              split
              · next hmax =>
                have hnot : ¬b < c := by
                  rw [hmax, UInt8.lt_iff_toNat_lt]
                  have := c.toNat_lt
                  simp
                  omega
                simp [hnot]
              · next hmax =>
                have hnext : c < b + 1 ↔ ¬b < c := by
                  rw [UInt8.lt_iff_toNat_lt, UInt8.lt_iff_toNat_lt, UInt8.toNat_add]
                  have hb := b.toNat_lt
                  have hne : b.toNat ≠ 255 := fun h => hmax (UInt8.toNat_inj.mp h)
                  simp
                  omega
                simp only [List.cons_lt_cons_iff, hnext, List.not_lt_nil, and_false, or_false,
                  reduceCtorEq, false_or]
                constructor
                · rintro ⟨hlt | heq, hnot⟩
                  · exact absurd hlt hnot
                  · exact heq
                · rintro ⟨rfl, hle⟩
                  exact ⟨.inr ⟨rfl, hle⟩, Std.lt_irrefl⟩

theorem not_isInverted {range : KeyRange} {key : Bytes} (h : range.contains key = true) :
    range.isInverted = false := by
  obtain ⟨hstart, hstop⟩ := (contains_iff range key).mp h
  rcases hstop with hnil | hlt
  · simp [isInverted, hnil]
  · have hne : ¬range.stop ≤ range.start := fun hle =>
      Std.lt_irrefl (Std.lt_of_lt_of_le hlt (Std.le_trans hle hstart))
    simp [isInverted, hne]

-- A range that goes on right behind one of its keys holds what comes after that key.
theorem contains_after {range : KeyRange} {key : Bytes} (h : range.contains key = true)
    (other : Bytes) :
    contains { range with start := key.successor } other =
      (range.contains other && decide (key < other)) := by
  simp only [contains, Bool.and_eq_true, decide_eq_true_eq] at h
  have hstart : decide (key.successor ≤ other) = decide (key < other) := by
    simp only [Bytes.successor_le_iff]
  simp only [contains, hstart]
  by_cases hlt : key < other
  · simp [hlt, Std.le_trans h.1 (Std.le_of_lt hlt)]
  · simp [hlt]

theorem select_after {range : KeyRange} {map : SortedMap Bytes α} {front back : List (Bytes × α)}
    {e : Bytes × α} (h : range.select map = front ++ e :: back) :
    ({ range with start := e.1.successor } : KeyRange).select map = back := by
  have hasc := range.ascending_select map
  have hmem : e ∈ range.select map := by simp [h]
  have hcontains := ((mem_select_iff range map).mp hmem).2
  have hfilter : ({ range with start := e.1.successor } : KeyRange).select map =
      (range.select map).filter (fun x => decide (e.1 < x.1)) := by
    simp only [select, List.filter_filter, contains_after hcontains]
    congr 1
    funext x
    exact Bool.and_comm _ _
  rw [h] at hasc hfilter
  obtain ⟨-, htail, hcross⟩ := List.pairwise_append.mp hasc
  have hback := (List.pairwise_cons.mp htail).1
  have hfront : front.filter (fun x => decide (e.1 < x.1)) = [] := by
    apply List.filter_eq_nil_iff.mpr
    intro x hx
    simpa using Std.le_of_lt (hcross x hx e (by simp))
  have hkept : back.filter (fun x => decide (e.1 < x.1)) = back :=
    List.filter_eq_self.mpr (fun x hx => by simpa using hback x hx)
  rw [hfilter, List.filter_append, hfront, List.filter_cons]
  simp [Std.lt_irrefl, hkept]

end KeyRange

namespace Bytes

theorem afterPrefix_ne_nil {b : UInt8} {rest : Bytes} (h : b ≠ 0xFF) :
    afterPrefix (b :: rest) ≠ [] := by
  simp only [afterPrefix]
  split
  · simp [h]
  · simp

-- Behind all keys with a prefix come the greater keys without it.
theorem afterPrefix_le_iff {start : Bytes} (h : afterPrefix start ≠ []) (key : Bytes) :
    afterPrefix start ≤ key ↔ start < key ∧ ¬start <+: key := by
  have hcontains : ∀ key, start ≤ key ∧ key < afterPrefix start ↔ start <+: key := by
    intro key
    rw [← KeyRange.contains_ofPrefix, KeyRange.contains_iff]
    exact and_congr_right (fun _ => (or_iff_right h).symm)
  constructor
  · intro hle
    have hprefix : ¬start <+: key := fun hp =>
      Std.lt_irrefl (Std.lt_of_lt_of_le ((hcontains key).mpr hp).2 hle)
    have hself := ((hcontains start).mpr List.prefix_rfl).2
    exact ⟨Std.lt_of_lt_of_le hself hle, hprefix⟩
  · rintro ⟨hlt, hprefix⟩
    by_contra hnot
    exact hprefix ((hcontains key).mp ⟨Std.le_of_lt hlt, Std.not_le.mp hnot⟩)

end Bytes

end DocStore
