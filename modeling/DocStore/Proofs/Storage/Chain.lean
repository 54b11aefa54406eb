import Mathlib.Data.List.Induction
import Mathlib.Order.Basic
import DocStore.Storage.Versions

namespace DocStore.VersionChain

variable {chain : VersionChain} {version oldest : Nat}

@[simp] theorem visible?_nil : visible? [] version = none := rfl

theorem visible?_append_of_lt {e : Nat × Option Bytes} (h : version < e.1) :
    visible? (chain ++ [e]) version = visible? chain version := by
  simp [visible?, h]

theorem visible?_append_of_le {e : Nat × Option Bytes} (h : e.1 ≤ version) :
    visible? (chain ++ [e]) version = some e := by
  simp [visible?, h]

theorem valueAt?_append_of_lt {e : Nat × Option Bytes} (h : version < e.1) :
    valueAt? (chain ++ [e]) version = valueAt? chain version := by
  rw [valueAt?, visible?_append_of_lt h, valueAt?]

theorem valueAt?_append_of_le {e : Nat × Option Bytes} (h : e.1 ≤ version) :
    valueAt? (chain ++ [e]) version = e.2 := by
  rw [valueAt?, visible?_append_of_le h, Option.bind_some]

-- A version later than all of a chain sees the last of it.
theorem visible?_eq_getLast? (h : ∀ e ∈ chain, e.1 ≤ version) :
    chain.visible? version = chain.getLast? := by
  induction chain using List.reverseRecOn with
  | nil => rfl
  | append_singleton front last _ =>
      rw [visible?_append_of_le (h last (by simp)), List.getLast?_concat]

theorem valueAt?_of_bounded {bound : Nat} (h : ∀ e ∈ chain, e.1 ≤ bound)
    (hle : bound ≤ version) : chain.valueAt? version = chain.valueAt? bound := by
  rw [valueAt?, visible?_eq_getLast? (fun e he => Nat.le_trans (h e he) hle), valueAt?,
    visible?_eq_getLast? h]

theorem record_of_lt {value : Option Bytes} (h : ∀ e ∈ chain, e.1 < version) :
    record chain version value = chain ++ [(version, value)] := by
  induction chain using List.reverseRecOn with
  | nil => rfl
  | append_singleton front last _ =>
      have hlast : last.1 ≠ version := Nat.ne_of_lt (h last (by simp))
      simp [record, hlast]

theorem record_ne_nil (chain : VersionChain) (version : Nat) (value : Option Bytes) :
    chain.record version value ≠ [] := by
  unfold record
  split
  · split <;> simp
  · simp

-- In front of what is visible at a version nothing is needed for later ones.
theorem visible?_drop {e : Nat × Option Bytes} (front back : VersionChain) (he : e.1 ≤ version) :
    visible? (front ++ e :: back) version = visible? (e :: back) version := by
  induction back using List.reverseRecOn with
  | nil =>
      have hone : visible? ([] ++ [e]) version = some e := visible?_append_of_le he
      rw [List.nil_append] at hone
      rw [hone, visible?_append_of_le he]
  | append_singleton back last ih =>
      have hwhole : front ++ e :: (back ++ [last]) = (front ++ e :: back) ++ [last] := by simp
      have hpart : e :: (back ++ [last]) = (e :: back) ++ [last] := by simp
      rw [hwhole, hpart]
      by_cases hl : last.1 ≤ version
      · rw [visible?_append_of_le hl, visible?_append_of_le hl]
      · rw [visible?_append_of_lt (by omega), visible?_append_of_lt (by omega), ih]

theorem visibleIndex?_eq_some {i : Nat} (h : chain.visibleIndex? version = some i) :
    ∃ front e back, chain = front ++ e :: back ∧ front.length = i ∧ e.1 ≤ version ∧
      ∀ later ∈ back, version < later.1 := by
  induction chain using List.reverseRecOn with
  | nil => simp [visibleIndex?] at h
  | append_singleton front last ih =>
      by_cases hl : last.1 ≤ version
      · have hi : i = front.length := by
          simp only [visibleIndex?, List.reverse_append, List.reverse_cons, List.reverse_nil,
            List.nil_append, List.singleton_append, List.findIdx?_cons, hl, decide_true,
            ite_true, Option.map_some, Option.some.injEq, List.length_append,
            List.length_singleton] at h
          omega
        exact ⟨front, last, [], rfl, hi.symm, hl, by simp⟩
      · simp only [visibleIndex?, List.reverse_append, List.reverse_cons, List.reverse_nil,
          List.nil_append, List.singleton_append, List.findIdx?_cons, hl, decide_false,
          Bool.false_eq_true, ite_false, Option.map_map, Option.map_eq_some_iff] at h
        obtain ⟨j, hj, hi⟩ := h
        have hback : visibleIndex? front version = some i := by
          simp only [visibleIndex?, Option.map_eq_some_iff]
          refine ⟨j, hj, ?_⟩
          simp only [Function.comp_apply, List.length_append, List.length_singleton] at hi
          omega
        obtain ⟨before, e, back, hf, hlen, he, hlater⟩ := ih hback
        refine ⟨before, e, back ++ [last], by simp [hf], hlen, he, fun later hm => ?_⟩
        rcases List.mem_append.mp hm with hm | hm
        · exact hlater later hm
        · rw [List.mem_singleton.mp hm]
          exact Nat.not_le.mp hl

theorem visibleIndex?_eq_none (h : chain.visibleIndex? version = none) :
    ∀ e ∈ chain, version < e.1 := by
  simpa [visibleIndex?] using h

-- The ways in which a chain is pruned: not at all, up to a version that is still visible, or
-- altogether behind a deletion that everybody sees.
theorem prune_cases (chain : VersionChain) (oldest : Nat) :
    (prune chain oldest = chain) ∨
    (∃ front e back, chain = front ++ e :: back ∧ e.1 ≤ oldest ∧ prune chain oldest = e :: back) ∨
    (∃ front gone, chain = front ++ [(gone, none)] ∧ gone ≤ oldest ∧ prune chain oldest = []) := by
  have hkept : ∃ front kept, chain = front ++ kept ∧
      chain.drop ((chain.visibleIndex? oldest).getD 0) = kept ∧
      (front = [] ∨ ∃ e back, kept = e :: back ∧ e.1 ≤ oldest) := by
    cases hi : chain.visibleIndex? oldest with
    | none => exact ⟨[], chain, by simp, by simp, .inl rfl⟩
    | some i =>
        obtain ⟨front, e, back, hc, hlen, he, -⟩ := visibleIndex?_eq_some hi
        refine ⟨front, e :: back, hc, ?_, .inr ⟨e, back, rfl, he⟩⟩
        simp [hc, ← hlen]
  obtain ⟨front, kept, hc, hdrop, hfront⟩ := hkept
  have hprune : prune chain oldest = kept ∨ prune chain oldest = [] ∧
      ∃ gone, kept = [(gone, none)] ∧ gone ≤ oldest := by
    simp only [prune, hdrop]
    split
    · next gone =>
      split
      · next hg => exact .inr ⟨rfl, gone, rfl, hg⟩
      · exact .inl rfl
    · exact .inl rfl
  rcases hprune with hp | ⟨hp, gone, rfl, hg⟩
  · rcases hfront with rfl | ⟨e, back, rfl, he⟩
    · exact .inl (by rw [hp, hc, List.nil_append])
    · exact .inr (.inl ⟨front, e, back, hc, he, hp⟩)
  · exact .inr (.inr ⟨front, gone, hc, hg, hp⟩)

theorem prune_sublist (chain : VersionChain) (oldest : Nat) :
    (prune chain oldest).Sublist chain := by
  rcases prune_cases chain oldest with h | ⟨front, e, back, hc, -, h⟩ | ⟨front, gone, -, -, h⟩
  · simp [h]
  · rw [h, hc]; exact List.sublist_append_right _ _
  · rw [h]; exact List.nil_sublist _

-- Whoever reads at a version that is not older than the oldest in use sees no pruning.
theorem valueAt?_prune (chain : VersionChain) (hle : oldest ≤ version) :
    (prune chain oldest).valueAt? version = chain.valueAt? version := by
  rcases prune_cases chain oldest with h | ⟨front, e, back, hc, he, h⟩ | ⟨front, gone, hc, hg, h⟩
  · rw [h]
  · rw [h, hc, valueAt?, ← visible?_drop front back (Nat.le_trans he hle), valueAt?]
  · rw [h, hc, valueAt?_append_of_le (Nat.le_trans hg hle)]
    rfl

-- A version newer than the oldest in use stays the last of its chain.
theorem getLast?_prune {e : Nat × Option Bytes} (h : chain.getLast? = some e)
    (hnew : oldest < e.1) : (prune chain oldest).getLast? = some e := by
  rcases prune_cases chain oldest with hp | ⟨front, x, back, hc, -, hp⟩ | ⟨front, gone, hc, hg, -⟩
  · rw [hp, h]
  · rw [hp, ← h, hc, List.getLast?_append]
    simp [List.getLast?_cons]
  · rw [hc, List.getLast?_concat, Option.some.injEq] at h
    subst h
    exact absurd hg (Nat.not_le.mpr hnew)

end DocStore.VersionChain
