import DocStore.Proofs.Storage.Intents
import DocStore.Storage.Transaction

namespace DocStore

namespace TxnManager

variable {m : TxnManager} {version current : Nat}

def holders (m : TxnManager) (version : Nat) : Nat := (m.readers.get? version).getD 0

-- A version that nobody holds is not listed.
def Tidy (m : TxnManager) : Prop := ∀ version, m.readers.get? version ≠ some 0

theorem holders_hold (m : TxnManager) (held version : Nat) :
    (m.hold held).holders version = m.holders version + if held = version then 1 else 0 := by
  simp only [holders, hold, SortedMap.get?_insert]
  by_cases h : held = version <;> simp [h]

theorem Tidy.hold (h : m.Tidy) (held : Nat) : (m.hold held).Tidy := by
  intro version
  simp only [TxnManager.hold, SortedMap.get?_insert]
  split
  · simp
  · exact h version

theorem holders_letGo (m : TxnManager) (held version : Nat) :
    (m.letGo held).holders version = m.holders version - if held = version then 1 else 0 := by
  unfold letGo
  cases hc : m.readers.get? held with
  | none =>
      by_cases h : held = version
      · subst h; simp [holders, hc]
      · simp [h]
  | some count =>
      simp only
      split
      · simp only [holders, SortedMap.get?_erase]
        by_cases h : held = version
        · subst h; simp [hc]; omega
        · simp [h]
      · simp only [holders, SortedMap.get?_insert]
        by_cases h : held = version
        · subst h; simp [hc]
        · simp [h]

theorem Tidy.letGo (h : m.Tidy) (held : Nat) : (m.letGo held).Tidy := by
  intro version
  unfold TxnManager.letGo
  cases hc : m.readers.get? held with
  | none => exact h version
  | some count =>
      simp only
      split
      · simp only [SortedMap.get?_erase]
        split
        · simp
        · exact h version
      · next hcount =>
        simp only [SortedMap.get?_insert]
        split
        · simp only [ne_eq, Option.some.injEq]; omega
        · exact h version

-- The oldest version in use is the greatest that is above neither a held version nor the newest.
theorem le_oldest_iff (h : m.Tidy) {bound : Nat} :
    bound ≤ m.oldest current ↔
      bound ≤ current ∧ ∀ version, 0 < m.holders version → bound ≤ version := by
  have hkeys : ∀ version, version ∈ m.readers.keys ↔ 0 < m.holders version := by
    intro version
    rw [SortedMap.mem_keys_iff, holders]
    cases hv : m.readers.get? version with
    | none => simp
    | some count =>
        have : count ≠ 0 := fun hz => h version (hz ▸ hv)
        simp; omega
  unfold oldest
  cases hhead : m.readers.keys.head? with
  | none =>
      have hnone : ∀ version, ¬0 < m.holders version := by
        intro version hv
        rw [List.head?_eq_none_iff] at hhead
        simpa [hhead] using (hkeys version).mpr hv
      exact ⟨fun hb => ⟨hb, fun version hv => absurd hv (hnone version)⟩, fun hb => hb.1⟩
  | some first =>
      have hfirst : 0 < m.holders first := (hkeys first).mp (List.mem_of_head? hhead)
      simp only [Nat.le_min]
      constructor
      · intro hb
        refine ⟨by omega, fun version hv => ?_⟩
        have : first ≤ version := m.readers.head_keys_le hhead ((hkeys version).mpr hv)
        omega
      · rintro ⟨hc, hall⟩
        have := hall first hfirst
        omega

end TxnManager

end DocStore
