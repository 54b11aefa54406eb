import DocStore.Proofs.Storage.Manager
import DocStore.Storage.Backend

namespace DocStore

namespace Handle

-- The version that a handle holds while it is open.
def held? : Handle → Option Nat
  | .multiRead version false => some version
  | .multiWrite txn false => some txn.start
  | _ => none

def number? : Handle → Option Nat
  | .multiWrite txn _ => some txn.id
  | _ => none

-- A writer that is open keeps others away from a key.
def Reserves (h : Handle) (id : Nat) (key : Bytes) : Prop :=
  match h with
  | .multiWrite txn false => txn.id = id ∧ key ∈ txn.intents
  | _ => False

theorem Reserves.number {h : Handle} {id : Nat} {key : Bytes} (hr : h.Reserves id key) :
    h.number? = some id := by
  match h with
  | .multiWrite txn false => exact congrArg some hr.1

end Handle

namespace TxnManager

-- The manager knows which versions and keys the handles have in use. A version counts once for
-- every handle that holds it.
structure Serves (m : TxnManager) (handles : List Handle) : Prop where
  tidy : m.Tidy
  counts : ∀ version, m.holders version = handles.countP (fun h => h.held? = some version)
  numbered : ∀ (i : Nat) (h : Handle) id, handles[i]? = some h → h.number? = some id → id < m.nextId
  distinct : ∀ (i j : Nat) (h h' : Handle) id, handles[i]? = some h → handles[j]? = some h' →
    h.number? = some id → h'.number? = some id → i = j
  owned : ∀ id key, m.intents.owner? key = some id ↔
    ∃ (i : Nat) (h : Handle), handles[i]? = some h ∧ h.Reserves id key

namespace Serves

variable {m : TxnManager} {handles : List Handle} {n : Nat}

theorem new : TxnManager.new.Serves [] where
  tidy version := by simp [TxnManager.new, SortedMap.get?_empty]
  counts version := by simp [holders, TxnManager.new, SortedMap.get?_empty]
  numbered := by simp
  distinct := by simp
  owned id key := by
    simp [TxnManager.new, IntentTable.owner?, IntentTable.empty, SortedMap.get?_empty]

theorem fresh (h : m.Serves handles) (key : Bytes) : m.intents.owner? key ≠ some m.nextId := by
  intro howner
  obtain ⟨i, handle, hi, hr⟩ := (h.owned _ _).mp howner
  exact absurd (h.numbered i handle _ hi hr.number) (Nat.lt_irrefl _)

private theorem number_of_set {old new handle : Handle} (hn : handles[n]? = some old)
    (hnumber : new.number? = old.number?) {i : Nat} (hi : (handles.set n new)[i]? = some handle) :
    ∃ before, handles[i]? = some before ∧ handle.number? = before.number? := by
  rw [List.getElem?_set] at hi
  split at hi
  · next heq =>
    subst heq
    obtain ⟨hlt, -⟩ := List.getElem?_eq_some_iff.mp hn
    rw [if_pos hlt, Option.some.injEq] at hi
    exact ⟨old, hn, hi ▸ hnumber⟩
  · exact ⟨handle, hi, rfl⟩

-- A handle may change in ways that are no business of the manager.
theorem replace (h : m.Serves handles) {old new : Handle} (hn : handles[n]? = some old)
    (hheld : new.held? = old.held?) (hnumber : new.number? = old.number?)
    (hreserves : ∀ id key, new.Reserves id key ↔ old.Reserves id key) :
    m.Serves (handles.set n new) := by
  obtain ⟨hlt, hget⟩ := List.getElem?_eq_some_iff.mp hn
  constructor
  case tidy => exact h.tidy
  case counts =>
    intro version
    rw [h.counts, List.countP_set hlt, hget, hheld]
    by_cases hv : old.held? = some version
    · have hpos : 0 < handles.countP (fun h => h.held? = some version) :=
        List.countP_pos_iff.mpr ⟨old, List.mem_of_getElem? hn, by simpa using hv⟩
      simp only [hv, decide_true, ite_true]
      omega
    · simp [hv]
  case numbered =>
    intro i handle id hi hid
    obtain ⟨before, hb, hnum⟩ := number_of_set hn hnumber hi
    exact h.numbered i before id hb (hnum ▸ hid)
  case distinct =>
    intro i j a b id hi hj ha hb
    obtain ⟨a', ha', hna⟩ := number_of_set hn hnumber hi
    obtain ⟨b', hb', hnb⟩ := number_of_set hn hnumber hj
    exact h.distinct i j a' b' id ha' hb' (hna ▸ ha) (hnb ▸ hb)
  case owned =>
    intro id key
    rw [h.owned]
    constructor
    · rintro ⟨i, handle, hi, hr⟩
      by_cases heq : n = i
      · subst heq
        rw [hn, Option.some.injEq] at hi
        exact ⟨n, new, by simp [hlt], (hreserves id key).mpr (hi ▸ hr)⟩
      · exact ⟨i, handle, by rw [List.getElem?_set_ne heq, hi], hr⟩
    · rintro ⟨i, handle, hi, hr⟩
      rw [List.getElem?_set] at hi
      split at hi
      · rw [Option.some.injEq] at hi
        exact ⟨n, old, hn, (hreserves id key).mp (hi ▸ hr)⟩
      · exact ⟨i, handle, hi, hr⟩

private theorem countP_concat (handles : List Handle) (new : Handle) (version : Nat) :
    (handles ++ [new]).countP (fun h => h.held? = some version) =
      handles.countP (fun h => h.held? = some version) +
        if new.held? = some version then 1 else 0 := by
  simp [List.countP_append, List.countP_singleton]

theorem openReader (h : m.Serves handles) (version : Nat) :
    (m.hold version).Serves (handles ++ [.multiRead version false]) := by
  have hat : ∀ (i : Nat) (handle : Handle) id,
      (handles ++ [.multiRead version false])[i]? = some handle →
      handle.number? = some id → handles[i]? = some handle := by
    intro i handle id hi hid
    rw [List.getElem?_append] at hi
    split at hi
    · exact hi
    · obtain rfl := List.mem_singleton.mp (List.mem_of_getElem? hi)
      cases hid
  constructor
  case tidy => exact h.tidy.hold version
  case counts =>
    intro other
    rw [holders_hold, h.counts, countP_concat]
    simp [Handle.held?]
  case numbered =>
    intro i handle id hi hid
    exact h.numbered i handle id (hat i handle id hi hid) hid
  case distinct =>
    intro i j a b id hi hj ha hb
    exact h.distinct i j a b id (hat i a id hi ha) (hat j b id hj hb) ha hb
  case owned =>
    intro id key
    refine (h.owned id key).trans ⟨?_, ?_⟩
    · rintro ⟨i, handle, hi, hr⟩
      obtain ⟨hlt, -⟩ := List.getElem?_eq_some_iff.mp hi
      exact ⟨i, handle, by rw [List.getElem?_append_left hlt, hi], hr⟩
    · rintro ⟨i, handle, hi, hr⟩
      exact ⟨i, handle, hat i handle id hi hr.number, hr⟩

-- A writer enters with the next number, and with the keys that nobody had reserved before.
theorem openWriter (h : m.Serves handles) (version : Nat) {intents : IntentTable}
    {taken : List Bytes} (hfree : ∀ key ∈ taken, m.intents.owner? key = none)
    (howner : ∀ key, intents.owner? key =
      if key ∈ taken then some m.nextId else m.intents.owner? key) :
    (TxnManager.hold ⟨m.nextId + 1, m.readers, intents⟩ version).Serves
      (handles ++ [.multiWrite (Txn.new m.nextId version taken) false]) := by
  generalize hnew : Handle.multiWrite (Txn.new m.nextId version taken) false = new
  have hnumber : new.number? = some m.nextId := by rw [← hnew]; rfl
  have hat : ∀ (i : Nat) handle, (handles ++ [new])[i]? = some handle →
      (handles[i]? = some handle) ∨ i = handles.length ∧ handle = new := by
    intro i handle hi
    rw [List.getElem?_append] at hi
    split at hi
    · exact .inl hi
    · next hge =>
      obtain ⟨hlt, -⟩ := List.getElem?_eq_some_iff.mp hi
      have hlast := List.mem_singleton.mp (List.mem_of_getElem? hi)
      rw [List.length_singleton] at hlt
      exact .inr ⟨by omega, hlast⟩
  constructor
  case tidy => exact Tidy.hold (m := ⟨m.nextId + 1, m.readers, intents⟩) h.tidy version
  case counts =>
    intro other
    rw [holders_hold, countP_concat, ← h.counts, ← hnew]
    simp [Handle.held?, Txn.new, holders]
  case numbered =>
    intro i handle id hi hid
    rcases hat i handle hi with hi | ⟨-, rfl⟩
    · exact Nat.lt_succ_of_lt (h.numbered i handle id hi hid)
    · rw [hnumber, Option.some.injEq] at hid
      exact hid ▸ Nat.lt_succ_self _
  case distinct =>
    intro i j a b id hi hj ha hb
    rcases hat i a hi with hi | ⟨hi, heqa⟩
    · rcases hat j b hj with hj | ⟨-, heqb⟩
      · exact h.distinct i j a b id hi hj ha hb
      · rw [heqb, hnumber, Option.some.injEq] at hb
        exact absurd (h.numbered i a id hi ha) (by omega)
    · rcases hat j b hj with hj | ⟨hj, -⟩
      · rw [heqa, hnumber, Option.some.injEq] at ha
        exact absurd (h.numbered j b id hj hb) (by omega)
      · omega
  case owned =>
    intro id key
    have hreserves : new.Reserves id key ↔ m.nextId = id ∧ key ∈ taken := by
      rw [← hnew]; exact Iff.rfl
    have hlast : (handles ++ [new])[handles.length]? = some new := by simp
    show intents.owner? key = some id ↔ _
    rw [howner]
    split
    · next hm =>
      rw [Option.some.injEq]
      constructor
      · exact fun hid => ⟨handles.length, new, hlast, hreserves.mpr ⟨hid, hm⟩⟩
      · rintro ⟨i, handle, hi, hr⟩
        rcases hat i handle hi with hi | ⟨-, rfl⟩
        · have := (h.owned id key).mpr ⟨i, handle, hi, hr⟩
          rw [hfree key hm] at this
          cases this
        · exact (hreserves.mp hr).1
    · next hm =>
      rw [h.owned]
      constructor
      · rintro ⟨i, handle, hi, hr⟩
        obtain ⟨hlt, -⟩ := List.getElem?_eq_some_iff.mp hi
        exact ⟨i, handle, by rw [List.getElem?_append_left hlt, hi], hr⟩
      · rintro ⟨i, handle, hi, hr⟩
        rcases hat i handle hi with hi | ⟨-, rfl⟩
        · exact ⟨i, handle, hi, hr⟩
        · exact absurd (hreserves.mp hr).2 hm

-- To fail to reserve keys uses up a number and nothing else.
theorem skip (h : m.Serves handles) {intents : IntentTable}
    (howner : ∀ key, intents.owner? key = m.intents.owner? key) :
    TxnManager.Serves ⟨m.nextId + 1, m.readers, intents⟩ handles where
  tidy := h.tidy
  counts := h.counts
  numbered i handle id hi hid := Nat.lt_succ_of_lt (h.numbered i handle id hi hid)
  distinct := h.distinct
  owned id key := by
    show intents.owner? key = some id ↔ _
    rw [howner, h.owned]

theorem finish (h : m.Serves handles) {old : Handle} (hn : handles[n]? = some old) (new : Handle)
    {version : Nat} (hheld : old.held? = some version) (hnew : new.held? = none)
    (hnumber : new.number? = old.number?) (hnone : ∀ id key, ¬new.Reserves id key)
    (intents : IntentTable) (howner : ∀ id key, intents.owner? key = some id ↔
      m.intents.owner? key = some id ∧ ¬old.Reserves id key) :
    (TxnManager.letGo { m with intents := intents } version).Serves (handles.set n new) := by
  obtain ⟨hlt, hget⟩ := List.getElem?_eq_some_iff.mp hn
  have hrest : ∀ held, (TxnManager.letGo { m with intents := intents } held).nextId = m.nextId ∧
      (TxnManager.letGo { m with intents := intents } held).intents = intents := by
    intro held
    simp only [letGo]
    split
    · exact ⟨rfl, rfl⟩
    · split <;> exact ⟨rfl, rfl⟩
  constructor
  case tidy => exact Tidy.letGo (m := { m with intents := intents }) h.tidy version
  case counts =>
    intro other
    have hcounts := h.counts other
    rw [holders_letGo, List.countP_set hlt, hget, hheld, hnew]
    simp only [holders] at hcounts ⊢
    rw [hcounts]
    by_cases hv : version = other <;> simp [hv]
  case numbered =>
    intro i handle id hi hid
    obtain ⟨before, hb, hnum⟩ := number_of_set hn hnumber hi
    rw [(hrest version).1]
    exact h.numbered i before id hb (hnum ▸ hid)
  case distinct =>
    intro i j a b id hi hj ha hb
    obtain ⟨a', ha', hna⟩ := number_of_set hn hnumber hi
    obtain ⟨b', hb', hnb⟩ := number_of_set hn hnumber hj
    exact h.distinct i j a' b' id ha' hb' (hna ▸ ha) (hnb ▸ hb)
  case owned =>
    intro id key
    rw [(hrest version).2, howner, h.owned]
    constructor
    · rintro ⟨⟨i, handle, hi, hr⟩, hold⟩
      have hne : n ≠ i := by
        rintro rfl
        rw [hn, Option.some.injEq] at hi
        exact hold (hi ▸ hr)
      exact ⟨i, handle, by rw [List.getElem?_set_ne hne, hi], hr⟩
    · rintro ⟨i, handle, hi, hr⟩
      rw [List.getElem?_set] at hi
      split at hi
      · rw [Option.some.injEq] at hi
        exact absurd (hi ▸ hr) (hnone id key)
      · next hne =>
        refine ⟨⟨i, handle, hi, hr⟩, fun hold => hne ?_⟩
        exact h.distinct n i old handle id hn hi hold.number hr.number

theorem closeReader (h : m.Serves handles) {version : Nat}
    (hn : handles[n]? = some (.multiRead version false)) :
    (m.letGo version).Serves (handles.set n (.multiRead version true)) :=
  h.finish hn (.multiRead version true) rfl rfl rfl (fun _ _ hr => hr) m.intents
    (fun id key => by simp [Handle.Reserves])

theorem closeWriter (h : m.Serves handles) {txn ended : Txn}
    (hn : handles[n]? = some (.multiWrite txn false)) (hid : ended.id = txn.id) :
    (m.finish txn).2.Serves (handles.set n (.multiWrite ended true)) := by
  refine h.finish hn (.multiWrite ended true) rfl rfl (congrArg some hid) (fun _ _ hr => hr)
    (m.intents.release txn.id txn.intents) (fun id key => ?_)
  rw [IntentTable.owner?_release]
  constructor
  · intro ho
    split at ho
    · cases ho
    · next hkept => exact ⟨ho, fun hr => hkept ⟨hr.2, hr.1 ▸ ho⟩⟩
  · rintro ⟨ho, hr⟩
    rw [if_neg, ho]
    rintro ⟨hm, hid⟩
    rw [ho, Option.some.injEq] at hid
    exact hr ⟨hid.symm, hm⟩

-- What is in use is not older than the oldest version in use.
theorem oldest_le (h : m.Serves handles) {current version : Nat} {handle : Handle}
    (hn : handles[n]? = some handle) (hheld : handle.held? = some version) :
    m.oldest current ≤ version := by
  refine ((le_oldest_iff h.tidy).mp (Nat.le_refl _)).2 version ?_
  rw [h.counts]
  exact List.countP_pos_iff.mpr ⟨handle, List.mem_of_getElem? hn, by simpa using hheld⟩

end Serves

theorem Tidy.oldest_le {m : TxnManager} (h : m.Tidy) (current : Nat) : m.oldest current ≤ current :=
  ((le_oldest_iff h).mp (Nat.le_refl _)).1

-- Handles come and go, and the oldest version in use never gets older.
theorem oldest_mono {m later : TxnManager} {current now : Nat} (h : m.Tidy) (hlater : later.Tidy)
    (hle : current ≤ now)
    (hheld : ∀ version, 0 < later.holders version → 0 < m.holders version ∨ current ≤ version) :
    m.oldest current ≤ later.oldest now := by
  obtain ⟨hcurrent, hall⟩ := (le_oldest_iff h).mp (Nat.le_refl (m.oldest current))
  refine (le_oldest_iff hlater).mpr ⟨Nat.le_trans hcurrent hle, fun version hv => ?_⟩
  rcases hheld version hv with hv | hv
  · exact hall version hv
  · exact Nat.le_trans hcurrent hv

end TxnManager

end DocStore
