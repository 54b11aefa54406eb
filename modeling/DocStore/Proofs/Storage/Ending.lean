import DocStore.Storage.Backend

-- How the writers of a multi-version store end.
namespace DocStore

-- A transaction that is over, and that was another one before.
structure Txn.Ends (ended txn : Txn) : Prop where
  id : ended.id = txn.id
  start : ended.start = txn.start
  inactive : ended.isActive = false

theorem TxnManager.finish_ends (m : TxnManager) (txn : Txn) : (m.finish txn).1.Ends txn := by
  unfold finish
  cases h : txn.isActive with
  | false => exact ⟨rfl, rfl, h⟩
  | true => exact ⟨rfl, rfl, rfl⟩

namespace Kv

variable {m : MultiVersion} {txn : Txn} {signal : Signal}

theorem commit_of_over (m : MultiVersion) (txn : Txn) {e : Error} (hs : signal.check = .error e) :
    ∃ ended : Txn, ended.Ends txn ∧ (Kv.multi m).commit (.multiWrite txn false) signal =
      (.error e, .multiWrite ended true,
        .multi { m with manager := (m.manager.finish txn).2 }) := by
  refine ⟨(m.manager.finish txn).1, m.manager.finish_ends txn, ?_⟩
  simp only [commit, hs, close]

-- Who has ended before cannot commit, and nothing comes of it.
theorem commit_of_ended (ha : txn.isActive = false) :
    ∃ e, (Kv.multi m).commit (.multiWrite txn true) signal =
      (.error e, .multiWrite txn true, .multi m) := by
  cases hs : signal.check with
  | error e => exact ⟨e, by simp only [commit, hs, close]⟩
  | ok _ =>
      have hfailed : ∃ failure, m.manager.commit txn m.store = (.error failure, txn, m.store) := by
        simp only [TxnManager.commit, Txn.beginValidation, ha, Bool.false_eq_true, ite_false]
        exact ⟨_, rfl⟩
      obtain ⟨failure, hcommit⟩ := hfailed
      exact ⟨failure.toError, by simp only [commit, hs, hcommit, close]⟩

-- The first conflict is the error that a commit comes to.
theorem commit_of_conflict (ha : txn.isActive = true) (hs : signal.check = .ok ())
    {conflict : TxnConflict} {rest : List TxnConflict}
    (hc : txn.conflicts m.store m.manager.intents = conflict :: rest) :
    ∃ ended : Txn, ended.Ends txn ∧ (Kv.multi m).commit (.multiWrite txn false) signal =
      (.error (.writeConflict conflict.key), .multiWrite ended true,
        .multi { m with manager := (m.manager.finish txn).2 }) := by
  have hcommit : m.manager.commit txn m.store =
      (.error (.conflicts (conflict :: rest)),
        { txn with status := .validating }.abort "write conflict", m.store) := by
    have hvalidating : { txn with status := .validating }.conflicts m.store m.manager.intents =
        conflict :: rest := hc
    simp only [TxnManager.commit, Txn.beginValidation, ha, ite_true, hvalidating]
  refine ⟨(m.manager.finish ({ txn with status := .validating }.abort "write conflict")).1,
    ⟨rfl, rfl, rfl⟩, ?_⟩
  simp only [commit, hs, hcommit, close, CommitFailure.toError]
  rfl

theorem commit_of_clear (ha : txn.isActive = true) (hs : signal.check = .ok ())
    (hc : txn.conflicts m.store m.manager.intents = []) :
    ∃ ended : Txn, ended.Ends txn ∧ (Kv.multi m).commit (.multiWrite txn false) signal =
      (.ok (), .multiWrite ended true,
        .multi ⟨(m.manager.finish txn).2.prune
          (if txn.writes.size = 0 then m.store
            else m.store.apply txn.writes.toList (m.store.current + 1)) txn.writes.keys,
          (m.manager.finish txn).2⟩) := by
  have hvalidating : { txn with status := .validating }.conflicts m.store m.manager.intents = [] :=
    hc
  by_cases hsize : txn.writes.size = 0
  · refine ⟨(m.manager.finish { txn with status := .committed }).1, ⟨rfl, rfl, rfl⟩, ?_⟩
    simp only [commit, hs, TxnManager.commit, Txn.beginValidation, ha, ite_true, hvalidating,
      hsize, close]
    rfl
  · refine ⟨(m.manager.finish
      { txn with status := .committed, writes := SortedMap.empty }).1, ⟨rfl, rfl, rfl⟩, ?_⟩
    simp only [commit, hs, TxnManager.commit, Txn.beginValidation, ha, ite_true, hvalidating,
      hsize, ite_false, close]
    rfl

end Kv

end DocStore
