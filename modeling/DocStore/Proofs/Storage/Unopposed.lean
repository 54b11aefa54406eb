import DocStore.Proofs.Storage.Unmoved

-- A writer in whose way nobody is. It comes to the same with and without keys that it has reserved.
namespace DocStore

-- The same storage, but for the keys that are reserved.
def Kv.reserving (table : IntentTable) : Kv → Kv
  | .multi kv => .multi { kv with manager := { kv.manager with intents := table } }
  | .single kv => .single kv

-- The same handle, but for the keys that it has reserved.
def Handle.reserving (keys : List Bytes) : Handle → Handle
  | .multiWrite txn finished => .multiWrite { txn with intents := keys } finished
  | h => h

namespace Kv

variable {kv kv' : Kv} {h h' : Handle} {table : IntentTable} {keys : List Bytes} {signal : Signal}
  {stop e : Error}

-- Nobody has reserved a key, or has the right to write.
def Idle : Kv → Prop
  | .multi kv => ∀ key, kv.manager.intents.owner? key = none
  | .single kv => kv.busy = false

-- Besides, there is nothing that is newer than what a writer sees that opens now.
def Clear : Kv → Prop
  | .multi kv => (Kv.multi kv).Idle ∧
    ∀ key version, kv.store.latest? key = some version → version ≤ kv.store.current
  | .single kv => (Kv.single kv).Idle

theorem Clear.owner?_ne {m : MultiVersion} (hclear : (Kv.multi m).Clear) (key : Bytes) (id : Nat) :
    m.manager.intents.owner? key ≠ some id := by
  rw [show m.manager.intents.owner? key = none from hclear.1 key]
  exact nofun

theorem Unmoved.idle (h : kv.Unmoved kv') (hidle : kv.Idle) : kv'.Idle := by
  match kv, kv' with
  | .multi _, .multi _ =>
      intro key
      rw [h.2.intents]
      exact hidle key
  | .single _, .single _ =>
      obtain rfl := h
      exact hidle

theorem Unmoved.clear (h : kv.Unmoved kv') (hclear : kv.Clear) : kv'.Clear := by
  match kv, kv' with
  | .multi _, .multi _ =>
      refine ⟨h.idle hclear.1, fun key version => ?_⟩
      rw [h.1]
      exact hclear.2 key version
  | .single _, .single _ => exact h.idle hclear

theorem Reached.clear (h : kv.Reached) (hidle : kv.Idle) : kv.Clear := by
  obtain ⟨kind, calls, rfl⟩ := h
  cases kind with
  | embedded =>
      obtain ⟨s, hkv, -⟩ := Course.exclusive_run calls
      rw [hkv] at hidle ⊢
      exact hidle
  | mvcc =>
      obtain ⟨m, hkv, hisolated⟩ := Course.isolated_run calls
      rw [hkv] at hidle ⊢
      refine ⟨hidle, fun key version hlatest => ?_⟩
      obtain ⟨entry, hlast, rfl⟩ := Option.map_eq_some_iff.mp hlatest
      have hwritten := (hisolated.keeps.tells key).genuine entry (List.mem_of_getLast? hlast)
      rw [hisolated.keeps.current]
      exact CommitLog.le_length_of_written? hwritten

section Reserving

-- What is reserved is nothing to those who read.
theorem view_reserving (kv : Kv) (table : IntentTable) (h : Handle) (keys : List Bytes)
    (signal : Signal) :
    (kv.reserving table).view (h.reserving keys) signal = kv.view h signal := by
  cases kv <;> cases h <;> rfl

theorem buffer_reserving (h : Handle) (keys : List Bytes) (key : Bytes) (value : Option Bytes) :
    buffer (h.reserving keys) key value = (buffer h key value).map (Handle.reserving keys) := by
  cases h with
  | multiRead | singleRead => rfl
  | multiWrite txn finished =>
      obtain ⟨id, start, status, writes, intents⟩ := txn
      cases status <;> rfl
  | singleWrite writes isOpen => cases isOpen <;> rfl

theorem bufferAll_reserving (h : Handle) (keys : List Bytes) (writes : List Write) :
    bufferAll (h.reserving keys) writes = (bufferAll h writes).map (Handle.reserving keys) := by
  induction writes generalizing h with
  | nil => rfl
  | cons first rest ih =>
      have hstep : ∀ h : Handle, bufferAll h (first :: rest) =
          buffer h first.1 first.2 >>= fun h => bufferAll h rest := fun _ => rfl
      rw [hstep, hstep, buffer_reserving]
      cases buffer h first.1 first.2 with
      | error e => rfl
      | ok h' => exact ih h'

end Reserving

-- A writer that was opened when nobody was at work. It may have reserved keys, and then nobody else
-- has any.
inductive Unopposed (keys : List Bytes) (table : IntentTable) : Kv → Handle → Prop where
  | multi {m : MultiVersion} {txn : Txn} : (Kv.multi m).Clear → txn.isActive = true →
    txn.intents = [] → txn.start = m.store.current →
    (∀ key, table.owner? key = if key ∈ keys then some txn.id else none) →
    Unopposed keys table (.multi m) (.multiWrite txn false)
  | single {s : SingleWriter} {writes : SortedMap Bytes (Option Bytes)} :
    Unopposed keys table (.single s) (.singleWrite writes true)

namespace Unopposed

theorem buffer (hu : Unopposed keys table kv h) {key : Bytes} {value : Option Bytes}
    (hbuffer : Kv.buffer h key value = .ok h') : Unopposed keys table kv h' := by
  cases hu with
  | multi hclear hactive hnone hstart howner =>
      simp only [Kv.buffer, Txn.write, Txn.ensureActive, hactive] at hbuffer
      cases hbuffer
      exact .multi hclear hactive hnone hstart howner
  | single =>
      cases hbuffer
      exact .single

theorem bufferAll (hu : Unopposed keys table kv h) {writes : List Write}
    (hbuffer : Kv.bufferAll h writes = .ok h') : Unopposed keys table kv h' := by
  induction writes generalizing h with
  | nil =>
      cases hbuffer
      exact hu
  | cons first rest ih =>
      simp only [Kv.bufferAll, List.foldlM_cons, bind, Except.bind] at hbuffer
      split at hbuffer
      · cases hbuffer
      · next hfirst => exact ih (hu.buffer hfirst) hbuffer

-- The keys that it has reserved are free again when it ends.
theorem release_eq {m : MultiVersion} {id : Nat} (hclear : (Kv.multi m).Clear)
    (howner : ∀ key, table.owner? key = if key ∈ keys then some id else none) :
    table.release id keys = m.manager.intents := by
  refine congrArg IntentTable.mk (SortedMap.ext_get? (fun key => ?_))
  have hafter := table.owner?_release id keys key
  have hbefore : m.manager.intents.owner? key = none := hclear.1 key
  rw [howner] at hafter
  refine (hafter.trans ?_).trans hbefore.symm
  by_cases hkey : key ∈ keys <;> simp [hkey]

theorem close (hu : Unopposed keys table kv h) :
    ((kv.reserving table).close (h.reserving keys)).2 = (kv.close h).2 := by
  cases hu with
  | single => rfl
  | @multi m txn hclear _ hnone _ howner =>
      have hidle : m.manager.intents.release txn.id [] = m.manager.intents := rfl
      simp only [Kv.close, reserving, Handle.reserving, TxnManager.finish,
        release_eq hclear howner, hnone, hidle]

-- Nobody has written its keys meanwhile, and nobody else has reserved any.
theorem conflicts_eq_nil {m : MultiVersion} {txn : Txn} (hclear : (Kv.multi m).Clear)
    (hstart : txn.start = m.store.current) {intents : IntentTable}
    (howner : ∀ key owner, intents.owner? key = some owner → owner = txn.id) :
    txn.conflicts m.store intents = [] := by
  refine List.eq_nil_iff_forall_not_mem.mpr (fun conflict hm => ?_)
  rcases List.mem_append.mp hm with hwritten | hreserved
  · obtain ⟨-, version, hlatest, hlt⟩ :=
      (txn.mem_writeConflicts_iff conflict.key m.store).mp ⟨conflict, hwritten, rfl⟩
    have hle := hclear.2 _ _ hlatest
    omega
  · obtain ⟨-, owner, hsome, hother⟩ :=
      (txn.mem_intentConflicts_iff conflict.key intents).mp ⟨conflict, hreserved, rfl⟩
    exact hother (howner _ _ hsome)

-- Only a context that is over can keep it from committing.
theorem commit (hu : Unopposed keys table kv h) (signal : Signal) :
    ∃ ended ended' after, kv.commit h signal = (signal.check, ended, after) ∧
      (kv.reserving table).commit (h.reserving keys) signal = (signal.check, ended', after) := by
  have hclose := hu.close
  cases hu with
  | @single s writes =>
      obtain ⟨ended, after, hcommit⟩ : ∃ ended after,
          (Kv.single s).commit (.singleWrite writes true) signal = (signal.check, ended, after) := by
        simp only [Kv.commit]
        cases signal.check <;> exact ⟨_, _, rfl⟩
      exact ⟨ended, ended, after, hcommit, hcommit⟩
  | @multi m txn hclear hactive hnone hstart howner =>
      let reserved : Txn := { txn with intents := keys }
      let held : MultiVersion := { m with manager := { m.manager with intents := table } }
      have hmanager : (held.manager.finish reserved).2 = (m.manager.finish txn).2 :=
        congrArg MultiVersion.manager (Kv.multi.inj hclose)
      cases hcheck : signal.check with
      | error e =>
          obtain ⟨ended, -, hplain⟩ := commit_of_over m txn hcheck
          obtain ⟨ended', -, hreserved⟩ := commit_of_over held reserved hcheck
          rw [hmanager] at hreserved
          exact ⟨_, _, _, hplain, hreserved⟩
      | ok _ =>
          have hfree : ∀ key owner, m.manager.intents.owner? key = some owner → owner = txn.id :=
            fun key owner howned => absurd howned (hclear.owner?_ne key owner)
          have hown : ∀ key owner, table.owner? key = some owner → owner = txn.id := by
            intro key owner howned
            rw [howner] at howned
            split at howned
            · exact (Option.some.inj howned).symm
            · cases howned
          obtain ⟨ended, -, hplain⟩ := commit_of_clear hactive hcheck
            (conflicts_eq_nil hclear hstart hfree)
          have hheld : reserved.conflicts held.store held.manager.intents = [] :=
            conflicts_eq_nil (m := m) hclear hstart hown
          obtain ⟨ended', -, hreserved⟩ := commit_of_clear (m := held)
            (show reserved.isActive = true from hactive) hcheck hheld
          rw [hmanager] at hreserved
          exact ⟨_, _, _, hplain, hreserved⟩

end Unopposed

-- A writer that opens when nobody is at work gets all the keys that it wants to reserve.
theorem Clear.opens (hclear : kv.Clear) (signal : Signal) (stop : Error) (keys : List Bytes) :
    (∃ e, signal.check = .error e ∧ kv.write signal stop = (.error e, kv) ∧
        kv.writeExclusive signal stop keys = (.error e, kv)) ∨
      ∃ h kv' taken table, kv.write signal stop = (.ok h, kv') ∧
        kv.writeExclusive signal stop keys = (.ok (h.reserving taken), kv'.reserving table) ∧
        Unopposed taken table kv' h := by
  cases hcheck : signal.check with
  | error e =>
      refine .inl ⟨e, rfl, ?_, ?_⟩
      · simp only [write, hcheck]
      · cases kv with
        | multi m => simp only [writeExclusive, TxnManager.beginExclusive, hcheck]
        | single s => simp only [writeExclusive, write, hcheck]
  | ok _ =>
      refine .inr ?_
      cases kv with
      | single s =>
          obtain ⟨data, busy⟩ := s
          obtain rfl : busy = false := hclear
          have hwrite : (Kv.single ⟨data, false⟩).write signal stop =
              (.ok (.singleWrite SortedMap.empty true), .single ⟨data, true⟩) := by
            simp only [write, hcheck]
            rfl
          exact ⟨_, _, [], IntentTable.empty, hwrite, hwrite, .single⟩
      | multi m =>
          obtain ⟨taken, table, hacquire⟩ :=
            IntentTable.acquire_of_free m.manager.nextId keys hclear.1
          obtain ⟨htaken, -, howner⟩ :=
            IntentTable.acquire_granted (fun key => hclear.owner?_ne key _) hacquire
          refine ⟨.multiWrite (Txn.new m.manager.nextId m.store.current []) false,
            .multi { m with manager := (m.manager.begin m.store).2 }, taken, table, ?_, ?_, ?_⟩
          · simp only [write, hcheck, TxnManager.begin]
          · simp only [writeExclusive, TxnManager.beginExclusive, hcheck, hacquire]
            rfl
          · refine .multi hclear rfl rfl rfl (fun key => ?_)
            rw [howner]
            simp only [htaken]
            split
            · rfl
            · exact hclear.1 key

end Kv

end DocStore
