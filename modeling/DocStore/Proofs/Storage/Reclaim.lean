import DocStore.Proofs.Storage.Release

-- What nobody looks at any more is forgotten, key by key, when the key is written again.
namespace DocStore

namespace VersionChain

-- What a chain has come down to when nobody looks at what is older than `oldest`.
structure Reclaimed (chain : VersionChain) (oldest : Nat) : Prop where
  -- one version is enough for all who look at the oldest in use
  one : chain.countP (fun e => e.1 ≤ oldest) ≤ 1
  -- there is more than a deletion that everybody sees
  live : ∀ gone, chain = [(gone, none)] → oldest < gone

variable {chain : VersionChain} {oldest later : Nat}

theorem Reclaimed.mono (h : chain.Reclaimed later) (hle : oldest ≤ later) :
    chain.Reclaimed oldest where
  one := by
    refine Nat.le_trans (List.countP_mono_left fun e _ he => ?_) h.one
    rw [decide_eq_true_eq] at he ⊢
    exact Nat.le_trans he hle
  live gone hgone := Nat.lt_of_le_of_lt hle (h.live gone hgone)

theorem prune_reclaimed (chain : VersionChain) (oldest : Nat) :
    (chain.prune oldest).Reclaimed oldest := by
  have hkept : (chain.drop ((chain.visibleIndex? oldest).getD 0)).countP
      (fun e => e.1 ≤ oldest) ≤ 1 := by
    cases hi : chain.visibleIndex? oldest with
    | none =>
        have hnone : chain.countP (fun e => e.1 ≤ oldest) = 0 :=
          List.countP_eq_zero.mpr (fun e he => by simpa using visibleIndex?_eq_none hi e he)
        simp [hnone]
    | some i =>
        obtain ⟨front, e, back, hc, hlen, he, hnew⟩ := visibleIndex?_eq_some hi
        have hnone : back.countP (fun e => e.1 ≤ oldest) = 0 :=
          List.countP_eq_zero.mpr (fun e he => by simpa using hnew e he)
        rw [hc, Option.getD_some, ← hlen, List.drop_left, List.countP_cons, hnone]
        simp [he]
  simp only [prune]
  split
  · next version heq =>
    split
    · exact ⟨by simp, by simp⟩
    · next hgone =>
      refine ⟨hkept, fun gone h => ?_⟩
      rw [heq] at h
      cases h
      exact Nat.not_le.mp hgone
  · next hne => exact ⟨hkept, fun gone h => absurd h (hne gone)⟩

-- A chain of which everybody sees the newest version holds that version, if it is no deletion.
theorem Reclaimed.cases (h : chain.Reclaimed oldest) (hseen : ∀ e ∈ chain, e.1 ≤ oldest) :
    chain = [] ∧ chain.valueAt? oldest = none ∨
      ∃ version value, chain = [(version, some value)] ∧ chain.valueAt? oldest = some value := by
  have hlen : chain.length ≤ 1 := by
    have hall : chain.countP (fun e => e.1 ≤ oldest) = chain.length :=
      List.countP_eq_length.mpr (fun e he => by simpa using hseen e he)
    exact hall ▸ h.one
  match chain, hlen with
  | [], _ => exact .inl ⟨rfl, rfl⟩
  | [(version, none)], _ =>
      exact absurd (hseen _ List.mem_cons_self) (Nat.not_le.mpr (h.live version rfl))
  | [(version, some value)], _ =>
      have hle : version ≤ oldest := hseen _ List.mem_cons_self
      exact .inr ⟨version, value, rfl, by simp [valueAt?, visible?, hle]⟩

end VersionChain

-- What a call commits.
def Course.commit? (c : Course) (call : Call) : Option Commit :=
  match call with
  | .commit n _ => c.chronicle.committed? n (c.session.exec call).1
  | _ => none

-- What a commit leaves of a store.
def MultiVersion.taking (kv : MultiVersion) (manager : TxnManager) : Option Commit → MultiVersion
  | none => ⟨kv.store, manager⟩
  | some commit =>
    ⟨manager.prune (kv.store.apply commit.writes.toList (kv.store.current + 1)) commit.writes.keys,
      manager⟩

private theorem exec_multi {kv : MultiVersion} {seats : List Seat} {call : Call}
    (hcall : ∀ n signal, call ≠ .commit n signal) :
    ∃ manager seats', (Session.exec ⟨.multi kv, seats⟩ call).2 =
      ⟨.multi ⟨kv.store, manager⟩, seats'⟩ := by
  cases call with
  | read => exact ⟨_, _, rfl⟩
  | write signal stop => cases signal <;> exact ⟨_, _, rfl⟩
  | writeExclusive signal stop keys =>
      cases signal with
      | go =>
          simp only [Session.exec, Kv.writeExclusive, TxnManager.beginExclusive, Signal.check]
          generalize kv.manager.intents.acquire kv.manager.nextId keys = acquired
          obtain ⟨progress, taken, intents⟩ := acquired
          cases progress <;> exact ⟨_, _, rfl⟩
      | cancelled => exact ⟨_, _, rfl⟩
      | expired => exact ⟨_, _, rfl⟩
  | get n signal key | iter n range =>
      simp only [Session.exec]
      cases seats[n]? <;> exact ⟨_, _, rfl⟩
  | pull n i signal =>
      simp only [Session.exec]
      cases seats[n]? with
      | none => exact ⟨_, _, rfl⟩
      | some seat =>
          simp only
          cases seat.iters[i]? <;> exact ⟨_, _, rfl⟩
  | buffer n key value =>
      simp only [Session.exec]
      cases seats[n]? with
      | none => exact ⟨_, _, rfl⟩
      | some seat =>
          simp only
          cases Kv.buffer seat.handle key value <;> exact ⟨_, _, rfl⟩
  | commit n signal => exact absurd rfl (hcall n signal)
  | close n =>
      simp only [Session.exec]
      cases seats[n]? with
      | none => exact ⟨_, _, rfl⟩
      | some seat =>
          simp only
          rcases seat.handle with ⟨_, _ | _⟩ | ⟨_, _ | _⟩ | _ | _ <;> exact ⟨_, _, rfl⟩

namespace Isolated

variable {kv : MultiVersion} {seats : List Seat} {c : Chronicle}

private theorem exec_commit (h : Isolated kv seats c) (n : Nat) (signal : Signal) :
    ∃ manager seats', (Session.exec ⟨.multi kv, seats⟩ (.commit n signal)).2 =
      ⟨.multi (kv.taking manager
        (c.committed? n (Session.exec ⟨.multi kv, seats⟩ (.commit n signal)).1)), seats'⟩ := by
  cases hn : seats[n]? with
  | none =>
      simp only [Session.exec, hn]
      exact ⟨kv.manager, seats, rfl⟩
  | some seat =>
      obtain ⟨o, ho, hs⟩ := forall₂_getElem?_left h.shows hn
      by_cases hw : o.Writing
      · obtain ⟨txn, hhandle, -, hactive, hwrites, -⟩ := hs.plays.writing hw
        cases hsignal : signal.check with
        | error e =>
            obtain ⟨ended, -, hcommit⟩ := Kv.commit_of_over kv txn hsignal
            simp only [Session.exec, hn, hhandle, hcommit]
            exact ⟨_, _, rfl⟩
        | ok _ =>
            cases hc : txn.conflicts kv.store kv.manager.intents with
            | cons conflict rest =>
                obtain ⟨ended, -, hcommit⟩ := Kv.commit_of_conflict hactive hsignal hc
                simp only [Session.exec, hn, hhandle, hcommit]
                exact ⟨_, _, rfl⟩
            | nil =>
                obtain ⟨ended, -, hcommit⟩ := Kv.commit_of_clear hactive hsignal hc
                simp only [Session.exec, hn, hhandle, hcommit, hwrites]
                by_cases hsize : o.writes.size = 0
                · have hnone : c.committed? n (.done (.ok ())) = none := by
                    simp [Chronicle.committed?, ho, hsize]
                  have hkeys : o.writes.keys = [] := by
                    simpa [SortedMap.size, SortedMap.keys] using hsize
                  rw [hnone, if_pos hsize, hkeys]
                  exact ⟨_, _, rfl⟩
                · have hsome : c.committed? n (.done (.ok ())) = some ⟨n, o.writes⟩ := by
                    simp [Chronicle.committed?, ho, hsize, hw]
                  rw [hsome, if_neg hsize]
                  exact ⟨_, _, rfl⟩
      · obtain ⟨e, hcommit⟩ := hs.plays.commit_refused hw kv signal
        simp only [Session.exec, hn, hcommit]
        exact ⟨kv.manager, _, rfl⟩

-- The store after a call is the one before, or has one commit more and its keys pruned.
theorem exec_eq (h : Isolated kv seats c) (call : Call) :
    ∃ manager seats', (Session.exec ⟨.multi kv, seats⟩ call).2 =
      ⟨.multi (kv.taking manager (Course.commit? ⟨⟨.multi kv, seats⟩, c⟩ call)), seats'⟩ := by
  cases call with
  | commit n signal => exact h.exec_commit n signal
  | read | write | writeExclusive | get | iter | pull | buffer | close =>
      exact exec_multi (by simp)

end Isolated

-- All that a store has of a key is its value, or nothing if it has none.
def VersionStore.HoldsOnly (store : VersionStore) (key : Bytes) : Option Bytes → Prop
  | some value => ∃ version, store.chains.get? key = some [(version, some value)]
  | none => store.chains.get? key = none

namespace Isolated

variable {kv : MultiVersion} {seats : List Seat} {c : Chronicle} {key : Bytes} {floor : Nat}

-- Every version that is kept was committed.
theorem exists_commit (h : Isolated kv seats c) {e : Nat × Option Bytes}
    (he : e ∈ kv.store.chain key) (hlt : floor < e.1) :
    ∃ commit ∈ c.log.drop floor, key ∈ commit.writes.keys := by
  have hwritten := (h.keeps.tells key).genuine e he
  obtain ⟨i, commit, hi, hle, hkey⟩ := CommitLog.written?_eq_some_iff.mp ⟨e.1, e.2, hlt, hwritten⟩
  refine ⟨commit, List.mem_iff_getElem?.mpr ⟨i - floor, ?_⟩, hkey⟩
  rw [List.getElem?_drop, Nat.add_sub_cancel' hle, hi]

theorem absent_of_unwritten (h : Isolated kv seats c) (hfilled : kv.store.Filled)
    (hun : ∀ commit ∈ c.log, key ∉ commit.writes.keys) : kv.store.chains.get? key = none := by
  rw [hfilled.get?_eq_none_iff, List.eq_nil_iff_forall_not_mem]
  intro e he
  have hpos : 0 < e.1 := by
    refine Nat.pos_of_ne_zero (fun hzero => ?_)
    have hwritten := (h.keeps.tells key).genuine e he
    rw [hzero] at hwritten
    cases hwritten
  obtain ⟨commit, hc, hkey⟩ := h.exists_commit he hpos
  exact hun commit hc hkey

theorem holdsOnly_of_reclaimed (h : Isolated kv seats c) (hfilled : kv.store.Filled)
    (hr : (kv.store.chain key).Reclaimed floor) (hfloor : floor ≤ c.log.length)
    (hun : ∀ commit ∈ c.log.drop floor, key ∉ commit.writes.keys) :
    kv.store.HoldsOnly key (c.log.current.get? key) := by
  have hseen : ∀ e ∈ kv.store.chain key, e.1 ≤ floor := by
    intro e he
    by_contra hlt
    obtain ⟨commit, hc, hkey⟩ := h.exists_commit he (Nat.not_le.mp hlt)
    exact hun commit hc hkey
  have hvalue : (kv.store.chain key).valueAt? floor = c.log.current.get? key := by
    rw [← VersionChain.valueAt?_of_bounded hseen hfloor]
    exact (h.keeps.tells key).answers _ h.oldest_le_length
  rw [← hvalue]
  rcases hr.cases hseen with ⟨hnil, hnone⟩ | ⟨version, value, hone, hsome⟩
  · rw [hnone]
    exact hfilled.get?_eq_none_iff.mpr hnil
  · rw [hsome]
    exact ⟨version, VersionStore.get?_of_chain hone (List.cons_ne_nil _ _)⟩

end Isolated

namespace MultiVersion

variable {kv : MultiVersion} {manager : TxnManager} {committed : Option Commit} {key : Bytes}

theorem filled_taking (h : kv.store.Filled) : (kv.taking manager committed).store.Filled := by
  cases committed with
  | none => exact h
  | some commit => exact (h.apply _ _).prune _ _

theorem chain_taking_of_notMem (h : ∀ commit, committed = some commit → key ∉ commit.writes.keys) :
    (kv.taking manager committed).store.chain key = kv.store.chain key := by
  cases committed with
  | none => rfl
  | some commit =>
      have hkey := h commit rfl
      have hunwritten : Assoc.get? key commit.writes.toList = none :=
        commit.writes.get?_eq_none_iff.mpr hkey
      have hkeys : (commit.writes.toList.map (·.1)).Nodup := commit.writes.nodup_keys
      simp only [taking, TxnManager.prune]
      rw [VersionStore.chain_prune _ commit.writes.nodup_keys, if_neg hkey,
        VersionStore.chain_apply _ hkeys, hunwritten]

theorem reclaimed_taking {commit : Commit} (h : key ∈ commit.writes.keys) :
    ((kv.taking manager (some commit)).store.chain key).Reclaimed
      (manager.oldest (kv.taking manager (some commit)).store.current) := by
  have hpruned := VersionStore.chain_prune
    (kv.store.apply commit.writes.toList (kv.store.current + 1)) commit.writes.nodup_keys
    (manager.oldest (kv.taking manager (some commit)).store.current) key
  rw [if_pos h] at hpruned
  exact hpruned ▸ VersionChain.prune_reclaimed _ _

end MultiVersion

namespace Course

-- A key is reclaimed as far as a version that nobody will look behind any more.
def Reclaims (c : Course) (key : Bytes) (floor : Nat) : Prop :=
  ∃ kv, c.session.kv = .multi kv ∧ (kv.store.chain key).Reclaimed floor ∧
    floor ≤ c.chronicle.oldest

variable {c : Course} {call : Call} {key : Bytes}

-- What a call does to the store, and that the oldest version in use never gets older.
theorem Isolated.takes (h : c.Isolated) (call : Call) :
    ∃ kv manager, c.session.kv = .multi kv ∧
      (c.step call).session.kv = .multi (kv.taking manager (c.commit? call)) ∧
      manager.oldest (kv.taking manager (c.commit? call)).store.current =
        (c.step call).chronicle.oldest ∧
      c.chronicle.oldest ≤ (c.step call).chronicle.oldest := by
  obtain ⟨kv', hkv', h'⟩ := h.step call
  obtain ⟨⟨_, seats⟩, chronicle⟩ := c
  obtain ⟨kv, rfl, h⟩ := h
  obtain ⟨manager, seats', hexec⟩ := h.exec_eq call
  have hkv : (Course.step ⟨⟨.multi kv, seats⟩, chronicle⟩ call).session.kv =
      .multi (kv.taking manager (Course.commit? ⟨⟨.multi kv, seats⟩, chronicle⟩ call)) :=
    congrArg Session.kv hexec
  rw [hkv, Kv.multi.injEq] at hkv'
  refine ⟨kv, manager, rfl, hkv, ?_, h.oldest_le_record h'⟩
  rw [← h'.oldest_eq, ← h'.keeps.current, ← hkv']
  cases commit? _ call <;> rfl

theorem Reclaims.of_commit (h : c.Isolated) {commit : Commit} (hc : c.commit? call = some commit)
    (hkey : key ∈ commit.writes.keys) :
    (c.step call).Reclaims key (c.step call).chronicle.oldest := by
  obtain ⟨kv, manager, -, hkv, holdest, -⟩ := h.takes call
  rw [hc] at hkv holdest
  exact ⟨_, hkv, holdest ▸ MultiVersion.reclaimed_taking hkey, Nat.le_refl _⟩

-- Whatever is called, it stays reclaimed as far as it was.
theorem Reclaims.step {floor : Nat} (hr : c.Reclaims key floor) (h : c.Isolated) (call : Call) :
    (c.step call).Reclaims key floor := by
  obtain ⟨kv, hkv, hchain, hfloor⟩ := hr
  obtain ⟨kv', manager, hkv', hstep, holdest, hle⟩ := h.takes call
  obtain rfl := Kv.multi.inj (hkv.symm.trans hkv')
  refine ⟨_, hstep, ?_, Nat.le_trans hfloor hle⟩
  by_cases hw : ∃ commit, c.commit? call = some commit ∧ key ∈ commit.writes.keys
  · obtain ⟨commit, hc, hkey⟩ := hw
    obtain ⟨kv', hkv', hnow, -⟩ := Reclaims.of_commit h hc hkey
    rw [hstep, Kv.multi.injEq] at hkv'
    exact hkv' ▸ hnow.mono (Nat.le_trans hfloor hle)
  · rw [MultiVersion.chain_taking_of_notMem (fun commit hc hkey => hw ⟨commit, hc, hkey⟩)]
    exact hchain

theorem filled_run (calls : List Call) :
    ∃ kv, (run .mvcc calls).session.kv = .multi kv ∧ kv.store.Filled := by
  induction calls using List.reverseRecOn with
  | nil => exact ⟨_, rfl, .empty⟩
  | append_singleton calls call ih =>
      obtain ⟨kv, hkv, hfilled⟩ := ih
      obtain ⟨kv', manager, hkv', hstep, -⟩ := (isolated_run calls).takes call
      obtain rfl := Kv.multi.inj (hkv.symm.trans hkv')
      rw [run_append]
      exact ⟨_, hstep, MultiVersion.filled_taking hfilled⟩

theorem reclaims_run {before : List Call} {commit : Commit}
    (hc : (run .mvcc before).commit? call = some commit) (hkey : key ∈ commit.writes.keys)
    (after : List Call) : (run .mvcc (before ++ [call] ++ after)).Reclaims key
      (run .mvcc (before ++ [call])).chronicle.oldest := by
  induction after using List.reverseRecOn with
  | nil =>
      rw [List.append_nil, run_append]
      exact .of_commit (isolated_run before) hc hkey
  | append_singleton after next ih =>
      rw [← List.append_assoc, run_append]
      exact ih.step (isolated_run _) next

-- A key that was committed is reclaimed as far as nobody looked back then, and stays so. If nobody
-- looked back at all, then its value alone is kept, or nothing if it was deleted, until the next
-- commit of the key. What was never committed is not there.
theorem reclaimed_of_commit (before after : List Call) (call : Call) (commit : Commit)
    (hc : (run .mvcc before).commit? call = some commit) :
    let written := (run .mvcc (before ++ [call])).chronicle
    let now := run .mvcc (before ++ [call] ++ after)
    ∃ kv, now.session.kv = .multi kv ∧
      (∀ key ∈ commit.writes.keys, (kv.store.chain key).Reclaimed written.oldest ∧
        (written.inUse = 0 →
          (∀ later ∈ now.chronicle.log.drop written.log.length, key ∉ later.writes.keys) →
          kv.store.HoldsOnly key (now.chronicle.log.current.get? key))) ∧
      ∀ key, (∀ commit ∈ now.chronicle.log, key ∉ commit.writes.keys) →
        kv.store.chains.get? key = none := by
  intro written now
  obtain ⟨kv, hkv, hfilled⟩ := filled_run (before ++ [call] ++ after)
  obtain ⟨kv', hkv', h⟩ := isolated_run (before ++ [call] ++ after)
  obtain rfl := Kv.multi.inj (hkv.symm.trans hkv')
  refine ⟨kv, hkv, fun key hkey => ?_, fun key => h.absent_of_unwritten hfilled⟩
  obtain ⟨kv', hkv', hr, hfloor⟩ := reclaims_run hc hkey after
  obtain rfl := Kv.multi.inj (hkv.symm.trans hkv')
  refine ⟨hr, fun hidle hun => ?_⟩
  have holdest : written.oldest = written.log.length := Chronicle.oldest_of_idle hidle
  have hlength : written.log.length ≤ now.chronicle.log.length :=
    holdest ▸ Nat.le_trans hfloor (h.oldest_eq ▸ h.oldest_le_length)
  exact h.holdsOnly_of_reclaimed hfilled (holdest ▸ hr) hlength hun

-- A key is deleted while somebody looks back at its value.
def watched : List Call :=
  [.write .go .cancelled, .buffer 0 [7] (some [1]), .commit 0 .go, .read,
    .write .go .cancelled, .buffer 2 [7] none, .commit 2 .go]

-- Nobody does any more when another key is to be committed.
def unwatched : List Call :=
  watched ++ [.close 1, .write .go .cancelled, .buffer 3 [8] (some [1])]

theorem reclaimed_of_unwatched :
    ∃ kv, (run .mvcc (unwatched ++ [.commit 3 .go] ++ [.read])).session.kv = .multi kv ∧
      (kv.store.chain [8]).Reclaimed 3 ∧ kv.store.HoldsOnly [8] (some [1]) ∧
      kv.store.chains.get? [9] = none := by
  have hc : (run .mvcc unwatched).commit? (.commit 3 .go) =
      some ⟨3, SortedMap.empty.insert [8] (some [1])⟩ := by rfl
  obtain ⟨kv, hkv, hkeys, habsent⟩ := reclaimed_of_commit unwatched [.read] (.commit 3 .go) _ hc
  obtain ⟨hreclaimed, honly⟩ := hkeys [8] (by decide)
  exact ⟨kv, hkv, hreclaimed, honly rfl (by decide), habsent [9] (by decide)⟩

-- The commit of the other key leaves both versions of the first one, although it was deleted and
-- nobody looks back.
theorem not_reclaimed_of_unwatched :
    let now := run .mvcc (unwatched ++ [.commit 3 .go])
    (run .mvcc unwatched).commit? (.commit 3 .go) =
        some ⟨3, SortedMap.empty.insert [8] (some [1])⟩ ∧
      now.chronicle.inUse = 0 ∧ now.chronicle.log.current.get? [7] = none ∧
      ∃ kv, now.session.kv = .multi kv ∧ kv.store.chain [7] = [(1, some [1]), (2, none)] ∧
        ¬(kv.store.chain [7]).Reclaimed now.chronicle.oldest := by
  refine ⟨by rfl, by rfl, by rfl, _, rfl, by rfl, ?_⟩
  intro h
  exact absurd h.one (by decide)

end Course

end DocStore
