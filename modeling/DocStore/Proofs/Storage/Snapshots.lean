import DocStore.Proofs.Storage.Isolation

-- Every call on a multi-version store keeps it isolated, and gets the answer that a store that
-- never forgets would give.
namespace DocStore

def Course.Isolated (c : Course) : Prop :=
  ∃ kv, c.session.kv = .multi kv ∧ DocStore.Isolated kv c.session.seats c.chronicle

namespace Isolated

variable {kv : MultiVersion} {seats : List Seat} {c : Chronicle} {n : Nat} {signal : Signal}

theorem step_read (h : Isolated kv seats c) :
    (Course.step ⟨⟨.multi kv, seats⟩, c⟩ .read).Isolated := by
  refine ⟨_, rfl, h.enter (h.serves.openReader _) ⟨rfl, h.keeps.current, rfl, rfl⟩ ?_⟩
  intro version hv
  rw [TxnManager.holders_hold, h.keeps.current] at hv
  split at hv
  · next heq => exact .inr (Nat.le_of_eq heq)
  · exact .inl hv

-- A writer enters with the keys that it was granted, if it asked for some.
theorem openWriter (h : Isolated kv seats c) {keys taken : List Bytes} {intents : IntentTable}
    (htaken : ∀ key, key ∈ taken ↔ key ∈ keys)
    (hfree : ∀ key ∈ keys, kv.manager.intents.owner? key = none)
    (howner : ∀ key, intents.owner? key =
      if key ∈ keys then some kv.manager.nextId else kv.manager.intents.owner? key) :
    Isolated
      { kv with manager :=
        TxnManager.hold ⟨kv.manager.nextId + 1, kv.manager.readers, intents⟩ kv.store.current }
      (seats ++ [⟨.multiWrite (Txn.new kv.manager.nextId kv.store.current taken) false, []⟩])
      (c.enter true keys) := by
  refine h.enter (h.serves.openWriter _ (fun key hm => hfree key ((htaken key).mp hm)) ?_) ?_ ?_
  · intro key
    simp only [howner, htaken]
  · exact ⟨rfl, h.keeps.current, rfl, rfl, fun _ => ⟨rfl, htaken⟩⟩
  · intro version hv
    rw [TxnManager.holders_hold, h.keeps.current] at hv
    split at hv
    · next heq => exact .inr (Nat.le_of_eq heq)
    · exact .inl hv

theorem step_write (h : Isolated kv seats c) (signal : Signal) (stop : Error) :
    (Course.step ⟨⟨.multi kv, seats⟩, c⟩ (.write signal stop)).Isolated := by
  cases signal with
  | go => exact ⟨_, rfl, h.openWriter (fun _ => Iff.rfl) (by simp) (by simp)⟩
  | cancelled => exact ⟨kv, rfl, h⟩
  | expired => exact ⟨kv, rfl, h⟩

theorem step_writeExclusive (h : Isolated kv seats c) (signal : Signal) (stop : Error)
    (keys : List Bytes) :
    (Course.step ⟨⟨.multi kv, seats⟩, c⟩ (.writeExclusive signal stop keys)).Isolated := by
  cases signal with
  | go =>
      generalize hacquire : kv.manager.intents.acquire kv.manager.nextId keys = acquired
      obtain ⟨progress, taken, intents⟩ := acquired
      cases progress with
      | granted =>
          obtain ⟨htaken, hfree, howner⟩ := IntentTable.acquire_granted h.serves.fresh hacquire
          rw [Course.step_eq (.opened (.ok seats.length)) (by
            simp only [Session.exec, Kv.writeExclusive, TxnManager.beginExclusive, Signal.check,
              hacquire, Session.receive]
            rfl)]
          exact ⟨_, rfl, h.openWriter htaken hfree howner⟩
      | waiting =>
          have howner := IntentTable.acquire_waiting h.serves.fresh hacquire
          rw [Course.step_eq (.opened (.error stop)) (by
            simp only [Session.exec, Kv.writeExclusive, TxnManager.beginExclusive, Signal.check,
              hacquire, Session.receive]
            rfl)]
          exact ⟨_, rfl, h.keeps, h.serves.skip howner, h.shows, h.settled⟩
  | cancelled => exact ⟨kv, rfl, h⟩
  | expired => exact ⟨kv, rfl, h⟩

theorem step_iter (h : Isolated kv seats c) (n : Nat) (range : KeyRange) :
    (Course.step ⟨⟨.multi kv, seats⟩, c⟩ (.iter n range)).Isolated := by
  cases hn : seats[n]? with
  | none =>
      rw [Course.step_absent h.shows.length_eq rfl hn]
      exact ⟨kv, rfl, h⟩
  | some seat =>
      rw [Course.step_eq .nothing (by simp only [Session.exec, hn]; rfl)]
      refine ⟨kv, rfl, h.modify hn rfl rfl (fun _ _ => Iff.rfl) (fun o ho hs => ⟨?_, rfl⟩)⟩
      refine ⟨hs.plays.withIters _, hs.past, fun hopen => ?_⟩
      refine forall₂_concat (hs.iters hopen) ?_
      have hopen' : o.isOpen = true := hopen
      rw [if_pos hopen']
      exact (h.sees hn hs hopen).iter range

theorem step_pull (h : Isolated kv seats c) (n i : Nat) (signal : Signal) :
    (Course.step ⟨⟨.multi kv, seats⟩, c⟩ (.pull n i signal)).Isolated := by
  cases hn : seats[n]? with
  | none =>
      rw [Course.step_absent h.shows.length_eq rfl hn]
      exact ⟨kv, rfl, h⟩
  | some seat =>
      cases hi : seat.iters[i]? with
      | none =>
          rw [Course.step_eq .nothing (by simp only [Session.exec, hn, hi]; rfl)]
          exact ⟨kv, rfl, h⟩
      | some it =>
          rw [Course.step_eq (.item ((Kv.multi kv).pull seat.handle signal it).1) (by
            simp only [Session.exec, hn, hi]; rfl)]
          refine ⟨kv, rfl, h.modify hn rfl rfl (fun _ _ => Iff.rfl) (fun o ho hs => ⟨?_, rfl⟩)⟩
          refine ⟨hs.plays.withIters _, hs.past, fun hopen => ?_⟩
          refine forall₂_set_modify (hs.iters hopen) (fun p hp => ?_)
          obtain ⟨it', hi', hf⟩ := forall₂_getElem? (hs.iters hopen) hp
          rw [hi, Option.some.injEq] at hi'
          exact ((h.sees hn hs hopen).pull signal (hi' ▸ hf)).2

-- A handle that refuses what it is asked for loses its iterators.
private theorem modify_refused (h : Isolated kv seats c) {seat : Seat} {o : Outlook}
    (hn : seats[n]? = some seat) (ho : c.outlooks[n]? = some o) {f : Outlook → Outlook}
    (hf : f o = { o with iters := [] }) :
    Isolated kv (seats.set n ⟨seat.handle, []⟩) (c.modify n f) := by
  refine h.modify hn rfl rfl (fun _ _ => Iff.rfl) (fun o' ho' hs => ?_)
  rw [ho, Option.some.injEq] at ho'
  rw [← ho', hf]
  subst ho'
  exact ⟨⟨hs.plays.withIters _, hs.past, fun _ => .nil⟩, rfl⟩

theorem step_buffer (h : Isolated kv seats c) (n : Nat) (key : Bytes) (value : Option Bytes) :
    (Course.step ⟨⟨.multi kv, seats⟩, c⟩ (.buffer n key value)).Isolated := by
  cases hn : seats[n]? with
  | none =>
      rw [Course.step_absent h.shows.length_eq rfl hn]
      exact ⟨kv, rfl, h⟩
  | some seat =>
      obtain ⟨o, ho, hs⟩ := forall₂_getElem?_left h.shows hn
      by_cases hw : o.Writing
      · obtain ⟨after, hb, hplays, hheld, hnumber, hreserves⟩ := hs.plays.buffer hw key value
        rw [Course.step_eq (.done (.ok ())) (by simp only [Session.exec, hn, hb]; rfl)]
        refine ⟨kv, rfl, h.modify hn hheld hnumber hreserves (fun o' ho' _ => ?_)⟩
        rw [ho, Option.some.injEq] at ho'
        rw [← ho', Outlook.write, if_pos hw]
        exact ⟨⟨hplays, hs.past, fun _ => .nil⟩, rfl⟩
      · obtain ⟨e, hb⟩ := hs.plays.buffer_refused hw key value
        rw [Course.step_eq (.done (.error e)) (by simp only [Session.exec, hn, hb]; rfl)]
        exact ⟨kv, rfl, h.modify_refused hn ho (if_neg hw)⟩

theorem endWriter (h : Isolated kv seats c) {seat : Seat} {txn ended : Txn}
    (hn : seats[n]? = some seat) (hhandle : seat.handle = .multiWrite txn false)
    (hended : ended.Ends txn) :
    Isolated { kv with manager := (kv.manager.finish txn).2 }
      (seats.set n ⟨.multiWrite ended true, []⟩) (c.modify n Outlook.closed) := by
  refine h.close hn (h.serves.closeWriter ?_ hended.id) (fun o hp => ?_) (fun version => ?_)
  · rw [List.getElem?_map, hn, Option.map_some, hhandle]
  · rw [hhandle] at hp
    exact ⟨hp.1, hended.start.trans hp.2.1, rfl, hended.inactive, fun hopen => by cases hopen⟩
  · have hle : (kv.manager.finish txn).2.holders version =
        kv.manager.holders version - if txn.start = version then 1 else 0 :=
      TxnManager.holders_letGo _ txn.start version
    omega

theorem step_close (h : Isolated kv seats c) (n : Nat) :
    (Course.step ⟨⟨.multi kv, seats⟩, c⟩ (.close n)).Isolated := by
  cases hn : seats[n]? with
  | none =>
      rw [Course.step_absent h.shows.length_eq rfl hn]
      exact ⟨kv, rfl, h⟩
  | some seat =>
      obtain ⟨o, ho, hs⟩ := forall₂_getElem?_left h.shows hn
      -- what is closed already stays as it is
      have hagain (hopen : o.isOpen = false) :
          Isolated kv (seats.set n ⟨seat.handle, []⟩) (c.modify n Outlook.closed) :=
        h.modify_refused hn ho (Outlook.closed_eq hopen)
      have hplays := hs.plays
      generalize hhandle : seat.handle = handle at hplays hagain
      match handle with
      | .multiRead version false =>
          rw [Course.step_eq (.done (.ok ())) (by
            simp only [Session.exec, hn, hhandle, Kv.close]; rfl)]
          refine ⟨_, rfl, h.close hn (h.serves.closeReader ?_) (fun o hp => ?_) (fun other => ?_)⟩
          · rw [List.getElem?_map, hn, Option.map_some, hhandle]
          · rw [hhandle] at hp
            exact ⟨hp.1, hp.2.1, rfl, hp.2.2.2⟩
          · rw [TxnManager.holders_letGo]
            omega
      | .multiRead version true =>
          rw [Course.step_eq (.done (.ok ())) (by
            simp only [Session.exec, hn, hhandle, Kv.close]; rfl)]
          exact ⟨_, rfl, hagain (by simpa using hplays.2.2.1)⟩
      | .multiWrite txn false =>
          rw [Course.step_eq (.done (.ok ())) (by
            simp only [Session.exec, hn, hhandle, Kv.close]; rfl)]
          exact ⟨_, rfl, h.endWriter hn hhandle (kv.manager.finish_ends txn)⟩
      | .multiWrite txn true =>
          rw [Course.step_eq (.done (.ok ())) (by
            simp only [Session.exec, hn, hhandle, Kv.close]; rfl)]
          exact ⟨_, rfl, hagain (by simpa using hplays.2.2.1)⟩

-- A writer that commits leaves nothing behind, or one more version.
theorem step_commit_writing (h : Isolated kv seats c) {seat : Seat} {o : Outlook} (signal : Signal)
    (hn : seats[n]? = some seat) (ho : c.outlooks[n]? = some o) (hw : o.Writing) :
    (Course.step ⟨⟨.multi kv, seats⟩, c⟩ (.commit n signal)).Isolated := by
  obtain ⟨seat', hn', hs⟩ := forall₂_getElem? h.shows ho
  rw [hn, Option.some.injEq] at hn'
  obtain ⟨txn, hhandle, -, hactive, hwrites, -⟩ := hs.plays.writing hw
  rw [← hn'] at hhandle
  have hfinish := c.modify_finish ho hw
  have hfailed (e : Error) : c.record (.commit n signal) (.done (.error e)) =
      c.modify n Outlook.closed := by
    rw [← hfinish]
    simp [Chronicle.record, Chronicle.committed?, Chronicle.modify]
  cases hsignal : signal.check with
  | error e =>
      obtain ⟨ended, hended, hcommit⟩ := Kv.commit_of_over kv txn hsignal
      rw [Course.step_eq (.done (.error e)) (by
        simp only [Session.exec, hn, hhandle, hcommit]; rfl), hfailed]
      exact ⟨_, rfl, h.endWriter hn hhandle hended⟩
  | ok _ =>
      cases hc : txn.conflicts kv.store kv.manager.intents with
      | cons conflict rest =>
          obtain ⟨ended, hended, hcommit⟩ := Kv.commit_of_conflict hactive hsignal hc
          rw [Course.step_eq (.done (.error (.writeConflict conflict.key))) (by
            simp only [Session.exec, hn, hhandle, hcommit]; rfl), hfailed]
          exact ⟨_, rfl, h.endWriter hn hhandle hended⟩
      | nil =>
          obtain ⟨ended, hended, hcommit⟩ := Kv.commit_of_clear hactive hsignal hc
          rw [Course.step_eq (.done (.ok ())) (by
            simp only [Session.exec, hn, hhandle, hcommit]; rfl)]
          refine ⟨_, rfl, ?_⟩
          have hclosed := h.endWriter hn hhandle hended
          simp only [Chronicle.record, hfinish, hwrites]
          by_cases hsize : o.writes.size = 0
          · have hnone : c.committed? n (.done (.ok ())) = none := by
              simp [Chronicle.committed?, ho, hsize]
            rw [hnone, if_pos hsize, Option.toList_none, List.append_nil]
            exact hclosed.prune _
          · have hsome : c.committed? n (.done (.ok ())) = some ⟨n, o.writes⟩ := by
              simp [Chronicle.committed?, ho, hsize, hw]
            have hdone : (c.modify n Outlook.closed).outlooks[n]? = some o.closed := by
              simp [Chronicle.modify, ho]
            rw [hsome, if_neg hsize]
            exact hclosed.push ⟨n, o.writes⟩ ⟨o.closed, hdone, rfl⟩

theorem step_commit (h : Isolated kv seats c) (n : Nat) (signal : Signal) :
    (Course.step ⟨⟨.multi kv, seats⟩, c⟩ (.commit n signal)).Isolated := by
  cases hn : seats[n]? with
  | none =>
      rw [Course.step_absent h.shows.length_eq rfl hn]
      exact ⟨kv, rfl, h⟩
  | some seat =>
      obtain ⟨o, ho, hs⟩ := forall₂_getElem?_left h.shows hn
      by_cases hw : o.Writing
      · exact h.step_commit_writing signal hn ho hw
      · obtain ⟨e, hcommit⟩ := hs.plays.commit_refused hw kv signal
        rw [Course.step_eq (.done (.error e)) (by simp only [Session.exec, hn, hcommit]; rfl)]
        refine ⟨kv, rfl, ?_⟩
        have hfinish : o.finish = { o with iters := [] } := if_neg hw
        have hrefused := h.modify_refused hn ho hfinish
        simpa [Chronicle.record, Chronicle.committed?, Chronicle.modify] using hrefused

end Isolated

-- Every call keeps the invariant, and so does any run.
theorem Course.Isolated.step {c : Course} (h : c.Isolated) (call : Call) :
    (c.step call).Isolated := by
  obtain ⟨⟨_, seats⟩, chronicle⟩ := c
  obtain ⟨kv, rfl, h⟩ := h
  cases call with
  | read => exact h.step_read
  | write signal stop => exact h.step_write signal stop
  | writeExclusive signal stop keys => exact h.step_writeExclusive signal stop keys
  | get n signal key =>
      rw [step_get]
      exact ⟨kv, rfl, h⟩
  | iter n range => exact h.step_iter n range
  | pull n i signal => exact h.step_pull n i signal
  | buffer n key value => exact h.step_buffer n key value
  | commit n signal => exact h.step_commit n signal
  | close n => exact h.step_close n

theorem Course.isolated_run (calls : List Call) : (run .mvcc calls).Isolated :=
  run_induction ⟨_, rfl, Isolated.start⟩ (fun _ call h => h.step call) calls

theorem Isolated.admits {kv : MultiVersion} {seats : List Seat} {c : Chronicle}
    (h : Isolated kv seats c) (call : Call) :
    c.Admits call (Session.exec ⟨.multi kv, seats⟩ call).1 := by
  have hlen := h.shows.length_eq
  cases call with
  | read => simp [Chronicle.Admits, Session.exec, Session.receive, hlen]
  | write signal stop =>
      cases signal <;>
        simp [Chronicle.Admits, Session.exec, Kv.write, Signal.check, Session.receive, Except.map,
          hlen]
  | writeExclusive signal stop keys =>
      simp only [Chronicle.Admits, Session.exec]
      generalize (Kv.multi kv).writeExclusive signal stop keys = opened
      obtain ⟨_ | handle, after⟩ := opened
      · exact .inr ⟨_, rfl⟩
      · exact .inl (by simp [Session.receive, hlen])
  | get n signal key =>
      intro o ho hopen
      obtain ⟨seat, hn, hs⟩ := forall₂_getElem? h.shows ho
      simp only [Session.exec, hn, (h.sees hn hs hopen).get signal key, Outlook.map]
  | pull n i signal =>
      intro o p ho hopen hp
      obtain ⟨seat, hn, hs⟩ := forall₂_getElem? h.shows ho
      obtain ⟨it, hi, hf⟩ := forall₂_getElem? (hs.iters hopen) hp
      have hadmits := ((h.sees hn hs hopen).pull signal hf).1
      refine ⟨((Kv.multi kv).pull seat.handle signal it).1, ?_, hadmits⟩
      simp only [Session.exec, hn, hi]
  | buffer n key value =>
      intro o ho hw
      obtain ⟨seat, hn, hs⟩ := forall₂_getElem? h.shows ho
      obtain ⟨after, hb, -⟩ := hs.plays.buffer hw key value
      simp only [Session.exec, hn, hb]
  | iter | commit | close => trivial

theorem Course.Isolated.committed {c : Course} (h : c.Isolated) :
    c.session.kv.committed = c.chronicle.log.current.toList := by
  obtain ⟨⟨_, seats⟩, chronicle⟩ := c
  obtain ⟨kv, rfl, h⟩ := h
  exact h.keeps.scanAt_all h.oldest_le_length

-- In any run, every handle reads the map that was committed when it opened, under its own writes,
-- although old versions are pruned meanwhile. The commits that succeed make one version each.
theorem Course.reads_snapshots (calls : List Call) :
    let c := run .mvcc calls
    (∀ call, c.chronicle.Admits call (c.session.exec call).1) ∧
      c.session.kv.committed = c.chronicle.log.current.toList ∧
      ∃ kv, c.session.kv = .multi kv ∧ kv.store.current = c.chronicle.log.length := by
  have hcommitted := (isolated_run calls).committed
  obtain ⟨kv, hkv, h⟩ := isolated_run calls
  generalize run .mvcc calls = c at hkv h hcommitted ⊢
  obtain ⟨⟨_, seats⟩, chronicle⟩ := c
  obtain rfl := hkv
  exact ⟨h.admits, hcommitted, kv, rfl, h.keeps.current⟩

end DocStore
