import DocStore.Proofs.Storage.Sight

-- A single-writer store keeps no versions. While a writer is at work there is no other one, so what
-- it looks at stays as it was.
namespace DocStore

-- A handle of a single-writer store is what it is taken for.
def Handle.Stands (h : Handle) (log : CommitLog) (o : Outlook) : Prop :=
  match h with
  | .singleRead _ => o.isWriter = false
  | .singleWrite writes isOpen =>
    o.isWriter = true ∧ isOpen = o.isOpen ∧
      (o.isOpen = true → writes = o.writes ∧ o.base = log.length)
  | _ => False

theorem Handle.Stands.writing {h : Handle} {log : CommitLog} {o : Outlook} (hs : h.Stands log o)
    (ho : o.Writing) : h = .singleWrite o.writes true ∧ o.base = log.length := by
  obtain ⟨hopen, hwriter⟩ := ho
  match h with
  | .singleRead _ =>
      rw [show o.isWriter = false from hs] at hwriter
      cases hwriter
  | .singleWrite writes isOpen =>
      obtain ⟨-, hisOpen, hall⟩ := hs
      rw [hisOpen, hopen, (hall hopen).1]
      exact ⟨rfl, (hall hopen).2⟩

theorem Handle.Stands.withIters {h : Handle} {log : CommitLog} {o : Outlook} (hs : h.Stands log o)
    (iters : List Prospect) : h.Stands log { o with iters := iters } := by
  cases h <;> exact hs

-- What is committed concerns writers at work only, and those there are none of.
theorem Handle.Stands.settled {h : Handle} {log : CommitLog} {o : Outlook} (hs : h.Stands log o)
    (ho : ¬o.Writing) (later : CommitLog) : h.Stands later o := by
  match h with
  | .singleRead _ => exact hs
  | .singleWrite writes isOpen => exact ⟨hs.1, hs.2.1, fun hopen => absurd ⟨hopen, hs.1⟩ ho⟩

-- A handle that is not at work reads, or has ended.
theorem Handle.Stands.idle {h : Handle} {log : CommitLog} {o : Outlook} (hs : h.Stands log o)
    (ho : ¬o.Writing) :
    (∃ closed, h = .singleRead closed) ∨ ∃ writes, h = .singleWrite writes false := by
  cases h with
  | singleRead closed => exact .inl ⟨closed, rfl⟩
  | singleWrite writes isOpen =>
      cases isOpen with
      | true => exact absurd ⟨hs.2.1.symm, hs.1⟩ ho
      | false => exact .inr ⟨writes, rfl⟩
  | multiRead | multiWrite => cases hs

structure Exclusive (kv : SingleWriter) (seats : List Seat) (c : Chronicle) : Prop where
  data : kv.data = c.log.current
  stands : List.Forall₂ (fun seat o => seat.handle.Stands c.log o) seats c.outlooks
  busy : ∀ (n : Nat) o, c.outlooks[n]? = some o → o.Writing → kv.busy = true
  alone : ∀ (i j : Nat) a b, c.outlooks[i]? = some a → c.outlooks[j]? = some b →
    a.Writing → b.Writing → i = j

namespace Exclusive

variable {kv : SingleWriter} {seats : List Seat} {c : Chronicle} {n : Nat} {seat : Seat}
  {o : Outlook}

theorem start : Exclusive ⟨SortedMap.empty, false⟩ [] Chronicle.start where
  data := rfl
  stands := .nil
  busy := by simp [Chronicle.start]
  alone := by simp [Chronicle.start]

private theorem outlooks_modify {f : Outlook → Outlook} {i : Nat}
    (ho : (c.modify n f).outlooks[i]? = some o) :
    ∃ before, c.outlooks[i]? = some before ∧ o = if n = i then f before else before := by
  simp only [Chronicle.modify, List.getElem?_modify] at ho
  obtain ⟨before, hb, rfl⟩ := Option.map_eq_some_iff.mp ho
  exact ⟨before, hb, rfl⟩

-- A handle may change as long as it does not become a writer.
theorem modify (h : Exclusive kv seats c) {after : Seat} {f : Outlook → Outlook}
    (hf : ∀ o seat, c.outlooks[n]? = some o → seats[n]? = some seat → seat.handle.Stands c.log o →
      after.handle.Stands c.log (f o) ∧ ((f o).Writing → o.Writing)) :
    Exclusive kv (seats.set n after) (c.modify n f) := by
  have hwriting : ∀ (i : Nat) o, (c.modify n f).outlooks[i]? = some o → o.Writing →
      ∃ before, c.outlooks[i]? = some before ∧ before.Writing := by
    intro i o ho hw
    obtain ⟨before, hb, rfl⟩ := outlooks_modify ho
    split at hw
    · next heq =>
      subst heq
      obtain ⟨seat, hn, hs⟩ := forall₂_getElem? h.stands hb
      exact ⟨before, hb, (hf before seat hb hn hs).2 hw⟩
    · exact ⟨before, hb, hw⟩
  constructor
  case data => exact h.data
  case stands =>
    refine forall₂_set_modify h.stands (fun o ho => ?_)
    obtain ⟨seat, hn, hs⟩ := forall₂_getElem? h.stands ho
    exact (hf o seat ho hn hs).1
  case busy =>
    intro i o ho hw
    obtain ⟨before, hb, hw⟩ := hwriting i o ho hw
    exact h.busy i before hb hw
  case alone =>
    intro i j a b ha hb hwa hwb
    obtain ⟨a', ha', hwa'⟩ := hwriting i a ha hwa
    obtain ⟨b', hb', hwb'⟩ := hwriting j b hb hwb
    exact h.alone i j a' b' ha' hb' hwa' hwb'

-- When a writer ends, there is none left. Its writes may have been committed.
theorem close (h : Exclusive kv seats c) (ho : c.outlooks[n]? = some o) (hw : o.Writing)
    {data : SortedMap Bytes Bytes} {log : CommitLog} (hdata : data = log.current) :
    Exclusive ⟨data, false⟩ (seats.set n ⟨.singleWrite SortedMap.empty false, []⟩)
      ⟨log, (c.modify n Outlook.closed).outlooks⟩ := by
  have hnone : ∀ (i : Nat) o', (c.modify n Outlook.closed).outlooks[i]? = some o' →
      ¬o'.Writing := by
    intro i o' ho' hw'
    obtain ⟨before, hb, rfl⟩ := outlooks_modify ho'
    split at hw'
    · cases hw'.1
    · next hne => exact hne (h.alone n i o before ho hb hw hw')
  constructor
  case data => exact hdata
  case stands =>
    have hstands : List.Forall₂ (fun seat o => seat.handle.Stands c.log o)
        (seats.set n ⟨.singleWrite SortedMap.empty false, []⟩)
        (c.modify n Outlook.closed).outlooks := by
      refine forall₂_set_modify h.stands (fun o' ho' => ?_)
      rw [ho, Option.some.injEq] at ho'
      subst ho'
      exact ⟨hw.2, rfl, fun hopen => by cases hopen⟩
    rw [List.forall₂_iff_get] at hstands ⊢
    refine ⟨hstands.1, fun i hi hi' => (hstands.2 i hi hi').settled ?_ log⟩
    exact hnone i _ (by simp)
  case busy => exact fun i o' ho' hw' => absurd hw' (hnone i o' ho')
  case alone => exact fun i j a b ha _ hwa _ => absurd hwa (hnone i a ha)

theorem enter (h : Exclusive kv seats c) (hfree : kv.busy = false) (keys : List Bytes) :
    Exclusive { kv with busy := true } (seats ++ [⟨.singleWrite SortedMap.empty true, []⟩])
      (c.enter true keys) := by
  have hnone : ∀ (i : Nat) o, c.outlooks[i]? = some o → ¬o.Writing := by
    intro i o ho hw
    rw [h.busy i o ho hw] at hfree
    cases hfree
  have hlast : ∀ (i : Nat) o, (c.enter true keys).outlooks[i]? = some o → o.Writing →
      i = c.outlooks.length := by
    intro i o ho hw
    rw [Chronicle.enter, List.getElem?_append] at ho
    split at ho
    · exact absurd hw (hnone i o ho)
    · obtain ⟨hlt, -⟩ := List.getElem?_eq_some_iff.mp ho
      rw [List.length_singleton] at hlt
      omega
  exact {
    data := h.data
    stands := forall₂_concat h.stands ⟨rfl, rfl, fun _ => ⟨rfl, rfl⟩⟩
    busy := fun _ _ _ _ => rfl
    alone := fun i j a b ha hb hwa hwb => (hlast i a ha hwa).trans (hlast j b hb hwb).symm }

theorem enterReader (h : Exclusive kv seats c) :
    Exclusive kv (seats ++ [⟨.singleRead false, []⟩]) (c.enter false []) := by
  have hold : ∀ (i : Nat) o, (c.enter false []).outlooks[i]? = some o → o.Writing →
      c.outlooks[i]? = some o := by
    intro i o ho hw
    rw [Chronicle.enter, List.getElem?_append] at ho
    split at ho
    · exact ho
    · rw [List.mem_singleton.mp (List.mem_of_getElem? ho)] at hw
      cases hw.2
  exact {
    data := h.data
    stands := forall₂_concat h.stands rfl
    busy := fun i o ho hw => h.busy i o (hold i o ho hw) hw
    alone := fun i j a b ha hb hwa hwb =>
      h.alone i j a b (hold i a ha hwa) (hold j b hb hwb) hwa hwb }

theorem sees (h : Exclusive kv seats c) (ho : c.outlooks[n]? = some o) (hw : o.Writing) :
    ∃ seat, seats[n]? = some seat ∧
      (Kv.single kv).Sees seat.handle (c.log.mapAt o.base) o.writes := by
  obtain ⟨seat, hn, hs⟩ := forall₂_getElem? h.stands ho
  obtain ⟨hhandle, hbase⟩ := hs.writing hw
  refine ⟨seat, hn, ?_⟩
  rw [hhandle, hbase, CommitLog.mapAt_of_length_le (Nat.le_refl _), ← h.data]
  exact ⟨rfl, rfl, fun _ => rfl, fun _ _ => rfl⟩

end Exclusive

def Course.Exclusive (c : Course) : Prop :=
  ∃ kv, c.session.kv = .single kv ∧ DocStore.Exclusive kv c.session.seats c.chronicle

namespace Exclusive

variable {kv : SingleWriter} {seats : List Seat} {c : Chronicle} {n : Nat} {seat : Seat}
  {o : Outlook}

theorem step_write (h : Exclusive kv seats c) (signal : Signal) (stop : Error) (keys : List Bytes)
    {call : Call} (hexec : Session.exec ⟨.single kv, seats⟩ call =
      Session.receive ⟨.single kv, seats⟩ ((Kv.single kv).write signal stop))
    (hfailed : ∀ e, c.record call (.opened (.error e)) = c)
    (hopened : ∀ i, c.record call (.opened (.ok i)) = c.enter true keys) :
    (Course.step ⟨⟨.single kv, seats⟩, c⟩ call).Exclusive := by
  cases hs : signal.check with
  | error e =>
      rw [Course.step_eq (.opened (.error e)) (by rw [hexec, Kv.write, hs]; rfl), hfailed]
      exact ⟨kv, rfl, h⟩
  | ok _ =>
      cases hbusy : kv.busy with
      | true =>
          rw [Course.step_eq (.opened (.error stop)) (by
            rw [hexec, Kv.write, hs]; simp only [hbusy]; rfl), hfailed]
          exact ⟨kv, rfl, h⟩
      | false =>
          rw [Course.step_eq (.opened (.ok seats.length)) (by
            rw [hexec, Kv.write, hs]; simp only [hbusy]; rfl), hopened]
          exact ⟨_, rfl, h.enter hbusy keys⟩

-- Iterators are nothing to the invariant.
private theorem modify_iters (h : Exclusive kv seats c) (hn : seats[n]? = some seat)
    (iters : List Iter) {f : Outlook → Outlook}
    (hf : ∀ o, c.outlooks[n]? = some o → ∃ prospects, f o = { o with iters := prospects }) :
    Exclusive kv (seats.set n ⟨seat.handle, iters⟩) (c.modify n f) := by
  refine h.modify (fun o seat' ho hn' hs => ?_)
  rw [hn, Option.some.injEq] at hn'
  subst hn'
  obtain ⟨prospects, heq⟩ := hf o ho
  rw [heq]
  exact ⟨hs.withIters prospects, id⟩

theorem step_iter (h : Exclusive kv seats c) (n : Nat) (range : KeyRange) :
    (Course.step ⟨⟨.single kv, seats⟩, c⟩ (.iter n range)).Exclusive := by
  cases hn : seats[n]? with
  | none =>
      rw [Course.step_absent h.stands.length_eq rfl hn]
      exact ⟨kv, rfl, h⟩
  | some seat =>
      rw [Course.step_eq .nothing (by simp only [Session.exec, hn]; rfl)]
      exact ⟨kv, rfl, h.modify_iters hn _ (fun o _ => ⟨_, rfl⟩)⟩

theorem step_pull (h : Exclusive kv seats c) (n i : Nat) (signal : Signal) :
    (Course.step ⟨⟨.single kv, seats⟩, c⟩ (.pull n i signal)).Exclusive := by
  cases hn : seats[n]? with
  | none =>
      rw [Course.step_absent h.stands.length_eq rfl hn]
      exact ⟨kv, rfl, h⟩
  | some seat =>
      cases hi : seat.iters[i]? with
      | none =>
          rw [Course.step_eq .nothing (by simp only [Session.exec, hn, hi]; rfl)]
          exact ⟨kv, rfl, h⟩
      | some it =>
          rw [Course.step_eq (.item ((Kv.single kv).pull seat.handle signal it).1) (by
            simp only [Session.exec, hn, hi]; rfl)]
          exact ⟨kv, rfl, h.modify_iters hn _ (fun o _ => ⟨_, rfl⟩)⟩

theorem step_buffer (h : Exclusive kv seats c) (n : Nat) (key : Bytes) (value : Option Bytes) :
    (Course.step ⟨⟨.single kv, seats⟩, c⟩ (.buffer n key value)).Exclusive := by
  cases hn : seats[n]? with
  | none =>
      rw [Course.step_absent h.stands.length_eq rfl hn]
      exact ⟨kv, rfl, h⟩
  | some seat =>
      obtain ⟨o, ho, hs⟩ := forall₂_getElem?_left h.stands hn
      by_cases hw : o.Writing
      · obtain ⟨hhandle, hbase⟩ := hs.writing hw
        rw [Course.step_eq (.done (.ok ())) (by
          simp only [Session.exec, hn, hhandle, Kv.buffer, ite_true]; rfl)]
        refine ⟨kv, rfl, h.modify (fun o' _ ho' _ _ => ?_)⟩
        rw [ho, Option.some.injEq] at ho'
        rw [← ho', Outlook.write, if_pos hw]
        exact ⟨⟨hw.2, hw.1.symm, fun _ => ⟨rfl, hbase⟩⟩, id⟩
      · have hrefused : ∃ e, Kv.buffer seat.handle key value = .error e := by
          rcases hs.idle hw with ⟨closed, hhandle⟩ | ⟨writes, hhandle⟩
          · exact ⟨_, by rw [hhandle]; rfl⟩
          · exact ⟨_, by rw [hhandle]; rfl⟩
        obtain ⟨e, hb⟩ := hrefused
        rw [Course.step_eq (.done (.error e)) (by simp only [Session.exec, hn, hb]; rfl)]
        refine ⟨kv, rfl, h.modify_iters hn [] (fun o' ho' => ⟨[], ?_⟩)⟩
        rw [ho, Option.some.injEq] at ho'
        rw [← ho']
        exact if_neg hw

theorem step_close (h : Exclusive kv seats c) (n : Nat) :
    (Course.step ⟨⟨.single kv, seats⟩, c⟩ (.close n)).Exclusive := by
  cases hn : seats[n]? with
  | none =>
      rw [Course.step_absent h.stands.length_eq rfl hn]
      exact ⟨kv, rfl, h⟩
  | some seat =>
      obtain ⟨o, ho, hs⟩ := forall₂_getElem?_left h.stands hn
      by_cases hw : o.Writing
      · obtain ⟨hhandle, -⟩ := hs.writing hw
        rw [Course.step_eq (.done (.ok ())) (by
          simp only [Session.exec, hn, hhandle, Kv.close]; rfl)]
        exact ⟨_, rfl, h.close ho hw h.data⟩
      · rcases hs.idle hw with ⟨closed, hhandle⟩ | ⟨writes, hhandle⟩
        · rw [Course.step_eq (.done (.ok ())) (by
            simp only [Session.exec, hn, hhandle, Kv.close]; rfl)]
          refine ⟨kv, rfl, h.modify (fun o' _ ho' _ _ => ?_)⟩
          rw [ho, Option.some.injEq] at ho'
          rw [hhandle] at hs
          exact ⟨ho' ▸ hs, fun hw' => by cases hw'.1⟩
        · rw [Course.step_eq (.done (.ok ())) (by
            simp only [Session.exec, hn, hhandle, Kv.close]; rfl)]
          refine ⟨kv, rfl, h.modify (fun o' _ ho' _ _ => ?_)⟩
          rw [ho, Option.some.injEq] at ho'
          rw [hhandle] at hs
          exact ⟨ho' ▸ ⟨hs.1, rfl, fun hopen => by cases hopen⟩, fun hw' => by cases hw'.1⟩

theorem step_commit_writing (h : Exclusive kv seats c) (signal : Signal)
    (hn : seats[n]? = some seat) (ho : c.outlooks[n]? = some o) (hw : o.Writing) :
    (Course.step ⟨⟨.single kv, seats⟩, c⟩ (.commit n signal)).Exclusive := by
  obtain ⟨seat', hn', hs⟩ := forall₂_getElem? h.stands ho
  rw [hn, Option.some.injEq] at hn'
  obtain ⟨hhandle, -⟩ := hs.writing hw
  rw [← hn'] at hhandle
  have hfinish := c.modify_finish ho hw
  cases hsignal : signal.check with
  | error e =>
      rw [Course.step_eq (.done (.error e)) (by
        simp only [Session.exec, hn, hhandle, Kv.commit, hsignal]; rfl)]
      refine ⟨_, rfl, ?_⟩
      simp only [Chronicle.record, hfinish]
      exact h.close ho hw (h.data.trans (by simp [Chronicle.committed?]))
  | ok _ =>
      rw [Course.step_eq (.done (.ok ())) (by
        simp only [Session.exec, hn, hhandle, Kv.commit, hsignal]; rfl)]
      refine ⟨_, rfl, ?_⟩
      simp only [Chronicle.record, hfinish]
      refine h.close ho hw ?_
      by_cases hsize : o.writes.size = 0
      · have hnil : o.writes.toList = [] := List.length_eq_zero_iff.mp hsize
        simp [Chronicle.committed?, ho, hsize, hnil, SortedMap.setAll, h.data]
      · simp [Chronicle.committed?, ho, hsize, hw, CommitLog.current_append, h.data]

theorem step_commit (h : Exclusive kv seats c) (n : Nat) (signal : Signal) :
    (Course.step ⟨⟨.single kv, seats⟩, c⟩ (.commit n signal)).Exclusive := by
  cases hn : seats[n]? with
  | none =>
      rw [Course.step_absent h.stands.length_eq rfl hn]
      exact ⟨kv, rfl, h⟩
  | some seat =>
      obtain ⟨o, ho, hs⟩ := forall₂_getElem?_left h.stands hn
      by_cases hw : o.Writing
      · exact h.step_commit_writing signal hn ho hw
      · have hrefused : ∃ e, (Kv.single kv).commit seat.handle signal =
            (.error e, seat.handle, .single kv) := by
          rcases hs.idle hw with ⟨closed, hhandle⟩ | ⟨writes, hhandle⟩
          · exact ⟨_, by rw [hhandle]; rfl⟩
          · exact ⟨_, by rw [hhandle]; rfl⟩
        obtain ⟨e, hcommit⟩ := hrefused
        rw [Course.step_eq (.done (.error e)) (by simp only [Session.exec, hn, hcommit]; rfl)]
        have hfinish (o' : Outlook) (ho' : c.outlooks[n]? = some o') :
            ∃ prospects, o'.finish = { o' with iters := prospects } := by
          rw [ho, Option.some.injEq] at ho'
          exact ⟨[], ho' ▸ if_neg hw⟩
        refine ⟨kv, rfl, ?_⟩
        simpa [Chronicle.record, Chronicle.committed?, Chronicle.modify] using
          h.modify_iters hn [] hfinish

end Exclusive

theorem Course.Exclusive.step {c : Course} (h : c.Exclusive) (call : Call) :
    (c.step call).Exclusive := by
  obtain ⟨⟨_, seats⟩, chronicle⟩ := c
  obtain ⟨kv, rfl, h⟩ := h
  cases call with
  | read => exact ⟨kv, rfl, h.enterReader⟩
  | write signal stop => exact h.step_write signal stop [] rfl (fun _ => rfl) (fun _ => rfl)
  | writeExclusive signal stop keys =>
      exact h.step_write signal stop keys rfl (fun _ => rfl) (fun _ => rfl)
  | get n signal key =>
      rw [step_get]
      exact ⟨kv, rfl, h⟩
  | iter n range => exact h.step_iter n range
  | pull n i signal => exact h.step_pull n i signal
  | buffer n key value => exact h.step_buffer n key value
  | commit n signal => exact h.step_commit n signal
  | close n => exact h.step_close n

theorem Course.exclusive_run (calls : List Call) : (run .embedded calls).Exclusive :=
  run_induction ⟨_, rfl, Exclusive.start⟩ (fun _ call h => h.step call) calls

end DocStore
