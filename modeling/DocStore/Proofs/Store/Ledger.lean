import DocStore.Proofs.Store.Office

-- What the writers of a store commit, one change after the other.
namespace DocStore

-- A change is made to what is committed, in the places where that is still as it was read.
def Entry.Turns (e : Entry) (before after : SortedMap Bytes Bytes) : Prop :=
  ∃ (base : SortedMap Bytes Bytes) (writes : SortedMap Bytes (Option Bytes)),
    e.job.Prepares base writes e.answer e.change ∧ after = before.setAll writes.toList ∧
    ∀ key ∈ writes.keys, base.get? key = before.get? key

-- The committed changes account for what is committed.
inductive Recorded : List Entry → SortedMap Bytes Bytes → Prop where
  | start : Recorded [] SortedMap.empty
  | enter {log : List Entry} {before after : SortedMap Bytes Bytes} {e : Entry} :
    Recorded log before → e.Turns before after → Recorded (log ++ [e]) after

-- A commit makes a change as it was prepared on what was committed at some moment. What it writes
-- nobody has written since then.
def Entry.Joins (e : Entry) (commits : CommitLog) (commit : Commit) : Prop :=
  ∃ base ≤ commits.length, e.job.Prepares (commits.mapAt base) commit.writes e.answer e.change ∧
    ∀ key ∈ commit.writes.keys, ∀ later, base < later → commits.written? later key = none

theorem Entry.Joins.turns {e : Entry} {commits : CommitLog} {commit : Commit}
    (h : e.Joins commits commit) :
    e.Turns commits.current (CommitLog.current (commits ++ [commit])) := by
  obtain ⟨base, hbase, hprepares, huntouched⟩ := h
  refine ⟨_, commit.writes, hprepares, CommitLog.current_append commits commit, ?_⟩
  exact fun key hkey => CommitLog.get?_current_of_unwritten hbase (huntouched key hkey)

-- Each commit makes one of the changes.
inductive Booked : List Entry → CommitLog → Prop where
  | start : Booked [] []
  | enter {log : List Entry} {commits : CommitLog} {e : Entry} {commit : Commit} :
    Booked log commits → e.Joins commits commit → Booked (log ++ [e]) (commits ++ [commit])

theorem Booked.recorded {log : List Entry} {commits : CommitLog} (h : Booked log commits) :
    Recorded log commits.current := by
  induction h with
  | start => exact .start
  | enter _ hjoins ih => exact ih.enter hjoins.turns

theorem Booked.length_eq {log : List Entry} {commits : CommitLog} (h : Booked log commits) :
    log.length = commits.length := by
  induction h with
  | start => rfl
  | enter _ _ ih => simp [ih]

-- What is added to the log is turned by the last commit.
theorem Booked.turns_last {log : List Entry} {commits all : CommitLog} {e : Entry}
    (h : Booked log commits) (hextends : commits <+: all) (hall : Booked (log ++ [e]) all) :
    e.Turns commits.current all.current := by
  generalize hlog : log ++ [e] = entries at hall
  cases hall with
  | start => simp at hlog
  | @enter earlier before last commit hearlier hjoins =>
      obtain ⟨rfl, heq⟩ := List.append_inj' hlog rfl
      obtain rfl : e = last := by simpa using heq
      have hbefore : commits <+: before := List.prefix_of_prefix_length_le hextends
        (List.prefix_append _ _) (Nat.le_of_eq (h.length_eq.symm.trans hearlier.length_eq))
      obtain rfl := hbefore.eq_of_length (h.length_eq.symm.trans hearlier.length_eq)
      exact hjoins.turns

-- A writer goes on from what it has written so far.
def Writer.Ready (w : Writer) (log : CommitLog) (o : Outlook) : Prop :=
  o.Writing ∧ w.rest.Ensures (log.mapAt o.base)
    (fun writes answer change => ∀ c, change = some c →
      w.job.Prepares (log.mapAt o.base) writes answer c) (fun _ => True) o.writes w.answer

theorem Writer.Ready.withIters {w : Writer} {log : CommitLog} {o : Outlook} (h : w.Ready log o)
    (iters : List Prospect) : w.Ready log { o with iters := iters } := h

-- What others commit is nothing to a writer.
theorem Writer.Ready.append {w : Writer} {log : CommitLog} {o : Outlook} (h : w.Ready log o)
    (hpast : o.base ≤ log.length) (commit : Option Commit) :
    w.Ready (log ++ commit.toList) o := by
  have hmap : CommitLog.mapAt (log ++ commit.toList) o.base = log.mapAt o.base := by
    cases commit with
    | none => rw [Option.toList_none, List.append_nil]
    | some commit => exact CommitLog.mapAt_append commit hpast
  rw [Writer.Ready, hmap]
  exact h

namespace Office

structure Sound (kind : BackendKind) (x : Office) : Prop where
  run : ∃ calls, x.course = Course.run kind calls
  ready : ∀ n w, x.writers.get? n = some w →
    ∃ o, x.course.chronicle.outlooks[n]? = some o ∧ w.Ready x.course.chronicle.log o
  booked : Booked x.log x.course.chronicle.log

namespace Sound

variable {kind : BackendKind} {x : Office} {n : Nat} {w : Writer} {o : Outlook}

theorem start : Sound kind (Office.start kind) where
  run := ⟨[], rfl⟩
  ready n w hw := by simp [Office.start, SortedMap.get?_empty] at hw
  booked := .start

theorem recorded (h : x.Sound kind) : Recorded x.log x.current := h.booked.recorded

theorem faithful (h : x.Sound kind) : x.course.Faithful := by
  obtain ⟨calls, heq⟩ := h.run
  rw [heq]
  exact Course.faithful_run kind calls

theorem run_call (h : x.Sound kind) (call : Call) :
    ∃ calls, x.course.step call = Course.run kind calls := by
  obtain ⟨calls, heq⟩ := h.run
  exact ⟨calls ++ [call], by rw [heq, Course.run_append]⟩

theorem proceed (h : x.Sound kind) (ho : x.course.chronicle.outlooks[n]? = some o)
    {rest : Attempt (Option Change)}
    (hrest : Writer.Ready { w with rest := rest } x.course.chronicle.log o) :
    (x.proceed n w rest).Sound kind where
  run := h.run
  ready m w' hw' := by
    simp only [Office.proceed, SortedMap.get?_insert] at hw'
    split at hw'
    · next heq =>
      subst heq
      rw [Option.some.injEq] at hw'
      exact ⟨o, ho, hw' ▸ hrest⟩
    · exact h.ready m w' hw'
  booked := h.booked

private theorem outlooks_modify_iters (c : Chronicle) {f : Outlook → Outlook}
    (hf : ∀ o, ∃ iters, f o = { o with iters := iters }) (n m : Nat)
    (ho : c.outlooks[m]? = some o) :
    ∃ iters, (c.modify n f).outlooks[m]? = some { o with iters := iters } := by
  simp only [Chronicle.modify, List.getElem?_modify, ho]
  by_cases hn : n = m
  · obtain ⟨iters, heq⟩ := hf o
    exact ⟨iters, by simp [hn, heq]⟩
  · exact ⟨o.iters, by simp [hn]⟩

private theorem outlooks_enter (c : Chronicle) (isWriter : Bool) (keys : List Bytes) (m : Nat)
    (ho : c.outlooks[m]? = some o) : (c.enter isWriter keys).outlooks[m]? = some o := by
  obtain ⟨hlt, -⟩ := List.getElem?_eq_some_iff.mp ho
  exact (List.getElem?_append_left hlt).trans ho

private theorem record_look (c : Chronicle) {call : Call} (hlook : call.isLook = true)
    (answer : Answer) : (c.record call answer).log = c.log ∧
      ∀ (m : Nat) o, c.outlooks[m]? = some o →
        ∃ iters, (c.record call answer).outlooks[m]? = some { o with iters := iters } := by
  cases call with
  | read =>
      rcases answer with (_ | _) | _ | _ | _ | _
      case opened.ok => exact ⟨rfl, fun m o ho => ⟨o.iters, outlooks_enter c _ _ m ho⟩⟩
      all_goals exact ⟨rfl, fun m o ho => ⟨o.iters, ho⟩⟩
  | get n signal key => exact ⟨rfl, fun m o ho => ⟨o.iters, ho⟩⟩
  | iter n range =>
      exact ⟨rfl, fun m o ho => outlooks_modify_iters c (fun o => ⟨_, rfl⟩) n m ho⟩
  | pull n i signal =>
      cases answer with
      | item item => exact ⟨rfl, fun m o ho => outlooks_modify_iters c (fun o => ⟨_, rfl⟩) n m ho⟩
      | opened | found | done | nothing => exact ⟨rfl, fun m o ho => ⟨o.iters, ho⟩⟩
  | write | writeExclusive | buffer | commit | close => cases hlook

theorem look (h : x.Sound kind) {call : Call} (hlook : call.isLook = true) :
    (x.call call).Sound kind := by
  obtain ⟨hlog, houtlooks⟩ :=
    record_look x.course.chronicle hlook (x.course.session.exec call).1
  constructor
  case run => exact h.run_call call
  case ready =>
    intro n w hw
    obtain ⟨o, ho, hready⟩ := h.ready n w hw
    obtain ⟨iters, ho'⟩ := houtlooks n o ho
    refine ⟨_, ho', ?_⟩
    simp only [Office.call, Course.step, hlog]
    exact hready.withIters iters
  case booked =>
    simp only [Office.call, Course.step, hlog]
    exact h.booked

-- What comes of opening a writer.
theorem opening_cases (c : Course) (job : Job) (signal : Signal) (stop : Error) :
    (∃ e, (c.session.exec (job.opening signal stop)).1 = .opened (.error e) ∧
      (c.step (job.opening signal stop)).chronicle = c.chronicle) ∨
    ∃ keys, (c.session.exec (job.opening signal stop)).1 = .opened (.ok c.session.seats.length) ∧
      (c.step (job.opening signal stop)).chronicle = c.chronicle.enter true keys := by
  have hreceive : ∀ opened : Except Error Handle × Kv,
      (∃ e, (c.session.receive opened).1 = .opened (.error e)) ∨
        (c.session.receive opened).1 = .opened (.ok c.session.seats.length) := by
    rintro ⟨_ | _, _⟩
    · exact .inl ⟨_, rfl⟩
    · exact .inr rfl
  have hwrite : ∀ call keys opened, c.session.exec call = c.session.receive opened →
      (∀ e, c.chronicle.record call (.opened (.error e)) = c.chronicle) →
      (∀ n, c.chronicle.record call (.opened (.ok n)) = c.chronicle.enter true keys) →
      (∃ e, (c.session.exec call).1 = .opened (.error e) ∧
        (c.step call).chronicle = c.chronicle) ∨
      ∃ keys, (c.session.exec call).1 = .opened (.ok c.session.seats.length) ∧
        (c.step call).chronicle = c.chronicle.enter true keys := by
    intro call keys opened hexec hfailed hopened
    simp only [Course.step, hexec]
    rcases hreceive opened with ⟨e, he⟩ | hok
    · exact .inl ⟨e, he, by rw [he, hfailed]⟩
    · exact .inr ⟨keys, hok, by rw [hok, hopened]⟩
  cases job with
  | put encoding ctx model doc =>
      simp only [Job.opening]
      split
      · exact hwrite _ [Key.document doc.model doc.id] _ rfl (fun _ => rfl) (fun _ => rfl)
      · exact hwrite _ [] _ rfl (fun _ => rfl) (fun _ => rfl)
  | delete ctx target model id => exact hwrite _ [] _ rfl (fun _ => rfl) (fun _ => rfl)

-- A writer begins on what is committed, and has written nothing.
theorem take (h : x.Sound kind) (job : Job) (signal : Signal) (stop : Error) :
    (x.take job signal stop).Sound kind := by
  rcases opening_cases x.course job signal stop with ⟨e, hanswer, hc⟩ | ⟨keys, hanswer, hc⟩
  · simp only [Office.take, hanswer]
    constructor
    case run => exact h.run_call _
    case ready => simpa only [Office.call, hc] using h.ready
    case booked => simpa only [Office.call, hc] using h.booked
  · simp only [Office.take, hanswer]
    constructor
    case run => exact h.run_call _
    case ready =>
      intro n w hw
      simp only [SortedMap.get?_insert] at hw
      simp only [Office.call, hc]
      split at hw
      · next heq =>
        rw [Option.some.injEq] at hw
        subst heq hw
        refine ⟨_, by rw [h.faithful.aligned]; exact List.getElem?_concat_length .., ⟨rfl, rfl⟩, ?_⟩
        exact Store.attempt_ensures job _
      · obtain ⟨o, ho, hready⟩ := h.ready n w hw
        exact ⟨o, outlooks_enter _ _ _ n ho, hready⟩
    case booked =>
      simp only [Office.call, hc]
      exact h.booked

-- A writer that opens sees what is committed.
theorem opened (h : x.Sound kind) {job : Job} {signal : Signal} {stop : Error} {handle : Handle}
    {kv : Kv} (hexec : x.course.session.exec (job.opening signal stop) =
      x.course.session.receive (.ok handle, kv)) :
    kv.Sees handle x.current SortedMap.empty := by
  obtain ⟨calls, hrun⟩ := h.run_call (job.opening signal stop)
  have hfaithful := Course.faithful_run kind calls
  rw [← hrun] at hfaithful
  rcases opening_cases x.course job signal stop with ⟨e, hanswer, -⟩ | ⟨keys, -, hc⟩
  · rw [hexec] at hanswer
    cases hanswer
  · have hentered : (x.course.step (job.opening signal stop)).chronicle.outlooks[
        x.course.chronicle.outlooks.length]? =
          some ⟨true, x.course.chronicle.log.length, keys, .empty, true, []⟩ := by
      rw [hc]
      exact List.getElem?_concat_length ..
    obtain ⟨seat, hseat, hsees⟩ := hfaithful.sees _ _ hentered ⟨rfl, rfl⟩
    rw [hc] at hsees
    rw [← h.faithful.aligned] at hseat
    simp only [Course.step, hexec, Session.receive, List.getElem?_concat_length,
      Option.some.injEq] at hseat hsees
    rw [← hseat] at hsees
    exact hsees

private theorem outlooks_modify_ne (c : Chronicle) (f : Outlook → Outlook) {n m : Nat} (h : n ≠ m) :
    (c.modify n f).outlooks[m]? = c.outlooks[m]? := by
  simp [Chronicle.modify, h]

theorem buffer (h : x.Sound kind) (hw : x.writers.get? n = some w) {key : Bytes}
    {value : Option Bytes} (rest : Attempt (Option Change))
    (hrest : ∀ o, x.course.chronicle.outlooks[n]? = some o → w.Ready x.course.chronicle.log o →
      Writer.Ready { w with rest := rest } x.course.chronicle.log (o.write key value)) :
    ((x.call (.buffer n key value)).proceed n w rest).Sound kind where
  run := h.run_call _
  ready m w' hw' := by
    simp only [Office.proceed, Office.call, SortedMap.get?_insert] at hw'
    split at hw'
    · next heq =>
      subst heq
      rw [Option.some.injEq] at hw'
      obtain ⟨o, ho, hready⟩ := h.ready n w hw
      refine ⟨o.write key value, ?_, hw' ▸ hrest o ho hready⟩
      simp [Office.proceed, Office.call, Course.step, Chronicle.record, Chronicle.modify, ho]
    · next hne =>
      obtain ⟨o, ho, hready⟩ := h.ready m w' hw'
      exact ⟨o, (outlooks_modify_ne _ _ hne).trans ho, hready⟩
  booked := h.booked

-- A writer is shown what was committed when it opened, under its own writes.
theorem shows (h : x.Sound kind) (ho : x.course.chronicle.outlooks[n]? = some o)
    (hwriting : o.Writing) (signal : Signal) :
    (x.course.session.view n signal).Shows
      ((x.course.chronicle.log.mapAt o.base).setAll o.writes.toList) := by
  obtain ⟨seat, hn, hsees⟩ := h.faithful.sees n o ho hwriting
  simp only [Session.view, hn]
  exact hsees.shows signal

-- Every step of an attempt keeps what it ensures.
theorem work (h : x.Sound kind) (n : Nat) (signal : Signal)
    (verdict : Except Error (Option Document)) (now : Timestamp) :
    (x.work n signal verdict now).Sound kind := by
  simp only [Office.work]
  cases hw : x.writers.get? n with
  | none => exact h
  | some w =>
      obtain ⟨o, ho, hwriting, hensures⟩ := h.ready n w hw
      obtain ⟨job, rest, answer⟩ := w
      cases rest with
      | done => exact h
      | reading _ next => exact h.proceed ho ⟨hwriting, hensures _ (h.shows ho hwriting signal)⟩
      | writing writes next =>
          rcases writes with _ | ⟨⟨key, value⟩, batch⟩
          · exact h.proceed ho ⟨hwriting, hensures⟩
          have hwrite (rest : Attempt (Option Change))
              (hrest : rest.Ensures (x.course.chronicle.log.mapAt o.base)
                (fun writes answer change => ∀ c, change = some c →
                  job.Prepares (x.course.chronicle.log.mapAt o.base) writes answer c)
                (fun _ => True) (o.writes.insert key value) answer) :
              ((x.call (.buffer n key value)).proceed n
                ⟨job, .writing ((key, value) :: batch) next, answer⟩ rest).Sound kind := by
            refine h.buffer hw rest (fun o' ho' _ => ?_)
            rw [ho, Option.some.injEq] at ho'
            rw [← ho', Outlook.write, if_pos hwriting]
            exact ⟨hwriting, hrest⟩
          simp only
          split
          · exact hwrite _ trivial
          · exact hwrite _ hensures
      | validating _ reactors _ new next =>
          simp only
          split
          · next reply hreply =>
            refine h.proceed ho ⟨hwriting, hensures reply (fun hnil => ?_)⟩
            rw [if_pos hnil] at hreply
            exact (Except.ok.inj hreply).symm
          · exact h.proceed ho ⟨hwriting, trivial⟩
      | timing next => exact h.proceed ho ⟨hwriting, hensures now⟩

theorem leave (h : x.Sound kind) (n : Nat) : (x.leave n).Sound kind where
  run := h.run_call _
  ready m w hw := by
    simp only [Office.leave, SortedMap.get?_erase] at hw
    split at hw
    · cases hw
    · next hne =>
      obtain ⟨o, ho, hready⟩ := h.ready m w hw
      exact ⟨o, (outlooks_modify_ne _ _ hne).trans ho, hready⟩
  booked := h.booked

-- A change that is committed is committed as it was prepared.
theorem committed (h : x.Sound kind) (n : Nat) (signal : Signal) (e : Entry)
    (hw : x.writers.get? n = some ⟨e.job, .done (.ok (some e.change)), e.answer⟩)
    (hok : (x.course.session.exec (.commit n signal)).1 = .done (.ok ())) :
    ∃ o, x.course.chronicle.outlooks[n]? = some o ∧ o.Writing ∧
      e.job.Prepares (x.course.chronicle.log.mapAt o.base) o.writes e.answer e.change ∧
      (x.course.step (.commit n signal)).chronicle.log =
        x.course.chronicle.log ++ [⟨n, o.writes⟩] := by
  obtain ⟨o, ho, hwriting, hensures⟩ := h.ready n _ hw
  have hprepares : e.job.Prepares (x.course.chronicle.log.mapAt o.base) o.writes e.answer
      e.change := hensures e.change rfl
  have hsize : o.writes.size ≠ 0 := by
    intro hzero
    have hkey := hprepares.own
    have hempty : o.writes.entries = [] := List.length_eq_zero_iff.mp hzero
    simp [SortedMap.get?, hempty, Assoc.get?] at hkey
  refine ⟨o, ho, hwriting, hprepares, ?_⟩
  simp [Course.step, Chronicle.record, Chronicle.committed?, hok, ho, hwriting, hsize]

-- Nobody has written meanwhile what is committed.
theorem joins (h : x.Sound kind) (n : Nat) (signal : Signal) (e : Entry)
    (hw : x.writers.get? n = some ⟨e.job, .done (.ok (some e.change)), e.answer⟩)
    (hok : (x.course.session.exec (.commit n signal)).1 = .done (.ok ())) :
    ∃ commit, (x.course.step (.commit n signal)).chronicle.log =
        x.course.chronicle.log ++ [commit] ∧ e.Joins x.course.chronicle.log commit := by
  obtain ⟨o, ho, hwriting, hprepares, hlog⟩ := h.committed n signal e hw hok
  exact ⟨⟨n, o.writes⟩, hlog, o.base, h.faithful.past n o ho hwriting, hprepares,
    h.faithful.untouched n o signal ho hwriting hok⟩

theorem commit (h : x.Sound kind) (n : Nat) (signal : Signal) :
    (x.commit n signal).Sound kind := by
  unfold Office.commit
  split
  · next job change answer hw =>
    have hready (m : Nat) (w : Writer) (hm : (x.writers.erase n).get? m = some w) :
        ∃ o, (x.course.step (.commit n signal)).chronicle.outlooks[m]? = some o ∧
          w.Ready (x.course.step (.commit n signal)).chronicle.log o := by
      rw [SortedMap.get?_erase] at hm
      split at hm
      · cases hm
      · next hne =>
        obtain ⟨o, ho, hready⟩ := h.ready m w hm
        refine ⟨o, (outlooks_modify_ne _ _ hne).trans ho, ?_⟩
        exact hready.append (h.faithful.past m o ho hready.1) _
    simp only
    split
    · next hok =>
      obtain ⟨commit, hlog, hjoins⟩ := h.joins n signal ⟨job, answer, change⟩ hw hok
      refine ⟨h.run_call _, hready, ?_⟩
      simp only [Office.call, hlog]
      exact h.booked.enter hjoins
    · next hfailed =>
      refine ⟨h.run_call _, hready, ?_⟩
      have hnone : x.course.chronicle.committed? n
          (x.course.session.exec (.commit n signal)).1 = none := by
        unfold Chronicle.committed?
        split
        · next hok => exact absurd hok hfailed
        · rfl
      simp only [Office.call, Course.step, Chronicle.record, hnone, Option.toList_none,
        List.append_nil]
      exact h.booked
  · exact h

theorem step (h : x.Sound kind) (event : Event) : (x.step event).Sound kind := by
  cases event with
  | take job signal stop => exact h.take job signal stop
  | work n signal verdict now => exact h.work n signal verdict now
  | commit n signal => exact h.commit n signal
  | leave n => exact h.leave n
  | look call =>
      simp only [Office.step]
      split
      · next hlook => exact h.look hlook
      · exact h

end Sound

theorem sound_run (kind : BackendKind) (events : List Event) : (run kind events).Sound kind := by
  induction events using List.reverseRecOn with
  | nil => exact Sound.start
  | append_singleton events event ih =>
      rw [run_append]
      exact ih.step event

end Office

end DocStore
