import DocStore.Proofs.Storage.Faithful
import DocStore.Proofs.Store.Change

-- Any number of writers at work on documents, each in a transaction of its own. They take their
-- steps in any order.
namespace DocStore

-- A writer has something to do, and has still some of it before it. The reactors may have said
-- something.
structure Writer where
  job : Job
  rest : Attempt (Option Change)
  answer : Option (Option Document)

-- A change that was committed.
structure Entry where
  job : Job
  answer : Option (Option Document)
  change : Change

-- A store with its writers, by the numbers of their handles, and everything that they committed.
structure Office where
  course : Course
  writers : SortedMap Nat Writer
  log : List Entry

inductive Event where
  | take (job : Job) (signal : Signal) (stop : Error)
  -- a writer takes a step. The reactors may say anything, and it may be any time.
  | work (n : Nat) (signal : Signal) (verdict : Except Error (Option Document)) (now : Timestamp)
  | commit (n : Nat) (signal : Signal)
  -- a writer gives up, or a reader closes
  | leave (n : Nat)
  -- somebody looks at what there is
  | look (call : Call)

-- A writer that names a version reserves the document.
def Job.opening (signal : Signal) (stop : Error) : Job → Call
  | .put _ _ _ doc =>
    if doc.version.isSome then .writeExclusive signal stop [Key.document doc.model doc.id]
    else .write signal stop
  | .delete _ _ _ _ => .write signal stop

def Call.isLook : Call → Bool
  | .read | .get _ _ _ | .iter _ _ | .pull _ _ _ => true
  | _ => false

-- What the handle of a number finds now.
def Session.view (s : Session) (n : Nat) (signal : Signal) : View :=
  match s.seats[n]? with
  | some seat => s.kv.view seat.handle signal
  | none => ⟨fun _ => .error (.internal "no handle"), fun _ => []⟩

namespace Office

def start (kind : BackendKind) : Office := ⟨Course.start kind, SortedMap.empty, []⟩

def call (x : Office) (call : Call) : Office := { x with course := x.course.step call }

def proceed (x : Office) (n : Nat) (w : Writer) (rest : Attempt (Option Change)) : Office :=
  { x with writers := x.writers.insert n { w with rest := rest } }

def take (x : Office) (job : Job) (signal : Signal) (stop : Error) : Office :=
  let y := x.call (job.opening signal stop)
  match (x.course.session.exec (job.opening signal stop)).1 with
  | .opened (.ok n) => { y with writers := x.writers.insert n ⟨job, job.attempt, none⟩ }
  | _ => y

-- One step of an attempt. A batch of writes is buffered one by one.
def work (x : Office) (n : Nat) (signal : Signal) (verdict : Except Error (Option Document))
    (now : Timestamp) : Office :=
  match x.writers.get? n with
  | none => x
  | some w =>
    match w.rest with
    | .done _ => x
    | .reading _ next => x.proceed n w (next (x.course.session.view n signal))
    | .writing [] next => x.proceed n w next
    | .writing ((key, value) :: batch) next =>
      let y := x.call (.buffer n key value)
      match (x.course.session.exec (.buffer n key value)).1 with
      | .done (.error e) => y.proceed n w (.done (.error e))
      | _ => y.proceed n w (.writing batch next)
    | .validating _ reactors _ new next =>
      match if reactors = [] then .ok new else verdict with
      | .ok answer => x.proceed n { w with answer := some answer } (next answer)
      | .error e => x.proceed n w (.done (.error e))
    | .timing next => x.proceed n w (next now)

-- An attempt is committed when it is done and changes something.
def commit (x : Office) (n : Nat) (signal : Signal) : Office :=
  match x.writers.get? n with
  | some ⟨job, .done (.ok (some change)), answer⟩ =>
    let y := { x.call (.commit n signal) with writers := x.writers.erase n }
    match (x.course.session.exec (.commit n signal)).1 with
    | .done (.ok ()) => { y with log := x.log ++ [⟨job, answer, change⟩] }
    | _ => y
  | _ => x

def leave (x : Office) (n : Nat) : Office :=
  { x.call (.close n) with writers := x.writers.erase n }

def step (x : Office) : Event → Office
  | .take job signal stop => x.take job signal stop
  | .work n signal verdict now => x.work n signal verdict now
  | .commit n signal => x.commit n signal
  | .leave n => x.leave n
  | .look call => if call.isLook then x.call call else x

def run (kind : BackendKind) (events : List Event) : Office := events.foldl step (start kind)

theorem run_append (kind : BackendKind) (events : List Event) (event : Event) :
    run kind (events ++ [event]) = (run kind events).step event := by simp [run]

-- Only a commit that succeeds adds to the log.
theorem log_take (x : Office) (job : Job) (signal : Signal) (stop : Error) :
    (x.take job signal stop).log = x.log := by
  unfold take
  split <;> rfl

theorem log_work (x : Office) (n : Nat) (signal : Signal)
    (verdict : Except Error (Option Document)) (now : Timestamp) :
    (x.work n signal verdict now).log = x.log := by
  unfold work
  split
  · rfl
  · split
    · rfl
    · rfl
    · rfl
    · simp only
      split <;> rfl
    · split <;> rfl
    · rfl

-- What is committed.
def current (x : Office) : SortedMap Bytes Bytes := x.course.chronicle.log.current

theorem writer_of_proceed {x : Office} {m n : Nat} {w old w' : Writer}
    {rest : Attempt (Option Change)} (hold : x.writers.get? m = some old) (hjob : w.job = old.job)
    (h : (x.proceed m w rest).writers.get? n = some w') :
    ∃ w, x.writers.get? n = some w ∧ w.job = w'.job := by
  simp only [proceed, SortedMap.get?_insert] at h
  split at h
  · next heq =>
    rw [← heq, ← Option.some.inj h]
    exact ⟨old, hold, hjob.symm⟩
  · exact ⟨w', h, rfl⟩

theorem writer_of_erase {x : Office} {m n : Nat} {w' : Writer}
    (h : (x.writers.erase m).get? n = some w') :
    ∃ w, x.writers.get? n = some w ∧ w.job = w'.job := by
  rw [SortedMap.get?_erase] at h
  split at h
  · cases h
  · exact ⟨w', h, rfl⟩

-- A writer keeps its job for as long as it is there.
theorem writer_of_step {x : Office} (event : Event) {n : Nat} {w' : Writer}
    (h : (x.step event).writers.get? n = some w') :
    (∃ w, x.writers.get? n = some w ∧ w.job = w'.job) ∨
      ∃ signal stop, event = .take w'.job signal stop ∧
        (x.course.session.exec (w'.job.opening signal stop)).1 = .opened (.ok n) := by
  cases event with
  | take job signal stop =>
      simp only [step, take] at h
      split at h
      · next m hopened =>
        simp only [SortedMap.get?_insert] at h
        split at h
        · next heq =>
          obtain rfl := Option.some.inj h
          exact .inr ⟨signal, stop, rfl, heq ▸ hopened⟩
        · exact .inl ⟨w', h, rfl⟩
      · exact .inl ⟨w', h, rfl⟩
  | work m signal verdict now =>
      simp only [step, work] at h
      cases hw : x.writers.get? m with
      | none =>
          rw [hw] at h
          exact .inl ⟨w', h, rfl⟩
      | some w =>
          rw [hw] at h
          refine .inl ?_
          simp only at h
          split at h
          · exact ⟨w', h, rfl⟩
          · exact writer_of_proceed hw rfl h
          · exact writer_of_proceed hw rfl h
          · split at h
            · exact writer_of_proceed (x := x.call _) hw rfl h
            · exact writer_of_proceed (x := x.call _) hw rfl h
          · split at h
            · exact writer_of_proceed (w := { w with answer := some _ }) hw rfl h
            · exact writer_of_proceed hw rfl h
          · exact writer_of_proceed hw rfl h
  | commit m signal =>
      simp only [step, commit] at h
      split at h
      · split at h
        · exact .inl (writer_of_erase h)
        · exact .inl (writer_of_erase h)
      · exact .inl ⟨w', h, rfl⟩
  | leave m => exact .inl (writer_of_erase h)
  | look call =>
      simp only [step] at h
      split at h
      · exact .inl ⟨w', h, rfl⟩
      · exact .inl ⟨w', h, rfl⟩

-- What is added to the log had a writer.
theorem entry_of_step {x : Office} {event : Event} {e : Entry} (h : e ∈ (x.step event).log) :
    e ∈ x.log ∨ ∃ n w, x.writers.get? n = some w ∧ w.job = e.job := by
  cases event with
  | take job signal stop => exact .inl (log_take x job signal stop ▸ h)
  | work n signal verdict now => exact .inl (log_work x n signal verdict now ▸ h)
  | commit n signal =>
      simp only [step, commit] at h
      split at h
      · next job change answer hw =>
        split at h
        · rcases List.mem_append.mp h with h | h
          · exact .inl h
          · rw [List.mem_singleton.mp h]
            exact .inr ⟨n, _, hw, rfl⟩
        · exact .inl h
      · exact .inl h
  | leave n => exact .inl h
  | look call =>
      simp only [step] at h
      split at h
      · exact .inl h
      · exact .inl h

-- Something is true of every job that writers have, or had when they committed.
structure Jobs (P : Job → Prop) (x : Office) : Prop where
  writers : ∀ n w, x.writers.get? n = some w → P w.job
  log : ∀ e ∈ x.log, P e.job

namespace Jobs

variable {P : Job → Prop} {x : Office}

theorem imp {Q : Job → Prop} (h : x.Jobs P) (himp : ∀ job, P job → Q job) : x.Jobs Q where
  writers n w hw := himp _ (h.writers n w hw)
  log e he := himp _ (h.log e he)

-- Only a writer that begins brings in a job.
theorem step (h : x.Jobs P) (event : Event)
    (htake : ∀ job signal stop, event = .take job signal stop → P job) :
    (x.step event).Jobs P where
  writers n w' hw' := by
    rcases writer_of_step event hw' with ⟨w, hw, hjob⟩ | ⟨signal, stop, hevent, -⟩
    · exact hjob ▸ h.writers n w hw
    · exact htake w'.job signal stop hevent
  log e he := by
    rcases entry_of_step he with he | ⟨n, w, hw, hjob⟩
    · exact h.log e he
    · exact hjob ▸ h.writers n w hw

end Jobs

-- A writer began on a job.
def Taken (events : List Event) (job : Job) : Prop :=
  ∃ before signal stop, before ++ [.take job signal stop] <+: events

theorem jobs_run (kind : BackendKind) (events : List Event) :
    (run kind events).Jobs (Taken events) := by
  induction events using List.reverseRecOn with
  | nil => exact ⟨fun n w hw => by simp [run, start] at hw, fun e he => by simp [run, start] at he⟩
  | append_singleton events event ih =>
      rw [run_append]
      refine (ih.imp ?_).step event ?_
      · rintro job ⟨before, signal, stop, h⟩
        exact ⟨before, signal, stop, h.trans (List.prefix_append _ _)⟩
      · rintro job signal stop rfl
        exact ⟨events, signal, stop, List.prefix_rfl⟩

theorem log_step (x : Office) (event : Event) : x.log <+: (x.step event).log := by
  cases event with
  | take job signal stop => exact (log_take x job signal stop) ▸ List.prefix_rfl
  | work n signal verdict now => exact (log_work x n signal verdict now) ▸ List.prefix_rfl
  | commit n signal =>
      simp only [Office.step, Office.commit]
      split
      · split
        · exact List.prefix_append _ _
        · exact List.prefix_rfl
      · exact List.prefix_rfl
  | leave n => exact List.prefix_rfl
  | look call =>
      simp only [Office.step]
      split <;> exact List.prefix_rfl

-- A step makes one call at most.
theorem course_step (x : Office) (event : Event) :
    (x.step event).course = x.course ∨ ∃ call, (x.step event).course = x.course.step call := by
  cases event with
  | take job signal stop =>
      simp only [step, take]
      split <;> exact .inr ⟨_, rfl⟩
  | work n signal verdict now =>
      simp only [step, work]
      split
      · exact .inl rfl
      · split
        · exact .inl rfl
        · exact .inl rfl
        · exact .inl rfl
        · split <;> exact .inr ⟨_, rfl⟩
        · split <;> exact .inl rfl
        · exact .inl rfl
  | commit n signal =>
      simp only [step, commit]
      split
      · split <;> exact .inr ⟨_, rfl⟩
      · exact .inl rfl
  | leave n => exact .inr ⟨_, rfl⟩
  | look call =>
      simp only [step]
      split
      · exact .inr ⟨_, rfl⟩
      · exact .inl rfl

theorem commits_step (x : Office) (event : Event) :
    x.course.chronicle.log <+: (x.step event).course.chronicle.log := by
  rcases x.course_step event with hcourse | ⟨call, hcourse⟩
  · exact hcourse ▸ List.prefix_rfl
  · rw [hcourse]
    exact x.course.chronicle.log_record call _

-- What was committed stays in the log.
theorem log_prefix (kind : BackendKind) {earlier events : List Event} (h : earlier <+: events) :
    (run kind earlier).log <+: (run kind events).log := by
  obtain ⟨later, rfl⟩ := h
  induction later using List.reverseRecOn with
  | nil => simp
  | append_singleton later event ih =>
      rw [← List.append_assoc, run_append]
      exact ih.trans (log_step _ event)

end Office

end DocStore
