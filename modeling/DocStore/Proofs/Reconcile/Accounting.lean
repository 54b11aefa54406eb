import Mathlib.Data.List.Nodup
import DocStore.Proofs.Reconcile.Queue
import DocStore.Reactor

-- Of the tasks that are brought to a queue none is lost and none is done twice, and the counts of the
-- queue are right at any time.
namespace DocStore

-- A queue in use, with what became of every call that brought a task to it. The task of a call goes by
-- the number of the call.
structure Workshop where
  queue : TaskQueue Nat
  calls : Nat
  -- calls whose task was queued, and those whose task was turned away
  accepted : List Nat
  rejected : List Nat
  -- tasks in the order in which they were begun
  begun : List Nat
  -- tasks that workers are done with, and those that the callers did themselves
  ended : List (Nat × Outcome)
  onSpot : List (Nat × Outcome)

namespace Workshop

inductive Move where
  | submit (priority : Priority)
  -- the outcome is that of the caller's own work, where it comes to that
  | schedule (priority : Priority) (outcome : Outcome)
  | take
  -- a worker is done with its ticket, also if its work stopped dead
  | finish (number : Nat) (outcome : Outcome)
  | close

def start (workers capacity : Nat) : Workshop := ⟨TaskQueue.new workers capacity, 0, [], [], [], [], []⟩

def accept (w : Workshop) (queue : TaskQueue Nat) : Workshop :=
  { w with queue := queue, calls := w.calls + 1, accepted := w.accepted ++ [w.calls] }

def reject (w : Workshop) : Workshop :=
  { w with calls := w.calls + 1, rejected := w.rejected ++ [w.calls] }

def doInline (w : Workshop) (outcome : Outcome) : Workshop :=
  { w with
    queue := w.queue.noteInline
    calls := w.calls + 1
    begun := w.begun ++ [w.calls]
    onSpot := w.onSpot ++ [(w.calls, outcome)] }

def submit (w : Workshop) (priority : Priority) : Workshop :=
  match w.queue.submit priority w.calls with
  | .ok queue => w.accept queue
  | .error _ => w.reject

def schedule (w : Workshop) (priority : Priority) (outcome : Outcome) : Workshop :=
  match w.queue.schedule? priority w.calls with
  | some queue => w.accept queue
  | none => w.doInline outcome

def take (w : Workshop) : Workshop :=
  match w.queue.take? with
  | some (t, queue) => { w with queue := queue, begun := w.begun ++ [t.task] }
  | none => w

def finish (w : Workshop) (number : Nat) (outcome : Outcome) : Workshop :=
  match w.queue.active.find? (fun t => t.number == number) with
  | some t => { w with queue := w.queue.finish t.number, ended := w.ended ++ [(t.task, outcome)] }
  | none => w

def step (w : Workshop) : Move → Workshop
  | .submit priority => w.submit priority
  | .schedule priority outcome => w.schedule priority outcome
  | .take => w.take
  | .finish number outcome => w.finish number outcome
  | .close => { w with queue := w.queue.close }

def run (workers capacity : Nat) (moves : List Move) : Workshop :=
  moves.foldl step (start workers capacity)

def waiting (w : Workshop) : List Nat := w.queue.waiting.map (fun t => t.task)

def active (w : Workshop) : List Nat := w.queue.active.map (fun t => t.task)

def finished (w : Workshop) : List Nat := w.ended.map Prod.fst

-- Calls whose task the caller did itself.
def inline (w : Workshop) : List Nat := w.onSpot.map Prod.fst

theorem submit_cases (w : Workshop) (priority : Priority) :
    w.submit priority = w.accept (w.queue.enqueue priority w.calls) ∨ w.submit priority = w.reject := by
  unfold submit
  cases h : w.queue.submit priority w.calls with
  | error refusal => exact .inr rfl
  | ok queue =>
      obtain ⟨-, rfl⟩ := TaskQueue.submit_eq_ok_iff.mp h
      exact .inl rfl

theorem schedule_cases (w : Workshop) (priority : Priority) (outcome : Outcome) :
    w.schedule priority outcome = w.accept (w.queue.enqueue priority w.calls) ∨
      w.schedule priority outcome = w.doInline outcome := by
  unfold schedule
  cases h : w.queue.schedule? priority w.calls with
  | none => exact .inr rfl
  | some queue =>
      obtain ⟨-, -, rfl⟩ := TaskQueue.schedule?_eq_some_iff.mp h
      exact .inl rfl

-- What is known at any time. How often a task stands in a list is counted, task by task.
structure Kept (workers : Nat) (w : Workshop) : Prop where
  workers : w.queue.workers = workers
  answered : ∀ call, w.accepted.count call + w.rejected.count call + w.inline.count call =
    if call < w.calls then 1 else 0
  placed : ∀ call,
    w.accepted.count call = w.waiting.count call + w.active.count call + w.finished.count call
  begun : ∀ call,
    w.begun.count call = w.active.count call + w.finished.count call + w.inline.count call
  inTurn : w.queue.waiting.Pairwise (fun t u => t.number < u.number)
  numbers : ((w.queue.waiting ++ w.queue.active).map (fun t => t.number)).Nodup
  issued : ∀ t ∈ w.queue.waiting ++ w.queue.active, t.number < w.queue.issued
  ordered : w.waiting.Sublist w.accepted
  depth : w.queue.depth = w.queue.waiting.length
  busy : w.queue.busy = w.queue.active.length
  completed : w.queue.completed = w.ended.length + w.onSpot.length

namespace Kept

variable {workers : Nat} {w : Workshop}

theorem start (workers capacity : Nat) : (start workers capacity).Kept workers := by
  constructor <;> simp [Workshop.start, TaskQueue.new, waiting, active, finished, inline]

theorem reject (h : w.Kept workers) : w.reject.Kept workers :=
  { h with
    answered := by
      intro call
      have hanswered := h.answered call
      simp only [Workshop.reject, inline, List.count_append, List.count_singleton] at hanswered ⊢
      grind }

theorem accept (h : w.Kept workers) (priority : Priority) :
    (w.accept (w.queue.enqueue priority w.calls)).Kept workers := by
  have hperm : ((w.queue.enqueue priority w.calls).waiting ++ w.queue.active).Perm
      ((⟨w.queue.issued, priority, w.calls⟩ : Ticket Nat) :: (w.queue.waiting ++ w.queue.active)) := by
    simp only [TaskQueue.enqueue, List.append_assoc]
    exact List.perm_middle
  constructor
  case workers => exact h.workers
  case answered =>
    intro call
    have hanswered := h.answered call
    simp only [Workshop.accept, inline, List.count_append, List.count_singleton] at hanswered ⊢
    grind
  case placed =>
    intro call
    have hplaced := h.placed call
    simp only [Workshop.accept, TaskQueue.enqueue, waiting, active, finished, List.map_append,
      List.map_cons, List.map_nil, List.count_append] at hplaced ⊢
    omega
  case begun => exact h.begun
  case inTurn =>
    refine List.pairwise_append.mpr ⟨h.inTurn, List.pairwise_singleton _ _, fun t ht u hu => ?_⟩
    obtain rfl := List.mem_singleton.mp hu
    exact h.issued t (List.mem_append_left _ ht)
  case numbers =>
    refine ((hperm.map _).nodup_iff).mpr (List.nodup_cons.mpr ⟨fun hm => ?_, h.numbers⟩)
    obtain ⟨t, ht, heq⟩ := List.mem_map.mp hm
    exact Nat.ne_of_lt (h.issued t ht) heq
  case issued =>
    intro t ht
    rcases List.mem_cons.mp (hperm.mem_iff.mp ht) with rfl | hm
    · exact Nat.lt_succ_self _
    · exact Nat.lt_succ_of_lt (h.issued t hm)
  case ordered =>
    simp only [Workshop.accept, TaskQueue.enqueue, waiting, List.map_append]
    exact h.ordered.append (List.Sublist.refl _)
  case depth => simp [Workshop.accept, TaskQueue.enqueue, h.depth]
  case busy => exact h.busy
  case completed => exact h.completed

theorem doInline (h : w.Kept workers) (outcome : Outcome) : (w.doInline outcome).Kept workers :=
  { h with
    answered := by
      intro call
      have hanswered := h.answered call
      simp only [Workshop.doInline, inline, List.map_append, List.map_cons, List.map_nil,
        List.count_append, List.count_singleton] at hanswered ⊢
      grind
    begun := by
      intro call
      have hbegun := h.begun call
      simp only [Workshop.doInline, TaskQueue.noteInline, active, finished, inline, List.map_append,
        List.map_cons, List.map_nil, List.count_append] at hbegun ⊢
      omega
    completed := by
      simp only [Workshop.doInline, TaskQueue.noteInline, h.completed, List.length_append,
        List.length_singleton]
      omega }

theorem take (h : w.Kept workers) : w.take.Kept workers := by
  unfold Workshop.take
  cases htake : w.queue.take? with
  | none => exact h
  | some taken =>
      obtain ⟨t, rest⟩ := taken
      have hmem := (TaskQueue.leads_of_take? h.inTurn htake).mem
      obtain ⟨-, -, rfl⟩ := TaskQueue.take?_eq_some htake
      have hnodup := (List.nodup_append.mp (List.map_append ▸ h.numbers)).1
      have hcount := Ticket.count_filter hnodup hmem
      have hlength := Ticket.length_filter hnodup hmem
      have hperm : (w.queue.waiting.filter (fun u => u.number != t.number) ++
          (w.queue.active ++ [t])).Perm (w.queue.waiting ++ w.queue.active) := by
        rw [← List.append_assoc]
        refine (List.perm_append_singleton t _).trans ?_
        exact ((Ticket.perm_cons_filter hnodup hmem).append_right w.queue.active).symm
      constructor
      case workers => exact h.workers
      case answered => exact h.answered
      case placed =>
        intro call
        have hplaced := h.placed call
        have hcall := hcount call
        simp only [waiting, active, finished, List.map_append, List.map_cons, List.map_nil,
          List.count_append] at hplaced ⊢
        omega
      case begun =>
        intro call
        have hbegun := h.begun call
        simp only [active, finished, inline, List.map_append, List.map_cons, List.map_nil,
          List.count_append] at hbegun ⊢
        omega
      case inTurn => exact h.inTurn.filter _
      case numbers => exact ((hperm.map _).nodup_iff).mpr h.numbers
      case issued => exact fun u hu => h.issued u (hperm.mem_iff.mp hu)
      case ordered => exact (List.filter_sublist.map _).trans h.ordered
      case depth =>
        have hdepth := h.depth
        simp only [hdepth, hlength, Nat.add_sub_cancel]
      case busy => simp [h.busy]
      case completed => exact h.completed

theorem finish (h : w.Kept workers) (number : Nat) (outcome : Outcome) :
    (w.finish number outcome).Kept workers := by
  unfold Workshop.finish
  cases hfind : w.queue.active.find? (fun t => t.number == number) with
  | none => exact h
  | some t =>
      have hmem := List.mem_of_find?_eq_some hfind
      have hnodup := (List.nodup_append.mp (List.map_append ▸ h.numbers)).2.1
      have hcount := Ticket.count_filter hnodup hmem
      have hlength := Ticket.length_filter hnodup hmem
      have hsublist : (w.queue.waiting ++ (w.queue.finish t.number).active).Sublist
          (w.queue.waiting ++ w.queue.active) := List.filter_sublist.append_left _
      constructor
      case workers => exact h.workers
      case answered => exact h.answered
      case placed =>
        intro call
        have hplaced := h.placed call
        have hcall := hcount call
        simp only [TaskQueue.finish, waiting, active, finished, List.map_append, List.map_cons,
          List.map_nil, List.count_append] at hplaced ⊢
        omega
      case begun =>
        intro call
        have hbegun := h.begun call
        have hcall := hcount call
        simp only [TaskQueue.finish, active, finished, inline, List.map_append, List.map_cons,
          List.map_nil, List.count_append] at hbegun ⊢
        omega
      case inTurn => exact h.inTurn
      case numbers => exact h.numbers.sublist (hsublist.map _)
      case issued => exact fun u hu => h.issued u (hsublist.subset hu)
      case ordered => exact h.ordered
      case depth => exact h.depth
      case busy =>
        simp only [TaskQueue.finish, h.busy]
        omega
      case completed =>
        simp only [TaskQueue.finish, h.completed, List.length_append, List.length_singleton]
        omega

theorem submit (h : w.Kept workers) (priority : Priority) : (w.submit priority).Kept workers := by
  rcases w.submit_cases priority with heq | heq
  · rw [heq]
    exact h.accept priority
  · rw [heq]
    exact h.reject

theorem schedule (h : w.Kept workers) (priority : Priority) (outcome : Outcome) :
    (w.schedule priority outcome).Kept workers := by
  rcases w.schedule_cases priority outcome with heq | heq
  · rw [heq]
    exact h.accept priority
  · rw [heq]
    exact h.doInline outcome

theorem step (h : w.Kept workers) (move : Move) : (w.step move).Kept workers := by
  cases move with
  | submit priority => exact h.submit priority
  | schedule priority outcome => exact h.schedule priority outcome
  | take => exact h.take
  | finish number outcome => exact h.finish number outcome
  | close => exact { h with }

theorem run (workers capacity : Nat) (moves : List Move) :
    (run workers capacity moves).Kept workers := by
  induction moves using List.reverseRecOn with
  | nil => exact start workers capacity
  | append_singleton moves move ih =>
      rw [Workshop.run, List.foldl_append]
      exact ih.step move

theorem answers_perm (h : w.Kept workers) :
    (w.accepted ++ w.rejected ++ w.inline).Perm (List.range w.calls) := by
  rw [List.perm_iff_count]
  intro call
  rw [List.count_append, List.count_append, h.answered, List.nodup_range.count]
  simp only [List.mem_range]

theorem count_answers_le (h : w.Kept workers) (call : Nat) :
    w.accepted.count call + w.rejected.count call + w.inline.count call ≤ 1 := by
  rw [h.answered]
  split <;> omega

theorem accepted_perm (h : w.Kept workers) :
    w.accepted.Perm (w.waiting ++ w.active ++ w.finished) := by
  rw [List.perm_iff_count]
  intro call
  rw [List.count_append, List.count_append, h.placed]

theorem accepted_nodup (h : w.Kept workers) : w.accepted.Nodup := by
  rw [List.nodup_iff_count_le_one]
  intro call
  have hone := h.count_answers_le call
  omega

theorem begun_perm (h : w.Kept workers) : w.begun.Perm (w.active ++ w.finished ++ w.inline) := by
  rw [List.perm_iff_count]
  intro call
  rw [List.count_append, List.count_append, h.begun]

theorem notMem_begun (h : w.Kept workers) {call : Nat} (hrejected : call ∈ w.rejected) :
    call ∉ w.begun := by
  intro hbegun
  have hcount := h.begun call
  have hplaced := h.placed call
  have hone := h.count_answers_le call
  rw [← List.count_pos_iff] at hrejected hbegun
  omega

theorem count_begun (h : w.Kept workers) {call : Nat} (hinline : call ∈ w.inline) :
    w.begun.count call = 1 := by
  have hcount := h.begun call
  have hplaced := h.placed call
  have hone := h.count_answers_le call
  rw [← List.count_pos_iff] at hinline
  omega

theorem stats_eq (h : w.Kept workers) : w.queue.stats =
    ⟨w.waiting.length, w.active.length, w.finished.length + w.inline.length, workers⟩ := by
  simp only [TaskQueue.stats, h.depth, h.busy, h.completed, h.workers, waiting, active, finished,
    inline, List.length_map]

end Kept

-- At any time every call has one answer. What was queued waits, is being worked at or is finished, and
-- just one of these. What was turned away was never begun, and what its caller did was begun once. The
-- counts tell how much there is of each, and whoever takes a task gets the one that leads those that
-- wait, which stand in the order in which they were queued.
theorem tasks_accounted (workers capacity : Nat) (moves : List Move) :
    let w := run workers capacity moves
    (w.accepted ++ w.rejected ++ w.inline).Perm (List.range w.calls) ∧
    w.accepted.Perm (w.waiting ++ w.active ++ w.finished) ∧
    (w.waiting ++ w.active ++ w.finished).Nodup ∧
    w.begun.Perm (w.active ++ w.finished ++ w.inline) ∧
    (∀ call ∈ w.rejected, call ∉ w.begun) ∧
    (∀ call ∈ w.inline, w.begun.count call = 1) ∧
    w.queue.stats =
      ⟨w.waiting.length, w.active.length, w.finished.length + w.inline.length, workers⟩ ∧
    w.waiting.Sublist w.accepted ∧
    (w.queue.take?.isSome ↔ w.active.length < workers ∧ w.waiting ≠ []) ∧
    ∀ t rest, w.queue.take? = some (t, rest) → TaskQueue.Leads w.queue.waiting t := by
  intro w
  have h : w.Kept workers := Kept.run workers capacity moves
  have hnodup := h.accepted_perm.nodup_iff.mp h.accepted_nodup
  refine ⟨h.answers_perm, h.accepted_perm, hnodup, h.begun_perm, ?_, ?_, h.stats_eq, h.ordered, ?_, ?_⟩
  · exact fun call hrejected => h.notMem_begun hrejected
  · exact fun call hinline => h.count_begun hinline
  · rw [TaskQueue.isSome_take?_iff h.inTurn, h.workers]
    simp [waiting, active]
  · exact fun t rest htake => TaskQueue.leads_of_take? h.inTurn htake

-- Five tasks for one worker and room for two: the fourth is turned away, the fifth is done by its
-- caller, and the third goes before the second.
def burst : List Move :=
  [.submit .normal, .take, .submit .normal, .schedule .high .done, .submit .high,
    .schedule .normal .crashed, .take, .finish 0 .crashed, .take]

theorem tasks_accounted_of_burst :
    let w := run 1 2 burst
    (w.waiting, w.active, w.finished) = ([1], [2], [0]) ∧ (w.rejected, w.inline) = ([3], [4]) ∧
      w.begun = [0, 4, 2] ∧ 3 ∉ w.begun ∧ w.begun.count 4 = 1 ∧ w.queue.stats = ⟨1, 1, 2, 1⟩ := by
  intro w
  obtain ⟨-, -, -, -, hrejected, hinline, hstats, -⟩ := tasks_accounted 1 2 burst
  exact ⟨by decide, by decide, by decide, hrejected 3 (by decide), hinline 4 (by decide), hstats⟩

end Workshop

end DocStore
