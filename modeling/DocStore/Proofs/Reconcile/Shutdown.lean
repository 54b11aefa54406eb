import Mathlib.Data.List.Induction
import DocStore.Proofs.Reconcile.Queue

-- What is left in a queue when its workers have gone. To bring a task takes several steps: whoever does
-- it looks whether the queue is open, then whether there is room, and only then puts the task in. Workers
-- leave once the queue is closed and empty, and they can do so between these steps.
namespace DocStore

-- Someone who brings a task, which goes by the number of the call.
structure Caller where
  number : Nat
  priority : Priority

-- A queue in use, with those who are on their way to it.
structure Closing where
  queue : TaskQueue Nat
  -- workers that have not left
  present : Nat
  calls : Nat
  -- those who have seen the queue open, and those who have also seen that there is room
  inside : List Caller
  admitted : List Caller
  -- the calls that were under way when the queue was closed
  late : List Nat

namespace Closing

inductive Move where
  | come (priority : Priority)
  | measure (number : Nat)
  | enqueue (number : Nat)
  | take
  | finish (number : Nat)
  | close
  | leave

def start (workers capacity : Nat) : Closing :=
  ⟨TaskQueue.new workers capacity, workers, 0, [], [], []⟩

def underWay (x : Closing) : List Caller := x.inside ++ x.admitted

def without (callers : List Caller) (number : Nat) : List Caller :=
  callers.filter (fun c => c.number != number)

def come (x : Closing) (priority : Priority) : Closing :=
  if x.queue.closed then { x with calls := x.calls + 1 }
  else { x with calls := x.calls + 1, inside := x.inside ++ [⟨x.calls, priority⟩] }

def measure (x : Closing) (number : Nat) : Closing :=
  match x.inside.find? (fun c => c.number == number) with
  | none => x
  | some c =>
    let inside := without x.inside number
    if x.queue.capacity ≤ x.queue.depth then { x with inside := inside }
    else { x with inside := inside, admitted := x.admitted ++ [c] }

def enqueue (x : Closing) (number : Nat) : Closing :=
  match x.admitted.find? (fun c => c.number == number) with
  | none => x
  | some c => { x with
      queue := x.queue.enqueue c.priority c.number
      admitted := without x.admitted number }

-- A worker that is there and free takes a ticket.
def take (x : Closing) : Closing :=
  if x.present ≤ x.queue.active.length then x
  else match x.queue.take? with
    | some (_, queue) => { x with queue := queue }
    | none => x

def finish (x : Closing) (number : Nat) : Closing :=
  match x.queue.active.find? (fun t => t.number == number) with
  | some t => { x with queue := x.queue.finish t.number }
  | none => x

-- Those who wait for the workers to leave go on when nobody is present any more.
def close (x : Closing) : Closing :=
  if x.queue.closed then x
  else { x with queue := x.queue.close, late := x.underWay.map (fun c => c.number) }

-- A worker that is free leaves if it finds the queue closed and empty.
def leave (x : Closing) : Closing :=
  if x.queue.closed ∧ x.queue.waiting = [] ∧ x.queue.active.length < x.present then
    { x with present := x.present - 1 }
  else x

def step (x : Closing) : Move → Closing
  | .come priority => x.come priority
  | .measure number => x.measure number
  | .enqueue number => x.enqueue number
  | .take => x.take
  | .finish number => x.finish number
  | .close => x.close
  | .leave => x.leave

def run (workers capacity : Nat) (moves : List Move) : Closing :=
  moves.foldl step (start workers capacity)

section Callers

variable {callers : List Caller} {number : Nat}

theorem mem_of_mem_without {c : Caller} (h : c ∈ without callers number) : c ∈ callers :=
  List.mem_of_mem_filter h

-- Nobody goes by a number that is not given out yet.
theorem find?_fresh (hfresh : ∀ c ∈ callers, c.number < number) :
    callers.find? (fun c => c.number == number) = none := by
  rw [List.find?_eq_none]
  intro c hc
  simpa using Nat.ne_of_lt (hfresh c hc)

end Callers

-- What is known at any time. Once the first worker has left, only those who were under way when the
-- queue was closed can have put anything in.
structure Kept (workers : Nat) (x : Closing) : Prop where
  fresh : ∀ c ∈ x.underWay, c.number < x.calls
  late : x.queue.closed = true → ∀ c ∈ x.underWay, c.number ∈ x.late
  left : x.present < workers →
    x.queue.closed = true ∧ ∀ t ∈ x.queue.waiting, t.task ∈ x.late

namespace Kept

variable {workers : Nat} {x : Closing}

theorem start (workers capacity : Nat) : (start workers capacity).Kept workers := by
  constructor <;> simp [Closing.start, underWay, TaskQueue.new]

-- Callers that go on or go away, and tickets that go away, change nothing.
theorem shrink (h : x.Kept workers) {y : Closing} (hcalls : y.calls = x.calls)
    (hlate : y.late = x.late) (hpresent : y.present = x.present)
    (hclosed : y.queue.closed = x.queue.closed) (hcallers : y.underWay ⊆ x.underWay)
    (hwaiting : y.queue.waiting ⊆ x.queue.waiting) : y.Kept workers where
  fresh c hc := hcalls ▸ h.fresh c (hcallers hc)
  late hc c hm := hlate ▸ h.late (hclosed ▸ hc) c (hcallers hm)
  left hleft := by
    rw [hpresent] at hleft
    rw [hclosed, hlate]
    exact ⟨(h.left hleft).1, fun t ht => (h.left hleft).2 t (hwaiting ht)⟩

theorem come (h : x.Kept workers) (priority : Priority) : (x.come priority).Kept workers := by
  unfold Closing.come
  cases hclosed : x.queue.closed with
  | true =>
      rw [if_pos rfl]
      exact ⟨fun c hc => Nat.lt_succ_of_lt (h.fresh c hc), h.late, h.left⟩
  | false =>
      rw [if_neg Bool.false_ne_true]
      refine ⟨fun c hc => ?_, fun hc => ?_, fun hleft => ?_⟩
      · simp only [underWay, List.append_assoc, List.singleton_append, List.mem_append,
          List.mem_cons] at hc
        rcases hc with hin | rfl | hin
        · exact Nat.lt_succ_of_lt (h.fresh c (List.mem_append_left _ hin))
        · exact Nat.lt_succ_self _
        · exact Nat.lt_succ_of_lt (h.fresh c (List.mem_append_right _ hin))
      · rw [hclosed] at hc
        cases hc
      · exact absurd (h.left hleft).1 (by simp [hclosed])

theorem measure (h : x.Kept workers) (number : Nat) : (x.measure number).Kept workers := by
  unfold Closing.measure
  cases hfind : x.inside.find? (fun c => c.number == number) with
  | none => exact h
  | some c =>
      have hmem := List.mem_of_find?_eq_some hfind
      by_cases hfull : x.queue.capacity ≤ x.queue.depth
      · simp only [if_pos hfull]
        refine Kept.shrink h rfl rfl rfl rfl ?_ (List.Subset.refl _)
        exact List.append_subset.mpr ⟨fun d hd => List.mem_append_left _ (mem_of_mem_without hd),
          List.subset_append_right _ _⟩
      · simp only [if_neg hfull]
        refine Kept.shrink h rfl rfl rfl rfl (fun d hd => ?_) (List.Subset.refl _)
        simp only [underWay, List.mem_append, List.mem_singleton] at hd ⊢
        rcases hd with hd | hd | rfl
        · exact .inl (mem_of_mem_without hd)
        · exact .inr hd
        · exact .inl hmem

theorem enqueue (h : x.Kept workers) (number : Nat) : (x.enqueue number).Kept workers := by
  unfold Closing.enqueue
  cases hfind : x.admitted.find? (fun c => c.number == number) with
  | none => exact h
  | some c =>
      have hmem := List.mem_of_find?_eq_some hfind
      have hcallers : x.inside ++ without x.admitted number ⊆ x.underWay :=
        List.append_subset.mpr ⟨List.subset_append_left _ _,
          fun d hd => List.mem_append_right _ (mem_of_mem_without hd)⟩
      refine ⟨fun d hd => h.fresh d (hcallers hd), fun hc d hd => h.late hc d (hcallers hd),
        fun hleft => ?_⟩
      obtain ⟨hclosed, hwaiting⟩ := h.left hleft
      refine ⟨hclosed, fun t ht => ?_⟩
      rcases List.mem_append.mp ht with hold | hnew
      · exact hwaiting t hold
      · obtain rfl := List.mem_singleton.mp hnew
        exact h.late hclosed c (List.mem_append_right _ hmem)

theorem take (h : x.Kept workers) : x.take.Kept workers := by
  unfold Closing.take
  by_cases hbusy : x.present ≤ x.queue.active.length
  · rw [if_pos hbusy]
    exact h
  · rw [if_neg hbusy]
    cases htake : x.queue.take? with
    | none => exact h
    | some taken =>
        obtain ⟨t, rest⟩ := taken
        obtain ⟨-, -, rfl⟩ := TaskQueue.take?_eq_some htake
        have hwaiting := List.filter_subset_self (p := fun u => u.number != t.number) x.queue.waiting
        exact h.shrink rfl rfl rfl rfl (List.Subset.refl _) hwaiting

theorem finish (h : x.Kept workers) (number : Nat) : (x.finish number).Kept workers := by
  unfold Closing.finish
  cases x.queue.active.find? (fun t => t.number == number) with
  | none => exact h
  | some t => exact h.shrink rfl rfl rfl rfl (List.Subset.refl _) (List.Subset.refl _)

theorem close (h : x.Kept workers) : x.close.Kept workers := by
  unfold Closing.close
  cases hclosed : x.queue.closed with
  | true =>
      rw [if_pos rfl]
      exact h
  | false =>
      rw [if_neg Bool.false_ne_true]
      refine ⟨h.fresh, fun _ c hc => List.mem_map_of_mem hc, fun hleft => ?_⟩
      exact absurd (h.left hleft).1 (by simp [hclosed])

theorem leave (h : x.Kept workers) : x.leave.Kept workers := by
  unfold Closing.leave
  by_cases hdone : x.queue.closed ∧ x.queue.waiting = [] ∧ x.queue.active.length < x.present
  · rw [if_pos hdone]
    refine ⟨h.fresh, h.late, fun _ => ⟨hdone.1, ?_⟩⟩
    simp [hdone.2.1]
  · rw [if_neg hdone]
    exact h

theorem step (h : x.Kept workers) (move : Move) : (x.step move).Kept workers := by
  cases move with
  | come priority => exact h.come priority
  | measure number => exact h.measure number
  | enqueue number => exact h.enqueue number
  | take => exact h.take
  | finish number => exact h.finish number
  | close => exact h.close
  | leave => exact h.leave

theorem run (workers capacity : Nat) (moves : List Move) :
    (run workers capacity moves).Kept workers := by
  induction moves using List.reverseRecOn with
  | nil => exact start workers capacity
  | append_singleton moves move ih =>
      rw [Closing.run, List.foldl_append]
      exact ih.step move

-- Taken one after the other, the steps of a call are those of `TaskQueue.submit`.
theorem submit_in_steps (h : x.Kept workers) (priority : Priority) :
    (((x.come priority).measure x.calls).enqueue x.calls).queue =
      (x.queue.submit priority x.calls).toOption.getD x.queue := by
  have hinside (c : Caller) (hc : c ∈ x.inside) : c.number < x.calls :=
    h.fresh c (List.mem_append_left _ hc)
  have hadmitted (c : Caller) (hc : c ∈ x.admitted) : c.number < x.calls :=
    h.fresh c (List.mem_append_right _ hc)
  have hin := find?_fresh hinside
  have had := find?_fresh hadmitted
  unfold TaskQueue.submit TaskQueue.refusal? Closing.come
  cases hclosed : x.queue.closed with
  | true => simp [Closing.measure, Closing.enqueue, hin, had, Except.toOption]
  | false =>
      by_cases hfull : x.queue.capacity ≤ x.queue.depth <;>
        simp [Closing.measure, Closing.enqueue, hin, had, hfull, Except.toOption]

end Kept

-- When all workers have left, whatever is in the queue was brought by somebody who was under way when it
-- was closed.
theorem late_of_deserted {workers : Nat} (hworkers : 0 < workers) (capacity : Nat)
    (moves : List Move) (hleft : (run workers capacity moves).present = 0) :
    ∀ t ∈ (run workers capacity moves).queue.waiting, t.task ∈ (run workers capacity moves).late := by
  have h := Kept.run workers capacity moves
  exact (h.left (by omega)).2

-- There can be such a task.
theorem deserted_of_late :
    let x := run 1 1 [.come .normal, .measure 0, .close, .leave, .enqueue 0]
    x.queue.closed ∧ x.present = 0 ∧ x.queue.waiting = [⟨0, .normal, 0⟩] := by
  decide

theorem waiting_step {x : Closing} (hleft : x.present = 0) (move : Move) :
    (x.step move).present = 0 ∧ x.queue.waiting <+: (x.step move).queue.waiting := by
  cases move with
  | come priority =>
      rw [step, come]
      cases x.queue.closed <;> exact ⟨hleft, List.prefix_rfl⟩
  | measure number =>
      rw [step, measure]
      cases x.inside.find? (fun c => c.number == number) with
      | none => exact ⟨hleft, List.prefix_rfl⟩
      | some c => by_cases hfull : x.queue.capacity ≤ x.queue.depth <;> simp [hfull, hleft]
  | enqueue number =>
      rw [step, enqueue]
      cases x.admitted.find? (fun c => c.number == number) with
      | none => exact ⟨hleft, List.prefix_rfl⟩
      | some c => exact ⟨hleft, List.prefix_append _ _⟩
  | take =>
      rw [step, take, if_pos (by omega)]
      exact ⟨hleft, List.prefix_rfl⟩
  | finish number =>
      rw [step, finish]
      cases x.queue.active.find? (fun t => t.number == number) <;> exact ⟨hleft, List.prefix_rfl⟩
  | close =>
      rw [step, close]
      cases x.queue.closed <;> exact ⟨hleft, List.prefix_rfl⟩
  | leave =>
      rw [step, leave, if_neg (by omega)]
      exact ⟨hleft, List.prefix_rfl⟩

-- Nobody ever takes it.
theorem waiting_foldl {x : Closing} (hleft : x.present = 0) (moves : List Move) :
    x.queue.waiting <+: (moves.foldl step x).queue.waiting := by
  induction moves generalizing x with
  | nil => exact List.prefix_rfl
  | cons move moves ih =>
      obtain ⟨hstill, hprefix⟩ := waiting_step hleft move
      exact hprefix.trans (ih hstill)

end Closing

end DocStore
