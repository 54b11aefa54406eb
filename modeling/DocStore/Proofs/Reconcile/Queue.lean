import Mathlib.Data.List.Induction
import Mathlib.Data.List.Perm.Basic
import DocStore.Reconcile.Queue

-- Which ticket a queue hands out next, and what stays behind.
namespace DocStore

namespace Ticket

variable {α : Type}

-- Where tickets have numbers of their own, one of them is picked out by its number.
theorem perm_cons_filter {tickets : List (Ticket α)} {t : Ticket α}
    (hnodup : (tickets.map (fun u => u.number)).Nodup) (h : t ∈ tickets) :
    tickets.Perm (t :: tickets.filter (fun u => u.number != t.number)) := by
  induction tickets with
  | nil => cases h
  | cons head rest ih =>
      rw [List.map_cons, List.nodup_cons] at hnodup
      obtain ⟨hhead, hrest⟩ := hnodup
      rcases List.mem_cons.mp h with rfl | hm
      · have hall : rest.filter (fun u => u.number != t.number) = rest := by
          rw [List.filter_eq_self]
          intro u hu
          rw [bne_iff_ne]
          exact fun heq => hhead (heq ▸ List.mem_map_of_mem hu)
        simp [hall]
      · have hne : head.number ≠ t.number := fun heq => hhead (heq ▸ List.mem_map_of_mem hm)
        rw [List.filter_cons_of_pos (by simpa using hne)]
        exact ((ih hrest hm).cons head).trans (List.Perm.swap t head _)

-- How often a task stands among tickets, counted without one of them.
theorem count_filter [BEq α] {tickets : List (Ticket α)} {t : Ticket α}
    (hnodup : (tickets.map (fun u => u.number)).Nodup) (h : t ∈ tickets) (a : α) :
    (tickets.map (fun u => u.task)).count a =
      ((tickets.filter (fun u => u.number != t.number)).map (fun u => u.task)).count a +
        [t.task].count a := by
  rw [((perm_cons_filter hnodup h).map _).count_eq, List.map_cons, List.count_cons,
    List.count_singleton]

theorem length_filter {tickets : List (Ticket α)} {t : Ticket α}
    (hnodup : (tickets.map (fun u => u.number)).Nodup) (h : t ∈ tickets) :
    tickets.length = (tickets.filter (fun u => u.number != t.number)).length + 1 :=
  (perm_cons_filter hnodup h).length_eq

end Ticket

namespace TaskQueue

variable {α : Type} {q : TaskQueue α} {t : Ticket α}

-- Of some tickets, the one that is first in turn: none behind it is more urgent, and all before it are
-- less urgent.
def Leads (tickets : List (Ticket α)) (t : Ticket α) : Prop :=
  ∃ front back, tickets = front ++ t :: back ∧
    (∀ u ∈ front, u.priority.rank < t.priority.rank) ∧
    ∀ u ∈ back, u.priority.rank ≤ t.priority.rank

theorem Leads.mem {tickets : List (Ticket α)} (h : Leads tickets t) : t ∈ tickets := by
  obtain ⟨front, back, rfl, -, -⟩ := h
  simp

theorem Leads.rank_le {tickets : List (Ticket α)} (h : Leads tickets t) {u : Ticket α}
    (hu : u ∈ tickets) : u.priority.rank ≤ t.priority.rank := by
  obtain ⟨front, back, rfl, hfront, hback⟩ := h
  rcases List.mem_append.mp hu with hm | hm
  · exact Nat.le_of_lt (hfront u hm)
  · rcases List.mem_cons.mp hm with rfl | hm
    · exact Nat.le_refl _
    · exact hback u hm

-- What is picked in one pass over tickets, which come in the order of their numbers.
def pick (tickets : List (Ticket α)) : Option (Ticket α) :=
  tickets.foldl (fun best t => match best with
    | some b => if t.before b then some t else some b
    | none => some t) none

theorem pick_append (tickets : List (Ticket α)) (u : Ticket α) :
    pick (tickets ++ [u]) = match pick tickets with
      | some b => if u.before b then some u else some b
      | none => some u := by
  rw [pick, List.foldl_append]
  rfl

theorem pick_spec {tickets : List (Ticket α)}
    (hasc : tickets.Pairwise (fun t u => t.number < u.number)) :
    match pick tickets with
    | some t => Leads tickets t
    | none => tickets = [] := by
  induction tickets using List.reverseRecOn with
  | nil => rfl
  | append_singleton tickets u ih =>
      obtain ⟨hinit, -, hlast⟩ := List.pairwise_append.mp hasc
      have hspec := ih hinit
      rw [pick_append]
      cases hpick : pick tickets with
      | none =>
          rw [hpick] at hspec
          obtain rfl : tickets = [] := hspec
          exact ⟨[], [], rfl, by simp, by simp⟩
      | some b =>
          rw [hpick] at hspec
          have hnumber : b.number < u.number := hlast b hspec.mem u (by simp)
          by_cases hrank : b.priority.rank < u.priority.rank
          · have hbefore : u.before b = true := by simp [Ticket.before, hrank]
            simp only [hbefore, ite_true]
            refine ⟨tickets, [], rfl, fun v hv => ?_, by simp⟩
            exact Nat.lt_of_le_of_lt (hspec.rank_le hv) hrank
          · have hbefore : u.before b = false := by
              simp only [Ticket.before, hrank, decide_false, Bool.false_or, Bool.and_eq_false_iff,
                decide_eq_false_iff_not]
              exact .inr (by omega)
            simp only [hbefore]
            obtain ⟨front, back, rfl, hfront, hback⟩ := hspec
            refine ⟨front, back ++ [u], by simp, hfront, fun v hv => ?_⟩
            rcases List.mem_append.mp hv with hm | hm
            · exact hback v hm
            · obtain rfl := List.mem_singleton.mp hm
              omega

theorem submit_eq_ok_iff {priority : Priority} {task : α} {q' : TaskQueue α} :
    q.submit priority task = .ok q' ↔ q.refusal? = none ∧ q' = q.enqueue priority task := by
  unfold submit
  cases q.refusal? with
  | none => simp [eq_comm]
  | some refusal => simp

theorem schedule?_eq_some_iff {priority : Priority} {task : α} {q' : TaskQueue α} :
    q.schedule? priority task = some q' ↔
      q.workers ≠ 0 ∧ q.refusal? = none ∧ q' = q.enqueue priority task := by
  unfold schedule?
  by_cases hnone : q.workers = 0
  · simp [hnone]
  · rw [if_neg hnone, ← submit_eq_ok_iff]
    cases q.submit priority task with
    | error refusal => simp [Except.toOption]
    | ok queue => simp [Except.toOption, hnone]

theorem take?_eq_some {rest : TaskQueue α} (h : q.take? = some (t, rest)) :
    q.active.length < q.workers ∧ pick q.waiting = some t ∧
      rest = { q with
        waiting := q.waiting.filter (fun u => u.number != t.number)
        active := q.active ++ [t]
        depth := q.depth - 1
        busy := q.busy + 1 } := by
  unfold take? at h
  by_cases hfree : q.workers ≤ q.active.length
  · simp [hfree] at h
  · rw [if_neg hfree, Option.map_eq_some_iff] at h
    obtain ⟨u, hpick, heq⟩ := h
    cases heq
    exact ⟨by omega, hpick, rfl⟩

section Order

variable (hasc : q.waiting.Pairwise (fun t u => t.number < u.number))
include hasc

theorem leads_of_take? {rest : TaskQueue α} (h : q.take? = some (t, rest)) : Leads q.waiting t := by
  have hspec := pick_spec hasc
  rw [(take?_eq_some h).2.1] at hspec
  exact hspec

-- A worker that is free gets a ticket whenever one waits.
theorem isSome_take?_iff :
    q.take?.isSome ↔ q.active.length < q.workers ∧ q.waiting ≠ [] := by
  have hspec := pick_spec hasc
  have hfirst : q.first? = pick q.waiting := rfl
  unfold take?
  by_cases hfree : q.workers ≤ q.active.length
  · rw [if_pos hfree]
    simp only [Option.isSome_none, Bool.false_eq_true, false_iff, not_and]
    omega
  · rw [if_neg hfree, hfirst]
    cases hpick : pick q.waiting with
    | none =>
        rw [hpick] at hspec
        simp [hspec]
    | some t =>
        rw [hpick] at hspec
        simp [List.ne_nil_of_mem hspec.mem]
        omega

end Order

end TaskQueue

end DocStore
