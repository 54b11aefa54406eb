import DocStore.Document

namespace DocStore

-- What is urgent goes before the rest.
inductive Priority where
  | normal
  | high
  deriving DecidableEq, Repr, Inhabited

namespace Priority

def rank : Priority → Nat
  | .normal => 0
  | .high => 1

-- Changes of models and reactors settle before the changes of documents behind them.
def ofModel (model : String) : Priority :=
  if model == modelOfModels || model == modelOfReactors then .high else .normal

end Priority

-- Why a task was not queued.
inductive QueueRefusal where
  | full
  | closed
  deriving DecidableEq, Repr

namespace QueueRefusal

def message : QueueRefusal → String
  | .full => "reconcile queue is full"
  | .closed => "reconcile scheduler is shut down"

end QueueRefusal

-- A queued task, with its place in the order of all tasks ever queued.
structure Ticket (α : Type) where
  number : Nat
  priority : Priority
  task : α
  deriving DecidableEq, Repr

namespace Ticket

-- The one that is to be taken first: the more urgent, and of two alike the older one.
def before {α : Type} (a b : Ticket α) : Bool :=
  b.priority.rank < a.priority.rank || (a.priority == b.priority && a.number < b.number)

end Ticket

-- What is told of a queue: how many tasks wait, how many are being worked at, how many are done, and
-- how many workers there are.
structure QueueStats where
  depth : Nat
  busy : Nat
  completed : Nat
  workers : Nat
  deriving DecidableEq, Repr

-- Tasks that wait for a number of workers, and those that workers are at. They are counted as they
-- come and go.
structure TaskQueue (α : Type) where
  waiting : List (Ticket α)
  active : List (Ticket α)
  depth : Nat
  busy : Nat
  completed : Nat
  -- how many tasks were ever queued
  issued : Nat
  capacity : Nat
  workers : Nat
  closed : Bool

namespace TaskQueue

variable {α : Type}

def new (workers capacity : Nat) : TaskQueue α := ⟨[], [], 0, 0, 0, 0, capacity, workers, false⟩

def stats (q : TaskQueue α) : QueueStats := ⟨q.depth, q.busy, q.completed, q.workers⟩

-- Why no task can be queued now, if that is so.
def refusal? (q : TaskQueue α) : Option QueueRefusal :=
  if q.closed then some .closed
  else if q.capacity ≤ q.depth then some .full
  else none

-- Queues a task, whether there is room or not.
def enqueue (q : TaskQueue α) (priority : Priority) (task : α) : TaskQueue α :=
  { q with
    waiting := q.waiting ++ [⟨q.issued, priority, task⟩]
    depth := q.depth + 1
    issued := q.issued + 1 }

-- Queues a task if it is not refused.
def submit (q : TaskQueue α) (priority : Priority) (task : α) : Except QueueRefusal (TaskQueue α) :=
  match q.refusal? with
  | some refusal => .error refusal
  | none => .ok (q.enqueue priority task)

-- Queues a task if there is a worker to take it and it is not refused. Otherwise there is no
-- answer, and whoever brings the task is to do it.
def schedule? (q : TaskQueue α) (priority : Priority) (task : α) : Option (TaskQueue α) :=
  if q.workers = 0 then none else (q.submit priority task).toOption

-- The ticket that is next in turn.
def first? (q : TaskQueue α) : Option (Ticket α) :=
  q.waiting.foldl (fun best t => match best with
    | some b => if t.before b then some t else some b
    | none => some t) none

-- A worker that is free takes the ticket that is next in turn.
def take? (q : TaskQueue α) : Option (Ticket α × TaskQueue α) :=
  if q.workers ≤ q.active.length then none
  else q.first?.map (fun t =>
    (t, { q with
      waiting := q.waiting.filter (fun u => u.number != t.number)
      active := q.active ++ [t]
      depth := q.depth - 1
      busy := q.busy + 1 }))

-- A worker is done with a ticket, however that went.
def finish (q : TaskQueue α) (number : Nat) : TaskQueue α :=
  { q with
    active := q.active.filter (fun u => u.number != number)
    busy := q.busy - 1
    completed := q.completed + 1 }

-- A task was done by whoever brought it.
def noteInline (q : TaskQueue α) : TaskQueue α := { q with completed := q.completed + 1 }

-- From now on no task is queued.
def close (q : TaskQueue α) : TaskQueue α := { q with closed := true }

end TaskQueue

end DocStore
