import DocStore.Proofs.Storage.CommitLog
import DocStore.Storage.Backend

-- A store of keys in use by any number of clients. Every call on a handle is one step, and the
-- steps of different handles may come in any order.
namespace DocStore

structure Seat where
  handle : Handle
  iters : List Iter

structure Session where
  kv : Kv
  seats : List Seat

-- What clients may do. Handles go by the number of their seat. To roll back or drop a writer is to
-- close it.
inductive Call where
  | read
  | write (signal : Signal) (stop : Error)
  | writeExclusive (signal : Signal) (stop : Error) (keys : List Bytes)
  | get (n : Nat) (signal : Signal) (key : Bytes)
  | iter (n : Nat) (range : KeyRange)
  | pull (n i : Nat) (signal : Signal)
  | buffer (n : Nat) (key : Bytes) (value : Option Bytes)
  | commit (n : Nat) (signal : Signal)
  | close (n : Nat)

def Call.seat? : Call → Option Nat
  | .read | .write _ _ | .writeExclusive _ _ _ => none
  | .get n _ _ | .iter n _ | .pull n _ _ | .buffer n _ _ | .commit n _ | .close n => some n

inductive Answer where
  | opened (result : Except Error Nat)
  | found (result : Except Error (Option Bytes))
  | item (item : Option (Except Error Pair))
  | done (result : Except Error Unit)
  -- there is no such handle, or nothing to tell
  | nothing

namespace Session

def start (kind : BackendKind) : Session := ⟨Kv.new kind, []⟩

def receive (s : Session) : Except Error Handle × Kv → Answer × Session
  | (.ok h, kv) => (.opened (.ok s.seats.length), ⟨kv, s.seats ++ [⟨h, []⟩]⟩)
  | (.error e, kv) => (.opened (.error e), ⟨kv, s.seats⟩)

-- An iterator borrows its handle: what changes the handle ends its iterators.
def exec (s : Session) : Call → Answer × Session
  | .read => s.receive (.ok s.kv.read.1, s.kv.read.2)
  | .write signal stop => s.receive (s.kv.write signal stop)
  | .writeExclusive signal stop keys => s.receive (s.kv.writeExclusive signal stop keys)
  | .get n signal key =>
    match s.seats[n]? with
    | some seat => (.found (s.kv.get seat.handle signal key), s)
    | none => (.nothing, s)
  | .iter n range =>
    match s.seats[n]? with
    | some seat =>
      let iters := seat.iters ++ [Kv.iter seat.handle range]
      (.nothing, { s with seats := s.seats.set n { seat with iters := iters } })
    | none => (.nothing, s)
  | .pull n i signal =>
    match s.seats[n]? with
    | some seat =>
      match seat.iters[i]? with
      | some it =>
        let (item, it) := s.kv.pull seat.handle signal it
        (.item item, { s with seats := s.seats.set n { seat with iters := seat.iters.set i it } })
      | none => (.nothing, s)
    | none => (.nothing, s)
  | .buffer n key value =>
    match s.seats[n]? with
    | some seat =>
      match Kv.buffer seat.handle key value with
      | .ok h => (.done (.ok ()), { s with seats := s.seats.set n ⟨h, []⟩ })
      | .error e => (.done (.error e), { s with seats := s.seats.set n ⟨seat.handle, []⟩ })
    | none => (.nothing, s)
  | .commit n signal =>
    match s.seats[n]? with
    | some seat =>
      let (result, h, kv) := s.kv.commit seat.handle signal
      (.done result, ⟨kv, s.seats.set n ⟨h, []⟩⟩)
    | none => (.nothing, s)
  | .close n =>
    match s.seats[n]? with
    | some seat =>
      let (h, kv) := s.kv.close seat.handle
      (.done (.ok ()), ⟨kv, s.seats.set n ⟨h, []⟩⟩)
    | none => (.nothing, s)

end Session

-- What an iterator has still to yield, and whether it has reported a failure.
structure Prospect where
  left : List Pair
  broken : Bool

namespace Prospect

-- After an item, what comes behind it is left.
def advance (p : Prospect) : Option (Except Error Pair) → Prospect
  | some (.ok pair) => { p with left := (p.left.dropWhile (fun e => e ≠ pair)).tail }
  | some (.error _) => { p with broken := true }
  | none => p

-- The items that may come next. Only a context that is over makes an iterator fail, and until then
-- it leaves nothing out.
def Admits (p : Prospect) (signal : Signal) : Option (Except Error Pair) → Prop
  | some (.ok pair) => if p.broken then pair ∈ p.left else p.left.head? = some pair
  | some (.error e) => signal.check = .error e
  | none => p.broken ∨ p.left = []

end Prospect

-- What a handle is to see: the map of the version that was current when it was opened, under the
-- writes that it has buffered.
structure Outlook where
  isWriter : Bool
  base : Nat
  reserved : List Bytes
  writes : SortedMap Bytes (Option Bytes)
  isOpen : Bool
  iters : List Prospect

namespace Outlook

def Writing (o : Outlook) : Prop := o.isOpen = true ∧ o.isWriter = true

instance (o : Outlook) : Decidable o.Writing := inferInstanceAs (Decidable (_ ∧ _))

def closed (o : Outlook) : Outlook := { o with isOpen := false, iters := [] }

def finish (o : Outlook) : Outlook := if o.Writing then o.closed else { o with iters := [] }

def map (o : Outlook) (log : CommitLog) : SortedMap Bytes Bytes :=
  (log.mapAt o.base).setAll o.writes.toList

def expect (o : Outlook) (log : CommitLog) (range : KeyRange) : Outlook :=
  let prospect := if o.isOpen then ⟨range.select (o.map log), false⟩ else ⟨[], true⟩
  { o with iters := o.iters ++ [prospect] }

def write (o : Outlook) (key : Bytes) (value : Option Bytes) : Outlook :=
  if o.Writing then { o with writes := o.writes.insert key value, iters := [] }
  else { o with iters := [] }

end Outlook

-- A store that never forgets. It follows a session by what is called and what is answered, and
-- keeps every commit there ever was.
structure Chronicle where
  log : CommitLog
  outlooks : List Outlook

namespace Chronicle

def start : Chronicle := ⟨[], []⟩

def enter (c : Chronicle) (isWriter : Bool) (reserved : List Bytes) : Chronicle :=
  { c with outlooks := c.outlooks ++ [⟨isWriter, c.log.length, reserved, .empty, true, []⟩] }

def modify (c : Chronicle) (n : Nat) (f : Outlook → Outlook) : Chronicle :=
  { c with outlooks := c.outlooks.modify n f }

theorem modify_absent (c : Chronicle) {seats : List Seat} {n : Nat}
    (hlen : seats.length = c.outlooks.length) (hn : seats[n]? = none) (f : Outlook → Outlook) :
    c.modify n f = c := by
  rw [List.getElem?_eq_none_iff] at hn
  rw [modify, List.modify_eq_self (by omega)]

theorem modify_congr (c : Chronicle) (n : Nat) {f g : Outlook → Outlook}
    (h : ∀ o, c.outlooks[n]? = some o → f o = g o) : c.modify n f = c.modify n g := by
  simp only [modify, Chronicle.mk.injEq, true_and]
  refine List.ext_getElem? (fun i => ?_)
  rw [List.getElem?_modify, List.getElem?_modify]
  cases ho : c.outlooks[i]? with
  | none => rfl
  | some o =>
      by_cases hn : n = i
      · simp [hn, h o (hn ▸ ho)]
      · simp [hn]

-- For a writer at work, the end of a commit is the end of the handle.
theorem modify_finish (c : Chronicle) {n : Nat} {o : Outlook} (ho : c.outlooks[n]? = some o)
    (hw : o.Writing) : c.modify n Outlook.finish = c.modify n Outlook.closed := by
  refine c.modify_congr n (fun o' ho' => ?_)
  rw [ho, Option.some.injEq] at ho'
  rw [← ho', Outlook.finish, if_pos hw]

-- What a writer commits that is told so: all its writes at once, if there are any.
def committed? (c : Chronicle) (n : Nat) : Answer → Option Commit
  | .done (.ok ()) => do
    let o ← c.outlooks[n]?
    if o.Writing ∧ o.writes.size ≠ 0 then some ⟨n, o.writes⟩ else none
  | _ => none

def record (c : Chronicle) : Call → Answer → Chronicle
  | .read, .opened (.ok _) => c.enter false []
  | .write _ _, .opened (.ok _) => c.enter true []
  | .writeExclusive _ _ keys, .opened (.ok _) => c.enter true keys
  | .iter n range, _ => c.modify n (fun o => o.expect c.log range)
  | .pull n i _, .item item =>
    c.modify n (fun o => { o with iters := o.iters.modify i (fun p => p.advance item) })
  | .buffer n key value, _ => c.modify n (fun o => o.write key value)
  | .commit n _, answer =>
    { c.modify n Outlook.finish with log := c.log ++ (c.committed? n answer).toList }
  | .close n, _ => c.modify n Outlook.closed
  | _, _ => c

-- No commit is forgotten.
theorem log_record (c : Chronicle) (call : Call) (answer : Answer) :
    c.log <+: (c.record call answer).log := by
  cases call with
  | commit n signal => exact List.prefix_append _ _
  | read | write | writeExclusive =>
      rcases answer with (_ | _) | _ | _ | _ | _ <;> exact List.prefix_rfl
  | pull n i signal => cases answer <;> exact List.prefix_rfl
  | get | iter | buffer | close => exact List.prefix_rfl

-- The answers that a call may get. Handles that are open see what they are to see.
def Admits (c : Chronicle) : Call → Answer → Prop
  | .read, answer => answer = .opened (.ok c.outlooks.length)
  | .write signal _, answer => answer = .opened (signal.check.map (fun _ => c.outlooks.length))
  | .writeExclusive _ _ _, answer =>
    answer = .opened (.ok c.outlooks.length) ∨ ∃ e, answer = .opened (.error e)
  | .get n signal key, answer =>
    ∀ o, c.outlooks[n]? = some o → o.isOpen = true →
      answer = .found (signal.check.map (fun _ => (o.map c.log).get? key))
  | .pull n i signal, answer =>
    ∀ o p, c.outlooks[n]? = some o → o.isOpen = true → o.iters[i]? = some p →
      ∃ item, answer = .item item ∧ p.Admits signal item
  | .buffer n _ _, answer =>
    ∀ o, c.outlooks[n]? = some o → o.Writing → answer = .done (.ok ())
  | _, _ => True

end Chronicle

structure Course where
  session : Session
  chronicle : Chronicle

namespace Course

def start (kind : BackendKind) : Course := ⟨Session.start kind, Chronicle.start⟩

def step (c : Course) (call : Call) : Course :=
  ⟨(c.session.exec call).2, c.chronicle.record call (c.session.exec call).1⟩

theorem step_eq {c : Course} {call : Call} (answer : Answer) {session : Session}
    (h : c.session.exec call = (answer, session)) :
    c.step call = ⟨session, c.chronicle.record call answer⟩ := by rw [step, h]

theorem step_absent {s : Session} {c : Chronicle} {call : Call} {n : Nat}
    (hlen : s.seats.length = c.outlooks.length) (hcall : call.seat? = some n)
    (hn : s.seats[n]? = none) : step ⟨s, c⟩ call = ⟨s, c⟩ := by
  cases call <;> cases hcall <;>
    simp [step, Session.exec, hn, Chronicle.record, Chronicle.committed?, c.modify_absent hlen hn]

theorem step_get (s : Session) (c : Chronicle) (n : Nat) (signal : Signal) (key : Bytes) :
    step ⟨s, c⟩ (.get n signal key) = ⟨s, c⟩ := by
  simp only [step, Session.exec]
  cases s.seats[n]? <;> rfl

def run (kind : BackendKind) (calls : List Call) : Course := calls.foldl step (start kind)

theorem run_append (kind : BackendKind) (calls : List Call) (call : Call) :
    run kind (calls ++ [call]) = (run kind calls).step call := by simp [run]

-- What holds at the start and is kept by every call holds after any calls.
theorem run_induction {kind : BackendKind} {holds : Course → Prop} (hstart : holds (start kind))
    (hstep : ∀ c call, holds c → holds (c.step call)) (calls : List Call) :
    holds (run kind calls) := by
  induction calls using List.reverseRecOn with
  | nil => exact hstart
  | append_singleton calls call ih =>
      rw [run_append]
      exact hstep _ call ih

end Course

end DocStore
