import DocStore.Error

namespace DocStore

-- Instants and durations, in nanoseconds.
abbrev Time := Nat

namespace Time

def ofMillis (ms : Nat) : Time := ms * 1000000

end Time

-- What a request is told when it asks whether to go on.
inductive Signal where
  | go
  | cancelled
  | expired
  deriving DecidableEq, Repr

namespace Signal

def check : Signal → Except Error Unit
  | .go => .ok ()
  | .cancelled => .error .cancelled
  | .expired => .error .deadlineExceeded

end Signal

-- The scope of one request: when it is cancelled, and when its time is up.
structure Context where
  cancelledAt : Option Time
  deadline : Option Time
  deriving DecidableEq, Repr, Inhabited

namespace Context

-- A context that never ends.
def background : Context := ⟨none, none⟩

def signal (ctx : Context) (now : Time) : Signal :=
  if ctx.cancelledAt.any (· ≤ now) then .cancelled
  else if ctx.deadline.any (· ≤ now) then .expired
  else .go

-- The first instant from `now` on at which the context tells to stop.
def ends (ctx : Context) (now : Time) : Option Time :=
  match ctx.cancelledAt, ctx.deadline with
  | none, none => none
  | some c, none => some (max now c)
  | none, some d => some (max now d)
  | some c, some d => some (max now (min c d))

-- What a wait ends with that only the context can end, and when. A context that never ends has its
-- wait cut short, as if it had been cancelled.
def giveUp (ctx : Context) (now : Time) : Error × Time :=
  match ctx.ends now with
  | some stop => (if ctx.signal stop == .expired then .deadlineExceeded else .cancelled, stop)
  | none => (.cancelled, now)

end Context

-- One scope of a family: a scope ends with any of its ancestors.
structure Scope where
  parent : Option Nat
  cancelled : Bool
  deadline : Option Time
  deriving DecidableEq, Repr

-- Scopes by number. A parent always has a smaller number than its children.
structure ScopeTree where
  scopes : List Scope
  deriving Repr

namespace ScopeTree

def empty : ScopeTree := ⟨[]⟩

-- Adds a scope and tells its number.
def add (tree : ScopeTree) (parent : Option Nat) (deadline : Option Time) : Nat × ScopeTree :=
  (tree.scopes.length, ⟨tree.scopes ++ [⟨parent, false, deadline⟩]⟩)

def cancel (tree : ScopeTree) (scope : Nat) : ScopeTree :=
  ⟨tree.scopes.modify scope (fun s => { s with cancelled := true })⟩

-- The earlier of two deadlines, where a missing one never comes.
def earliest : Option Time → Option Time → Option Time
  | some a, some b => some (min a b)
  | some a, none => some a
  | none, b => b

-- What the scope and its ancestors say together. `depth` bounds the number of ancestors.
def viewUpTo (tree : ScopeTree) : Nat → Nat → Bool × Option Time
  | 0, _ => (false, none)
  | depth + 1, scope =>
    match tree.scopes[scope]? with
    | none => (false, none)
    | some s =>
      match s.parent with
      | none => (s.cancelled, s.deadline)
      | some p =>
        let (cancelled, deadline) := tree.viewUpTo depth p
        (s.cancelled || cancelled, earliest s.deadline deadline)

-- The context that a scope stands for.
def context (tree : ScopeTree) (scope : Nat) : Context :=
  let (cancelled, deadline) := tree.viewUpTo (scope + 1) scope
  ⟨if cancelled then some 0 else none, deadline⟩

end ScopeTree

end DocStore
