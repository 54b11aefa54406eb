import DocStore.Request

namespace DocStore

-- What a query asks of one field.
inductive Predicate where
  | present
  | equal (value : Value)
  | less (value : Value)
  | greater (value : Value)
  -- texts that begin with a value, and sort after `skip` if that is given
  | start (value : Value) (skip : Option Value)
  deriving BEq, Repr, Inhabited

structure Condition where
  key : String
  predicate : Predicate
  deriving BEq, Repr, Inhabited

-- A query for the documents of a model, with queries for the documents they link to.
structure Query where
  model : String
  filter : List Condition
  links : List Query
  deriving BEq, Repr, Inhabited

namespace Predicate

def equals : Predicate → Predicate → Bool
  | .present, .present => true
  | .equal a, .equal b => a.equals b
  | .less a, .less b => a.equals b
  | .greater a, .greater b => a.equals b
  | .start a none, .start b none => a.equals b
  | .start a (some s), .start b (some t) => a.equals b && s.equals t
  | _, _ => false

def toFilter (key : String) : Predicate → Filter
  | .present => Filter.present key
  | .equal v => { Filter.present key with equal := some v }
  | .less v => { Filter.present key with less := some v }
  | .greater v => { Filter.present key with greater := some v }
  | .start v skip => { Filter.present key with start := some v, skip := skip }

end Predicate

namespace Condition

def equals (a b : Condition) : Bool := a.key == b.key && a.predicate.equals b.predicate

def toFilter (c : Condition) : Filter := c.predicate.toFilter c.key

end Condition

namespace Query

def equalConditions : List Condition → List Condition → Bool
  | [], [] => true
  | a :: as, b :: bs => a.equals b && equalConditions as bs
  | _, _ => false

mutual

-- Equality of queries, in which operands compare as values do.
def equals : Query → Query → Bool
  | ⟨m, f, l⟩, ⟨n, g, k⟩ => m == n && equalConditions f g && equalLinks l k

def equalLinks : List Query → List Query → Bool
  | [], [] => true
  | a :: as, b :: bs => equals a b && equalLinks as bs
  | _, _ => false

end

mutual

-- The search that a query asks for, with whole documents as results.
def toRequest : Query → SearchRequest
  | ⟨model, filter, links⟩ =>
    ⟨model, filter.map Condition.toFilter, none, none, true, linksToRequests links⟩

def linksToRequests : List Query → List SearchRequest
  | [] => []
  | link :: rest => toRequest link :: linksToRequests rest

end

-- The first condition on a field.
def condition? (query : Query) (key : String) : Option Condition :=
  query.filter.find? (fun c => c.key == key)

end Query

end DocStore
