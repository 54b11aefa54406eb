import DocStore.Query
import DocStore.Query.Literal

namespace DocStore

namespace Condition

def render (c : Condition) : String :=
  match c.predicate with
  | .present => c.key
  | .equal v => c.key ++ "=" ++ Literal.render v
  | .less v => c.key ++ "<" ++ Literal.render v
  | .greater v => c.key ++ ">" ++ Literal.render v
  | .start v none => c.key ++ "^" ++ Literal.render v
  | .start v (some skip) => c.key ++ "^" ++ Literal.render v ++ "$" ++ Literal.render skip

end Condition

namespace Query

def renderFilter (filter : List Condition) : String :=
  match filter with
  | [] => ""
  | conditions => "(" ++ String.intercalate " " (conditions.map Condition.render) ++ ")"

mutual

-- The text of a query, with one blank between its parts.
def render : Query → String
  | ⟨model, filter, links⟩ => model ++ renderFilter filter ++ renderLinks links

def renderLinks : List Query → String
  | [] => ""
  | links => " \x7b" ++ renderEach links ++ " \x7d"

def renderEach : List Query → String
  | [] => ""
  | link :: rest => " " ++ render link ++ renderEach rest

end

end Query

end DocStore
