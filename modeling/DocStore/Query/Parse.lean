import DocStore.Error
import DocStore.Query
import DocStore.Query.Literal
import DocStore.Query.Token

namespace DocStore

-- Why a text is not a query. The names are those of tokens that were found instead.
inductive ParseError where
  | expectedModel (found : String)
  | expectedKey (found : String)
  | expectedOperator (found : String)
  | expectedValue (found : String)
  | misplacedSkip
  | unclosedFilter
  | unclosedLinks
  | notEnoughParameters (expected provided : Nat)
  deriving DecidableEq, Repr

namespace ParseError

def message : ParseError → String
  | .expectedModel found => "expected identifier, got " ++ found
  | .expectedKey found => "expected identifier in filter, got " ++ found
  | .expectedOperator found => "expected =, <, >, or ^ in filter, got " ++ found
  | .expectedValue found =>
    "expected identifier, string, or parameter placeholder as value, got " ++ found
  | .misplacedSkip => "skip ($) is only allowed after a prefix (^) filter"
  | .unclosedFilter => "expected )"
  | .unclosedLinks => "expected \x7d"
  | .notEnoughParameters expected provided =>
    "query contains " ++ toString expected ++ " parameter placeholders but only "
      ++ toString provided ++ " values were provided"

def toError (e : ParseError) : Error := .validation ("invalid query: " ++ e.message)

end ParseError

-- How far a query has been read: the tokens that follow, and the number of placeholders met.
structure QueryReader where
  tokens : List Token
  placeholders : Nat
  deriving Repr, Inhabited

namespace QueryReader

-- The operators of conditions.
inductive Operator where
  | equal
  | less
  | greater
  | start
  deriving DecidableEq, Repr

def operator? : Token → Option Operator
  | .equals => some .equal
  | .less => some .less
  | .greater => some .greater
  | .caret => some .start
  | _ => none

def Operator.predicate : Operator → Value → Predicate
  | .equal, v => .equal v
  | .less, v => .less v
  | .greater, v => .greater v
  | .start, v => .start v none

-- What is read, or why nothing is, and where the reader stands afterwards. After a failure it
-- stands at the token that was not expected.
abbrev Step (α : Type) := Except ParseError α × QueryReader

def ofText (text : String) : QueryReader := ⟨Token.ofText text, 0⟩

def found (tokens : List Token) : String :=
  match tokens with
  | [] => "EOF"
  | token :: _ => token.kindName

-- Reads an operand. Each placeholder stands for the next parameter, or, while they are only
-- counted, for nothing.
def readValue (params : Option (List Value)) (r : QueryReader) : Step Value :=
  match r.tokens with
  | .placeholder :: rest =>
    let counted := r.placeholders + 1
    match params with
    | none => (.ok .null, ⟨rest, counted⟩)
    | some values =>
      match values[r.placeholders]? with
      | some v => (.ok v, ⟨rest, counted⟩)
      | none => (.error (.notEnoughParameters counted values.length), ⟨r.tokens, counted⟩)
  | .word text :: rest => (.ok (Literal.value text), { r with tokens := rest })
  | .quoted text :: rest => (.ok (.string text), { r with tokens := rest })
  | other => (.error (.expectedValue (found other)), r)

-- A key is complete where a separator, another key or the end of the filter follows.
def endsKey : List Token → Bool
  | .closeParen :: _ => true
  | .word _ :: _ => true
  | token :: _ => token.isSeparator
  | [] => false

-- Reads what is asked of a field, behind its key.
def readPredicate (params : Option (List Value)) (r : QueryReader) : Step Predicate :=
  if endsKey r.tokens then (.ok .present, r)
  else
    match r.tokens.head?.bind operator? with
    | none => (.error (.expectedOperator (found r.tokens)), r)
    | some op =>
      match readValue params { r with tokens := r.tokens.drop 1 } with
      | (.error e, r) => (.error e, r)
      | (.ok value, r) =>
        match r.tokens with
        | .dollar :: rest =>
          if op = .start then
            match readValue params { r with tokens := rest } with
            | (.error e, r) => (.error e, r)
            | (.ok skip, r) => (.ok (.start value (some skip)), r)
          else (.error .misplacedSkip, r)
        | _ => (.ok (op.predicate value), r)

-- Reads the conditions of a filter up to its end. `fuel` bounds their number.
def readConditions (params : Option (List Value)) : Nat → QueryReader → Step (List Condition)
  | 0, r => (.error .unclosedFilter, r)
  | fuel + 1, r =>
    match r.tokens with
    | [] => (.error .unclosedFilter, r)
    | tokens =>
      match tokens.dropWhile Token.isSeparator with
      | .closeParen :: rest => (.ok [], { r with tokens := rest })
      | .word key :: rest =>
        match readPredicate params { r with tokens := rest } with
        | (.error e, r) => (.error e, r)
        | (.ok predicate, r) =>
          match readConditions params fuel r with
          | (.error e, r) => (.error e, r)
          | (.ok conditions, r) => (.ok (⟨key, predicate⟩ :: conditions), r)
      | other => (.error (.expectedKey (found other)), { r with tokens := other })

def readFilter (params : Option (List Value)) (r : QueryReader) : Step (List Condition) :=
  match r.tokens with
  | .openParen :: rest => readConditions params (rest.length + 1) { r with tokens := rest }
  | _ => (.ok [], r)

mutual

-- Reads a query. `fuel` bounds the number of steps.
def readQueryUpTo (params : Option (List Value)) : Nat → QueryReader → Step Query
  | 0, r => (.error .unclosedLinks, r)
  | fuel + 1, r =>
    match r.tokens with
    | .word model :: rest =>
      match readFilter params { r with tokens := rest } with
      | (.error e, r) => (.error e, r)
      | (.ok filter, r) =>
        match r.tokens with
        | .openBrace :: rest =>
          match readLinksUpTo params fuel { r with tokens := rest } with
          | (.error e, r) => (.error e, r)
          | (.ok links, r) => (.ok ⟨model, filter, links⟩, r)
        | _ => (.ok ⟨model, filter, []⟩, r)
    | other => (.error (.expectedModel (found other)), r)

-- Reads linked queries up to the end of the links. Tokens that start no query are skipped.
def readLinksUpTo (params : Option (List Value)) : Nat → QueryReader → Step (List Query)
  | 0, r => (.error .unclosedLinks, r)
  | fuel + 1, r =>
    match r.tokens with
    | [] => (.error .unclosedLinks, r)
    | .closeBrace :: rest => (.ok [], { r with tokens := rest })
    | .word _ :: _ =>
      match readQueryUpTo params fuel r with
      | (.error e, r) => (.error e, r)
      | (.ok link, r) =>
        match readLinksUpTo params fuel r with
        | (.error e, r) => (.error e, r)
        | (.ok links, r) => (.ok (link :: links), r)
    | _ :: rest => readLinksUpTo params fuel { r with tokens := rest }

end

-- Reads a query at the front of the tokens.
def readQuery (params : Option (List Value)) (r : QueryReader) : Step Query :=
  readQueryUpTo params (2 * r.tokens.length + 2) r

end QueryReader

namespace Query

-- The query that a text begins with. Placeholders are counted before any of them is bound.
def parse (text : String) (params : List Value) : Except ParseError Query :=
  match (QueryReader.ofText text).readQuery none with
  | (.error e, _) => .error e
  | (.ok _, r) =>
    if params.length < r.placeholders then
      .error (.notEnoughParameters r.placeholders params.length)
    else ((QueryReader.ofText text).readQuery (some params)).1

end Query

end DocStore
