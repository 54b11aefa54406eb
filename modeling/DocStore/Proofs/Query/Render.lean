import DocStore.Query.Render
import DocStore.Proofs.Query.Operand

-- A query as tokens, and the scanner's way back to them from the text of the query.
namespace DocStore

open Token (Spelled Apart scan)

namespace Predicate

def operands : Predicate → List Value
  | .present => []
  | .equal v => [v]
  | .less v => [v]
  | .greater v => [v]
  | .start v skip => v :: skip.toList

def tokens : Predicate → List Token
  | .present => []
  | .equal v => [.equals, Literal.token v]
  | .less v => [.less, Literal.token v]
  | .greater v => [.greater, Literal.token v]
  | .start v none => [.caret, Literal.token v]
  | .start v (some skip) => [.caret, Literal.token v, .dollar, Literal.token skip]

end Predicate

namespace Condition

def tokens (c : Condition) : List Token := .word c.key :: c.predicate.tokens

end Condition

namespace Query

-- Every name in a query is as `name` says, and every operand as `operand` says, down to the last
-- of its links.
inductive All (name : String → Prop) (operand : Value → Prop) : Query → Prop where
  | intro {model : String} {filter : List Condition} {links : List Query} (hmodel : name model)
      (hfilter : ∀ c ∈ filter, name c.key ∧ ∀ v ∈ c.predicate.operands, operand v)
      (hlinks : ∀ link ∈ links, All name operand link) : All name operand ⟨model, filter, links⟩

theorem All.imp {name name' : String → Prop} {operand operand' : Value → Prop} {q : Query}
    (h : q.All name operand) (hname : ∀ s, name s → name' s)
    (hoperand : ∀ v, operand v → operand' v) : q.All name' operand' := by
  induction h with
  | intro hmodel hfilter _ ih =>
      exact .intro (hname _ hmodel) (fun c hc => ⟨hname _ (hfilter c hc).1,
        fun v hv => hoperand v ((hfilter c hc).2 v hv)⟩) ih

theorem All.and {name name' : String → Prop} {operand operand' : Value → Prop} {q : Query}
    (h : q.All name operand) (h' : q.All name' operand') :
    q.All (fun s => name s ∧ name' s) (fun v => operand v ∧ operand' v) := by
  induction h with
  | intro hmodel hfilter _ ih =>
      obtain ⟨hmodel', hfilter', hlinks'⟩ := h'
      refine .intro ⟨hmodel, hmodel'⟩ (fun c hc => ?_) (fun link hlink => ?_)
      · obtain ⟨hkey, hoperands⟩ := hfilter c hc
        obtain ⟨hkey', hoperands'⟩ := hfilter' c hc
        exact ⟨⟨hkey, hkey'⟩, fun v hv => ⟨hoperands v hv, hoperands' v hv⟩⟩
      · exact ih link hlink (hlinks' link hlink)

def filterTokens : List Condition → List Token
  | [] => []
  | filter => .openParen :: (filter.flatMap Condition.tokens ++ [.closeParen])

mutual

def tokens : Query → List Token
  | ⟨model, filter, links⟩ => .word model :: (filterTokens filter ++ linksTokens links)

def linksTokens : List Query → List Token
  | [] => []
  | links => .openBrace :: (eachTokens links ++ [.closeBrace])

def eachTokens : List Query → List Token
  | [] => []
  | link :: rest => tokens link ++ eachTokens rest

end

-- The names and operands of a query that is read back from its text.
abbrev Writable (q : Query) : Prop := q.All (fun name => Spelled name.toList) Literal.Readable

end Query

variable {rest : List Char}

-- A key with an operand, and the mark between them.
theorem scan_operation {key : String} (hkey : Spelled key.toList) (mark : Char) {token : Token}
    (hmark : Token.mark? mark = some token) {v : Value} (hv : Literal.Readable v)
    (hrest : Apart rest) :
    scan (key.toList ++ mark :: ((Literal.render v).toList ++ rest)) =
      .word key :: token :: Literal.token v :: scan rest := by
  rw [Token.scan_word hkey (Token.apart_cons (Token.continuesWord_of_mark hmark) _),
    String.ofList_toList, Token.scan_mark hmark, Literal.scan_render hv hrest]

theorem Condition.scan_render {c : Condition} (hkey : Spelled c.key.toList)
    (hoperands : ∀ v ∈ c.predicate.operands, Literal.Readable v) (hrest : Apart rest) :
    scan (c.render.toList ++ rest) = c.tokens ++ scan rest := by
  obtain ⟨key, predicate⟩ := c
  cases predicate with
  | present =>
      simp only [render, tokens, Predicate.tokens, Token.scan_word hkey hrest,
        String.ofList_toList]
      rfl
  | equal v =>
      have hv := hoperands v List.mem_cons_self
      have hscan := scan_operation hkey '=' rfl hv hrest
      simpa [render, tokens, Predicate.tokens] using hscan
  | less v =>
      have hv := hoperands v List.mem_cons_self
      have hscan := scan_operation hkey '<' rfl hv hrest
      simpa [render, tokens, Predicate.tokens] using hscan
  | greater v =>
      have hv := hoperands v List.mem_cons_self
      have hscan := scan_operation hkey '>' rfl hv hrest
      simpa [render, tokens, Predicate.tokens] using hscan
  | start v skip =>
      have hv := hoperands v List.mem_cons_self
      cases skip with
      | none =>
          have hscan := scan_operation hkey '^' rfl hv hrest
          simpa [render, tokens, Predicate.tokens] using hscan
      | some skip =>
          have hskip := hoperands skip (List.mem_cons_of_mem _ List.mem_cons_self)
          have hdollar : Token.mark? '$' = some .dollar := rfl
          have hscan := scan_operation hkey '^' rfl hv (Token.apart_cons
            (Token.continuesWord_of_mark hdollar) ((Literal.render skip).toList ++ rest))
          rw [Token.scan_mark hdollar, Literal.scan_render hskip hrest] at hscan
          simpa [render, tokens, Predicate.tokens] using hscan

theorem apart_blank (rest : List Char) : Apart (' ' :: rest) :=
  Token.apart_cons (by decide +kernel) rest

theorem scan_space (rest : List Char) : scan (' ' :: rest) = scan rest := Token.scan_blank rfl rest

namespace Query

-- Conditions are told apart by a blank between them.
theorem scan_conditions {filter : List Condition}
    (h : ∀ c ∈ filter, Spelled c.key.toList ∧ ∀ v ∈ c.predicate.operands, Literal.Readable v)
    (hrest : Apart rest) :
    scan ((String.intercalate " " (filter.map Condition.render)).toList ++ rest) =
      filter.flatMap Condition.tokens ++ scan rest := by
  induction filter with
  | nil => rfl
  | cons c filter ih =>
      obtain ⟨hkey, hoperands⟩ := h c List.mem_cons_self
      have ih := ih fun c hc => h c (List.mem_cons_of_mem _ hc)
      cases filter with
      | nil => simpa using Condition.scan_render hkey hoperands hrest
      | cons d filter =>
          have hscan := Condition.scan_render hkey hoperands (apart_blank
            ((String.intercalate " " ((d :: filter).map Condition.render)).toList ++ rest))
          rw [scan_space, ih] at hscan
          simpa [String.intercalate_cons_cons] using hscan

theorem scan_renderFilter {filter : List Condition}
    (h : ∀ c ∈ filter, Spelled c.key.toList ∧ ∀ v ∈ c.predicate.operands, Literal.Readable v) :
    scan ((renderFilter filter).toList ++ rest) = filterTokens filter ++ scan rest := by
  have hopen : Token.mark? '(' = some .openParen := rfl
  have hclose : Token.mark? ')' = some .closeParen := rfl
  cases filter with
  | nil => rfl
  | cons c filter =>
      have hscan := scan_conditions h
        (Token.apart_cons (Token.continuesWord_of_mark hclose) rest)
      rw [Token.scan_mark hclose] at hscan
      have hrender : (renderFilter (c :: filter)).toList ++ rest =
          '(' :: ((String.intercalate " " ((c :: filter).map Condition.render)).toList ++
            ')' :: rest) := by
        simp [renderFilter]
      rw [hrender, Token.scan_mark hopen, hscan]
      simp [filterTokens]

-- Linked queries that are read back.
theorem scan_renderEach {links : List Query} (h : ∀ link ∈ links, ∀ {rest : List Char},
      Apart rest → scan (link.render.toList ++ rest) = link.tokens ++ scan rest)
    (hrest : Apart rest) :
    scan ((renderEach links).toList ++ rest) = eachTokens links ++ scan rest := by
  induction links with
  | nil => simp [renderEach, eachTokens]
  | cons link links ih =>
      have ih := ih fun link hlink => h link (List.mem_cons_of_mem _ hlink)
      have hapart : Apart ((renderEach links).toList ++ rest) := by
        cases links with
        | nil => simpa [renderEach] using hrest
        | cons next links =>
            simp only [renderEach, String.toList_append]
            exact apart_blank _
      have hscan := h link List.mem_cons_self hapart
      simp only [renderEach, eachTokens, String.toList_append, List.append_assoc]
      rw [ih] at hscan
      exact (scan_space _).trans hscan

theorem scan_renderLinks {links : List Query} (h : ∀ link ∈ links, ∀ {rest : List Char},
      Apart rest → scan (link.render.toList ++ rest) = link.tokens ++ scan rest) :
    scan ((renderLinks links).toList ++ rest) = linksTokens links ++ scan rest := by
  have hopen : Token.mark? '\x7b' = some .openBrace := rfl
  have hclose : Token.mark? '\x7d' = some .closeBrace := rfl
  cases links with
  | nil => simp [renderLinks, linksTokens]
  | cons link links =>
      have hscan := scan_renderEach h (apart_blank ('\x7d' :: rest))
      rw [scan_space, Token.scan_mark hclose] at hscan
      have hrender : (renderLinks (link :: links)).toList ++ rest =
          ' ' :: '\x7b' :: ((renderEach (link :: links)).toList ++ ' ' :: '\x7d' :: rest) := by
        simp [renderLinks]
      rw [hrender, scan_space, Token.scan_mark hopen, hscan]
      simp [linksTokens]

theorem apart_renderFilter (filter : List Condition) (hrest : Apart rest) :
    Apart ((renderFilter filter).toList ++ rest) := by
  cases filter with
  | nil => simpa [renderFilter] using hrest
  | cons c filter =>
      simp only [renderFilter, String.toList_append]
      exact Token.apart_cons (by decide +kernel) _

theorem apart_renderLinks (links : List Query) (hrest : Apart rest) :
    Apart ((renderLinks links).toList ++ rest) := by
  cases links with
  | nil => simpa [renderLinks] using hrest
  | cons link links =>
      simp only [renderLinks, String.toList_append]
      exact apart_blank _

-- The scanner finds the tokens of a query in its text, whatever follows that continues no word.
theorem scan_render {q : Query} (h : q.Writable) (hrest : Apart rest) :
    scan (q.render.toList ++ rest) = q.tokens ++ scan rest := by
  induction h generalizing rest with
  | @intro model filter links hmodel hfilter _ ih =>
      have hapart := apart_renderFilter filter (apart_renderLinks links hrest)
      simp only [render, tokens, String.toList_append, List.append_assoc]
      rw [Token.scan_word hmodel hapart, String.ofList_toList, scan_renderFilter hfilter,
        scan_renderLinks fun link hlink => ih link hlink]
      simp

end Query

end DocStore
