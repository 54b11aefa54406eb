import Mathlib
import DocStore.Proofs.Query.Grammar
import DocStore.Proofs.Query.Parse

-- What stands behind a query in a text. The reader stops where the query ends, and looks at no more
-- than the token there to tell that it does.
namespace DocStore

namespace Grammar

variable {tokens rest : List Token}

-- Tokens that a query does not go on with where it did not go on with others.
def Replaces (other rest : List Token) : Prop :=
  other.head? = rest.head? ∨ QueryReader.Complete other

theorem Replaces.append {other : List Token} (h : Replaces other rest) (front : List Token) :
    Replaces (front ++ other) (front ++ rest) := by
  cases front with
  | nil => exact h
  | cons token front => exact .inl rfl

theorem Operand.split {v : Value} (h : Operand tokens v rest) :
    ∃ front, tokens = front ++ rest ∧ ∀ other, Operand (front ++ other) v other := by
  cases h with
  | word text => exact ⟨[.word text], rfl, fun other => .word text other⟩
  | quoted text => exact ⟨[.quoted text], rfl, fun other => .quoted text other⟩
  | placeholder => exact ⟨[.placeholder], rfl, fun other => .placeholder other⟩

theorem Question.split {p : Predicate} (h : Question tokens p rest) :
    ∃ front, tokens = front ++ rest ∧ ∀ other, Question (front ++ other) p other := by
  cases h with
  | present => exact ⟨[], rfl, fun other => .present other⟩
  | equal hv =>
      obtain ⟨front, rfl, hfront⟩ := hv.split
      exact ⟨.equals :: front, rfl, fun other => .equal (hfront other)⟩
  | less hv =>
      obtain ⟨front, rfl, hfront⟩ := hv.split
      exact ⟨.less :: front, rfl, fun other => .less (hfront other)⟩
  | greater hv =>
      obtain ⟨front, rfl, hfront⟩ := hv.split
      exact ⟨.greater :: front, rfl, fun other => .greater (hfront other)⟩
  | start hv =>
      obtain ⟨front, rfl, hfront⟩ := hv.split
      exact ⟨.caret :: front, rfl, fun other => .start (hfront other)⟩
  | skip hv hskip =>
      obtain ⟨back, rfl, hback⟩ := hskip.split
      obtain ⟨front, rfl, hfront⟩ := hv.split
      refine ⟨.caret :: (front ++ .dollar :: back), by simp, fun other => ?_⟩
      simpa using Question.skip (hfront (.dollar :: (back ++ other))) (hback other)

theorem Conditions.split {conditions : List Condition} (h : Conditions tokens conditions rest) :
    ∃ front, tokens = front ++ rest ∧ ∀ other, Conditions (front ++ other) conditions other := by
  induction h with
  | @done seps rest hseps =>
      refine ⟨seps ++ [.closeParen], by simp, fun other => ?_⟩
      simpa using Conditions.done other hseps
  | @more seps tokens more rest key p conditions hseps hquestion _ ih =>
      obtain ⟨back, rfl, hback⟩ := ih
      obtain ⟨front, rfl, hfront⟩ := hquestion.split
      refine ⟨seps ++ .word key :: (front ++ back), by simp, fun other => ?_⟩
      simpa using Conditions.more hseps (hfront (back ++ other)) (hback other)

theorem Filter.split {filter : List Condition} (h : Filter tokens filter rest) :
    ∃ front, tokens = front ++ rest ∧
      ∀ other, Replaces other rest → Filter (front ++ other) filter other := by
  cases h with
  | absent habsent =>
      refine ⟨[], rfl, fun other hother => .absent ?_⟩
      rcases hother with hsame | hcomplete
      · exact hsame ▸ habsent
      · exact fun hhead => (hcomplete _ hhead).1 rfl
  | present hconditions =>
      obtain ⟨front, rfl, hfront⟩ := hconditions.split
      exact ⟨.openParen :: front, rfl, fun other _ => .present (hfront other)⟩

mutual

theorem Query.split : ∀ {tokens rest : List Token} {q : DocStore.Query}, Query tokens q rest →
    ∃ front, tokens = front ++ rest ∧ ∀ other, Replaces other rest → Query (front ++ other) q other
  | _, _, _, @Query.mk _ _ _ model _ _ hfilter hnested => by
      obtain ⟨back, rfl, hback⟩ := hnested.split
      obtain ⟨front, rfl, hfront⟩ := hfilter.split
      refine ⟨.word model :: (front ++ back), by simp, fun other hother => ?_⟩
      simpa using Query.mk (hfront _ (hother.append back)) (hback other hother)

theorem Nested.split : ∀ {tokens rest : List Token} {links : List DocStore.Query},
    Nested tokens links rest →
      ∃ front, tokens = front ++ rest ∧
        ∀ other, Replaces other rest → Nested (front ++ other) links other
  | _, _, _, .absent habsent => by
      refine ⟨[], rfl, fun other hother => .absent ?_⟩
      rcases hother with hsame | hcomplete
      · exact hsame ▸ habsent
      · exact fun hhead => (hcomplete _ hhead).2 rfl
  | _, _, _, .present hlinks => by
      obtain ⟨front, -, rfl, hfront⟩ := hlinks.split
      exact ⟨.openBrace :: front, rfl, fun other _ => .present (hfront other)⟩

-- Links end with a brace of their own.
theorem Links.split : ∀ {tokens rest : List Token} {links : List DocStore.Query},
    Links tokens links rest →
      ∃ front, front ≠ [] ∧ tokens = front ++ rest ∧ ∀ other, Links (front ++ other) links other
  | _, _, _, .done _ => ⟨[.closeBrace], by simp, rfl, fun other => .done other⟩
  | _, rest, _, .link hlink hlinks => by
      obtain ⟨back, hne, rfl, hback⟩ := hlinks.split
      obtain ⟨front, rfl, hfront⟩ := hlink.split
      refine ⟨front ++ back, by simp [hne], by simp, fun other => ?_⟩
      have hsame : Replaces (back ++ other) (back ++ rest) :=
        .inl (by rw [List.head?_append_of_ne_nil _ hne, List.head?_append_of_ne_nil _ hne])
      simpa using Links.link (hfront _ hsame) (hback other)
  | _, _, _, @Links.skip token _ _ _ hword hclose hlinks => by
      obtain ⟨front, -, rfl, hfront⟩ := hlinks.split
      exact ⟨token :: front, by simp, rfl, fun other => .skip hword hclose (hfront other)⟩

end

end Grammar

namespace Query

variable {text : String} {params : List Value} {q : Query}

-- A text is parsed if its tokens start with a derivation and there are parameters for the
-- placeholders.
theorem parse_eq_ok_iff : parse text params = .ok q ↔
    ∃ tree rest, Grammar.Query (Token.ofText text) tree rest ∧ tree.gaps ≤ params.length ∧
      q = tree.fill params 0 := by
  constructor
  · intro h
    rcases hcounted : (QueryReader.ofText text).readQuery none with ⟨e | tree, r⟩
    · simp [parse, hcounted] at h
    · obtain ⟨hquery, -⟩ := QueryReader.readQuery_eq_ok_iff.mp hcounted
      rw [(parse_of_counted hcounted params).2] at h
      split at h
      · next hgaps => exact ⟨tree, r.tokens, hquery, hgaps, (Except.ok.inj h).symm⟩
      · cases h
  · rintro ⟨tree, rest, hquery, hgaps, rfl⟩
    have hcounted : (QueryReader.ofText text).readQuery none = (.ok tree, ⟨rest, 0 + tree.gaps⟩) :=
      QueryReader.readQuery_eq_ok_iff.mpr ⟨hquery, rfl⟩
    rw [(parse_of_counted hcounted params).2, if_pos hgaps]

-- What is parsed is a complete query in front of the text, and what stands behind that query is
-- dropped: with anything else there that the query does not go on with, or with nothing, the same
-- is parsed.
theorem parse_drops_rest (h : parse text params = .ok q) : ∃ front rest tree,
    Token.ofText text = front ++ rest ∧ Grammar.Query front tree [] ∧ q = tree.fill params 0 ∧
      ∀ other more, Token.ofText other = front ++ more → Grammar.Replaces more rest →
        parse other params = .ok q := by
  obtain ⟨tree, rest, hquery, hgaps, rfl⟩ := parse_eq_ok_iff.mp h
  obtain ⟨front, hfront, hreplaces⟩ := hquery.split
  have hend : Grammar.Replaces [] rest := .inr fun token htoken => by cases htoken
  have hwhole := hreplaces [] hend
  rw [List.append_nil] at hwhole
  refine ⟨front, rest, tree, hfront, hwhole, rfl, fun other more hother hmore => ?_⟩
  rw [parse_eq_ok_iff, hother]
  exact ⟨tree, more, hreplaces more hmore, hgaps, rfl⟩

-- A second filter is not looked at.
set_option maxRecDepth 20000 in
theorem parse_second_filter :
    parse "Book(a=1)(b=2)" [] =
      .ok ⟨"Book", [⟨"a", .equal (.float ⟨0x3FF0000000000000⟩)⟩], []⟩ := by
  cbv

end Query

end DocStore
