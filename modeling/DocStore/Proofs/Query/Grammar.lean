import DocStore.Proofs.Query.Binding

-- The grammar of the query language, and that the reader accepts what it derives and nothing else.
-- A rule relates the tokens at hand, what the ones in front mean, and the ones behind them. A
-- placeholder means a gap.
namespace DocStore.Grammar

def separators : List Token := [.comma, .and, .doubleAnd]

-- Value := IDENT | STRING | '?'
inductive Operand : List Token → Value → List Token → Prop where
  | word (text : String) (rest : List Token) : Operand (.word text :: rest) (Literal.value text) rest
  | quoted (text : String) (rest : List Token) : Operand (.quoted text :: rest) (.string text) rest
  | placeholder (rest : List Token) : Operand (.placeholder :: rest) .null rest

-- (Op Value ('$' Value)?)? where the second value needs '^' in front of the first one
inductive Question : List Token → Predicate → List Token → Prop where
  | present (rest : List Token) : Question rest .present rest
  | equal {tokens rest : List Token} {v : Value} :
    Operand tokens v rest → Question (.equals :: tokens) (.equal v) rest
  | less {tokens rest : List Token} {v : Value} :
    Operand tokens v rest → Question (.less :: tokens) (.less v) rest
  | greater {tokens rest : List Token} {v : Value} :
    Operand tokens v rest → Question (.greater :: tokens) (.greater v) rest
  | start {tokens rest : List Token} {v : Value} :
    Operand tokens v rest → Question (.caret :: tokens) (.start v none) rest
  | skip {tokens more rest : List Token} {v skip : Value} :
    Operand tokens v (.dollar :: more) → Operand more skip rest →
      Question (.caret :: tokens) (.start v (some skip)) rest

-- (Sep* IDENT (Op Value ('$' Value)?)?)* Sep* ')'
inductive Conditions : List Token → List Condition → List Token → Prop where
  | done {seps : List Token} (rest : List Token) :
    (∀ token ∈ seps, token ∈ separators) → Conditions (seps ++ .closeParen :: rest) [] rest
  | more {seps tokens more rest : List Token} {key : String} {p : Predicate}
      {conditions : List Condition} :
    (∀ token ∈ seps, token ∈ separators) → Question tokens p more →
      Conditions more conditions rest →
      Conditions (seps ++ .word key :: tokens) (⟨key, p⟩ :: conditions) rest

-- Filter?
inductive Filter : List Token → List Condition → List Token → Prop where
  | absent {tokens : List Token} : tokens.head? ≠ some .openParen → Filter tokens [] tokens
  | present {tokens rest : List Token} {conditions : List Condition} :
    Conditions tokens conditions rest → Filter (.openParen :: tokens) conditions rest

mutual

-- Query := IDENT Filter? Nested?
inductive Query : List Token → DocStore.Query → List Token → Prop where
  | mk {tokens more rest : List Token} {model : String} {filter : List Condition}
      {links : List DocStore.Query} :
    Filter tokens filter more → Nested more links rest →
      Query (.word model :: tokens) ⟨model, filter, links⟩ rest

-- Nested?
inductive Nested : List Token → List DocStore.Query → List Token → Prop where
  | absent {tokens : List Token} : tokens.head? ≠ some .openBrace → Nested tokens [] tokens
  | present {tokens rest : List Token} {links : List DocStore.Query} :
    Links tokens links rest → Nested (.openBrace :: tokens) links rest

-- (Query | any token other than IDENT and '}')* '}'
inductive Links : List Token → List DocStore.Query → List Token → Prop where
  | done (rest : List Token) : Links (.closeBrace :: rest) [] rest
  | link {tokens more rest : List Token} {link : DocStore.Query} {links : List DocStore.Query} :
    Query tokens link more → Links more links rest → Links tokens (link :: links) rest
  | skip {token : Token} {tokens rest : List Token} {links : List DocStore.Query} :
    (∀ text, token ≠ .word text) → token ≠ .closeBrace → Links tokens links rest →
      Links (token :: tokens) links rest

end

end DocStore.Grammar

namespace DocStore.QueryReader

open Grammar

variable {α β : Type} {fuel n : Nat} {r : QueryReader} {tokens rest : List Token}

-- A step that succeeds with `a` and stands at `rest` afterwards.
def Yields (step : Step α) (a : α) (rest : List Token) : Prop := ∃ m, step = (.ok a, ⟨rest, m⟩)

section Steps

theorem yields_ok {a b : α} {s : QueryReader} :
    Yields (.ok a, s) b rest ↔ a = b ∧ s.tokens = rest := by
  obtain ⟨more, m⟩ := s
  simp [Yields]

theorem not_yields_error {e : ParseError} {s : QueryReader} {a : α} :
    ¬Yields (.error e, s) a rest := by
  simp [Yields]

theorem yields_andThen {first : Step α} {next : α → QueryReader → Step β} {b : β} :
    Yields (andThen first next) b rest ↔
      ∃ a more m, first = (.ok a, ⟨more, m⟩) ∧ Yields (next a ⟨more, m⟩) b rest := by
  obtain ⟨_ | a, more, m⟩ := first
  · simp [andThen, Yields]
  · constructor
    · exact fun h => ⟨a, more, m, rfl, h⟩
    · rintro ⟨_, _, _, ⟨⟩, h⟩
      exact h

theorem Yields.shorter {bound : Nat} {step : Step α} {a : α} (h : Yields step a rest)
    (hstep : Within bound step) : rest.length < bound := by
  obtain ⟨m, rfl⟩ := h
  exact hstep

theorem yields_value {v : Value} :
    Yields (readValue none ⟨tokens, n⟩) v rest ↔ Operand tokens v rest := by
  constructor
  · intro h
    rcases tokens with _ | ⟨token, more⟩
    · exact absurd h not_yields_error
    · cases token with
      | word text =>
          obtain ⟨rfl, rfl⟩ := yields_ok.mp h
          exact .word text _
      | quoted text =>
          obtain ⟨rfl, rfl⟩ := yields_ok.mp h
          exact .quoted text _
      | placeholder =>
          obtain ⟨rfl, rfl⟩ := yields_ok.mp h
          exact .placeholder _
      | _ => exact absurd h not_yields_error
  · intro h
    cases h <;> exact yields_ok.mpr ⟨rfl, rfl⟩

end Steps

section Filters

theorem yields_skip {op : Operator} {value : Value} {p : Predicate}
    (h : Yields (readSkip none op value ⟨tokens, n⟩) p rest) :
    (p = op.predicate value ∧ tokens = rest) ∨
      ∃ skip more, op = .start ∧ p = .start value (some skip) ∧ tokens = .dollar :: more ∧
        Operand more skip rest := by
  unfold readSkip at h
  split at h
  · next more htokens =>
    simp only at htokens
    split at h
    · next hop =>
      obtain ⟨skip, _, m, hskip, hp⟩ := yields_andThen.mp h
      obtain ⟨rfl, rfl⟩ := yields_ok.mp hp
      exact .inr ⟨skip, more, hop, rfl, htokens, yields_value.mp ⟨m, hskip⟩⟩
    · exact absurd h not_yields_error
  · obtain ⟨rfl, rfl⟩ := yields_ok.mp h
    exact .inl ⟨rfl, rfl⟩

-- Where no skip follows the operand, none is read.
theorem readSkip_of_endsKey {op : Operator} {value : Value} (h : endsKey tokens = true) :
    readSkip none op value ⟨tokens, n⟩ = (.ok (op.predicate value), ⟨tokens, n⟩) := by
  rcases tokens with _ | ⟨token, more⟩
  · rfl
  · cases token with
    | dollar => cases h
    | _ => rfl

theorem question_of_yields {p : Predicate} (h : Yields (readPredicate none ⟨tokens, n⟩) p rest) :
    Question tokens p rest := by
  cases hends : endsKey tokens with
  | true =>
      rw [readPredicate_of_endsKey hends] at h
      obtain ⟨rfl, rfl⟩ := yields_ok.mp h
      exact .present _
  | false =>
      rcases tokens with _ | ⟨token, more⟩
      · exact absurd h not_yields_error
      · cases hop : operator? token with
        | none =>
            simp only [readPredicate, hends, List.head?_cons, Option.bind_some, hop,
              Bool.false_eq_true, if_false] at h
            exact absurd h not_yields_error
        | some op =>
            rw [readPredicate_of_operator (r := ⟨token :: more, n⟩) hends hop] at h
            obtain ⟨value, behind, m, hvalue, hskip⟩ := yields_andThen.mp h
            have hoperand : Operand more value behind := yields_value.mp ⟨m, hvalue⟩
            rcases yields_skip hskip with ⟨rfl, rfl⟩ | ⟨skip, after, rfl, rfl, rfl, hafter⟩
            · cases token <;> cases hop
              · exact .equal hoperand
              · exact .less hoperand
              · exact .greater hoperand
              · exact .start hoperand
            · cases token <;> cases hop
              exact .skip hoperand hafter

theorem yields_of_question {p : Predicate} (h : Question tokens p rest) (hends : endsKey rest = true) :
    Yields (readPredicate none ⟨tokens, n⟩) p rest := by
  have hplain : ∀ (token : Token) {op : Operator} {more : List Token} {v : Value},
      endsKey (token :: more) = false → operator? token = some op → Operand more v rest →
        Yields (readPredicate none ⟨token :: more, n⟩) (op.predicate v) rest := by
    intro token op more v hkey hop hv
    obtain ⟨m, hread⟩ := yields_value (n := n).mpr hv
    rw [readPredicate_of_operator (r := ⟨token :: more, n⟩) hkey hop]
    refine yields_andThen.mpr ⟨v, rest, m, hread, ?_⟩
    rw [readSkip_of_endsKey hends]
    exact yields_ok.mpr ⟨rfl, rfl⟩
  cases h with
  | present =>
      rw [readPredicate_of_endsKey hends]
      exact yields_ok.mpr ⟨rfl, rfl⟩
  | equal hv => exact hplain .equals rfl rfl hv
  | less hv => exact hplain .less rfl rfl hv
  | greater hv => exact hplain .greater rfl rfl hv
  | start hv => exact hplain .caret rfl rfl hv
  | @skip _ more _ v skip hv hskip =>
      obtain ⟨m, hread⟩ := yields_value (n := n).mpr hv
      obtain ⟨k, hreadSkip⟩ := yields_value (n := m).mpr hskip
      rw [readPredicate_of_operator rfl rfl]
      refine yields_andThen.mpr ⟨v, _, m, hread, ?_⟩
      exact yields_andThen.mpr ⟨skip, _, k, hreadSkip, yields_ok.mpr ⟨rfl, rfl⟩⟩

theorem isSeparator_iff {token : Token} : token.isSeparator = true ↔ token ∈ separators := by
  cases token <;> simp [Token.isSeparator, separators]

theorem dropWhile_separators {seps : List Token} {token : Token}
    (hseps : ∀ token ∈ seps, token ∈ separators) (htoken : token.isSeparator = false) :
    (seps ++ token :: rest).dropWhile Token.isSeparator = token :: rest := by
  rw [List.dropWhile_append_of_pos fun token h => isSeparator_iff.mpr (hseps token h),
    List.dropWhile_cons_of_neg (by simp [htoken])]

-- What follows a question is a separator, a key or the end of the filter.
theorem endsKey_of_conditions {conditions : List Condition}
    (h : Conditions tokens conditions rest) : endsKey tokens = true := by
  have hfront : ∀ {seps more : List Token}, (∀ token ∈ seps, token ∈ separators) →
      endsKey more = true → endsKey (seps ++ more) = true := by
    intro seps more hseps hmore
    cases seps with
    | nil => exact hmore
    | cons token seps =>
        have := isSeparator_iff.mpr (hseps token (List.mem_cons_self ..))
        cases token <;> first | rfl | cases this
  cases h with
  | done rest hseps => exact hfront hseps rfl
  | more hseps _ _ => exact hfront hseps rfl

theorem readConditions_close (h : r.tokens.dropWhile Token.isSeparator = .closeParen :: rest) :
    readConditions none (fuel + 1) r = (.ok [], { r with tokens := rest }) := by
  obtain ⟨tokens, n⟩ := r
  cases tokens with
  | nil => cases h
  | cons token tokens => simp only [readConditions, h]

theorem conditions_of_yields {conditions : List Condition}
    (h : Yields (readConditions none fuel ⟨tokens, n⟩) conditions rest) :
    Conditions tokens conditions rest := by
  induction fuel generalizing tokens n conditions with
  | zero => exact absurd h not_yields_error
  | succ fuel ih =>
      have hsplit := List.takeWhile_append_dropWhile (p := Token.isSeparator) (l := tokens)
      have hseps : ∀ token ∈ tokens.takeWhile Token.isSeparator, token ∈ separators :=
        fun token htoken => isSeparator_iff.mp (List.all_eq_true.mp List.all_takeWhile token htoken)
      rcases hdrop : tokens.dropWhile Token.isSeparator with _ | ⟨token, more⟩
      · cases tokens with
        | nil => exact absurd h not_yields_error
        | cons token tokens =>
            simp only [readConditions, hdrop] at h
            exact absurd h not_yields_error
      · rw [hdrop] at hsplit
        cases token with
        | closeParen =>
            rw [readConditions_close hdrop] at h
            obtain ⟨rfl, rfl⟩ := yields_ok.mp h
            rw [← hsplit]
            exact .done _ hseps
        | word key =>
            rw [readConditions_key hdrop] at h
            obtain ⟨p, behind, m, hp, h⟩ := yields_andThen.mp h
            obtain ⟨others, after, k, hothers, h⟩ := yields_andThen.mp h
            obtain ⟨rfl, rfl⟩ := yields_ok.mp h
            rw [← hsplit]
            exact .more hseps (question_of_yields ⟨m, hp⟩) (ih ⟨k, hothers⟩)
        | _ =>
            cases tokens with
            | nil => cases hdrop
            | cons first tokens =>
                simp only [readConditions, hdrop] at h
                exact absurd h not_yields_error

theorem yields_of_conditions {conditions : List Condition} (h : Conditions tokens conditions rest)
    (hfuel : tokens.length < fuel) :
    Yields (readConditions none fuel ⟨tokens, n⟩) conditions rest := by
  induction h generalizing fuel n with
  | done rest hseps =>
      obtain ⟨fuel, rfl⟩ : ∃ k, fuel = k + 1 := ⟨fuel - 1, by omega⟩
      rw [readConditions_close (dropWhile_separators hseps rfl)]
      exact yields_ok.mpr ⟨rfl, rfl⟩
  | @more seps tokens more rest key p conditions hseps hquestion hconditions ih =>
      obtain ⟨fuel, rfl⟩ : ∃ k, fuel = k + 1 := ⟨fuel - 1, by omega⟩
      obtain ⟨m, hp⟩ := yields_of_question (n := n) hquestion (endsKey_of_conditions hconditions)
      have hshorter : more.length < tokens.length + 1 :=
        Yields.shorter ⟨m, hp⟩ (readPredicate_within none ⟨tokens, n⟩)
      simp only [List.length_append, List.length_cons] at hfuel
      have hfuel' : more.length < fuel := by omega
      obtain ⟨k, hread⟩ := ih (n := m) hfuel'
      rw [readConditions_key (dropWhile_separators hseps rfl)]
      refine yields_andThen.mpr ⟨p, more, m, hp, ?_⟩
      exact yields_andThen.mpr ⟨conditions, rest, k, hread, yields_ok.mpr ⟨rfl, rfl⟩⟩

theorem yields_filter {conditions : List Condition} :
    Yields (readFilter none ⟨tokens, n⟩) conditions rest ↔ Grammar.Filter tokens conditions rest := by
  constructor
  · intro h
    rcases tokens with _ | ⟨token, more⟩
    · obtain ⟨rfl, rfl⟩ := yields_ok.mp h
      exact .absent (by simp)
    · cases token with
      | openParen => exact .present (conditions_of_yields h)
      | _ =>
          obtain ⟨rfl, rfl⟩ := yields_ok.mp h
          exact .absent (by simp)
  · intro h
    cases h with
    | present h => exact yields_of_conditions h (Nat.lt_succ_self _)
    | absent h =>
        unfold readFilter
        split
        · next htokens =>
          simp only at htokens
          exact absurd (by rw [htokens]; rfl) h
        · exact yields_ok.mpr ⟨rfl, rfl⟩

end Filters

section Queries

theorem derivation_of_yields (fuel : Nat) :
    (∀ {tokens rest : List Token} {n : Nat} {q : Query},
      Yields (readQueryUpTo none fuel ⟨tokens, n⟩) q rest → Grammar.Query tokens q rest) ∧
    (∀ {tokens rest : List Token} {n : Nat} {links : List Query},
      Yields (readLinksUpTo none fuel ⟨tokens, n⟩) links rest → Links tokens links rest) := by
  induction fuel with
  | zero => exact ⟨fun h => absurd h not_yields_error, fun h => absurd h not_yields_error⟩
  | succ fuel ih =>
      obtain ⟨ihQuery, ihLinks⟩ := ih
      refine ⟨fun {tokens rest n q} h => ?_, fun {tokens rest n links} h => ?_⟩
      · rcases tokens with _ | ⟨token, more⟩
        · exact absurd h not_yields_error
        · cases token with
          | word model =>
              rw [readQueryUpTo_word] at h
              obtain ⟨filter, behind, m, hfilter, h⟩ := yields_andThen.mp h
              obtain ⟨links, after, k, hlinks, h⟩ := yields_andThen.mp h
              obtain ⟨rfl, rfl⟩ := yields_ok.mp h
              refine .mk (yields_filter.mp ⟨m, hfilter⟩) ?_
              rcases behind with _ | ⟨token, inner⟩
              · obtain ⟨rfl, rfl⟩ := yields_ok.mp ⟨k, hlinks⟩
                exact .absent (by simp)
              · cases token with
                | openBrace => exact .present (ihLinks ⟨k, hlinks⟩)
                | _ =>
                    obtain ⟨rfl, rfl⟩ := yields_ok.mp ⟨k, hlinks⟩
                    exact .absent (by simp)
          | _ => exact absurd h not_yields_error
      · rcases tokens with _ | ⟨token, more⟩
        · exact absurd h not_yields_error
        · cases token with
          | word text =>
              rw [readLinksUpTo_word] at h
              obtain ⟨link, behind, m, hlink, h⟩ := yields_andThen.mp h
              obtain ⟨links, after, k, hlinks, h⟩ := yields_andThen.mp h
              obtain ⟨rfl, rfl⟩ := yields_ok.mp h
              exact .link (ihQuery ⟨m, hlink⟩) (ihLinks ⟨k, hlinks⟩)
          | closeBrace =>
              simp only [readLinksUpTo] at h
              obtain ⟨rfl, rfl⟩ := yields_ok.mp h
              exact .done _
          | _ =>
              rw [readLinksUpTo_skip (by rintro _ ⟨⟩) (by rintro ⟨⟩)] at h
              exact .skip (by rintro _ ⟨⟩) (by rintro ⟨⟩) (ihLinks h)

theorem yields_of_derivation (fuel : Nat) :
    (∀ {tokens rest : List Token} {q : Query} (n : Nat), tokens.length < fuel →
      Grammar.Query tokens q rest → Yields (readQueryUpTo none fuel ⟨tokens, n⟩) q rest) ∧
    (∀ {tokens rest : List Token} {links : List Query} (n : Nat), tokens.length + 1 < fuel →
      Links tokens links rest → Yields (readLinksUpTo none fuel ⟨tokens, n⟩) links rest) := by
  induction fuel with
  | zero =>
      exact ⟨fun _ h => absurd h (Nat.not_lt_zero _), fun _ h => absurd h (Nat.not_lt_zero _)⟩
  | succ fuel ih =>
      obtain ⟨ihQuery, ihLinks⟩ := ih
      refine ⟨fun {tokens rest q} n hfuel h => ?_, fun {tokens rest links} n hfuel h => ?_⟩
      · cases h with
        | @mk tokens more _ model filter links hfilter hnested =>
            simp only [List.length_cons] at hfuel
            obtain ⟨m, hread⟩ := yields_filter (n := n).mpr hfilter
            have hshorter : more.length < tokens.length + 1 :=
              Yields.shorter ⟨m, hread⟩ (readFilter_within none ⟨tokens, n⟩)
            have hlinks : Yields (readNested none fuel ⟨more, m⟩) links rest := by
              cases hnested with
              | present hlinks =>
                  simp only [List.length_cons] at hshorter
                  exact ihLinks m (by omega) hlinks
              | absent habsent =>
                  unfold readNested
                  split
                  · next htokens =>
                    simp only at htokens
                    exact absurd (by rw [htokens]; rfl) habsent
                  · exact yields_ok.mpr ⟨rfl, rfl⟩
            obtain ⟨k, hlinks⟩ := hlinks
            rw [readQueryUpTo_word]
            refine yields_andThen.mpr ⟨filter, more, m, hread, ?_⟩
            exact yields_andThen.mpr ⟨links, rest, k, hlinks, yields_ok.mpr ⟨rfl, rfl⟩⟩
      · cases h with
        | done =>
            simp only [readLinksUpTo]
            exact yields_ok.mpr ⟨rfl, rfl⟩
        | @link _ more _ link links hlink hlinks =>
            obtain ⟨m, hread⟩ := ihQuery n (by omega) hlink
            have hshorter : more.length < tokens.length :=
              Yields.shorter ⟨m, hread⟩ ((readUpTo_within fuel).1 (by simp only; omega))
            obtain ⟨k, hreadLinks⟩ := ihLinks m (by omega) hlinks
            cases hlink with
            | mk =>
                rw [readLinksUpTo_word]
                refine yields_andThen.mpr ⟨_, more, m, hread, ?_⟩
                exact yields_andThen.mpr ⟨links, rest, k, hreadLinks, yields_ok.mpr ⟨rfl, rfl⟩⟩
        | skip hword hclose hlinks =>
            rw [readLinksUpTo_skip hword hclose]
            simp only [List.length_cons] at hfuel
            exact ihLinks n (by omega) hlinks

theorem yields_query {q : Query} :
    Yields (readQuery none ⟨tokens, n⟩) q rest ↔ Grammar.Query tokens q rest :=
  ⟨(derivation_of_yields _).1, (yields_of_derivation _).1 n (by simp only; omega)⟩

theorem readQuery_eq_ok_iff {q : Query} {s : QueryReader} :
    readQuery none ⟨tokens, n⟩ = (.ok q, s) ↔
      Grammar.Query tokens q s.tokens ∧ s.placeholders = n + q.gaps := by
  have hcounts : ∀ {s : QueryReader}, readQuery none ⟨tokens, n⟩ = (.ok q, s) →
      s.placeholders = n + q.gaps := (readQuery_follows [] ⟨tokens, n⟩).counts q _
  obtain ⟨rest, k⟩ := s
  constructor
  · exact fun h => ⟨yields_query.mp ⟨k, h⟩, hcounts h⟩
  · rintro ⟨hquery, hcount⟩
    obtain ⟨m, hread⟩ := yields_query (n := n).mpr hquery
    have hm : m = k := (hcounts hread).trans hcount.symm
    rw [hread, hm]

-- While placeholders are counted, a query is read just where the tokens start with a derivation. It
-- is the tree of that derivation, and the reader stands behind it. Where they are bound, each of
-- them needs a parameter as well, which takes its place in the tree. The fuel is never what ends a
-- reading: with more of it nothing else comes out.
theorem readQuery_recognises (tokens : List Token) (n : Nat) :
    (∀ q s, readQuery none ⟨tokens, n⟩ = (.ok q, s) ↔
      Grammar.Query tokens q s.tokens ∧ s.placeholders = n + q.gaps) ∧
    (∀ values q s, readQuery (some values) ⟨tokens, n⟩ = (.ok q, s) ↔
      ∃ tree, Grammar.Query tokens tree s.tokens ∧
        (∀ i, n ≤ i → i < n + tree.gaps → i < values.length) ∧
        q = tree.fill values n ∧ s.placeholders = n + tree.gaps) ∧
    (∀ params fuel, 2 * tokens.length + 2 ≤ fuel →
      readQueryUpTo params fuel ⟨tokens, n⟩ = readQuery params ⟨tokens, n⟩) ∧
    (∀ params fuel, tokens.length + 1 ≤ fuel →
      readConditions params fuel ⟨tokens, n⟩ =
        readConditions params (tokens.length + 1) ⟨tokens, n⟩) := by
  refine ⟨fun q s => readQuery_eq_ok_iff, fun values q s => ?_, fun params fuel hfuel => ?_,
    fun params fuel hfuel => readConditions_fuel (Nat.lt_succ_self _) hfuel⟩
  · rw [(readQuery_follows values ⟨tokens, n⟩).ok_iff]
    constructor
    · rintro ⟨tree, hread, hsupplied, rfl⟩
      obtain ⟨hquery, hcount⟩ := readQuery_eq_ok_iff.mp hread
      exact ⟨tree, hquery, hcount ▸ hsupplied, rfl, hcount⟩
    · rintro ⟨tree, hquery, hsupplied, rfl, hcount⟩
      exact ⟨tree, readQuery_eq_ok_iff.mpr ⟨hquery, hcount⟩, hcount ▸ hsupplied, rfl⟩
  · exact (readUpTo_fuel _).1 (by simp only; omega) hfuel

end Queries

end DocStore.QueryReader
