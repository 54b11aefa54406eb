import DocStore.Proofs.Query.Steps

-- Parameters take the places of the placeholders, and nothing else of a query depends on them.
namespace DocStore

-- While placeholders are only counted, a null stands for each of them. Such a gap is filled with
-- the parameter of its number, where `n` is the number of gaps in front.
namespace Value

def gaps (v : Value) : Nat := if v.isNull then 1 else 0

def fill (values : List Value) (n : Nat) (v : Value) : Value :=
  if v.isNull then values[n]?.getD .null else v

end Value

namespace Predicate

def gaps : Predicate → Nat
  | .present => 0
  | .equal v => v.gaps
  | .less v => v.gaps
  | .greater v => v.gaps
  | .start v none => v.gaps
  | .start v (some skip) => v.gaps + skip.gaps

def fill (values : List Value) (n : Nat) : Predicate → Predicate
  | .present => .present
  | .equal v => .equal (v.fill values n)
  | .less v => .less (v.fill values n)
  | .greater v => .greater (v.fill values n)
  | .start v none => .start (v.fill values n) none
  | .start v (some skip) => .start (v.fill values n) (some (skip.fill values (n + v.gaps)))

end Predicate

namespace Query

def filterGaps : List Condition → Nat
  | [] => 0
  | c :: rest => c.predicate.gaps + filterGaps rest

def fillFilter (values : List Value) (n : Nat) : List Condition → List Condition
  | [] => []
  | c :: rest => ⟨c.key, c.predicate.fill values n⟩ :: fillFilter values (n + c.predicate.gaps) rest

mutual

def gaps : Query → Nat
  | ⟨_, filter, links⟩ => filterGaps filter + linkGaps links

def linkGaps : List Query → Nat
  | [] => 0
  | link :: rest => gaps link + linkGaps rest

end

mutual

-- Gaps are numbered in the order of the text: conditions first, then one link after the other.
def fill (values : List Value) (n : Nat) : Query → Query
  | ⟨model, filter, links⟩ =>
    ⟨model, fillFilter values n filter, fillLinks values (n + filterGaps filter) links⟩

def fillLinks (values : List Value) (n : Nat) : List Query → List Query
  | [] => []
  | link :: rest => fill values n link :: fillLinks values (n + gaps link) rest

end

end Query

namespace QueryReader

variable {α β : Type} {values : List Value} {n m : Nat} {fuel : Nat}

-- There is a parameter for each placeholder from the first number up to, and without, the second.
def Supplied (values : List Value) (n m : Nat) : Prop := ∀ i, n ≤ i → i < m → i < values.length

theorem supplied_zero_iff : Supplied values 0 m ↔ m ≤ values.length := by
  constructor
  · intro h
    refine Nat.not_lt.mp fun hlt => ?_
    exact absurd (h values.length (Nat.zero_le _) hlt) (Nat.lt_irrefl _)
  · exact fun h i _ hi => Nat.lt_of_lt_of_le hi h

theorem supplied_self : Supplied values n n :=
  fun _ hle hlt => absurd hlt (Nat.not_lt.mpr hle)

theorem Supplied.append {k : Nat} (h : Supplied values n k) (h' : Supplied values k m) :
    Supplied values n m := by
  intro i hn hm
  by_cases hk : i < k
  · exact h i hn hk
  · exact h' i (by omega) hm

-- Beside a run that counts placeholders from `n` on, a run that binds them: it comes to the same
-- end with its gaps filled, or it lacks a parameter. `total` is the number of placeholders met.
structure Follows (values : List Value) (n : Nat) (total : α → Nat) (fill : α → α)
    (counted bound : Step α) : Prop where
  le : n ≤ counted.2.placeholders
  counts : ∀ a s, counted = (.ok a, s) → s.placeholders = total a
  binds : Supplied values n counted.2.placeholders → bound = (counted.1.map fill, counted.2)
  lacks : ¬Supplied values n counted.2.placeholders →
    ∃ k s, bound = (.error (.notEnoughParameters k values.length), s)

namespace Follows

variable {total : α → Nat} {fill : α → α} {counted bound : Step α}

-- What takes up no placeholder is the same in both runs.
theorem of_ok {a b : α} {s : QueryReader} (hn : s.placeholders = n) (htotal : n = total a)
    (hfill : b = fill a) : Follows values n total fill (.ok a, s) (.ok b, s) := by
  subst hfill hn
  refine ⟨Nat.le_refl _, ?_, fun _ => rfl, fun h => absurd supplied_self h⟩
  rintro _ _ ⟨⟩
  exact htotal

theorem of_error {e : ParseError} {s : QueryReader} (hn : s.placeholders = n) :
    Follows values n total fill (.error e, s) (.error e, s) := by
  subst hn
  exact ⟨Nat.le_refl _, by rintro _ _ ⟨⟩, fun _ => rfl, fun h => absurd supplied_self h⟩

theorem andThen (h : Follows values n total fill counted bound) {total' : β → Nat}
    {fill' : β → β} {next next' : α → QueryReader → Step β}
    (hnext : ∀ a s, counted = (.ok a, s) →
      Follows values s.placeholders total' fill' (next a s) (next' (fill a) s)) :
    Follows values n total' fill' (andThen counted next) (QueryReader.andThen bound next') := by
  obtain ⟨_ | a, s⟩ := counted
  · refine ⟨h.le, by rintro _ _ ⟨⟩, fun hs => ?_, fun hs => ?_⟩
    · rw [h.binds hs]
      rfl
    · obtain ⟨k, t, ht⟩ := h.lacks hs
      exact ⟨k, t, by rw [ht]; rfl⟩
  · have hnext := hnext a s rfl
    have hle : n ≤ s.placeholders := h.le
    simp only [QueryReader.andThen]
    refine ⟨Nat.le_trans hle hnext.le, hnext.counts, fun hs => ?_, fun hs => ?_⟩
    · have hfirst : Supplied values n s.placeholders :=
        fun i hi hlt => hs i hi (Nat.lt_of_lt_of_le hlt hnext.le)
      rw [h.binds hfirst]
      exact hnext.binds fun i hi hlt => hs i (Nat.le_trans hle hi) hlt
    · by_cases hfirst : Supplied values n s.placeholders
      · rw [h.binds hfirst]
        exact hnext.lacks fun hrest => hs (hfirst.append hrest)
      · obtain ⟨k, t, ht⟩ := h.lacks hfirst
        exact ⟨k, t, by rw [ht]⟩

-- A run that binds succeeds just where the other one does and no parameter lacks.
theorem ok_iff (h : Follows values n total fill counted bound) {a : α} {s : QueryReader} :
    bound = (.ok a, s) ↔
      ∃ b, counted = (.ok b, s) ∧ Supplied values n s.placeholders ∧ a = fill b := by
  obtain ⟨outcome, t⟩ := counted
  by_cases hs : Supplied values n t.placeholders
  · rw [h.binds hs]
    cases outcome with
    | error e => simp [Except.map]
    | ok b =>
        simp only [Except.map, Prod.mk.injEq, Except.ok.injEq]
        constructor
        · rintro ⟨rfl, rfl⟩
          exact ⟨b, ⟨rfl, rfl⟩, hs, rfl⟩
        · rintro ⟨_, ⟨rfl, rfl⟩, -, rfl⟩
          exact ⟨rfl, rfl⟩
  · obtain ⟨k, u, hu⟩ := h.lacks hs
    rw [hu]
    constructor
    · rintro ⟨⟩
    · rintro ⟨b, hb, hsupplied, -⟩
      obtain ⟨-, rfl⟩ := Prod.mk.inj hb
      exact absurd hsupplied hs

end Follows

theorem Literal.isNull_value (text : String) : (Literal.value text).isNull = false := by
  unfold Literal.value
  split
  · rfl
  · split
    · rfl
    · split <;> rfl

theorem readValue_follows (values : List Value) (r : QueryReader) :
    Follows values r.placeholders (fun v => r.placeholders + v.gaps)
      (Value.fill values r.placeholders) (readValue none r) (readValue (some values) r) := by
  obtain ⟨tokens, n⟩ := r
  have hword : ∀ {v : Value}, v.isNull = false → n + v.gaps = n ∧ v.fill values n = v :=
    fun h => by simp [Value.gaps, Value.fill, h]
  rcases tokens with _ | ⟨token, rest⟩
  · exact .of_error rfl
  · cases token with
    | placeholder =>
        have hsupplied : Supplied values n (n + 1) ↔ n < values.length :=
          ⟨fun h => h n (Nat.le_refl _) (Nat.lt_succ_self _), fun h i hi hlt => by omega⟩
        refine ⟨Nat.le_succ n, ?_, fun h => ?_, fun h => ?_⟩
        · rintro _ _ ⟨⟩
          rfl
        · have hfound := List.getElem?_eq_getElem (hsupplied.mp h)
          simp [readValue, hfound, Except.map, Value.fill, Value.isNull]
        · have hmissing := List.getElem?_eq_none_iff.mpr (Nat.not_lt.mp fun h' => h (hsupplied.mpr h'))
          exact ⟨n + 1, ⟨.placeholder :: rest, n + 1⟩, by simp only [readValue, hmissing]⟩
    | word text =>
        obtain ⟨hgaps, hfill⟩ := hword (Literal.isNull_value text)
        exact .of_ok rfl hgaps.symm hfill.symm
    | quoted text => exact .of_ok rfl rfl rfl
    | _ => exact .of_error rfl

theorem readSkip_follows (values : List Value) (op : Operator) (value : Value) {n : Nat}
    {r : QueryReader} (hr : r.placeholders = n + value.gaps) :
    Follows values r.placeholders (fun p => n + p.gaps) (Predicate.fill values n)
      (readSkip none op value r) (readSkip (some values) op (value.fill values n) r) := by
  obtain ⟨tokens, m⟩ := r
  have hplain : Follows values m (fun p => n + p.gaps) (Predicate.fill values n)
      (.ok (op.predicate value), ⟨tokens, m⟩)
      (.ok (op.predicate (value.fill values n)), ⟨tokens, m⟩) := by
    cases op <;> exact .of_ok rfl hr rfl
  rcases tokens with _ | ⟨token, rest⟩
  · exact hplain
  · cases token with
    | dollar =>
        simp only [readSkip]
        split
        · refine (readValue_follows values ⟨rest, m⟩).andThen fun skip s hs => ?_
          have hcount := (readValue_follows values ⟨rest, m⟩).counts _ _ hs
          simp only at hr hcount
          refine .of_ok rfl ?_ ?_
          · simp only [hcount, Predicate.gaps]
            omega
          · simp only [Predicate.fill, hr]
        · exact .of_error rfl
    | _ => exact hplain

theorem readPredicate_follows (values : List Value) (r : QueryReader) :
    Follows values r.placeholders (fun p => r.placeholders + p.gaps)
      (Predicate.fill values r.placeholders) (readPredicate none r)
      (readPredicate (some values) r) := by
  cases hends : endsKey r.tokens with
  | true =>
      rw [readPredicate_of_endsKey hends, readPredicate_of_endsKey hends]
      exact .of_ok rfl rfl rfl
  | false =>
      cases hop : r.tokens.head?.bind operator? with
      | none =>
          simp only [readPredicate, hends, hop, Bool.false_eq_true, if_false]
          exact .of_error rfl
      | some op =>
          rw [readPredicate_of_operator hends hop, readPredicate_of_operator hends hop]
          have hvalue := readValue_follows values ⟨r.tokens.drop 1, r.placeholders⟩
          exact hvalue.andThen fun value s hs =>
            readSkip_follows values op value (hvalue.counts _ _ hs)

theorem readConditions_follows (values : List Value) (fuel : Nat) (r : QueryReader) :
    Follows values r.placeholders (fun cs => r.placeholders + Query.filterGaps cs)
      (Query.fillFilter values r.placeholders) (readConditions none fuel r)
      (readConditions (some values) fuel r) := by
  induction fuel generalizing r with
  | zero => exact .of_error rfl
  | succ fuel ih =>
      obtain ⟨tokens, n⟩ := r
      rcases hdrop : tokens.dropWhile Token.isSeparator with _ | ⟨token, rest⟩
      · cases tokens with
        | nil => exact .of_error rfl
        | cons token tokens =>
            simp only [readConditions, hdrop]
            exact .of_error rfl
      · have hne : tokens ≠ [] := by
          rintro rfl
          cases hdrop
        obtain ⟨first, others, rfl⟩ := List.exists_cons_of_ne_nil hne
        cases token with
        | word key =>
            rw [readConditions_key hdrop, readConditions_key hdrop]
            have hpredicate := readPredicate_follows values ⟨rest, n⟩
            refine hpredicate.andThen fun predicate s hs => (ih s).andThen fun conditions t ht => ?_
            have hs := hpredicate.counts _ _ hs
            have ht := (ih s).counts _ _ ht
            simp only at hs
            refine .of_ok rfl ?_ ?_
            · simp only [ht, hs, Query.filterGaps]
              omega
            · simp only [Query.fillFilter, hs]
        | closeParen =>
            simp only [readConditions, hdrop]
            exact .of_ok rfl rfl rfl
        | _ =>
            simp only [readConditions, hdrop]
            exact .of_error rfl

theorem readFilter_follows (values : List Value) (r : QueryReader) :
    Follows values r.placeholders (fun cs => r.placeholders + Query.filterGaps cs)
      (Query.fillFilter values r.placeholders) (readFilter none r) (readFilter (some values) r) := by
  obtain ⟨tokens, n⟩ := r
  rcases tokens with _ | ⟨token, rest⟩
  · exact .of_ok rfl rfl rfl
  · cases token with
    | openParen => exact readConditions_follows values (rest.length + 1) ⟨rest, n⟩
    | _ => exact .of_ok rfl rfl rfl

theorem readUpTo_follows (values : List Value) (fuel : Nat) :
    (∀ r, Follows values r.placeholders (fun q => r.placeholders + Query.gaps q)
      (Query.fill values r.placeholders) (readQueryUpTo none fuel r)
      (readQueryUpTo (some values) fuel r)) ∧
    (∀ r, Follows values r.placeholders (fun links => r.placeholders + Query.linkGaps links)
      (Query.fillLinks values r.placeholders) (readLinksUpTo none fuel r)
      (readLinksUpTo (some values) fuel r)) := by
  induction fuel with
  | zero => exact ⟨fun _ => .of_error rfl, fun _ => .of_error rfl⟩
  | succ fuel ih =>
      obtain ⟨ihQuery, ihLinks⟩ := ih
      refine ⟨fun r => ?_, fun r => ?_⟩
      · obtain ⟨tokens, n⟩ := r
        rcases tokens with _ | ⟨token, rest⟩
        · exact .of_error rfl
        · cases token with
          | word model =>
              rw [readQueryUpTo_word, readQueryUpTo_word]
              have hfilter := readFilter_follows values ⟨rest, n⟩
              have hnested : ∀ s, Follows values s.placeholders
                  (fun links => s.placeholders + Query.linkGaps links)
                  (Query.fillLinks values s.placeholders) (readNested none fuel s)
                  (readNested (some values) fuel s) := by
                intro s
                obtain ⟨tokens, m⟩ := s
                rcases tokens with _ | ⟨token, inner⟩
                · exact .of_ok rfl rfl rfl
                · cases token with
                  | openBrace => exact ihLinks ⟨inner, m⟩
                  | _ => exact .of_ok rfl rfl rfl
              refine hfilter.andThen fun filter s hs => (hnested s).andThen fun links t ht => ?_
              have hs := hfilter.counts _ _ hs
              have ht := (hnested s).counts _ _ ht
              simp only at hs
              refine .of_ok rfl ?_ ?_
              · simp only [ht, hs, Query.gaps]
                omega
              · simp only [Query.fill, hs]
          | _ => exact .of_error rfl
      · obtain ⟨tokens, n⟩ := r
        rcases tokens with _ | ⟨token, rest⟩
        · exact .of_error rfl
        · cases token with
          | word text =>
              rw [readLinksUpTo_word, readLinksUpTo_word]
              refine (ihQuery _).andThen fun link s hs => (ihLinks s).andThen fun links t ht => ?_
              have hs := (ihQuery _).counts _ _ hs
              have ht := (ihLinks s).counts _ _ ht
              simp only at hs
              refine .of_ok rfl ?_ ?_
              · simp only [ht, hs, Query.linkGaps]
                omega
              · simp only [Query.fillLinks, hs]
          | closeBrace =>
              simp only [readLinksUpTo]
              exact .of_ok rfl rfl rfl
          | _ =>
              rw [readLinksUpTo_skip (by rintro _ ⟨⟩) (by rintro ⟨⟩),
                readLinksUpTo_skip (by rintro _ ⟨⟩) (by rintro ⟨⟩)]
              exact ihLinks ⟨rest, n⟩

theorem readQuery_follows (values : List Value) (r : QueryReader) :
    Follows values r.placeholders (fun q => r.placeholders + q.gaps)
      (Query.fill values r.placeholders) (readQuery none r) (readQuery (some values) r) :=
  (readUpTo_follows values _).1 r

end QueryReader

namespace Query

variable {text : String} {q : Query} {r : QueryReader}

-- A text whose query was read while its placeholders were counted.
theorem parse_of_counted (h : (QueryReader.ofText text).readQuery none = (.ok q, r))
    (params : List Value) : r.placeholders = q.gaps ∧ parse text params =
      if q.gaps ≤ params.length then .ok (q.fill params 0)
      else .error (.notEnoughParameters q.gaps params.length) := by
  have hfollows := QueryReader.readQuery_follows params (QueryReader.ofText text)
  have hcount : r.placeholders = q.gaps := by
    have := hfollows.counts q r h
    simpa [QueryReader.ofText] using this
  refine ⟨hcount, ?_⟩
  rw [h] at hfollows
  simp only [parse, h]
  by_cases hlack : params.length < r.placeholders
  · rw [if_pos hlack, if_neg (by omega), hcount]
  · have hbinds := hfollows.binds (QueryReader.supplied_zero_iff.mpr (Nat.not_lt.mp hlack))
    rw [if_neg hlack, if_pos (by omega), hbinds]
    rfl

-- A text with enough parameters for its placeholders is parsed as the query that is read while they
-- are counted, with each parameter in the place of its placeholder. Otherwise the failure tells how
-- many were needed, or it is the one that counting came to.
theorem parse_eq_fill (text : String) (params : List Value) :
    match (QueryReader.ofText text).readQuery none with
    | (.error e, _) => parse text params = .error e
    | (.ok q, r) =>
      r.placeholders = q.gaps ∧
        parse text params =
          if q.gaps ≤ params.length then .ok (q.fill params 0)
          else .error (.notEnoughParameters q.gaps params.length) := by
  rcases hcounted : (QueryReader.ofText text).readQuery none with ⟨e | q, r⟩
  · simp only [parse, hcounted]
  · exact parse_of_counted hcounted params

end Query

end DocStore
