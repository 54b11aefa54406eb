import DocStore.Query.Parse

-- The reader of queries as steps one after the other, what a step leaves of the tokens, and why its
-- fuel does not count.
namespace DocStore.QueryReader

variable {α β : Type} {params : Option (List Value)} {fuel n bound : Nat} {r : QueryReader}

-- One step after another. A failure ends the reading where it stands.
def andThen (first : Step α) (next : α → QueryReader → Step β) : Step β :=
  match first with
  | (.error e, r) => (.error e, r)
  | (.ok a, r) => next a r

section Equations

-- Reads the skip that may follow the operand of a condition.
def readSkip (params : Option (List Value)) (op : Operator) (value : Value) (r : QueryReader) :
    Step Predicate :=
  match r.tokens with
  | .dollar :: rest =>
    if op = .start then
      andThen (readValue params { r with tokens := rest }) fun skip r =>
        (.ok (.start value (some skip)), r)
    else (.error .misplacedSkip, r)
  | _ => (.ok (op.predicate value), r)

-- Reads the links that may follow the filter of a query.
def readNested (params : Option (List Value)) (fuel : Nat) (r : QueryReader) : Step (List Query) :=
  match r.tokens with
  | .openBrace :: rest => readLinksUpTo params fuel { r with tokens := rest }
  | _ => (.ok [], r)

theorem readPredicate_of_endsKey (h : endsKey r.tokens = true) :
    readPredicate params r = (.ok .present, r) := by
  rw [readPredicate, if_pos h]

theorem readPredicate_of_operator {op : Operator} (h : endsKey r.tokens = false)
    (hop : r.tokens.head?.bind operator? = some op) :
    readPredicate params r =
      andThen (readValue params { r with tokens := r.tokens.drop 1 }) (readSkip params op) := by
  simp only [readPredicate, h, hop, Bool.false_eq_true, if_false]
  rcases readValue params ⟨r.tokens.drop 1, r.placeholders⟩ with ⟨_ | value, ⟨tokens, m⟩⟩
  · rfl
  · rcases tokens with _ | ⟨token, rest⟩
    · rfl
    · cases token with
      | dollar =>
          simp only [andThen, readSkip]
          split
          · rcases readValue params ⟨rest, m⟩ with ⟨_ | skip, t⟩ <;> rfl
          · rfl
      | _ => rfl

theorem readConditions_key {key : String} {rest : List Token}
    (h : r.tokens.dropWhile Token.isSeparator = .word key :: rest) :
    readConditions params (fuel + 1) r =
      andThen (readPredicate params { r with tokens := rest }) fun predicate r =>
        andThen (readConditions params fuel r) fun conditions r =>
          (.ok (⟨key, predicate⟩ :: conditions), r) := by
  obtain ⟨tokens, n⟩ := r
  cases tokens with
  | nil => cases h
  | cons token tokens =>
      simp only [readConditions, h]
      rcases readPredicate params ⟨rest, n⟩ with ⟨_ | predicate, s⟩
      · rfl
      · simp only [andThen]
        rcases readConditions params fuel s with ⟨_ | conditions, t⟩ <;> rfl

theorem readQueryUpTo_word {model : String} {rest : List Token} :
    readQueryUpTo params (fuel + 1) ⟨.word model :: rest, n⟩ =
      andThen (readFilter params ⟨rest, n⟩) fun filter r =>
        andThen (readNested params fuel r) fun links r => (.ok ⟨model, filter, links⟩, r) := by
  simp only [readQueryUpTo]
  rcases readFilter params ⟨rest, n⟩ with ⟨_ | filter, ⟨tokens, m⟩⟩
  · rfl
  · rcases tokens with _ | ⟨token, rest⟩
    · rfl
    · cases token with
      | openBrace =>
          simp only [andThen, readNested]
          rcases readLinksUpTo params fuel ⟨rest, m⟩ with ⟨_ | links, t⟩ <;> rfl
      | _ => rfl

theorem readLinksUpTo_word {text : String} {rest : List Token} :
    readLinksUpTo params (fuel + 1) ⟨.word text :: rest, n⟩ =
      andThen (readQueryUpTo params fuel ⟨.word text :: rest, n⟩) fun link r =>
        andThen (readLinksUpTo params fuel r) fun links r => (.ok (link :: links), r) := by
  simp only [readLinksUpTo]
  rcases readQueryUpTo params fuel ⟨.word text :: rest, n⟩ with ⟨_ | link, s⟩
  · rfl
  · simp only [andThen]
    rcases readLinksUpTo params fuel s with ⟨_ | links, t⟩ <;> rfl

theorem readLinksUpTo_skip {token : Token} {rest : List Token} (hword : ∀ text, token ≠ .word text)
    (hclose : token ≠ .closeBrace) :
    readLinksUpTo params (fuel + 1) ⟨token :: rest, n⟩ = readLinksUpTo params fuel ⟨rest, n⟩ := by
  cases token with
  | word text => exact absurd rfl (hword text)
  | closeBrace => exact absurd rfl hclose
  | _ => simp only [readLinksUpTo]

end Equations

section Progress

-- A step that succeeds leaves fewer tokens than `bound`. One that misses the end of a filter or of
-- links has none left.
def Within (bound : Nat) (step : Step α) : Prop :=
  match step with
  | (.ok _, r) => r.tokens.length < bound
  | (.error e, r) => e = .unclosedFilter ∨ e = .unclosedLinks → r.tokens = []

theorem Within.mono {more : Nat} {step : Step α} (h : Within bound step) (hle : bound ≤ more) :
    Within more step := by
  obtain ⟨_ | a, s⟩ := step
  · exact h
  · exact Nat.lt_of_lt_of_le h hle

theorem Within.andThen {m : Nat} {first : Step α} {next : α → QueryReader → Step β}
    (h : Within m first)
    (hnext : ∀ a s, first = (.ok a, s) → s.tokens.length < m → Within bound (next a s)) :
    Within bound (andThen first next) := by
  obtain ⟨_ | a, s⟩ := first
  · exact h
  · exact hnext a s rfl h

theorem andThen_congr {first : Step α} {next other : α → QueryReader → Step β}
    (h : ∀ a s, first = (.ok a, s) → next a s = other a s) :
    andThen first next = andThen first other := by
  obtain ⟨_ | a, s⟩ := first
  · rfl
  · exact h a s rfl

theorem readValue_within (params : Option (List Value)) (r : QueryReader) :
    Within r.tokens.length (readValue params r) := by
  obtain ⟨tokens, n⟩ := r
  unfold readValue
  split
  · next rest htokens =>
    subst htokens
    split
    · exact Nat.lt_succ_self _
    · split
      · exact Nat.lt_succ_self _
      · simp [Within]
  · next htokens =>
    subst htokens
    exact Nat.lt_succ_self _
  · next htokens =>
    subst htokens
    exact Nat.lt_succ_self _
  · simp [Within]

theorem readSkip_within (op : Operator) (value : Value) (r : QueryReader) :
    Within (r.tokens.length + 1) (readSkip params op value r) := by
  obtain ⟨tokens, n⟩ := r
  unfold readSkip
  split
  · next rest htokens =>
    subst htokens
    split
    · refine (readValue_within params ⟨rest, n⟩).andThen fun skip s _ hs => ?_
      simp only [Within, List.length_cons] at hs ⊢
      omega
    · simp [Within]
  · exact Nat.lt_succ_self _

theorem readPredicate_within (params : Option (List Value)) (r : QueryReader) :
    Within (r.tokens.length + 1) (readPredicate params r) := by
  cases hends : endsKey r.tokens with
  | true =>
      rw [readPredicate_of_endsKey hends]
      exact Nat.lt_succ_self _
  | false =>
      cases hop : r.tokens.head?.bind operator? with
      | none => simp [readPredicate, hends, hop, Within]
      | some op =>
          rw [readPredicate_of_operator hends hop]
          refine (readValue_within params _).andThen fun value s _ hs => ?_
          refine (readSkip_within op value s).mono ?_
          simp only [List.length_drop] at hs
          omega

-- Separators and a key stand between the start of a condition and what is asked.
theorem length_of_dropWhile {p : Token → Bool} {tokens rest : List Token} {token : Token}
    (h : tokens.dropWhile p = token :: rest) : rest.length < tokens.length := by
  have hle := (List.dropWhile_sublist p (l := tokens)).length_le
  rw [h, List.length_cons] at hle
  exact hle

theorem readConditions_within (h : r.tokens.length < fuel) :
    Within r.tokens.length (readConditions params fuel r) := by
  induction fuel generalizing r with
  | zero => exact absurd h (Nat.not_lt_zero _)
  | succ fuel ih =>
      obtain ⟨tokens, n⟩ := r
      rcases hdrop : tokens.dropWhile Token.isSeparator with _ | ⟨token, rest⟩
      · cases tokens <;> simp [readConditions, hdrop, Within]
      · have hlength := length_of_dropWhile hdrop
        cases token with
        | word key =>
            rw [readConditions_key hdrop]
            refine (readPredicate_within params _).andThen fun predicate s _ hs => ?_
            simp only at hs h
            refine (ih (by omega)).andThen fun conditions t _ ht => ?_
            simp only [Within]
            omega
        | closeParen => cases tokens <;> simp_all [readConditions, Within]
        | _ => cases tokens <;> simp_all [readConditions, Within]

theorem readFilter_within (params : Option (List Value)) (r : QueryReader) :
    Within (r.tokens.length + 1) (readFilter params r) := by
  obtain ⟨tokens, n⟩ := r
  unfold readFilter
  split
  · next rest htokens =>
    subst htokens
    refine (readConditions_within (Nat.lt_succ_self _)).mono ?_
    simp only [List.length_cons]
    omega
  · exact Nat.lt_succ_self _

-- Fuel for its tokens is enough for a query. Links need one more, for a query at their front.
theorem readUpTo_within (fuel : Nat) :
    (∀ {r : QueryReader}, r.tokens.length < fuel →
      Within r.tokens.length (readQueryUpTo params fuel r)) ∧
    (∀ {r : QueryReader}, r.tokens.length + 1 < fuel →
      Within r.tokens.length (readLinksUpTo params fuel r)) := by
  induction fuel with
  | zero => exact ⟨fun h => absurd h (Nat.not_lt_zero _), fun h => absurd h (Nat.not_lt_zero _)⟩
  | succ fuel ih =>
      obtain ⟨ihQuery, ihLinks⟩ := ih
      refine ⟨fun {r} h => ?_, fun {r} h => ?_⟩
      · obtain ⟨tokens, n⟩ := r
        rcases tokens with _ | ⟨token, rest⟩
        · simp [readQueryUpTo, Within]
        · cases token with
          | word model =>
              rw [readQueryUpTo_word]
              simp only [List.length_cons] at h ⊢
              refine (readFilter_within params ⟨rest, n⟩).andThen fun filter s _ hs => ?_
              have hnested : Within (s.tokens.length + 1) (readNested params fuel s) := by
                obtain ⟨tokens, m⟩ := s
                unfold readNested
                split
                · next more htokens =>
                  subst htokens
                  simp only [List.length_cons] at hs ⊢
                  exact (ihLinks (by simp only; omega)).mono (by simp only; omega)
                · exact Nat.lt_succ_self _
              refine hnested.andThen fun links t _ ht => ?_
              simp only [Within] at hs ht ⊢
              omega
          | _ => simp [readQueryUpTo, Within]
      · obtain ⟨tokens, n⟩ := r
        rcases tokens with _ | ⟨token, rest⟩
        · simp [readLinksUpTo, Within]
        · simp only [List.length_cons] at h ⊢
          cases token with
          | word text =>
              rw [readLinksUpTo_word]
              refine (ihQuery (by simp only [List.length_cons]; omega)).andThen fun link s _ hs => ?_
              simp only [List.length_cons] at hs
              refine (ihLinks (by omega)).andThen fun links t _ ht => ?_
              simp only [Within]
              omega
          | closeBrace => simp [readLinksUpTo, Within]
          | _ =>
              rw [readLinksUpTo_skip (by rintro _ ⟨⟩) (by rintro ⟨⟩)]
              exact (ihLinks (by simp only; omega)).mono (Nat.le_succ _)

end Progress

section Fuel

theorem readConditions_fuel {more : Nat} (h : r.tokens.length < fuel) (hmore : fuel ≤ more) :
    readConditions params more r = readConditions params fuel r := by
  induction fuel generalizing r more with
  | zero => exact absurd h (Nat.not_lt_zero _)
  | succ fuel ih =>
      obtain ⟨more, rfl⟩ : ∃ k, more = k + 1 := ⟨more - 1, by omega⟩
      obtain ⟨tokens, n⟩ := r
      rcases hdrop : tokens.dropWhile Token.isSeparator with _ | ⟨token, rest⟩
      · cases tokens <;> simp [readConditions, hdrop]
      · have hlength := length_of_dropWhile hdrop
        cases token with
        | word key =>
            rw [readConditions_key hdrop, readConditions_key hdrop]
            refine andThen_congr fun predicate s hread => ?_
            have hs : s.tokens.length < rest.length + 1 := by
              have := readPredicate_within params ⟨rest, n⟩
              rwa [hread] at this
            simp only at h
            rw [ih (by omega) (by omega)]
        | _ => cases tokens <;> simp_all [readConditions]

theorem readUpTo_fuel (fuel : Nat) :
    (∀ {r : QueryReader} {more : Nat}, r.tokens.length < fuel → fuel ≤ more →
      readQueryUpTo params more r = readQueryUpTo params fuel r) ∧
    (∀ {r : QueryReader} {more : Nat}, r.tokens.length + 1 < fuel → fuel ≤ more →
      readLinksUpTo params more r = readLinksUpTo params fuel r) := by
  induction fuel with
  | zero => exact ⟨fun h => absurd h (Nat.not_lt_zero _), fun h => absurd h (Nat.not_lt_zero _)⟩
  | succ fuel ih =>
      obtain ⟨ihQuery, ihLinks⟩ := ih
      refine ⟨fun {r more} h hmore => ?_, fun {r more} h hmore => ?_⟩
      · obtain ⟨more, rfl⟩ : ∃ k, more = k + 1 := ⟨more - 1, by omega⟩
        obtain ⟨tokens, n⟩ := r
        rcases tokens with _ | ⟨token, rest⟩
        · simp [readQueryUpTo]
        · cases token with
          | word model =>
              rw [readQueryUpTo_word, readQueryUpTo_word]
              refine andThen_congr fun filter s hread => ?_
              have hs : s.tokens.length < rest.length + 1 := by
                have := readFilter_within params ⟨rest, n⟩
                rwa [hread] at this
              have hnested : readNested params more s = readNested params fuel s := by
                obtain ⟨tokens, m⟩ := s
                unfold readNested
                split
                · next inner htokens =>
                  subst htokens
                  simp only [List.length_cons] at h hs
                  exact ihLinks (by simp only; omega) (by omega)
                · rfl
              rw [hnested]
          | _ => simp [readQueryUpTo]
      · obtain ⟨more, rfl⟩ : ∃ k, more = k + 1 := ⟨more - 1, by omega⟩
        obtain ⟨tokens, n⟩ := r
        rcases tokens with _ | ⟨token, rest⟩
        · simp [readLinksUpTo]
        · simp only [List.length_cons] at h
          cases token with
          | word text =>
              rw [readLinksUpTo_word, readLinksUpTo_word,
                ihQuery (by simp only [List.length_cons]; omega) (by omega)]
              refine andThen_congr fun link s hread => ?_
              have hs : s.tokens.length < rest.length + 1 := by
                have hwithin : Within (rest.length + 1)
                    (readQueryUpTo params fuel ⟨.word text :: rest, n⟩) :=
                  (readUpTo_within fuel).1 (by simp only [List.length_cons]; omega)
                rwa [hread] at hwithin
              rw [ihLinks (by omega) (by omega)]
          | closeBrace => simp [readLinksUpTo]
          | _ =>
              rw [readLinksUpTo_skip (by rintro _ ⟨⟩) (by rintro ⟨⟩),
                readLinksUpTo_skip (by rintro _ ⟨⟩) (by rintro ⟨⟩)]
              exact ihLinks (by simp only; omega) (by omega)

end Fuel

end DocStore.QueryReader
