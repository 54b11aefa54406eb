import DocStore.Query.Parse
import DocStore.Proofs.Query.Render

-- The reader finds in the tokens of a query the query itself.
namespace DocStore

namespace QueryReader

variable {params : Option (List Value)} {rest : List Token} {n : Nat}

theorem readValue_token {v : Value} (hv : Literal.Readable v) :
    readValue params ⟨Literal.token v :: rest, n⟩ = (.ok v, ⟨rest, n⟩) := by
  by_cases htext : ∃ s, v = .string s
  · obtain ⟨s, rfl⟩ := htext
    rfl
  · have hother : ∀ s, v ≠ .string s := fun s heq => htext ⟨s, heq⟩
    simp only [readValue, Literal.token_eq_word hother, (Literal.spelled_render hv hother).2]

-- The end of a key does not go on with a skip.
theorem endsKey_ne_dollar (h : endsKey rest = true) (tail : List Token) :
    rest ≠ .dollar :: tail := by
  rintro rfl
  cases h

theorem readPredicate_operation {token : Token} (op : Operator) (hop : operator? token = some op)
    {v : Value} (hv : Literal.Readable v) (hrest : endsKey rest = true) :
    readPredicate params ⟨token :: Literal.token v :: rest, n⟩ =
      (.ok (op.predicate v), ⟨rest, n⟩) := by
  have hends : ∀ tail, endsKey (token :: tail) = false := fun tail => by
    cases token <;> first | rfl | cases hop
  have hhead : (token :: Literal.token v :: rest).head?.bind operator? = some op := hop
  simp only [readPredicate, hends, Bool.false_eq_true, if_false, hhead, List.drop_succ_cons,
    List.drop_zero, readValue_token hv]
  split
  · exact absurd rfl (endsKey_ne_dollar hrest _)
  · rfl

theorem readPredicate_skip {v skip : Value} (hv : Literal.Readable v)
    (hskip : Literal.Readable skip) :
    readPredicate params ⟨.caret :: Literal.token v :: .dollar :: Literal.token skip :: rest, n⟩ =
      (.ok (.start v (some skip)), ⟨rest, n⟩) := by
  have hends : ∀ tail, endsKey (.caret :: tail) = false := fun tail => rfl
  simp only [readPredicate, hends, Bool.false_eq_true, if_false, List.head?_cons,
    Option.bind_some, operator?, List.drop_succ_cons, List.drop_zero, readValue_token hv,
    readValue_token hskip, if_true]

theorem readPredicate_tokens {p : Predicate} (hp : ∀ v ∈ p.operands, Literal.Readable v)
    (hrest : endsKey rest = true) :
    readPredicate params ⟨p.tokens ++ rest, n⟩ = (.ok p, ⟨rest, n⟩) := by
  cases p with
  | present => simp [readPredicate, Predicate.tokens, hrest]
  | equal v => exact readPredicate_operation .equal rfl (hp v List.mem_cons_self) hrest
  | less v => exact readPredicate_operation .less rfl (hp v List.mem_cons_self) hrest
  | greater v => exact readPredicate_operation .greater rfl (hp v List.mem_cons_self) hrest
  | start v skip =>
      have hv := hp v List.mem_cons_self
      cases skip with
      | none => exact readPredicate_operation .start rfl hv hrest
      | some skip =>
          exact readPredicate_skip hv (hp skip (List.mem_cons_of_mem _ List.mem_cons_self))

-- A key ends in front of the next condition and at the end of the filter.
theorem endsKey_conditions (conditions : List Condition) :
    endsKey (conditions.flatMap Condition.tokens ++ .closeParen :: rest) = true := by
  cases conditions <;> rfl

theorem readConditions_tokens {conditions : List Condition}
    (h : ∀ c ∈ conditions, ∀ v ∈ c.predicate.operands, Literal.Readable v) {fuel : Nat}
    (hfuel : conditions.length < fuel) :
    readConditions params fuel
        ⟨conditions.flatMap Condition.tokens ++ .closeParen :: rest, n⟩ =
      (.ok conditions, ⟨rest, n⟩) := by
  induction conditions generalizing fuel with
  | nil =>
      obtain ⟨fuel, rfl⟩ := Nat.exists_eq_succ_of_ne_zero (Nat.ne_of_gt hfuel)
      rfl
  | cons c conditions ih =>
      obtain ⟨fuel, rfl⟩ := Nat.exists_eq_succ_of_ne_zero (Nat.ne_of_gt (Nat.zero_lt_of_lt hfuel))
      have hpredicate : ∀ tail, endsKey tail = true →
          readPredicate params ⟨c.predicate.tokens ++ tail, n⟩ = (.ok c.predicate, ⟨tail, n⟩) :=
        fun tail => readPredicate_tokens (h c List.mem_cons_self)
      have ih := ih (fun c hc => h c (List.mem_cons_of_mem _ hc)) (Nat.lt_of_succ_lt_succ hfuel)
      have hword : Token.isSeparator (.word c.key) = false := rfl
      simp only [List.flatMap_cons, Condition.tokens, List.cons_append, List.append_assoc,
        readConditions, List.dropWhile_cons, hword, Bool.false_eq_true, if_false,
        hpredicate _ (endsKey_conditions conditions), ih]

theorem length_conditions_le (conditions : List Condition) :
    conditions.length ≤ (conditions.flatMap Condition.tokens).length := by
  induction conditions with
  | nil => exact Nat.le_refl _
  | cons c conditions ih =>
      simp only [List.flatMap_cons, Condition.tokens, List.length_append, List.length_cons]
      omega

theorem readFilter_tokens {filter : List Condition}
    (h : ∀ c ∈ filter, ∀ v ∈ c.predicate.operands, Literal.Readable v)
    (hrest : ∀ tail, rest ≠ .openParen :: tail) :
    readFilter params ⟨Query.filterTokens filter ++ rest, n⟩ = (.ok filter, ⟨rest, n⟩) := by
  cases filter with
  | nil => simp only [Query.filterTokens, List.nil_append, readFilter]
  | cons c filter =>
      have hlength := length_conditions_le (c :: filter)
      simp only [Query.filterTokens, readFilter, List.cons_append, List.append_assoc,
        List.nil_append]
      refine readConditions_tokens h ?_
      rw [List.length_append]
      exact Nat.lt_succ_of_le (Nat.le_trans hlength (Nat.le_add_right _ _))

-- What can follow a query: nothing that would be taken for its filter or its links.
def Complete (rest : List Token) : Prop :=
  ∀ token ∈ rest.head?, token ≠ .openParen ∧ token ≠ .openBrace

-- With fuel for its tokens, a query is read from them.
def Reads (params : Option (List Value)) (q : Query) : Prop :=
  ∀ (fuel n : Nat) (rest : List Token), q.tokens.length ≤ fuel → Complete rest →
    readQueryUpTo params fuel ⟨q.tokens ++ rest, n⟩ = (.ok q, ⟨rest, n⟩)

theorem complete_each (links : List Query) :
    Complete (Query.eachTokens links ++ .closeBrace :: rest) := by
  intro token htoken
  cases links with
  | nil =>
      simp only [Query.eachTokens] at htoken
      obtain rfl := Option.some.inj htoken
      exact ⟨by decide, by decide⟩
  | cons link links =>
      obtain ⟨model, filter, rest⟩ := link
      simp only [Query.eachTokens, Query.tokens] at htoken
      obtain rfl := Option.some.inj htoken
      exact ⟨by rintro ⟨⟩, by rintro ⟨⟩⟩

theorem readLinksUpTo_tokens {links : List Query} (h : ∀ link ∈ links, Reads params link)
    {fuel : Nat} (hfuel : (Query.eachTokens links).length < fuel) :
    readLinksUpTo params fuel ⟨Query.eachTokens links ++ .closeBrace :: rest, n⟩ =
      (.ok links, ⟨rest, n⟩) := by
  induction links generalizing fuel with
  | nil =>
      obtain ⟨fuel, rfl⟩ := Nat.exists_eq_succ_of_ne_zero (Nat.ne_of_gt (Nat.zero_lt_of_lt hfuel))
      simp only [Query.eachTokens, List.nil_append, readLinksUpTo]
  | cons link links ih =>
      have hlink := h link List.mem_cons_self
      have ih := fun fuel => @ih (fun l hl => h l (List.mem_cons_of_mem _ hl)) fuel
      obtain ⟨fuel, rfl⟩ := Nat.exists_eq_succ_of_ne_zero (Nat.ne_of_gt (Nat.zero_lt_of_lt hfuel))
      obtain ⟨model, filter, further⟩ := link
      simp only [Query.eachTokens, List.length_append] at hfuel
      have hread := hlink fuel n (Query.eachTokens links ++ .closeBrace :: rest) (by omega)
        (complete_each links)
      have hpositive : 0 < (Query.tokens ⟨model, filter, further⟩).length := by
        simp [Query.tokens]
      have hrest := ih fuel (by omega)
      simp only [Query.eachTokens, Query.tokens, List.cons_append, List.append_assoc,
        readLinksUpTo] at hread ⊢
      simp only [hread, hrest]

theorem reads {q : Query} (h : q.Writable) : Reads params q := by
  induction h with
  | @intro model filter links _ hfilter _ ih =>
      intro fuel n rest hfuel hrest
      obtain ⟨fuel, rfl⟩ : ∃ k, fuel = k + 1 := by
        simp only [Query.tokens, List.length_cons] at hfuel
        exact ⟨fuel - 1, by omega⟩
      have hread : ∀ tail, (∀ t, tail ≠ .openParen :: t) →
          readFilter params ⟨Query.filterTokens filter ++ tail, n⟩ = (.ok filter, ⟨tail, n⟩) :=
        fun tail => readFilter_tokens fun c hc => (hfilter c hc).2
      cases links with
      | nil =>
          have hfilter := hread rest fun t heq => (hrest _ (heq ▸ rfl)).1 rfl
          simp only [Query.tokens, Query.linksTokens, List.append_nil, List.cons_append,
            readQueryUpTo, hfilter]
          split
          · exact absurd rfl (hrest _ rfl).2
          · rfl
      | cons link links =>
          have hfilter := hread (Query.linksTokens (link :: links) ++ rest) (by
            simp only [Query.linksTokens]
            rintro t ⟨⟩)
          have hlinks : readLinksUpTo params fuel
              ⟨Query.eachTokens (link :: links) ++ .closeBrace :: rest, n⟩ =
                (.ok (link :: links), ⟨rest, n⟩) := by
            refine readLinksUpTo_tokens ih ?_
            simp only [Query.tokens, Query.linksTokens, List.length_cons, List.length_append]
              at hfuel
            omega
          simp only [Query.tokens, Query.linksTokens, List.cons_append, List.append_assoc,
            List.nil_append, readQueryUpTo] at hfilter ⊢
          simp only [hfilter, hlinks]

end QueryReader

end DocStore
