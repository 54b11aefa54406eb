import DocStore.Query.Parse
import DocStore.Proofs.Query.Render

-- What can be read from a text without parameters.
namespace DocStore

namespace QueryReader

-- The operands that a text without parameters can have: those that are read back, and one more.
def Operand (v : Value) : Prop := Literal.Readable v ∨ v = .float Double.negativeInfinity

-- A reader in front of tokens of a text.
def Sound (r : QueryReader) : Prop := ∀ token ∈ r.tokens, token.Sound

variable {r s : QueryReader}

theorem Sound.of_subset (h : r.Sound) (hsubset : ∀ token ∈ s.tokens, token ∈ r.tokens) : s.Sound :=
  fun token htoken => h token (hsubset token htoken)

theorem sound_ofText (text : String) : (ofText text).Sound :=
  fun _ htoken => Token.sound_of_mem_scan htoken

theorem readValue_sound {v : Value} (hr : r.Sound) (h : readValue (some []) r = (.ok v, s)) :
    Operand v ∧ s.Sound := by
  unfold readValue at h
  split at h
  · cases h
  · next text rest htokens =>
    cases h
    have htext : Token.Sound (.word text) := hr _ (htokens ▸ List.mem_cons_self)
    exact ⟨Literal.readable_value htext,
      hr.of_subset fun t ht => htokens ▸ List.mem_cons_of_mem _ ht⟩
  · next text rest htokens =>
    cases h
    have htext : Token.Sound (.quoted text) := hr _ (htokens ▸ List.mem_cons_self)
    exact ⟨.inl htext, hr.of_subset fun t ht => htokens ▸ List.mem_cons_of_mem _ ht⟩
  · cases h

theorem readPredicate_sound {p : Predicate} (hr : r.Sound)
    (h : readPredicate (some []) r = (.ok p, s)) :
    (∀ v ∈ p.operands, Operand v) ∧ s.Sound := by
  unfold readPredicate at h
  split at h
  · cases h
    exact ⟨by simp [Predicate.operands], hr⟩
  · split at h
    · cases h
    · next op _ =>
      split at h
      · cases h
      · next value t hvalue =>
        obtain ⟨hv, ht⟩ := readValue_sound (hr.of_subset fun _ => List.mem_of_mem_drop) hvalue
        split at h
        · next rest htokens =>
          split at h
          · split at h
            · cases h
            · next skip u hskip =>
              cases h
              obtain ⟨hs, hu⟩ := readValue_sound
                (ht.of_subset fun _ h => htokens ▸ List.mem_cons_of_mem _ h) hskip
              refine ⟨fun v hmem => ?_, hu⟩
              simp only [Predicate.operands, Option.toList_some, List.mem_cons,
                List.not_mem_nil, or_false] at hmem
              rcases hmem with rfl | rfl
              · exact hv
              · exact hs
          · cases h
        · cases h
          refine ⟨fun v hmem => ?_, ht⟩
          obtain rfl : v = value := by
            cases op <;> simpa [Operator.predicate, Predicate.operands] using hmem
          exact hv

theorem readConditions_sound {fuel : Nat} {conditions : List Condition} (hr : r.Sound)
    (h : readConditions (some []) fuel r = (.ok conditions, s)) :
    (∀ c ∈ conditions, Token.Spelled c.key.toList ∧ ∀ v ∈ c.predicate.operands, Operand v) ∧
      s.Sound := by
  induction fuel generalizing r conditions with
  | zero => cases h
  | succ fuel ih =>
      have hdrop : ∀ {token : Token} {rest : List Token},
          r.tokens.dropWhile Token.isSeparator = token :: rest →
            token.Sound ∧ ∀ n, Sound ⟨rest, n⟩ := fun hfound =>
        have hmem := fun t ht => (List.dropWhile_sublist _).subset (hfound ▸ ht : t ∈ _)
        ⟨hr _ (hmem _ List.mem_cons_self),
          fun _ => hr.of_subset fun t ht => hmem t (List.mem_cons_of_mem _ ht)⟩
      unfold readConditions at h
      split at h
      · cases h
      · split at h
        · next rest htokens =>
          cases h
          exact ⟨by simp, (hdrop htokens).2 _⟩
        · next key rest htokens =>
          obtain ⟨hkey, hrest⟩ := hdrop htokens
          split at h
          · cases h
          · next predicate t hpredicate =>
            obtain ⟨hoperands, ht⟩ := readPredicate_sound (hrest _) hpredicate
            split at h
            · cases h
            · next further u hfurther =>
              cases h
              obtain ⟨hconditions, hs⟩ := ih ht hfurther
              refine ⟨fun c hc => ?_, hs⟩
              rcases List.mem_cons.mp hc with rfl | hc
              · exact ⟨hkey, hoperands⟩
              · exact hconditions c hc
        · cases h

theorem readFilter_sound {filter : List Condition} (hr : r.Sound)
    (h : readFilter (some []) r = (.ok filter, s)) :
    (∀ c ∈ filter, Token.Spelled c.key.toList ∧ ∀ v ∈ c.predicate.operands, Operand v) ∧
      s.Sound := by
  unfold readFilter at h
  split at h
  · next rest htokens =>
    exact readConditions_sound
      (hr.of_subset fun t ht => htokens ▸ List.mem_cons_of_mem _ ht) h
  · cases h
    exact ⟨by simp, hr⟩

-- What a text without parameters can be read as.
abbrev Readable (q : Query) : Prop := q.All (fun name => Token.Spelled name.toList) Operand

-- Queries and links are read by turns, so that either is traced back to less fuel for the other.
theorem readUpTo_sound (fuel : Nat) :
    (∀ {r s : QueryReader} {q : Query}, r.Sound →
      readQueryUpTo (some []) fuel r = (.ok q, s) → Readable q ∧ s.Sound) ∧
    (∀ {r s : QueryReader} {links : List Query}, r.Sound →
      readLinksUpTo (some []) fuel r = (.ok links, s) →
        (∀ link ∈ links, Readable link) ∧ s.Sound) := by
  induction fuel with
  | zero => exact ⟨fun _ h => by simp [readQueryUpTo] at h, fun _ h => by simp [readLinksUpTo] at h⟩
  | succ fuel ih =>
      obtain ⟨ihQuery, ihLinks⟩ := ih
      refine ⟨fun {r s q} hr h => ?_, fun {r s links} hr h => ?_⟩
      · unfold readQueryUpTo at h
        split at h
        · next model rest htokens =>
          have hmodel : Token.Sound (.word model) := hr _ (htokens ▸ List.mem_cons_self)
          split at h
          · cases h
          · next filter t hread =>
            obtain ⟨hfilter, ht⟩ := readFilter_sound
              (hr.of_subset fun t ht => htokens ▸ List.mem_cons_of_mem _ ht) hread
            split at h
            · next rest htokens =>
              split at h
              · cases h
              · next links u hlinks =>
                cases h
                obtain ⟨hlinks, hs⟩ := ihLinks
                  (ht.of_subset fun t ht => htokens ▸ List.mem_cons_of_mem _ ht) hlinks
                exact ⟨.intro hmodel hfilter hlinks, hs⟩
            · cases h
              exact ⟨.intro hmodel hfilter (by simp), ht⟩
        · cases h
      · unfold readLinksUpTo at h
        split at h
        · cases h
        · next rest htokens =>
          cases h
          exact ⟨by simp, hr.of_subset fun t ht => htokens ▸ List.mem_cons_of_mem _ ht⟩
        · split at h
          · cases h
          · next link t hlink =>
            obtain ⟨hlink, ht⟩ := ihQuery hr hlink
            split at h
            · cases h
            · next further u hfurther =>
              cases h
              obtain ⟨hlinks, hs⟩ := ihLinks ht hfurther
              refine ⟨fun l hl => ?_, hs⟩
              rcases List.mem_cons.mp hl with rfl | hl
              · exact hlink
              · exact hlinks l hl
        · next rest _ _ htokens =>
          exact ihLinks (hr.of_subset fun t ht => htokens ▸ List.mem_cons_of_mem _ ht) h

end QueryReader

end DocStore
