import Mathlib.Data.List.TakeWhile
import DocStore.Query.Token

-- What the tokens of a text are: which texts make up a single word, where a word ends, and what
-- can be in a token at all.
namespace DocStore.Token

-- A text that is taken for one word: a word may also start with a sign in front of a digit.
def Spelled (text : List Char) : Prop :=
  ∃ c rest, text = c :: rest ∧ (startsWord c ∨ c = '-' ∧ ∃ d ∈ rest.head?, d.isDigit) ∧
    ∀ a ∈ rest, continuesWord a

-- A text that does not go on with a word that stands in front of it.
def Apart (text : List Char) : Prop := ∀ c ∈ text.head?, continuesWord c = false

theorem apart_cons {c : Char} (h : continuesWord c = false) (rest : List Char) :
    Apart (c :: rest) := by
  intro a ha
  rwa [← Option.some.inj ha]

theorem continuesWord_of_mark {c : Char} {token : Token} (h : mark? c = some token) :
    continuesWord c = false := by
  unfold mark? at h
  split at h <;> first | decide +kernel | cases h

theorem continuesWord_of_isDigit {c : Char} (h : c.isDigit) : continuesWord c := by
  have hnumeric : Text.isNumeric c := by
    refine List.any_eq_true.mpr ⟨(0x30, 0x39), List.mem_cons_self, ?_⟩
    simp only [Char.isDigit, Bool.and_eq_true, decide_eq_true_eq] at h ⊢
    exact ⟨UInt32.le_iff_toNat_le.mp h.1, UInt32.le_iff_toNat_le.mp h.2⟩
  simp [continuesWord, hnumeric]

-- Nothing else starts with the first character of a word.
theorem next_of_startsWord {c : Char} (h : startsWord c) (rest : List Char) :
    isBlank c = false ∧ next c rest =
      (.word (String.ofList (c :: rest.takeWhile continuesWord)),
        rest.dropWhile continuesWord) := by
  have hother : ∀ a : Char, startsWord a = false → c ≠ a := by
    rintro a ha rfl
    rw [h] at ha
    cases ha
  have hmark : mark? c = none := by
    unfold mark?
    split <;> first | rfl | exact absurd rfl (hother _ (by decide +kernel))
  constructor
  · simp only [isBlank, Bool.or_eq_false_iff, beq_eq_false_iff_ne]
    exact ⟨⟨⟨hother _ (by decide +kernel), hother _ (by decide +kernel)⟩,
      hother _ (by decide +kernel)⟩, hother _ (by decide +kernel)⟩
  · simp only [next, hmark]
    rw [if_neg (hother '&' (by decide +kernel)), if_neg (hother '"' (by decide +kernel)),
      if_pos h]

theorem scan_cons {c : Char} (h : isBlank c = false) (rest : List Char) :
    scan (c :: rest) = (next c rest).1 :: scan (next c rest).2 := by
  rw [scan, h]
  rfl

theorem scan_blank {c : Char} (h : isBlank c = true) (rest : List Char) :
    scan (c :: rest) = scan rest := by
  rw [scan, if_pos h]

theorem scan_mark {c : Char} {token : Token} (h : mark? c = some token) (rest : List Char) :
    scan (c :: rest) = token :: scan rest := by
  have hblank : isBlank c = false := by
    unfold mark? at h
    split at h <;> first | rfl | cases h
  simp only [scan_cons hblank, next, h]

theorem scan_quoted {text : List Char} (h : '"' ∉ text) (rest : List Char) :
    scan ('"' :: (text ++ '"' :: rest)) = .quoted (String.ofList text) :: scan rest := by
  have hplain : ∀ c ∈ text, decide (c ≠ '"') = true := fun c hc =>
    decide_eq_true (fun heq => h (heq ▸ hc))
  have htake : (text ++ '"' :: rest).takeWhile (· ≠ '"') = text := by
    rw [List.takeWhile_append_of_pos hplain, List.takeWhile_cons_of_neg (by simp), List.append_nil]
  have hdrop : (text ++ '"' :: rest).dropWhile (· ≠ '"') = '"' :: rest := by
    rw [List.dropWhile_append_of_pos hplain, List.dropWhile_cons_of_neg (by simp)]
  have hnext : next '"' (text ++ '"' :: rest) = (.quoted (String.ofList text), rest) := by
    have hmark : mark? '"' = none := rfl
    have hother : '"' ≠ '&' := by decide
    simp only [next, hmark, if_neg hother, if_true, hdrop, htake]
  rw [scan_cons rfl, hnext]

-- A word ends where nothing continues it.
theorem scan_word {word rest : List Char} (hword : Spelled word) (hrest : Apart rest) :
    scan (word ++ rest) = .word (String.ofList word) :: scan rest := by
  obtain ⟨c, tail, rfl, hfirst, htail⟩ := hword
  have htake : (tail ++ rest).takeWhile continuesWord = tail := by
    rw [List.takeWhile_append_of_pos htail]
    cases rest with
    | nil => simp
    | cons a rest => simp [hrest a rfl]
  have hdrop : (tail ++ rest).dropWhile continuesWord = rest := by
    rw [List.dropWhile_append_of_pos htail]
    cases rest with
    | nil => rfl
    | cons a rest => simp [hrest a rfl]
  rcases hfirst with hstart | ⟨rfl, hdigit⟩
  · obtain ⟨hblank, hnext⟩ := next_of_startsWord hstart (tail ++ rest)
    rw [List.cons_append, scan_cons hblank, hnext, htake, hdrop]
  · have hhead : (tail ++ rest).head?.any Char.isDigit = true := by
      cases tail with
      | nil => simp at hdigit
      | cons d tail => simpa using hdigit
    have hmark : mark? '-' = none := rfl
    have hstart : startsWord '-' = false := by decide +kernel
    have hother : '-' ≠ '&' ∧ '-' ≠ '"' := by decide
    have hnext : next '-' (tail ++ rest) = (.word (String.ofList ('-' :: tail)), rest) := by
      simp only [next, hmark, if_neg hother.1, if_neg hother.2, hstart, hhead, htake, hdrop,
        Bool.false_eq_true, if_false, decide_true, Bool.and_self, if_true]
    rw [List.cons_append, scan_cons rfl, hnext]

-- Every token is found at some character that is not blank.
theorem mem_scan {token : Token} {text : List Char} (h : token ∈ scan text) :
    ∃ c rest, token = (next c rest).1 := by
  induction text using scan.induct with
  | case1 =>
      rw [scan] at h
      cases h
  | case2 c rest hblank ih =>
      rw [scan_blank hblank] at h
      exact ih h
  | case3 c rest hblank ih =>
      rw [scan_cons (Bool.eq_false_iff.mpr hblank)] at h
      rcases List.mem_cons.mp h with rfl | h
      · exact ⟨c, rest, rfl⟩
      · exact ih h

-- What the texts of a token can be.
def Sound : Token → Prop
  | .word text => Spelled text.toList
  | .quoted text => '"' ∉ text.toList
  | _ => True

theorem sound_next (c : Char) (rest : List Char) : (next c rest).1.Sound := by
  have hcontinued : ∀ a ∈ rest.takeWhile continuesWord, continuesWord a := fun a ha =>
    (List.mem_takeWhile_imp ha)
  simp only [next]
  split
  · next token hmark =>
    unfold mark? at hmark
    split at hmark <;> first | cases hmark; exact trivial | cases hmark
  · split
    · split <;> exact trivial
    · split
      · split
        · simp only [Sound, String.toList_ofList]
          intro hmem
          simpa using List.mem_takeWhile_imp hmem
        · exact trivial
      · split
        · next hstart =>
          exact ⟨c, _, String.toList_ofList, .inl hstart, hcontinued⟩
        · split
          · next hsign =>
            simp only [Bool.and_eq_true, decide_eq_true_eq] at hsign
            obtain ⟨rfl, hdigit⟩ := hsign
            cases rest with
            | nil => cases hdigit
            | cons a rest =>
                have ha : a.isDigit := hdigit
                refine ⟨'-', _, String.toList_ofList, .inr ⟨rfl, a, ?_, ha⟩, hcontinued⟩
                rw [List.takeWhile_cons_of_pos (continuesWord_of_isDigit ha)]
                rfl
          · exact trivial

theorem sound_of_mem_scan {token : Token} {text : List Char} (h : token ∈ scan text) :
    token.Sound := by
  obtain ⟨c, rest, rfl⟩ := mem_scan h
  exact sound_next c rest

-- A name is a word of the language if the scanner takes all of it for one.
theorem ofText_eq_word_iff (name : String) :
    ofText name = [.word name] ↔ Spelled name.toList := by
  constructor
  · intro h
    exact sound_of_mem_scan (h ▸ List.mem_singleton_self _ : Token.word name ∈ ofText name)
  · intro h
    have hscan : scan (name.toList ++ []) = [.word name] := by
      rw [scan_word h (by rintro _ ⟨⟩), String.ofList_toList, scan]
    rwa [List.append_nil] at hscan

theorem ofText_of_startsWord {name : String} {c : Char} {rest : List Char}
    (hname : name.toList = c :: rest) (hstart : startsWord c)
    (hrest : ∀ a ∈ rest, continuesWord a) :
    ofText name = [.word name] :=
  (ofText_eq_word_iff name).mpr ⟨c, rest, hname, .inl hstart, hrest⟩

end DocStore.Token
