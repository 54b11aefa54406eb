import Mathlib
import DocStore.Query.Literal
import DocStore.Proofs.Double.Shortest

-- Operands that are written without quotes are read back as they were.
namespace DocStore.Literal

theorem digitsValue_append (ds es : List Char) :
    digitsValue (ds ++ es) = 10 ^ es.length * digitsValue ds + digitsValue es :=
  (Nat.ofDigitChars_append 0).trans Nat.ofDigitChars_eq_ofDigitChars_zero

theorem digitsValue_toDigits (n : Nat) : digitsValue (Nat.toDigits 10 n) = n :=
  Nat.ofDigitChars_ten_toDigits

theorem digitsValue_zeros (n : Nat) : digitsValue (List.replicate n '0') = 0 :=
  Nat.ofDigitChars_replicate_zero

-- A text of digits, with a point and further digits behind them or without, and what it writes.
inductive Numeral : List Char → Decimal → Prop where
  | whole {ds : List Char} (hne : ds ≠ []) (hds : ∀ c ∈ ds, c.isDigit) :
      Numeral ds ⟨digitsValue ds, 0⟩
  | point {ds fs : List Char} (hne : ds ≠ []) (hds : ∀ c ∈ ds, c.isDigit)
      (hfs : ∀ c ∈ fs, c.isDigit) :
      Numeral (ds ++ '.' :: fs) ⟨digitsValue (ds ++ fs), -fs.length⟩

variable {text : List Char} {d : Decimal}

theorem digits_append {ds : List Char} (hds : ∀ c ∈ ds, c.isDigit) (rest : List Char) :
    digits (ds ++ rest) = (ds ++ (digits rest).1, (digits rest).2) :=
  Prod.ext (List.takeWhile_append_of_pos hds) (List.dropWhile_append_of_pos hds)

theorem digits_eq {ds : List Char} (hds : ∀ c ∈ ds, c.isDigit) : digits ds = (ds, []) := by
  simpa [digits] using digits_append hds []

theorem Numeral.decimal?_eq (h : Numeral text d) : decimal? text = some d := by
  cases h with
  | whole hne hds => simp [decimal?, digits_eq hds, hne, exponent?]
  | @point ds fs hne hds hfs =>
      have hpoint : digits ('.' :: fs) = ([], '.' :: fs) := rfl
      simp [decimal?, digits_append hds, hpoint, digits_eq hfs, hne, exponent?]

theorem Numeral.digit_head (h : Numeral text d) : ∃ c rest, text = c :: rest ∧ c.isDigit := by
  cases h with
  | @whole ds hne hds =>
      obtain ⟨c, rest, rfl⟩ := List.exists_cons_of_ne_nil hne
      exact ⟨c, rest, rfl, hds c List.mem_cons_self⟩
  | @point ds fs hne hds =>
      obtain ⟨c, rest, rfl⟩ := List.exists_cons_of_ne_nil hne
      exact ⟨c, rest ++ '.' :: fs, rfl, hds c List.mem_cons_self⟩

theorem Numeral.mem (h : Numeral text d) {c : Char} (hc : c ∈ text) : c.isDigit ∨ c = '.' := by
  cases h with
  | whole _ hds => exact .inl (hds c hc)
  | point _ hds hfs =>
      rcases List.mem_append.mp hc with hleft | hright
      · exact .inl (hds c hleft)
      · rcases List.mem_cons.mp hright with heq | hright
        · exact .inr heq
        · exact .inl (hfs c hright)

theorem layout_numbers (d : Decimal) :
    let ds := Nat.toDigits 10 d.digits
    let leading : Int := d.exp + ds.length - 1
    d.layout numbers =
      if 0 ≤ d.exp then ds ++ List.replicate d.exp.toNat '0'
      else if 0 ≤ leading then
        ds.take (leading.toNat + 1) ++ '.' :: ds.drop (leading.toNat + 1)
      else ['0'] ++ '.' :: (List.replicate (-leading - 1).toNat '0' ++ ds) := by
  simp only [Decimal.layout, numbers, Option.all_none, Bool.and_self, if_true, Bool.false_eq_true,
    if_false, List.append_nil]
  rfl

-- Numbers are written positionally, whatever their exponent.
theorem exists_numeral (d : Decimal) :
    ∃ d', Numeral (d.layout numbers) d' ∧ d'.value = d.value := by
  have hdigits : ∀ c ∈ Nat.toDigits 10 d.digits, c.isDigit := fun c hc =>
    Nat.isDigit_of_mem_toDigits (by decide) (by decide) hc
  have hzeros : ∀ n, ∀ c ∈ List.replicate n '0', c.isDigit := fun n c hc => by
    rw [List.eq_of_mem_replicate hc]
    rfl
  have hlength : 0 < (Nat.toDigits 10 d.digits).length := Nat.length_toDigits_pos
  rw [layout_numbers]
  split_ifs with hwhole hleading
  · refine ⟨_, .whole (by simp) (fun c hc => (List.mem_append.mp hc).elim (hdigits c)
      (hzeros _ c)), ?_⟩
    rw [digitsValue_append, digitsValue_zeros, digitsValue_toDigits, List.length_replicate]
    simp only [Decimal.value]
    push_cast
    rw [← zpow_natCast, Int.toNat_of_nonneg hwhole]
    ring
  · refine ⟨_, .point ?_ (fun c hc => hdigits c (List.mem_of_mem_take hc))
      (fun c hc => hdigits c (List.mem_of_mem_drop hc)), ?_⟩
    · simp
    · rw [List.take_append_drop, digitsValue_toDigits, List.length_drop]
      simp only [Decimal.value]
      congr
      omega
  · refine ⟨_, .point (List.cons_ne_nil _ _) (by simp) (fun c hc => (List.mem_append.mp hc).elim
      (hzeros _ c) (hdigits c)), ?_⟩
    have hzero : digitsValue ['0'] = 0 := rfl
    rw [digitsValue_append, digitsValue_append, hzero, digitsValue_zeros, digitsValue_toDigits,
      List.length_append, List.length_replicate]
    simp only [Decimal.value, Nat.mul_zero, Nat.zero_add]
    congr
    omega

theorem toLower_of_isDigit {c : Char} (h : c.isDigit) : c.toLower = c := by
  unfold Char.toLower
  simp only [Char.isDigit] at h
  grind

-- No name of a number that is not finite starts with a digit.
theorem unsigned?_of_digit {c : Char} {rest : List Char} (hc : c.isDigit) (negative : Bool) :
    unsigned? negative (c :: rest) = (decimal? (c :: rest)).map (Decimal.toDouble negative) := by
  have hother : ∀ a : Char, a.isDigit = false → c.toLower ≠ a := by
    rintro a ha rfl
    rw [toLower_of_isDigit hc, hc] at ha
    cases ha
  unfold unsigned?
  split
  · next h => exact absurd (List.cons.inj h).1 (hother 'i' rfl)
  · next h => exact absurd (List.cons.inj h).1 (hother 'i' rfl)
  · next h => exact absurd (List.cons.inj h).1 (hother 'n' rfl)
  · rfl

theorem Numeral.unsigned?_eq (h : Numeral text d) (negative : Bool) :
    unsigned? negative text = some (d.toDouble negative) := by
  have hdecimal := h.decimal?_eq
  obtain ⟨c, rest, rfl, hc⟩ := h.digit_head
  rw [unsigned?_of_digit hc, hdecimal]
  rfl

-- The text of a finite number: a sign, if it is negative, and a numeral that is read as its
-- magnitude.
theorem exists_numeral_renderNumber {x : Double} (hfinite : x.isFinite = true) :
    ∃ text d, (renderNumber x).toList = (if x.isNegative then ['-'] else []) ++ text ∧
      Numeral text d ∧ d.nearestMagnitude = x.magnitude := by
  have hlt : x.magnitude < Double.infiniteMagnitude := by simpa [Double.isFinite] using hfinite
  have hnan : x.isNaN = false := by
    simp only [Double.isNaN, decide_eq_false_iff_not]
    omega
  have hrender : (renderNumber x).toList = (if x.isNegative then ['-'] else []) ++
      if x.magnitude = 0 then ['0'] else Decimal.layout numbers (Decimal.shortest .up x) := by
    simp [renderNumber, hnan, hfinite, Double.render, numbers]
  rw [hrender]
  by_cases hzero : x.magnitude = 0
  · refine ⟨['0'], _, by rw [if_pos hzero], .whole (by simp) (by simp), ?_⟩
    rw [hzero]
    rfl
  · have hpos : 0 < x.magnitude := Nat.pos_of_ne_zero hzero
    obtain ⟨d, hd, hvalue⟩ := exists_numeral (Decimal.shortest .up x)
    refine ⟨_, d, by rw [if_neg hzero], hd, Decimal.nearestMagnitude_eq hfinite hpos ?_⟩
    rw [hvalue]
    exact Decimal.attracts_shortest (Double.normal_of_finite hfinite hpos) .up

theorem number?_renderNumber {x : Double} (hfinite : x.isFinite = true) :
    number? (renderNumber x) = some x := by
  obtain ⟨text, d, hrender, hd, hnearest⟩ := exists_numeral_renderNumber hfinite
  have hread : ∀ negative, unsigned? negative text =
      some (Double.ofMagnitude negative x.magnitude) := fun negative => by
    rw [hd.unsigned?_eq, Decimal.toDouble, hnearest]
  rw [number?, hrender]
  cases hneg : x.isNegative with
  | true =>
      have := hread true
      simp only [if_true, List.cons_append, List.nil_append]
      rw [this, ← hneg, Double.ofMagnitude_magnitude]
  | false =>
      have hplain := hread false
      obtain ⟨c, rest, rfl, hc⟩ := hd.digit_head
      simp only [Bool.false_eq_true, if_false, List.nil_append]
      split
      · next h =>
        rw [(List.cons.inj h).1] at hc
        cases hc
      · next h =>
        rw [(List.cons.inj h).1] at hc
        cases hc
      · rw [hplain, ← hneg, Double.ofMagnitude_magnitude]

theorem value_of_number? {text : String} {x : Double} (h : number? text = some x) :
    value text = .float x := by
  have htrue : number? "true" = none := by cbv
  have hfalse : number? "false" = none := by cbv
  unfold value
  split_ifs with ht hf
  · rw [ht, htrue] at h
    cases h
  · rw [hf, hfalse] at h
    cases h
  · rw [h]

end DocStore.Literal
