import Mathlib.Data.Nat.Digits.Defs
import Mathlib.Tactic.IntervalCases
import DocStore.Timestamp

-- A time that is written with a year of four digits is read back as it was.
namespace DocStore

-- One part after another is read.
theorem bind_eq_some_of {α β : Type} {x : Option α} {a : α} {f : α → Option β} {b : β}
    (hx : x = some a) (hf : f a = some b) : (x >>= f) = some b :=
  Option.bind_eq_some_iff.mpr ⟨a, hx, hf⟩

namespace Text

theorem digitsValue_append (ds es : List Char) :
    digitsValue (ds ++ es) = 10 ^ es.length * digitsValue ds + digitsValue es :=
  (Nat.ofDigitChars_append 0).trans Nat.ofDigitChars_eq_ofDigitChars_zero

theorem digitsValue_toDigits (n : Nat) : digitsValue (Nat.toDigits 10 n) = n :=
  Nat.ofDigitChars_ten_toDigits

theorem digitsValue_zeros (n : Nat) : digitsValue (List.replicate n '0') = 0 :=
  Nat.ofDigitChars_replicate_zero

theorem digitsValue_padded (width n : Nat) : digitsValue (padded width n) = n := by
  rw [padded, digitsValue_append, digitsValue_zeros, digitsValue_toDigits, Nat.mul_zero, Nat.zero_add]

theorem isDigit_of_mem_padded {width n : Nat} {c : Char} (h : c ∈ padded width n) :
    c.isDigit = true := by
  rcases List.mem_append.mp h with hzero | hdigit
  · rw [List.eq_of_mem_replicate hzero]
    rfl
  · exact Nat.isDigit_of_mem_toDigits (by decide) (by decide) hdigit

theorem length_padded {width n : Nat} (hwidth : 0 < width) (h : n < 10 ^ width) :
    (padded width n).length = width := by
  have hle := (Nat.length_toDigits_le_iff (b := 10) (by decide) hwidth).mpr h
  rw [padded, List.length_append, List.length_replicate]
  omega

-- Digits end where their number is reached, or where another character follows.
theorem takeDigits_append {ds rest : List Char} {limit : Nat} (hds : ∀ c ∈ ds, c.isDigit = true)
    (hlimit : ds.length ≤ limit)
    (hrest : ds.length = limit ∨ ∀ c ∈ rest.head?, c.isDigit = false) :
    takeDigits limit (ds ++ rest) = (ds, rest) := by
  induction ds generalizing limit with
  | nil =>
      cases limit with
      | zero => rfl
      | succ limit =>
          have hhead := hrest.resolve_left (by simp)
          cases rest with
          | nil => rfl
          | cons c rest => simp [takeDigits, hhead c rfl]
  | cons d ds ih =>
      obtain ⟨limit, rfl⟩ : ∃ k, limit = k + 1 := ⟨limit - 1, by
        rw [List.length_cons] at hlimit
        omega⟩
      have hrec : takeDigits limit (ds ++ rest) = (ds, rest) :=
        ih (fun c hc => hds c (List.mem_cons_of_mem _ hc)) (by simpa using hlimit)
          (by simpa using hrest)
      simp [takeDigits, hds d (List.mem_cons_self ..), hrec]

theorem isBlank_of_isDigit {c : Char} (h : c.isDigit = true) : isBlank c = false := by
  simp only [Char.isDigit, Bool.and_eq_true, decide_eq_true_eq] at h
  obtain ⟨hlow, hhigh⟩ := h
  have hlow : 48 ≤ c.toNat := UInt32.le_iff_toNat_le.mp hlow
  have hhigh : c.toNat ≤ 57 := UInt32.le_iff_toNat_le.mp hhigh
  simp only [isBlank, Ranges.contains, blankRanges, List.any_cons, List.any_nil, Bool.or_false,
    Bool.or_eq_false_iff, Bool.and_eq_false_iff, decide_eq_false_iff_not]
  omega

theorem dropBlanks_cons {c : Char} (h : isBlank c = false) (rest : List Char) :
    dropBlanks (c :: rest) = c :: rest := List.dropWhile_cons_of_neg (by simp [h])

theorem dropBlanks_digits {ds : List Char} (hne : ds ≠ []) (hds : ∀ c ∈ ds, c.isDigit = true)
    (rest : List Char) : dropBlanks (ds ++ rest) = ds ++ rest := by
  obtain ⟨c, ds, rfl⟩ := List.exists_cons_of_ne_nil hne
  exact dropBlanks_cons (isBlank_of_isDigit (hds c (List.mem_cons_self ..))) _

end Text

namespace Timestamp

open Text

section Calendar

-- A cycle of the calendar has 400 years, which start in March: centuries, groups of four years,
-- years and days.
theorem exists_radix {dayOfEra : Nat} (h : dayOfEra < 146097) :
    ∃ c q r s, c < 4 ∧ q < 25 ∧ r < 4 ∧ dayOfEra = 36524 * c + 1461 * q + 365 * r + s ∧
      (s < 365 ∨ s = 365 ∧ r = 3 ∧ (q < 24 ∨ c = 3)) := by
  obtain ⟨c, rest, hc, hday, hrest⟩ : ∃ c rest, c < 4 ∧ dayOfEra = 36524 * c + rest ∧
      (rest < 36524 ∨ c = 3 ∧ rest = 36524) :=
    ⟨min (dayOfEra / 36524) 3, dayOfEra - 36524 * min (dayOfEra / 36524) 3, by omega⟩
  refine ⟨c, rest / 1461, min (rest % 1461 / 365) 3, rest % 1461 - 365 * min (rest % 1461 / 365) 3,
    hc, ?_⟩
  clear h
  omega

theorem yearOfEra_eq {dayOfEra c q r s : Nat}
    (hday : dayOfEra = 36524 * c + 1461 * q + 365 * r + s) (hc : c < 4) (hq : q < 25) (hr : r < 4)
    (hs : s < 365 ∨ s = 365 ∧ r = 3 ∧ (q < 24 ∨ c = 3)) :
    (dayOfEra - dayOfEra / 1460 + dayOfEra / 36524 - dayOfEra / 146096) / 365 =
      100 * c + 4 * q + r := by
  have hfours : dayOfEra / 1460 = 25 * c + q ∨ dayOfEra / 1460 = 25 * c + q + 1 := by omega
  have hcenturies : dayOfEra / 36524 = c ∨ dayOfEra / 36524 = 4 ∧ dayOfEra = 146096 := by omega
  have hera : dayOfEra / 146096 = 0 ∨ dayOfEra / 146096 = 1 ∧ dayOfEra = 146096 := by omega
  omega

-- `yearOfEra` years lie before the day, and `dayOfYear` days of its year.
theorem yearOfEra_spec {dayOfEra : Nat} (h : dayOfEra < 146097) :
    ∃ yearOfEra dayOfYear, yearOfEra < 400 ∧
      dayOfEra = 365 * yearOfEra + yearOfEra / 4 - yearOfEra / 100 + dayOfYear ∧
      (dayOfYear < 365 ∨ dayOfYear = 365 ∧ (yearOfEra + 1) % 4 = 0 ∧
        ((yearOfEra + 1) % 100 ≠ 0 ∨ yearOfEra = 399)) ∧
      (dayOfEra - dayOfEra / 1460 + dayOfEra / 36524 - dayOfEra / 146096) / 365 = yearOfEra := by
  obtain ⟨c, q, r, s, hc, hq, hr, hday, hs⟩ := exists_radix h
  have hleaps : (100 * c + 4 * q + r) / 4 = 25 * c + q := by omega
  have hskips : (100 * c + 4 * q + r) / 100 = c := by omega
  exact ⟨100 * c + 4 * q + r, s, by omega, by omega, by omega, yearOfEra_eq hday hc hq hr hs⟩

-- The months of such a year, of which February is the last.
theorem monthOfYear_spec {year : Int} {dayOfYear : Nat}
    (h : dayOfYear < 365 ∨ dayOfYear = 365 ∧ isLeapYear year = true) :
    let monthOfYear := (5 * dayOfYear + 2) / 153
    let month := if monthOfYear < 10 then monthOfYear + 3 else monthOfYear - 9
    monthOfYear < 12 ∧ (153 * monthOfYear + 2) / 5 ≤ dayOfYear ∧
      dayOfYear - (153 * monthOfYear + 2) / 5 + 1 ≤ monthLength year month := by
  intro monthOfYear month
  have hmonth : monthOfYear < 12 := by omega
  refine ⟨hmonth, by omega, ?_⟩
  have hlow : 153 * monthOfYear ≤ 5 * dayOfYear + 2 := Nat.mul_div_le _ _
  have hhigh : 5 * dayOfYear + 2 < 153 * monthOfYear + 153 := Nat.lt_mul_div_succ _ (by decide)
  clear_value monthOfYear
  simp only [month]
  clear month
  interval_cases monthOfYear
  case «11» =>
    rcases h with h | ⟨rfl, hleap⟩
    · simp [monthLength]
      split <;> omega
    · simp [monthLength, hleap]
  all_goals
    simp [monthLength]
    omega

theorem isLeapYear_of_era {era : Int} {yearOfEra : Nat} (hfour : (yearOfEra + 1) % 4 = 0)
    (hcentury : (yearOfEra + 1) % 100 ≠ 0 ∨ yearOfEra = 399) :
    isLeapYear (yearOfEra + era * 400 + 1) = true := by
  simp only [isLeapYear, Bool.and_eq_true, Bool.or_eq_true, beq_iff_eq, bne_iff_ne]
  omega

theorem month_spec {monthOfYear : Nat} (h : monthOfYear < 12) :
    let month := if monthOfYear < 10 then monthOfYear + 3 else monthOfYear - 9
    1 ≤ month ∧ month ≤ 12 ∧ (if month ≤ 2 then month + 9 else month - 3) = monthOfYear := by
  intro month
  by_cases hlate : monthOfYear < 10
  · simp only [month, if_pos hlate]
    rw [if_neg (by omega)]
    omega
  · simp only [month, if_neg hlate]
    rw [if_pos (by omega)]
    omega

theorem monthLength_eq {month : Nat} (h : 2 < month) (year other : Int) :
    monthLength year month = monthLength other month := by
  unfold monthLength
  split
  · exact absurd h (Nat.lt_irrefl 2)
  all_goals rfl

theorem daysOfDate_eq (era : Int) {year : Int} {yearOfEra month day : Nat} (hera : yearOfEra < 400)
    (hyear : (if month ≤ 2 then year - 1 else year) = yearOfEra + era * 400) :
    daysOfDate year month day =
      era * 146097 + (365 * yearOfEra + yearOfEra / 4 - yearOfEra / 100 : Nat) +
        ((153 * (if month ≤ 2 then month + 9 else month - 3) + 2) / 5 + day : Nat) - 719469 := by
  have hcycle : Int.fdiv (yearOfEra + era * 400) 400 = era := by
    rw [Int.fdiv_eq_ediv_of_nonneg _ (by decide)]
    omega
  simp only [daysOfDate, hyear, hcycle, Int.add_sub_cancel]
  rw [Int.fdiv_eq_ediv_of_nonneg _ (by decide), Int.fdiv_eq_ediv_of_nonneg _ (by decide)]
  omega

-- Every day has a date, which is a date of the calendar, and the date tells the day.
theorem dateOfDays_spec (days : Int) :
    daysOfDate (dateOfDays days).1 (dateOfDays days).2.1 (dateOfDays days).2.2 = days ∧
      1 ≤ (dateOfDays days).2.1 ∧ (dateOfDays days).2.1 ≤ 12 ∧ 1 ≤ (dateOfDays days).2.2 ∧
      (dateOfDays days).2.2 ≤ monthLength (dateOfDays days).1 (dateOfDays days).2.1 := by
  obtain ⟨era, dayOfEra, hera, hlt, hdays⟩ : ∃ (era : Int) (dayOfEra : Nat),
      Int.fdiv (days + 719468) 146097 = era ∧ dayOfEra < 146097 ∧
        days + 719468 - era * 146097 = dayOfEra := by
    refine ⟨_, (days + 719468 - Int.fdiv (days + 719468) 146097 * 146097).toNat, rfl, ?_⟩
    rw [Int.fdiv_eq_ediv_of_nonneg _ (by decide)]
    omega
  obtain ⟨yearOfEra, dayOfYear, hyear, hday, hleap, hformula⟩ := yearOfEra_spec hlt
  have hdayOfYear : dayOfEra - (365 * yearOfEra + yearOfEra / 4 - yearOfEra / 100) = dayOfYear := by
    omega
  have hlong : dayOfYear < 365 ∨
      dayOfYear = 365 ∧ isLeapYear (yearOfEra + era * 400 + 1) = true :=
    hleap.imp_right fun h => ⟨h.1, isLeapYear_of_era h.2.1 h.2.2⟩
  have hdate : dateOfDays days =
      (let monthOfYear := (5 * dayOfYear + 2) / 153
       let month := if monthOfYear < 10 then monthOfYear + 3 else monthOfYear - 9
       (if month ≤ 2 then yearOfEra + era * 400 + 1 else yearOfEra + era * 400, month,
         dayOfYear - (153 * monthOfYear + 2) / 5 + 1)) := by
    simp only [dateOfDays, hera, hdays, Int.toNat_natCast, hformula, hdayOfYear]
  have hmonths := monthOfYear_spec hlong
  rw [hdate]
  clear hdate hformula hlong
  simp only at hmonths ⊢
  generalize (5 * dayOfYear + 2) / 153 = monthOfYear at hmonths ⊢
  obtain ⟨hmonth, hstart, hlength⟩ := hmonths
  obtain ⟨hfirst, hlast, hback⟩ := month_spec hmonth
  generalize (if monthOfYear < 10 then monthOfYear + 3 else monthOfYear - 9) = month
    at hlength hfirst hlast hback ⊢
  refine ⟨?_, hfirst, hlast, Nat.le_add_left _ _, ?_⟩
  · rw [daysOfDate_eq era hyear (by split <;> omega), hback]
    omega
  · split
    · exact hlength
    · next hlate => rwa [monthLength_eq (by omega) _ (yearOfEra + era * 400 + 1)]

end Calendar

section Reading

theorem number_padded {width n : Nat} (hwidth : 0 < width) (h : n < 10 ^ width)
    (rest : List Char) : number width (padded width n ++ rest) = some (n, rest) := by
  have hlength := length_padded hwidth h
  have hne : padded width n ≠ [] := List.ne_nil_of_length_pos (by omega)
  have hdigits : ∀ c ∈ padded width n, c.isDigit = true := fun c hc => isDigit_of_mem_padded hc
  rw [number, dropBlanks_digits hne hdigits,
    takeDigits_append hdigits (Nat.le_of_eq hlength) (.inl hlength)]
  simp [hne, digitsValue_padded]

theorem literal_cons {c : Char} (h : isBlank c = false) (rest : List Char) :
    literal c (c :: rest) = some rest := by
  simp [literal, dropBlanks_cons h]

theorem yearNumber_padded {n : Nat} (h : n < 10 ^ 4) (rest : List Char) :
    yearNumber (padded 4 n ++ rest) = some ((n : Int), rest) := by
  have hread := number_padded (by decide) h rest
  have hlength := length_padded (by decide) h
  obtain ⟨c, ds, hds⟩ := List.exists_cons_of_length_pos (Nat.lt_of_lt_of_eq (by decide) hlength.symm)
  have hc : c.isDigit = true := isDigit_of_mem_padded (hds ▸ List.mem_cons_self ..)
  rw [hds, List.cons_append] at hread ⊢
  rw [yearNumber, dropBlanks_cons (isBlank_of_isDigit hc)]
  split
  · next heq =>
    rw [(List.cons.inj heq).1] at hc
    cases hc
  · next heq =>
    rw [(List.cons.inj heq).1] at hc
    cases hc
  · rw [hread]
    rfl

theorem fraction_padded {width n : Nat} (hwidth : 0 < width) (hnine : width ≤ 9)
    (h : n < 10 ^ width) (rest : List Char) :
    fraction ('.' :: padded width n ++ 'Z' :: rest) =
      some (n * 10 ^ (9 - width), 'Z' :: rest) := by
  have hlength := length_padded hwidth h
  have hne : padded width n ≠ [] := List.ne_nil_of_length_pos (by omega)
  have hdigits : ∀ c ∈ padded width n, c.isDigit = true := fun c hc => isDigit_of_mem_padded hc
  have htake : takeDigits 9 (padded width n ++ 'Z' :: rest) = (padded width n, 'Z' :: rest) :=
    takeDigits_append hdigits (by omega) (.inr (by simp))
  simp [fraction, htake, hne, digitsValue_padded, hlength]

-- As many fraction digits are written as are needed.
theorem fraction_fractionText {n : Nat} (h : n < 1000000000) (rest : List Char) :
    fraction (fractionText n ++ 'Z' :: rest) = some (n, 'Z' :: rest) := by
  unfold fractionText
  split
  · next hzero =>
    rw [hzero]
    rfl
  · split
    · next hmillis =>
      rw [fraction_padded (by decide) (by decide) (by omega)]
      exact congrArg (fun k => some (k, _)) (Nat.div_mul_cancel (Nat.dvd_of_mod_eq_zero hmillis))
    · split
      · next hmicros =>
        rw [fraction_padded (by decide) (by decide) (by omega)]
        exact congrArg (fun k => some (k, _)) (Nat.div_mul_cancel (Nat.dvd_of_mod_eq_zero hmicros))
      · rw [fraction_padded (by decide) (by decide) h, Nat.sub_self, Nat.pow_zero, Nat.mul_one]

-- What is read part by part is accepted if it is a date, a time of day and nothing else.
theorem parse?_eq_of_parts {text : String} {year : Int} {month day hour minute second nanos : Nat}
    {r₁ r₂ r₃ r₄ r₅ r₆ r₇ r₈ r₉ r₁₀ r₁₁ : List Char}
    (hyear : yearNumber text.toList = some (year, r₁)) (h₁ : literal '-' r₁ = some r₂)
    (hmonth : number 2 r₂ = some (month, r₃)) (h₂ : literal '-' r₃ = some r₄)
    (hday : number 2 r₄ = some (day, 'T' :: r₅)) (hhour : number 2 r₅ = some (hour, r₆))
    (h₃ : literal ':' r₆ = some r₇) (hminute : number 2 r₇ = some (minute, r₈))
    (h₄ : literal ':' r₈ = some r₉) (hsecond : number 2 r₉ = some (second, r₁₀))
    (hnanos : fraction r₁₀ = some (nanos, r₁₁)) (hoffset : offset r₁₁ = some (0, []))
    (hisYear : isYear year = true) (hmonths : 1 ≤ month ∧ month ≤ 12)
    (hdays : 1 ≤ day ∧ day ≤ monthLength year month)
    (htime : hour < 24 ∧ minute < 60 ∧ second ≤ 60) {seconds : Int}
    (hseconds : daysOfDate year month day * 86400 +
      (hour * 3600 + minute * 60 + min second 59 : Nat) = seconds)
    (hsame : isYear (dateOfDays (Int.fdiv seconds 86400)).1 = true) :
    parse? text = some ⟨seconds, if second = 60 then 1000000000 + nanos else nanos⟩ := by
  refine bind_eq_some_of hyear (bind_eq_some_of h₁ (bind_eq_some_of hmonth ?_))
  refine bind_eq_some_of h₂ (bind_eq_some_of hday (bind_eq_some_of rfl ?_))
  refine bind_eq_some_of hhour (bind_eq_some_of h₃ (bind_eq_some_of hminute ?_))
  refine bind_eq_some_of h₄ (bind_eq_some_of hsecond (bind_eq_some_of hnanos ?_))
  refine bind_eq_some_of hoffset ?_
  have hend : (dropBlanks []).isEmpty = true := rfl
  simp only [Int.sub_zero, hseconds, hisYear, hsame, hend, Bool.not_true, Bool.false_eq_true,
    Bool.or_eq_true, decide_eq_true_eq, if_false, false_or, Int.natAbs_zero]
  rw [if_neg (by omega), if_neg (by omega), if_neg (by omega)]

end Reading

-- The year of an instant in universal time.
def year (t : Timestamp) : Int := (dateOfDays (Int.fdiv t.seconds 86400)).1

-- Only the last second of a minute is continued by a leap second.
def IsInstant (t : Timestamp) : Prop :=
  t.nanos < 1000000000 ∨ t.nanos < 2000000000 ∧ t.seconds % 60 = 59

instance (t : Timestamp) : Decidable t.IsInstant := inferInstanceAs (Decidable (_ ∨ _))

theorem parse?_render {t : Timestamp} (hinstant : t.IsInstant) (hfirst : 0 ≤ t.year)
    (hlast : t.year ≤ 9999) : parse? t.render = some t := by
  obtain ⟨hdays, hmonth, hmonths, hday, hmonthLength⟩ :=
    dateOfDays_spec (Int.fdiv t.seconds 86400)
  have hisYear : isYear t.year = true := by
    simp only [isYear, Bool.and_eq_true, decide_eq_true_eq]
    omega
  have hmonthBelow : monthLength (dateOfDays (Int.fdiv t.seconds 86400)).1
      (dateOfDays (Int.fdiv t.seconds 86400)).2.1 ≤ 31 := by
    unfold monthLength
    split <;> (try split) <;> omega
  -- the time of day, in seconds
  obtain ⟨ofDay, hofDay, hlt, hseconds⟩ : ∃ ofDay, (Int.fmod t.seconds 86400).toNat = ofDay ∧
      ofDay < 86400 ∧ Int.fdiv t.seconds 86400 * 86400 + ofDay = t.seconds := by
    refine ⟨_, rfl, ?_⟩
    rw [Int.fmod_eq_emod_of_nonneg _ (by decide), Int.fdiv_eq_ediv_of_nonneg _ (by decide)]
    omega
  rw [year] at hfirst hlast hisYear
  generalize hdate : dateOfDays (Int.fdiv t.seconds 86400) = date
    at hdays hmonth hmonths hday hmonthLength hisYear hmonthBelow hfirst hlast
  obtain ⟨year, month, day⟩ := date
  simp only at hdays hmonth hmonths hday hmonthLength hisYear hmonthBelow hfirst hlast
  obtain ⟨year, rfl⟩ := Int.eq_ofNat_of_zero_le hfirst
  have htext : t.render.toList = padded 4 year ++ '-' :: (padded 2 month ++ '-' ::
      (padded 2 day ++ 'T' :: (padded 2 (ofDay / 3600) ++ ':' :: (padded 2 (ofDay / 60 % 60) ++
        ':' :: (padded 2 (ofDay % 60 + t.nanos / 1000000000) ++
          (fractionText (t.nanos % 1000000000) ++ ['Z'])))))) := by
    simp [render, hdate, hofDay, yearText, hlast]
  have htwo : ∀ {n : Nat} (rest : List Char), n < 100 →
      number 2 (padded 2 n ++ rest) = some (n, rest) :=
    fun rest hn => number_padded (by decide) hn rest
  have hleap : ofDay % 60 + t.nanos / 1000000000 ≤ 60 ∧
      (if ofDay % 60 + t.nanos / 1000000000 = 60 then 1000000000 + t.nanos % 1000000000
        else t.nanos % 1000000000) = t.nanos ∧
      min (ofDay % 60 + t.nanos / 1000000000) 59 = ofDay % 60 := by
    unfold IsInstant at hinstant
    split <;> omega
  have hsum : daysOfDate year month day * 86400 + ((ofDay / 3600) * 3600 + ofDay / 60 % 60 * 60 +
      min (ofDay % 60 + t.nanos / 1000000000) 59 : Nat) = t.seconds := by
    rw [hleap.2.2, hdays]
    omega
  have hparse := parse?_eq_of_parts (htext ▸ yearNumber_padded (by omega) _)
    (literal_cons rfl _) (htwo _ (by omega)) (literal_cons rfl _) (htwo _ (by omega))
    (htwo _ (by omega)) (literal_cons rfl _) (htwo _ (by omega)) (literal_cons rfl _)
    (htwo _ (by omega)) (fraction_fractionText (Nat.mod_lt _ (by decide)) []) rfl hisYear
    ⟨hmonth, hmonths⟩ ⟨hday, hmonthLength⟩ ⟨by omega, by omega, hleap.1⟩
    hsum (by rw [hdate]; exact hisYear)
  rw [hparse, hleap.2.1]

end Timestamp

end DocStore
