import Mathlib.Algebra.Order.Field.Power
import Mathlib.Algebra.Order.Field.Rat
import Mathlib.Tactic.FieldSimp
import Mathlib.Tactic.Linarith
import Mathlib.Tactic.NormNum
import Mathlib.Tactic.Positivity
import Mathlib.Tactic.Ring
import DocStore.Double.Decimal

-- Rounding to the nearest number: whatever lies in the rounding interval of a number is rounded to
-- that number.
namespace DocStore.Double

-- A number is made up of its sign and its magnitude.
theorem ofMagnitude_magnitude (x : Double) : ofMagnitude x.isNegative x.magnitude = x := by
  have hlt : x.bits.toNat < 2 ^ 64 := x.bits.toNat_lt
  have hbits : (if x.isNegative = true then signUnit + x.magnitude else x.magnitude) =
      x.bits.toNat := by
    by_cases h : signUnit ≤ x.bits.toNat
    · rw [isNegative, decide_eq_true h, if_pos rfl]
      simp only [signUnit, magnitude] at h ⊢
      omega
    · rw [isNegative, decide_eq_false h, if_neg Bool.false_ne_true]
      simp only [signUnit, magnitude] at h ⊢
      omega
  rw [ofMagnitude, hbits, UInt64.ofNat_toNat]

-- Powers of two and ten are whole numbers, or the inverses of whole numbers.
theorem zpow_eq_div (base : Nat) (hbase : 0 < base) (e : Int) :
    (base : ℚ) ^ e = (base : ℚ) ^ e.toNat / (base : ℚ) ^ (-e).toNat := by
  have hne : (base : ℚ) ≠ 0 := by exact_mod_cast hbase.ne'
  rw [← zpow_natCast, ← zpow_natCast, ← zpow_sub₀ hne]
  congr 1
  omega

section Halves

variable {num den m : Nat}

-- A quotient within half a unit of a whole number is rounded to it, as long as the number is even
-- where the half is met.
theorem roundQuotient_eq (hden : 0 < den) (hlow : 2 * m * den ≤ 2 * num + den)
    (hhigh : 2 * num ≤ 2 * m * den + den)
    (heven : 2 * m * den = 2 * num + den ∨ 2 * num = 2 * m * den + den → m % 2 = 0) :
    roundQuotient num den = m := by
  have hsplit := Nat.div_add_mod num den
  have hrest := Nat.mod_lt num hden
  simp only [roundQuotient]
  generalize hq : num / den = quotient at *
  generalize num % den = rest at *
  -- the number is the quotient or the one above it
  obtain rfl | rfl : m = quotient ∨ m = quotient + 1 := by
    have hbelow : quotient ≤ m := by
      by_contra hlt
      have : den * (m + 1) ≤ den * quotient := Nat.mul_le_mul_left den (by omega)
      nlinarith
    have habove : m ≤ quotient + 1 := by
      by_contra hlt
      have : den * (quotient + 2) ≤ den * m := Nat.mul_le_mul_left den (by omega)
      nlinarith
    omega
  · have hmul : 2 * m * den = 2 * (den * m) := by ring
    rw [hmul] at hlow hhigh heven
    split
    · rfl
    · split
      · omega
      · have := heven (.inr (by omega))
        omega
  · have hmul : 2 * (quotient + 1) * den = 2 * (den * quotient) + 2 * den := by ring
    rw [hmul] at hlow hhigh heven
    split
    · omega
    · split
      · rfl
      · have := heven (.inl (by omega))
        omega

theorem roundQuotient_eq_of_near (hden : 0 < den) (hlow : (m : ℚ) - 1 / 2 ≤ (num : ℚ) / den)
    (hhigh : (num : ℚ) / den ≤ m + 1 / 2)
    (heven : (num : ℚ) / den = m - 1 / 2 ∨ (num : ℚ) / den = m + 1 / 2 → m % 2 = 0) :
    roundQuotient num den = m := by
  have hdenq : (0 : ℚ) < den := by exact_mod_cast hden
  rw [le_div_iff₀ hdenq] at hlow
  rw [div_le_iff₀ hdenq] at hhigh
  rw [div_eq_iff hdenq.ne', div_eq_iff hdenq.ne'] at heven
  refine roundQuotient_eq hden ?_ ?_ (fun h => heven (h.imp (fun h => ?_) fun h => ?_))
  · have : (2 * m * den : ℚ) ≤ 2 * num + den := by linarith
    exact_mod_cast this
  · have : (2 * num : ℚ) ≤ 2 * m * den + den := by linarith
    exact_mod_cast this
  · have : (2 * m * den : ℚ) = 2 * num + den := by exact_mod_cast h
    linarith
  · have : (2 * num : ℚ) = 2 * m * den + den := by exact_mod_cast h
    linarith

end Halves

-- A shift to the side on which it is a whole number keeps a comparison with a power of two.
theorem shift_le_shift_iff {a b : Nat} (hb : 0 < b) (e : Int) :
    b <<< e.toNat ≤ a <<< (-e).toNat ↔ (2 : ℚ) ^ e ≤ (a : ℚ) / b := by
  have hbq : (0 : ℚ) < b := by exact_mod_cast hb
  have htwo := zpow_eq_div 2 (by decide) e
  push_cast at htwo
  rw [htwo, div_le_div_iff₀ (by positivity) hbq, Nat.shiftLeft_eq, Nat.shiftLeft_eq, mul_comm b]
  exact_mod_cast Iff.rfl

theorem shift_div_shift (a b : Nat) (e : Int) :
    ((a <<< (-e).toNat : Nat) : ℚ) / ((b <<< e.toNat : Nat) : ℚ) = (a : ℚ) / b / (2 : ℚ) ^ e := by
  have htwo := zpow_eq_div 2 (by decide) e
  push_cast at htwo
  rw [htwo, Nat.shiftLeft_eq, Nat.shiftLeft_eq]
  push_cast
  rw [div_div_div_eq]

theorem pow_log2_le {n : Nat} (h : 0 < n) : (2 : ℚ) ^ (n.log2 : Int) ≤ n := by
  rw [zpow_natCast]
  exact_mod_cast Nat.log2_self_le h.ne'

theorem lt_pow_log2 (n : Nat) : (n : ℚ) < (2 : ℚ) ^ ((n.log2 : Int) + 1) := by
  rw [show ((n.log2 : Int) + 1) = ((n.log2 + 1 : Nat) : Int) by push_cast; rfl, zpow_natCast]
  exact_mod_cast Nat.lt_log2_self

-- The lengths of two numbers tell their quotient up to a factor of two on both sides.
theorem quotient_bounds {num den : Nat} (hnum : 0 < num) (hden : 0 < den) :
    (2 : ℚ) ^ ((num.log2 : Int) - den.log2 - 1) < (num : ℚ) / den ∧
      (num : ℚ) / den < (2 : ℚ) ^ ((num.log2 : Int) - den.log2 + 1) := by
  have hdenq : (0 : ℚ) < den := by exact_mod_cast hden
  have hn := pow_log2_le hnum
  have hn' := lt_pow_log2 num
  have hd := pow_log2_le hden
  have hd' := lt_pow_log2 den
  constructor
  · rw [lt_div_iff₀ hdenq]
    calc (2 : ℚ) ^ ((num.log2 : Int) - den.log2 - 1) * den
        < (2 : ℚ) ^ ((num.log2 : Int) - den.log2 - 1) * (2 : ℚ) ^ ((den.log2 : Int) + 1) := by
          gcongr
      _ = (2 : ℚ) ^ (num.log2 : Int) := by rw [← zpow_add₀ (by norm_num)]; congr 1; ring
      _ ≤ num := hn
  · rw [div_lt_iff₀ hdenq]
    calc (num : ℚ) < (2 : ℚ) ^ ((num.log2 : Int) + 1) := hn'
      _ = (2 : ℚ) ^ ((num.log2 : Int) - den.log2 + 1) * (2 : ℚ) ^ (den.log2 : Int) := by
          rw [← zpow_add₀ (by norm_num)]; congr 1; ring
      _ ≤ (2 : ℚ) ^ ((num.log2 : Int) - den.log2 + 1) * den := by gcongr

-- The grid on which a quotient is rounded is fine enough for 53 bits, and no finer.
theorem gridExponent_spec {num den : Nat} (hnum : 0 < num) (hden : 0 < den) :
    -1074 ≤ gridExponent num den ∧
      (num : ℚ) / den < (2 : ℚ) ^ (53 + gridExponent num den) ∧
      (-1074 < gridExponent num den →
        (2 : ℚ) ^ (52 + gridExponent num den) ≤ (num : ℚ) / den) := by
  obtain ⟨hlow, hhigh⟩ := quotient_bounds hnum hden
  simp only [gridExponent]
  generalize hestimate : (num.log2 : Int) - den.log2 - 53 = estimate
  have hmono : ∀ {a b : Int}, a ≤ b → (2 : ℚ) ^ a ≤ (2 : ℚ) ^ b :=
    fun h => zpow_le_zpow_right₀ (by norm_num) h
  have hfits : 2 * exponentUnit * den <<< estimate.toNat ≤ num <<< (-estimate).toNat ↔
      (2 : ℚ) ^ (53 + estimate) ≤ (num : ℚ) / den := by
    have hdenq : (0 : ℚ) < den := by exact_mod_cast hden
    have hunit : 2 * exponentUnit * den <<< estimate.toNat =
        (2 ^ 53 * den) <<< estimate.toNat := by
      rw [Nat.shiftLeft_eq, Nat.shiftLeft_eq, ← mul_assoc]
      rfl
    rw [hunit, shift_le_shift_iff (by positivity), zpow_add₀ (by norm_num)]
    push_cast
    rw [le_div_iff₀ (by positivity), le_div_iff₀ hdenq, mul_left_comm, mul_assoc, mul_left_comm]
  split
  · next hfit =>
    have hfit := hfits.mp hfit
    refine ⟨by omega, lt_of_lt_of_le hhigh (hmono (by omega)), fun hfine => ?_⟩
    exact le_trans (hmono (by omega)) hfit
  · next hfit =>
    have hfit := not_le.mp (fun h => hfit (hfits.mpr h))
    refine ⟨by omega, lt_of_lt_of_le hfit (hmono (by omega)), fun hfine => ?_⟩
    exact le_trans (hmono (by omega)) hlow.le

-- The reals that are rounded to a positive finite number. The ends of the interval are rounded to
-- it if its significand is even.
structure Attracts (x : Double) (v : ℚ) : Prop where
  low : (Decimal.lowEnd x : ℚ) * (2 : ℚ) ^ (x.exponent - 2) ≤ v
  high : v ≤ (Decimal.highEnd x : ℚ) * (2 : ℚ) ^ (x.exponent - 2)
  even : v = (Decimal.lowEnd x : ℚ) * (2 : ℚ) ^ (x.exponent - 2) ∨
    v = (Decimal.highEnd x : ℚ) * (2 : ℚ) ^ (x.exponent - 2) → x.significand % 2 = 0

section Finite

variable {x : Double}

-- The parts of a positive finite number.
structure Normal (x : Double) : Prop where
  pos : 0 < x.significand
  lt : x.significand < 2 * exponentUnit
  least : -1074 ≤ x.exponent
  greatest : x.exponent ≤ 971
  full : -1074 < x.exponent → exponentUnit ≤ x.significand
  magnitude : x.magnitude = (x.exponent + 1074).toNat * exponentUnit + x.significand

theorem normal_of_finite (hfinite : x.isFinite = true) (hpos : 0 < x.magnitude) : x.Normal := by
  have hlt : x.magnitude < infiniteMagnitude := by simpa [isFinite] using hfinite
  have hsplit := Nat.div_add_mod x.magnitude exponentUnit
  have hrest := Nat.mod_lt x.magnitude (show 0 < exponentUnit by decide)
  have hbig : x.magnitude / exponentUnit < 2047 :=
    Nat.div_lt_of_lt_mul (by simpa [infiniteMagnitude, exponentUnit] using hlt)
  by_cases hsmall : x.magnitude < exponentUnit
  · have hm : x.significand = x.magnitude := if_pos hsmall
    have hq : x.exponent = -1074 := if_pos hsmall
    exact ⟨by omega, by omega, by omega, by omega, by omega, by rw [hq, hm]; simp⟩
  · have hm : x.significand = exponentUnit + x.magnitude % exponentUnit := if_neg hsmall
    have hq : x.exponent = (x.magnitude / exponentUnit : Nat) - 1075 := if_neg hsmall
    have hone : 1 ≤ x.magnitude / exponentUnit :=
      (Nat.one_le_div_iff (by decide)).mpr (not_lt.mp hsmall)
    refine ⟨by omega, by omega, by omega, by omega, by omega, ?_⟩
    have hexp : (x.exponent + 1074).toNat + 1 = x.magnitude / exponentUnit := by omega
    rw [← hexp, mul_add, mul_one, mul_comm] at hsplit
    omega

-- The rounding interval, measured by the unit of the grid that the number is on.
structure Near (x : Double) (u : ℚ) : Prop where
  low : (x.significand : ℚ) - 1 / 2 ≤ u
  high : u ≤ x.significand + 1 / 2
  even : u = x.significand - 1 / 2 ∨ u = x.significand + 1 / 2 → x.significand % 2 = 0
  -- just above a power of two, the numbers below lie twice as close
  close : x.significand = exponentUnit → -1074 < x.exponent → (x.significand : ℚ) - 1 / 4 ≤ u

theorem Attracts.near {v : ℚ} (h : x.Attracts v) (hnormal : x.Normal) :
    x.Near (v / (2 : ℚ) ^ x.exponent) := by
  have hpos : (0 : ℚ) < (2 : ℚ) ^ x.exponent := by positivity
  have hunit : (2 : ℚ) ^ (x.exponent - 2) = (2 : ℚ) ^ x.exponent / 4 := by
    rw [zpow_sub₀ (by norm_num)]
    norm_num
  obtain ⟨hlow, hhigh, heven⟩ := h
  obtain ⟨u, rfl⟩ : ∃ u, v = u * (2 : ℚ) ^ x.exponent := ⟨_, (div_mul_cancel₀ v hpos.ne').symm⟩
  have hquarters : ∀ n : ℚ, n * (2 : ℚ) ^ (x.exponent - 2) = n / 4 * (2 : ℚ) ^ x.exponent := by
    intro n
    rw [hunit]
    ring
  rw [hquarters, mul_le_mul_iff_left₀ hpos] at hlow hhigh
  rw [hquarters, hquarters, mul_left_inj' hpos.ne', mul_left_inj' hpos.ne'] at heven
  rw [mul_div_cancel_right₀ _ hpos.ne']
  have hsig := hnormal.pos
  have hends : (Decimal.highEnd x : ℚ) = 4 * x.significand + 2 := by
    rw [Decimal.highEnd]
    push_cast
    ring
  by_cases hclose : x.significand = exponentUnit ∧ -1074 < x.exponent
  · have hlowEnd : (Decimal.lowEnd x : ℚ) = 4 * x.significand - 1 := by
      rw [Decimal.lowEnd, if_pos hclose, Nat.cast_sub (by omega)]
      push_cast
      ring
    rw [hlowEnd] at hlow heven
    rw [hends] at hhigh heven
    exact ⟨by linarith, by linarith, fun _ => by rw [hclose.1]; rfl, fun _ _ => by linarith⟩
  · have hlowEnd : (Decimal.lowEnd x : ℚ) = 4 * x.significand - 2 := by
      rw [Decimal.lowEnd, if_neg hclose, Nat.cast_sub (by omega)]
      push_cast
      ring
    rw [hlowEnd] at hlow heven
    rw [hends] at hhigh heven
    refine ⟨by linarith, by linarith, fun h => heven (h.imp (fun h => ?_) fun h => ?_),
      fun hm hq => absurd ⟨hm, hq⟩ hclose⟩
    · linarith
    · linarith

section Grid

variable {num den : Nat} {q : Int}

-- What lies near a number is not rounded on a coarser grid than that of the number.
theorem Near.grid_le {v : ℚ} (h : x.Near (v / (2 : ℚ) ^ x.exponent)) (hnormal : x.Normal)
    (habove : -1074 < q → (2 : ℚ) ^ (52 + q) ≤ v) : q ≤ x.exponent := by
  have hunit : (0 : ℚ) < (2 : ℚ) ^ x.exponent := by positivity
  have hfits : (x.significand : ℚ) + 1 ≤ 2 ^ 53 := by exact_mod_cast hnormal.lt
  have hleast := hnormal.least
  by_contra hnot
  refine absurd (habove (by omega)) (not_le.mpr ?_)
  calc v ≤ (x.significand + 1 / 2) * (2 : ℚ) ^ x.exponent := (div_le_iff₀ hunit).mp h.high
    _ < 2 ^ 53 * (2 : ℚ) ^ x.exponent := by gcongr; linarith
    _ = (2 : ℚ) ^ (53 + x.exponent) := by rw [zpow_add₀ (by norm_num)]; rfl
    _ ≤ (2 : ℚ) ^ (52 + q) := zpow_le_zpow_right₀ (by norm_num) (by omega)

-- Where the grid is finer, the number is a power of two, what lies near it is just below it, and
-- the grid is the next finer one.
theorem Near.below_power {v : ℚ} (h : x.Near (v / (2 : ℚ) ^ x.exponent)) (hnormal : x.Normal)
    (hleast : -1074 ≤ q) (hbelow : v < (2 : ℚ) ^ (53 + q)) (hfine : q < x.exponent) :
    x.significand = exponentUnit ∧ q = x.exponent - 1 ∧
      v / (2 : ℚ) ^ x.exponent < exponentUnit := by
  have hunit : (0 : ℚ) < (2 : ℚ) ^ x.exponent := by positivity
  have hexponentUnit : (exponentUnit : ℚ) = 4503599627370496 := by norm_num [exponentUnit]
  have hless : ∀ e : Int, 53 + q - x.exponent ≤ e → v / (2 : ℚ) ^ x.exponent < 2 ^ e := by
    intro e he
    rw [div_lt_iff₀ hunit, ← zpow_add₀ (by norm_num)]
    exact lt_of_lt_of_le hbelow (zpow_le_zpow_right₀ (by norm_num) (by omega))
  have hpower : v / (2 : ℚ) ^ x.exponent < exponentUnit := by
    have hbound := hless 52 (by omega)
    norm_num at hbound
    linarith
  have hlow := h.low
  have hfull := hnormal.full (by omega)
  have hsig : x.significand = exponentUnit := by
    have : (x.significand : ℚ) < exponentUnit + 1 := by linarith
    have : x.significand < exponentUnit + 1 := by exact_mod_cast this
    omega
  have hquarter := h.close hsig (by omega)
  rw [hsig] at hquarter
  refine ⟨hsig, ?_, hpower⟩
  by_contra hne
  have hbound := hless 51 (by omega)
  norm_num at hbound
  linarith

-- On its own grid a number is its significand.
theorem Near.round_own (h : x.Near ((num : ℚ) / den / (2 : ℚ) ^ x.exponent)) (hden : 0 < den) :
    roundQuotient (num <<< (-x.exponent).toNat) (den <<< x.exponent.toNat) = x.significand := by
  refine roundQuotient_eq_of_near (Nat.shiftLeft_pos_iff.mpr hden) ?_ ?_ ?_ <;> rw [shift_div_shift]
  · exact h.low
  · exact h.high
  · exact h.even

-- On the next finer grid a power of two is twice its significand, and what is at most a quarter
-- below it is rounded up to it.
theorem Near.round_finer (h : x.Near ((num : ℚ) / den / (2 : ℚ) ^ x.exponent)) (hden : 0 < den)
    (hsig : x.significand = exponentUnit) (hfine : -1074 < x.exponent)
    (hpower : (num : ℚ) / den / (2 : ℚ) ^ x.exponent < exponentUnit) :
    roundQuotient (num <<< (-(x.exponent - 1)).toNat) (den <<< (x.exponent - 1).toNat) =
      2 * exponentUnit := by
  have hquarter := h.close hsig hfine
  rw [hsig] at hquarter
  have hdouble : (num : ℚ) / den / (2 : ℚ) ^ (x.exponent - 1) =
      2 * ((num : ℚ) / den / (2 : ℚ) ^ x.exponent) := by
    rw [zpow_sub₀ (by norm_num)]
    field_simp
  refine roundQuotient_eq_of_near (Nat.shiftLeft_pos_iff.mpr hden) ?_ ?_ (fun _ => rfl) <;>
    rw [shift_div_shift, hdouble] <;> push_cast <;> linarith

end Grid

-- What a number attracts is rounded to it.
theorem nearestMagnitude_eq {num den : Nat} (hden : 0 < den) (hfinite : x.isFinite = true)
    (hpos : 0 < x.magnitude) (h : x.Attracts ((num : ℚ) / den)) :
    nearestMagnitude num den = x.magnitude := by
  have hnormal := normal_of_finite hfinite hpos
  have hnear := h.near hnormal
  have hlt : x.magnitude < infiniteMagnitude := by simpa [isFinite] using hfinite
  have hnum : 0 < num := by
    by_contra hzero
    obtain rfl : num = 0 := by omega
    have hlow := hnear.low
    have hsig : (1 : ℚ) ≤ x.significand := by exact_mod_cast hnormal.pos
    simp only [Nat.cast_zero, zero_div] at hlow
    linarith
  obtain ⟨hleast, hbelow, habove⟩ := gridExponent_spec hnum hden
  simp only [nearestMagnitude, if_neg hnum.ne']
  generalize gridExponent num den = q at *
  -- the grid is that of the number, or the next finer one
  rcases (hnear.grid_le hnormal habove).eq_or_lt with rfl | hfine
  · rw [hnear.round_own hden, ← hnormal.magnitude]
    exact min_eq_right hlt.le
  · obtain ⟨hsig, rfl, hpower⟩ := hnear.below_power hnormal hleast hbelow hfine
    have hmagnitude : (x.exponent - 1 + 1074).toNat * exponentUnit + 2 * exponentUnit =
        x.magnitude := by
      have hexp : (x.exponent + 1074).toNat = (x.exponent - 1 + 1074).toNat + 1 := by omega
      rw [hnormal.magnitude, hexp, hsig]
      ring
    rw [hnear.round_finer hden hsig (by omega) hpower, hmagnitude]
    exact min_eq_right hlt.le

end Finite

end DocStore.Double
