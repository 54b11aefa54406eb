import DocStore.Proofs.Double.Nearest

-- The decimal that is written for a number is rounded to that number when it is read.
namespace DocStore.Decimal

variable {x : Double} {d : Decimal}

def value (d : Decimal) : ℚ := d.digits * (10 : ℚ) ^ d.exp

theorem lt_pow_width (n : Nat) : n < 10 ^ width n :=
  (Nat.length_toDigits_le_iff (by decide) Nat.length_toDigits_pos).mp (Nat.le_refl _)

theorem pow_width_le {n : Nat} (h : 0 < n) : 10 ^ (width n - 1) ≤ n := by
  rcases Nat.eq_zero_or_pos (width n - 1) with hzero | hpos
  · rw [hzero]
    exact h
  · by_contra hlt
    have := (Nat.length_toDigits_le_iff (by decide) hpos).mpr (not_le.mp hlt)
    have hwidth : width n = (Nat.toDigits 10 n).length := rfl
    omega

-- The leading digit of a decimal tells how great it is.
theorem value_bounds (h : d.digits ≠ 0) :
    (10 : ℚ) ^ (d.exp + width d.digits - 1) ≤ d.value ∧
      d.value < (10 : ℚ) ^ (d.exp + width d.digits) := by
  have hwidth : 0 < width d.digits := Nat.length_toDigits_pos
  have hscale : (0 : ℚ) < (10 : ℚ) ^ d.exp := by positivity
  constructor
  · have hle : ((10 ^ (width d.digits - 1) : Nat) : ℚ) ≤ d.digits := by
      exact_mod_cast pow_width_le (Nat.pos_of_ne_zero h)
    calc (10 : ℚ) ^ (d.exp + width d.digits - 1)
        = ((10 ^ (width d.digits - 1) : Nat) : ℚ) * (10 : ℚ) ^ d.exp := by
          push_cast
          rw [← zpow_natCast, ← zpow_add₀ (by norm_num)]
          congr 1
          omega
      _ ≤ d.digits * (10 : ℚ) ^ d.exp := by gcongr
  · have hlt : (d.digits : ℚ) < ((10 ^ width d.digits : Nat) : ℚ) := by
      exact_mod_cast lt_pow_width d.digits
    calc d.digits * (10 : ℚ) ^ d.exp < ((10 ^ width d.digits : Nat) : ℚ) * (10 : ℚ) ^ d.exp := by
          gcongr
      _ = (10 : ℚ) ^ (d.exp + width d.digits) := by
          push_cast
          rw [← zpow_natCast, ← zpow_add₀ (by norm_num)]
          congr 1
          omega

theorem value_eq_div (d : Decimal) : d.value =
    ((d.digits * Nat.pow 10 d.exp.toNat : Nat) : ℚ) / ((Nat.pow 10 (-d.exp).toNat : Nat) : ℚ) := by
  have hten := Double.zpow_eq_div 10 (by decide) d.exp
  push_cast at hten
  rw [value, hten]
  simp only [Nat.pow_eq]
  push_cast
  rw [mul_div_assoc]

-- Three binary digits are less than a decimal one.
theorem pow_two_lt {k n : Nat} (hn : n ≠ 0) (hk : k ≤ 3 * n) : (2 : ℚ) ^ k < (10 : ℚ) ^ n :=
  calc (2 : ℚ) ^ k ≤ (2 : ℚ) ^ (3 * n) := pow_le_pow_right₀ (by norm_num) hk
    _ = (2 ^ 3 : ℚ) ^ n := pow_mul ..
    _ < (10 : ℚ) ^ n := pow_lt_pow_left₀ (by norm_num) (by norm_num) hn

-- Numbers attract nothing that is too great or too small for them.
theorem value_lt_of_attracts (hnormal : x.Normal) {v : ℚ} (h : x.Attracts v) :
    v < (10 : ℚ) ^ 400 ∧ ((10 : ℚ) ^ 401)⁻¹ < v := by
  have hunit : (0 : ℚ) < (2 : ℚ) ^ x.exponent := by positivity
  have hnear := h.near hnormal
  have hsig : (1 : ℚ) ≤ x.significand := by exact_mod_cast hnormal.pos
  have hfits : (x.significand : ℚ) + 1 ≤ 2 ^ 53 := by exact_mod_cast hnormal.lt
  constructor
  · calc v ≤ (x.significand + 1 / 2) * (2 : ℚ) ^ x.exponent := (div_le_iff₀ hunit).mp hnear.high
      _ < 2 ^ 53 * (2 : ℚ) ^ x.exponent := by gcongr; linarith
      _ ≤ 2 ^ 53 * (2 : ℚ) ^ (971 : Int) := by
          gcongr
          · norm_num
          · exact hnormal.greatest
      _ = (2 : ℚ) ^ 1024 := by rw [← zpow_natCast, ← zpow_natCast, ← zpow_add₀ (by norm_num)]; rfl
      _ < (10 : ℚ) ^ 400 := pow_two_lt (by decide) (by decide)
  · calc ((10 : ℚ) ^ 401)⁻¹ < ((2 : ℚ) ^ 1075)⁻¹ :=
          (inv_lt_inv₀ (by positivity) (by positivity)).mpr (pow_two_lt (by decide) (by decide))
      _ = 1 / 2 * (2 : ℚ) ^ (-1074 : Int) := by
          rw [pow_succ, mul_inv, mul_comm, one_div, zpow_neg]
          rfl
      _ ≤ 1 / 2 * (2 : ℚ) ^ x.exponent := by
          gcongr
          · norm_num
          · exact hnormal.least
      _ ≤ (x.significand - 1 / 2) * (2 : ℚ) ^ x.exponent := by gcongr; linarith
      _ ≤ v := (le_div_iff₀ hunit).mp hnear.low

-- A decimal that a number attracts is read as that number.
theorem nearestMagnitude_eq (hfinite : x.isFinite = true) (hpos : 0 < x.magnitude)
    (h : x.Attracts d.value) : d.nearestMagnitude = x.magnitude := by
  have hnormal := Double.normal_of_finite hfinite hpos
  obtain ⟨hgreat, hsmall⟩ := value_lt_of_attracts hnormal h
  rw [← zpow_natCast] at hgreat hsmall
  rw [← zpow_neg] at hsmall
  have hdigits : d.digits ≠ 0 := by
    intro hzero
    rw [value, hzero, Nat.cast_zero, zero_mul] at hsmall
    exact absurd hsmall (not_lt.mpr (by positivity))
  obtain ⟨hlow, hhigh⟩ := value_bounds hdigits
  have hmono : ∀ {a b : Int}, (10 : ℚ) ^ a < (10 : ℚ) ^ b → a < b :=
    fun h => (zpow_lt_zpow_iff_right₀ (by norm_num)).mp h
  have hupper := hmono (lt_of_le_of_lt hlow hgreat)
  have hlower := hmono (lt_trans hsmall hhigh)
  simp only [nearestMagnitude, if_neg hdigits]
  rw [if_neg (by omega), if_neg (by omega)]
  refine Double.nearestMagnitude_eq (by simp [Nat.pow_eq]) hfinite hpos ?_
  rw [← value_eq_div]
  exact h

theorem compareScaled_eq (a : Nat) (i : Int) (n : Nat) (j : Int) :
    compareScaled a i n j = compare ((a : ℚ) * (10 : ℚ) ^ i) ((n : ℚ) * (2 : ℚ) ^ j) := by
  have hten := Double.zpow_eq_div 10 (by decide) i
  have htwo := Double.zpow_eq_div 2 (by decide) j
  push_cast at hten htwo
  have hscale : (0 : ℚ) < (10 : ℚ) ^ (-i).toNat * (2 : ℚ) ^ (-j).toNat := by positivity
  have hleft : (a : ℚ) * (10 : ℚ) ^ i * ((10 : ℚ) ^ (-i).toNat * (2 : ℚ) ^ (-j).toNat) =
      (((a * Nat.pow 10 i.toNat) <<< (-j).toNat : Nat) : ℚ) := by
    rw [hten, Nat.shiftLeft_eq]
    simp only [Nat.pow_eq]
    push_cast
    field_simp
  have hright : (n : ℚ) * (2 : ℚ) ^ j * ((10 : ℚ) ^ (-i).toNat * (2 : ℚ) ^ (-j).toNat) =
      (((n * Nat.pow 10 (-i).toNat) <<< j.toNat : Nat) : ℚ) := by
    rw [htwo, Nat.shiftLeft_eq]
    simp only [Nat.pow_eq]
    push_cast
    field_simp
  rw [compareScaled, ← cmp_eq_compare, ← cmp_eq_compare, ← cmp_mul_pos_right hscale, hleft, hright,
    Nat.strictMono_cast.cmp_map_eq]

theorem attracts_of_roundsTo (h : d.roundsTo x = true) : x.Attracts d.value := by
  simp only [roundsTo, compareScaled_eq, Bool.and_eq_true, Bool.or_eq_true, beq_iff_eq,
    compare_gt_iff_gt, compare_lt_iff_lt, compare_eq_iff_eq] at h
  obtain ⟨hlow, hhigh⟩ := h
  refine ⟨?_, ?_, fun hends => ?_⟩
  · rcases hlow with hlt | ⟨-, heq⟩
    · exact le_of_lt hlt
    · exact le_of_eq heq.symm
  · rcases hhigh with hlt | ⟨-, heq⟩
    · exact le_of_lt hlt
    · exact le_of_eq heq
  · rcases hends with heq | heq
    · rcases hlow with hlt | ⟨heven, -⟩
      · exact absurd heq (ne_of_gt hlt)
      · exact heven
    · rcases hhigh with hlt | ⟨heven, -⟩
      · exact absurd heq (ne_of_lt hlt)
      · exact heven

theorem roundsTo_of_onGrid {tie : Tie} {exp : Int} (h : onGrid tie x exp = some d) :
    d.roundsTo x = true := by
  simp only [onGrid] at h
  split at h
  · cases h
  · next hbelow _ => exact Option.some.inj h ▸ hbelow
  · next habove => exact Option.some.inj h ▸ habove
  · next hbelow habove =>
    split at h
    · exact Option.some.inj h ▸ hbelow
    · exact Option.some.inj h ▸ habove
    · split at h
      · exact Option.some.inj h ▸ habove
      · split at h
        · exact Option.some.inj h ▸ hbelow
        · exact Option.some.inj h ▸ habove

-- Trailing zeros add nothing.
theorem value_strip (fuel : Nat) (d : Decimal) : (strip fuel d).value = d.value := by
  induction fuel generalizing d with
  | zero => rfl
  | succ fuel ih =>
      rw [strip]
      split
      · next h =>
        have hdigits : d.digits = d.digits / 10 * 10 := by omega
        rw [ih, value, value, hdigits, Nat.mul_div_cancel _ (by decide), zpow_add₀ (by norm_num)]
        push_cast
        ring
      · rfl

theorem value_exact (x : Double) :
    (exact x).value = x.significand * (2 : ℚ) ^ x.exponent := by
  have htwo := Double.zpow_eq_div 2 (by decide) x.exponent
  push_cast at htwo
  rw [value, Decimal.exact, htwo, Nat.shiftLeft_eq]
  simp only [Nat.pow_eq]
  push_cast
  have hten : (10 : ℚ) ^ min x.exponent 0 = ((10 : ℚ) ^ (-x.exponent).toNat)⁻¹ := by
    rw [← zpow_natCast, ← zpow_neg]
    congr 1
    omega
  rw [hten, show (10 : ℚ) = 5 * 2 by norm_num, mul_pow]
  field_simp

theorem attracts_exact (hnormal : x.Normal) : x.Attracts (exact x).value := by
  have hsig := hnormal.pos
  have hunit : (0 : ℚ) < (2 : ℚ) ^ (x.exponent - 2) := by positivity
  have hvalue : (exact x).value = (4 * x.significand : ℚ) * (2 : ℚ) ^ (x.exponent - 2) := by
    rw [value_exact, zpow_sub₀ (by norm_num)]
    ring
  have hlow : (lowEnd x : ℚ) < 4 * x.significand := by
    have : lowEnd x < 4 * x.significand := by
      unfold lowEnd
      split <;> omega
    exact_mod_cast this
  have hhigh : (4 * x.significand : ℚ) < highEnd x := by
    have : 4 * x.significand < highEnd x := by
      unfold highEnd
      omega
    exact_mod_cast this
  rw [hvalue]
  have hlow := mul_lt_mul_of_pos_right hlow hunit
  have hhigh := mul_lt_mul_of_pos_right hhigh hunit
  exact ⟨hlow.le, hhigh.le, fun h => h.elim (fun h => absurd h hlow.ne')
    (fun h => absurd h hhigh.ne)⟩

-- The decimal that is chosen for a number is rounded to it.
theorem attracts_shortest (hnormal : x.Normal) (tie : Tie) :
    x.Attracts (shortest tie x).value := by
  simp only [shortest, value_strip]
  cases hfound : (List.range 17).findSome?
      (fun n => onGrid tie x (leadingExponent x - (n + 1 : Nat))) with
  | none => exact attracts_exact hnormal
  | some d =>
      obtain ⟨n, -, hgrid⟩ := List.exists_of_findSome?_eq_some hfound
      exact attracts_of_roundsTo (roundsTo_of_onGrid hgrid)

end DocStore.Decimal
