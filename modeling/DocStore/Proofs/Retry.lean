import DocStore.Retry
import Mathlib.Algebra.Group.Nat.Defs
import Mathlib.Order.Monotone.Basic

-- The delays between the attempts of a retry, for settings that are any two words: the longest delay is
-- right for all of them, and what is drawn below it only while its microseconds fit a word.
namespace DocStore.RetryConfig

section Words

-- The product of two words, or the greatest word if it does not fit.
def saturatingProduct (a b : UInt64) : UInt64 :=
  if a.toNat * b.toNat ≤ maxWord then a * b else UInt64.ofNat maxWord

-- The longest delay after an attempt, held in words all along.
def longestDelayWord (base limit : UInt64) (attempt : Nat) : UInt64 :=
  min (saturatingProduct base (1 <<< (min attempt 63).toUInt64)) limit

theorem toNat_min (a b : UInt64) : (min a b).toNat = min a.toNat b.toNat := by
  show (if a ≤ b then a else b).toNat = _
  by_cases h : a ≤ b
  · rw [if_pos h, Nat.min_eq_left (UInt64.le_iff_toNat_le.mp h)]
  · rw [if_neg h, Nat.min_eq_right]
    exact Nat.le_of_not_le (fun hle => h (UInt64.le_iff_toNat_le.mpr hle))

theorem toNat_saturatingProduct (a b : UInt64) :
    (saturatingProduct a b).toNat = min (a.toNat * b.toNat) maxWord := by
  rw [saturatingProduct]
  by_cases hfits : a.toNat * b.toNat ≤ maxWord
  · rw [if_pos hfits, Nat.min_eq_left hfits, UInt64.toNat_mul]
    exact Nat.mod_eq_of_lt (Nat.lt_succ_of_le hfits)
  · rw [if_neg hfits, Nat.min_eq_right (Nat.le_of_not_le hfits)]
    rfl

-- The greatest shift reaches the last bit of a word.
theorem toNat_oneShifted {n : Nat} (h : n ≤ 63) : ((1 : UInt64) <<< n.toUInt64).toNat = 2 ^ n := by
  have hpow : 2 ^ n ≤ 2 ^ 63 := Nat.pow_le_pow_right (by decide) h
  have hshift : n % 2 ^ 64 % 64 = n := by omega
  rw [UInt64.toNat_shiftLeft, Nat.toUInt64_eq, UInt64.toNat_ofNat', hshift, UInt64.toNat_one,
    Nat.one_shiftLeft, Nat.mod_eq_of_lt (by omega)]

-- Words lose nothing of the delay: the factor fits, and a product that does not fit is above the limit.
theorem toNat_longestDelayWord (config : RetryConfig) {base limit : UInt64}
    (hbase : config.baseDelay = base.toNat) (hlimit : config.maxDelay = limit.toNat) (n : Nat) :
    (longestDelayWord base limit n).toNat = config.longestDelay n := by
  rw [longestDelayWord, toNat_min, toNat_saturatingProduct,
    toNat_oneShifted (Nat.min_le_right n 63), longestDelay, hbase, hlimit, Nat.shiftLeft_eq]

end Words

variable (config : RetryConfig)

theorem longestDelay_le_maxDelay (n : Nat) : config.longestDelay n ≤ config.maxDelay :=
  Nat.min_le_right _ _

theorem longestDelay_mono : Monotone config.longestDelay := by
  intro m n h
  have hshift : min m 63 ≤ min n 63 := by omega
  have hproduct : config.baseDelay <<< min m 63 ≤ config.baseDelay <<< min n 63 := by
    rw [Nat.shiftLeft_eq, Nat.shiftLeft_eq]
    exact Nat.mul_le_mul_left _ (Nat.pow_le_pow_right (by decide) hshift)
  simp only [longestDelay]
  omega

-- As long as doublings are counted, the delay is what they make of the first one, up to the limit.
theorem longestDelay_eq (hlimit : config.maxDelay ≤ maxWord) {n : Nat} (h : n ≤ 63) :
    config.longestDelay n = min (config.baseDelay * 2 ^ n) config.maxDelay := by
  rw [longestDelay, Nat.min_eq_left h, Nat.shiftLeft_eq, Nat.min_assoc, Nat.min_eq_right hlimit]

-- The longest delay in microseconds.
def fullDelay (n : Nat) : Nat := config.longestDelay n * 1000

-- A delay in microseconds that may be drawn after an attempt.
def Draws (n micros : Nat) : Prop :=
  (config.delayBounds n).1 ≤ micros ∧ micros ≤ (config.delayBounds n).2

variable {config} {n micros : Nat}

theorem delayBounds_of_steady (h : config.jitter = false) :
    config.delayBounds n = (config.fullDelay n, config.fullDelay n) := by
  simp [delayBounds, fullDelay, h]

theorem delayBounds_of_jitter (h : config.jitter = true) :
    config.delayBounds n =
      (config.fullDelay n % (maxWord + 1) / 2, config.fullDelay n % (maxWord + 1)) := by
  by_cases hzero : config.longestDelay n = 0
  · simp [delayBounds, fullDelay, hzero]
  · simp [delayBounds, fullDelay, h, hzero]

-- There is always something to draw, and nothing that is drawn is above the longest delay.
theorem exists_draws (config : RetryConfig) (n : Nat) : ∃ micros, config.Draws n micros := by
  refine ⟨(config.delayBounds n).2, ?_, Nat.le_refl _⟩
  cases h : config.jitter with
  | false => rw [delayBounds_of_steady h]
  | true =>
      rw [delayBounds_of_jitter h]
      exact Nat.div_le_self _ 2

theorem draws_le (hdraws : config.Draws n micros) : micros ≤ config.fullDelay n := by
  have hupper := hdraws.2
  cases h : config.jitter with
  | false => rwa [delayBounds_of_steady h] at hupper
  | true =>
      rw [delayBounds_of_jitter h] at hupper
      exact Nat.le_trans hupper (Nat.mod_le _ _)

theorem draws_iff_of_fits (h : config.jitter = true) (hfits : config.fullDelay n ≤ maxWord) :
    config.Draws n micros ↔ config.fullDelay n / 2 ≤ micros ∧ micros ≤ config.fullDelay n := by
  rw [Draws, delayBounds_of_jitter h, Nat.mod_eq_of_lt (Nat.lt_succ_of_le hfits)]

-- Where the microseconds of the longest delay do not fit a word, what is left of them is less than
-- half of them, and so is all that may be drawn.
theorem draws_lt_half (h : config.jitter = true) (hlost : maxWord < config.fullDelay n)
    (hdraws : config.Draws n micros) : micros < config.fullDelay n / 2 := by
  have hupper := hdraws.2
  rw [delayBounds_of_jitter h] at hupper
  have hword : 1 ≤ config.fullDelay n / (maxWord + 1) := Nat.div_pos hlost (by decide)
  simp only [fullDelay, maxWord] at hupper hword ⊢
  omega

-- With jitter, every delay is within the half of the longest one and all of it if and only if the
-- microseconds of the longest one fit a word.
theorem draws_within_iff (h : config.jitter = true) :
    (∀ micros, config.Draws n micros →
      config.fullDelay n / 2 ≤ micros ∧ micros ≤ config.fullDelay n) ↔
        config.fullDelay n ≤ maxWord := by
  constructor
  · intro hwithin
    by_contra hlost
    obtain ⟨micros, hdraws⟩ := config.exists_draws n
    exact absurd (hwithin micros hdraws).1
      (Nat.not_le_of_lt (draws_lt_half h (Nat.lt_of_not_le hlost) hdraws))
  · intro hfits micros hdraws
    exact (draws_iff_of_fits h hfits).mp hdraws

-- A delay that is to double without a limit comes down to nothing.
example : delayBounds ⟨100, 1, maxWord, true⟩ 61 = (0, 0) := by decide

end DocStore.RetryConfig
