import SchemaAlgebra.Number.Binary64
import Mathlib.Algebra.Order.Field.Power
import Mathlib.Data.Rat.Cast.Order
import Mathlib.Tactic.FieldSimp
import Mathlib.Tactic.Linarith
import Mathlib.Tactic.NormNum
import Mathlib.Tactic.Positivity
import Mathlib.Tactic.Ring

/-!
# The nearest number

Reading a decimal computes with ratios of natural numbers.  Here they are rational numbers, and
`Binary64.ofRatio` is rounding: what lies in the interval around a number is read as this number.

The interval is that of `Binary64.interval`, whose ends belong to it if the significand is even.  It
is narrower below a power of two, where the numbers lie closer together.

## Main statements

* `Binary64.ofRatio_eq`: a ratio in the interval of a number is read as the number.
* `Binary64.ofDecimal_eq`: so is a decimal.
* `Binary64.canonical_of_ofDecimal`: every number that is read has its own significand and exponent.
-/

namespace SchemaAlgebra

/-! ## Ratios -/

namespace Ratio

/-- The rational number that a ratio is. -/
def value (r : Ratio) : ℚ := r.num / r.den

theorem value_scaled (count : Nat) {base : Nat} (hbase : base ≠ 0) (exponent : Int) :
    (scaled count base exponent).value = count * (base : ℚ) ^ exponent := by
  have hcast : (base : ℚ) ≠ 0 := Nat.cast_ne_zero.mpr hbase
  unfold scaled value
  split
  · next h =>
    obtain ⟨n, rfl⟩ := Int.eq_ofNat_of_zero_le h
    simp
  · next h =>
    obtain ⟨n, hn⟩ := Int.eq_ofNat_of_zero_le (show 0 ≤ -exponent by omega)
    have hexponent : exponent = -(n : Int) := by omega
    simp [hexponent, div_eq_mul_inv]

theorem den_scaled (count : Nat) {base : Nat} (hbase : base ≠ 0) (exponent : Int) :
    0 < (scaled count base exponent).den := by
  unfold scaled
  split
  · exact Nat.one_pos
  · exact Nat.pow_pos (Nat.pos_of_ne_zero hbase)

theorem num_scaled {count base : Nat} (hcount : 0 < count) (hbase : base ≠ 0) (exponent : Int) :
    0 < (scaled count base exponent).num := by
  unfold scaled
  split
  · exact Nat.mul_pos hcount (Nat.pow_pos (Nat.pos_of_ne_zero hbase))
  · exact hcount

theorem value_unscale (r : Ratio) {base : Nat} (hbase : base ≠ 0) (exponent : Int) :
    (r.unscale base exponent).value = r.value / (base : ℚ) ^ exponent := by
  have hcast : (base : ℚ) ≠ 0 := Nat.cast_ne_zero.mpr hbase
  unfold unscale value
  split
  · next h =>
    obtain ⟨n, rfl⟩ := Int.eq_ofNat_of_zero_le h
    simp [div_div]
  · next h =>
    obtain ⟨n, hn⟩ := Int.eq_ofNat_of_zero_le (show 0 ≤ -exponent by omega)
    have hexponent : exponent = -(n : Int) := by omega
    simp [hexponent]
    ring

theorem den_unscale {r : Ratio} (hden : 0 < r.den) {base : Nat} (hbase : base ≠ 0) (exponent : Int) :
    0 < (r.unscale base exponent).den := by
  unfold unscale
  split
  · exact Nat.mul_pos hden (Nat.pow_pos (Nat.pos_of_ne_zero hbase))
  · exact hden

theorem le_iff {a b : Ratio} (ha : 0 < a.den) (hb : 0 < b.den) : a.le b ↔ a.value ≤ b.value := by
  have hda : (0 : ℚ) < a.den := Nat.cast_pos.mpr ha
  have hdb : (0 : ℚ) < b.den := Nat.cast_pos.mpr hb
  rw [le, decide_eq_true_iff, value, value, div_le_div_iff₀ hda hdb]
  exact_mod_cast Iff.rfl

/-- The whole part of a ratio, and what is left of it. -/
theorem value_eq {r : Ratio} (hden : 0 < r.den) :
    r.value = r.floor + (r.num % r.den : Nat) / (r.den : ℚ) := by
  have hne : (r.den : ℚ) ≠ 0 := Nat.cast_ne_zero.mpr (Nat.ne_of_gt hden)
  have hsplit : (r.num : ℚ) = r.den * (r.num / r.den : Nat) + (r.num % r.den : Nat) := by
    exact_mod_cast (Nat.div_add_mod r.num r.den).symm
  rw [value, hsplit, floor]
  field_simp

theorem floor_le {r : Ratio} (hden : 0 < r.den) : (r.floor : ℚ) ≤ r.value := by
  rw [value_eq hden]
  exact le_add_of_nonneg_right (by positivity)

theorem lt_floor_add_one {r : Ratio} (hden : 0 < r.den) : r.value < r.floor + 1 := by
  have hpos : (0 : ℚ) < r.den := Nat.cast_pos.mpr hden
  have hlt : ((r.num % r.den : Nat) : ℚ) < r.den := Nat.cast_lt.mpr (Nat.mod_lt _ hden)
  rw [value_eq hden]
  gcongr
  exact (div_lt_one hpos).mpr hlt

/-- A ratio is rounded to a number that is no farther away than half of one; in the middle between
two numbers it is rounded to the even one. -/
theorem round_spec {r : Ratio} (hden : 0 < r.den) :
    (r.round : ℚ) - 1 / 2 ≤ r.value ∧ r.value ≤ r.round + 1 / 2 ∧
      (r.value = r.round - 1 / 2 ∨ r.value = r.round + 1 / 2 → r.round % 2 = 0) := by
  have hpos : (0 : ℚ) < r.den := Nat.cast_pos.mpr hden
  have hvalue := value_eq hden
  have hlt : 2 * (r.num % r.den) < r.den ↔ ((r.num % r.den : Nat) : ℚ) / r.den < 1 / 2 := by
    rw [div_lt_div_iff₀ hpos two_pos, one_mul, mul_comm]
    exact_mod_cast Iff.rfl
  have hgt : r.den < 2 * (r.num % r.den) ↔ 1 / 2 < ((r.num % r.den : Nat) : ℚ) / r.den := by
    rw [div_lt_div_iff₀ two_pos hpos, one_mul, mul_comm _ (2 : ℚ)]
    exact_mod_cast Iff.rfl
  have hrest : (0 : ℚ) ≤ ((r.num % r.den : Nat) : ℚ) / r.den := by positivity
  have hnext : ((r.num % r.den : Nat) : ℚ) / r.den < 1 :=
    (div_lt_one hpos).mpr (Nat.cast_lt.mpr (Nat.mod_lt _ hden))
  generalize ((r.num % r.den : Nat) : ℚ) / r.den = part at *
  rw [round]
  split
  · next h =>
    have hpart := hlt.mp h
    exact ⟨by linarith, by linarith, by rintro (heq | heq) <;> linarith⟩
  · split
    · next h =>
      have hpart := hgt.mp h
      push_cast
      exact ⟨by linarith, by linarith, by rintro (heq | heq) <;> linarith⟩
    · next hnlt hngt =>
      -- The ratio is in the middle between two numbers.
      have hlow : 1 / 2 ≤ part := not_lt.mp (mt hlt.mpr hnlt)
      have hhigh : part ≤ 1 / 2 := not_lt.mp (mt hgt.mpr hngt)
      split
      · next heven => exact ⟨by linarith, by linarith, fun _ => heven⟩
      · next hodd =>
        push_cast
        exact ⟨by linarith, by linarith, fun _ => by omega⟩

/-- The number that is nearest to a ratio, or the even one of two, is what the ratio is rounded to. -/
theorem round_eq {r : Ratio} (hden : 0 < r.den) {n : Nat} (hlow : (n : ℚ) - 1 / 2 ≤ r.value)
    (hhigh : r.value ≤ n + 1 / 2)
    (htie : r.value = n - 1 / 2 ∨ r.value = n + 1 / 2 → n % 2 = 0) : r.round = n := by
  obtain ⟨hlow', hhigh', htie'⟩ := round_spec hden
  rcases Nat.lt_trichotomy r.round n with hlt | heq | hgt
  · -- Both are nearest, so they are neighbours and both even.
    have hnext : (r.round : ℚ) + 1 ≤ n := by exact_mod_cast hlt
    have heven := htie (.inl (by linarith))
    have heven' := htie' (.inr (by linarith))
    have hone : (n : ℚ) ≤ r.round + 1 := by linarith
    have hone' : n ≤ r.round + 1 := by exact_mod_cast hone
    omega
  · exact heq
  · have hnext : (n : ℚ) + 1 ≤ r.round := by exact_mod_cast hgt
    have heven := htie (.inr (by linarith))
    have heven' := htie' (.inl (by linarith))
    have hone : (r.round : ℚ) ≤ n + 1 := by linarith
    have hone' : r.round ≤ n + 1 := by exact_mod_cast hone
    omega

theorem log2_spec {r : Ratio} (hnum : 0 < r.num) (hden : 0 < r.den) :
    (2 : ℚ) ^ r.log2 ≤ r.value ∧ r.value < (2 : ℚ) ^ (r.log2 + 1) := by
  have hpos : (0 : ℚ) < r.den := Nat.cast_pos.mpr hden
  have htwo : (2 : ℚ) ≠ 0 := two_ne_zero
  set n := r.num.log2 with hn
  set d := r.den.log2 with hd
  have hnlow : (2 : ℚ) ^ (n : Int) ≤ r.num := by
    rw [zpow_natCast]
    exact_mod_cast Nat.log2_self_le (Nat.ne_of_gt hnum)
  have hnhigh : (r.num : ℚ) < 2 ^ ((n : Int) + 1) := by
    rw [← Nat.cast_succ, zpow_natCast]
    exact_mod_cast Nat.lt_log2_self
  have hdlow : (2 : ℚ) ^ (d : Int) ≤ r.den := by
    rw [zpow_natCast]
    exact_mod_cast Nat.log2_self_le (Nat.ne_of_gt hden)
  have hdhigh : (r.den : ℚ) < 2 ^ ((d : Int) + 1) := by
    rw [← Nat.cast_succ, zpow_natCast]
    exact_mod_cast Nat.lt_log2_self
  -- The guess is at most one too large.
  have hlow : (2 : ℚ) ^ ((n : Int) - d - 1) ≤ r.value := by
    rw [value, le_div_iff₀ hpos]
    calc (2 : ℚ) ^ ((n : Int) - d - 1) * r.den ≤ 2 ^ ((n : Int) - d - 1) * 2 ^ ((d : Int) + 1) := by
          gcongr
      _ = 2 ^ (n : Int) := by rw [← zpow_add₀ htwo]; congr 1; ring
      _ ≤ r.num := hnlow
  have hhigh : r.value < (2 : ℚ) ^ ((n : Int) - d + 1) := by
    rw [value, div_lt_iff₀ hpos]
    calc (r.num : ℚ) < 2 ^ ((n : Int) + 1) := hnhigh
      _ = 2 ^ ((n : Int) - d + 1) * 2 ^ (d : Int) := by rw [← zpow_add₀ htwo]; congr 1; ring
      _ ≤ 2 ^ ((n : Int) - d + 1) * r.den := by gcongr
  have hguess : (scaled 1 2 ((n : Int) - d)).le r ↔ (2 : ℚ) ^ ((n : Int) - d) ≤ r.value := by
    rw [le_iff (den_scaled 1 two_ne_zero _) hden, value_scaled 1 two_ne_zero]
    norm_num
  rw [log2, ← hn, ← hd]
  split
  · next h => exact ⟨hguess.mp h, hhigh⟩
  · next h =>
    rw [Int.sub_add_cancel]
    exact ⟨hlow, lt_of_not_ge (mt hguess.mpr h)⟩

/-- The exponent of the largest power of two that is not above a ratio is given by any bounds. -/
theorem log2_eq {r : Ratio} (hnum : 0 < r.num) (hden : 0 < r.den) {exponent : Int}
    (hlow : (2 : ℚ) ^ exponent ≤ r.value) (hhigh : r.value < (2 : ℚ) ^ (exponent + 1)) :
    r.log2 = exponent := by
  obtain ⟨hlow', hhigh'⟩ := log2_spec hnum hden
  have hle := (zpow_lt_zpow_iff_right₀ (one_lt_two : (1 : ℚ) < 2)).mp (lt_of_le_of_lt hlow hhigh')
  have hge := (zpow_lt_zpow_iff_right₀ (one_lt_two : (1 : ℚ) < 2)).mp (lt_of_le_of_lt hlow' hhigh)
  omega

end Ratio

/-! ## Numbers and the intervals around them -/

namespace Binary64

/-- A positive finite number whose significand takes all of its bits, unless the exponent is the least
one. -/
structure Canonical (significand : Nat) (exponent : Int) : Prop where
  pos : 0 < significand
  fits : significand < 2 ^ precision
  least : minExponent ≤ exponent
  greatest : exponent ≤ maxExponent
  full : 2 ^ (precision - 1) ≤ significand ∨ exponent = minExponent

/-- The lower end of the interval around a number, in units of its last bit. -/
def lowEnd (significand : Nat) (exponent : Int) : ℚ :=
  if significand = 2 ^ (precision - 1) ∧ minExponent < exponent then significand - 1 / 4
  else significand - 1 / 2

/-- A rational number lies in the interval around `significand · 2 ^ exponent`.  The ends belong to the
interval of a number whose significand is even. -/
structure Rounds (significand : Nat) (exponent : Int) (q : ℚ) : Prop where
  low : lowEnd significand exponent * 2 ^ exponent ≤ q
  high : q ≤ (significand + 1 / 2) * 2 ^ exponent
  ends : q = lowEnd significand exponent * 2 ^ exponent ∨ q = (significand + 1 / 2) * 2 ^ exponent →
    significand % 2 = 0

variable {significand : Nat} {exponent : Int}

theorem half_le_lowEnd (significand : Nat) (exponent : Int) :
    (significand : ℚ) - 1 / 2 ≤ lowEnd significand exponent := by
  unfold lowEnd
  split <;> linarith

theorem lowEnd_lt : lowEnd significand exponent < significand := by
  unfold lowEnd
  split <;> linarith

/-- The ends that the digits of a number are chosen by are those of the interval. -/
theorem value_interval (hpos : 0 < significand) (exponent : Int) :
    (interval significand exponent).1.value = lowEnd significand exponent * 2 ^ exponent ∧
      (interval significand exponent).2.value = (significand + 1 / 2) * 2 ^ exponent := by
  have hquarter : (2 : ℚ) ^ (exponent - 2) = 2 ^ exponent / 4 := by
    rw [zpow_sub₀ two_ne_zero]
    norm_num
  constructor
  · rw [interval, Ratio.value_scaled _ two_ne_zero, Nat.cast_two, hquarter, lowEnd]
    split
    · next hnarrow =>
      have hnarrow : significand = 2 ^ (precision - 1) ∧ minExponent < exponent := hnarrow
      rw [if_pos hnarrow, Nat.cast_sub (by omega)]
      push_cast
      ring
    · next hwide =>
      have hwide : ¬(significand = 2 ^ (precision - 1) ∧ minExponent < exponent) := hwide
      rw [if_neg hwide, Nat.cast_sub (by omega)]
      push_cast
      ring
  · rw [interval, Ratio.value_scaled _ two_ne_zero, Nat.cast_two, hquarter]
    push_cast
    ring

theorem within_iff (hpos : 0 < significand) {r : Ratio} (hden : 0 < r.den) :
    within (significand % 2 = 0) (interval significand exponent) r ↔
      Rounds significand exponent r.value := by
  obtain ⟨hlow, hhigh⟩ := value_interval hpos exponent
  have hlowDen : 0 < (interval significand exponent).1.den := Ratio.den_scaled _ two_ne_zero _
  have hhighDen : 0 < (interval significand exponent).2.den := Ratio.den_scaled _ two_ne_zero _
  have hbelow := Ratio.le_iff hlowDen hden
  have habove := Ratio.le_iff hden hhighDen
  have hbelow' := Ratio.le_iff hden hlowDen
  have habove' := Ratio.le_iff hhighDen hden
  rw [hlow] at hbelow hbelow'
  rw [hhigh] at habove habove'
  by_cases heven : significand % 2 = 0
  · simp only [within, heven, decide_true, if_true, Bool.and_eq_true, hbelow, habove]
    exact ⟨fun h => ⟨h.1, h.2, fun _ => heven⟩, fun h => ⟨h.low, h.high⟩⟩
  · simp only [within, heven, decide_false, Bool.false_eq_true, if_false, Bool.and_eq_true,
      Bool.not_eq_true', ← Bool.not_eq_true, hbelow', habove', not_le]
    constructor
    · rintro ⟨habove, hbelow⟩
      refine ⟨habove.le, hbelow.le, fun h => ?_⟩
      exact h.elim (absurd · (ne_of_gt habove)) (absurd · (ne_of_lt hbelow))
    · intro h
      exact ⟨lt_of_le_of_ne h.low fun heq => heven (h.ends (.inl heq.symm)),
        lt_of_le_of_ne h.high fun heq => heven (h.ends (.inr heq))⟩

/-- Where the numbers near a ratio have the exponent of the number, the ratio is rounded to its
significand. -/
theorem round_unscale_eq {r : Ratio} (hden : 0 < r.den)
    (hrounds : Rounds significand exponent r.value) :
    (r.unscale 2 exponent).round = significand := by
  have hunit : (0 : ℚ) < 2 ^ exponent := zpow_pos two_pos _
  have hvalue : (r.unscale 2 exponent).value = r.value / 2 ^ exponent := by
    rw [Ratio.value_unscale r two_ne_zero, Nat.cast_two]
  have hlow := (le_div_iff₀ hunit).mpr hrounds.low
  have hhigh := (div_le_iff₀ hunit).mpr hrounds.high
  have hhalf := half_le_lowEnd significand exponent
  refine Ratio.round_eq (Ratio.den_unscale hden two_ne_zero _) (hvalue ▸ hhalf.trans hlow)
    (hvalue ▸ hhigh) ?_
  rw [hvalue, div_eq_iff hunit.ne', div_eq_iff hunit.ne']
  rintro (heq | heq)
  · refine hrounds.ends (.inl (le_antisymm ?_ hrounds.low))
    rw [heq]
    gcongr
  · exact hrounds.ends (.inr heq)

/-- The interval around a number lies below the first number that has a bit too many. -/
theorem Rounds.lt (h : Canonical significand exponent) {q : ℚ}
    (hrounds : Rounds significand exponent q) :
    q < 2 ^ (exponent + 53) := by
  have hfits : (significand : ℚ) + 1 ≤ 2 ^ 53 := by exact_mod_cast h.fits
  calc
    q ≤ (significand + 1 / 2) * 2 ^ exponent := hrounds.high
    _ < 2 ^ (53 : Int) * 2 ^ exponent := by
      gcongr
      norm_num
      linarith
    _ = 2 ^ (exponent + 53) := by rw [zpow_add₀ two_ne_zero, mul_comm]

/-- The interval around a number does not reach below half of the number's last bit. -/
theorem Rounds.le (h : Canonical significand exponent) {q : ℚ}
    (hrounds : Rounds significand exponent q) :
    2 ^ (exponent - 1) ≤ q := by
  have hpos : (1 : ℚ) ≤ significand := by exact_mod_cast h.pos
  calc
    (2 : ℚ) ^ (exponent - 1) = (1 - 1 / 2) * 2 ^ exponent := by
      rw [zpow_sub_one₀ two_ne_zero]
      ring
    _ ≤ (significand - 1 / 2) * 2 ^ exponent := by gcongr
    _ ≤ lowEnd significand exponent * 2 ^ exponent := by
      gcongr
      exact half_le_lowEnd _ _
    _ ≤ q := hrounds.low

/-- Where the numbers around the ratio are as far apart as those around the number, the ratio is rounded
in units of the number's last bit. -/
theorem ofRatio_eq_of_le (h : Canonical significand exponent) (negative : Bool) {r : Ratio}
    (hnum : 0 < r.num) (hden : 0 < r.den) (hrounds : Rounds significand exponent r.value)
    (hcommon : (2 : ℚ) ^ (exponent + 52) ≤ r.value ∨ exponent = minExponent) :
    ofRatio negative r = .finite negative significand exponent := by
  obtain ⟨hlog, hlog'⟩ := Ratio.log2_spec hnum hden
  have hless : r.log2 < exponent + 53 :=
    (zpow_lt_zpow_iff_right₀ (one_lt_two : (1 : ℚ) < 2)).mp (lt_of_le_of_lt hlog (hrounds.lt h))
  have hexponent : max minExponent (r.log2 - ((precision - 1 : Nat) : Int)) = exponent := by
    show max minExponent (r.log2 - 52) = exponent
    rcases hcommon with habove | hleast
    · have hmore : exponent + 52 < r.log2 + 1 :=
        (zpow_lt_zpow_iff_right₀ (one_lt_two : (1 : ℚ) < 2)).mp (lt_of_le_of_lt habove hlog')
      have hmin := h.least
      omega
    · omega
  have hcarries : ¬significand = Nat.pow 2 precision := Nat.ne_of_lt h.fits
  rw [ofRatio, hexponent, round_unscale_eq hden hrounds]
  simp only [hcarries, if_false, not_lt.mpr h.greatest]

/-- Only the interval around a power of two reaches below it, and only by half as much as above it. -/
theorem Rounds.power_of_lt (h : Canonical significand exponent) {q : ℚ}
    (hrounds : Rounds significand exponent q) (hunder : q < 2 ^ (exponent + 52))
    (hmin : exponent ≠ minExponent) :
    significand = 2 ^ 52 ∧ ((2 : ℚ) ^ 52 - 1 / 4) * 2 ^ exponent ≤ q := by
  have hpower : significand = 2 ^ 52 := by
    refine Nat.le_antisymm (not_lt.mp fun hlarge => ?_) (h.full.resolve_right hmin)
    have hlarge : (2 : ℚ) ^ 52 + 1 ≤ significand := by exact_mod_cast hlarge
    have hhalf := half_le_lowEnd significand exponent
    refine absurd (hrounds.low.trans_lt hunder) (not_lt.mpr ?_)
    rw [add_comm, zpow_add₀ two_ne_zero]
    gcongr
    norm_num
    linarith
  have hnarrow : significand = 2 ^ (precision - 1) ∧ minExponent < exponent :=
    ⟨hpower, lt_of_le_of_ne h.least (Ne.symm hmin)⟩
  have hlow := hrounds.low
  rw [lowEnd, if_pos hnarrow, hpower] at hlow
  exact ⟨hpower, by exact_mod_cast hlow⟩

/-- Below a power of two the numbers are closer together, and the last of them is carried over. -/
theorem ofRatio_eq_of_lt (h : Canonical significand exponent) (negative : Bool) {r : Ratio}
    (hnum : 0 < r.num) (hden : 0 < r.den) (hrounds : Rounds significand exponent r.value)
    (hunder : r.value < 2 ^ (exponent + 52)) (hmin : exponent ≠ minExponent) :
    ofRatio negative r = .finite negative significand exponent := by
  have hunit : (0 : ℚ) < 2 ^ exponent := zpow_pos two_pos _
  obtain ⟨hpower, hlow⟩ := hrounds.power_of_lt h hunder hmin
  -- The ratio lies below the power of two that the number is, so it is measured with half the unit.
  have hlog : r.log2 = exponent + 51 := by
    refine Ratio.log2_eq hnum hden (le_trans ?_ hlow) ?_
    · rw [add_comm, zpow_add₀ two_ne_zero]
      gcongr
      norm_num
    · rw [add_assoc]
      exact hunder
  have hexponent : max minExponent (r.log2 - ((precision - 1 : Nat) : Int)) = exponent - 1 := by
    have hleast := h.least
    show max minExponent (r.log2 - 52) = exponent - 1
    omega
  have hround : (r.unscale 2 (exponent - 1)).round = Nat.pow 2 precision := by
    have hvalue : (r.unscale 2 (exponent - 1)).value = 2 * (r.value / 2 ^ exponent) := by
      rw [Ratio.value_unscale r two_ne_zero, Nat.cast_two, zpow_sub_one₀ two_ne_zero]
      field_simp
    have hlow' := (le_div_iff₀ hunit).mpr hlow
    have hhigh' : r.value / 2 ^ exponent < 2 ^ 52 := by
      rw [div_lt_iff₀ hunit]
      rw [add_comm, zpow_add₀ two_ne_zero] at hunder
      exact_mod_cast hunder
    have heven : Nat.pow 2 precision % 2 = 0 := by decide
    have hcast : ((Nat.pow 2 precision : Nat) : ℚ) = 2 * 2 ^ 52 := by norm_num [precision]
    refine Ratio.round_eq (Ratio.den_unscale hden two_ne_zero _) ?_ ?_ fun _ => heven
    · rw [hvalue, hcast]
      linarith
    · rw [hvalue, hcast]
      linarith
  rw [ofRatio, hexponent, hround]
  simp only [if_true, Int.sub_add_cancel, not_lt.mpr h.greatest, if_false, hpower]
  rfl

/-- A ratio in the interval around a number is read as this number. -/
theorem ofRatio_eq (h : Canonical significand exponent) (negative : Bool) {r : Ratio}
    (hnum : 0 < r.num) (hden : 0 < r.den) (hrounds : Rounds significand exponent r.value) :
    ofRatio negative r = .finite negative significand exponent := by
  by_cases hcommon : (2 : ℚ) ^ (exponent + 52) ≤ r.value ∨ exponent = minExponent
  · exact ofRatio_eq_of_le h negative hnum hden hrounds hcommon
  · obtain ⟨hunder, hmin⟩ := not_or.mp hcommon
    exact ofRatio_eq_of_lt h negative hnum hden hrounds (not_le.mp hunder) hmin

end Binary64

/-- The rational number that a decimal is. -/
def Decimal.value (d : Decimal) : ℚ := d.digits * 10 ^ d.exponent

namespace Binary64

variable {significand : Nat} {exponent : Int}

/-- The number of places of a decimal bounds it on both sides. -/
theorem value_bounds {d : Decimal} (hdigits : 0 < d.digits) :
    (10 : ℚ) ^ (((Nat.toDigits 10 d.digits).length : Int) + d.exponent - 1) ≤ d.value ∧
      d.value < 10 ^ (((Nat.toDigits 10 d.digits).length : Int) + d.exponent) := by
  have hten : (10 : ℚ) ≠ 0 := by norm_num
  obtain ⟨places, hplaces⟩ : ∃ places, (Nat.toDigits 10 d.digits).length = places + 1 :=
    Nat.exists_eq_succ_of_ne_zero (Nat.ne_of_gt Nat.length_toDigits_pos)
  have hhigh : d.digits < 10 ^ (places + 1) :=
    (Nat.length_toDigits_le_iff (by decide) (Nat.succ_pos places)).mp (Nat.le_of_eq hplaces)
  have hlow : 10 ^ places ≤ d.digits := by
    rcases Nat.eq_zero_or_pos places with rfl | hpos
    · exact hdigits
    · refine not_lt.mp fun hlt => ?_
      have hshort := (Nat.length_toDigits_le_iff (by decide) hpos).mpr hlt
      omega
  have hhigh : (d.digits : ℚ) < 10 ^ (places + 1) := by exact_mod_cast hhigh
  have hlow : (10 : ℚ) ^ places ≤ d.digits := by exact_mod_cast hlow
  rw [hplaces, Decimal.value]
  constructor
  · have hsplit : ((places + 1 : Nat) : Int) + d.exponent - 1 = (places : Int) + d.exponent := by
      push_cast
      ring
    rw [hsplit, zpow_add₀ hten, zpow_natCast]
    gcongr
  · rw [zpow_add₀ hten, zpow_natCast]
    gcongr

/-- Four hundred decimal places are more than a number can have on either side of the point. -/
theorem two_zpow_le : (2 : ℚ) ^ (1075 : Int) ≤ 10 ^ (400 : Int) := by
  have hnat : (2 : Nat) ^ 1075 ≤ 10 ^ 400 := by decide +kernel
  have hcast : ((2 ^ 1075 : Nat) : ℚ) ≤ (10 ^ 400 : Nat) := Nat.cast_le.mpr hnat
  rw [Nat.cast_pow, Nat.cast_pow, ← zpow_natCast, ← zpow_natCast] at hcast
  exact hcast

/-- A decimal in the interval around a number is read as this number. -/
theorem ofDecimal_eq (h : Canonical significand exponent) (negative : Bool) {d : Decimal}
    (hdigits : 0 < d.digits) (hrounds : Rounds significand exponent d.value) :
    ofDecimal negative d = .finite negative significand exponent := by
  have hten : (1 : ℚ) < 10 := by norm_num
  obtain ⟨hlow, hhigh⟩ := value_bounds hdigits
  -- No number is as large or as small as the decimals that are not computed.
  have hsmall : d.value < 10 ^ (400 : Int) := calc
    d.value < 2 ^ (exponent + 53) := hrounds.lt h
    _ ≤ 2 ^ (1075 : Int) := by
      have hgreatest : exponent ≤ 971 := h.greatest
      exact zpow_le_zpow_right₀ one_le_two (by omega)
    _ ≤ 10 ^ (400 : Int) := two_zpow_le
  have hlarge : (10 : ℚ) ^ (-400 : Int) ≤ d.value := calc
    (10 : ℚ) ^ (-400 : Int) ≤ 2 ^ (-1075 : Int) := by
      rw [zpow_neg, zpow_neg]
      exact inv_anti₀ (zpow_pos two_pos _) two_zpow_le
    _ ≤ 2 ^ (exponent - 1) := by
      have hleast : -1074 ≤ exponent := h.least
      exact zpow_le_zpow_right₀ one_le_two (by omega)
    _ ≤ d.value := hrounds.le h
  have hupper : ¬400 < ((Nat.toDigits 10 d.digits).length : Int) + d.exponent := by
    have hless := (zpow_lt_zpow_iff_right₀ hten).mp (hlow.trans_lt hsmall)
    omega
  have hlower : ¬((Nat.toDigits 10 d.digits).length : Int) + d.exponent < -400 := by
    have hmore := (zpow_lt_zpow_iff_right₀ hten).mp (hlarge.trans_lt hhigh)
    omega
  have hvalue : (Ratio.scaled d.digits 10 d.exponent).value = d.value := by
    rw [Ratio.value_scaled _ (by decide), Decimal.value, Nat.cast_ofNat]
  have hnum := Ratio.num_scaled hdigits (by decide : 10 ≠ 0) d.exponent
  rw [ofDecimal, if_neg (Nat.ne_of_gt hdigits)]
  simp only [hupper, hlower, if_false]
  exact ofRatio_eq h negative hnum (Ratio.den_scaled _ (by decide) _) (hvalue ▸ hrounds)

/-- What a ratio is rounded to has at most one bit too many, and has all of its bits unless its
exponent is the least one. -/
theorem round_bounds {r : Ratio} (hnum : 0 < r.num) (hden : 0 < r.den)
    (hexponent : max minExponent (r.log2 - ((precision - 1 : Nat) : Int)) = exponent) :
    (r.unscale 2 exponent).round ≤ 2 ^ precision ∧
      (2 ^ (precision - 1) ≤ (r.unscale 2 exponent).round ∨ exponent = minExponent) := by
  have hexponent : max minExponent (r.log2 - 52) = exponent := hexponent
  have hunit : (0 : ℚ) < 2 ^ exponent := zpow_pos two_pos _
  have hvalue : (r.unscale 2 exponent).value = r.value / 2 ^ exponent := by
    rw [Ratio.value_unscale r two_ne_zero, Nat.cast_two]
  obtain ⟨hlow, hhigh⟩ := Ratio.log2_spec hnum hden
  obtain ⟨hbelow, habove, -⟩ := Ratio.round_spec (Ratio.den_unscale hden two_ne_zero exponent)
  rw [hvalue] at hbelow habove
  have hscaled : ∀ bits : Int, (2 : ℚ) ^ (bits + exponent) / 2 ^ exponent = 2 ^ bits := by
    intro bits
    rw [zpow_add₀ two_ne_zero, mul_div_cancel_right₀ _ hunit.ne']
  constructor
  · have hless : r.value / 2 ^ exponent < 2 ^ (53 : Int) := by
      rw [← hscaled 53]
      refine div_lt_div_of_pos_right (hhigh.trans_le ?_) hunit
      exact zpow_le_zpow_right₀ one_le_two (by omega)
    have hround : ((r.unscale 2 exponent).round : ℚ) < 2 ^ (53 : Int) + 1 := by linarith
    exact Nat.lt_succ_iff.mp (by exact_mod_cast hround)
  · by_cases hleast : exponent = minExponent
    · exact .inr hleast
    · have hmore : (2 : ℚ) ^ (52 : Int) ≤ r.value / 2 ^ exponent := by
        rw [← hscaled 52]
        refine div_le_div_of_nonneg_right (le_trans ?_ hlow) hunit.le
        exact zpow_le_zpow_right₀ one_le_two (by omega)
      have hround : (2 : ℚ) ^ (52 : Int) < (r.unscale 2 exponent).round + 1 := by linarith
      exact .inl (Nat.lt_succ_iff.mp (by exact_mod_cast hround))

theorem canonical_of_ofRatio {negative sign : Bool} {r : Ratio} (hnum : 0 < r.num) (hden : 0 < r.den)
    (h : ofRatio negative r = .finite sign significand exponent) :
    significand = 0 ∨ Canonical significand exponent := by
  obtain ⟨hfits, hfull⟩ := round_bounds hnum hden rfl
  have hleast := le_max_left minExponent (r.log2 - ((precision - 1 : Nat) : Int))
  unfold ofRatio at h
  generalize max minExponent (r.log2 - ((precision - 1 : Nat) : Int)) = unit at *
  dsimp only at h
  by_cases hcarries : (r.unscale 2 unit).round = Nat.pow 2 precision
  · simp only [hcarries, if_true] at h
    split at h
    · cases h
    · next hgreatest =>
      cases h
      exact .inr ⟨by decide, by decide, by omega, by omega, .inl (Nat.le_refl _)⟩
  · simp only [hcarries, if_false] at h
    split at h
    · cases h
    · next hgreatest =>
      cases h
      rcases Nat.eq_zero_or_pos (r.unscale 2 exponent).round with hzero | hpos
      · exact .inl hzero
      · exact .inr ⟨hpos, lt_of_le_of_ne hfits hcarries, hleast, by omega, hfull⟩

/-- What is read is infinite, a zero or a number in its own form. -/
theorem canonical_of_ofDecimal {negative sign : Bool} {d : Decimal}
    (h : ofDecimal negative d = .finite sign significand exponent) :
    significand = 0 ∨ Canonical significand exponent := by
  unfold ofDecimal at h
  split at h
  · cases h
    exact .inl rfl
  · next hdigits =>
    dsimp only at h
    split at h
    · cases h
    · split at h
      · cases h
        exact .inl rfl
      · exact canonical_of_ofRatio (Ratio.num_scaled (Nat.pos_of_ne_zero hdigits) (by decide) _)
          (Ratio.den_scaled _ (by decide) _) h

end Binary64

end SchemaAlgebra
