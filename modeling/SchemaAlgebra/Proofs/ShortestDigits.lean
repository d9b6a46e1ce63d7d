import SchemaAlgebra.Proofs.NearestNumbers
import SchemaAlgebra.Proofs.Literals

/-!
# The digits of a number

A floating-point number is written with digits that stand for a decimal in the interval around it, and
so it is read back from them.  The search for the digits ends, because seventeen of them are always
enough: decimals with that many digits lie closer together than the numbers.

A number without a fraction is written without a point, and is read back as an integer if at all.

## Main statements

* `Binary64.exists_onGrid?`: the search finds digits, at the seventeenth place at the latest.
* `Binary64.rounds_shortest`: the digits that are chosen stand for the number.
* `Binary64.shortest_whole`, `Binary64.whole_of_shortest`: they are whole exactly if the number is.
-/

namespace SchemaAlgebra

/-! ## The place of the first digit -/

/-- Powers are compared by comparing larger powers of them. -/
theorem ten_zpow_le (more less : Nat) {tens twos : Int} (hmore : more ≠ 0)
    (hbase : ((10 : ℚ) ^ less) ^ twos ≤ (2 ^ more) ^ twos) (h : tens * more ≤ less * twos) :
    (10 : ℚ) ^ tens ≤ 2 ^ twos := by
  refine le_of_pow_le_pow_left₀ hmore (zpow_nonneg zero_le_two _) ?_
  calc ((10 : ℚ) ^ tens) ^ more = 10 ^ (tens * more) := by rw [zpow_mul, zpow_natCast]
    _ ≤ 10 ^ (less * twos) := zpow_le_zpow_right₀ (by norm_num) h
    _ = (10 ^ less) ^ twos := by rw [zpow_mul, zpow_natCast]
    _ ≤ (2 ^ more) ^ twos := hbase
    _ = (2 ^ twos) ^ more := by rw [← zpow_natCast, ← zpow_natCast, ← zpow_mul, ← zpow_mul, mul_comm]

/-- The logarithm of two to the base ten lies between these two fractions. -/
theorem ten_pow_le_two_pow : 10 ^ 30102 ≤ 2 ^ 100000 ∧ 2 ^ 100000 ≤ 10 ^ 30103 := by decide +kernel

/-- A power of ten is not above a power of two if its exponent is estimated by that logarithm and
made smaller by one. -/
theorem ten_zpow_le_two_zpow {exponent : Int} (hlow : -100000 ≤ exponent) :
    (10 : ℚ) ^ (exponent * 30102 / 100000 - 1) ≤ 2 ^ exponent := by
  obtain ⟨hbelow, habove⟩ := ten_pow_le_two_pow
  rcases le_or_gt 0 exponent with hnonneg | hneg
  · refine ten_zpow_le 100000 30102 (by decide) ?_ (by push_cast; omega)
    refine zpow_le_zpow_left₀ hnonneg (by positivity) ?_
    exact_mod_cast hbelow
  · refine ten_zpow_le 100000 30103 (by decide) ?_ (by push_cast; omega)
    have habove : ((2 : ℚ) ^ 100000) ^ (-exponent) ≤ (10 ^ 30103) ^ (-exponent) := by
      refine zpow_le_zpow_left₀ (by omega) (by positivity) ?_
      exact_mod_cast habove
    have hinv := inv_anti₀ (zpow_pos (by positivity) _) habove
    rwa [← zpow_neg, ← zpow_neg, neg_neg] at hinv

namespace Ratio

theorem ten_zpow_climb_le {r : Ratio} (hden : 0 < r.den) (fuel : Nat) {place : Int}
    (h : (10 : ℚ) ^ place ≤ r.value) : (10 : ℚ) ^ log10.climb r fuel place ≤ r.value := by
  induction fuel generalizing place with
  | zero => exact h
  | succ fuel ih =>
    rw [log10.climb]
    split
    · next hnext =>
      rw [le_iff (den_scaled _ (by decide) _) hden, value_scaled _ (by decide), Nat.cast_one,
        one_mul, Nat.cast_ofNat] at hnext
      exact ih hnext
    · exact h

/-- The place of the first digit is not too large. -/
theorem ten_zpow_log10_le {r : Ratio} (hnum : 0 < r.num) (hden : 0 < r.den)
    (hlow : -100000 ≤ r.log2) : (10 : ℚ) ^ r.log10 ≤ r.value :=
  ten_zpow_climb_le hden 8 ((ten_zpow_le_two_zpow hlow).trans (log2_spec hnum hden).1)

end Ratio

/-! ## The choice of digits -/

namespace Binary64

variable {significand : Nat} {exponent place : Int} {d : Decimal}

/-- What lies strictly between the ends of an interval lies in it. -/
theorem rounds_of_lt {q : ℚ} (hlow : lowEnd significand exponent * 2 ^ exponent < q)
    (hhigh : q < (significand + 1 / 2) * 2 ^ exponent) : Rounds significand exponent q :=
  ⟨hlow.le, hhigh.le, fun h => h.elim (absurd · hlow.ne') (absurd · hhigh.ne)⟩

/-- A number lies in the interval around it. -/
theorem rounds_self : Rounds significand exponent (significand * 2 ^ exponent) := by
  have hunit : (0 : ℚ) < 2 ^ exponent := zpow_pos two_pos _
  refine rounds_of_lt ?_ ?_
  · gcongr
    exact lowEnd_lt
  · gcongr
    linarith

/-- A grid point of a place is looked for in the interval. -/
theorem within_scaled_iff (hpos : 0 < significand) (digits : Nat) :
    within (significand % 2 = 0) (interval significand exponent) (Ratio.scaled digits 10 place) ↔
      Rounds significand exponent (Decimal.value ⟨digits, place⟩) := by
  rw [within_iff hpos (Ratio.den_scaled _ (by decide) _), Ratio.value_scaled _ (by decide),
    Decimal.value, Nat.cast_ofNat]

/-- The last point of a grid that is not above a number. -/
def gridBelow (significand : Nat) (exponent place : Int) : Nat :=
  ((Ratio.scaled significand 2 exponent).unscale 10 place).floor

theorem gridBelow_le (significand : Nat) (exponent place : Int) :
    (Decimal.value ⟨gridBelow significand exponent place, place⟩ ≤ significand * 2 ^ exponent) ∧
      significand * 2 ^ exponent < Decimal.value ⟨gridBelow significand exponent place + 1, place⟩ := by
  have hunit : (0 : ℚ) < 10 ^ place := zpow_pos (by norm_num) _
  have hden : 0 < ((Ratio.scaled significand 2 exponent).unscale 10 place).den :=
    Ratio.den_unscale (Ratio.den_scaled _ two_ne_zero _) (by decide) _
  have hvalue : ((Ratio.scaled significand 2 exponent).unscale 10 place).value =
      significand * 2 ^ exponent / 10 ^ place := by
    rw [Ratio.value_unscale _ (by decide), Ratio.value_scaled _ two_ne_zero, Nat.cast_two,
      Nat.cast_ofNat]
  have hlow := Ratio.floor_le hden
  have hhigh := Ratio.lt_floor_add_one hden
  rw [hvalue] at hlow hhigh
  constructor
  · exact (le_div_iff₀ hunit).mp hlow
  · rw [Decimal.value, Nat.cast_succ]
    exact (div_lt_iff₀ hunit).mp hhigh

/-- A grid point that is found is one of the number's neighbours and lies in the interval. -/
theorem onGrid?_spec (hpos : 0 < significand) (h : onGrid? significand exponent place = some d) :
    d.exponent = place ∧ Rounds significand exponent d.value := by
  unfold onGrid? at h
  extract_lets value inside below above belowFits aboveFits middle nearerBelow at h
  split at h
  · next hbelow =>
    cases h
    rw [Bool.and_eq_true] at hbelow
    exact ⟨rfl, (within_scaled_iff hpos _).mp hbelow.1⟩
  · split at h
    · next habove =>
      cases h
      exact ⟨rfl, (within_scaled_iff hpos _).mp habove⟩
    · cases h

/-- A grid point is found if one of the neighbours lies in the interval. -/
theorem isSome_onGrid? (hpos : 0 < significand)
    (h : Rounds significand exponent
        (Decimal.value ⟨gridBelow significand exponent place, place⟩) ∨
      Rounds significand exponent
        (Decimal.value ⟨gridBelow significand exponent place + 1, place⟩)) :
    (onGrid? significand exponent place).isSome := by
  rw [← within_scaled_iff hpos, ← within_scaled_iff hpos] at h
  unfold onGrid?
  extract_lets value inside below above belowFits aboveFits middle nearerBelow
  have h : belowFits = true ∨ aboveFits = true := h
  split
  · rfl
  · next hbelow =>
    split
    · rfl
    · next habove =>
      rcases h with h | h
      · exact absurd (by simp [h, habove]) hbelow
      · exact absurd h habove

/-- A number that is a grid point is found on the grid. -/
theorem onGrid?_of_eq (hpos : 0 < significand) {digits : Nat}
    (h : (significand : ℚ) * 2 ^ exponent = Decimal.value ⟨digits, place⟩) :
    onGrid? significand exponent place = some ⟨digits, place⟩ := by
  have hunit : (0 : ℚ) < 10 ^ place := zpow_pos (by norm_num) _
  have hden : 0 < (Ratio.scaled significand 2 exponent).den := Ratio.den_scaled _ two_ne_zero _
  have hvalue : (Ratio.scaled significand 2 exponent).value = significand * 2 ^ exponent := by
    rw [Ratio.value_scaled _ two_ne_zero, Nat.cast_two]
  have hbelow : gridBelow significand exponent place = digits := by
    obtain ⟨hlow, hhigh⟩ := gridBelow_le significand exponent place
    rw [h, Decimal.value, Decimal.value] at hlow hhigh
    have hlow := le_of_mul_le_mul_right hlow hunit
    have hhigh := lt_of_mul_lt_mul_right hhigh hunit.le
    have hlow : gridBelow significand exponent place ≤ digits := by exact_mod_cast hlow
    have hhigh : digits < gridBelow significand exponent place + 1 := by exact_mod_cast hhigh
    omega
  have hself : Rounds significand exponent (Decimal.value ⟨digits, place⟩) := h ▸ rounds_self
  have hfits := (within_scaled_iff hpos digits).mpr hself
  -- The number is nearer to itself than to the next grid point.
  have hnearer : ∀ doubled : Ratio, doubled.value = 2 * (digits * 10 ^ place) → 0 < doubled.den →
      (Ratio.scaled (digits + (digits + 1)) 10 place).le doubled = false := by
    intro doubled htwice hdoubled
    rw [← Bool.not_eq_true, Ratio.le_iff (Ratio.den_scaled _ (by decide : 10 ≠ 0) _) hdoubled, not_le,
      htwice, Ratio.value_scaled _ (by decide)]
    push_cast
    linarith
  have htwice : Ratio.value ⟨2 * (Ratio.scaled significand 2 exponent).num,
      (Ratio.scaled significand 2 exponent).den⟩ = 2 * (digits * 10 ^ place) := by
    have hsame : (digits : ℚ) * 10 ^ place = (Ratio.scaled significand 2 exponent).value := by
      rw [hvalue, h, Decimal.value]
    rw [hsame, Ratio.value, Ratio.value]
    push_cast
    ring
  unfold onGrid?
  extract_lets value inside below above belowFits aboveFits middle nearerBelow
  have hbelow : below = digits := hbelow
  have habove : above = digits + 1 := by rw [← hbelow]
  have hbelowFits : belowFits = true := by
    simp only [belowFits, hbelow]
    exact hfits
  have hnearerBelow : nearerBelow = true := by
    simp only [nearerBelow, middle, hbelow, habove, value]
    rw [hnearer _ htwice hden]
    rfl
  rw [hbelowFits, hnearerBelow, hbelow]
  simp

/-- On a grid that is fine enough a point is found. -/
theorem isSome_onGrid?_of_le (h : Canonical significand exponent)
    (hfine : (10 : ℚ) ^ place * 10 ^ 16 ≤ significand * 2 ^ exponent) :
    (onGrid? significand exponent place).isSome := by
  have hunit : (0 : ℚ) < 2 ^ exponent := zpow_pos two_pos _
  have hfits : (significand : ℚ) + 1 ≤ 2 ^ 53 := by exact_mod_cast h.fits
  obtain ⟨hlow, hhigh⟩ := gridBelow_le significand exponent place
  -- The interval is wider than the distance between two grid points.
  have hwide : (10 : ℚ) ^ place <
      (significand + 1 / 2 - lowEnd significand exponent) * 2 ^ exponent := by
    unfold lowEnd
    split
    · next hnarrow =>
      have hpower : (significand : ℚ) = 2 ^ 52 := by exact_mod_cast hnarrow.1
      rw [hpower] at hfine ⊢
      linarith
    · have hmany : (significand : ℚ) * 2 ^ exponent ≤ 2 ^ 53 * 2 ^ exponent := by
        gcongr
        linarith
      linarith
  have hstep : Decimal.value ⟨gridBelow significand exponent place + 1, place⟩ =
      Decimal.value ⟨gridBelow significand exponent place, place⟩ + 10 ^ place := by
    rw [Decimal.value, Decimal.value]
    push_cast
    ring
  refine isSome_onGrid? h.pos ?_
  by_cases hnear : lowEnd significand exponent * 2 ^ exponent <
      Decimal.value ⟨gridBelow significand exponent place, place⟩
  · refine .inl (rounds_of_lt hnear (hlow.trans_lt ?_))
    gcongr
    linarith
  · refine .inr (rounds_of_lt ((mul_lt_mul_of_pos_right lowEnd_lt hunit).trans hhigh) ?_)
    rw [hstep]
    nlinarith

/-- The place of the first digit of a number is not above the number. -/
theorem ten_zpow_log10_le (h : Canonical significand exponent) :
    (10 : ℚ) ^ (Ratio.scaled significand 2 exponent).log10 ≤ significand * 2 ^ exponent := by
  have hnum := Ratio.num_scaled h.pos two_ne_zero exponent
  have hden := Ratio.den_scaled significand two_ne_zero exponent
  have hvalue : (Ratio.scaled significand 2 exponent).value = significand * 2 ^ exponent := by
    rw [Ratio.value_scaled _ two_ne_zero, Nat.cast_two]
  rw [← hvalue]
  refine Ratio.ten_zpow_log10_le hnum hden ?_
  -- A number is not smaller than its last bit.
  have hlow : (2 : ℚ) ^ exponent ≤ (Ratio.scaled significand 2 exponent).value := by
    rw [hvalue]
    exact le_mul_of_one_le_left (zpow_pos two_pos _).le (by exact_mod_cast h.pos)
  have hless := (zpow_lt_zpow_iff_right₀ (one_lt_two : (1 : ℚ) < 2)).mp
    (hlow.trans_lt (Ratio.log2_spec hnum hden).2)
  have hleast : -1074 ≤ exponent := h.least
  omega

/-- The digits that are chosen are a grid point of the interval: with seventeen digits there is one. -/
theorem exists_onGrid? (h : Canonical significand exponent) :
    ∃ place, onGrid? significand exponent place = some (shortest significand exponent) := by
  set top := (Ratio.scaled significand 2 exponent).log10 with htop
  have hlast : (onGrid? significand exponent (top - (16 : Nat))).isSome := by
    refine isSome_onGrid?_of_le h ?_
    have hsplit : (10 : ℚ) ^ (top - (16 : Nat)) * 10 ^ 16 = 10 ^ top := by
      rw [← zpow_natCast (10 : ℚ) 16, ← zpow_add₀ (by norm_num), Int.sub_add_cancel]
    rw [hsplit]
    exact ten_zpow_log10_le h
  have hsearch : (((List.range 17).map fun (n : Nat) => top - (n : Int)).findSome?
      (onGrid? significand exponent)).isSome :=
    List.findSome?_isSome_iff.mpr
      ⟨_, List.mem_map_of_mem (List.mem_range.mpr (by decide : 16 < 17)), hlast⟩
  obtain ⟨d, hd⟩ := Option.isSome_iff_exists.mp hsearch
  obtain ⟨place, -, hplace⟩ := List.exists_of_findSome?_eq_some hd
  refine ⟨place, ?_⟩
  rw [hplace, shortest]
  simp only [← htop, hd, Option.getD_some]

/-- The digits that are chosen stand for a decimal in the interval around the number. -/
theorem rounds_shortest (h : Canonical significand exponent) :
    Rounds significand exponent (shortest significand exponent).value := by
  obtain ⟨place, hfound⟩ := exists_onGrid? h
  exact (onGrid?_spec h.pos hfound).2

/-- A number that is whole has digits for a whole number, because it is a point of every grid that is
fine enough for a fraction. -/
theorem shortest_whole (h : Canonical significand exponent)
    (hwhole : ∃ n : Nat, (significand : ℚ) * 2 ^ exponent = n) :
    ∃ n : Nat, (shortest significand exponent).value = n := by
  obtain ⟨n, hn⟩ := hwhole
  obtain ⟨place, hfound⟩ := exists_onGrid? h
  rcases le_or_gt 0 place with hnonneg | hneg
  · obtain ⟨places, rfl⟩ := Int.eq_ofNat_of_zero_le hnonneg
    obtain ⟨hplace, -⟩ := onGrid?_spec h.pos hfound
    refine ⟨(shortest significand exponent).digits * 10 ^ places, ?_⟩
    rw [Decimal.value, hplace]
    push_cast
    rw [zpow_natCast]
  · obtain ⟨places, hplaces⟩ := Int.eq_ofNat_of_zero_le (show 0 ≤ -place by omega)
    have hpoint : (significand : ℚ) * 2 ^ exponent = Decimal.value ⟨n * 10 ^ places, place⟩ := by
      have hcancel : (10 : ℚ) ^ places * 10 ^ place = 1 := by
        rw [← zpow_natCast, ← hplaces, ← zpow_add₀ (by norm_num), neg_add_cancel, zpow_zero]
      rw [hn, Decimal.value]
      push_cast
      rw [mul_assoc, hcancel, mul_one]
    rw [onGrid?_of_eq h.pos hpoint] at hfound
    exact ⟨n, by rw [← Option.some.inj hfound, ← hpoint, hn]⟩

/-- A number that is not whole has no digits for a whole number, because there is none in the interval
around it. -/
theorem whole_of_shortest (h : Canonical significand exponent)
    (hwhole : ∃ n : Nat, (shortest significand exponent).value = n) :
    ∃ n : Nat, (significand : ℚ) * 2 ^ exponent = n := by
  obtain ⟨n, hn⟩ := hwhole
  have hrounds := rounds_shortest h
  rw [hn] at hrounds
  rcases le_or_gt 0 exponent with hnonneg | hneg
  · obtain ⟨bits, rfl⟩ := Int.eq_ofNat_of_zero_le hnonneg
    exact ⟨significand * 2 ^ bits, by push_cast; rw [zpow_natCast]⟩
  · obtain ⟨bits, hbits⟩ := Int.eq_ofNat_of_zero_le (show 0 ≤ -exponent by omega)
    have hpos : (0 : ℚ) < 2 ^ bits := by positivity
    have hcancel : (2 : ℚ) ^ exponent * 2 ^ bits = 1 := by
      rw [← zpow_natCast, ← hbits, ← zpow_add₀ two_ne_zero, add_neg_cancel, zpow_zero]
    -- In units of the last bit, the whole number is as far away as a whole number can be.
    have hlow : (significand : ℚ) - 1 / 2 ≤ n * 2 ^ bits := by
      have hends := mul_le_mul_of_nonneg_right hrounds.low hpos.le
      rw [mul_assoc, hcancel, mul_one] at hends
      exact (half_le_lowEnd _ _).trans hends
    have hhigh : (n : ℚ) * 2 ^ bits ≤ significand + 1 / 2 := by
      have hends := mul_le_mul_of_nonneg_right hrounds.high hpos.le
      rwa [mul_assoc, hcancel, mul_one] at hends
    have hsame : significand = n * 2 ^ bits := by
      have hless : (significand : ℚ) < n * 2 ^ bits + 1 := by linarith
      have hmore : (n : ℚ) * 2 ^ bits < significand + 1 := by linarith
      have hless : significand < n * 2 ^ bits + 1 := by exact_mod_cast hless
      have hmore : n * 2 ^ bits < significand + 1 := by exact_mod_cast hmore
      omega
    refine ⟨n, ?_⟩
    rw [hsame]
    push_cast
    rw [mul_assoc, mul_comm (2 ^ bits), hcancel, mul_one]

end Binary64

end SchemaAlgebra
