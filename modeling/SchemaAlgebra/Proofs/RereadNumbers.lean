import SchemaAlgebra.Proofs.Rereading
import SchemaAlgebra.Proofs.ShortestDigits

/-!
# Numbers that are read back

An integer that fits into a token is read back from its digits.  A floating-point number is read back
if it has a fraction: it is written with a point then, and its digits stand for it.  Without a fraction
it is written like an integer and read as one, if it is not too large; and an infinite one is written
as a name, or as no token at all.

## Main statements

* `Token.number?_renderInt`: an integer is read back.
* `Binary64.reads_render_iff`: a floating-point number is read back exactly if it has a fraction.
-/

namespace SchemaAlgebra

namespace Token

/-! ## The parts of a number -/

theorem digits?_eq {text : List Char} (hne : text ≠ []) (h : ∀ c ∈ text, c.isDigit) :
    digits? text = some (Nat.ofDigitChars 10 text 0) := by
  rw [digits?, if_pos ⟨hne, List.all_eq_true.mpr h⟩, Nat.ofDigitChars_eq_foldl]
  simp only [Nat.mul_comm]

theorem splitLast?_eq_none {separates : Char → Bool} {text : List Char}
    (h : ∀ c ∈ text, separates c = false) : splitLast? separates text = none := by
  have hall : text.reverse.dropWhile (!separates ·) = [] := by
    rw [← List.append_nil text.reverse, List.dropWhile_append_of_pos]
    · rfl
    · intro c hc
      simp [h c (List.mem_reverse.mp hc)]
  rw [splitLast?]
  simp only [hall]

theorem splitLast?_append {separates : Char → Bool} {mark : Char} (hmark : separates mark)
    {back : List Char} (h : ∀ c ∈ back, separates c = false) (front : List Char) :
    splitLast? separates (front ++ mark :: back) = some (front, back) := by
  have hback : ∀ c ∈ back.reverse, (!separates c) = true := by
    intro c hc
    simp [h c (List.mem_reverse.mp hc)]
  have hreverse : (front ++ mark :: back).reverse = back.reverse ++ mark :: front.reverse := by simp
  rw [splitLast?]
  simp [hreverse, List.dropWhile_append_of_pos hback, List.takeWhile_append_of_pos hback, hmark]

/-- A text with or without a minus in front. -/
def signed (negative : Bool) (text : List Char) : List Char :=
  (if negative then ['-'] else []) ++ text

theorem exists_signed (negative : Bool) {text : List Char} (hne : text ≠ []) :
    ∃ c rest, signed negative text = c :: rest ∧ rest ⊆ text := by
  cases negative with
  | true => exact ⟨'-', text, rfl, List.Subset.refl text⟩
  | false =>
    obtain ⟨c, rest, rfl⟩ := List.exists_cons_of_ne_nil hne
    exact ⟨c, rest, rfl, List.subset_cons_self c rest⟩

theorem sign_signed (negative : Bool) {text : List Char} (hne : text ≠ [])
    (hdigits : ∀ c ∈ text, c.isDigit) : sign (signed negative text) = (negative, text) := by
  cases negative with
  | true => rfl
  | false =>
    show sign text = (false, text)
    rw [sign]
    rintro rest rfl
    cases hdigits '-' List.mem_cons_self

/-- Digits without a zero in front are an integer. -/
theorem integer?_signed (negative : Bool) {magnitude : List Char} (hne : magnitude ≠ [])
    (hdigits : ∀ c ∈ magnitude, c.isDigit) (hlead : magnitude = ['0'] ∨ magnitude.head? ≠ some '0') :
    integer? (signed negative magnitude) = some (negative, magnitude) := by
  have hread : (digits? magnitude).isSome := by rw [digits?_eq hne hdigits]; rfl
  rw [integer?, sign_signed negative hne hdigits]
  exact if_pos (hlead.imp_right fun hfirst => ⟨hfirst, hread⟩)

/-- The letters that split off an exponent. -/
def isExponent (c : Char) : Bool := c = 'e' || c = 'E'

theorem isExponent_of_isDigit {c : Char} (h : c.isDigit) : isExponent c = false ∧ c ≠ '.' := by
  have hall : decimalDigits.all fun d => !isExponent d && d != '.' := by decide
  simpa using List.all_eq_true.mp hall c (mem_decimalDigits h)

/-- Digits without a point are read as an integer if it is not too large. -/
theorem number?_signed (negative : Bool) {magnitude : List Char} (hne : magnitude ≠ [])
    (hdigits : ∀ c ∈ magnitude, c.isDigit) (hlead : magnitude = ['0'] ∨ magnitude.head? ≠ some '0')
    {number : Int} (hnumber : number = if negative then -(Nat.ofDigitChars 10 magnitude 0 : Int)
      else Nat.ofDigitChars 10 magnitude 0) :
    number? (signed negative magnitude) = if intFits number then some (.int number) else none := by
  obtain ⟨first, rest, htext, hsub⟩ := exists_signed negative hne
  have hletters : splitLast? isExponent rest = none :=
    splitLast?_eq_none fun c hc => (isExponent_of_isDigit (hdigits c (hsub hc))).1
  have hpoint : splitLast? (· = '.') rest = none :=
    splitLast?_eq_none fun c hc => decide_eq_false (isExponent_of_isDigit (hdigits c (hsub hc))).2
  have hnone : rest.any isExponent = false := by
    rw [List.any_eq_false]
    exact fun c hc => by simp [(isExponent_of_isDigit (hdigits c (hsub hc))).1]
  have hdrop : (signed negative magnitude).drop 1 = rest := by rw [htext]; rfl
  unfold number?
  extract_lets isLetter read
  have hletter : isLetter = isExponent := rfl
  simp only [hdrop, hletter, hletters]
  show read (signed negative magnitude, 0) = _
  simp only [read, hdrop, hpoint, hletter, hnone, integer?_signed negative hne hdigits hlead,
    digits?_eq hne hdigits, Option.bind_eq_bind, Option.bind_some, Bool.false_eq_true, if_false]
  rw [← hnumber]
  rfl

/-- Digits with a point are read as the decimal that they stand for. -/
theorem number?_point (negative : Bool) {whole fraction : List Char} (hwhole : whole ≠ [])
    (hfraction : fraction ≠ []) (hdigits : ∀ c ∈ whole ++ fraction, c.isDigit)
    (hlead : whole = ['0'] ∨ whole.head? ≠ some '0') :
    number? (signed negative (whole ++ '.' :: fraction)) =
      some (.float (.ofDecimal negative
        ⟨Nat.ofDigitChars 10 (whole ++ fraction) 0, -(fraction.length : Int)⟩)) := by
  obtain ⟨hwholeDigits, hfractionDigits⟩ := List.forall_mem_append.mp hdigits
  obtain ⟨first, rest, htext, hsub⟩ := exists_signed negative hwhole
  have hsigned : signed negative (whole ++ '.' :: fraction) = first :: (rest ++ '.' :: fraction) := by
    rw [signed, ← List.append_assoc, ← signed, htext]
    rfl
  have hdrop : (signed negative (whole ++ '.' :: fraction)).drop 1 = rest ++ '.' :: fraction := by
    rw [hsigned]
    rfl
  have htake : (signed negative (whole ++ '.' :: fraction)).take 1 ++ rest = signed negative whole := by
    rw [hsigned, htext]
    rfl
  -- No digit is taken for the letter of an exponent, and the last point is the one between the parts.
  have hletters : splitLast? isExponent (rest ++ '.' :: fraction) = none := by
    refine splitLast?_eq_none fun c hc => ?_
    rcases List.mem_append.mp hc with hc | hc
    · exact (isExponent_of_isDigit (hwholeDigits c (hsub hc))).1
    · rcases List.mem_cons.mp hc with rfl | hc
      · rfl
      · exact (isExponent_of_isDigit (hfractionDigits c hc)).1
  have hpoint : splitLast? (· = '.') (rest ++ '.' :: fraction) = some (rest, fraction) :=
    splitLast?_append rfl (fun c hc =>
      decide_eq_false (isExponent_of_isDigit (hfractionDigits c hc)).2) rest
  unfold number?
  extract_lets isLetter read
  have hletter : isLetter = isExponent := rfl
  simp only [hdrop, hletter, hletters]
  show read (signed negative (whole ++ '.' :: fraction), 0) = _
  have hboth : whole ++ fraction ≠ [] := List.append_ne_nil_of_left_ne_nil hwhole fraction
  simp only [read, hdrop, hpoint, htake, integer?_signed negative hwhole hwholeDigits hlead,
    digits?_eq hfraction hfractionDigits, digits?_eq hboth hdigits, Option.bind_eq_bind,
    Option.bind_some, Int.zero_sub]
  rfl

/-! ## Integers -/

/-- The digits of a number do not start with a zero, unless it is the only one. -/
theorem head?_toDigits {n : Nat} (h : 0 < n) : (Nat.toDigits 10 n).head? ≠ some '0' := by
  induction n using Nat.strong_induction_on with
  | _ n ih =>
    rcases Nat.lt_or_ge n 10 with hsmall | hlarge
    · rw [Nat.toDigits_of_lt_base hsmall, List.head?_cons, ne_eq, Option.some.injEq]
      have hall : ∀ m < 10, 0 < m → ¬m.digitChar = '0' := by decide
      exact hall n hsmall h
    · rw [Nat.toDigits_of_base_le (by decide) hlarge]
      have hfront := ih (n / 10) (by omega) (by omega)
      obtain ⟨c, rest, hdigits⟩ :=
        List.exists_cons_of_ne_nil (Nat.toDigits_ne_nil (n := n / 10) (b := 10))
      rw [hdigits] at hfront ⊢
      exact hfront

theorem lead_toDigits (n : Nat) :
    Nat.toDigits 10 n = ['0'] ∨ (Nat.toDigits 10 n).head? ≠ some '0' := by
  rcases Nat.eq_zero_or_pos n with rfl | hpos
  · exact .inl (Nat.toDigits_zero 10)
  · exact .inr (head?_toDigits hpos)

/-- An integer is read back from its digits if it fits. -/
theorem number?_renderInt (number : Int) :
    number? (renderInt number).toList = if intFits number then some (.int number) else none := by
  have hdigits : ∀ n : Nat, ∀ c ∈ Nat.toDigits 10 n, c.isDigit := fun _ _ => isDigit_of_mem_toDigits
  cases number with
  | ofNat n =>
    have htext : (renderInt (.ofNat n)).toList = signed false (Nat.toDigits 10 n) :=
      String.toList_ofList
    rw [htext]
    refine number?_signed false Nat.toDigits_ne_nil (hdigits n) (lead_toDigits n) ?_
    rw [Nat.ofDigitChars_ten_toDigits]
    rfl
  | negSucc n =>
    have htext : (renderInt (.negSucc n)).toList = signed true (Nat.toDigits 10 (n + 1)) := by
      simp [renderInt, signed]
    rw [htext]
    refine number?_signed true Nat.toDigits_ne_nil (hdigits _) (lead_toDigits _) ?_
    rw [Nat.ofDigitChars_ten_toDigits]
    rfl

end Token

/-! ## Positional notation -/

namespace Binary64

/-- Zeros at the end are taken off, and no others are left there. -/
theorem trimZeros_spec (digits : List Char) :
    (∃ zeros, digits = trimZeros digits ++ List.replicate zeros '0') ∧
      (trimZeros digits).getLast? ≠ some '0' := by
  constructor
  · refine ⟨(digits.reverse.takeWhile (· = '0')).length, ?_⟩
    have hzeros : digits.reverse.takeWhile (· = '0') =
        List.replicate (digits.reverse.takeWhile (· = '0')).length '0' :=
      List.eq_replicate_iff.mpr
        ⟨rfl, fun c hc => by simpa using List.all_eq_true.mp List.all_takeWhile c hc⟩
    have hsplit := List.takeWhile_append_dropWhile (p := (· = '0')) (l := digits.reverse)
    rw [hzeros] at hsplit
    rw [trimZeros, ← List.reverse_replicate, ← List.reverse_append, hsplit, List.reverse_reverse]
  · rw [trimZeros, List.getLast?_reverse]
    intro hlast
    have hfirst := List.head?_dropWhile_not (· = '0') digits.reverse
    rw [hlast] at hfirst
    simp at hfirst

/-- Digits are padded with zeros only as far as to have one of them in front of the point. -/
theorem lead_take_padded {n : Nat} (hpos : 0 < n) (places : Nat) {padded : List Char}
    (hpadded : padded =
      List.replicate (places + 1 - (Nat.toDigits 10 n).length) '0' ++ Nat.toDigits 10 n) :
    padded.take (padded.length - places) = ['0'] ∨
      (padded.take (padded.length - places)).head? ≠ some '0' := by
  rcases Nat.lt_or_ge places (Nat.toDigits 10 n).length with hlong | hshort
  · -- The digits alone reach beyond the point, and they do not start with a zero.
    have hnone : padded = Nat.toDigits 10 n := by
      rw [hpadded, Nat.sub_eq_zero_of_le hlong]
      rfl
    rw [hnone, List.head?_take, if_neg (by omega)]
    exact .inr (Token.head?_toDigits hpos)
  · have hone : padded.length - places = 1 := by
      rw [hpadded, List.length_append, List.length_replicate]
      omega
    obtain ⟨count, hcount⟩ : ∃ count, places + 1 - (Nat.toDigits 10 n).length = count + 1 :=
      Nat.exists_eq_succ_of_ne_zero (by omega)
    rw [hone, hpadded, hcount, List.replicate_succ]
    exact .inl rfl

/-- A decimal with places behind the point: its digits in front of the point, those behind it, and the
zeros at the end that are not written. -/
structure Places (d : Decimal) (whole fraction : List Char) (zeros : Nat) : Prop where
  written : positional d = if fraction = [] then whole else whole ++ '.' :: fraction
  nonempty : whole ≠ []
  digits : ∀ c ∈ whole ++ fraction, c.isDigit
  lead : whole = ['0'] ∨ whole.head? ≠ some '0'
  last : fraction.getLast? ≠ some '0'
  value : Nat.ofDigitChars 10 (whole ++ fraction) 0 * 10 ^ zeros = d.digits
  places : ((fraction.length + zeros : Nat) : Int) = -d.exponent

theorem exists_places {d : Decimal} (hdigits : 0 < d.digits) (hexponent : d.exponent < 0) :
    ∃ whole fraction zeros, Places d whole fraction zeros := by
  set digits := Nat.toDigits 10 d.digits with hdigitsEq
  set places := (-d.exponent).toNat with hplaces
  set padded := List.replicate (places + 1 - digits.length) '0' ++ digits with hpadded
  have hlength : places < padded.length := lt_length_padded d.digits places
  obtain ⟨⟨zeros, hzeros⟩, hlast⟩ := trimZeros_spec (padded.drop (padded.length - places))
  have hcut := List.take_append_drop (padded.length - places) padded
  set whole := padded.take (padded.length - places) with hwhole
  set fraction := trimZeros (padded.drop (padded.length - places)) with hfraction
  have hsplit : padded = whole ++ fraction ++ List.replicate zeros '0' := by
    rw [List.append_assoc, ← hzeros, hcut]
  have hlead : whole = ['0'] ∨ whole.head? ≠ some '0' := lead_take_padded hdigits places hpadded
  have hvalue : Nat.ofDigitChars 10 padded 0 = d.digits := by
    rw [hpadded, Nat.ofDigitChars_append, Nat.ofDigitChars_replicate_zero, Nat.mul_zero,
      Nat.ofDigitChars_ten_toDigits]
  refine ⟨whole, fraction, zeros, ?_, ?_, ?_, hlead, hlast, ?_, ?_⟩
  · unfold positional
    rw [if_neg (Int.not_le.mpr hexponent)]
  · refine List.ne_nil_of_length_pos ?_
    rw [hwhole, List.length_take]
    omega
  · exact fun c hc => isDigit_of_mem_padded (hsplit ▸ List.mem_append_left _ hc)
  · symm
    rw [← hvalue, hsplit, Nat.ofDigitChars_append, Nat.ofDigitChars_replicate_zero, Nat.mul_comm]
  · have hcount : (padded.drop (padded.length - places)).length = fraction.length + zeros := by
      rw [hzeros, List.length_append, List.length_replicate]
    rw [List.length_drop] at hcount
    omega

namespace Places

variable {d : Decimal} {whole fraction : List Char} {zeros : Nat}

/-- The decimal is what its written digits stand for. -/
theorem value_eq (h : Places d whole fraction zeros) :
    Decimal.value ⟨Nat.ofDigitChars 10 (whole ++ fraction) 0, -(fraction.length : Int)⟩ = d.value := by
  have hten : (10 : ℚ) ≠ 0 := by norm_num
  have hexponent : d.exponent = -((fraction.length : Int) + zeros) := by
    have hplaces := h.places
    push_cast at hplaces
    omega
  rw [Decimal.value, Decimal.value, ← h.value, hexponent, neg_add, zpow_add₀ hten]
  push_cast
  rw [mul_assoc, mul_left_comm (10 ^ zeros : ℚ), ← zpow_natCast (10 : ℚ) zeros, ← zpow_add₀ hten,
    add_neg_cancel, zpow_zero, mul_one]

/-- A decimal is whole exactly if no digits are written behind the point. -/
theorem whole_iff (h : Places d whole fraction zeros) :
    (∃ n : Nat, d.value = n) ↔ fraction = [] := by
  rw [← h.value_eq, Decimal.value]
  constructor
  · rintro ⟨n, hn⟩
    rcases List.eq_nil_or_concat fraction with hnil | ⟨front, c, rfl⟩
    · exact hnil
    · rw [List.concat_eq_append] at h hn
      dsimp only at hn
      -- The last digit is no zero, so ten does not divide the number of all digits.
      have hlast : c ≠ '0' := fun hc => h.last (by simp [hc])
      have hdigit : decimalDigits.all fun c =>
          c = '0' || (0 < c.toNat - '0'.toNat && c.toNat - '0'.toNat < 10) := by decide
      have hvalue := List.all_eq_true.mp hdigit c (mem_decimalDigits (h.digits c (by simp)))
      simp only [hlast, decide_false, Bool.false_or, Bool.and_eq_true, decide_eq_true_eq] at hvalue
      obtain ⟨hpos, hsmall⟩ := hvalue
      have hnumber : Nat.ofDigitChars 10 (whole ++ (front ++ [c])) 0 =
          10 * Nat.ofDigitChars 10 (whole ++ front) 0 + (c.toNat - '0'.toNat) := by
        rw [← List.append_assoc, Nat.ofDigitChars_append, Nat.ofDigitChars_cons, Nat.ofDigitChars_nil]
      have hmultiple : Nat.ofDigitChars 10 (whole ++ (front ++ [c])) 0 =
          10 * (n * 10 ^ front.length) := by
        have hpower : (0 : ℚ) < 10 ^ (front.length + 1) := by positivity
        have hscaled : (Nat.ofDigitChars 10 (whole ++ (front ++ [c])) 0 : ℚ) =
            n * 10 ^ (front.length + 1) := by
          rw [← hn, List.length_append, List.length_singleton, zpow_neg, zpow_natCast,
            inv_mul_cancel_right₀ hpower.ne']
        have hscaled : Nat.ofDigitChars 10 (whole ++ (front ++ [c])) 0 =
            n * 10 ^ (front.length + 1) := by
          exact_mod_cast hscaled
        rw [hscaled, Nat.pow_succ]
        ring
      omega
  · rintro rfl
    exact ⟨Nat.ofDigitChars 10 (whole ++ []) 0, by simp⟩

end Places

/-! ## Floating-point numbers -/

/-- Whether a number is finite and not whole. -/
def hasFraction : Binary64 → Bool
  | .finite _ significand exponent =>
    exponent < 0 && significand % 2 ^ (-exponent).toNat ≠ 0
  | .infinite _ => false

/-- A number that some decimal is read as. -/
def IsRead (number : Binary64) : Prop := ∃ negative d, number = ofDecimal negative d

theorem hasFraction_finite_iff {negative : Bool} {significand : Nat} {exponent : Int} :
    (finite negative significand exponent).hasFraction ↔
      ¬∃ n : Nat, (significand : ℚ) * 2 ^ exponent = n := by
  rcases le_or_gt 0 exponent with hnonneg | hneg
  · obtain ⟨bits, rfl⟩ := Int.eq_ofNat_of_zero_le hnonneg
    refine iff_of_false (by simp [hasFraction]) (not_not.mpr ?_)
    exact ⟨significand * 2 ^ bits, by push_cast; rw [zpow_natCast]⟩
  · obtain ⟨bits, hbits⟩ := Int.eq_ofNat_of_zero_le (show 0 ≤ -exponent by omega)
    have hpos : (2 : ℚ) ^ bits ≠ 0 := by positivity
    have hexponent : exponent = -(bits : Int) := by omega
    have hwhole : ∀ n : Nat, (significand : ℚ) * 2 ^ exponent = n ↔ significand = n * 2 ^ bits := by
      intro n
      rw [hexponent, zpow_neg, zpow_natCast, mul_inv_eq_iff_eq_mul₀ hpos]
      exact_mod_cast Iff.rfl
    simp only [hasFraction, hwhole, hbits, Int.toNat_natCast, Bool.and_eq_true, decide_eq_true_eq, hneg,
      true_and, ne_eq, decide_not, Bool.not_eq_true', decide_eq_false_iff_not]
    refine not_congr ⟨fun hzero => ?_, ?_⟩
    · exact ⟨significand / 2 ^ bits, (Nat.div_mul_cancel (Nat.dvd_of_mod_eq_zero hzero)).symm⟩
    · rintro ⟨n, rfl⟩
      exact Nat.mul_mod_left n _

/-- Digits alone are not read as a floating-point number. -/
theorem number?_digits_ne_float {negative : Bool} {text : List Char} (hne : text ≠ [])
    (hdigits : ∀ c ∈ text, c.isDigit) (hlead : text = ['0'] ∨ text.head? ≠ some '0')
    (number : Binary64) : Token.number? (Token.signed negative text) ≠ some (.float number) := by
  rw [Token.number?_signed negative hne hdigits hlead rfl]
  split <;> simp

/-- A decimal without places behind the point is not read as a floating-point number. -/
theorem number?_whole_ne_float {d : Decimal} (hdigits : 0 < d.digits) (hexponent : 0 ≤ d.exponent)
    (negative : Bool) (number : Binary64) :
    Token.number? (Token.signed negative (positional d)) ≠ some (.float number) := by
  rw [positional, if_pos hexponent]
  have hall : ∀ c ∈ Nat.toDigits 10 d.digits ++ List.replicate d.exponent.toNat '0', c.isDigit :=
    fun c hc => (List.mem_append.mp hc).elim isDigit_of_mem_toDigits isDigit_of_mem_zeros
  have hlead := Token.head?_toDigits hdigits
  obtain ⟨c, rest, hcons⟩ := List.exists_cons_of_ne_nil (Nat.toDigits_ne_nil (n := d.digits) (b := 10))
  rw [hcons] at hall hlead ⊢
  exact number?_digits_ne_float (List.cons_ne_nil _ _) hall (.inr hlead) number

/-- The digits that are chosen for a number are not zero. -/
theorem digits_shortest_pos {significand : Nat} {exponent : Int} (h : Canonical significand exponent) :
    0 < (shortest significand exponent).digits := by
  have hpos : 0 < (shortest significand exponent).value :=
    (zpow_pos two_pos (exponent - 1)).trans_le ((rounds_shortest h).le h)
  refine Nat.pos_of_ne_zero fun hzero => ?_
  rw [Decimal.value, hzero, Nat.cast_zero, zero_mul] at hpos
  exact lt_irrefl _ hpos

/-- A number in its own form is read back from its digits if it has a fraction, and otherwise they are
read as no floating-point number. -/
theorem number?_positional {significand : Nat} {exponent : Int} (h : Canonical significand exponent)
    (negative : Bool) :
    Token.number? (Token.signed negative (positional (shortest significand exponent))) =
        some (.float (.finite negative significand exponent)) ↔
      (finite negative significand exponent).hasFraction := by
  have hfraction : (finite negative significand exponent).hasFraction ↔
      ¬∃ n : Nat, (shortest significand exponent).value = n := by
    rw [hasFraction_finite_iff]
    exact not_congr ⟨shortest_whole h, whole_of_shortest h⟩
  have hrounds := rounds_shortest h
  have hpos := digits_shortest_pos h
  rw [hfraction]
  generalize shortest significand exponent = d at *
  rcases le_or_gt 0 d.exponent with hnonneg | hneg
  · -- A decimal without places behind the point is written without one.
    obtain ⟨places, hplaces⟩ := Int.eq_ofNat_of_zero_le hnonneg
    refine iff_of_false (number?_whole_ne_float hpos hnonneg negative _) (not_not.mpr ?_)
    exact ⟨d.digits * 10 ^ places, by rw [Decimal.value, hplaces]; push_cast; rw [zpow_natCast]⟩
  · obtain ⟨whole, fraction, zeros, hsplit⟩ := exists_places hpos hneg
    rw [hsplit.whole_iff, hsplit.written]
    by_cases hnil : fraction = []
    · have hdigits : ∀ c ∈ whole, c.isDigit :=
        fun c hc => hsplit.digits c (List.mem_append_left _ hc)
      rw [if_pos hnil]
      exact iff_of_false (number?_digits_ne_float hsplit.nonempty hdigits hsplit.lead _)
        (not_not.mpr hnil)
    · -- The written digits stand for the decimal, which lies in the interval around the number.
      have hnumber : 0 < Nat.ofDigitChars 10 (whole ++ fraction) 0 :=
        Nat.pos_of_mul_pos_right (hsplit.value ▸ hpos)
      have hread := ofDecimal_eq
        (d := ⟨Nat.ofDigitChars 10 (whole ++ fraction) 0, -(fraction.length : Int)⟩)
        h negative hnumber (hsplit.value_eq.symm ▸ hrounds)
      rw [if_neg hnil,
        Token.number?_point negative hsplit.nonempty hnil hsplit.digits hsplit.lead, hread]
      exact iff_of_true rfl hnil

/-- A number that was read is read back exactly if it has a fraction. -/
theorem reads_render_iff {number : Binary64} (h : number.IsRead) :
    (floatWord number).bind Token.literal? = some (.float number) ↔ number.hasFraction := by
  obtain ⟨sign, d, hread⟩ := h
  -- No name stands for a number, so only the number's own token does.
  have hliteral : ∀ word : Word, word.bind Token.literal? = some (.float number) ↔
      word = some (.float number) := by
    have hname : ∀ text, Reader.namedValue text ≠ .float number := by
      intro text
      unfold Reader.namedValue
      split <;> simp
    intro word
    rcases word with - | token
    · simp
    · cases token <;> simp [Token.literal?, hname]
  cases number with
  | infinite negative =>
    refine iff_of_false ?_ (by simp [hasFraction])
    cases negative <;> decide +kernel
  | finite negative significand exponent =>
    rw [hliteral, floatWord, if_neg (by simp), render]
    rcases canonical_of_ofDecimal hread.symm with rfl | hcanonical
    · -- A zero is written as a digit.
      refine iff_of_false ?_ (by simp [hasFraction])
      exact number?_digits_ne_float (List.cons_ne_nil _ _) (List.forall_mem_singleton.mpr rfl)
        (.inl rfl) _
    · rw [if_neg (Nat.ne_of_gt hcanonical.pos)]
      exact number?_positional hcanonical negative

end Binary64

end SchemaAlgebra
