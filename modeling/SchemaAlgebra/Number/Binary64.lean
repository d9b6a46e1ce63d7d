/-!
# Binary floating-point numbers

The value of a float literal is the nearest number with 53 significant bits and an exponent of
two between -1074 and 971; a tie goes to the even neighbour, and what lies beyond the largest
such number is infinite.  A number is written with the fewest decimal digits that read back as
the same number, and of those with the ones nearest to it; a tie goes to the larger magnitude.
The notation is positional for every magnitude.

All of this is exact integer arithmetic: `Binary64.ofDecimal` reads, `Binary64.shortest` chooses
the digits, and `Binary64.render` writes them.
-/

namespace SchemaAlgebra

/-! ## Numbers -/

/-- A floating-point number: `significand · 2 ^ exponent` with a sign, or an infinity.  The sign
also tells the two zeros apart. -/
inductive Binary64 where
  | finite (negative : Bool) (significand : Nat) (exponent : Int)
  | infinite (negative : Bool)
  deriving DecidableEq, Repr

/-- A number in decimal notation: `digits · 10 ^ exponent`. -/
structure Decimal where
  digits : Nat
  exponent : Int
  deriving DecidableEq, Repr

/-- A positive rational number as numerator and denominator. -/
structure Ratio where
  num : Nat
  den : Nat
  deriving DecidableEq, Repr

namespace Ratio

/-- Multiplies a natural number by a power of `base` with any integer exponent. -/
def scaled (value base : Nat) (exponent : Int) : Ratio :=
  if 0 ≤ exponent then ⟨value * Nat.pow base exponent.toNat, 1⟩
  else ⟨value, Nat.pow base (-exponent).toNat⟩

/-- Divides a ratio by a power of `base` with any integer exponent. -/
def unscale (r : Ratio) (base : Nat) (exponent : Int) : Ratio :=
  if 0 ≤ exponent then ⟨r.num, r.den * Nat.pow base exponent.toNat⟩
  else ⟨r.num * Nat.pow base (-exponent).toNat, r.den⟩

/-- The largest natural number that is not above the ratio. -/
def floor (r : Ratio) : Nat := r.num / r.den

/-- The nearest natural number; a tie goes to the even one. -/
def round (r : Ratio) : Nat :=
  let below := r.floor
  let twice := 2 * (r.num % r.den)
  if twice < r.den then below
  else if r.den < twice then below + 1
  else if below % 2 = 0 then below else below + 1

example : Ratio.round ⟨5, 2⟩ = 2 ∧ Ratio.round ⟨7, 2⟩ = 4 ∧ Ratio.round ⟨8, 3⟩ = 3 := by decide

/-- The order of two ratios, by cross multiplication. -/
def le (a b : Ratio) : Bool := a.num * b.den ≤ b.num * a.den

/-- The exponent of the largest power of two that is not above a positive ratio. -/
def log2 (r : Ratio) : Int :=
  let guess : Int := (r.num.log2 : Int) - (r.den.log2 : Int)
  if (scaled 1 2 guess).le r then guess else guess - 1

/-- The exponent of the largest power of ten that is not above a positive ratio, found by walking
from a first guess that is never too large. -/
def log10 (r : Ratio) : Int :=
  let guess : Int := (r.log2 * 30102 / 100000) - 1
  let rec climb : Nat → Int → Int
    | 0, k => k
    | fuel + 1, k => if (scaled 1 10 (k + 1)).le r then climb fuel (k + 1) else k
  climb 8 guess

end Ratio

namespace Binary64

/-- The number of significant bits. -/
def precision : Nat := 53

/-- The exponent of the smallest positive number. -/
def minExponent : Int := -1074

/-- The exponent of the largest finite numbers. -/
def maxExponent : Int := 971

/-! ## Reading -/

/-- The floating-point number nearest to a positive ratio. -/
def ofRatio (negative : Bool) (r : Ratio) : Binary64 :=
  let exponent := max minExponent (r.log2 - (precision - 1 : Nat))
  let significand := (r.unscale 2 exponent).round
  -- Rounding up may take one bit more than there is room for.
  let carries := significand = Nat.pow 2 precision
  let exponent := if carries then exponent + 1 else exponent
  let significand := if carries then Nat.pow 2 (precision - 1) else significand
  if maxExponent < exponent then .infinite negative else .finite negative significand exponent

/-- The floating-point number nearest to a decimal.  Magnitudes of more than 400 decimal places
in either direction are settled without computing the power of ten. -/
def ofDecimal (negative : Bool) (d : Decimal) : Binary64 :=
  if d.digits = 0 then .finite negative 0 minExponent
  else
    let magnitude : Int := ((Nat.toDigits 10 d.digits).length : Int) + d.exponent
    if 400 < magnitude then .infinite negative
    else if magnitude < -400 then .finite negative 0 minExponent
    else ofRatio negative (Ratio.scaled d.digits 10 d.exponent)

example : ofDecimal false ⟨15, -1⟩ = .finite false (3 * 2 ^ 51) (-52) := by decide +kernel
example : ofDecimal false ⟨1, 400⟩ = .infinite false := by decide +kernel
example : ofDecimal true ⟨1, -400⟩ = .finite true 0 (-1074) := by decide +kernel

/-! ## Choosing digits -/

/-- The interval of ratios that round to `significand · 2 ^ exponent`, by its lower and its upper
end.  Just above a power of two the lower half of the interval is half as wide. -/
def interval (significand : Nat) (exponent : Int) : Ratio × Ratio :=
  let quarter := exponent - 2
  let narrow := significand = Nat.pow 2 (precision - 1) ∧ minExponent < exponent
  let low := if narrow then 4 * significand - 1 else 4 * significand - 2
  (Ratio.scaled low 2 quarter, Ratio.scaled (4 * significand + 2) 2 quarter)

/-- A ratio lies in an interval whose ends belong to it exactly if `closed`. -/
def within (closed : Bool) (ends : Ratio × Ratio) (r : Ratio) : Bool :=
  if closed then ends.1.le r && r.le ends.2 else !r.le ends.1 && !ends.2.le r

/-- The grid point of `10 ^ place` in the rounding interval that is nearest to the number, if the
interval holds one of the number's two neighbours on that grid. -/
def onGrid? (significand : Nat) (exponent place : Int) : Option Decimal :=
  let value := Ratio.scaled significand 2 exponent
  let inside := within (significand % 2 = 0) (interval significand exponent)
  let below := (value.unscale 10 place).floor
  let above := below + 1
  let belowFits := inside (Ratio.scaled below 10 place)
  let aboveFits := inside (Ratio.scaled above 10 place)
  -- The distances to the two neighbours are compared by doubling the number.
  let middle := Ratio.scaled (below + above) 10 place
  let nearerBelow := !middle.le ⟨2 * value.num, value.den⟩
  if belowFits && (!aboveFits || nearerBelow) then some ⟨below, place⟩
  else if aboveFits then some ⟨above, place⟩
  else none

/-- The fewest digits that read back as `significand · 2 ^ exponent`, for a positive significand.
Seventeen digits always do. -/
def shortest (significand : Nat) (exponent : Int) : Decimal :=
  let top := (Ratio.scaled significand 2 exponent).log10
  let grids := (List.range 17).map fun (n : Nat) => top - (n : Int)
  (grids.findSome? (onGrid? significand exponent)).getD ⟨significand, 0⟩

example : shortest (3 * 2 ^ 51) (-52) = ⟨15, -1⟩ := by decide +kernel
example : shortest 1 (-1074) = ⟨5, -324⟩ := by decide +kernel

/-! ## Writing -/

/-- Takes zeros off the end of a list of digits. -/
def trimZeros (digits : List Char) : List Char :=
  (digits.reverse.dropWhile (· = '0')).reverse

/-- A decimal in positional notation, without a point if it is an integer. -/
def positional (d : Decimal) : List Char :=
  let digits := Nat.toDigits 10 d.digits
  if 0 ≤ d.exponent then digits ++ List.replicate d.exponent.toNat '0'
  else
    let places := (-d.exponent).toNat
    let padded := List.replicate (places + 1 - digits.length) '0' ++ digits
    let whole := padded.take (padded.length - places)
    let fraction := trimZeros (padded.drop (padded.length - places))
    if fraction = [] then whole else whole ++ '.' :: fraction

/-- The text of a floating-point number. -/
def render : Binary64 → List Char
  | .infinite negative => (if negative then ['-'] else []) ++ ['i', 'n', 'f']
  | .finite negative significand exponent =>
    (if negative then ['-'] else []) ++
      if significand = 0 then ['0'] else positional (shortest significand exponent)

example : render (ofDecimal true ⟨0, 0⟩) = ['-', '0'] := by decide +kernel
example : render (ofDecimal false ⟨10, -1⟩) = ['1'] := by decide +kernel
example : render (ofDecimal false ⟨1, -3⟩) = ['0', '.', '0', '0', '1'] := by decide +kernel

end Binary64

end SchemaAlgebra
