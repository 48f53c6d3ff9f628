import MiniPascal.Number.Nearest
import MiniPascal.Number.Shortest

/-!
The text of real constants: how a double is written, and how digits are read.

A finite double is written with a point and without an exponent, by the fewest digits that read back
as the same double (`realText`). Digits before and after a point are read as the nearest double, and
refused when that is not finite (`readReal`).
-/

set_option autoImplicit false
set_option relaxedAutoImplicit false

namespace MiniPascal

/-- A decimal in positional notation, with at least one digit on each side of the point. -/
def Decimal.layout (decimal : Decimal) : List Char :=
  let places := (-decimal.exponent).toNat
  let digits := Nat.toDigits 10 (decimal.coefficient * Nat.pow 10 decimal.exponent.toNat)
  let padded := List.replicate (places + 1 - digits.length) '0' ++ digits
  let whole := padded.take (padded.length - places)
  let fraction := padded.drop (padded.length - places)
  whole ++ '.' :: (if fraction.isEmpty then ['0'] else fraction)

/-- The text of a double. All NaNs share one text. -/
def realText (value : Float) : String :=
  let magnitude := realMagnitude value
  if infiniteMagnitude < magnitude then "NaN"
  else
    let sign := if realIsNegative value then "-" else ""
    if magnitude = infiniteMagnitude then sign ++ "inf"
    else sign ++ String.ofList (shortestDecimal (Binary.ofMagnitude magnitude)).layout

/-- The double nearest to the number with the given digits before and after its point, if finite. -/
def readReal (whole fraction : List Char) : Option Float :=
  let coefficient := Nat.ofDigitChars 10 (whole ++ fraction) 0
  let magnitude := nearestMagnitude coefficient (Nat.pow 10 fraction.length)
  if magnitude < infiniteMagnitude then some (realOfMagnitude false magnitude) else none

end MiniPascal
