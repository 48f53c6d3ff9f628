/-!
Integers of the language: 64-bit words, with results computed exactly and refused when they do not
fit. `toInt_fitInteger` says that what fits is the same number, and `fitInteger_toInt` that every
word fits.
-/

set_option autoImplicit false
set_option relaxedAutoImplicit false

namespace MiniPascal

/-- The word that holds `n`, if there is one. -/
def fitInteger (n : Int) : Option Int64 :=
  if Int64.minValue.toInt ≤ n ∧ n ≤ Int64.maxValue.toInt then some (Int64.ofInt n) else none

theorem toInt_fitInteger {n : Int} {word : Int64} (hfits : fitInteger n = some word) :
    word.toInt = n := by
  unfold fitInteger at hfits
  split at hfits
  · next hbounds =>
    cases hfits
    rw [Int64.toInt_minValue, Int64.toInt_maxValue] at hbounds
    exact Int64.toInt_ofInt_of_le hbounds.1 (by omega)
  · cases hfits

theorem fitInteger_toInt (n : Int64) : fitInteger n.toInt = some n := by
  rw [fitInteger, if_pos ⟨n.minValue_le_toInt, n.toInt_le⟩, Int64.ofInt_toInt]

/-- The word with the given digits, if there is one. -/
def readInteger (digits : List Char) : Option Int64 :=
  fitInteger (Nat.ofDigitChars 10 digits 0)

end MiniPascal
