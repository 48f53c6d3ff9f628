import MiniPascal.Proofs.Number.Shortest
import MiniPascal.Proofs.Token.Shape

/-!
# The text of a real constant

A finite double is written with digits on both sides of a point, behind a minus sign if its sign bit
is set: `toList_realText`. The digits are those of its shortest decimal, which the double attracts,
so they are rounded to it. `real_constants_survive_printing` draws the conclusions: the text tells a
double from all other numbers, and the scanner finds the double again. A double that was read from
digits is finite and has no sign, so it is always read again: `exists_digits_of_readReal`.
-/

set_option autoImplicit false
set_option relaxedAutoImplicit false

namespace MiniPascal

/-- The number with the given digits before and after its point. -/
def decimalValue (whole fraction : List Char) : ℚ :=
  Nat.ofDigitChars 10 (whole ++ fraction) 0 / 10 ^ fraction.length

/-- The text of digits before and after a point, with a minus sign in front or without one. -/
def decimalText (negative : Bool) (whole fraction : List Char) : List Char :=
  (if negative then ['-'] else []) ++ (whole ++ '.' :: fraction)

/-! ### Digits of a decimal -/

theorem ofDigitChars_zeros (count : Nat) (digits : List Char) :
    Nat.ofDigitChars 10 (List.replicate count '0' ++ digits) 0 = Nat.ofDigitChars 10 digits 0 := by
  induction count with
  | zero => rfl
  | succ count induct =>
    rw [List.replicate_succ, List.cons_append, Nat.ofDigitChars_cons]
    exact induct

/-- Zeros in front make a number long enough for its places. -/
theorem padded_digits {places number : Nat} {padded : List Char}
    (hpadded : List.replicate (places + 1 - (Nat.toDigits 10 number).length) '0' ++
      Nat.toDigits 10 number = padded) :
    places < padded.length ∧ (∀ digit ∈ padded, isDigit digit = true) ∧
      Nat.ofDigitChars 10 padded 0 = number := by
  subst hpadded
  refine ⟨?_, fun digit hmem ↦ ?_, ?_⟩
  · rw [List.length_append, List.length_replicate]
    omega
  · rcases List.mem_append.1 hmem with hmem | hmem
    · rw [List.eq_of_mem_replicate hmem]
      rfl
    · exact isDigit_of_mem_toDigits digit hmem
  · rw [ofDigitChars_zeros, Nat.ofDigitChars_ten_toDigits]

/-- A decimal is laid out in digits that have its value. -/
theorem Decimal.layout_eq (decimal : Decimal) :
    ∃ whole fraction, decimal.layout = whole ++ '.' :: fraction ∧ IsNumeral whole ∧
      IsNumeral fraction ∧ decimalValue whole fraction = decimal.value := by
  rw [layout]
  generalize hplaces : (-decimal.exponent).toNat = places
  generalize hnumber : decimal.coefficient * Nat.pow 10 decimal.exponent.toNat = number
  generalize hpadded : List.replicate (places + 1 - (Nat.toDigits 10 number).length) '0' ++
    Nat.toDigits 10 number = padded
  obtain ⟨hlong, hdigits, hread⟩ := padded_digits hpadded
  have hvalue : decimal.value = number / 10 ^ places := by
    rw [decimal.value_eq_div, hnumber, hplaces, Nat.pow_eq, Nat.cast_pow, Nat.cast_ofNat]
  obtain ⟨whole, fraction, rfl, hwhole, hfraction⟩ : ∃ whole fraction, padded = whole ++ fraction ∧
      whole = padded.take (padded.length - places) ∧
      fraction = padded.drop (padded.length - places) :=
    ⟨_, _, (List.take_append_drop _ _).symm, rfl, rfl⟩
  have hlength : fraction.length = places := by
    have hdropped := congrArg List.length hfraction
    rw [List.length_drop] at hdropped
    omega
  have hne : whole ≠ [] := by
    rintro rfl
    rw [List.nil_append] at hlong
    omega
  rw [← hwhole, ← hfraction]
  rw [List.forall_mem_append] at hdigits
  refine ⟨whole, _, rfl, ⟨hne, hdigits.1⟩, ?_⟩
  cases fraction with
  | nil =>
    rw [List.append_nil] at hread
    change IsNumeral ['0'] ∧ decimalValue whole ['0'] = _
    refine ⟨⟨List.cons_ne_nil _ _, List.forall_mem_singleton.2 rfl⟩, ?_⟩
    rw [hvalue, ← hlength, decimalValue, Nat.ofDigitChars_append, hread]
    simp [Nat.ofDigitChars_cons]
  | cons first others =>
    refine ⟨⟨List.cons_ne_nil _ _, hdigits.2⟩, ?_⟩
    rw [hvalue, ← hlength, ← hread]
    rfl

/-! ### Sign, digits, point and digits -/

/-- The parts of a decimal text are determined by the text. -/
theorem decimalText_inj {negative negative' : Bool} {whole whole' fraction fraction' : List Char}
    (hwhole : IsNumeral whole) (hwhole' : IsNumeral whole')
    (hsame : decimalText negative whole fraction = decimalText negative' whole' fraction') :
    negative = negative' ∧ whole = whole' ∧ fraction = fraction' := by
  have hunsigned (hsame : whole ++ '.' :: fraction = whole' ++ '.' :: fraction') :
      whole = whole' ∧ fraction = fraction' := by
    have hpoint (rest : List Char) : Avoids isDigit ('.' :: rest) := by
      rw [avoids_cons]
      decide
    have htaken := congrArg (List.takeWhile isDigit) hsame
    have hdropped := congrArg (List.dropWhile isDigit) hsame
    rw [takeWhile_run hwhole.2 (hpoint _), takeWhile_run hwhole'.2 (hpoint _)] at htaken
    rw [dropWhile_run hwhole.2 (hpoint _), dropWhile_run hwhole'.2 (hpoint _)] at hdropped
    exact ⟨htaken, List.tail_eq_of_cons_eq hdropped⟩
  -- No digit is a minus sign.
  have hsign {digits rest others : List Char} (hdigits : IsNumeral digits) :
      digits ++ rest ≠ '-' :: others := by
    intro hminus
    obtain ⟨first, later, rfl⟩ := List.exists_cons_of_ne_nil hdigits.1
    have hfirst := hdigits.2 first (List.mem_cons_self ..)
    rw [List.cons_append] at hminus
    rw [List.head_eq_of_cons_eq hminus] at hfirst
    cases hfirst
  cases negative <;> cases negative'
  · exact ⟨rfl, hunsigned hsame⟩
  · exact absurd hsame (@hsign whole _ _ hwhole)
  · exact absurd hsame.symm (@hsign whole' _ _ hwhole')
  · exact ⟨rfl, hunsigned (List.tail_eq_of_cons_eq hsame)⟩

/-- The text of an integer is made of digits and a minus sign. -/
theorem characters_integer (n : Int64) :
    ∀ character ∈ (Value.integer n).text.toList, isDigit character = true ∨ character = '-' := by
  rw [Value.text]
  cases n.toInt with
  | ofNat number => exact fun digit hmem ↦ .inl (@isDigit_of_mem_toString number digit hmem)
  | negSucc number =>
    have htext : toString (Int.negSucc number) = "-" ++ toString (number + 1) := rfl
    intro character hmem
    rw [htext, String.toList_append] at hmem
    rcases List.mem_append.1 hmem with hmem | hmem
    · exact .inr (List.mem_singleton.1 hmem)
    · exact .inl (isDigit_of_mem_toString character hmem)

/-! ### Doubles -/

theorem realOfMagnitude_self (v : Float) :
    realOfMagnitude (realIsNegative v) (realMagnitude v) = v := by
  have hbits : (if realIsNegative v then signBit + realMagnitude v else realMagnitude v) =
      v.toBits.toNat := by
    have hrange := v.toBits.toNat_lt
    rw [realIsNegative, realMagnitude]
    by_cases hnegative : signBit ≤ v.toBits.toNat
    · rw [decide_eq_true hnegative, if_pos rfl]
      simp only [signBit] at hnegative ⊢
      omega
    · rw [decide_eq_false hnegative, if_neg Bool.false_ne_true]
      exact Nat.mod_eq_of_lt (not_le.1 hnegative)
  rw [realOfMagnitude, hbits, UInt64.ofNat_toNat, Float.ofBits_toBits]

/-- The digits are those of a number that the double attracts. -/
theorem toList_realText {v : Float} (hfinite : RealIsFinite v) :
    ∃ whole fraction, (realText v).toList = decimalText (realIsNegative v) whole fraction ∧
      IsNumeral whole ∧ IsNumeral fraction ∧
      (Binary.ofMagnitude (realMagnitude v)).Attracts (decimalValue whole fraction) := by
  obtain ⟨whole, fraction, hlayout, hwhole, hfraction, hvalue⟩ :=
    (shortestDecimal (Binary.ofMagnitude (realMagnitude v))).layout_eq
  refine ⟨whole, fraction, ?_, hwhole, hfraction, ?_⟩
  · rw [RealIsFinite] at hfinite
    rw [realText]
    simp only [hfinite.not_gt, hfinite.ne, if_false]
    rw [String.toList_append, String.toList_ofList, hlayout, decimalText]
    cases realIsNegative v <;> rfl
  · rw [hvalue]
    exact shortestDecimal_attracted (Binary.normal_ofMagnitude _)

/-- The digits of an attracted number are rounded to the double. -/
theorem nearestMagnitude_digits {v : Float} {whole fraction : List Char}
    (hattracts : (Binary.ofMagnitude (realMagnitude v)).Attracts (decimalValue whole fraction)) :
    nearestMagnitude (Nat.ofDigitChars 10 (whole ++ fraction) 0) (10 ^ fraction.length) =
      realMagnitude v := by
  have hten : (10 : ℚ) ^ fraction.length ≠ 0 := pow_ne_zero _ (by norm_num)
  have hvalue : decimalValue whole fraction * (10 ^ fraction.length : Nat) =
      (Nat.ofDigitChars 10 (whole ++ fraction) 0 : Nat) := by
    rw [decimalValue, Nat.cast_pow, Nat.cast_ofNat, div_mul_cancel₀ _ hten]
  rw [nearestMagnitude_of_attracts (Nat.pow_pos (by decide)).ne' (Binary.normal_ofMagnitude _)
    hvalue hattracts, Binary.magnitude_ofMagnitude]

/-- Without a sign bit, the digits are read as the double. -/
theorem exists_digits_of_unsigned {v : Float} (hfinite : RealIsFinite v)
    (hunsigned : realIsNegative v = false) :
    ∃ whole fraction, (realText v).toList = whole ++ '.' :: fraction ∧ IsNumeral whole ∧
      IsNumeral fraction ∧ readReal whole fraction = some v := by
  obtain ⟨whole, fraction, htext, hwhole, hfraction, hattracts⟩ := toList_realText hfinite
  refine ⟨whole, fraction, ?_, hwhole, hfraction, ?_⟩
  · rw [htext, hunsigned]
    rfl
  · have hmagnitude : realMagnitude v < infiniteMagnitude := hfinite
    rw [readReal, Nat.pow_eq]
    simp only [nearestMagnitude_digits hattracts, if_pos hmagnitude]
    rw [← hunsigned, realOfMagnitude_self]

/-- A double that was read from digits is written in digits that are read as the same double. -/
theorem exists_digits_of_readReal {v : Float} {read further : List Char}
    (hread : readReal read further = some v) :
    ∃ whole fraction, (realText v).toList = whole ++ '.' :: fraction ∧ IsNumeral whole ∧
      IsNumeral fraction ∧ readReal whole fraction = some v := by
  simp only [readReal] at hread
  split at hread
  · next hfinite =>
    obtain rfl := Option.some.inj hread
    refine exists_digits_of_unsigned ?_ (realIsNegative_realOfMagnitude hfinite.le false)
    rwa [RealIsFinite, realMagnitude_realOfMagnitude hfinite.le]
  · cases hread

/-- A finite double is determined by its text. -/
theorem eq_of_realText {v other : Float} (hfinite : RealIsFinite v) (hother : RealIsFinite other)
    (hsame : realText other = realText v) : other = v := by
  obtain ⟨whole, fraction, htext, hwhole, -, hattracts⟩ := toList_realText hfinite
  obtain ⟨whole', fraction', htext', hwhole', -, hattracts'⟩ := toList_realText hother
  rw [← hsame, htext'] at htext
  obtain ⟨hsign, rfl, rfl⟩ := decimalText_inj hwhole' hwhole htext
  rw [← realOfMagnitude_self other, ← realOfMagnitude_self v, hsign,
    ← nearestMagnitude_digits hattracts, ← nearestMagnitude_digits hattracts']

theorem decimalValue_nonneg (whole fraction : List Char) : 0 ≤ decimalValue whole fraction :=
  div_nonneg (Nat.cast_nonneg _) (pow_nonneg (by norm_num) _)

/-- The digits of a finite double are those of a number in range. -/
theorem decimalValue_lt {v : Float} {whole fraction : List Char} (hfinite : RealIsFinite v)
    (hattracts : (Binary.ofMagnitude (realMagnitude v)).Attracts (decimalValue whole fraction)) :
    decimalValue whole fraction < overflowBound := by
  have hten : (0 : ℚ) < 10 ^ fraction.length := pow_pos (by norm_num) _
  have hnearest := nearestMagnitude_digits hattracts
  rw [RealIsFinite, ← hnearest, nearestMagnitude_lt_infinite_iff (Nat.pow_pos (by decide)).ne']
    at hfinite
  rw [decimalValue, div_lt_iff₀ hten]
  exact_mod_cast hfinite

/-- Every finite double survives printing. Its text has a sign if its sign bit is set, and digits
on both sides of a point. Their number is rounded to the double, by the program as by the definition
of the nearest double. No other finite double has this text and no integer, and if there is no sign,
the text is read as a constant with this double. -/
theorem real_constants_survive_printing {v : Float} (hfinite : RealIsFinite v) :
    (∃ whole fraction, (realText v).toList = decimalText (realIsNegative v) whole fraction ∧
      IsNumeral whole ∧ IsNumeral fraction ∧
      IsNearest ((if realIsNegative v then -1 else 1) * decimalValue whole fraction) v ∧
      realOfMagnitude (realIsNegative v) (nearestMagnitude
        (Nat.ofDigitChars 10 (whole ++ fraction) 0) (10 ^ fraction.length)) = v) ∧
    (∀ other, RealIsFinite other → realText other = realText v → other = v) ∧
    (∀ n : Int64, (Value.integer n).text ≠ realText v) ∧
    (realIsNegative v = false → ∃ lexemes, tokenize (realText v) = .ok lexemes ∧
      lexemes.map (·.token) = [.real v, .eof]) := by
  obtain ⟨whole, fraction, htext, hwhole, hfraction, hattracts⟩ := toList_realText hfinite
  have hdigits := nearestMagnitude_digits hattracts
  refine ⟨⟨whole, fraction, htext, hwhole, hfraction, ?_, ?_⟩, ?_, ?_, ?_⟩
  · exact isNearest_of_attracts (decimalValue_nonneg _ _) (decimalValue_lt hfinite hattracts)
      hattracts
  · rw [hdigits, realOfMagnitude_self]
  · exact fun other ↦ eq_of_realText hfinite
  · intro n hsame
    have hpoint : '.' ∈ (realText v).toList := by
      rw [htext, decimalText]
      simp
    rw [← hsame] at hpoint
    rcases characters_integer n '.' hpoint with hdigit | hminus
    · exact absurd hdigit (by decide)
    · exact absurd hminus (by decide)
  · intro hunsigned
    obtain ⟨whole, fraction, htext, hwhole, hfraction, hread⟩ :=
      exists_digits_of_unsigned hfinite hunsigned
    have hscans := Scans.real hwhole.1 hwhole.2 hfraction.2 hread (avoids_nil _) .nil
    rw [List.append_nil, ← htext] at hscans
    exact hscans.tokenize

/-- A ten-millionth, which is no double itself. -/
theorem real_constants_survive_printing_small : ∃ v, RealIsFinite v ∧ realText v = "0.0000001" ∧
    ∃ lexemes, tokenize "0.0000001" = .ok lexemes ∧ lexemes.map (·.token) = [.real v, .eof] := by
  have hfinite : RealIsFinite (.ofBits 0x3E7AD7F29ABCAF48) := by
    change realMagnitude (.ofBits 0x3E7AD7F29ABCAF48) < infiniteMagnitude
    decide
  have htext : realText (.ofBits 0x3E7AD7F29ABCAF48) = "0.0000001" := by decide +kernel
  obtain ⟨-, -, -, htokens⟩ := real_constants_survive_printing hfinite
  rw [htext] at htokens
  exact ⟨_, hfinite, htext, htokens (by decide)⟩

end MiniPascal
