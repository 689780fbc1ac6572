import StackCalc.Proofs.Extremes
import StackCalc.Proofs.Figures

/-!
The display text of a number tells the number. The text of a magnitude is a numeral with or without a power of ten, and
it has one value however it is read. The shortest decimal of a double is nearest to that double, so equal texts are
texts of the same double; the sign stands in front, also for zeros, and infinities have texts of their own.
-/

namespace StackCalc

/-! ### Numerals with a power of ten -/

namespace Figures

/-- The digits of an exponent, with or without a zero before them. -/
theorem natOfDigits_exponent (n : Nat) :
    natOfDigits (if (Nat.toDigits 10 n).length < 2 then '0' :: Nat.toDigits 10 n else Nat.toDigits 10 n) = n := by
  split
  · exact (natOfDigits_zeros_append isDigit_toDigits 1).trans (natOfDigits_toDigits n)
  · exact natOfDigits_toDigits n

theorem exponentText_inj {e e' : Int} (h : exponentText e = exponentText e') : e = e' := by
  obtain ⟨hsign, hdigits⟩ := List.cons.inj h
  have habs : e.natAbs = e'.natAbs := by
    rw [← natOfDigits_exponent e.natAbs, hdigits, natOfDigits_exponent]
  have hneg : e < 0 ↔ e' < 0 := by
    by_cases he : e < 0 <;> by_cases he' : e' < 0 <;> simp [he, he'] at hsign ⊢
  omega

theorem newline_not_mem_exponentText (e : Int) : '\n' ∉ exponentText e := by
  intro hmem
  rcases List.mem_cons.mp hmem with hmem | hmem
  · split at hmem <;> cases hmem
  · have hdigit : ('\n').isDigit = true := by
      split at hmem
      · exact (List.mem_cons.mp hmem).elim (fun h => by cases h) (isDigit_toDigits _)
      · exact isDigit_toDigits _ hmem
    cases hdigit

/-- The text of a power of ten, if there is one. -/
def powerText : Option Int → List Char
  | none => []
  | some e => 'e' :: exponentText e

/-- A numeral, with or without a power of ten after it, and its value. -/
def Spells (text : List Char) (v : ℚ) : Prop :=
  ∃ (whole fraction numeral : List Char) (power : Option Int), IsNumeral whole fraction numeral ∧
    text = numeral ++ powerText power ∧
    v = (Decimal.ofDigits false whole fraction).magnitude * 10 ^ power.getD 0

theorem powerText_inj {power power' : Option Int} (h : powerText power = powerText power') : power = power' := by
  cases power <;> cases power'
  · rfl
  · cases h
  · cases h
  · exact congrArg some (exponentText_inj (List.cons.inj h).2)

theorem takeWhile_spelled {whole fraction numeral : List Char} (h : IsNumeral whole fraction numeral)
    (power : Option Int) : (numeral ++ powerText power).takeWhile (· ≠ 'e') = numeral := by
  have hnumeral : ∀ c ∈ numeral, decide (c ≠ 'e') = true := by
    intro c hc
    rw [decide_eq_true_iff]
    rintro rfl
    rcases h.mem hc with hdigit | hpoint
    · cases hdigit
    · cases hpoint
  rw [List.takeWhile_append_of_pos hnumeral]
  cases power <;> simp [powerText]

/-- A text has one value. -/
theorem Spells.unique {text : List Char} {v v' : ℚ} (h : Spells text v) (h' : Spells text v') : v = v' := by
  obtain ⟨whole, fraction, numeral, power, hnumeral, rfl, rfl⟩ := h
  obtain ⟨whole', fraction', numeral', power', hnumeral', heq, rfl⟩ := h'
  obtain rfl : numeral = numeral' := by
    rw [← takeWhile_spelled hnumeral power, heq, takeWhile_spelled hnumeral' power']
  obtain rfl : power = power' := powerText_inj (List.append_cancel_left heq)
  rw [← hnumeral.whole_eq, ← hnumeral'.whole_eq, ← hnumeral.fraction_eq, ← hnumeral'.fraction_eq]

theorem Spells.exists_cons {text : List Char} {v : ℚ} (h : Spells text v) :
    ∃ c more, text = c :: more ∧ c.isDigit = true := by
  obtain ⟨whole, fraction, numeral, power, hnumeral, rfl, -⟩ := h
  obtain ⟨c, more, rfl, hc⟩ := hnumeral.exists_cons
  exact ⟨c, _, rfl, hc⟩

theorem Spells.newline_not_mem {text : List Char} {v : ℚ} (h : Spells text v) : '\n' ∉ text := by
  obtain ⟨whole, fraction, numeral, power, hnumeral, rfl, -⟩ := h
  intro hmem
  rcases List.mem_append.mp hmem with hmem | hmem
  · exact hnumeral.newline_not_mem hmem
  · cases power with
    | none => cases hmem
    | some e => exact (List.mem_cons.mp hmem).elim (fun h => by cases h) (newline_not_mem_exponentText e)

theorem spells_scientific {f : Figures} (hf : Literal.isDigitRow f.digits = true) : Spells f.scientific f.value := by
  obtain ⟨hne, hdigits⟩ := isDigitRow_iff.mp hf
  obtain ⟨c, rest, hcons⟩ := List.exists_cons_of_ne_nil hne
  rw [hcons] at hdigits
  have hwhole : Literal.isDigitRow [c] = true := isDigitRow_iff.mpr ⟨by simp, by simpa using hdigits c (by simp)⟩
  refine ⟨[c], rest, _, some (f.point - 1), ⟨hwhole, fun d hd => hdigits d (by simp [hd]), rfl⟩, ?_, ?_⟩
  · rw [scientific, hcons]
    cases rest <;> simp [powerText]
  · -- The point stands after the first digit, and the power of ten moves it back.
    have hexponent : f.point - f.digits.length = -(rest.length : Int) + (f.point - 1) := by
      rw [hcons, List.length_cons]
      omega
    rw [value, hexponent, zpow_add₀ (by norm_num), hcons, Decimal.magnitude, ← mul_assoc]
    rfl

/-- The display text of a magnitude has the value of its figures. -/
theorem spells_display {f : Figures} (hf : Literal.isDigitRow f.digits = true) :
    Spells (if f.isModerate then f.positional ['.', '0'] else f.scientific) f.value := by
  split
  · obtain ⟨whole, fraction, hnumeral, hvalue⟩ := exists_positional hf (.inr rfl)
    exact ⟨whole, fraction, _, none, hnumeral, (List.append_nil _).symm, by simp [hvalue]⟩
  · exact spells_scientific hf

end Figures

/-! ### Doubles and their texts -/

namespace Double

/-- A number is nearest to one double only. -/
theorem Near.unique {v : ℚ} {bits bits' : Nat} (hv : 0 ≤ v) (h : Near v bits) (h' : Near v bits') : bits = bits' := by
  have hquotient : v = (v.num.toNat : ℚ) / v.den := by
    have hnum : ((v.num.toNat : Int) : ℚ) = v.num := by rw [Int.toNat_of_nonneg (Rat.num_nonneg.mpr hv)]
    rw [← Int.cast_natCast, hnum, Rat.num_div_den]
  rw [← h _ _ v.den_pos hquotient, ← h' _ _ v.den_pos hquotient]

open Float.Model UnpackedFloat in
theorem ofFloat_ne_nan {x : Float} (h : x.isNaN = false) : ofFloat x ≠ .nan := by
  intro hnan
  have hfields : x.toBits.toNat / 2 ^ 52 % 2 ^ 11 = 2047 ∧ x.toBits.toNat % 2 ^ 52 ≠ 0 := by
    unfold ofFloat at hnan
    simp only [Nat.pow_eq] at hnan
    split at hnan
    next hexponent =>
      split at hnan
      · cases hnan
      next hfraction => exact ⟨hexponent, hfraction⟩
    next => split at hnan <;> cases hnan
  refine isNaN_eq_false_iff.mp h ?_
  have hexponent : @unpackExponent Format.binary64 x.toModel.toBits.toBitVec = -1#11 := by
    apply BitVec.eq_of_toNat_eq
    rw [unpackExponent_def, BitVec.extractLsb'_toNat, Nat.shiftRight_eq_div_pow]
    exact hfields.1
  have hfraction : @unpackMantissa Format.binary64 x.toModel.toBits.toBitVec ≠ 0#52 := by
    intro hzero
    have hzero := congrArg BitVec.toNat hzero
    rw [unpackMantissa_def, BitVec.extractLsb'_toNat] at hzero
    exact hfields.2 hzero
  rw [Float.Model.unpack, UnpackedFloat.unpack]
  exact (if_pos hexponent).trans (if_neg hfraction)

end Double

namespace Number

/-- The text of a magnitude and the double with that magnitude and a sign. -/
def Depicts (negative : Bool) (body : List Char) (x : Float) : Prop :=
  body = "inf".toList ∧ Double.infinity negative = x ∨
    ∃ v bits, Figures.Spells body v ∧ 0 ≤ v ∧ Double.Near v bits ∧ Double.ofMagnitudeBits negative bits = x

variable {x y : Float} {negative negative' : Bool} {body body' : List Char}

/-- The display text of a number is its sign and the text of its magnitude. -/
theorem exists_display (h : x.isNaN = false) :
    ∃ negative body, Depicts negative body x ∧ (display x).toList = (if negative then ['-'] else []) ++ body := by
  cases hparts : Double.ofFloat x with
  | nan => exact absurd hparts (Double.ofFloat_ne_nan h)
  | infinite negative =>
    refine ⟨negative, _, .inl ⟨rfl, Double.ofFloat_eq_infinite hparts⟩, ?_⟩
    simp only [display, textWith, hparts]
    cases negative <;> rfl
  | finite negative mantissa scale =>
    obtain ⟨hfits, hx⟩ := Double.ofFloat_eq_finite hparts
    have hnear := near_shortestDecimal negative hfits
    rw [← Figures.value_ofDecimal] at hnear
    refine ⟨negative, _, .inr ⟨_, _, Figures.spells_display (Figures.isDigitRow_ofDecimal _), ?_, hnear, hx⟩, ?_⟩
    · rw [Figures.value]
      positivity
    · simp only [display, textWith, hparts, String.toList_ofList]
      exact Literal.signed_eq negative _

theorem Depicts.head?_ne (h : Depicts negative body x) : body.head? ≠ some '-' := by
  rcases h with ⟨rfl, -⟩ | ⟨v, bits, hspells, -⟩
  · decide
  · obtain ⟨c, more, rfl, hc⟩ := hspells.exists_cons
    rintro ⟨⟩
    cases hc

theorem Depicts.newline_not_mem (h : Depicts negative body x) : '\n' ∉ body := by
  rcases h with ⟨rfl, -⟩ | ⟨v, bits, hspells, -⟩
  · decide
  · exact hspells.newline_not_mem

theorem Depicts.unique (hx : Depicts negative body x) (hy : Depicts negative body y) : x = y := by
  -- Digits do not begin with a letter.
  have hdigit : ∀ {v}, ¬Figures.Spells "inf".toList v := by
    intro v hspells
    obtain ⟨c, more, heq, hc⟩ := hspells.exists_cons
    cases heq
    cases hc
  rcases hx with ⟨rfl, rfl⟩ | ⟨v, bits, hspells, hv, hnear, rfl⟩
  · rcases hy with ⟨-, hy⟩ | ⟨v, bits, hspells, -⟩
    · exact hy
    · exact absurd hspells hdigit
  · rcases hy with ⟨rfl, -⟩ | ⟨v', bits', hspells', -, hnear', rfl⟩
    · exact absurd hspells hdigit
    · obtain rfl := hspells.unique hspells'
      rw [hnear.unique hv hnear']

theorem sign_unique (hbody : body.head? ≠ some '-') (hbody' : body'.head? ≠ some '-')
    (h : (if negative then ['-'] else []) ++ body = (if negative' then ['-'] else []) ++ body') :
    negative = negative' ∧ body = body' := by
  cases negative <;> cases negative'
  · exact ⟨rfl, h⟩
  · rw [show body = '-' :: body' from h] at hbody
    exact absurd rfl hbody
  · rw [← show '-' :: body = body' from h] at hbody'
    exact absurd rfl hbody'
  · exact ⟨rfl, (List.cons.inj h).2⟩

/-- Numbers with the same display text are the same, also zeros and infinities. -/
theorem display_inj (hx : x.isNaN = false) (hy : y.isNaN = false) (h : display x = display y) : x = y := by
  obtain ⟨negative, body, hdepicts, htext⟩ := exists_display hx
  obtain ⟨negative', body', hdepicts', htext'⟩ := exists_display hy
  rw [h, htext'] at htext
  obtain ⟨rfl, rfl⟩ := sign_unique hdepicts'.head?_ne hdepicts.head?_ne htext
  exact hdepicts.unique hdepicts'

theorem newline_not_mem_display (h : x.isNaN = false) : '\n' ∉ (display x).toList := by
  obtain ⟨negative, body, hdepicts, htext⟩ := exists_display h
  rw [htext]
  intro hmem
  rcases List.mem_append.mp hmem with hmem | hmem
  · cases negative <;> simp at hmem
  · exact hdepicts.newline_not_mem hmem

end Number

end StackCalc
