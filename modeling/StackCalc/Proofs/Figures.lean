import StackCalc.Number.Display
import StackCalc.Number.Numeral
import StackCalc.Proofs.Numerals

/-!
The source text of a number reads back as the number. The decimal of a double is found by reading decimals back, and the
exact one behind them is read without rounding. Its figures and their positional text have the same value, and the
nearest double depends on the value only. So the text of a positive double is a plain numeral of that double, also where
a power of ten is written out.
-/

namespace StackCalc

/-! ### Doubles and their bit patterns -/

theorem roundHalfEven_mul_self {k : Nat} (hk : 0 < k) (n : Nat) : roundHalfEven (n * k) k = n := by
  simp [roundHalfEven, Nat.mul_div_cancel n hk, hk]

namespace Double

/-- A mantissa and a scale as a finite double has them: the mantissa has 53 bits, or fewer at the lowest scale. -/
structure Fits (mantissa scale : Nat) : Prop where
  lt : mantissa < 2 ^ 53
  le : 0 < scale → 2 ^ 52 ≤ mantissa
  scale_le : scale ≤ 2045

theorem ofMagnitudeBits_of_toNat {x : Float} {sign bits : Nat} (h : x.toBits.toNat = sign * 2 ^ 63 + bits) :
    ofMagnitudeBits (sign == 1) bits = x := by
  have hlt : x.toBits.toNat < 2 ^ 64 := x.toBits.toNat_lt
  have hpattern : (if (sign == 1) = true then Nat.pow 2 63 + bits else bits) = x.toBits.toNat := by
    rw [h]
    simp only [Nat.pow_eq, beq_iff_eq]
    split <;> omega
  rw [ofMagnitudeBits, hpattern, UInt64.ofNat_toNat, Float.ofBits_toBits]

/-- The parts of a finite double fit, and they make up its bit pattern. -/
theorem ofFloat_eq_finite {x : Float} {negative : Bool} {mantissa scale : Nat}
    (h : ofFloat x = .finite negative mantissa scale) :
    Fits mantissa scale ∧ ofMagnitudeBits negative (scale * Nat.pow 2 52 + mantissa) = x := by
  -- The fields of the bit pattern are sign, exponent and fraction; a normal number has one more bit in front.
  have hparts : ∃ sign, x.toBits.toNat = sign * 2 ^ 63 + (scale * 2 ^ 52 + mantissa) ∧ negative = (sign == 1) ∧
      Fits mantissa scale := by
    have hlt : x.toBits.toNat < 2 ^ 64 := x.toBits.toNat_lt
    unfold ofFloat at h
    generalize x.toBits.toNat = bits at h hlt ⊢
    refine ⟨bits / 2 ^ 63, ?_⟩
    simp only [Nat.pow_eq] at h
    split at h
    · split at h <;> cases h
    · split at h
      · cases h
        exact ⟨by omega, rfl, ⟨by omega, by omega, by omega⟩⟩
      · cases h
        exact ⟨by omega, rfl, ⟨by omega, by omega, by omega⟩⟩
  obtain ⟨sign, hbits, rfl, hfits⟩ := hparts
  exact ⟨hfits, ofMagnitudeBits_of_toNat hbits⟩

theorem ofFloat_eq_infinite {x : Float} {negative : Bool} (h : ofFloat x = .infinite negative) :
    infinity negative = x := by
  have hparts : ∃ sign, x.toBits.toNat = sign * 2 ^ 63 + infinityBits ∧ negative = (sign == 1) := by
    have hlt : x.toBits.toNat < 2 ^ 64 := x.toBits.toNat_lt
    unfold ofFloat at h
    generalize x.toBits.toNat = bits at h hlt ⊢
    refine ⟨bits / 2 ^ 63, ?_⟩
    simp only [Nat.pow_eq, infinityBits] at h ⊢
    split at h
    · split at h
      · cases h
        exact ⟨by omega, rfl⟩
      · cases h
    · split at h <;> cases h
  obtain ⟨sign, hbits, rfl⟩ := hparts
  exact ofMagnitudeBits_of_toNat hbits

theorem Fits.log2_eq {mantissa scale : Nat} (h : Fits mantissa scale) : (mantissa * 2 ^ scale).log2 - 52 = scale := by
  obtain ⟨hlt, hle, -⟩ := h
  cases scale with
  | zero =>
    -- A short mantissa has a smaller logarithm, but no scale below zero.
    have hlog : mantissa.log2 ≤ 52 := by
      by_cases hzero : mantissa = 0
      · simp [hzero]
      · exact Nat.le_of_lt_succ ((Nat.log2_lt hzero).mpr hlt)
    rw [Nat.pow_zero, Nat.mul_one]
    omega
  | succ scale =>
    have hmantissa := hle (Nat.succ_pos scale)
    have hpow : 0 < 2 ^ (scale + 1) := Nat.two_pow_pos _
    have hlog : (mantissa * 2 ^ (scale + 1)).log2 = 52 + (scale + 1) := by
      rw [Nat.log2_eq_iff (Nat.mul_pos (by omega) hpow).ne']
      constructor
      · calc 2 ^ (52 + (scale + 1))
            = 2 ^ 52 * 2 ^ (scale + 1) := Nat.pow_add 2 52 (scale + 1)
          _ ≤ mantissa * 2 ^ (scale + 1) := Nat.mul_le_mul_right _ hmantissa
      · calc mantissa * 2 ^ (scale + 1)
            < 2 ^ 53 * 2 ^ (scale + 1) := Nat.mul_lt_mul_of_pos_right hlt hpow
          _ = 2 ^ (52 + (scale + 1) + 1) := by ring
    rw [hlog]
    omega

theorem Fits.nearestBits_eq {mantissa scale : Nat} (h : Fits mantissa scale) :
    nearestBits (mantissa * Nat.pow 2 scale) unitsPerOne = scale * Nat.pow 2 52 + mantissa := by
  have hquotient : mantissa * Nat.pow 2 scale * unitsPerOne / unitsPerOne = mantissa * 2 ^ scale :=
    Nat.mul_div_cancel _ unitsPerOne_pos
  have hrounded :
      roundHalfEven (mantissa * Nat.pow 2 scale * unitsPerOne) (unitsPerOne * Nat.pow 2 scale) = mantissa := by
    rw [Nat.mul_assoc, Nat.mul_comm unitsPerOne]
    exact roundHalfEven_mul_self (Nat.mul_pos (Nat.pow_pos Nat.two_pos) unitsPerOne_pos) mantissa
  have hle : scale * Nat.pow 2 52 + mantissa ≤ infinityBits := by
    obtain ⟨hlt, -, hscale⟩ := h
    simp only [infinityBits, Nat.pow_eq]
    omega
  simp only [nearestBits, hquotient, h.log2_eq, hrounded]
  exact Nat.min_eq_left hle

/-- The number `v` is nearest to the double with the bit pattern `bits`, however it is written as a quotient. -/
def Near (v : ℚ) (bits : Nat) : Prop :=
  ∀ num den : Nat, 0 < den → v = num / den → nearestBits num den = bits

theorem near_of_nearestBits {v : ℚ} {bits num den : Nat} (hden : 0 < den) (hv : v = num / den)
    (h : nearestBits num den = bits) : Near v bits := by
  intro num' den' hden' hv'
  have hmul : num' * den = num * den' := by
    rw [hv, div_eq_div_iff (by positivity) (by positivity)] at hv'
    exact_mod_cast hv'.symm
  calc nearestBits num' den'
      = nearestBits (num' * den) (den' * den) := (nearestBits_mul hden num' den').symm
    _ = nearestBits (num * den') (den * den') := by rw [hmul, Nat.mul_comm den']
    _ = bits := by rw [nearestBits_mul hden', h]

end Double

/-! ### The shortest decimal -/

namespace Decimal

/-- The number without its sign. -/
def magnitude (d : Decimal) : ℚ :=
  d.coefficient * 10 ^ d.exponent

variable {d : Decimal} {bits : Nat}

theorem near_of_pow_ten {up down : Nat} (hexponent : d.exponent = (up : Int) - down)
    (h : Double.nearestBits (d.coefficient * Nat.pow 10 up) (Nat.pow 10 down) = bits) :
    Double.Near d.magnitude bits := by
  refine Double.near_of_nearestBits (Nat.pow_pos (by decide)) ?_ h
  rw [magnitude, hexponent, zpow_sub₀ (by norm_num), zpow_natCast, zpow_natCast]
  push_cast [Nat.pow_eq]
  ring

/-- A fraction over a power of two, written out as a decimal. -/
theorem near_of_pow_two {n k : Nat} (hcoefficient : d.coefficient = n * Nat.pow 5 k)
    (hexponent : d.exponent = -(k : Int)) (h : Double.nearestBits n (Nat.pow 2 k) = bits) :
    Double.Near d.magnitude bits := by
  have hten : (10 : ℚ) = 2 * 5 := by norm_num
  refine Double.near_of_nearestBits (Nat.pow_pos Nat.two_pos) ?_ h
  rw [magnitude, hcoefficient, hexponent, zpow_neg, zpow_natCast, hten, mul_pow]
  push_cast [Nat.pow_eq]
  field_simp

end Decimal

theorem roundHalfEven_eq_or (num den : Nat) :
    roundHalfEven num den = num / den ∨ roundHalfEven num den = num / den + 1 := by
  rw [roundHalfEven]
  exact ite_eq_or_eq _ _ _

namespace Shortest

theorem accepts_of_accepted? {accepts : Nat → Bool} {below nearer n : Nat}
    (hnearer : nearer = below ∨ nearer = below + 1) (h : accepted? accepts below nearer = some n) :
    accepts n = true := by
  unfold accepted? at h
  split at h
  next => cases h
  next hbelow _ =>
    obtain rfl := Option.some.inj h
    exact hbelow
  next _ habove =>
    obtain rfl := Option.some.inj h
    exact habove
  next hbelow habove =>
    obtain rfl := Option.some.inj h
    rcases hnearer with rfl | rfl
    · exact hbelow
    · exact habove

theorem readsBack_of_onGrid? {bits num den unit coefficient : Nat} (h : onGrid? bits num den unit = some coefficient) :
    readsBack bits coefficient unit = true := by
  rw [onGrid?] at h
  exact (accepts_of_accepted? (roundHalfEven_eq_or _ _) h :)

end Shortest

/-- The shortest decimal of a double is nearest to that double, whether it was found on a grid or is the exact one. -/
theorem near_shortestDecimal (negative : Bool) {mantissa scale : Nat} (h : Double.Fits mantissa scale) :
    Double.Near (shortestDecimal negative mantissa scale).magnitude (scale * Nat.pow 2 52 + mantissa) := by
  unfold shortestDecimal
  simp only
  generalize hfound : List.findSome? _ (List.range 17) = found
  cases found with
  | none =>
    -- No grid has a hit, and the exact decimal is left.
    obtain ⟨k, hk, hunits⟩ := Double.exists_unitsPerOne
    have hbits := h.nearestBits_eq
    rw [hunits] at hbits
    rw [Option.getD_none, ← hk]
    have hexponent : (-1074 : Int) = -(k : Int) := by omega
    exact Decimal.near_of_pow_two rfl hexponent hbits
  | some d =>
    obtain ⟨n, -, hd⟩ := List.exists_of_findSome?_eq_some hfound
    obtain ⟨coefficient, hgrid, rfl⟩ := Option.map_eq_some_iff.mp hd
    have hreads := Shortest.readsBack_of_onGrid? hgrid
    unfold Shortest.readsBack at hreads
    exact Decimal.near_of_pow_ten rfl (beq_iff_eq.mp hreads)

/-! ### Figures and their text -/

namespace Figures

def value (f : Figures) : ℚ :=
  natOfDigits f.digits * 10 ^ (f.point - f.digits.length)

theorem isDigitRow_ofDecimal (d : Decimal) : Literal.isDigitRow (ofDecimal d).digits = true := by
  obtain ⟨zeros, hzeros⟩ := exists_replicate_zero (Nat.toDigits 10 d.coefficient)
  unfold ofDecimal
  simp only
  split
  · rfl
  next hne =>
    refine isDigitRow_iff.mpr ⟨by simpa using hne, fun c hc => ?_⟩
    exact isDigit_toDigits (n := d.coefficient) c (hzeros ▸ List.mem_append_left _ hc)

/-- Dropping zeros at the end moves the point but keeps the number. -/
theorem value_ofDecimal (d : Decimal) : (ofDecimal d).value = d.magnitude := by
  obtain ⟨zeros, hzeros⟩ := exists_replicate_zero (Nat.toDigits 10 d.coefficient)
  have hdigits := isDigit_toDigits (n := d.coefficient)
  have hvalue := natOfDigits_toDigits d.coefficient
  have hlength := congrArg List.length hzeros
  unfold ofDecimal
  simp only
  generalize ((Nat.toDigits 10 d.coefficient).reverse.dropWhile (· == '0')).reverse = significant at hzeros hlength ⊢
  rw [hzeros] at hdigits hvalue
  rw [natOfDigits_append_zeros fun c hc => hdigits c (by simp [hc])] at hvalue
  rw [List.length_append, List.length_replicate] at hlength
  split
  next hempty =>
    obtain rfl := List.isEmpty_iff.mp hempty
    have hzero : d.coefficient = 0 := by simpa [natOfDigits] using hvalue.symm
    simp [value, Decimal.magnitude, hzero, natOfDigits, digitValue]
  next =>
    have hpoint : ((Nat.toDigits 10 d.coefficient).length : Int) + d.exponent - significant.length =
        zeros + d.exponent := by omega
    rw [value, hpoint, Decimal.magnitude, ← hvalue, zpow_add₀ (by norm_num), zpow_natCast]
    push_cast [Nat.pow_eq]
    ring

end Figures

/-- The text of a plain numeral: digits, and digits after a point unless there are none. -/
structure IsNumeral (whole fraction text : List Char) : Prop where
  whole_row : Literal.isDigitRow whole = true
  fraction_digits : ∀ c ∈ fraction, c.isDigit = true
  text_eq : text = if fraction.isEmpty then whole else whole ++ '.' :: fraction

namespace IsNumeral

variable {whole fraction text : List Char}

theorem of_whole (hwhole : Literal.isDigitRow whole = true) : IsNumeral whole [] whole :=
  ⟨hwhole, by simp, rfl⟩

theorem of_point (hwhole : Literal.isDigitRow whole = true) (hfraction : Literal.isDigitRow fraction = true) :
    IsNumeral whole fraction (whole ++ '.' :: fraction) := by
  obtain ⟨hne, hdigits⟩ := isDigitRow_iff.mp hfraction
  exact ⟨hwhole, hdigits, by simp [hne]⟩

theorem mem (h : IsNumeral whole fraction text) {c : Char} (hc : c ∈ text) :
    c.isDigit = true ∨ c = '.' := by
  have hwhole := (isDigitRow_iff.mp h.whole_row).2
  rw [h.text_eq] at hc
  split at hc
  · exact .inl (hwhole c hc)
  · rcases List.mem_append.mp hc with hc | hc
    · exact .inl (hwhole c hc)
    · rcases List.mem_cons.mp hc with hc | hc
      · exact .inr hc
      · exact .inl (h.fraction_digits c hc)

theorem newline_not_mem (h : IsNumeral whole fraction text) : '\n' ∉ text := by
  intro hmem
  rcases h.mem hmem with hdigit | hpoint
  · cases hdigit
  · cases hpoint

theorem exists_cons (h : IsNumeral whole fraction text) :
    ∃ c more, text = c :: more ∧ c.isDigit = true := by
  obtain ⟨hne, hdigits⟩ := isDigitRow_iff.mp h.whole_row
  obtain ⟨c, more, rfl⟩ := List.exists_cons_of_ne_nil hne
  rw [h.text_eq]
  split
  · exact ⟨c, more, rfl, hdigits c (by simp)⟩
  · exact ⟨c, _, rfl, hdigits c (by simp)⟩

theorem whole_eq (h : IsNumeral whole fraction text) : text.takeWhile (· ≠ '.') = whole := by
  rw [h.text_eq]
  exact (Literal.cut_at_point h.whole_row fraction).1

theorem fraction_eq (h : IsNumeral whole fraction text) : (text.dropWhile (· ≠ '.')).drop 1 = fraction := by
  rw [h.text_eq, (Literal.cut_at_point h.whole_row fraction).2]
  cases fraction <;> rfl

theorem exists_numeral (h : IsNumeral whole fraction text) :
    ∃ n : Numeral, n.whole.chars = whole ∧ n.fractionDigits = fraction ∧ n.text.toList = text := by
  obtain ⟨hwhole, hfraction, rfl⟩ := h
  cases fraction with
  | nil => exact ⟨⟨⟨whole, hwhole⟩, none⟩, rfl, rfl, String.toList_ofList⟩
  | cons c fraction =>
    have hrow : Literal.isDigitRow (c :: fraction) = true :=
      isDigitRow_iff.mpr ⟨List.cons_ne_nil c fraction, hfraction⟩
    exact ⟨⟨⟨whole, hwhole⟩, some ⟨c :: fraction, hrow⟩⟩, rfl, rfl, String.toList_ofList⟩

end IsNumeral

theorem exists_cons_of_isDigitRow {row : List Char} (h : Literal.isDigitRow row = true) :
    ∃ c more, row = c :: more ∧ c.isDigit = true := by
  obtain ⟨hne, hdigits⟩ := isDigitRow_iff.mp h
  obtain ⟨c, more, rfl⟩ := List.exists_cons_of_ne_nil hne
  exact ⟨c, more, rfl, hdigits c (by simp)⟩

namespace DigitRow

theorem digits (row : DigitRow) : ∀ c ∈ row.chars, c.isDigit = true :=
  (isDigitRow_iff.mp row.isRow).2

theorem exists_cons (row : DigitRow) : ∃ c more, row.chars = c :: more ∧ c.isDigit = true :=
  exists_cons_of_isDigitRow row.isRow

theorem reverse_reverse (row : DigitRow) : row.reverse.reverse = row := by
  simp [reverse]

end DigitRow

theorem Numeral.isNumeral (n : Numeral) : IsNumeral n.whole.chars n.fractionDigits n.text.toList := by
  obtain ⟨whole, fraction⟩ := n
  cases fraction with
  | none =>
    rw [text, String.toList_ofList]
    exact .of_whole whole.isRow
  | some fraction =>
    rw [text, String.toList_ofList]
    exact .of_point whole.isRow fraction.isRow

/-- A decimal without an exponent that is near a double is read as that double. -/
theorem Decimal.toFloat_of_near {whole fraction : List Char} {bits : Nat}
    (hnear : Double.Near (Decimal.ofDigits false whole fraction).magnitude bits) :
    (Decimal.ofDigits false whole fraction).toFloat = Double.ofMagnitudeBits false bits := by
  have hvalue : (Decimal.ofDigits false whole fraction).magnitude =
      (natOfDigits (whole ++ fraction) : ℚ) / (Nat.pow 10 fraction.length : Nat) := by
    rw [Decimal.magnitude, Decimal.ofDigits, zpow_neg, zpow_natCast, div_eq_mul_inv]
    push_cast [Nat.pow_eq]
    rfl
  have hbits := hnear _ _ (Nat.pow_pos (by decide)) hvalue
  rw [Decimal.toFloat_eq_nearest rfl, Double.nearest]
  exact congrArg (Double.ofMagnitudeBits false) hbits

namespace Figures

variable {f : Figures}

theorem magnitude_ofDigits {whole fraction : List Char} (k : Nat)
    (hdigits : natOfDigits (whole ++ fraction) = natOfDigits f.digits * Nat.pow 10 k)
    (hpoint : f.point - f.digits.length = k - fraction.length) :
    (Decimal.ofDigits false whole fraction).magnitude = f.value := by
  rw [value, hpoint, zpow_sub₀ (by norm_num), zpow_natCast, zpow_natCast, Decimal.magnitude, Decimal.ofDigits, hdigits,
    zpow_neg, zpow_natCast]
  push_cast [Nat.pow_eq]
  ring

theorem exists_small (hf : Literal.isDigitRow f.digits = true) {n : Nat} (hpoint : f.point = -(n : Int)) :
    ∃ whole fraction, IsNumeral whole fraction ('0' :: '.' :: (List.replicate n '0' ++ f.digits)) ∧
      (Decimal.ofDigits false whole fraction).magnitude = f.value := by
  obtain ⟨hne, hdigits⟩ := isDigitRow_iff.mp hf
  have hfraction : Literal.isDigitRow (List.replicate n '0' ++ f.digits) = true :=
    isDigitRow_iff.mpr ⟨by simp [hne], List.forall_mem_append.mpr ⟨isDigit_replicate_zero, hdigits⟩⟩
  refine ⟨['0'], _, .of_point rfl hfraction, magnitude_ofDigits 0 ?_ ?_⟩
  · have hzeros := natOfDigits_zeros_append hdigits (n + 1)
    rwa [List.replicate_succ, List.cons_append, ← Nat.mul_one (natOfDigits f.digits)] at hzeros
  · rw [hpoint, List.length_append, List.length_replicate]
    omega

/-- The positional text of figures is a numeral of the same value. -/
theorem exists_positional (hf : Literal.isDigitRow f.digits = true) {closing : List Char}
    (hclosing : closing = [] ∨ closing = ['.', '0']) :
    ∃ whole fraction, IsNumeral whole fraction (f.positional closing) ∧
      (Decimal.ofDigits false whole fraction).magnitude = f.value := by
  obtain ⟨hne, hdigits⟩ := isDigitRow_iff.mp hf
  unfold positional
  split
  next p hp =>
    have hpoint : f.point = (p : Int) := hp
    split
    next hzero => exact exists_small hf (n := 0) (by simp [hpoint, hzero])
    next hpos =>
      split
      next hle =>
        -- All digits stand before the point, and a closing `.0` is one more zero after it.
        have hwhole : Literal.isDigitRow (f.digits ++ List.replicate (p - f.digits.length) '0') = true :=
          isDigitRow_iff.mpr ⟨by simp [hne], List.forall_mem_append.mpr ⟨hdigits, isDigit_replicate_zero⟩⟩
        rcases hclosing with rfl | rfl
        · rw [List.append_nil]
          refine ⟨_, _, .of_whole hwhole, magnitude_ofDigits (p - f.digits.length) ?_ ?_⟩
          · rw [List.append_nil, natOfDigits_append_zeros hdigits]
          · rw [hpoint, List.length_nil]
            omega
        · refine ⟨_, ['0'], .of_point hwhole rfl, magnitude_ofDigits (p - f.digits.length + 1) ?_ ?_⟩
          · rw [List.append_assoc, ← List.replicate_one, List.replicate_append_replicate,
              natOfDigits_append_zeros hdigits]
          · rw [hpoint, List.length_singleton]
            omega
      next hlt =>
        have hwhole : Literal.isDigitRow (f.digits.take p) = true :=
          isDigitRow_iff.mpr ⟨by simp [hne, hpos], fun c hc => hdigits c (List.mem_of_mem_take hc)⟩
        have hfraction : Literal.isDigitRow (f.digits.drop p) = true :=
          isDigitRow_iff.mpr ⟨by simpa using hlt, fun c hc => hdigits c (List.mem_of_mem_drop hc)⟩
        refine ⟨_, _, .of_point hwhole hfraction, magnitude_ofDigits 0 ?_ ?_⟩
        · rw [List.take_append_drop]
          exact (Nat.mul_one _).symm
        · rw [hpoint, List.length_drop]
          omega
  next n hn => exact exists_small hf hn

end Figures

namespace Number

/-- Whether a number is finite and has no minus sign. -/
def isUnsigned (x : Float) : Bool :=
  match Double.ofFloat x with
  | .finite negative _ _ => !negative
  | _ => false

theorem exists_finite {x : Float} (h : isUnsigned x = true) :
    ∃ mantissa scale, Double.ofFloat x = .finite false mantissa scale := by
  unfold isUnsigned at h
  split at h
  next negative mantissa scale hx =>
    obtain rfl : negative = false := by simpa using h
    exact ⟨mantissa, scale, hx⟩
  next => cases h

/-- The source text of a number without a sign is a numeral that is read as the number. -/
theorem exists_source {x : Float} (h : isUnsigned x = true) :
    ∃ n : Numeral, n.text = source x ∧ n.decimal.toFloat = x := by
  obtain ⟨mantissa, scale, hparts⟩ := exists_finite h
  obtain ⟨hfits, hx⟩ := Double.ofFloat_eq_finite hparts
  let f := Figures.ofDecimal (shortestDecimal false mantissa scale)
  have htext : ∃ closing, (closing = [] ∨ closing = ['.', '0']) ∧ (source x).toList = f.positional closing := by
    by_cases hmoderate : f.isModerate = true
    · exact ⟨_, .inr rfl, by simp [source, textWith, hparts, f, hmoderate]⟩
    · exact ⟨_, .inl rfl, by simp [source, textWith, hparts, f, hmoderate]⟩
  obtain ⟨closing, hclosing, htext⟩ := htext
  obtain ⟨whole, fraction, hnumeral, hvalue⟩ := Figures.exists_positional (Figures.isDigitRow_ofDecimal _) hclosing
  have hnear := near_shortestDecimal false hfits
  rw [← Figures.value_ofDecimal, ← hvalue] at hnear
  obtain ⟨n, rfl, rfl, hn⟩ := hnumeral.exists_numeral
  exact ⟨n, String.toList_inj.mp (hn.trans htext.symm), (Decimal.toFloat_of_near hnear).trans hx⟩

end Number

end StackCalc
