import Mathlib
import StackCalc.Number.Integer
import StackCalc.Number.Literal

/-!
Literals read back. The digits of a literal count units of the last decimal place that is kept, and dropping zeros at
the end of the fraction divides numerator and denominator of the same quotient by a power of ten. So the literal of a
finite number reads as the double nearest to the number rounded to ten places, and this is the number itself if the
number is representable.
-/

namespace StackCalc

/-! ### Rows of digits -/

section Digits

variable {digits : List Char}

theorem natOfDigits_eq_ofDigitChars (h : ∀ c ∈ digits, c.isDigit = true) :
    natOfDigits digits = Nat.ofDigitChars 10 digits 0 := by
  have hfold : ∀ n, digits.foldl (fun n c => n * 10 + digitValue c) n = Nat.ofDigitChars 10 digits n := by
    induction digits with
    | nil => intro n; rfl
    | cons c digits ih =>
      intro n
      rw [List.foldl_cons, Nat.ofDigitChars_cons, ih fun c hc => h c (by simp [hc]), digitValue, if_pos (h c (by simp)),
        Nat.mul_comm]
  exact hfold 0

theorem natOfDigits_append {more : List Char} (h : ∀ c ∈ digits, c.isDigit = true)
    (h' : ∀ c ∈ more, c.isDigit = true) :
    natOfDigits (digits ++ more) = natOfDigits digits * Nat.pow 10 more.length + natOfDigits more := by
  rw [natOfDigits_eq_ofDigitChars (List.forall_mem_append.mpr ⟨h, h'⟩), natOfDigits_eq_ofDigitChars h,
    natOfDigits_eq_ofDigitChars h', Nat.ofDigitChars_append, Nat.ofDigitChars_eq_ofDigitChars_zero, Nat.mul_comm]
  rfl

theorem isDigit_toDigits {n : Nat} : ∀ c ∈ Nat.toDigits 10 n, c.isDigit = true := fun _ hc =>
  Nat.isDigit_of_mem_toDigits (by decide) (by decide) hc

theorem natOfDigits_toDigits (n : Nat) : natOfDigits (Nat.toDigits 10 n) = n := by
  rw [natOfDigits_eq_ofDigitChars isDigit_toDigits, Nat.ofDigitChars_ten_toDigits]

theorem isDigit_replicate_zero {n : Nat} : ∀ c ∈ List.replicate n '0', c.isDigit = true := by
  intro c hc
  rw [(List.mem_replicate.mp hc).2]
  rfl

theorem natOfDigits_replicate_zero (n : Nat) : natOfDigits (List.replicate n '0') = 0 := by
  rw [natOfDigits_eq_ofDigitChars isDigit_replicate_zero, Nat.ofDigitChars_replicate_zero, Nat.mul_zero]

theorem natOfDigits_append_zeros (h : ∀ c ∈ digits, c.isDigit = true) (n : Nat) :
    natOfDigits (digits ++ List.replicate n '0') = natOfDigits digits * Nat.pow 10 n := by
  rw [natOfDigits_append h isDigit_replicate_zero, natOfDigits_replicate_zero, List.length_replicate, Nat.add_zero]

theorem natOfDigits_zeros_append (h : ∀ c ∈ digits, c.isDigit = true) (n : Nat) :
    natOfDigits (List.replicate n '0' ++ digits) = natOfDigits digits := by
  rw [natOfDigits_append isDigit_replicate_zero h, natOfDigits_replicate_zero, Nat.zero_mul, Nat.zero_add]

theorem toDigits_ten_pow (n : Nat) : Nat.toDigits 10 (10 ^ n) = '1' :: List.replicate n '0' := by
  induction n with
  | zero => rfl
  | succ n ih =>
    have hle : 10 ≤ 10 ^ (n + 1) := Nat.le_self_pow (Nat.succ_ne_zero n) 10
    rw [Nat.toDigits_of_base_le (by decide) hle, Nat.pow_succ, Nat.mul_div_cancel _ (by decide), ih, Nat.mul_mod_left,
      List.cons_append, List.replicate_succ']
    rfl

theorem digitValue_le (c : Char) : digitValue c ≤ 9 := by
  rw [digitValue]
  split
  next h =>
    simp only [Char.isDigit, Bool.and_eq_true, decide_eq_true_eq, UInt32.le_iff_toNat_le] at h
    have hle : c.toNat ≤ 57 := h.2
    exact Nat.sub_le_of_le_add hle
  next => exact Nat.zero_le 9

theorem natOfDigits_lt (h : ∀ c ∈ digits, c.isDigit = true) : natOfDigits digits < 10 ^ digits.length := by
  induction digits with
  | nil => exact Nat.one_pos
  | cons c digits ih =>
    obtain ⟨hc, hdigits⟩ := List.forall_mem_cons.mp h
    have hsplit : natOfDigits ([c] ++ digits) = natOfDigits [c] * Nat.pow 10 digits.length + natOfDigits digits :=
      natOfDigits_append (by simpa using hc) hdigits
    have hfirst : natOfDigits [c] ≤ 9 := (Nat.zero_add _).trans_le (digitValue_le c)
    calc natOfDigits (c :: digits)
        = natOfDigits [c] * 10 ^ digits.length + natOfDigits digits := hsplit
      _ < 9 * 10 ^ digits.length + 10 ^ digits.length :=
        Nat.add_lt_add_of_le_of_lt (Nat.mul_le_mul_right _ hfirst) (ih hdigits)
      _ = 10 ^ (c :: digits).length := by rw [List.length_cons, Nat.pow_succ]; ring

theorem isDigitRow_iff : Literal.isDigitRow digits = true ↔ digits ≠ [] ∧ ∀ c ∈ digits, c.isDigit = true := by
  simp [Literal.isDigitRow]

theorem isDigitRow_toDigits (n : Nat) : Literal.isDigitRow (Nat.toDigits 10 n) = true :=
  isDigitRow_iff.mpr ⟨Nat.toDigits_ne_nil, isDigit_toDigits⟩

/-- A natural below the limit is written as its digits, and no other is written. -/
theorem Number.write_natCast (n : Nat) :
    write n = if n < 10 ^ mostDigits then .ok (String.ofList (Nat.toDigits 10 n)) else .error .writing := by
  have hlength : (Nat.toDigits 10 n).length ≤ mostDigits ↔ n < 10 ^ mostDigits :=
    Nat.length_toDigits_le_iff (by decide) (by decide)
  simp only [write, Int.natAbs_natCast, hlength]
  rfl

theorem Number.two_lt_pow_mostDigits : 2 < 10 ^ mostDigits :=
  lt_trans (by decide) (Nat.lt_pow_self (n := mostDigits) (by decide : 1 < 10))

/-- Reading a row of digits fails if it is too long only. -/
theorem Number.readRow_eq_error_iff {e : DigitError} :
    readRow digits = .error e ↔ mostDigits < digits.length ∧ e = .reading digits.length := by
  rw [readRow]
  split
  next h => simp [h]
  next h => simp [Nat.lt_of_not_le h, eq_comm]

theorem Number.readRow_toDigits {n : Nat} (h : n < 10 ^ mostDigits) : readRow (Nat.toDigits 10 n) = .ok n := by
  rw [readRow, if_pos ((Nat.length_toDigits_le_iff (by decide) (by decide)).mpr h), natOfDigits_toDigits]

/-- Zeros at the end of a row, and what is before them. -/
theorem exists_replicate_zero (digits : List Char) :
    ∃ n, digits = (digits.reverse.dropWhile (· == '0')).reverse ++ List.replicate n '0' := by
  have hall := List.all_takeWhile (p := (· == '0')) (l := digits.reverse)
  have hzeros : digits.reverse.takeWhile (· == '0') =
      List.replicate (digits.reverse.takeWhile (· == '0')).length '0' := by
    refine List.eq_replicate_iff.mpr ⟨rfl, ?_⟩
    intro c hc
    exact beq_iff_eq.mp (List.all_eq_true.mp hall c hc)
  refine ⟨(digits.reverse.takeWhile (· == '0')).length, ?_⟩
  rw [← List.reverse_replicate, ← hzeros, ← List.reverse_append, List.takeWhile_append_dropWhile, List.reverse_reverse]

end Digits

/-! ### Nearest doubles of equal quotients -/

theorem roundHalfEven_mul {k : Nat} (hk : 0 < k) (num den : Nat) :
    roundHalfEven (num * k) (den * k) = roundHalfEven num den := by
  have hdiv : num * k / (den * k) = num / den := Nat.mul_div_mul_right num den hk
  have hmod : num * k % (den * k) = num % den * k := Nat.mul_mod_mul_right k num den
  have hlt : 2 * (num % den * k) < den * k ↔ 2 * (num % den) < den := by
    rw [← Nat.mul_assoc]
    exact Nat.mul_lt_mul_right hk
  have heq : 2 * (num % den * k) = den * k ↔ 2 * (num % den) = den := by
    rw [← Nat.mul_assoc]
    exact Nat.mul_left_inj (Nat.ne_of_gt hk)
  simp only [roundHalfEven, hdiv, hmod, hlt, heq]

namespace Double

theorem nearestBits_mul {k : Nat} (hk : 0 < k) (num den : Nat) :
    nearestBits (num * k) (den * k) = nearestBits num den := by
  have hunits : num * k * unitsPerOne = num * unitsPerOne * k := Nat.mul_right_comm _ _ _
  have hdiv : num * unitsPerOne * k / (den * k) = num * unitsPerOne / den := Nat.mul_div_mul_right _ _ hk
  simp only [nearestBits, hunits, hdiv, Nat.mul_right_comm den k, roundHalfEven_mul hk]

theorem nearest_mul (negative : Bool) {k : Nat} (hk : 0 < k) (num den : Nat) :
    nearest negative (num * k) (den * k) = nearest negative num den := by
  rw [nearest, nearest, nearestBits_mul hk]

/-- The units are a power of two, which no proof has to compute. -/
theorem exists_unitsPerOne : ∃ k, k = 1074 ∧ unitsPerOne = Nat.pow 2 k := by
  refine ⟨1074, rfl, ?_⟩
  unfold unitsPerOne
  rfl

theorem unitsPerOne_pos : 0 < unitsPerOne := by
  obtain ⟨k, -, hunits⟩ := exists_unitsPerOne
  exact hunits ▸ Nat.pow_pos Nat.two_pos

/-- Less than half a unit is nearest to zero. -/
theorem nearestBits_eq_zero {num den : Nat} (h : 2 * (num * unitsPerOne) < den) : nearestBits num den = 0 := by
  have hlt : num * unitsPerOne < den := by omega
  simp [nearestBits, roundHalfEven, Nat.div_eq_of_lt hlt, Nat.mod_eq_of_lt hlt, h]

end Double

namespace Decimal

theorem units_lt_pow_ten {n places : Nat} (h : n.log2 + 1100 < 3 * places) :
    2 * (n * Double.unitsPerOne) < Nat.pow 10 places := by
  obtain ⟨k, hk, hunits⟩ := Double.exists_unitsPerOne
  have hlt : n < 2 ^ (n.log2 + 1) := Nat.lt_log2_self
  rw [hunits]
  calc 2 * (n * 2 ^ k)
      < 2 * (2 ^ (n.log2 + 1) * 2 ^ k) := by gcongr
    _ = 2 ^ (n.log2 + k + 2) := by ring
    _ ≤ 2 ^ (3 * places) := Nat.pow_le_pow_right (by decide) (by omega)
    _ = 8 ^ places := Nat.pow_mul 2 3 places
    _ ≤ 10 ^ places := Nat.pow_le_pow_left (by decide) places

/-- A decimal without a power of ten to multiply by is the nearest double of a quotient. -/
theorem toFloat_eq_nearest {d : Decimal} {places : Nat} (hexponent : d.exponent = -(places : Int)) :
    d.toFloat = Double.nearest d.negative d.coefficient (Nat.pow 10 places) := by
  have hzero : ∀ {num}, 2 * (num * Double.unitsPerOne) < Nat.pow 10 places →
      Double.nearest d.negative 0 1 = Double.nearest d.negative num (Nat.pow 10 places) := by
    intro num h
    rw [Double.nearest, Double.nearest, Double.nearestBits_eq_zero h, Double.nearestBits_eq_zero (by simp)]
  obtain ⟨negative, coefficient, exponent⟩ := d
  obtain rfl : exponent = -(places : Int) := hexponent
  by_cases hcoefficient : coefficient = 0
  · have hten : 0 < Nat.pow 10 places := Nat.pow_pos (by decide)
    simp only [toFloat, hcoefficient, if_true]
    exact hzero (by rwa [Nat.zero_mul, Nat.mul_zero])
  · cases places with
    | zero => simp [toFloat, hcoefficient]
    | succ n =>
      have hnegSucc : -((n + 1 : Nat) : Int) = .negSucc n := rfl
      by_cases hsmall : coefficient.log2 + 1100 < 3 * (n + 1)
      · simp only [toFloat, hcoefficient, if_false, hnegSucc, hsmall, if_true]
        exact hzero (units_lt_pow_ten hsmall)
      · simp only [toFloat, hcoefficient, if_false, hnegSucc, hsmall]

end Decimal

/-! ### The literal of a number -/

namespace Literal

theorem length_fractionDigits (n : Nat) : (fractionDigits n).length = places := by
  have hlt : n % Nat.pow 10 places < Nat.pow 10 places := Nat.mod_lt _ (Nat.pow_pos (by decide))
  have hlength : (Nat.toDigits 10 (n % Nat.pow 10 places)).length ≤ places :=
    (Nat.length_toDigits_le_iff (by decide) (by decide)).mpr hlt
  simp only [fractionDigits, List.length_append, List.length_replicate]
  exact Nat.sub_add_cancel hlength

theorem isDigit_fractionDigits (n : Nat) : ∀ c ∈ fractionDigits n, c.isDigit = true :=
  List.forall_mem_append.mpr ⟨isDigit_replicate_zero, isDigit_toDigits⟩

theorem natOfDigits_fractionDigits (n : Nat) : natOfDigits (fractionDigits n) = n % Nat.pow 10 places := by
  rw [fractionDigits, natOfDigits_zeros_append isDigit_toDigits, natOfDigits_toDigits]

/-- The digits of a count of units of the last place that is kept: the whole part, and the fraction up to its last
    digit other than zero. -/
theorem exists_magnitudeText (n : Nat) :
    ∃ whole fraction : List Char, isDigitRow whole = true ∧ (∀ c ∈ fraction, c.isDigit = true) ∧
      magnitudeText n = (if fraction.isEmpty then whole else whole ++ '.' :: fraction) ∧
      fraction.length ≤ places ∧ fraction.getLast? ≠ some '0' ∧
      natOfDigits (whole ++ fraction) * Nat.pow 10 (places - fraction.length) = n := by
  obtain ⟨zeros, hzeros⟩ := exists_replicate_zero (fractionDigits n)
  have hlast : ((fractionDigits n).reverse.dropWhile (· == '0')).reverse.getLast? ≠ some '0' := by
    intro h
    have hhead := List.head?_dropWhile_not (· == '0') (fractionDigits n).reverse
    rw [← List.getLast?_reverse, h] at hhead
    cases hhead
  generalize hfraction : ((fractionDigits n).reverse.dropWhile (· == '0')).reverse = fraction at hzeros hlast
  have hdigits := isDigit_fractionDigits n
  have hlength := length_fractionDigits n
  have hvalue := natOfDigits_fractionDigits n
  rw [hzeros] at hdigits hlength hvalue
  have hfractionDigits : ∀ c ∈ fraction, c.isDigit = true := fun c hc => hdigits c (by simp [hc])
  rw [List.length_append, List.length_replicate] at hlength
  rw [natOfDigits_append_zeros hfractionDigits] at hvalue
  refine ⟨Nat.toDigits 10 (n / Nat.pow 10 places), fraction, isDigitRow_toDigits _, hfractionDigits,
    by simp only [magnitudeText, hfraction], by omega, hlast, ?_⟩
  have hplaces : places - fraction.length = zeros := by omega
  have hpow : Nat.pow 10 places = Nat.pow 10 fraction.length * Nat.pow 10 zeros := by
    rw [← hlength]
    exact Nat.pow_add 10 _ _
  calc natOfDigits (Nat.toDigits 10 (n / Nat.pow 10 places) ++ fraction) * Nat.pow 10 (places - fraction.length)
      = (n / Nat.pow 10 places * Nat.pow 10 fraction.length + natOfDigits fraction) * Nat.pow 10 zeros := by
        rw [natOfDigits_append isDigit_toDigits hfractionDigits, natOfDigits_toDigits, hplaces]
    _ = n / Nat.pow 10 places * Nat.pow 10 places + n % Nat.pow 10 places := by
        rw [Nat.add_mul, hvalue, Nat.mul_assoc, ← hpow]
    _ = n := Nat.div_add_mod' n _

theorem ne_of_isDigit {c d : Char} (h : c.isDigit = true) (hd : d.isDigit = false) : c ≠ d := by
  rintro rfl
  rw [h] at hd
  cases hd

/-- The digits before the point, and what begins with the point. -/
theorem cut_at_point {whole : List Char} (hwhole : isDigitRow whole = true) (fraction : List Char) :
    (if fraction.isEmpty then whole else whole ++ '.' :: fraction).takeWhile (· ≠ '.') = whole ∧
      (if fraction.isEmpty then whole else whole ++ '.' :: fraction).dropWhile (· ≠ '.') =
        if fraction.isEmpty then [] else '.' :: fraction := by
  have hpoint : ∀ c ∈ whole, decide (c ≠ '.') = true := by
    intro c hc
    exact decide_eq_true (ne_of_isDigit ((isDigitRow_iff.mp hwhole).2 c hc) (by decide))
  cases fraction with
  | nil =>
    have htake : (whole ++ []).takeWhile (· ≠ '.') = whole ++ [] := List.takeWhile_append_of_pos hpoint
    have hdrop : (whole ++ []).dropWhile (· ≠ '.') = [] := List.dropWhile_append_of_pos hpoint
    rw [List.append_nil] at htake hdrop
    exact ⟨htake, hdrop⟩
  | cons d fraction =>
    simp only [List.isEmpty_cons, Bool.false_eq_true, if_false]
    rw [List.takeWhile_append_of_pos hpoint, List.dropWhile_append_of_pos hpoint]
    simp

theorem readUnsigned?_digits {whole fraction : List Char} (hwhole : isDigitRow whole = true)
    (hfraction : ∀ c ∈ fraction, c.isDigit = true) (negative : Bool) :
    readUnsigned? negative (if fraction.isEmpty then whole else whole ++ '.' :: fraction) =
      some (Decimal.ofDigits negative whole fraction).toFloat := by
  obtain ⟨htake, hdrop⟩ := cut_at_point hwhole fraction
  rw [readUnsigned?, htake, hdrop]
  cases fraction with
  | nil => simp [hwhole]
  | cons d fraction =>
    have hrow : isDigitRow (d :: fraction) = true := isDigitRow_iff.mpr ⟨List.cons_ne_nil _ _, hfraction⟩
    simp [hwhole, hrow]

/-- A text that begins with a digit has no sign. -/
theorem read?_of_isDigit {c : Char} (h : c.isDigit = true) (rest : List Char) :
    read? (c :: rest) = readUnsigned? false (c :: rest) := by
  unfold read?
  split
  next heq => exact absurd (List.cons.inj heq).1 (ne_of_isDigit h (by decide))
  next => rfl

theorem read?_digits {whole fraction : List Char} (hwhole : isDigitRow whole = true)
    (hfraction : ∀ c ∈ fraction, c.isDigit = true) (negative : Bool) :
    read? ((if negative then ['-'] else []) ++ if fraction.isEmpty then whole else whole ++ '.' :: fraction) =
      some (Decimal.ofDigits negative whole fraction).toFloat := by
  rw [← readUnsigned?_digits hwhole hfraction]
  cases negative with
  | true => rfl
  | false =>
    obtain ⟨hne, hdigits⟩ := isDigitRow_iff.mp hwhole
    obtain ⟨c, rest, rfl⟩ := List.exists_cons_of_ne_nil hne
    have hc := hdigits c (by simp)
    cases fraction with
    | nil => exact read?_of_isDigit hc rest
    | cons d fraction => exact read?_of_isDigit hc (rest ++ '.' :: d :: fraction)

/-- The number that the literal of a finite number reads as. -/
def reread (x : Float) : Float :=
  match Double.ofFloat x with
  | .finite negative mantissa scale => (rounded negative mantissa scale).toFloat
  | _ => x

/-- Whether a number has a literal, which infinities and no number do not have. -/
def isFinite (x : Float) : Bool :=
  match Double.ofFloat x with
  | .finite .. => true
  | _ => false

theorem rounded_eq (negative : Bool) (mantissa scale : Nat) :
    rounded negative mantissa scale =
      { negative, coefficient := (rounded negative mantissa scale).coefficient, exponent := -(places : Int) } := by
  rw [rounded]

/-- Dropping zeros at the end of a fraction does not change the number. -/
theorem toFloat_ofDigits {whole fraction : List Char} {n : Nat} (hlength : fraction.length ≤ places)
    (hvalue : natOfDigits (whole ++ fraction) * Nat.pow 10 (places - fraction.length) = n) (negative : Bool) :
    (Decimal.ofDigits negative whole fraction).toFloat =
      Decimal.toFloat { negative, coefficient := n, exponent := -(places : Int) } := by
  have hten : 0 < Nat.pow 10 (places - fraction.length) := Nat.pow_pos (by decide)
  have hpow : Nat.pow 10 fraction.length * Nat.pow 10 (places - fraction.length) = Nat.pow 10 places := by
    rw [← Nat.add_sub_cancel' hlength]
    simpa using (Nat.pow_add 10 fraction.length (places - fraction.length)).symm
  rw [Decimal.toFloat_eq_nearest rfl, Decimal.toFloat_eq_nearest rfl, ← hvalue, ← hpow, Double.nearest_mul _ hten]
  rfl

theorem signed_eq (negative : Bool) (magnitude : List Char) :
    (if negative then '-' :: magnitude else magnitude) = (if negative then ['-'] else []) ++ magnitude := by
  cases negative <;> rfl

theorem toList_text {x : Float} {negative : Bool} {mantissa scale : Nat}
    (hx : Double.ofFloat x = .finite negative mantissa scale) :
    (text x).toList =
      (if negative then ['-'] else []) ++ magnitudeText (rounded negative mantissa scale).coefficient := by
  simp only [text, hx, String.toList_ofList]
  exact signed_eq negative _

/-- The literal of a finite number: a sign, digits, and digits after a point unless the number is whole. -/
theorem exists_text {x : Float} (h : isFinite x = true) :
    ∃ (negative : Bool) (whole fraction : List Char),
      isDigitRow whole = true ∧ (∀ c ∈ fraction, c.isDigit = true) ∧
      (text x).toList =
        (if negative then ['-'] else []) ++ (if fraction.isEmpty then whole else whole ++ '.' :: fraction) ∧
      (Decimal.ofDigits negative whole fraction).toFloat = reread x := by
  unfold isFinite at h
  split at h
  next negative mantissa scale hx =>
    obtain ⟨whole, fraction, hwhole, hfraction, htext, hlength, -, hvalue⟩ :=
      exists_magnitudeText (rounded negative mantissa scale).coefficient
    refine ⟨negative, whole, fraction, hwhole, hfraction, ?_, ?_⟩
    · rw [toList_text hx, htext]
    · rw [toFloat_ofDigits hlength hvalue, ← rounded_eq]
      simp only [reread, hx]
  next => cases h

theorem read?_text {x : Float} (h : isFinite x = true) : read? (text x).toList = some (reread x) := by
  obtain ⟨negative, whole, fraction, hwhole, hfraction, htext, hvalue⟩ := exists_text h
  rw [htext, read?_digits hwhole hfraction, hvalue]

theorem isFinite_of_isRepresentable {x : Float} (h : isRepresentable x = true) : isFinite x = true := by
  unfold isRepresentable at h
  split at h
  next heq => simp only [isFinite, heq]
  next => cases h

theorem isRepresentable_eq {x : Float} (h : isFinite x = true) : isRepresentable x = (reread x == x) := by
  unfold isFinite at h
  split at h
  next heq => simp only [isRepresentable, reread, heq]
  next => cases h

/-- The literal of a representable number reads back as the number, also for the zeros, which compare as equal. -/
theorem reread_of_isRepresentable {x : Float} (h : isRepresentable x = true) : reread x = x := by
  rw [isRepresentable_eq (isFinite_of_isRepresentable h)] at h
  obtain ⟨-, -, heq | ⟨-, rfl⟩ | ⟨-, rfl⟩⟩ := Float.beq_iff_ne_nan_and_eq.mp h
  · exact heq
  · decide +kernel
  · decide +kernel

theorem isRepresentable_iff {x : Float} (h : isFinite x = true) : isRepresentable x = true ↔ reread x = x := by
  refine ⟨reread_of_isRepresentable, fun heq => ?_⟩
  have hne : x ≠ Float.nan := by
    rintro rfl
    exact absurd h (by decide +kernel)
  rw [isRepresentable_eq h, heq]
  exact Float.beq_self_iff.mpr hne

end Literal

end StackCalc
