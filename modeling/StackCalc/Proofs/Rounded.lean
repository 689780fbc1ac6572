import StackCalc.Number.Numeral
import StackCalc.Proofs.Nearest

/-!
The double that a number is rounded to, as a relation that computes nothing. Among all finite doubles none is closer to
the number, and its mantissa is even if another one is as close; from the middle behind the largest of them on, it is
infinity. A number is rounded to one double only, and a plain numeral is read as the double that its value is rounded
to.
-/

namespace StackCalc

namespace Double

variable {v : ℚ} {num den : Nat} {mantissa scale mantissa' scale' : Nat}

/-- The magnitude of a finite double. -/
def value (mantissa scale : Nat) : ℚ :=
  mantissa * 2 ^ ((scale : ℤ) - 1074)

/-- The middle between the largest finite double and the power of two behind it. -/
def overflow : ℚ :=
  2 ^ 1024 - 2 ^ 970

/-- No finite double is closer to a number, and the mantissa is even if another one is as close. -/
structure Closest (v : ℚ) (mantissa scale : Nat) : Prop where
  fits : Fits mantissa scale
  le : ∀ {mantissa' scale'}, Fits mantissa' scale' → |value mantissa scale - v| ≤ |value mantissa' scale' - v|
  even : ∀ {mantissa' scale'}, Fits mantissa' scale' → |value mantissa' scale' - v| = |value mantissa scale - v| →
    value mantissa' scale' ≠ value mantissa scale → mantissa % 2 = 0

/-- The double that a number without a sign is rounded to. -/
inductive IsNearest (v : ℚ) : Double → Prop
  | finite {mantissa scale : Nat} (below : v < overflow) (closest : Closest v mantissa scale) :
    IsNearest v (.finite false mantissa scale)
  | infinite (beyond : overflow ≤ v) : IsNearest v (.infinite false)

/-! ### One double at most -/

theorem Fits.lt_of_bits_lt (h : Fits mantissa scale) (h' : Fits mantissa' scale')
    (hbits : scale * 2 ^ 52 + mantissa < scale' * 2 ^ 52 + mantissa') :
    mantissa * 2 ^ scale < mantissa' * 2 ^ scale' := by
  have hlt := h.lt
  have hle := h.le
  have hlt' := h'.lt
  rcases Nat.lt_trichotomy scale scale' with hscale | rfl | hscale
  · calc mantissa * 2 ^ scale
        < 2 ^ 53 * 2 ^ scale := Nat.mul_lt_mul_of_pos_right hlt (Nat.two_pow_pos _)
      _ = 2 ^ 52 * 2 ^ (scale + 1) := by ring
      _ ≤ mantissa' * 2 ^ scale' := Nat.mul_le_mul (h'.le (by omega)) (Nat.pow_le_pow_right Nat.two_pos hscale)
  · exact Nat.mul_lt_mul_of_pos_right (by omega) (Nat.two_pow_pos _)
  · omega

theorem value_lt_value_iff :
    value mantissa scale < value mantissa' scale' ↔ mantissa * 2 ^ scale < mantissa' * 2 ^ scale' := by
  obtain ⟨k, hk⟩ : ∃ k : ℤ, k = 1074 := ⟨_, rfl⟩
  have hunit : (0 : ℚ) < 2 ^ k := zpow_pos two_pos _
  rw [value, value, ← hk, zpow_sub₀ two_ne_zero, zpow_sub₀ two_ne_zero, ← mul_div_assoc, ← mul_div_assoc,
    div_lt_div_iff_of_pos_right hunit, zpow_natCast, zpow_natCast]
  exact_mod_cast Iff.rfl

theorem value_eq_value_iff :
    value mantissa scale = value mantissa' scale' ↔ mantissa * 2 ^ scale = mantissa' * 2 ^ scale' := by
  rw [eq_iff_le_not_lt, eq_iff_le_not_lt, ← not_lt, ← not_lt, value_lt_value_iff, value_lt_value_iff]

theorem Closest.not_bits_lt (h : Closest v mantissa scale) (h' : Closest v mantissa' scale') :
    ¬scale * 2 ^ 52 + mantissa < scale' * 2 ^ 52 + mantissa' := by
  intro hbits
  have hlt := value_lt_value_iff.mpr (h.fits.lt_of_bits_lt h'.fits hbits)
  have hdist : |value mantissa scale - v| = |value mantissa' scale' - v| := le_antisymm (h.le h'.fits) (h'.le h.fits)
  have heven := h.even h'.fits hdist.symm hlt.ne'
  have heven' := h'.even h.fits hdist hlt.ne
  -- Both bit patterns are even, so that there is one between them, and its double is closer than both.
  have hnext : Fits (mantissa + 1) scale := by
    obtain ⟨hlt, hle, hscale⟩ := h.fits
    exact ⟨by omega, fun hpos => by have := hle hpos; omega, hscale⟩
  have habove := value_lt_value_iff.mpr (h.fits.lt_of_bits_lt hnext (Nat.lt_succ_self _))
  have hbelow := value_lt_value_iff.mpr (hnext.lt_of_bits_lt h'.fits (by omega))
  have hcloser := h.le hnext
  grind [abs_of_nonneg, abs_of_nonpos]

theorem Closest.unique (h : Closest v mantissa scale) (h' : Closest v mantissa' scale') :
    mantissa = mantissa' ∧ scale = scale' := by
  have hle := h.not_bits_lt h'
  have hle' := h'.not_bits_lt h
  obtain ⟨hlt, hnormal, -⟩ := h.fits
  obtain ⟨hlt', hnormal', -⟩ := h'.fits
  omega

theorem IsNearest.unique {d d' : Double} (h : IsNearest v d) (h' : IsNearest v d') : d = d' := by
  cases h with
  | finite below closest =>
    cases h' with
    | finite below' closest' =>
      obtain ⟨rfl, rfl⟩ := closest.unique closest'
      rfl
    | infinite beyond => exact absurd below beyond.not_gt
  | infinite beyond =>
    cases h' with
    | finite below' => exact absurd below' beyond.not_gt
    | infinite => rfl

/-! ### The double of a quotient -/

theorem abs_cast_sub_cast (m n : Nat) : |(m : ℚ) - n| = Nat.dist m n := by
  rcases Nat.le_total m n with hle | hle
  · rw [Nat.dist_eq_sub_of_le hle, Nat.cast_sub hle, abs_of_nonpos (sub_nonpos.mpr (Nat.cast_le.mpr hle)), neg_sub]
  · rw [Nat.dist_eq_sub_of_le_right hle, Nat.cast_sub hle, abs_of_nonneg (sub_nonneg.mpr (Nat.cast_le.mpr hle))]

/-- Distances from a quotient, counted in units over its denominator. -/
theorem abs_value_sub (mantissa scale num : Nat) (hden : 0 < den) :
    |value mantissa scale - num / den| =
      Nat.dist (mantissa * 2 ^ scale * den) (num * unitsPerOne) / ((unitsPerOne * den : Nat) : ℚ) := by
  obtain ⟨k, hk, hunits⟩ := exists_unitsPerOne
  have hk' : (1074 : ℤ) = (k : ℤ) := by omega
  have hden' : (0 : ℚ) < den := Nat.cast_pos.mpr hden
  rw [hunits, Nat.pow_eq, ← abs_cast_sub_cast, ← Nat.abs_cast (2 ^ k * den), ← abs_div, value, hk',
    zpow_sub₀ two_ne_zero, zpow_natCast, zpow_natCast]
  push_cast
  refine congrArg abs ?_
  field_simp

/-- The bit pattern of a quotient is that of infinity from the overflow on. -/
theorem nearestBits_lt_iff {top : Nat} (htop : top = 2045) (num : Nat) (hden : 0 < den) :
    nearestBits num den < infinityBits ↔ 2 * (num * unitsPerOne) < (2 ^ 54 - 1) * (den * 2 ^ top) := by
  obtain ⟨hupper, hlower⟩ := scale_bounds (num * unitsPerOne) hden
  simp only [nearestBits, Nat.pow_eq, infinityBits]
  generalize num * unitsPerOne = units at *
  generalize (units / den).log2 - 52 = scale at *
  have hunit : 0 < den * 2 ^ scale := Nat.mul_pos hden (Nat.two_pow_pos _)
  have hle : roundHalfEven units (den * 2 ^ scale) ≤ 2 ^ 53 := roundHalfEven_le hunit hupper
  rcases Nat.lt_trichotomy scale top with hscale | rfl | hscale
  · -- One binade down, everything stays below.
    have hpow : 2 * (den * 2 ^ scale) ≤ den * 2 ^ top := by
      calc 2 * (den * 2 ^ scale) = den * 2 ^ (scale + 1) := by ring
        _ ≤ den * 2 ^ top := Nat.mul_le_mul_left den (Nat.pow_le_pow_right Nat.two_pos hscale)
    omega
  · have hlt := @roundHalfEven_lt_iff units _ hunit (2 ^ 53) (by decide) (by decide)
    omega
  · have hpow : 2 * (den * 2 ^ top) ≤ den * 2 ^ scale := by
      calc 2 * (den * 2 ^ top) = den * 2 ^ (top + 1) := by ring
        _ ≤ den * 2 ^ scale := Nat.mul_le_mul_left den (Nat.pow_le_pow_right Nat.two_pos hscale)
    have hlowest := hlower (by omega)
    have hge : 2 ^ 52 ≤ roundHalfEven units (den * 2 ^ scale) := le_roundHalfEven hunit hlowest
    omega

theorem lt_overflow_iff {top : Nat} (htop : top = 2045) (num : Nat) (hden : 0 < den) :
    (num / den : ℚ) < overflow ↔ 2 * (num * unitsPerOne) < (2 ^ 54 - 1) * (den * 2 ^ top) := by
  obtain ⟨k, hk, hunits⟩ := exists_unitsPerOne
  obtain ⟨j, hj⟩ : ∃ j, j = 970 := ⟨_, rfl⟩
  have hoverflow : overflow = (2 ^ 54 - 1) * 2 ^ j := by
    rw [hj, overflow, sub_mul, one_mul, ← pow_add]
  have htop' : top = j + 1 + k := by omega
  have hden' : (0 : ℚ) < den := Nat.cast_pos.mpr hden
  clear hj hk htop
  subst htop'
  have hscale : (0 : ℚ) < 2 * 2 ^ k := by positivity
  rw [hunits, Nat.pow_eq, hoverflow, div_lt_iff₀ hden', ← mul_lt_mul_iff_left₀ hscale, ← @Nat.cast_lt ℚ]
  push_cast
  ring_nf

theorem exists_closest (hden : 0 < den) (hfinite : nearestBits num den < infinityBits) :
    ∃ mantissa scale, nearestBits num den = scale * 2 ^ 52 + mantissa ∧ Closest (num / den) mantissa scale := by
  obtain ⟨mantissa, scale, hfits, hbits, hnearest⟩ := exists_fits_nearestBits hden hfinite
  have hunit : (0 : ℚ) < (unitsPerOne * den : Nat) := Nat.cast_pos.mpr (Nat.mul_pos unitsPerOne_pos hden)
  refine ⟨mantissa, scale, hbits, hfits, fun h => ?_, fun h hdist hne => ?_⟩
  · rw [abs_value_sub _ _ _ hden, abs_value_sub _ _ _ hden, div_le_div_iff_of_pos_right hunit, Nat.cast_le]
    exact (hnearest h).1
  · rw [abs_value_sub _ _ _ hden, abs_value_sub _ _ _ hden, div_left_inj' hunit.ne', Nat.cast_inj] at hdist
    refine (hnearest h).2 hdist fun hsame => hne ?_
    have hsame := Nat.eq_of_mul_eq_mul_right hden hsame
    exact value_eq_value_iff.mpr hsame

theorem isNearest_nearest (num : Nat) (hden : 0 < den) : IsNearest (num / den) (ofFloat (nearest false num den)) := by
  obtain ⟨top, htop⟩ : ∃ top, top = 2045 := ⟨_, rfl⟩
  have hoverflow := (nearestBits_lt_iff htop num hden).trans (lt_overflow_iff htop num hden).symm
  by_cases hfinite : nearestBits num den < infinityBits
  · obtain ⟨mantissa, scale, hbits, hclosest⟩ := exists_closest hden hfinite
    rw [nearest, hbits, hclosest.fits.ofFloat_eq]
    exact .finite (hoverflow.mp hfinite) hclosest
  · have hbits : nearestBits num den = infinityBits :=
      Nat.le_antisymm (Nat.min_le_right _ _) (Nat.le_of_not_lt hfinite)
    have hinfinite : ofFloat (ofMagnitudeBits false infinityBits) = .infinite false := by decide +kernel
    rw [nearest, hbits, hinfinite]
    exact .infinite (not_lt.mp (hoverflow.not.mp hfinite))

theorem IsNearest.ofFloat_inj {x y : Float} (h : IsNearest v (ofFloat x)) (hxy : ofFloat x = ofFloat y) : x = y := by
  cases hx : ofFloat x with
  | nan =>
    rw [hx] at h
    cases h
  | infinite negative => rw [← ofFloat_eq_infinite hx, ← ofFloat_eq_infinite (hxy.symm.trans hx)]
  | finite negative mantissa scale => rw [← (ofFloat_eq_finite hx).2, ← (ofFloat_eq_finite (hxy.symm.trans hx)).2]

theorem isNearest_iff (num : Nat) (hden : 0 < den) {x : Float} :
    IsNearest (num / den) (ofFloat x) ↔ nearest false num den = x := by
  have hnearest := isNearest_nearest num hden
  constructor
  · intro h
    exact hnearest.ofFloat_inj (hnearest.unique h)
  · rintro rfl
    exact hnearest

end Double

/-! ### The double of a numeral -/

namespace Numeral

/-- The number that a numeral stands for: its digits as one natural, over a power of ten. -/
def value (n : Numeral) : ℚ :=
  Nat.ofDigitChars 10 (n.whole.chars ++ n.fractionDigits) 0 / (10 ^ n.fractionDigits.length : Nat)

theorem digits_fractionDigits (n : Numeral) : ∀ c ∈ n.fractionDigits, c.isDigit = true := by
  rw [fractionDigits]
  cases n.fraction with
  | none => exact List.forall_mem_nil _
  | some fraction => exact fraction.digits

theorem isNearest_value_iff {n : Numeral} {x : Float} :
    Double.IsNearest n.value (Double.ofFloat x) ↔ n.decimal.toFloat = x := by
  have hdigits : ∀ c ∈ n.whole.chars ++ n.fractionDigits, c.isDigit = true :=
    List.forall_mem_append.mpr ⟨n.whole.digits, n.digits_fractionDigits⟩
  rw [value, ← natOfDigits_eq_ofDigitChars hdigits, Double.isNearest_iff _ (Nat.pow_pos (by decide)), decimal,
    Decimal.toFloat_eq_nearest rfl]
  rfl

end Numeral

end StackCalc
