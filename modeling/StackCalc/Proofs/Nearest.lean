import StackCalc.Proofs.Figures

/-!
Rounding as nearest choice. Half-even rounding picks a natural within half a unit, no natural is nearer, and half a unit
is reached at an even one only; these facts determine it. So the double that is chosen for a quotient is nearest to it
among all finite doubles, also where the quotient lies in a lower binade than its neighbour, and it is infinite only
beyond the largest of them.
-/

namespace StackCalc

/-! ### Rounding a quotient -/

section Rounding

variable {num den : Nat}

/-- A rounded quotient is within half a unit of the quotient, and exactly half a unit away only if it is even. -/
theorem two_mul_dist_roundHalfEven (num : Nat) (hden : 0 < den) :
    2 * Nat.dist (roundHalfEven num den * den) num ≤ den ∧
      (2 * Nat.dist (roundHalfEven num den * den) num = den → roundHalfEven num den % 2 = 0) := by
  have hdiv : num / den * den + num % den = num := Nat.div_add_mod' num den
  have hlt : num % den < den := Nat.mod_lt num hden
  have hsucc : (num / den + 1) * den = num / den * den + den := Nat.succ_mul _ _
  unfold roundHalfEven Nat.dist
  simp only
  split <;> omega

/-- Different multiples of a unit are as far apart as their distances from any point between them add up to. -/
theorem dist_mul_le (m n num den : Nat) :
    Nat.dist m n * den ≤ Nat.dist (m * den) num + Nat.dist (n * den) num := by
  rw [← Nat.dist_mul_right, Nat.dist_comm (n * den)]
  exact Nat.dist.triangle_inequality _ _ _

/-- Being within half a unit, and even if half a unit away, determines the rounded quotient. -/
theorem roundHalfEven_eq_iff (hden : 0 < den) {n : Nat} :
    roundHalfEven num den = n ↔
      2 * Nat.dist (n * den) num ≤ den ∧ (2 * Nat.dist (n * den) num = den → n % 2 = 0) := by
  obtain ⟨hle, htie⟩ := two_mul_dist_roundHalfEven num hden
  constructor
  · rintro rfl
    exact ⟨hle, htie⟩
  · rintro ⟨hle', htie'⟩
    -- Two such numbers are neighbours, both half a unit away, and then both would be even.
    have hsum := dist_mul_le (roundHalfEven num den) n num den
    have hone : Nat.dist (roundHalfEven num den) n ≤ 1 :=
      Nat.le_of_mul_le_mul_right (by omega : _ * den ≤ 1 * den) hden
    by_contra hne
    have hdist : Nat.dist (roundHalfEven num den) n = 1 := by
      have := Nat.dist_pos_of_ne hne
      omega
    rw [hdist, Nat.one_mul] at hsum
    have heven := htie (by omega)
    have heven' := htie' (by omega)
    unfold Nat.dist at hdist
    omega

/-- Quotients that are no farther from a rounded quotient are rounded to it as well. -/
theorem roundHalfEven_of_dist_le (hden : 0 < den) {num' : Nat}
    (h : Nat.dist (roundHalfEven num den * den) num' ≤ Nat.dist (roundHalfEven num den * den) num) :
    roundHalfEven num' den = roundHalfEven num den := by
  obtain ⟨hle, htie⟩ := two_mul_dist_roundHalfEven num hden
  rw [roundHalfEven_eq_iff hden]
  exact ⟨by omega, fun htie' => htie (by omega)⟩

/-- No natural is nearer to the quotient. -/
theorem dist_roundHalfEven_le (num : Nat) (hden : 0 < den) (n : Nat) :
    Nat.dist (roundHalfEven num den * den) num ≤ Nat.dist (n * den) num := by
  obtain ⟨hle, -⟩ := two_mul_dist_roundHalfEven num hden
  by_cases hn : roundHalfEven num den = n
  · rw [hn]
  · have hsum := dist_mul_le (roundHalfEven num den) n num den
    have hmul : 1 * den ≤ Nat.dist (roundHalfEven num den) n * den :=
      Nat.mul_le_mul_right den (Nat.dist_pos_of_ne hn)
    omega

theorem roundHalfEven_le (hden : 0 < den) {n : Nat} (h : num ≤ n * den) : roundHalfEven num den ≤ n := by
  by_contra hlt
  have hnear := dist_roundHalfEven_le num hden n
  have hmul : (n + 1) * den ≤ roundHalfEven num den * den := Nat.mul_le_mul_right den (by omega)
  rw [Nat.succ_mul] at hmul
  unfold Nat.dist at hnear
  omega

theorem le_roundHalfEven (hden : 0 < den) {n : Nat} (h : n * den ≤ num) : n ≤ roundHalfEven num den := by
  by_contra hlt
  have hnear := dist_roundHalfEven_le num hden n
  have hmul : (roundHalfEven num den + 1) * den ≤ n * den := Nat.mul_le_mul_right den (by omega)
  rw [Nat.succ_mul] at hmul
  unfold Nat.dist at hnear
  omega

/-- A quotient is rounded below an even natural if it lies below the middle between that and the natural before. -/
theorem roundHalfEven_lt_iff (hden : 0 < den) {n : Nat} (hpos : 0 < n) (heven : n % 2 = 0) :
    roundHalfEven num den < n ↔ 2 * num < (2 * n - 1) * den := by
  obtain ⟨hle, htie⟩ := two_mul_dist_roundHalfEven num hden
  have hmiddle : (2 * n - 1) * den + den = 2 * (n * den) := by
    rw [← Nat.succ_mul, Nat.succ_eq_add_one, Nat.sub_add_cancel (by omega), Nat.mul_assoc]
  have hbefore : (n - 1) * den + den = n * den := by
    rw [← Nat.succ_mul, Nat.succ_eq_add_one, Nat.sub_add_cancel hpos]
  constructor
  · intro hlt
    by_contra hbeyond
    have hmul : roundHalfEven num den * den ≤ (n - 1) * den := Nat.mul_le_mul_right den (by omega)
    -- Only the natural before is near enough, and it is odd.
    rw [Nat.dist_eq_sub_of_le (by omega)] at hle htie
    have hsame : roundHalfEven num den = n - 1 := Nat.eq_of_mul_eq_mul_right hden (by omega)
    have := htie (by omega)
    omega
  · intro hlt
    by_contra hge
    have hmul : n * den ≤ roundHalfEven num den * den := Nat.mul_le_mul_right den (by omega)
    rw [Nat.dist_eq_sub_of_le_right (by omega)] at hle
    omega

end Rounding

/-! ### The nearest double -/

namespace Double

variable {num den : Nat}

/-- The scale of a quotient: 53 bits at most are left of it, and exactly 53 unless the scale is the lowest. -/
theorem scale_bounds (units : Nat) (hden : 0 < den) :
    units ≤ 2 ^ 53 * (den * 2 ^ ((units / den).log2 - 52)) ∧
      (0 < (units / den).log2 - 52 → 2 ^ 52 * (den * 2 ^ ((units / den).log2 - 52)) ≤ units) := by
  have hunits : den * (units / den) + units % den = units := Nat.div_add_mod units den
  have hlt : units % den < den := Nat.mod_lt units hden
  generalize units / den = quotient at hunits ⊢
  have hlog : quotient < 2 ^ (quotient.log2 + 1) := Nat.lt_log2_self
  constructor
  · have hpow : 2 ^ (quotient.log2 + 1) ≤ 2 ^ (53 + (quotient.log2 - 52)) :=
      Nat.pow_le_pow_right Nat.two_pos (by omega)
    calc units
        ≤ den * quotient + den := by omega
      _ = den * (quotient + 1) := by ring
      _ ≤ den * 2 ^ (53 + (quotient.log2 - 52)) := Nat.mul_le_mul_left den (by omega)
      _ = 2 ^ 53 * (den * 2 ^ (quotient.log2 - 52)) := by ring
  · intro hscale
    have hne : quotient ≠ 0 := by
      rintro rfl
      simp at hscale
    calc 2 ^ 52 * (den * 2 ^ (quotient.log2 - 52))
        = den * 2 ^ (52 + (quotient.log2 - 52)) := by ring
      _ = den * 2 ^ quotient.log2 := by rw [Nat.add_sub_cancel' (by omega)]
      _ ≤ den * quotient := Nat.mul_le_mul_left den (Nat.log2_self_le hne)
      _ ≤ units := by omega

/-- Beside every finite double there is a multiple of the scale that is no farther from the quotient: the double itself,
    or, if it lies in a lower binade, the least number of this one. -/
theorem Fits.exists_multiple {mantissa scale : Nat} (h : Fits mantissa scale) (units : Nat) (hden : 0 < den) :
    ∃ n, Nat.dist (n * (den * 2 ^ ((units / den).log2 - 52))) units ≤ Nat.dist (mantissa * 2 ^ scale * den) units ∧
      (n * (den * 2 ^ ((units / den).log2 - 52)) = mantissa * 2 ^ scale * den ∨ n = 2 ^ 52) := by
  obtain ⟨-, hle⟩ := scale_bounds units hden
  generalize (units / den).log2 - 52 = least at hle ⊢
  by_cases hscale : least ≤ scale
  · have hmultiple : mantissa * 2 ^ (scale - least) * (den * 2 ^ least) = mantissa * 2 ^ scale * den := by
      calc mantissa * 2 ^ (scale - least) * (den * 2 ^ least)
          = mantissa * 2 ^ (scale - least + least) * den := by ring
        _ = mantissa * 2 ^ scale * den := by rw [Nat.sub_add_cancel hscale]
    exact ⟨_, (congrArg (Nat.dist · units) hmultiple).le, .inl hmultiple⟩
  · have hbelow : mantissa * 2 ^ scale * den ≤ 2 ^ 52 * (den * 2 ^ least) := by
      calc mantissa * 2 ^ scale * den
          ≤ 2 ^ 53 * 2 ^ scale * den := by gcongr; exact h.lt.le
        _ = 2 ^ (52 + (scale + 1)) * den := by ring
        _ ≤ 2 ^ (52 + least) * den := by gcongr <;> omega
        _ = 2 ^ 52 * (den * 2 ^ least) := by ring
    have hleast : 2 ^ 52 * (den * 2 ^ least) ≤ units := hle (by omega)
    refine ⟨2 ^ 52, ?_, .inr rfl⟩
    rw [Nat.dist_eq_sub_of_le hleast, Nat.dist_eq_sub_of_le (hbelow.trans hleast)]
    exact Nat.sub_le_sub_left hbelow _

/-- Among all finite doubles none is nearer to a quotient than the multiple of its scale to which it is rounded. -/
theorem dist_le_of_fits (units : Nat) (hden : 0 < den) {mantissa scale : Nat} (h : Fits mantissa scale) :
    Nat.dist (roundHalfEven units (den * 2 ^ ((units / den).log2 - 52)) * (den * 2 ^ ((units / den).log2 - 52))) units ≤
      Nat.dist (mantissa * 2 ^ scale * den) units := by
  obtain ⟨n, hn, -⟩ := h.exists_multiple units hden
  exact (dist_roundHalfEven_le units (Nat.mul_pos hden (Nat.two_pow_pos _)) n).trans hn

/-- If that multiple is odd, no other finite double is as near. -/
theorem eq_of_fits_of_odd (units : Nat) (hden : 0 < den) {mantissa scale : Nat} (h : Fits mantissa scale)
    (hodd : roundHalfEven units (den * 2 ^ ((units / den).log2 - 52)) % 2 = 1)
    (hdist : Nat.dist (mantissa * 2 ^ scale * den) units = Nat.dist
      (roundHalfEven units (den * 2 ^ ((units / den).log2 - 52)) * (den * 2 ^ ((units / den).log2 - 52))) units) :
    mantissa * 2 ^ scale * den =
      roundHalfEven units (den * 2 ^ ((units / den).log2 - 52)) * (den * 2 ^ ((units / den).log2 - 52)) := by
  obtain ⟨n, hn, hmultiple⟩ := h.exists_multiple units hden
  generalize (units / den).log2 - 52 = least at *
  have hunit : 0 < den * 2 ^ least := Nat.mul_pos hden (Nat.two_pow_pos _)
  obtain ⟨hhalf, htie⟩ := two_mul_dist_roundHalfEven units hunit
  -- An odd multiple is less than half a unit away, and so is `n` then.
  obtain rfl : roundHalfEven units (den * 2 ^ least) = n := by
    rw [hdist] at hn
    exact (roundHalfEven_eq_iff hunit).mpr ⟨by omega, fun htie' => by omega⟩
  rcases hmultiple with hmultiple | heven
  · exact hmultiple.symm
  · omega

/-- The double nearest to a quotient that is not above a finite double is not above it either. -/
theorem nearestBits_le {mantissa scale : Nat} (h : Fits mantissa scale) (hden : 0 < den)
    (hle : num * unitsPerOne ≤ mantissa * 2 ^ scale * den) : nearestBits num den ≤ scale * 2 ^ 52 + mantissa := by
  have hbits : nearestBits num den ≤ _ := Nat.min_le_left _ _
  refine hbits.trans ?_
  simp only [Nat.pow_eq]
  generalize num * unitsPerOne = units at hle ⊢
  have hquotient : units / den ≤ mantissa * 2 ^ scale := Nat.div_le_of_le_mul (by rwa [Nat.mul_comm den])
  have hscale : (units / den).log2 - 52 ≤ scale := by
    rw [← h.log2_eq, Nat.log2_eq_log_two, Nat.log2_eq_log_two]
    exact Nat.sub_le_sub_right (Nat.log_mono_right hquotient) 52
  obtain ⟨hupper, -⟩ := scale_bounds units hden
  generalize (units / den).log2 - 52 = least at hscale hupper ⊢
  have hunit : 0 < den * 2 ^ least := Nat.mul_pos hden (Nat.two_pow_pos _)
  have hrounded : roundHalfEven units (den * 2 ^ least) ≤ 2 ^ 53 := roundHalfEven_le hunit hupper
  rcases Nat.eq_or_lt_of_le hscale with rfl | hlt
  · have hmantissa : roundHalfEven units (den * 2 ^ least) ≤ mantissa := by
      refine roundHalfEven_le hunit (hle.trans_eq ?_)
      ring
    omega
  · have := h.le (by omega)
    omega

/-- A finite nearest double has parts that fit. It is nearest among all finite doubles, and its mantissa is even if
    another one is as near. -/
theorem exists_fits_nearestBits (hden : 0 < den) (hfinite : nearestBits num den < infinityBits) :
    ∃ mantissa scale, Fits mantissa scale ∧ nearestBits num den = scale * 2 ^ 52 + mantissa ∧
      ∀ {mantissa' scale'}, Fits mantissa' scale' →
        Nat.dist (mantissa * 2 ^ scale * den) (num * unitsPerOne) ≤
            Nat.dist (mantissa' * 2 ^ scale' * den) (num * unitsPerOne) ∧
          (Nat.dist (mantissa' * 2 ^ scale' * den) (num * unitsPerOne) =
              Nat.dist (mantissa * 2 ^ scale * den) (num * unitsPerOne) →
            mantissa' * 2 ^ scale' * den ≠ mantissa * 2 ^ scale * den → mantissa % 2 = 0) := by
  have hnearest := @dist_le_of_fits den (num * unitsPerOne) hden
  have hodd := @eq_of_fits_of_odd den (num * unitsPerOne) hden
  obtain ⟨hupper, hlower⟩ := scale_bounds (num * unitsPerOne) hden
  simp only [nearestBits, Nat.pow_eq, infinityBits] at hfinite ⊢
  generalize num * unitsPerOne = units at *
  generalize (units / den).log2 - 52 = scale at *
  have hunit : 0 < den * 2 ^ scale := Nat.mul_pos hden (Nat.two_pow_pos _)
  have hle : roundHalfEven units (den * 2 ^ scale) ≤ 2 ^ 53 := roundHalfEven_le hunit hupper
  have hge : 0 < scale → 2 ^ 52 ≤ roundHalfEven units (den * 2 ^ scale) :=
    fun hscale => le_roundHalfEven hunit (hlower hscale)
  generalize roundHalfEven units (den * 2 ^ scale) = mantissa at *
  rcases Nat.eq_or_lt_of_le hle with rfl | hlt
  · -- Rounding up carries into the next binade.
    have hcarry : 2 ^ 52 * 2 ^ (scale + 1) * den = 2 ^ 53 * (den * 2 ^ scale) := by ring
    refine ⟨2 ^ 52, scale + 1, ⟨by omega, fun _ => Nat.le_refl _, by omega⟩, by omega, fun h => ⟨?_, fun _ _ => rfl⟩⟩
    exact hcarry ▸ hnearest h
  · have hunits : mantissa * 2 ^ scale * den = mantissa * (den * 2 ^ scale) := by ring
    refine ⟨mantissa, scale, ⟨hlt, hge, by omega⟩, by omega, fun h => ?_⟩
    rw [hunits]
    refine ⟨hnearest h, fun hdist hne => ?_⟩
    by_contra heven
    exact hne (hodd h (by omega) hdist)

open Float.Model UnpackedFloat in
/-- A bit pattern that does not stand for infinity or for no number is that of its double. -/
theorem toBits_ofBits {bits : UInt64} (h : bits.toNat / 2 ^ 52 % 2 ^ 11 ≠ 2047) :
    (Float.ofBits bits).toBits = bits := by
  have hnan : ¬@isNaNBits Format.binary64 bits.toBitVec = true := by
    simp only [isNaNBits, decide_eq_true_eq, not_and]
    intro hexponent
    have hfield := congrArg BitVec.toNat hexponent
    rw [unpackExponent_def, BitVec.extractLsb'_toNat, Nat.shiftRight_eq_div_pow] at hfield
    exact absurd hfield h
  have hpack := @pack_unpack Format.binary64 bits.toBitVec
  rw [if_neg hnan] at hpack
  exact UInt64.toBitVec_inj.mp hpack

/-- Parts that fit are the parts of the double that they make up. -/
theorem Fits.ofFloat_eq {mantissa scale : Nat} (h : Fits mantissa scale) (negative : Bool) :
    ofFloat (ofMagnitudeBits negative (scale * 2 ^ 52 + mantissa)) = .finite negative mantissa scale := by
  obtain ⟨hlt, hle, hscale⟩ := h
  have hparts : ∀ (sign : Nat) {bits : UInt64}, sign < 2 →
      bits.toNat = sign * 2 ^ 63 + (scale * 2 ^ 52 + mantissa) →
        ofFloat (Float.ofBits bits) = .finite (sign == 1) mantissa scale := by
    intro sign bits hsign hbits
    -- A mantissa of 53 bits adds one to the scale in the exponent field.
    have hexponent : bits.toNat / 2 ^ 52 % 2 ^ 11 = scale + mantissa / 2 ^ 52 := by omega
    have hsign' : bits.toNat / 2 ^ 63 = sign := by omega
    rw [ofFloat, toBits_ofBits (by omega)]
    simp only [Nat.pow_eq, hexponent, hsign']
    rw [if_neg (by omega)]
    split <;> congr 1 <;> omega
  cases negative with
  | false =>
    refine hparts 0 (by decide) ?_
    rw [if_neg (by decide), UInt64.toNat_ofNat', Nat.mod_eq_of_lt] <;> omega
  | true =>
    refine hparts 1 (by decide) ?_
    rw [if_pos rfl, Nat.pow_eq, UInt64.toNat_ofNat', Nat.mod_eq_of_lt] <;> omega

/-- There is a largest finite double, and it is a whole number. -/
theorem exists_largest :
    ∃ mantissa scale, Fits mantissa scale ∧ unitsPerOne ∣ mantissa * 2 ^ scale ∧
      ∀ {mantissa' scale'}, Fits mantissa' scale' → mantissa' * 2 ^ scale' ≤ mantissa * 2 ^ scale := by
  obtain ⟨top, htop⟩ : ∃ top, top = 2045 := ⟨_, rfl⟩
  obtain ⟨k, hk, hunits⟩ := exists_unitsPerOne
  have hdvd : unitsPerOne ∣ 2 ^ top := hunits ▸ Nat.pow_dvd_pow 2 (by omega)
  refine ⟨2 ^ 53 - 1, top, ⟨by decide, fun _ => by decide, htop.le⟩, hdvd.mul_left _, fun h => ?_⟩
  exact Nat.mul_le_mul (Nat.le_sub_one_of_lt h.lt) (Nat.pow_le_pow_right Nat.two_pos (htop ▸ h.scale_le))

end Double

end StackCalc
