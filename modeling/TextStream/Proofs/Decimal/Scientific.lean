import TextStream.Proofs.Decimal.Bits

/-!
# Scientific notation

A decimal number `m * 10 ^ e` is turned into the double it is nearest to, both
where doubles are exact enough to calculate with and where integers are used.
-/

namespace TextStream.Decimal

open Float.Model (Format totalExponent UnpackedFloat)
open Float.Model.UnpackedFloat

variable {M m : Nat} {E e : Int} {x : ℚ}

theorem zpow_eq_div {b : ℚ} (hb : b ≠ 0) (k : Int) : b ^ k = b ^ k.toNat / b ^ (-k).toNat := by
  rw [← zpow_natCast, ← zpow_natCast, ← zpow_sub₀ hb]
  congr 1
  omega

-- ---------------------------------------------------------------------------
-- How large and how small the numbers are
-- ---------------------------------------------------------------------------

theorem Nearest.lt_greatest (hC : Canonical M E) (hE : E ≤ 971) (h : Nearest M E x) :
    x < 2 ^ (1024 : Int) :=
  (h.lt_two_zpow hC).trans_le (zpow_le_zpow_right₀ (by norm_num) (by omega))

theorem Nearest.least_le (hC : Canonical M E) (h : Nearest M E x) : 2 ^ (-1075 : Int) ≤ x := by
  have hM : (1 : ℚ) ≤ M := by exact_mod_cast hC.pos
  have hreach := reach_le M E
  calc
    (2 : ℚ) ^ (-1075 : Int) = 1 / 2 * 2 ^ (-1074 : Int) := by
      rw [show (-1074 : Int) = -1075 + 1 by rfl, zpow_add_one₀ (by norm_num)]
      ring
    _ ≤ 1 / 2 * 2 ^ E := by
      refine mul_le_mul_of_nonneg_left ?_ (by norm_num)
      exact zpow_le_zpow_right₀ (by norm_num) hC.low
    _ ≤ (M - reach M E) * 2 ^ E := by
      refine mul_le_mul_of_nonneg_right ?_ (two_zpow_pos E).le
      linarith
    _ ≤ x := h.low

theorem ten_zpow_eq (e : Int) : (10 : ℚ) ^ e = 5 ^ e * 2 ^ e := by
  rw [← mul_zpow]
  norm_num

theorem exponent_le_of_nearest (hC : Canonical M E) (hE : E ≤ 971) (hm : 0 < m)
    (h : Nearest M E (m * 10 ^ e)) : e ≤ 2 ^ 11 := by
  by_contra hbig
  have hm' : (1 : ℚ) ≤ m := by exact_mod_cast hm
  have hfive : (1 : ℚ) ≤ 5 ^ e := one_le_zpow₀ (by norm_num) (by omega)
  have htwo := two_zpow_pos e
  have hlt : (2 : ℚ) ^ e < 2 ^ (1024 : Int) := by
    refine lt_of_le_of_lt ?_ (h.lt_greatest hC hE)
    rw [ten_zpow_eq]
    nlinarith [mul_le_mul hm' hfive (by norm_num) (by linarith)]
  have := two_zpow_lt hlt
  omega

theorem le_exponent_of_nearest (hC : Canonical M E) (hm : 0 < m) (h : Nearest M E (m * 10 ^ e)) :
    -((2 ^ 11 : Int) + m.log2) ≤ e := by
  by_contra hsmall
  have hm' : (m : ℚ) < 2 ^ (m.log2 + 1) := by exact_mod_cast Nat.lt_log2_self
  have hfive : (5 : ℚ) ^ e ≤ 1 := zpow_le_one_of_nonpos₀ (by norm_num) (by omega)
  have htwo := two_zpow_pos e
  have hlt : (2 : ℚ) ^ (-1075 : Int) < 2 ^ ((m.log2 + 1 : Nat) + e) := by
    refine lt_of_le_of_lt (h.least_le hC) ?_
    rw [ten_zpow_eq, zpow_add₀ (by norm_num), zpow_natCast]
    calc
      (m : ℚ) * (5 ^ e * 2 ^ e) ≤ m * (1 * 2 ^ e) := by gcongr
      _ = m * 2 ^ e := by rw [one_mul]
      _ < 2 ^ (m.log2 + 1) * 2 ^ e := mul_lt_mul_of_pos_right hm' htwo
  have := two_zpow_lt hlt
  omega

-- ---------------------------------------------------------------------------
-- Exact powers of ten
-- ---------------------------------------------------------------------------

/-- Whether the double is the number `n`. -/
def isExactly (n : Nat) (x : Float) : Bool :=
  match x.toModel.unpack with
  | .finite .positive M E _ => M * 2 ^ E.toNat == n * 2 ^ (-E).toNat
  | _ => false

theorem isExactly_iff {n : Nat} {x : Float} (h : isExactly n x = true) :
    ∃ M E h, x.toModel.unpack = .finite .positive M E h ∧ (M * 2 ^ E : ℚ) = n := by
  unfold isExactly at h
  split at h
  · next M E hM hx =>
    refine ⟨M, E, hM, hx, ?_⟩
    have hnat : (M * 2 ^ E.toNat : ℚ) = n * 2 ^ (-E).toNat := by exact_mod_cast eq_of_beq h
    rw [zpow_eq_div (by norm_num), ← mul_div_assoc, hnat]
    field_simp
  · simp at h

theorem isExactly_powers :
    ∀ k : Fin 23, isExactly (10 ^ k.val) (Float.exactlyRepresentablePowersOfTen[k]) = true := by
  decide +kernel

-- ---------------------------------------------------------------------------
-- Decimal numbers
-- ---------------------------------------------------------------------------

/-- The positive double with that mantissa and exponent. -/
def double (hC : Canonical M E) : Float :=
  .ofModel (.pack (.finite .positive M E hC.pos))

/-- Small numbers are calculated with doubles. -/
theorem fast_of_nearest (hC : Canonical M E) (hm : 0 < m) (hlt : m < 2 ^ 53) {k : Nat}
    {power : Float} (hpower : isExactly (10 ^ k) power = true) :
    (Nearest M E (m / 10 ^ k) → m.toUInt64.toFloat / power = double hC) ∧
      (Nearest M E (m * 10 ^ k) → m.toUInt64.toFloat * power = double hC) := by
  obtain ⟨M₂, E₂, h₂, hunpack₂, hval₂⟩ := isExactly_iff hpower
  obtain ⟨M₁, E₁, hC₁, hE₁, hM₁, hval₁, hofNat⟩ := ofNat_eq hm hlt
  have hunpack₁ : m.toUInt64.toFloat.toModel.unpack = .finite .positive M₁ E₁ hC₁.pos := by
    have htoNat : m.toUInt64.toNat = m := Nat.mod_eq_of_lt (by omega)
    show (Float.Model.pack (ofNat .binary64 m.toUInt64.toNat)).unpack = _
    rw [htoNat, hofNat, unpack_pack hC₁ (by omega)]
  push_cast at hval₂
  constructor
  · intro hx
    show Float.ofModel (.pack (div .binary64 m.toUInt64.toFloat.toModel.unpack
      power.toModel.unpack)) = _
    rw [hunpack₁, hunpack₂, div_of_nearest hC (by rwa [hval₁, hval₂])]
    rfl
  · intro hx
    show Float.ofModel (.pack (mul .binary64 m.toUInt64.toFloat.toModel.unpack
      power.toModel.unpack)) = _
    rw [hunpack₁, hunpack₂, mul_of_nearest hC (hM₁.trans (Nat.le_mul_of_pos_right _ h₂))
      (by rwa [hval₁, hval₂])]
    rfl

theorem mul_power_of_nearest (hC : Canonical M E) (hm : 0 < m) {k : Nat}
    (hx : Nearest M E (m * 10 ^ k)) {h₁ : 0 < m <<< 53} {h₂ : 0 < 10 ^ k} :
    mul .binary64 (.finite .positive (m <<< 53) (-53) h₁) (.finite .positive (10 ^ k) 0 h₂) =
      .finite .positive M E hC.pos := by
  refine mul_of_nearest hC ?_ ?_
  · rw [Nat.shiftLeft_eq]
    calc
      2 ^ 52 ≤ 1 * 2 ^ 53 := by norm_num
      _ ≤ m * 2 ^ 53 := Nat.mul_le_mul_right _ hm
      _ ≤ m * 2 ^ 53 * 10 ^ k := Nat.le_mul_of_pos_right _ h₂
  · have hval : ((m <<< 53 : Nat) * 2 ^ (-53 : Int) : ℚ) = m := by
      rw [Nat.shiftLeft_eq, zpow_neg]
      push_cast
      exact mul_inv_cancel_right₀ (by norm_num) _
    rw [hval, zpow_zero, mul_one]
    push_cast
    exact hx

theorem div_power_of_nearest (hC : Canonical M E) {k : Nat} (hx : Nearest M E (m / 10 ^ k))
    {h₁ : 0 < m} {h₂ : 0 < 10 ^ k} :
    div .binary64 (.finite .positive m 0 h₁) (.finite .positive (10 ^ k) 0 h₂) =
      .finite .positive M E hC.pos := by
  refine div_of_nearest hC ?_
  rw [zpow_zero, mul_one, mul_one]
  push_cast
  exact hx

/-- Other numbers are calculated with integers. -/
theorem slow_of_nearest (hC : Canonical M E) (hE : E ≤ 971) (hm : 0 < m)
    (hx : Nearest M E (m * 10 ^ e)) :
    UnpackedFloat.ofScientific .binary64 m e = .finite .positive M E hC.pos := by
  have hhigh := exponent_le_of_nearest hC hE hm hx
  have hlow := le_exponent_of_nearest hC hm hx
  unfold UnpackedFloat.ofScientific
  rw [dif_neg hm.ne', if_neg (by show ¬ e > 2 ^ 11; omega),
    if_neg (by show ¬ e < -((2 ^ 11 : Int) + m.log2); omega)]
  split
  · next he =>
    obtain ⟨k, rfl⟩ := Int.eq_ofNat_of_zero_le he
    exact mul_power_of_nearest hC hm (by simpa using hx)
  · next he =>
    obtain ⟨k, rfl⟩ : ∃ k : Nat, e = -k := ⟨(-e).toNat, by omega⟩
    have hk : (- -(k : Int)).toNat = k := by omega
    simp only [hk]
    rw [zpow_neg, zpow_natCast, ← div_eq_mul_inv] at hx
    exact div_power_of_nearest hC hx

/-- A decimal number is turned into the double it is nearest to. -/
theorem ofScientific_of_nearest (hC : Canonical M E) (hE : E ≤ 971) (hm : 0 < m)
    (hx : Nearest M E (m * 10 ^ e)) : Float.ofScientific m (e < 0) e.natAbs = double hC := by
  unfold Float.ofScientific
  split
  · next hfast =>
    have hpower := isExactly_powers ⟨e.natAbs, by omega⟩
    obtain ⟨hdiv, hmul⟩ := fast_of_nearest hC hm hfast.1 hpower
    simp only
    split
    · next he =>
      refine hdiv ?_
      have hk : e = -(e.natAbs : Int) := by
        rw [decide_eq_true_eq] at he
        omega
      rw [hk, zpow_neg, zpow_natCast, ← div_eq_mul_inv] at hx
      exact hx
    · next he =>
      refine hmul ?_
      have hk : e = (e.natAbs : Int) := by
        rw [decide_eq_true_eq] at he
        omega
      rw [hk, zpow_natCast] at hx
      exact hx
  · next hslow =>
    show Float.ofModel (.pack (UnpackedFloat.ofScientific .binary64 m _)) = _
    have he : (if decide (e < 0) then Int.negOfNat e.natAbs else Int.ofNat e.natAbs) = e := by
      split
      · next he =>
        rw [decide_eq_true_eq] at he
        rw [Int.negOfNat_eq, Int.ofNat_eq_natCast]
        omega
      · next he =>
        rw [decide_eq_true_eq] at he
        rw [Int.ofNat_eq_natCast]
        omega
    rw [he, slow_of_nearest hC hE hm hx]
    rfl

end TextStream.Decimal
