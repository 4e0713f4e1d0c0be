import Mathlib

/-!
# Rounding to a double

A mantissa with two more bits says where a number lies between two neighbours.
Shifting bits out keeps that true, so whatever lies nearest to a double, and at
the same distance from two only if that double is even, is rounded to it.
-/

namespace TextStream.Decimal

open Float.Model (Format totalExponent UnpackedFloat)
open Float.Model.UnpackedFloat

-- ---------------------------------------------------------------------------
-- Mantissas with two more bits
-- ---------------------------------------------------------------------------

/-- Where `y` lies, in units of the mantissa's last place. -/
def Locates (m : ExtendedMantissa) (y : ℚ) : Prop :=
  match m.roundBit, m.stickyBit with
  | false, false => y = m.mantissa
  | false, true => m.mantissa < y ∧ y < m.mantissa + 1 / 2
  | true, false => y = m.mantissa + 1 / 2
  | true, true => m.mantissa + 1 / 2 < y ∧ y < m.mantissa + 1

namespace Locates

variable {m : ExtendedMantissa} {y : ℚ}

theorem bounds (h : Locates m y) : (m.mantissa : ℚ) ≤ y ∧ y < m.mantissa + 1 := by
  obtain ⟨n, r, s⟩ := m
  cases r <;> cases s <;> simp only [Locates] at h ⊢
  · constructor <;> linarith
  · constructor <;> linarith
  · constructor <;> linarith
  · constructor <;> linarith

theorem shiftRightOne (h : Locates m y) : Locates m.shiftRightOne (y / 2) := by
  obtain ⟨n, r, s⟩ := m
  -- the bit that leaves the mantissa is its parity
  obtain ⟨k, rfl | rfl⟩ := n.even_or_odd'
  · have hk : 2 * k / 2 = k := by omega
    have hbit : (2 * k % 2 != 0) = false := by simp
    cases r <;> cases s <;>
      simp only [Locates, ExtendedMantissa.shiftRightOne, hk, hbit, Bool.or_self, Bool.or_true,
        Bool.or_false, Nat.cast_mul, Nat.cast_ofNat] at h ⊢
    · linarith
    · constructor <;> linarith
    · constructor <;> linarith
    · constructor <;> linarith
  · have hk : (2 * k + 1) / 2 = k := by omega
    have hbit : ((2 * k + 1) % 2 != 0) = true := by simp
    cases r <;> cases s <;>
      simp only [Locates, ExtendedMantissa.shiftRightOne, hk, hbit, Bool.or_self, Bool.or_true,
        Bool.or_false, Nat.cast_mul, Nat.cast_ofNat, Nat.cast_add, Nat.cast_one] at h ⊢
    · linarith
    · constructor <;> linarith
    · constructor <;> linarith
    · constructor <;> linarith

theorem shiftRight (h : Locates m y) (n : Nat) : Locates (m >>> n) (y / 2 ^ n) := by
  show Locates (n.repeat ExtendedMantissa.shiftRightOne m) _
  induction n with
  | zero => simpa [Nat.repeat] using h
  | succ n ih =>
    rw [Nat.repeat, pow_succ, ← div_div]
    exact ih.shiftRightOne

/-- A number no farther from `k` than half a unit is rounded to it, if a tie goes to `k`. -/
theorem roundedMantissa_eq (h : Locates m y) {k : Nat} (hlow : (k : ℚ) - 1 / 2 ≤ y)
    (hhigh : y ≤ k + 1 / 2)
    (htie : k % 2 = 1 → (k : ℚ) - 1 / 2 ≠ y ∧ y ≠ k + 1 / 2) : m.roundedMantissa = k := by
  obtain ⟨n, r, s⟩ := m
  cases r <;> cases s <;>
    simp only [Locates, ExtendedMantissa.roundedMantissa, ExtendedMantissa.accuracy,
      Accuracy.roundToNearestEven] at h ⊢
  · have h₁ : (n : ℚ) < k + 1 := by linarith
    have h₂ : (k : ℚ) < n + 1 := by linarith
    norm_cast at h₁ h₂
    omega
  · have h₁ : (n : ℚ) < k + 1 := by linarith
    have h₂ : (k : ℚ) < n + 1 := by linarith
    norm_cast at h₁ h₂
    omega
  · have h₁ : (n : ℚ) ≤ k := by linarith
    have h₂ : (k : ℚ) ≤ n + 1 := by linarith
    norm_cast at h₁ h₂
    rcases Nat.mod_two_eq_zero_or_one k with hk | hk
    · omega
    · obtain ⟨hne, hne'⟩ := htie hk
      have h₃ : n ≠ k := by
        rintro rfl
        exact hne' h
      have h₄ : n + 1 ≠ k := by
        rintro rfl
        refine hne ?_
        push_cast
        linarith
      omega
  · have h₁ : (n : ℚ) < k := by linarith
    have h₂ : (k : ℚ) < n + 2 := by linarith
    norm_cast at h₁ h₂
    omega

end Locates

-- ---------------------------------------------------------------------------
-- The neighbourhood of a double
-- ---------------------------------------------------------------------------

/-- Mantissa and exponent of a positive double, as they are stored. -/
structure Canonical (M : Nat) (E : Int) : Prop where
  pos : 0 < M
  lt : M < 2 ^ 53
  low : -1074 ≤ E
  normal : 2 ^ 52 ≤ M ∨ E = -1074

/-- How far below `M` the numbers reach that are rounded to it. -/
def reach (M : Nat) (E : Int) : ℚ :=
  if M = 2 ^ 52 ∧ -1074 < E then 1 / 4 else 1 / 2

/-- The number is rounded to `M * 2 ^ E`. -/
structure Nearest (M : Nat) (E : Int) (x : ℚ) : Prop where
  low : (M - reach M E) * 2 ^ E ≤ x
  high : x ≤ (M + 1 / 2) * 2 ^ E
  tie : M % 2 = 1 → (M - reach M E) * 2 ^ E ≠ x ∧ x ≠ (M + 1 / 2) * 2 ^ E

variable {M m : Nat} {E e : Int} {x : ℚ}

theorem reach_pos (M : Nat) (E : Int) : 0 < reach M E := by
  unfold reach
  split <;> norm_num

theorem reach_le (M : Nat) (E : Int) : reach M E ≤ 1 / 2 := by
  unfold reach
  split <;> norm_num

theorem two_zpow_pos (e : Int) : (0 : ℚ) < 2 ^ e :=
  zpow_pos (by norm_num) e

theorem two_zpow_lt {k l : Int} (h : (2 : ℚ) ^ k < 2 ^ l) : k < l :=
  (zpow_lt_zpow_iff_right₀ (by norm_num)).mp h

theorem Nearest.exact (M : Nat) (E : Int) : Nearest M E (M * 2 ^ E) := by
  have hE := two_zpow_pos E
  have hreach := mul_pos (reach_pos M E) hE
  refine ⟨?_, ?_, fun _ => ⟨?_, ?_⟩⟩
  · linarith
  · linarith
  · exact ne_of_lt (by linarith)
  · exact ne_of_lt (by linarith)

namespace Nearest

variable (hC : Canonical M E) (h : Nearest M E x)
include hC h

theorem lt_two_zpow : x < 2 ^ (53 + E) := by
  have hE := two_zpow_pos E
  have hM : (M : ℚ) + 1 ≤ 2 ^ 53 := by exact_mod_cast hC.lt
  calc
    x ≤ (M + 1 / 2) * 2 ^ E := h.high
    _ < 2 ^ 53 * 2 ^ E := by
      refine mul_lt_mul_of_pos_right ?_ hE
      linarith
    _ = 2 ^ (53 + E) := by
      rw [zpow_add₀ (by norm_num)]
      norm_cast

theorem two_zpow_le (hE : -1074 < E) : (2 : ℚ) ^ (51 + E) ≤ x := by
  have hpos := two_zpow_pos E
  have hM : (2 : ℚ) ^ 52 ≤ M := by exact_mod_cast hC.normal.resolve_right (by omega)
  have hhalf : (2 : ℚ) ^ 51 + 1 / 2 ≤ 2 ^ 52 := by norm_num
  have hreach := reach_le M E
  calc
    (2 : ℚ) ^ (51 + E) = 2 ^ 51 * 2 ^ E := by
      rw [zpow_add₀ (by norm_num)]
      norm_cast
    _ ≤ (M - reach M E) * 2 ^ E := by
      refine mul_le_mul_of_nonneg_right ?_ hpos.le
      linarith
    _ ≤ x := h.low

/-- Only below a power of two does a neighbourhood reach into smaller exponents. -/
theorem two_zpow_le_of_ne (hE : -1074 < E) (hM : M ≠ 2 ^ 52) : (2 : ℚ) ^ (52 + E) ≤ x := by
  have hpos := two_zpow_pos E
  have hge : 2 ^ 52 < M := lt_of_le_of_ne (hC.normal.resolve_right (by omega)) (Ne.symm hM)
  have hge' : (2 : ℚ) ^ 52 + 1 ≤ M := by exact_mod_cast hge
  have hreach := reach_le M E
  calc
    (2 : ℚ) ^ (52 + E) = 2 ^ 52 * 2 ^ E := by
      rw [zpow_add₀ (by norm_num)]
      norm_cast
    _ ≤ (M - reach M E) * 2 ^ E := by
      refine mul_le_mul_of_nonneg_right ?_ hpos.le
      linarith
    _ ≤ x := h.low

end Nearest

-- ---------------------------------------------------------------------------
-- The exponent of the result
-- ---------------------------------------------------------------------------

theorem targetExponent_eq (t : Int) : Format.binary64.targetExponent t = max (t - 53) (-1074) := by
  rfl

theorem lt_two_zpow_total (h : x / 2 ^ e < m + 1) : x < 2 ^ totalExponent m e := by
  have hm : (m : ℚ) + 1 ≤ 2 ^ (m.log2 + 1) := by exact_mod_cast Nat.lt_log2_self
  rw [div_lt_iff₀ (two_zpow_pos e)] at h
  calc
    x < (m + 1) * 2 ^ e := h
    _ ≤ 2 ^ (m.log2 + 1) * 2 ^ e := mul_le_mul_of_nonneg_right hm (two_zpow_pos e).le
    _ = 2 ^ totalExponent m e := by
      unfold totalExponent
      rw [zpow_add₀ (by norm_num) ((m.log2 : Int) + 1)]
      norm_cast

theorem two_zpow_total_le (hm : m ≠ 0) (h : (m : ℚ) ≤ x / 2 ^ e) :
    2 ^ (totalExponent m e - 1) ≤ x := by
  have hm' : (2 : ℚ) ^ m.log2 ≤ m := by exact_mod_cast Nat.log2_self_le hm
  rw [le_div_iff₀ (two_zpow_pos e)] at h
  calc
    (2 : ℚ) ^ (totalExponent m e - 1) = 2 ^ m.log2 * 2 ^ e := by
      unfold totalExponent
      rw [← zpow_natCast, ← zpow_add₀ (by norm_num)]
      congr 1
      ring
    _ ≤ m * 2 ^ e := mul_le_mul_of_nonneg_right hm' (two_zpow_pos e).le
    _ ≤ x := h

/-- The exponent at which a number is rounded is that of the result, or the one
before it where the result carries over to a power of two. -/
theorem targetExponent_of_nearest (hC : Canonical M E) (hx : Nearest M E x)
    (hlow : (m : ℚ) ≤ x / 2 ^ e) (hhigh : x / 2 ^ e < m + 1)
    (he : e ≤ Format.binary64.targetExponent (totalExponent m e)) :
    Format.binary64.targetExponent (totalExponent m e) = E ∨
      Format.binary64.targetExponent (totalExponent m e) = E - 1 ∧ M = 2 ^ 52 ∧ -1074 < E ∧
        x < 2 ^ (52 + E) := by
  have hlt := hx.lt_two_zpow hC
  have htotal := lt_two_zpow_total hhigh
  rw [targetExponent_eq] at he ⊢
  have hE := hC.low
  -- a mantissa of zero says nothing about `x`, but it only stands at the least exponent
  have htop : totalExponent m e ≤ 53 + E := by
    by_cases hm : m = 0
    · subst hm
      simp only [totalExponent, Nat.log2_zero, Nat.cast_zero] at he ⊢
      omega
    · have := two_zpow_lt ((two_zpow_total_le hm hlow).trans_lt hlt)
      omega
  rcases eq_or_lt_of_le hE with hE | hE
  · exact .inl (by omega)
  · have hfloor := two_zpow_lt ((hx.two_zpow_le hC hE).trans_lt htotal)
    by_cases hM : M = 2 ^ 52
    · rcases lt_or_ge x (2 ^ (52 + E)) with hsmall | hbig
      · rcases eq_or_lt_of_le htop with htop | htop
        · exact .inl (by omega)
        · exact .inr ⟨by omega, hM, hE, hsmall⟩
      · have := two_zpow_lt (hbig.trans_lt htotal)
        exact .inl (by omega)
    · have := two_zpow_lt ((hx.two_zpow_le_of_ne hC hE hM).trans_lt htotal)
      exact .inl (by omega)

-- ---------------------------------------------------------------------------
-- Rounding
-- ---------------------------------------------------------------------------

theorem mantissa_ofMantissaAndAccuracy (m : Nat) (a : Accuracy) :
    (ExtendedMantissa.ofMantissaAndAccuracy m a).mantissa = m := by
  unfold ExtendedMantissa.ofMantissaAndAccuracy
  split <;> rfl

theorem locates_shiftToTargetExponent {a : Accuracy}
    (h : Locates (.ofMantissaAndAccuracy m a) (x / 2 ^ e))
    (he : e ≤ Format.binary64.targetExponent (totalExponent m e)) :
    Locates (shiftToTargetExponent .binary64 m e a).1
        (x / 2 ^ Format.binary64.targetExponent (totalExponent m e)) ∧
      (shiftToTargetExponent .binary64 m e a).2 =
        Format.binary64.targetExponent (totalExponent m e) := by
  unfold shiftToTargetExponent shiftToExponent
  simp only
  generalize Format.binary64.targetExponent (totalExponent m e) = t at he ⊢
  obtain ⟨k, rfl⟩ : ∃ k : Nat, t = e + k := ⟨(t - e).toNat, by omega⟩
  have hk : (e + k - e).toNat = k := by omega
  rw [hk]
  refine ⟨?_, rfl⟩
  rw [zpow_add₀ (by norm_num), ← div_div, zpow_natCast]
  exact h.shiftRight k

/-- A canonical mantissa has its bits where they belong. -/
theorem shiftToTargetExponent_of_canonical (hC : Canonical M E) :
    shiftToTargetExponent .binary64 M E .exact = (⟨M, false, false⟩, E) := by
  obtain ⟨hpos, hlt, hE, hnormal⟩ := hC
  have htarget : Format.binary64.targetExponent (totalExponent M E) = E := by
    have hlog : M.log2 < 53 := (Nat.log2_lt hpos.ne').mpr hlt
    rw [targetExponent_eq]
    unfold totalExponent
    rcases hnormal with hge | rfl
    · have hlog' : 52 ≤ M.log2 := (Nat.le_log2 hpos.ne').mpr hge
      omega
    · omega
  unfold shiftToTargetExponent shiftToExponent
  simp only [htarget, sub_self, Int.toNat_zero, Nat.cast_zero, add_zero]
  rfl

theorem shiftToTargetExponent_carry (hE : -1074 < E) :
    shiftToTargetExponent .binary64 (2 ^ 53) (E - 1) .exact = (⟨2 ^ 52, false, false⟩, E) := by
  have htarget : Format.binary64.targetExponent (totalExponent (2 ^ 53) (E - 1)) = E := by
    rw [targetExponent_eq]
    unfold totalExponent
    rw [Nat.log2_two_pow]
    omega
  have hone : (E - (E - 1)).toNat = 1 := by omega
  unfold shiftToTargetExponent shiftToExponent
  simp only [htarget, hone, Nat.cast_one, sub_add_cancel]
  rfl

/-- What is nearest to a double is rounded to it. -/
theorem roundWithAccuracy_of_nearest (hC : Canonical M E) (hx : Nearest M E x) (s : Sign)
    {a : Accuracy} (h : Locates (.ofMantissaAndAccuracy m a) (x / 2 ^ e))
    (he : e ≤ Format.binary64.targetExponent (totalExponent m e)) :
    roundWithAccuracy .binary64 s m e a = .finite s M E hC.pos := by
  obtain ⟨hloc, hexp⟩ := locates_shiftToTargetExponent h he
  obtain ⟨hlow, hhigh⟩ := h.bounds
  rw [mantissa_ofMantissaAndAccuracy] at hlow hhigh
  have hpos := two_zpow_pos E
  have hreach := reach_le M E
  unfold roundWithAccuracy
  rcases targetExponent_of_nearest hC hx hlow hhigh he with ht | ⟨ht, rfl, hE, hsmall⟩
  · rw [ht] at hloc hexp
    have hround : (shiftToTargetExponent .binary64 m e a).1.roundedMantissa = M := by
      refine hloc.roundedMantissa_eq ?_ ?_ fun hodd => ?_
      · rw [le_div_iff₀ hpos]
        refine le_trans (mul_le_mul_of_nonneg_right ?_ hpos.le) hx.low
        linarith
      · rw [div_le_iff₀ hpos]
        exact hx.high
      · have hne : ¬ (M = 2 ^ 52 ∧ -1074 < E) := by
          rintro ⟨rfl, -⟩
          norm_num at hodd
        obtain ⟨htie, htie'⟩ := hx.tie hodd
        rw [reach, if_neg hne] at htie
        rw [ne_eq, ne_eq, eq_div_iff hpos.ne', div_eq_iff hpos.ne']
        exact ⟨htie, htie'⟩
    simp only [hround, hexp, shiftToTargetExponent_of_canonical hC, hC.pos.ne', ↓reduceDIte]
  · rw [ht] at hloc hexp
    have hhalf : (2 : ℚ) ^ E = 2 ^ (E - 1) * 2 := by
      rw [← zpow_add_one₀ (by norm_num), sub_add_cancel]
    have hpos' := two_zpow_pos (E - 1)
    have hround : (shiftToTargetExponent .binary64 m e a).1.roundedMantissa = 2 ^ 53 := by
      refine hloc.roundedMantissa_eq ?_ ?_ fun hodd => absurd hodd (by norm_num)
      · rw [le_div_iff₀ hpos']
        refine le_trans (le_of_eq ?_) hx.low
        rw [reach, if_pos ⟨rfl, hE⟩, hhalf]
        push_cast
        ring
      · rw [div_le_iff₀ hpos']
        rw [zpow_add₀ (by norm_num), hhalf] at hsmall
        push_cast
        norm_num at hsmall ⊢
        linarith
    simp only [hround, hexp, shiftToTargetExponent_carry hE]
    rfl

-- ---------------------------------------------------------------------------
-- Operations
-- ---------------------------------------------------------------------------

theorem le_targetExponent {t u : Int} (h : t ≤ u) :
    Format.binary64.targetExponent t ≤ Format.binary64.targetExponent u := by
  rw [targetExponent_eq, targetExponent_eq]
  omega

theorem locates_exact (m : Nat) : Locates (.ofMantissaAndAccuracy m .exact) m :=
  rfl

theorem locates_fraction {num den : Nat} (h : num < den) (q : Nat) :
    Locates (.ofMantissaAndAccuracy q (accuracyOfFraction num den)) (q + num / den) := by
  have hden : (0 : ℚ) < den := by exact_mod_cast Nat.zero_lt_of_lt h
  have hlt : (num : ℚ) / den < 1 := (div_lt_one hden).mpr (by exact_mod_cast h)
  unfold accuracyOfFraction
  split
  · next hzero => simp [Locates, ExtendedMantissa.ofMantissaAndAccuracy, hzero]
  · next hne =>
    have hpos : (0 : ℚ) < num / den := div_pos (by exact_mod_cast Nat.pos_of_ne_zero hne) hden
    cases hcmp : compare (2 * num) den with
    | lt =>
      have hhalf : (num : ℚ) / den < 1 / 2 := by
        rw [div_lt_div_iff₀ hden (by norm_num)]
        exact_mod_cast (by rw [Nat.compare_eq_lt] at hcmp; omega : num * 2 < 1 * den)
      show (q : ℚ) < q + num / den ∧ q + num / den < (q : ℚ) + 1 / 2
      constructor <;> linarith
    | eq =>
      have hhalf : (num : ℚ) / den = 1 / 2 := by
        rw [div_eq_div_iff hden.ne' (by norm_num)]
        exact_mod_cast (by rw [Nat.compare_eq_eq] at hcmp; omega : num * 2 = 1 * den)
      simpa [Locates, ExtendedMantissa.ofMantissaAndAccuracy] using hhalf
    | gt =>
      have hhalf : 1 / 2 < (num : ℚ) / den := by
        rw [div_lt_div_iff₀ (by norm_num) hden]
        exact_mod_cast (by rw [Nat.compare_eq_gt] at hcmp; omega : 1 * den < num * 2)
      show (q : ℚ) + 1 / 2 < q + num / den ∧ q + num / den < (q : ℚ) + 1
      constructor <;> linarith

variable {s₁ s₂ : Sign} {m₁ m₂ : Nat} {e₁ e₂ : Int} {h₁ : 0 < m₁} {h₂ : 0 < m₂}

theorem mul_of_nearest (hC : Canonical M E) (hm : 2 ^ 52 ≤ m₁ * m₂)
    (hx : Nearest M E (m₁ * 2 ^ e₁ * (m₂ * 2 ^ e₂))) :
    mul .binary64 (.finite s₁ m₁ e₁ h₁) (.finite s₂ m₂ e₂ h₂) =
      .finite (s₁ * s₂) M E hC.pos := by
  refine roundWithAccuracy_of_nearest hC hx _ ?_ ?_
  · have hval : (m₁ * 2 ^ e₁ * (m₂ * 2 ^ e₂) : ℚ) / 2 ^ (e₁ + e₂) = (m₁ * m₂ : Nat) := by
      rw [zpow_add₀ (by norm_num)]
      push_cast
      field_simp
    rw [hval]
    exact locates_exact _
  · have hlog : 52 ≤ (m₁ * m₂).log2 := (Nat.le_log2 (Nat.mul_pos h₁ h₂).ne').mpr hm
    rw [targetExponent_eq]
    unfold totalExponent
    omega

theorem two_zpow_lt_quotient (h₁ : 0 < m₁) (e₁ : Int) (h₂ : 0 < m₂) (e₂ : Int) :
    (2 : ℚ) ^ (totalExponent m₁ e₁ - 1 - totalExponent m₂ e₂) <
      m₁ * 2 ^ e₁ / (m₂ * 2 ^ e₂) := by
  have h₂' : (0 : ℚ) < m₂ := by exact_mod_cast h₂
  have hE₂ := two_zpow_pos e₂
  have hlow : (2 : ℚ) ^ (totalExponent m₁ e₁ - 1) ≤ m₁ * 2 ^ e₁ := by
    refine two_zpow_total_le h₁.ne' (le_of_eq ?_)
    rw [mul_div_assoc, div_self (two_zpow_pos e₁).ne', mul_one]
  have hhigh : (m₂ * 2 ^ e₂ : ℚ) < 2 ^ totalExponent m₂ e₂ := by
    refine lt_two_zpow_total ?_
    rw [mul_div_assoc, div_self hE₂.ne', mul_one]
    linarith
  rw [zpow_sub₀ (by norm_num)]
  calc
    (2 : ℚ) ^ (totalExponent m₁ e₁ - 1) / 2 ^ totalExponent m₂ e₂
        < 2 ^ (totalExponent m₁ e₁ - 1) / (m₂ * 2 ^ e₂) :=
      div_lt_div_of_pos_left (two_zpow_pos _) (mul_pos h₂' hE₂) hhigh
    _ ≤ m₁ * 2 ^ e₁ / (m₂ * 2 ^ e₂) :=
      div_le_div_of_nonneg_right hlow (mul_pos h₂' hE₂).le

theorem div_of_nearest (hC : Canonical M E)
    (hx : Nearest M E (m₁ * 2 ^ e₁ / (m₂ * 2 ^ e₂))) :
    div .binary64 (.finite s₁ m₁ e₁ h₁) (.finite s₂ m₂ e₂ h₂) =
      .finite (s₁ / s₂) M E hC.pos := by
  have h₂' : (0 : ℚ) < m₂ := by exact_mod_cast h₂
  have hquot := two_zpow_lt_quotient h₁ e₁ h₂ e₂
  show roundWithAccuracy .binary64 (s₁ / s₂) (divCore .binary64 m₁ e₁ m₂ e₂).1
    (divCore .binary64 m₁ e₁ m₂ e₂).2.1 (divCore .binary64 m₁ e₁ m₂ e₂).2.2 = _
  unfold divCore
  simp only
  generalize ht : min (e₁ - e₂) (Format.binary64.targetExponent
    (totalExponent m₁ e₁ - totalExponent m₂ e₂)) = t
  obtain ⟨k, hk⟩ : ∃ k : Nat, e₁ - e₂ = t + k := ⟨(e₁ - e₂ - t).toNat, by omega⟩
  have hshift : (e₁ - e₂ - t).toNat = k := by omega
  rw [hshift, Nat.shiftLeft_eq]
  -- the quotient with its remainder is the number itself, in units of `2 ^ t`
  have hval : (m₁ * 2 ^ e₁ / (m₂ * 2 ^ e₂) : ℚ) / 2 ^ t =
      (m₁ * 2 ^ k / m₂ : Nat) + (m₁ * 2 ^ k % m₂ : Nat) / m₂ := by
    have hdiv : ((m₁ * 2 ^ k / m₂ : Nat) * m₂ + (m₁ * 2 ^ k % m₂ : Nat) : ℚ) = m₁ * 2 ^ k := by
      exact_mod_cast Nat.div_add_mod' (m₁ * 2 ^ k) m₂
    have he₁ : (2 : ℚ) ^ e₁ = 2 ^ t * 2 ^ k * 2 ^ e₂ := by
      rw [← zpow_natCast, ← zpow_add₀ (by norm_num), ← zpow_add₀ (by norm_num)]
      congr 1
      omega
    rw [he₁]
    field_simp
    linarith
  have hloc := locates_fraction (Nat.mod_lt (m₁ * 2 ^ k) h₂) (m₁ * 2 ^ k / m₂)
  rw [← hval] at hloc
  refine roundWithAccuracy_of_nearest hC hx _ hloc ?_
  obtain ⟨-, hhigh⟩ := hloc.bounds
  rw [mantissa_ofMantissaAndAccuracy] at hhigh
  have hexp := two_zpow_lt (hquot.trans (lt_two_zpow_total hhigh))
  exact (ht ▸ min_le_right _ _).trans (le_targetExponent (by omega))

theorem round_of_nearest (hC : Canonical M E) (hm : 0 < m) (hx : Nearest M E (m * 2 ^ e))
    (s : Sign) :
    UnpackedFloat.round .binary64 s m e = .finite s M E hC.pos := by
  unfold UnpackedFloat.round decreaseExponent
  simp only
  generalize ht : Format.binary64.targetExponent (totalExponent m e) = t
  generalize hk : (e - t).toNat = k
  have hval : (m * 2 ^ e : ℚ) / 2 ^ (e - k) = (m <<< k : Nat) := by
    rw [zpow_sub₀ (by norm_num), Nat.shiftLeft_eq]
    push_cast
    field_simp
    norm_cast
  have hlow : (2 : ℚ) ^ (totalExponent m e - 1) ≤ m * 2 ^ e := by
    refine two_zpow_total_le hm.ne' (le_of_eq ?_)
    rw [mul_div_assoc, div_self (two_zpow_pos e).ne', mul_one]
  have hhigh : (m * 2 ^ e : ℚ) < 2 ^ totalExponent (m <<< k) (e - k) := by
    refine lt_two_zpow_total ?_
    rw [hval]
    linarith
  have hexp := two_zpow_lt (hlow.trans_lt hhigh)
  refine roundWithAccuracy_of_nearest hC hx s ?_ ?_
  · rw [hval]
    exact locates_exact _
  · have := le_targetExponent (show totalExponent m e ≤ totalExponent (m <<< k) (e - k) by omega)
    omega

/-- A number of at most 53 bits is a double. -/
theorem ofNat_eq {n : Nat} (hn : 0 < n) (hlt : n < 2 ^ 53) :
    ∃ M E, ∃ hC : Canonical M E, E ≤ 0 ∧ 2 ^ 52 ≤ M ∧ (M * 2 ^ E : ℚ) = n ∧
      ofNat .binary64 n = .finite .positive M E hC.pos := by
  have hlog : n.log2 < 53 := (Nat.log2_lt hn.ne').mpr hlt
  have hself := Nat.log2_self_le hn.ne'
  have hself' := Nat.lt_log2_self (n := n)
  generalize hl : n.log2 = l at hlog hself hself'
  obtain ⟨k, hk⟩ : ∃ k, l + k = 52 := ⟨52 - l, by omega⟩
  have hlow : 2 ^ 52 ≤ n * 2 ^ k := by
    rw [← hk, pow_add]
    exact Nat.mul_le_mul_right _ hself
  have hhigh : n * 2 ^ k < 2 ^ 53 := by
    rw [show 53 = l + 1 + k by omega, pow_add]
    exact Nat.mul_lt_mul_of_pos_right hself' (by positivity)
  have hC : Canonical (n * 2 ^ k) (-k) :=
    ⟨by positivity, hhigh, by omega, .inl hlow⟩
  have hval : ((n * 2 ^ k : Nat) * 2 ^ (-k : Int) : ℚ) = n := by
    push_cast
    rw [zpow_neg, zpow_natCast]
    field_simp
  refine ⟨n * 2 ^ k, -k, hC, by omega, hlow, hval, ?_⟩
  have hexact := Nearest.exact (n * 2 ^ k) (-k)
  rw [hval] at hexact
  show UnpackedFloat.normalize .binary64 n 0 .positive = _
  unfold UnpackedFloat.normalize
  rw [show compare (n : Int) 0 = .gt from Int.compare_eq_gt.mpr (by omega)]
  simp only [Int.toNat_natCast]
  exact round_of_nearest hC hn (by simpa using hexact) _

end TextStream.Decimal
