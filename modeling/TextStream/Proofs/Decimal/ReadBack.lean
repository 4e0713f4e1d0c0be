import TextStream.Proofs.Decimal.Scientific
import TextStream.Proofs.Decimal.Shape
import TextStream.Proofs.Document.Number

/-!
# Doubles are read from their own texts

The digits of a double are looked for in the interval of the numbers that are
rounded to it, and the search ends there. What they spell is therefore rounded
to that double again.
-/

namespace TextStream.Decimal

open Float.Model.UnpackedFloat (Sign)

variable {M : Nat} {E : Int}

-- ---------------------------------------------------------------------------
-- The interval of a double
-- ---------------------------------------------------------------------------

namespace Interval

variable {i : Interval} {narrow : Bool} {num den : Nat}

theorem scale_eq (E : Int) :
    (2 : ℚ) ^ E * (Nat.pow 2 (2 - E).toNat : Nat) = 4 * (Nat.pow 2 (E - 2).toNat : Nat) := by
  have hE : (2 : ℚ) ^ E = 4 * 2 ^ (E - 2) := by
    rw [zpow_sub₀ (by norm_num)]
    ring
  rw [hE, zpow_eq_div (by norm_num), show -(E - 2) = 2 - E by ring, Nat.pow_eq, Nat.pow_eq]
  push_cast
  field_simp

theorem lower_eq (hM : 0 < M) (hnarrow : narrow = true ↔ M = 2 ^ 52 ∧ -1074 < E) :
    ((ofBinary M E narrow).lower : ℚ) =
      (M - reach M E) * 2 ^ E * (ofBinary M E narrow).denom := by
  have hscale := scale_eq E
  have hsteps : ((4 * M - (if narrow then 1 else 2) : Nat) : ℚ) = 4 * (M - reach M E) := by
    unfold reach
    cases narrow with
    | true =>
      rw [if_pos rfl, if_pos (hnarrow.mp rfl), Nat.cast_sub (by omega)]
      push_cast
      ring
    | false =>
      rw [if_neg (by simp), if_neg (by simpa using hnarrow), Nat.cast_sub (by omega)]
      push_cast
      ring
  show ((_ * Nat.pow 2 _ : Nat) : ℚ) = _ * (Nat.pow 2 _ : Nat)
  rw [Nat.cast_mul, hsteps, mul_assoc (_ - _), hscale]
  ring

theorem upper_eq (M : Nat) (E : Int) (narrow : Bool) :
    ((ofBinary M E narrow).upper : ℚ) = (M + 1 / 2) * 2 ^ E * (ofBinary M E narrow).denom := by
  have hscale := scale_eq E
  show (((4 * M + 2) * Nat.pow 2 _ : Nat) : ℚ) = _ * (Nat.pow 2 _ : Nat)
  rw [Nat.cast_mul, mul_assoc (_ + _), hscale]
  push_cast
  ring

/-- The interval of a double holds what is nearest to it. -/
theorem nearest_of_contains (hM : 0 < M) (hnarrow : narrow = true ↔ M = 2 ^ 52 ∧ -1074 < E)
    (hden : 0 < den) (h : (ofBinary M E narrow).contains num den = true) :
    Nearest M E (num / (den * (ofBinary M E narrow).denom)) := by
  have hlow := lower_eq hM hnarrow
  have hhigh := upper_eq M E narrow
  have hpos : (0 : ℚ) < den * (ofBinary M E narrow).denom := by
    have hdenom : 0 < (ofBinary M E narrow).denom := Nat.pow_pos (by decide)
    exact_mod_cast Nat.mul_pos hden hdenom
  have hscaled : ∀ a : ℚ, a * (den * (ofBinary M E narrow).denom) =
      a * (ofBinary M E narrow).denom * den := fun a => by ring
  have hclosed : (ofBinary M E narrow).closed = (M % 2 == 0) := rfl
  unfold contains at h
  rw [hclosed] at h
  split at h
  · next heven =>
    rw [Bool.and_eq_true, decide_eq_true_eq, decide_eq_true_eq] at h
    refine ⟨?_, ?_, fun hodd => by simp [hodd] at heven⟩
    · rw [le_div_iff₀ hpos, hscaled, ← hlow]
      exact_mod_cast h.1
    · rw [div_le_iff₀ hpos, hscaled, ← hhigh]
      exact_mod_cast h.2
  · rw [Bool.and_eq_true, decide_eq_true_eq, decide_eq_true_eq] at h
    have h₁ : (M - reach M E) * 2 ^ E < num / (den * (ofBinary M E narrow).denom) := by
      rw [lt_div_iff₀ hpos, hscaled, ← hlow]
      exact_mod_cast h.1
    have h₂ : (num : ℚ) / (den * (ofBinary M E narrow).denom) < (M + 1 / 2) * 2 ^ E := by
      rw [div_lt_iff₀ hpos, hscaled, ← hhigh]
      exact_mod_cast h.2
    exact ⟨h₁.le, h₂.le, fun _ => ⟨h₁.ne, h₂.ne⟩⟩

-- ---------------------------------------------------------------------------
-- The search
-- ---------------------------------------------------------------------------

/-- Only steps in the interval are found. -/
theorem contains_of_nearestStep? {k : Int} {d : Nat} (h : i.nearestStep? k = some d) :
    i.contains (d * (i.denom * 10 ^ k.toNat)) (10 ^ (-k).toNat) = true := by
  unfold nearestStep? at h
  simp only [Nat.pow_eq] at h
  split at h
  · next hbelow habove =>
    split at h
    · obtain rfl := Option.some.inj h
      exact hbelow
    · obtain rfl := Option.some.inj h
      exact habove
  · next hbelow _ =>
    obtain rfl := Option.some.inj h
    exact hbelow
  · next _ habove =>
    obtain rfl := Option.some.inj h
    exact habove
  · simp at h

/-- The step above the double counts if steps are small against the interval. -/
theorem exists_nearestStep? {k : Nat} (hdenom : 0 < i.denom) (hlow : i.lower ≤ i.value)
    (hstep : i.value * 10 ^ k + i.denom < i.upper * 10 ^ k) :
    ∃ d, i.nearestStep? (-k) = some d := by
  have hlow' := Nat.mul_le_mul_right (10 ^ k) hlow
  have hk : (-(-k : Int)).toNat = k := by omega
  have hk' : (-k : Int).toNat = 0 := by omega
  unfold nearestStep?
  simp only [Nat.pow_eq, hk, hk', pow_zero, mul_one]
  generalize 10 ^ k = den at hlow' hstep ⊢
  have hbelow := Nat.div_mul_le_self (i.value * den) i.denom
  have habove := Nat.lt_div_mul_add (a := i.value * den) hdenom
  have hcontains : i.contains ((i.value * den / i.denom + 1) * i.denom) den = true := by
    rw [Nat.add_mul, Nat.one_mul]
    unfold contains
    split <;> rw [Bool.and_eq_true, decide_eq_true_eq, decide_eq_true_eq] <;> omega
  rw [hcontains]
  cases i.contains (i.value * den / i.denom * i.denom) den with
  | true =>
    simp only
    split
    · exact ⟨_, rfl⟩
    · exact ⟨_, rfl⟩
  | false => exact ⟨_, rfl⟩

end Interval

/-- The search finds a step if the finest one that it tries has one. -/
theorem contains_coarsest {i : Interval} {top : Int} {fuel : Nat} {d : Nat}
    (h : i.nearestStep? (top - fuel) = some d) :
    i.contains
      ((coarsest i top (fuel + 1)).1 * (i.denom * 10 ^ (coarsest i top (fuel + 1)).2.toNat))
      (10 ^ (-(coarsest i top (fuel + 1)).2).toNat) = true := by
  induction fuel generalizing top with
  | zero =>
    rw [Nat.cast_zero, sub_zero] at h
    simp only [coarsest, h]
    exact Interval.contains_of_nearestStep? h
  | succ fuel ih =>
    unfold coarsest
    split
    · next d' hd => exact Interval.contains_of_nearestStep? hd
    · refine ih ?_
      rw [← h]
      congr 1
      push_cast
      ring

/-- Steps are small against the interval if there are enough of them to a unit. -/
theorem step_lt_upper (M : Nat) (narrow : Bool) {n den : Nat} (hn : (2 - E).toNat ≤ n)
    (hden : 2 ^ n < 2 * den) :
    (Interval.ofBinary M E narrow).value * den + (Interval.ofBinary M E narrow).denom <
      (Interval.ofBinary M E narrow).upper * den := by
  have hscale : 0 < Nat.pow 2 (E - 2).toNat := Nat.pow_pos (by decide)
  have hdenom : Nat.pow 2 (2 - E).toNat ≤ 2 ^ n := Nat.pow_le_pow_right (by decide) hn
  show 4 * M * Nat.pow 2 _ * den + Nat.pow 2 _ < (4 * M + 2) * Nat.pow 2 _ * den
  generalize Nat.pow 2 (E - 2).toNat = scale at hscale ⊢
  generalize Nat.pow 2 (2 - E).toNat = denom at hdenom ⊢
  calc
    4 * M * scale * den + denom < 4 * M * scale * den + 2 * den := by omega
    _ ≤ 4 * M * scale * den + 2 * (scale * den) := by
      have := Nat.le_mul_of_pos_left den hscale
      omega
    _ = (4 * M + 2) * scale * den := by ring

/-- Digits and power of a double name a number that is nearest to it. -/
theorem nearest_shortest (hC : Canonical M E) (narrow : Bool)
    (hnarrow : narrow = true ↔ M = 2 ^ 52 ∧ -1074 < E) :
    Nearest M E ((shortest (.ofBinary M E narrow)).1 *
      10 ^ (shortest (.ofBinary M E narrow)).2) := by
  have hdenom : 0 < (Interval.ofBinary M E narrow).denom := Nat.pow_pos (by decide)
  generalize htop : (Nat.toDigits 10 ((Interval.ofBinary M E narrow).upper /
    (Interval.ofBinary M E narrow).denom)).length = top
  obtain ⟨d, hd⟩ : ∃ d, (Interval.ofBinary M E narrow).nearestStep? (-345) = some d := by
    have hlow : (2 - E).toNat ≤ 1076 := by
      have := hC.low
      omega
    refine Interval.exists_nearestStep? (k := 345) hdenom ?_ (step_lt_upper M narrow hlow ?_)
    · exact Nat.mul_le_mul_right _ (Nat.sub_le _ _)
    · decide +kernel
  have hfinest :
      (Interval.ofBinary M E narrow).nearestStep? (top - (top + 345 : Nat)) = some d := by
    rw [← hd]
    congr 1
    omega
  have hcontains := contains_coarsest hfinest
  have hshortest : shortest (.ofBinary M E narrow) =
      coarsest (.ofBinary M E narrow) top (top + 345 + 1) := by
    unfold shortest
    rw [htop]
  rw [← hshortest] at hcontains
  have hnear := Interval.nearest_of_contains hC.pos hnarrow (Nat.pow_pos (by decide)) hcontains
  rw [zpow_eq_div (by norm_num)]
  convert hnear using 1
  push_cast
  field_simp

-- ---------------------------------------------------------------------------
-- Conversion
-- ---------------------------------------------------------------------------

theorem two_zpow_lt_ten_zpow {a b : Nat} (h : 2 ^ b < 10 ^ a) :
    (2 : ℚ) ^ (b : Int) < 10 ^ (a : Int) := by
  rw [zpow_natCast, zpow_natCast]
  exact_mod_cast h

theorem ten_zpow_neg_lt_two_zpow_neg {a b : Nat} (h : 2 ^ b < 10 ^ a) :
    (10 : ℚ) ^ (-a : Int) < 2 ^ (-b : Int) := by
  rw [zpow_neg, zpow_neg]
  exact inv_strictAnti₀ (two_zpow_pos b) (two_zpow_lt_ten_zpow h)

theorem ten_zpow_pos (e : Int) : (0 : ℚ) < 10 ^ e :=
  zpow_pos (by norm_num) e

/-- The digits of a number say how large it is. -/
theorem length_toDigits_bounds {n : Nat} (hn : 0 < n) (e : Int) :
    (10 : ℚ) ^ ((Nat.toDigits 10 n).length + e - 1) ≤ n * 10 ^ e ∧
      n * 10 ^ e < (10 : ℚ) ^ ((Nat.toDigits 10 n).length + e) := by
  have hlen : 0 < (Nat.toDigits 10 n).length := Nat.length_toDigits_pos
  have hlt : n < 10 ^ (Nat.toDigits 10 n).length :=
    (Nat.length_toDigits_le_iff (by decide) hlen).mp (Nat.le_refl _)
  have hge : 10 ^ ((Nat.toDigits 10 n).length - 1) ≤ n := by
    by_cases hone : (Nat.toDigits 10 n).length - 1 = 0
    · rw [hone]
      exact hn
    · refine Nat.le_of_not_lt fun h => ?_
      have := (Nat.length_toDigits_le_iff (by decide) (Nat.pos_of_ne_zero hone)).mpr h
      omega
  generalize (Nat.toDigits 10 n).length = len at hlen hlt hge
  have hlt' : (n : ℚ) < 10 ^ len := by exact_mod_cast hlt
  have hge' : (10 : ℚ) ^ (len - 1) ≤ n := by exact_mod_cast hge
  constructor
  · rw [show (len : Int) + e - 1 = (len - 1 : Nat) + e by omega, zpow_add₀ (by norm_num),
      zpow_natCast]
    exact mul_le_mul_of_nonneg_right hge' (ten_zpow_pos e).le
  · rw [zpow_add₀ (by norm_num), zpow_natCast]
    exact mul_lt_mul_of_pos_right hlt' (ten_zpow_pos e)

/-- What is nearest to a double is converted to it, whatever the sign. -/
theorem Numeral.toFloat_of_nearest (hC : Canonical M E) (hE : E ≤ 971) {n : Numeral}
    (hx : Nearest M E (n.significand * 10 ^ n.exponent)) :
    n.toFloat =
      .ofModel (.pack (.finite (if n.negative then .negative else .positive) M E hC.pos)) := by
  have hleast := hx.least_le hC
  have hgreatest := hx.lt_greatest hC hE
  have hpos : 0 < n.significand := by
    refine Nat.pos_of_ne_zero fun hzero => ?_
    rw [hzero, Nat.cast_zero, zero_mul] at hleast
    exact absurd (two_zpow_pos _) (not_lt.mpr hleast)
  obtain ⟨hlow, hhigh⟩ := length_toDigits_bounds hpos n.exponent
  unfold toFloat
  simp only
  generalize ((Nat.toDigits 10 n.significand).length : Int) + n.exponent = magnitude at hlow hhigh ⊢
  have hsmall : ¬ magnitude < -330 := by
    intro h
    have hle : (10 : ℚ) ^ magnitude ≤ 10 ^ (-331 : Int) :=
      zpow_le_zpow_right₀ (by norm_num) (by omega)
    have hlt : (10 : ℚ) ^ (-331 : Int) < 2 ^ (-1075 : Int) :=
      ten_zpow_neg_lt_two_zpow_neg (a := 331) (b := 1075) (by decide +kernel)
    exact absurd (hleast.trans_lt (hhigh.trans_le hle)) hlt.not_gt
  have hlarge : ¬ 310 < magnitude := by
    intro h
    have hle : (10 : ℚ) ^ (310 : Int) ≤ 10 ^ (magnitude - 1) :=
      zpow_le_zpow_right₀ (by norm_num) (by omega)
    have hlt : (2 : ℚ) ^ (1024 : Int) < 10 ^ (310 : Int) :=
      two_zpow_lt_ten_zpow (a := 310) (b := 1024) (by decide +kernel)
    exact absurd ((hle.trans hlow).trans_lt hgreatest) hlt.not_gt
  simp only [hpos.ne', hsmall, hlarge, decide_false, Bool.or_self, Bool.false_eq_true, ↓reduceIte,
    ofScientific_of_nearest hC hE hpos hx]
  split
  · show Float.ofModel (.pack (Float.Model.pack (.finite .positive M E hC.pos)).unpack.neg) = _
    rw [unpack_pack hC hE]
    rfl
  · rfl

-- ---------------------------------------------------------------------------
-- Reading back
-- ---------------------------------------------------------------------------

/-- What a sign and the text of a magnitude say. -/
theorem Spells.numeral {text : List Char} {r : ℚ} (h : Spells text r) (negative : Bool) :
    ∃ n : Numeral, Document.Numeral n ((if negative then ['-'] else []) ++ text) ∧
      n.negative = negative ∧ (n.significand * 10 ^ n.exponent : ℚ) = r := by
  obtain ⟨w, ds, f, hw, hf, rfl, hr⟩ := h
  have hsign : Document.Sign negative (if negative then ['-'] else []) := by
    cases negative with
    | true => exact .minus
    | false => exact .absent
  have hn := Document.Numeral.parts hsign hw hf .absent
  rw [List.append_nil, List.append_assoc] at hn
  refine ⟨_, hn, rfl, ?_⟩
  rw [← hr, zero_sub, zpow_neg, zpow_natCast, div_eq_mul_inv]

theorem spells_shortest (hC : Canonical M E) (narrow : Bool)
    (hnarrow : narrow = true ↔ M = 2 ^ 52 ∧ -1074 < E) :
    ∃ r, Nearest M E r ∧ Spells (positional (shortest (.ofBinary M E narrow)).1
      (shortest (.ofBinary M E narrow)).2) r := by
  have hnear := nearest_shortest hC narrow hnarrow
  refine ⟨_, hnear, spells_positional (fun hzero => ?_) _⟩
  have hleast := hnear.least_le hC
  rw [hzero, Nat.cast_zero, zero_mul] at hleast
  exact absurd (two_zpow_pos _) (not_lt.mpr hleast)

/-- The text of a magnitude spells what is nearest to the double with those fields. -/
theorem spells_magnitudeText {biased frac : Nat} (hbiased : biased < 2047) (hfrac : frac < 2 ^ 52)
    (hne : ¬ (biased = 0 ∧ frac = 0)) :
    ∃ M E, ∃ _ : Canonical M E, ∃ r, E ≤ 971 ∧ exponentField M E = biased ∧ M % 2 ^ 52 = frac ∧
      Nearest M E r ∧ Spells (magnitudeText biased frac) r := by
  unfold magnitudeText
  simp only [hne, ↓reduceIte]
  by_cases hzero : biased = 0
  · have hC : Canonical frac (-1074) := ⟨by omega, by omega, by omega, .inr rfl⟩
    obtain ⟨r, hnear, hspells⟩ := spells_shortest hC false (by simp)
    rw [if_pos hzero]
    refine ⟨frac, -1074, hC, r, by omega, ?_, Nat.mod_eq_of_lt hfrac, hnear, hspells⟩
    rw [exponentField, if_neg (by omega), hzero]
  · have hC : Canonical (2 ^ 52 + frac) (biased - 1075) :=
      ⟨by omega, by omega, by omega, .inl (by omega)⟩
    obtain ⟨r, hnear, hspells⟩ := spells_shortest hC (frac == 0 && 1 < biased) (by
      rw [Bool.and_eq_true, beq_iff_eq, decide_eq_true_eq]
      omega)
    rw [if_neg hzero]
    refine ⟨2 ^ 52 + frac, biased - 1075, hC, r, by omega, ?_, by omega, hnear, hspells⟩
    rw [exponentField, if_pos (by omega)]
    omega

theorem toFloat_of_zero {n : Numeral} (h : n.significand = 0) :
    n.toFloat = if n.negative then -0 else 0 := by
  simp [Numeral.toFloat, h]

/-- Of the doubles without exponent and fraction one has each sign. -/
theorem eq_zero_of_fields {x : Float} (hbiased : x.toBits.toNat / 2 ^ 52 % 2 ^ 11 = 0)
    (hfrac : x.toBits.toNat % 2 ^ 52 = 0) :
    x = if x.toBits.toNat / 2 ^ 63 = 1 then -0 else 0 := by
  have hbits : x.toBits.toNat < 2 ^ 64 := x.toBits.toNat_lt
  split
  · next hsign =>
    have htoNat : x.toBits.toNat = (-0 : Float).toBits.toNat := by
      rw [show (-0 : Float).toBits.toNat = 2 ^ 63 by decide +kernel]
      omega
    exact congrArg Float.ofModel (model_ext (UInt64.toNat_inj.mp htoNat))
  · next hsign =>
    have htoNat : x.toBits.toNat = (0 : Float).toBits.toNat := by
      rw [show (0 : Float).toBits.toNat = 0 by decide +kernel]
      omega
    exact congrArg Float.ofModel (model_ext (UInt64.toNat_inj.mp htoNat))

/-- The text of a finite double names a numeral that is converted to the double. -/
theorem numeral_floatText {x : Float} (h : x.isFinite = true) :
    ∃ n, Document.Numeral n (floatText x) ∧ n.toFloat = x := by
  rw [isFinite_iff] at h
  have hbits : x.toBits.toNat < 2 ^ 64 := x.toBits.toNat_lt
  generalize hbiased : x.toBits.toNat / 2 ^ 52 % 2 ^ 11 = biased at h
  generalize hfrac : x.toBits.toNat % 2 ^ 52 = frac
  have htext : floatText x = (if decide (x.toBits.toNat / 2 ^ 63 = 1) then ['-'] else []) ++
      magnitudeText biased frac := by
    unfold floatText
    simp only [Nat.pow_eq, hbiased, hfrac, h, ↓reduceIte, decide_eq_true_eq]
  rw [htext]
  by_cases hzero : biased = 0 ∧ frac = 0
  · have hspells : Spells (magnitudeText biased frac) 0 := by
      rw [magnitudeText, if_pos hzero]
      exact spells_zero
    obtain ⟨n, hn, hneg, hval⟩ := hspells.numeral (decide (x.toBits.toNat / 2 ^ 63 = 1))
    refine ⟨n, hn, ?_⟩
    have hsig : n.significand = 0 := by
      exact_mod_cast (mul_eq_zero.mp hval).resolve_right (ten_zpow_pos _).ne'
    have hx := eq_zero_of_fields (hbiased.trans hzero.1) (hfrac.trans hzero.2)
    rw [toFloat_of_zero hsig, hneg]
    simpa only [decide_eq_true_eq] using hx.symm
  · obtain ⟨M, E, hC, r, hE, hexp, hM, hnear, hspells⟩ :=
      spells_magnitudeText (by omega) (by omega) hzero
    obtain ⟨n, hn, hneg, hval⟩ := hspells.numeral (decide (x.toBits.toNat / 2 ^ 63 = 1))
    refine ⟨n, hn, ?_⟩
    have hx := eq_pack x hC hE (hbiased.trans hexp.symm) (hfrac.trans hM.symm)
    rw [Numeral.toFloat_of_nearest hC hE (hval ▸ hnear), hneg]
    simpa only [signOf, decide_eq_true_eq] using hx.symm

end TextStream.Decimal
