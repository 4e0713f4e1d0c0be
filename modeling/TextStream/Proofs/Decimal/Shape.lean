import TextStream.Decimal.Positional
import TextStream.Proofs.Decimal.Bits
import TextStream.Proofs.Document.Language

/-!
# The shape of a double's text

Positional notation is a whole part without needless zeros and perhaps a
fraction, and the number that it spells is the one it was made for. Doubles
that are not finite are written as words, which no number is.
-/

namespace TextStream.Decimal

open Document (Digits Whole Fraction)

-- ---------------------------------------------------------------------------
-- Digits of a number
-- ---------------------------------------------------------------------------

theorem digits_toDigits (n : Nat) : Digits (Nat.toDigits 10 n) :=
  ⟨Nat.toDigits_ne_nil, fun _ hx => Nat.isDigit_of_mem_toDigits (by decide) (by decide) hx⟩

/-- Only zero is written with a leading zero. -/
theorem toDigits_eq_cons {n : Nat} (hn : n ≠ 0) :
    ∃ x w, Nat.toDigits 10 n = x :: w ∧ x ≠ '0' := by
  induction n using Nat.strongRecOn with
  | ind n ih =>
    rw [Nat.toDigits_eq_if (by decide)]
    split
    · next hlt =>
      have hall : ∀ k < 10, k ≠ 0 → Nat.digitChar k ≠ '0' := by decide
      exact ⟨_, _, rfl, hall n hlt hn⟩
    · next hge =>
      obtain ⟨x, w, hw, hx⟩ := ih (n / 10) (by omega) (by omega)
      exact ⟨x, w ++ [(n % 10).digitChar], by rw [hw]; rfl, hx⟩

theorem whole_of_cons {x : Char} {w : List Char} (hw : Digits (x :: w)) (hx : x ≠ '0') :
    Whole (x :: w) :=
  .inr ⟨hw, by simpa using hx⟩

theorem digits_append {w r : List Char} (hw : Digits w) (hr : ∀ x ∈ r, x.isDigit = true) :
    Digits (w ++ r) := by
  refine ⟨by simp [hw.1], fun x hx => ?_⟩
  rcases List.mem_append.mp hx with hx | hx
  · exact hw.2 x hx
  · exact hr x hx

theorem isDigit_of_mem_zeros {n : Nat} {x : Char} (hx : x ∈ List.replicate n '0') :
    x.isDigit = true := by
  obtain rfl := List.eq_of_mem_replicate hx
  rfl

theorem ofDigits_toDigits (n : Nat) : ofDigits (Nat.toDigits 10 n) = n :=
  Nat.ofDigitChars_ten_toDigits

theorem ofDigits_append_zeros (w : List Char) (n : Nat) :
    ofDigits (w ++ List.replicate n '0') = 10 ^ n * ofDigits w := by
  show Nat.ofDigitChars 10 _ 0 = 10 ^ n * Nat.ofDigitChars 10 w 0
  rw [Nat.ofDigitChars_append, Nat.ofDigitChars_replicate_zero]

theorem ofDigits_zeros_append (w : List Char) (n : Nat) :
    ofDigits (List.replicate n '0' ++ w) = ofDigits w := by
  show Nat.ofDigitChars 10 _ 0 = Nat.ofDigitChars 10 w 0
  rw [Nat.ofDigitChars_append, Nat.ofDigitChars_replicate_zero, Nat.mul_zero]

-- ---------------------------------------------------------------------------
-- Positional notation
-- ---------------------------------------------------------------------------

/-- The text is that of a number without sign and exponent, which is `r`. -/
def Spells (text : List Char) (r : ℚ) : Prop :=
  ∃ w ds f, Whole w ∧ Fraction ds f ∧ text = w ++ f ∧ ofDigits (w ++ ds) / 10 ^ ds.length = r

theorem spells_zero : Spells ['0'] 0 :=
  ⟨['0'], [], [], .inl rfl, .absent, rfl, by simp [ofDigits]⟩

/-- Positional notation spells every number but zero. -/
theorem spells_positional {digits : Nat} (hne : digits ≠ 0) (exponent : Int) :
    Spells (positional digits exponent) (digits * 10 ^ exponent) := by
  have hds := digits_toDigits digits
  have hval := ofDigits_toDigits digits
  obtain ⟨x, w, hw, hx⟩ := toDigits_eq_cons hne
  unfold positional
  simp only
  split
  · next hexp =>
    obtain ⟨k, rfl⟩ := Int.eq_ofNat_of_zero_le hexp
    rw [hw] at hds hval ⊢
    have hall := digits_append hds fun _ => isDigit_of_mem_zeros (n := k)
    refine ⟨_, [], [], whole_of_cons hall hx, .absent, (List.append_nil _).symm, ?_⟩
    show (ofDigits ((x :: w) ++ List.replicate k '0' ++ []) : ℚ) / 10 ^ 0 = _
    rw [List.append_nil, ofDigits_append_zeros, hval, pow_zero, div_one, zpow_natCast]
    push_cast
    ring
  · next hexp =>
    obtain ⟨k, rfl⟩ : ∃ k : Nat, exponent = -k := ⟨(-exponent).toNat, by omega⟩
    split
    · next hpoint =>
      -- a point inside the digits leaves some on both sides of it
      rw [hw] at hds hval hpoint ⊢
      generalize hp : ((x :: w).length + -(k : Int)).toNat = p
      obtain ⟨p, rfl⟩ : ∃ k, p = k + 1 := ⟨p - 1, by omega⟩
      have hleft : Digits (x :: w.take p) :=
        ⟨by simp, fun y hy => hds.2 y (List.mem_of_mem_take (i := p + 1) hy)⟩
      have hright : Digits ((x :: w).drop (p + 1)) :=
        ⟨by simp at hp ⊢; omega, fun y hy => hds.2 y (List.mem_of_mem_drop hy)⟩
      refine ⟨_, _, _, whole_of_cons hleft hx, .point hright, rfl, ?_⟩
      have hlen : ((x :: w).drop (p + 1)).length = k := by
        simp at hp ⊢
        omega
      show (ofDigits ((x :: w).take (p + 1) ++ (x :: w).drop (p + 1)) : ℚ) / _ = _
      rw [List.take_append_drop, hval, hlen, zpow_neg, zpow_natCast, div_eq_mul_inv]
    · next hpoint =>
      refine ⟨['0'], _, _, .inl rfl, .point ⟨by simp, fun x hx => ?_⟩, rfl, ?_⟩
      · rcases List.mem_append.mp hx with hx | hx
        · exact isDigit_of_mem_zeros hx
        · exact hds.2 x hx
      · show (ofDigits (List.replicate 1 '0' ++ _) : ℚ) / _ = _
        have hlen : (List.replicate (-((Nat.toDigits 10 digits).length + -(k : Int))).toNat '0' ++
            Nat.toDigits 10 digits).length = k := by
          rw [List.length_append, List.length_replicate]
          omega
        rw [ofDigits_zeros_append, ofDigits_zeros_append, hval, hlen, zpow_neg, zpow_natCast,
          div_eq_mul_inv]

-- ---------------------------------------------------------------------------
-- Words
-- ---------------------------------------------------------------------------

theorem floatText_of_not_finite {x : Float} (h : x.isFinite = false) :
    floatText x ∈ ["inf".toList, "-inf".toList, "NaN".toList] := by
  have hbiased : x.toBits.toNat / 2 ^ 52 % 2 ^ 11 = 2047 := by
    rw [← Bool.not_eq_true, isFinite_iff, Decidable.not_not] at h
    exact h
  unfold floatText
  simp only [Nat.pow_eq, hbiased, ↓reduceIte]
  split
  · split <;> decide
  · decide

end TextStream.Decimal
