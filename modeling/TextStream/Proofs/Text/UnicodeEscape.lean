import Mathlib
import TextStream.Text.UnicodeEscape

/-!
# Units and surrogates

The decoder in plain numbers: what a digit adds to a unit, what a complete unit
means alone, and what it means after a high surrogate.
-/

namespace TextStream.Text.UnicodeEscape

variable {u high : UInt16} {x : Char} {a : Nat} {e : UnicodeEscape}

/-- While a unit has at most three digits, shifting in one more loses nothing. -/
theorem shift_eq (hu : u.toNat < 0x1000) (ha : a < 16) :
    (u <<< 4) ||| a.toUInt16 = (16 * u.toNat + a).toUInt16 := by
  have hshift : u.toNat <<< 4 = 16 * u.toNat := by rw [Nat.shiftLeft_eq]; omega
  have hmod : 16 * u.toNat % 2 ^ 16 = 16 * u.toNat := Nat.mod_eq_of_lt (by omega)
  have hdigit : a % 2 ^ 16 = a := Nat.mod_eq_of_lt (by omega)
  have hsum : (16 * u.toNat + a) % 2 ^ 16 = 16 * u.toNat + a := Nat.mod_eq_of_lt (by omega)
  have hor := Nat.shiftLeft_add_eq_or_of_lt (i := 4) (b := a) (by omega) u.toNat
  apply UInt16.toNat_inj.mp
  show (u <<< 4 ||| UInt16.ofNat a).toNat = (UInt16.ofNat (16 * u.toNat + a)).toNat
  rw [UInt16.toNat_or, UInt16.toNat_shiftLeft, UInt16.toNat_ofNat', UInt16.toNat_ofNat', hdigit,
    hsum]
  show u.toNat <<< 4 % 2 ^ 16 ||| a = _
  rw [hshift, hmod, ← hshift, ← hor]

theorem toNat_shift (hu : u.toNat < 0x1000) (ha : a < 16) :
    ((u <<< 4) ||| a.toUInt16).toNat = 16 * u.toNat + a := by
  rw [shift_eq hu ha]
  show (UInt16.ofNat _).toNat = _
  rw [UInt16.toNat_ofNat', Nat.mod_eq_of_lt (by omega)]

theorem isHigh_iff : isHigh u = true ↔ 0xD800 ≤ u.toNat ∧ u.toNat ≤ 0xDBFF := by
  simp [isHigh, UInt16.le_iff_toNat_le]

theorem isLow_iff : isLow u = true ↔ 0xDC00 ≤ u.toNat ∧ u.toNat ≤ 0xDFFF := by
  simp [isLow, UInt16.le_iff_toNat_le]

theorem scalar?_eq_some_iff {n : Nat} : scalar? n = some x ↔ x.toNat = n := by
  unfold scalar?
  split
  · next h =>
    rw [Option.some.injEq]
    have hn : (Char.ofNatAux n h).toNat = n := rfl
    constructor
    · rintro rfl
      exact hn
    · intro hx
      exact Char.toNat_inj.mp (hn.trans hx.symm)
  · next h =>
    simp only [reduceCtorEq, false_iff]
    rintro rfl
    exact h x.valid

-- ---------------------------------------------------------------------------
-- A complete unit
-- ---------------------------------------------------------------------------

/-- No code point has the number of a surrogate. -/
theorem toNat_not_surrogate (x : Char) : x.toNat < 0xD800 ∨ 0xDFFF < x.toNat := by
  rcases x.valid with h | ⟨h, -⟩
  · exact .inl h
  · exact .inr h

/-- A unit outside the surrogates is the code point of its number. -/
theorem complete_none_eq_some_iff : complete none u = .ok (some x) ↔ x.toNat = u.toNat := by
  have hx := toNat_not_surrogate x
  unfold complete
  simp only [Option.isNone_none, Bool.true_and]
  by_cases hhigh : isHigh u = true
  · rw [if_pos hhigh]
    rw [isHigh_iff] at hhigh
    simp only [Except.ok.injEq, reduceCtorEq, false_iff]
    omega
  · rw [if_neg hhigh]
    by_cases hlow : isLow u = true
    · rw [if_pos hlow]
      rw [isLow_iff] at hlow
      simp only [reduceCtorEq, false_iff]
      omega
    · rw [if_neg hlow, ← scalar?_eq_some_iff]
      cases scalar? u.toNat <;> simp

theorem complete_none_eq_none_iff : complete none u = .ok none ↔ isHigh u = true := by
  unfold complete
  simp only [Option.isNone_none, Bool.true_and]
  split
  · next h => simp [h]
  · next h =>
    simp only [h]
    split <;> simp

theorem paired?_eq_some_iff :
    paired? high u = some x ↔
      x.toNat = 0x10000 + (high.toNat - 0xD800) * 0x400 + (u.toNat - 0xDC00) := by
  unfold paired?
  exact scalar?_eq_some_iff

/-- After a high surrogate only a low one will do. -/
theorem complete_some_iff {r : Option Char} :
    complete (some high) u = .ok r ↔
      ∃ x, r = some x ∧ isLow u = true ∧
        x.toNat = 0x10000 + (high.toNat - 0xD800) * 0x400 + (u.toNat - 0xDC00) := by
  simp only [← paired?_eq_some_iff]
  unfold complete
  simp only [Option.isNone_some, Bool.false_and, Bool.false_eq_true, ↓reduceIte]
  by_cases hlow : isLow u = true
  · simp only [hlow, ↓reduceIte, true_and]
    cases paired? high u with
    | none => simp
    | some x => simp [eq_comm]
  · simp [hlow]

-- ---------------------------------------------------------------------------
-- Digits
-- ---------------------------------------------------------------------------

theorem feed_of_none (hx : hexDigit? x = none) : e.feed x = (.error .invalidUnicode, {}) := by
  simp [feed, hx]

theorem feed_of_more (hx : hexDigit? x = some a) (he : e.digits + 1 < 4) :
    e.feed x =
      (.ok none, { e with unit := (e.unit <<< 4) ||| a.toUInt16, digits := e.digits + 1 }) := by
  simp [feed, hx, he]

theorem unit_lt (hu : e.unit.toNat < 16 ^ e.digits) (he : e.digits < 4) :
    e.unit.toNat < 0x1000 :=
  Nat.lt_of_lt_of_le hu (Nat.pow_le_pow_right (by omega) (by omega : e.digits ≤ 3))

theorem shift_lt (hu : e.unit.toNat < 16 ^ e.digits) (he : e.digits < 4) (ha : a < 16) :
    ((e.unit <<< 4) ||| a.toUInt16).toNat < 16 ^ (e.digits + 1) := by
  rw [toNat_shift (unit_lt hu he) ha, Nat.pow_succ]
  omega

/-- The decoder after a complete unit `n` that was no error. -/
def settled (n : Nat) : Option Char → UnicodeEscape
  | none => { high := some n.toUInt16 }
  | some _ => {}

/-- The fourth digit completes a unit. -/
theorem feed_last_iff {e' : UnicodeEscape} {r : Option Char} (hx : hexDigit? x = some a)
    (he : e.digits + 1 = 4) (hu : e.unit.toNat < 0x1000) :
    e.feed x = (.ok r, e') ↔
      complete e.high (16 * e.unit.toNat + a).toUInt16 = .ok r ∧
        e' = settled (16 * e.unit.toNat + a) r := by
  simp only [feed, hx, he, Nat.lt_irrefl, ↓reduceIte, shift_eq hu (hexDigit?_lt hx)]
  cases complete e.high (16 * e.unit.toNat + a).toUInt16 with
  | error err => simp
  | ok y =>
    cases y with
    | none =>
      simp only [Prod.mk.injEq, Except.ok.injEq]
      constructor <;> (rintro ⟨rfl, rfl⟩; exact ⟨rfl, rfl⟩)
    | some y =>
      simp only [Prod.mk.injEq, Except.ok.injEq]
      constructor <;> (rintro ⟨rfl, rfl⟩; exact ⟨rfl, rfl⟩)

/-- There is one thing that can be wrong with a digit. -/
theorem feed_error {err : ParseError} {e' : UnicodeEscape} (h : e.feed x = (.error err, e')) :
    err = .invalidUnicode := by
  unfold feed at h
  split at h
  · simp_all
  · next d hd =>
    simp only at h
    split at h
    · simp at h
    · unfold complete at h
      split at h
      · simp at h
      · simp at h
      · next hcomplete =>
        simp only at hcomplete
        split at hcomplete
        · simp at hcomplete
        · split at hcomplete <;> simp_all

end TextStream.Text.UnicodeEscape
