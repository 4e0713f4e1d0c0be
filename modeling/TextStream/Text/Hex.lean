/-!
# Hexadecimal text

Digits of either case are read; both cases can be written, at a chosen least
width.
-/

namespace TextStream.Text

/-- The value of a hexadecimal digit of either case. -/
def hexDigit? (c : Char) : Option Nat :=
  if c.isDigit then some (c.toNat - '0'.toNat)
  else if 'a' ≤ c ∧ c ≤ 'f' then some (c.toNat - 'a'.toNat + 10)
  else if 'A' ≤ c ∧ c ≤ 'F' then some (c.toNat - 'A'.toNat + 10)
  else none

theorem hexDigit?_lt {c : Char} {d : Nat} (h : hexDigit? c = some d) : d < 16 := by
  simp only [hexDigit?, Char.isDigit, Bool.and_eq_true, decide_eq_true_eq, Char.le_def,
    ge_iff_le, UInt32.le_iff_toNat_le, Char.toNat] at h
  split at h
  · next hc =>
    have h9 : ('9' : Char).val.toNat = 57 := rfl
    have h0 : ('0' : Char).val.toNat = 48 := rfl
    simp only [Option.some.injEq] at h
    have := hc.2
    simp only [h9, h0] at *
    omega
  · split at h
    · next hc =>
      have hf : ('f' : Char).val.toNat = 102 := rfl
      have ha : ('a' : Char).val.toNat = 97 := rfl
      simp only [Option.some.injEq] at h
      simp only [hf, ha] at *
      omega
    · split at h
      · next hc =>
        have hF : ('F' : Char).val.toNat = 70 := rfl
        have hA : ('A' : Char).val.toNat = 65 := rfl
        simp only [Option.some.injEq] at h
        simp only [hF, hA] at *
        omega
      · simp at h

/-- The lower-case digits of `n`, at least `width` of them. -/
def hexDigits (width n : Nat) : List Char :=
  let digits := Nat.toDigits 16 n
  List.replicate (width - digits.length) '0' ++ digits

def hexLower (width n : Nat) : String :=
  String.ofList (hexDigits width n)

def hexUpper (width n : Nat) : String :=
  String.ofList ((hexDigits width n).map Char.toUpper)

/-- Reads hexadecimal digits only, and at least one. -/
def ofHex? (cs : List Char) : Option Nat :=
  if cs.isEmpty then none
  else cs.foldlM (fun n c => (hexDigit? c).map (16 * n + ·)) 0

end TextStream.Text
