import TextStream.Decimal.Shortest

/-!
# The text of a double

A finite double is written with the fewest digits that read back as the same
double, always positionally and without a point when there is no fraction.
Zero keeps its sign.
-/

namespace TextStream.Decimal

/-- `digits * 10 ^ exponent` without an exponent. -/
def positional (digits : Nat) (exponent : Int) : List Char :=
  let ds := Nat.toDigits 10 digits
  let point : Int := ds.length + exponent
  if 0 ≤ exponent then ds ++ List.replicate exponent.toNat '0'
  else if 0 < point then ds.take point.toNat ++ '.' :: ds.drop point.toNat
  else '0' :: '.' :: (List.replicate (-point).toNat '0' ++ ds)

/-- Text of the magnitude with biased exponent `biased` and fraction bits `frac`. -/
def magnitudeText (biased frac : Nat) : List Char :=
  if biased = 0 ∧ frac = 0 then ['0']
  else
    let interval :=
      if biased = 0 then Interval.ofBinary frac (-1074) false
      else Interval.ofBinary (Nat.pow 2 52 + frac) (biased - 1075) (frac == 0 && 1 < biased)
    let (digits, exponent) := shortest interval
    positional digits exponent

def floatText (x : Float) : List Char :=
  let bits := x.toBits.toNat
  let biased := bits / Nat.pow 2 52 % Nat.pow 2 11
  let frac := bits % Nat.pow 2 52
  let mark := if bits / Nat.pow 2 63 = 1 then ['-'] else []
  if biased = 2047 then
    if frac = 0 then mark ++ "inf".toList else "NaN".toList
  else mark ++ magnitudeText biased frac

end TextStream.Decimal
