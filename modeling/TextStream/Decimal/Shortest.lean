/-!
# The shortest decimal for a binary number

A positive double stands for every real that rounds to it. Among the decimals
in that interval this module finds the one on the coarsest grid of powers of
ten, and of several on that grid the one nearest to the double itself.
-/

namespace TextStream.Decimal

/-- The reals that round to one double, as fractions over one denominator:
`lower / denom` and `upper / denom` are the ends, `value / denom` the double. -/
structure Interval where
  lower : Nat
  value : Nat
  upper : Nat
  denom : Nat
  /-- Whether the ends themselves round to the double. -/
  closed : Bool

namespace Interval

/-- The interval of `significand * 2 ^ exponent`. Below a power of two the
doubles lie twice as close, so the lower end is half as far away there. -/
def ofBinary (significand : Nat) (exponent : Int) (powerOfTwo : Bool) : Interval :=
  let scale := Nat.pow 2 (exponent - 2).toNat
  { lower := (4 * significand - (if powerOfTwo then 1 else 2)) * scale
    value := 4 * significand * scale
    upper := (4 * significand + 2) * scale
    denom := Nat.pow 2 (2 - exponent).toNat
    closed := significand % 2 == 0 }

/-- Whether the fraction `num / (den * denom)` rounds to the double. -/
def contains (i : Interval) (num den : Nat) : Bool :=
  if i.closed then i.lower * den ≤ num && num ≤ i.upper * den
  else i.lower * den < num && num < i.upper * den

/-- The multiple of `10 ^ k` in the interval that is nearest to the double, as
a count of such steps. Of two that are equally near it is the larger one. -/
def nearestStep? (i : Interval) (k : Int) : Option Nat :=
  let den := Nat.pow 10 (-k).toNat
  let step := i.denom * Nat.pow 10 k.toNat
  let below := i.value * den / step
  let above := below + 1
  match i.contains (below * step) den, i.contains (above * step) den with
  | true, true =>
    if i.value * den - below * step < above * step - i.value * den then some below
    else some above
  | true, false => some below
  | false, true => some above
  | false, false => none

end Interval

/-- Digits `d` and a power `k` with `d * 10 ^ k` in the interval, for the largest
such `k` from `top` down, trying `fuel` powers. -/
def coarsest (i : Interval) (top : Int) : Nat → Nat × Int
  | 0 => (0, top)
  | fuel + 1 =>
    match i.nearestStep? top with
    | some d => (d, top)
    | none => coarsest i (top - 1) fuel

/-- The shortest digits of a positive double. A decimal digit more than the
integer part has bounds the power from above, and 17 digits always suffice, so
the search ends before the power falls below `-345`. -/
def shortest (i : Interval) : Nat × Int :=
  let top := (Nat.toDigits 10 (i.upper / i.denom)).length
  coarsest i top (top + 346)

end TextStream.Decimal
