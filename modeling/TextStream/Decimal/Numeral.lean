/-!
# Decimal numerals

The text `-?digits(.digits)?([eE][+-]?digits)?` names the number
`±significand * 10 ^ exponent`, which is rounded to the nearest double, a tie
going to the even one.
-/

namespace TextStream.Decimal

structure Numeral where
  negative : Bool
  significand : Nat
  exponent : Int
deriving DecidableEq, Repr

def ofDigits (cs : List Char) : Nat :=
  cs.foldl (fun n c => 10 * n + (c.toNat - '0'.toNat)) 0

/-- A non-empty run of digits and what follows it. -/
def digits? (cs : List Char) : Option (List Char × List Char) :=
  let run := cs.takeWhile Char.isDigit
  if run.isEmpty then none else some (run, cs.drop run.length)

def sign (cs : List Char) : Bool × List Char :=
  match cs with
  | '-' :: rest => (true, rest)
  | _ => (false, cs)

def fraction? (cs : List Char) : Option (List Char × List Char) :=
  match cs with
  | '.' :: rest => digits? rest
  | _ => some ([], cs)

def power? (cs : List Char) : Option (Int × List Char) :=
  match cs with
  | [] => some (0, [])
  | c :: rest =>
    if c == 'e' || c == 'E' then
      let (negative, rest) :=
        match rest with
        | '+' :: rest => (false, rest)
        | _ => sign rest
      (digits? rest).map fun (run, rest) =>
        (if negative then -(ofDigits run : Int) else ofDigits run, rest)
    else some (0, cs)

namespace Numeral

/-- Reads the longest numeral at the head of a text. -/
def read? (cs : List Char) : Option (Numeral × List Char) := do
  let (negative, cs) := sign cs
  let (whole, cs) ← digits? cs
  let (frac, cs) ← fraction? cs
  let (exponent, cs) ← power? cs
  return (⟨negative, ofDigits (whole ++ frac), exponent - frac.length⟩, cs)

/-- Reads a numeral that is the whole text. -/
def ofList? (cs : List Char) : Option Numeral :=
  match read? cs with
  | some (n, []) => some n
  | _ => none

/-- A numeral whose leading digit stands far above the largest double is
infinite, one far below the least is zero; any other is rounded exactly. -/
def toFloat (n : Numeral) : Float :=
  let magnitude : Int := (Nat.toDigits 10 n.significand).length + n.exponent
  let x : Float :=
    if n.significand = 0 || magnitude < -330 then 0
    else if 310 < magnitude then Float.ofScientific 1 false 400
    else Float.ofScientific n.significand (n.exponent < 0) n.exponent.natAbs
  if n.negative then -x else x

end Numeral

/-- The double nearest to the number that the text names. -/
def toFloat? (cs : List Char) : Option Float :=
  (Numeral.ofList? cs).map Numeral.toFloat

end TextStream.Decimal
