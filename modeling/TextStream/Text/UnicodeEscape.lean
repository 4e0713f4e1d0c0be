import TextStream.Error
import TextStream.Text.Hex

/-!
# Four-digit Unicode escapes

Four hexadecimal digits name one UTF-16 code unit. A unit outside the
surrogates is a code point of its own; a high surrogate waits for a low one,
and the two together name a code point above `FFFF`. Any other order of
surrogates is an error, after which the decoder is as good as new.
-/

namespace TextStream.Text

structure UnicodeEscape where
  /-- The digits of the unit read so far. -/
  unit : UInt16 := 0
  digits : Nat := 0
  /-- A high surrogate that waits for its other half. -/
  high : Option UInt16 := none
deriving DecidableEq, Repr

namespace UnicodeEscape

def isHigh (unit : UInt16) : Bool :=
  0xD800 ≤ unit && unit ≤ 0xDBFF

def isLow (unit : UInt16) : Bool :=
  0xDC00 ≤ unit && unit ≤ 0xDFFF

/-- The code point with number `n`, if there is one. -/
def scalar? (n : Nat) : Option Char :=
  if h : n.isValidChar then some (Char.ofNatAux n h) else none

/-- The code point that a high and a low surrogate name together. -/
def paired? (high low : UInt16) : Option Char :=
  scalar? (0x10000 + (high.toNat - 0xD800) * 0x400 + (low.toNat - 0xDC00))

/-- What a complete unit means after the pending high surrogate, if any: a code
point, `none` when it is itself a high surrogate to be kept, or an error. -/
def complete (high : Option UInt16) (unit : UInt16) : Except ParseError (Option Char) :=
  let decoded :=
    match high with
    | some high => if isLow unit then paired? high unit else none
    | none => if isLow unit then none else scalar? unit.toNat
  if high.isNone && isHigh unit then .ok none
  else
    match decoded with
    | some c => .ok (some c)
    | none => .error .invalidUnicode

def isAwaitingLow (e : UnicodeEscape) : Bool :=
  e.high.isSome && e.digits == 0

/-- Feeds one digit. The answer is a code point once one is complete. -/
def feed (e : UnicodeEscape) (c : Char) : Except ParseError (Option Char) × UnicodeEscape :=
  match hexDigit? c with
  | none => (.error .invalidUnicode, {})
  | some d =>
    let unit := (e.unit <<< 4) ||| d.toUInt16
    if e.digits + 1 < 4 then
      (.ok none, { e with unit := unit, digits := e.digits + 1 })
    else
      match complete e.high unit with
      | .ok none => (.ok none, { high := some unit })
      | .ok (some x) => (.ok (some x), {})
      | .error err => (.error err, {})

def describe (e : UnicodeEscape) : String :=
  recordText "UnicodeEscape" [
    ("unit", toString e.unit.toNat),
    ("digits", toString e.digits),
    ("high_surrogate", optionText (e.high.map fun unit => toString unit.toNat))]

end UnicodeEscape

end TextStream.Text
