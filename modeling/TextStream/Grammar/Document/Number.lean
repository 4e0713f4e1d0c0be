import TextStream.Cursor.Scan
import TextStream.Decimal.Numeral

/-!
# Numbers in a document

A number is read part by part: sign, whole part, fraction, exponent. Each part
yields the text it passed over, which is empty for a part that is absent. A
part that was begun must be finished before the text ends.
-/

namespace TextStream.Document

/-- Passes over the current code point if it is one of the given kind. The
text must go on after it. -/
def mark (p : Char → Bool) : Scan String := fun c =>
  match c.current with
  | none => .ok "" c
  | some x =>
    if p x then
      match c.advance with
      | .ok _ d => .ok x.toString d
      | .error e d => .error e d
    else .ok "" c

/-- One or more digits. -/
def digits : Scan String := fun c =>
  match c.current with
  | none => .error .endOfFile c
  | some x =>
    if x.isDigit then
      let (run, d) := c.copy Char.isDigit
      .ok run d
    else .error c.invalidNumber c

/-- Digits that begin with zero only if they are a single zero. -/
def whole : Scan String := fun c =>
  if c.current = some '0' then
    let d := c.move
    if d.current.any Char.isDigit then .error d.invalidNumber d else .ok "0" d
  else digits c

def fraction : Scan String := do
  let point ← mark (· == '.')
  if point.isEmpty then return ""
  return point ++ (← digits)

def exponent : Scan String := do
  let e ← mark (fun x => x == 'e' || x == 'E')
  if e.isEmpty then return ""
  let sign ← mark (fun x => x == '+' || x == '-')
  return e ++ sign ++ (← digits)

/-- The text of a number. -/
def numeral : Scan String := do
  let sign ← mark (· == '-')
  let whole ← whole
  let fraction ← fraction
  let exponent ← exponent
  return sign ++ whole ++ fraction ++ exponent

def number : Scan Float := do
  let text ← numeral
  match Decimal.toFloat? text.toList with
  | some x => return x
  | none => throw (← get).invalidNumber

end TextStream.Document
