import TextStream.Cursor.Keyword
import TextStream.Grammar.Document.Number
import TextStream.Grammar.Document.Quoted
import TextStream.Grammar.Trail

/-!
# Values in a document

Arrays and objects are both a bracketed list of items: values in one, members
in the other. The recursion is bounded by the code points ahead. Each level of
nesting and each item takes at least one of them, so the bound is never what
ends a reading, and where it is zero the text has ended.
-/

namespace TextStream.Document

def isBlank (x : Char) : Bool :=
  x == ' ' || x == '\t' || x == '\n' || x == '\r' || x == '\x0c'

def skipBlanks (c : Cursor) : Cursor :=
  c.skip isBlank

/-- What follows an item: `true` on the next item after a comma, `false` past the closing bracket. -/
def separator (close : Char) : Scan Bool := fun c =>
  let c := skipBlanks c
  match c.current with
  | none => .error .endOfFile c
  | some x =>
    if x = ',' then
      match c.advance with
      | .ok _ d => .ok true (skipBlanks d)
      | .error e d => .error e d
    else if x = close then .ok false c.move
    else .error c.unexpectedCharacter c

/-- One or more items up to the closing bracket. -/
def items {α : Type} (close : Char) (item : Scan α) : Nat → Cursor → Trail α
  | 0, c => .fail .endOfFile c
  | n + 1, c =>
    match item c with
    | .error e d => .fail e d
    | .ok a d =>
      .report a d <|
        match separator close d with
        | .error e f => .fail e f
        | .ok false f => .done f
        | .ok true f => items close item n f

/-- A bracketed list, with the cursor on the opening bracket. -/
def bracketed {α : Type} (close : Char) (item : Scan α) (c : Cursor) : Trail α :=
  match c.advance with
  | .error e d => .fail e d
  | .ok _ d =>
    let d := skipBlanks d
    if d.current = some close then .done d.move else items close item d.pending d

/-- The colon between a key and its value, with the blanks around it. -/
def colon : Scan Unit := fun c =>
  let c := skipBlanks c
  match c.current with
  | none => .error .endOfFile c
  | some x =>
    if x = ':' then
      match c.advance with
      | .ok _ d => .ok () (skipBlanks d)
      | .error e d => .error e d
    else .error c.unexpectedCharacter c

/-- A key and its value, with the cursor on the key's quote. -/
def member (value : Scan Value) : Scan (String × Value) := fun c =>
  match c.current with
  | none => .error .endOfFile c
  | some x =>
    if x = '"' then
      (do
        let key ← string
        colon
        return (key, ← value)) c
    else .error c.unexpectedCharacter c

/-- The word that begins with this letter, and its value. -/
def word? (x : Char) : Option (Keyword × Value) :=
  if x = 'n' then some ("null".toList, .null)
  else if x = 't' then some ("true".toList, .boolean true)
  else if x = 'f' then some ("false".toList, .boolean false)
  else none

/-- A value that is neither an array nor an object. -/
def scalar : Scan Value := fun c =>
  match c.current with
  | none => .error .endOfFile c
  | some x =>
    if x = '"' then (Value.string <$> string) c
    else
      match word? x with
      | some (word, v) => ((fun _ => v) <$> word.matchAt) c
      | none =>
        if x = '-' ∨ x.isDigit then (Value.number <$> number) c
        else .error c.unexpectedCharacter c

/-- A value with at most `n` levels of nesting. -/
def valueWithin : Nat → Scan Value
  | 0, c => .error .endOfFile c
  | n + 1, c =>
    if c.current = some '[' then (bracketed ']' (valueWithin n) c).collect .array
    else if c.current = some '{' then
      (bracketed '}' (member (valueWithin n)) c).collect fun ms => .object (Members.ofList ms)
    else scalar c

def value : Scan Value := fun c =>
  valueWithin c.pending c

/-- The values of an array, with the cursor on its bracket. -/
def array (c : Cursor) : Trail Value :=
  bracketed ']' value c

/-- The members of an object, with the cursor on its brace. -/
def object (c : Cursor) : Trail (String × Value) :=
  bracketed '}' (member value) c

end TextStream.Document
