import TextStream.Decimal.Numeral
import TextStream.Grammar.Document.Quoted
import TextStream.Value.Text

/-!
# Values with their kinds written out

In this form, meant for exchange, every value names its kind: an object with
one member, whose key is the kind and whose value is the content. Null may be
its bare name. Reading is strict: control characters must be escaped, only
four blanks are known, a number must be finite once it is rounded, and at most
`maxDepth` brackets may be open at once.
-/

namespace TextStream.Tagged

def maxDepth : Nat := 127

abbrev Reader (α : Type) := StateT (List Char) Option α

def isBlank (x : Char) : Bool :=
  x == ' ' || x == '\t' || x == '\n' || x == '\r'

def skipBlanks : Reader Unit :=
  modify (·.dropWhile isBlank)

/-- The next code point after blanks, which is not passed over. -/
def peek : Reader Char := do
  skipBlanks
  (← get).head?

def mark (x : Char) : Reader Unit := do
  if (← peek) = x then modify List.tail else failure

/-- Where a reader stands inside a string. -/
inductive StringState where
  | plain
  | escape
  | digits (e : Text.UnicodeEscape)
  /-- After a high surrogate, before the backslash and the letter of the low one. -/
  | pair (e : Text.UnicodeEscape)
  | pairLetter (e : Text.UnicodeEscape)

/-- The rest of a string after `read`, up to its closing quote. -/
def stringFrom : StringState → String → List Char → Option (String × List Char)
  | _, _, [] => none
  | .plain, read, x :: rest =>
    if x = '"' then some (read, rest)
    else if x = '\\' then stringFrom .escape read rest
    else if x.toNat < 0x20 then none
    else stringFrom .plain (read.push x) rest
  | .escape, read, x :: rest =>
    if x = 'u' then stringFrom (.digits {}) read rest
    else
      match Document.letterEscape? x with
      | some y => stringFrom .plain (read.push y) rest
      | none => none
  | .digits e, read, x :: rest =>
    match e.feed x with
    | (.error _, _) => none
    | (.ok (some y), _) => stringFrom .plain (read.push y) rest
    | (.ok none, e) =>
      if e.isAwaitingLow then stringFrom (.pair e) read rest
      else stringFrom (.digits e) read rest
  | .pair e, read, x :: rest =>
    if x = '\\' then stringFrom (.pairLetter e) read rest else none
  | .pairLetter e, read, x :: rest =>
    if x = 'u' then stringFrom (.digits e) read rest else none

def string : Reader String := do
  mark '"'
  fun cs => stringFrom .plain "" cs

/-- A zero before the first digit of a number that needs none. -/
def hasSpareZero (cs : List Char) : Bool :=
  match (Decimal.sign cs).2 with
  | '0' :: x :: _ => x.isDigit
  | _ => false

/-- The nearest double, unless that is infinite. -/
def number : Reader Float := do
  skipBlanks
  if hasSpareZero (← get) then failure
  let n ← fun cs => Decimal.Numeral.read? cs
  let x := n.toFloat
  if x.isInf then failure else return x

def word (w : String) : Reader Unit := do
  skipBlanks
  let cs ← get
  if w.toList.isPrefixOf cs then set (cs.drop w.length) else failure

/-- Items with commas between them up to the closing bracket, at most `n`. -/
def itemsWithin {α : Type} (close : Char) (item : Reader α) : Nat → Reader (List α)
  | 0 => failure
  | n + 1 => do
    let a ← item
    if (← peek) = ',' then
      mark ','
      return a :: (← itemsWithin close item n)
    else
      mark close
      return [a]

/-- A bracketed list. Each item takes at least one code point, which bounds their number. -/
def bracketed {α : Type} (opening close : Char) (item : Reader α) : Reader (List α) := do
  mark opening
  if (← peek) = close then
    mark close
    return []
  else itemsWithin close item (← get).length

def member (value : Reader Value) : Reader (String × Value) := do
  let key ← string
  mark ':'
  return (key, ← value)

/-- The content of a value of the named kind. Only where brackets may still be
opened is there a reader for the values inside. -/
def content (nested : Option (Reader Value)) (kind : String) : Reader Value :=
  if kind = "Null" then do word "null"; return .null
  else if kind = "Boolean" then do
    if (← peek) = 't' then do word "true"; return .boolean true
    else do word "false"; return .boolean false
  else if kind = "Number" then Value.number <$> number
  else if kind = "String" then Value.string <$> string
  else if kind = "Array" then do
    let item ← (nested : Option (Reader Value))
    return .array (← bracketed '[' ']' item)
  else if kind = "Object" then do
    let item ← (nested : Option (Reader Value))
    return .object (Members.ofList (← bracketed '{' '}' (member item)))
  else failure

def bareNull : Reader Value := do
  if (← string) = "Null" then return .null else failure

/-- A value named by its kind, inside a bracket of its own. -/
def labelled (nested : Option (Reader Value)) : Reader Value := do
  if (← peek) = '"' then bareNull
  else
    mark '{'
    let kind ← string
    mark ':'
    let v ← content nested kind
    mark '}'
    return v

/-- A value that opens at most `n` brackets at once. -/
def valueWithin : Nat → Reader Value
  | 0 => bareNull
  | 1 => labelled none
  | n + 2 => labelled (some (valueWithin n))

/-- Reads a text that is one value with blanks around it. -/
def ofList? (cs : List Char) : Option Value := do
  let (v, rest) ← valueWithin maxDepth cs
  if rest.all isBlank then some v else none

mutual
/-- The tagged form, with numbers written by `number`. -/
def chars (number : Float → List Char) : Value → List Char
  | .null => "\"Null\"".toList
  | .boolean true => "\x7b\"Boolean\":true\x7d".toList
  | .boolean false => "\x7b\"Boolean\":false\x7d".toList
  | .number x => "\x7b\"Number\":".toList ++ number x ++ ['}']
  | .string s => "\x7b\"String\":".toList ++ Value.quotedChars s ++ ['}']
  | .array items => "\x7b\"Array\":[".toList ++ itemChars number items ++ [']', '}']
  | .object members => "\x7b\"Object\":\x7b".toList ++ memberChars number members ++ ['}', '}']

def itemChars (number : Float → List Char) : List Value → List Char
  | [] => []
  | [v] => chars number v
  | v :: rest => chars number v ++ ',' :: itemChars number rest

def memberChars (number : Float → List Char) : List (String × Value) → List Char
  | [] => []
  | [(k, v)] => Value.quotedChars k ++ ':' :: chars number v
  | (k, v) :: rest =>
    Value.quotedChars k ++ ':' :: (chars number v ++ ',' :: memberChars number rest)
end

/-- A number as its bits, so that nothing is lost. -/
def bitsChars (x : Float) : List Char :=
  "\"bits:".toList ++ Text.hexDigits 16 x.toBits.toNat ++ ['"']

def text (v : Value) : String :=
  String.ofList (chars bitsChars v)

end TextStream.Tagged
