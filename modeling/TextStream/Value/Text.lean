import TextStream.Decimal.Positional
import TextStream.Text.Hex
import TextStream.Value.Basic

/-!
# The text of a value

Values are written without blanks. In a string the quote, the backslash and
the control characters are escaped; everything else stands for itself.
-/

namespace TextStream.Value

def isControl (c : Char) : Bool :=
  c.toNat < 0x20 || (0x7F ≤ c.toNat && c.toNat < 0xA0)

def escapedChar (c : Char) : List Char :=
  if c == '"' then ['\\', '"']
  else if c == '\\' then ['\\', '\\']
  else if c == '\n' then ['\\', 'n']
  else if c == '\r' then ['\\', 'r']
  else if c == '\t' then ['\\', 't']
  else if isControl c then '\\' :: 'u' :: (Text.hexUpper 4 c.toNat).toList
  else [c]

def quotedChars (s : String) : List Char :=
  '"' :: (s.toList.flatMap escapedChar ++ ['"'])

mutual
def chars : Value → List Char
  | null => "null".toList
  | boolean true => "true".toList
  | boolean false => "false".toList
  | number x => Decimal.floatText x
  | string s => quotedChars s
  | array items => '[' :: (itemChars items ++ [']'])
  | object members => '{' :: (memberChars members ++ ['}'])

/-- Items with a comma between any two of them. -/
def itemChars : List Value → List Char
  | [] => []
  | [v] => v.chars
  | v :: rest => v.chars ++ ',' :: itemChars rest

def memberChars : List (String × Value) → List Char
  | [] => []
  | [(k, v)] => quotedChars k ++ ':' :: v.chars
  | (k, v) :: rest => quotedChars k ++ ':' :: (v.chars ++ ',' :: memberChars rest)
end

def text (v : Value) : String :=
  String.ofList v.chars

end TextStream.Value
