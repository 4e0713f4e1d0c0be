import TextStream.Position
import TextStream.Text.Record

/-!
# Why reading a text fails

`ParseError` is what a cursor or a grammar reports. `Abort` is the refusal to
go on at all: a request that no input could make succeed, or a failure that
the session was told to treat as fatal.
-/

namespace TextStream

inductive ParseError where
  | unknown
  | emptyInput
  | unexpectedCharacter (pos : Position)
  | unterminatedString
  | invalidUnicode
  | unexpectedKeyword (pos : Position)
  | invalidNumber (pos : Position)
  | endOfFile
deriving DecidableEq, Repr

namespace ParseError

/-- Where the offending code point stands, for the kinds that point at one. -/
def position? : ParseError → Option Position
  | unexpectedCharacter pos | unexpectedKeyword pos | invalidNumber pos => some pos
  | unknown | emptyInput | unterminatedString | invalidUnicode | endOfFile => none

/-- While input is still being delivered this means "more is needed". -/
def isEndOfFile : ParseError → Bool
  | endOfFile => true
  | _ => false

def message : ParseError → String
  | unknown => "unknown parse error"
  | emptyInput => "empty input"
  | unexpectedCharacter pos => "unexpected character at " ++ pos.text
  | unterminatedString => "unterminated string"
  | invalidUnicode => "invalid unicode escape sequence"
  | unexpectedKeyword pos => "unexpected keyword at " ++ pos.text
  | invalidNumber pos => "invalid number at " ++ pos.text
  | endOfFile => "unexpected end of input"

def kindName : ParseError → String
  | unknown => "Unknown"
  | emptyInput => "EmptyInput"
  | unexpectedCharacter _ => "UnexpectedCharacter"
  | unterminatedString => "UnterminatedString"
  | invalidUnicode => "InvalidUnicode"
  | unexpectedKeyword _ => "UnexpectedKeyword"
  | invalidNumber _ => "InvalidNumber"
  | endOfFile => "EndOfFile"

/-- The kind with its fields, as diagnostics show it. -/
def describe (e : ParseError) : String :=
  match e.position? with
  | none => e.kindName
  | some pos => Text.recordText e.kindName
      [("line", toString pos.line), ("character", toString pos.character)]

end ParseError

inductive Abort where
  /-- The session has no grammar to complete its input with. -/
  | noGrammar
  /-- Completion failed in a session that treats failures as fatal. -/
  | parseFailed (pos : Position) (error : ParseError)
  /-- A text was to be cut into no parts at all. -/
  | noParts
deriving DecidableEq, Repr

def Abort.message : Abort → String
  | noGrammar => "StreamingParser finalized without a grammar; attach one with `with_grammar`"
  | parseFailed pos error => "parse failed at " ++ pos.text ++ ": " ++ error.message
  | noParts => "assertion failed: parts > 0"

end TextStream
