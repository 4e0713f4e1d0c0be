import TextStream.Text.Hex
import TextStream.Text.Visible

/-!
# Code points in diagnostics

A code point is shown between apostrophes. Those that would be misread or
cannot be seen are written as escapes.
-/

namespace TextStream.Text

def shown (c : Char) : String :=
  if c == '\x00' then "\\0"
  else if c == '\t' then "\\t"
  else if c == '\r' then "\\r"
  else if c == '\n' then "\\n"
  else if c == '\'' then "\\'"
  else if c == '\\' then "\\\\"
  else if isVisible c then c.toString
  else "\\u\x7b" ++ hexLower 1 c.toNat ++ "\x7d"

def quoted (c : Char) : String :=
  "'" ++ shown c ++ "'"

end TextStream.Text
