/-!
# Line ends

By default only a carriage return and a form feed end a line, so a carriage
return followed by a line feed ends one line and not two.
-/

namespace TextStream.Text

def isLineEnd (c : Char) : Bool :=
  c == '\r' || c == '\x0c'

/-- Counts a line feed as well. -/
def isLineEndOrFeed (c : Char) : Bool :=
  c == '\n' || isLineEnd c

end TextStream.Text
