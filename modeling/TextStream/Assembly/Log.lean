import TextStream.Assembly.Event
import TextStream.Value.Text

/-!
# A log of events

One line for each event, oldest first. A key is written as it is, without
quotes.
-/

namespace TextStream.EventLog

def line : Event → String
  | .start template => "start " ++ template.text
  | .child v (some key) => "child " ++ key ++ "=" ++ v.text
  | .child v none => "child " ++ v.text
  | .complete => "complete"

/-- Holds the lines, latest first. The log is an output even when empty. -/
def assembler : Assembler (List String) (List String) where
  receive lines e := line e :: lines
  refusal? _ _ := none
  output lines := some lines.reverse

end TextStream.EventLog
