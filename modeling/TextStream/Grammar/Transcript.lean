import TextStream.Grammar.Trail
import TextStream.Text.Quoted

/-!
# Transcripts

A transcript lists every code point of a text with its position. Parentheses
must balance and an exclamation mark may not occur.
-/

namespace TextStream.Transcript

/-- The open parentheses after `x`, or `none` where `x` may not stand. -/
def nesting? (depth : Nat) (x : Char) : Option Nat :=
  if x = '!' then none
  else if x = '(' then some (depth + 1)
  else if x = ')' then (if depth = 0 then none else some (depth - 1))
  else some depth

def entry (x : Char) (p : Position) : Value :=
  .string (Text.quoted x ++ "@" ++ p.text)

def entries (depth : Nat) (c : Cursor) : Trail Event :=
  match _h : c.current with
  | none => if depth = 0 then .report .complete c (.done c) else .fail .endOfFile c
  | some x =>
    match nesting? depth x with
    | none => .fail c.unexpectedCharacter c
    | some depth => .report (.child (entry x c.position) none) c (entries depth c.move)
termination_by c.pending
decreasing_by exact Cursor.pending_move_lt _h

def finish : Grammar := fun c =>
  .report (.start (.array [])) c (entries 0 c)

end TextStream.Transcript
