import TextStream.Grammar.Trail

/-!
# Small grammars
-/

namespace TextStream.Grammar

/-- Each code point from here on as a string of its own. -/
def characterEvents (c : Cursor) : Trail Event :=
  match _h : c.current with
  | none => .report .complete c (.done c)
  | some x => .report (.child (.string x.toString) none) c (characterEvents c.move)
termination_by c.pending
decreasing_by exact Cursor.pending_move_lt _h

/-- The code points of a text as an array. -/
def characters : Grammar := fun c =>
  .report (.start (.array [])) c (characterEvents c)

/-- Accepts a text by its first code point alone, which must be an `x`. -/
def letterX : Grammar := fun c =>
  if c.current = some 'x' then .report (.start .null) c (.report .complete c (.done c))
  else .fail c.unexpectedCharacter c

/-- Accepts anything and reports nothing. -/
def silent : Grammar := fun c =>
  .done c

end TextStream.Grammar
