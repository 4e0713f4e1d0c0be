import TextStream.Grammar.Document.Value

/-!
# Documents

A document is one value with blanks around it. The children of an array or
object are reported as they are read; a scalar is reported as a root with
itself as its only child.
-/

namespace TextStream.Document

/-- After the root nothing but blanks may come. -/
def close (c : Cursor) : Trail Event :=
  let d := skipBlanks c
  .report .complete c <|
    if d.isSeated then .fail d.unexpectedCharacter d else .done d

def finish : Grammar := fun c =>
  let c := skipBlanks c
  match c.current with
  | none => .fail .endOfFile c
  | some x =>
    if x = '[' then
      Trail.report (.start (.array [])) c
        (((array c).map fun v => Event.child v none).andThen close)
    else if x = '{' then
      Trail.report (.start (.object [])) c
        (((object c).map fun m => Event.child m.2 (some m.1)).andThen close)
    else
      match value c with
      | .error e d => .fail e d
      | .ok v d => .report (.start v) d (.report (.child v none) d (close d))

end TextStream.Document
