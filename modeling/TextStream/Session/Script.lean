import TextStream.Session.Command

/-!
# Scripted completion

A script takes the place of a grammar: a list of cursor commands, events and
failures that is worked through until it ends or fails. The reply to each
command and the cursor after it are kept.
-/

namespace TextStream.Script

inductive Command where
  | cursor (c : CursorCommand)
  | event (e : Event)
  | fail (e : ParseError)
  | failHere (f : Fault)
  /-- An advance whose failure ends the script. -/
  | mustAdvance

/-- The reply to one command, the state after it, and the error that ends the script there. -/
structure Move (σ : Type) where
  reply : Reply
  session : Session
  held : σ
  activity : Activity := {}
  failure : Option ParseError := none

variable {σ ω : Type}

def perform (a : Assembler σ ω) (s : Session) (held : σ) : Command → Move σ
  | .cursor c =>
    let t := s.act c
    { reply := t.result, session := t.session, held := held, activity := t.activity }
  | .event e =>
    { reply := .done
      session := s
      held := a.receive held e
      activity := .ofNotices ((a.refusal? held e).toList.map .childDropped) }
  | .fail e => { reply := .failed e, session := s, held := held, failure := some e }
  | .failHere f =>
    let e := f.error s.cursor
    { reply := .failed e, session := s, held := held, failure := some e }
  | .mustAdvance =>
    let t := s.scan Cursor.advance
    { reply := .ofChar t.result
      session := t.session
      held := held
      activity := t.activity
      failure := match t.result with
        | .ok _ => none
        | .error e => some e }

end TextStream.Script
