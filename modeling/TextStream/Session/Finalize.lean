import TextStream.Assembly.Event
import TextStream.Grammar.Trail
import TextStream.Session.Script

/-!
# Ending a session

Completion hands the cursor to a grammar, or to a script, and the reported
events to an assembler. A session ends with what the assembler put out, an
error, or an abort.
-/

namespace TextStream

inductive Plan where
  | grammar (g : Grammar)
  | script (commands : List Script.Command)

/-- Without a plan nothing can be completed. -/
def Plan.require : Option Plan → Except Abort Plan
  | some p => .ok p
  | none => .error .noGrammar

structure Completion (σ : Type) where
  result : Except ParseError Unit
  session : Session
  held : σ
  activity : Activity := {}
  /-- What each command of a script answered, and where it left the cursor. -/
  trace : List (Reply × Cursor) := []

inductive Verdict (ω : Type) where
  | ok (output : ω)
  | failed (e : ParseError)
  | aborted (a : Abort)

structure Finalized (ω : Type) where
  verdict : Verdict ω
  cursor : Cursor
  activity : Activity := {}
  trace : List (Reply × Cursor) := []

variable {σ ω : Type}

/-- Hands reported events to the assembler, from the given line on. Line ends
passed before an event was reported are noticed before what it causes. -/
def Assembler.attend (a : Assembler σ ω) : Nat → σ → List (Stamped Event) → (σ × Nat) × List Notice
  | line, held, [] => ((held, line), [])
  | line, held, e :: rest =>
    let refused := (a.refusal? held e.value).toList.map Notice.childDropped
    let (last, notices) := attend a e.position.line (a.receive held e.value) rest
    (last, Notice.crossings line e.position.line ++ refused ++ notices)

namespace Session

/-- Lets a grammar run over the rest of the text. -/
def follow (s : Session) (g : Grammar) (a : Assembler σ ω) (held : σ) : Completion σ :=
  let trail := g s.cursor
  let ((held, line), notices) := a.attend s.cursor.position.line held trail.entries
  { result := match trail.ended with
      | .ok () _ => .ok ()
      | .error e _ => .error e
    session := { s with cursor := trail.cursor }
    held := held
    activity :=
      .ofNotices (notices ++ Notice.crossings line trail.cursor.position.line) }

def playOut (s : Session) (a : Assembler σ ω) (held : σ) : List Script.Command → Completion σ
  | [] => { result := .ok (), session := s, held := held }
  | c :: rest =>
    let m := Script.perform a s held c
    let entry := (m.reply, m.session.cursor)
    match m.failure with
    | some e =>
      { result := .error e, session := m.session, held := m.held, activity := m.activity,
        trace := [entry] }
    | none =>
      let last := playOut m.session a m.held rest
      { last with activity := m.activity ++ last.activity, trace := entry :: last.trace }

/-- Carries out a plan. -/
def complete (s : Session) (a : Assembler σ ω) (held : σ) : Plan → Completion σ
  | .grammar g => s.follow g a held
  | .script commands => s.playOut a held commands

/-- The output of a completion that succeeded. -/
def output (a : Assembler σ ω) (done : Completion σ) : Except ParseError ω :=
  match done.result with
  | .error e => .error e
  | .ok () =>
    match a.output done.held with
    | some out => .ok out
    | none => .error .unknown

/-- Completes the text, if it has any code points, and ends the session. -/
def conclude (s : Session) (a : Assembler σ ω) (held : σ) (p : Plan) : Finalized ω :=
  let done :=
    if s.cursor.ingested = 0 then
      { result := .error .emptyInput, session := s, held := held }
    else s.complete a held p
  let cursor := done.session.cursor
  let activity :=
    .ofNotices [.finalizing s.cursor.ingested s.cursor.position] ++ done.activity
  match output a done with
  | .ok out => { verdict := .ok out, cursor := cursor, activity := activity, trace := done.trace }
  | .error e =>
    { verdict :=
        if s.options.abortOnError then .aborted (.parseFailed cursor.position e) else .failed e
      cursor := cursor
      activity := activity ++ .ofNotices [.finalizeFailed e cursor.position]
      trace := done.trace }

/-- Ends the session. Without a plan that is refused, whatever the text. -/
def finalize (s : Session) (a : Assembler σ ω) (held : σ) (p : Option Plan) : Finalized ω :=
  match Plan.require p with
  | .error abort => { verdict := .aborted abort, cursor := s.cursor }
  | .ok p => s.conclude a held p

/-- Takes in a whole text and ends the session. -/
def parse (s : Session) (text : List Char) (a : Assembler σ ω) (held : σ) (p : Option Plan) :
    Finalized ω :=
  let ingested := s.ingest text
  let final := ingested.session.finalize a held p
  { final with activity := ingested.activity ++ final.activity }

end Session

end TextStream
