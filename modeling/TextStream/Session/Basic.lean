import TextStream.Cursor.Basic
import TextStream.Session.Notice

/-!
# Sessions

A session takes in a text chunk by chunk. It owns a cursor, keeps count of the
progress it reported and knows the listeners that exist. Every operation
yields its result, the session after it and the activity it caused.
-/

namespace TextStream

structure Options where
  endsLine : Char → Bool := Text.isLineEnd
  /-- How many code points are expected in all, if that is known. -/
  expectedLen : Option Nat := none
  /-- Whether a failed completion is fatal. -/
  abortOnError : Bool := false

structure Session where
  options : Options := {}
  cursor : Cursor := {}
  progress : Progress := {}
  listeners : Listeners := {}

structure Step (α : Type) where
  result : α
  session : Session
  activity : Activity := {}

namespace Session

def new (options : Options) : Session :=
  { options := options, cursor := { endsLine := options.endsLine } }

def report (s : Session) (r : Report) : Step Unit :=
  let fate := s.progress.fate s.listeners r
  { result := ()
    session := { s with progress := s.progress.after r fate }
    activity := .ofFate s.progress r fate }

/-- Puts the cursor where it was moved to; each line end on the way is noticed. -/
def moveTo (s : Session) (c : Cursor) : Step Unit :=
  { result := ()
    session := { s with cursor := c }
    activity := .ofNotices (Notice.crossings s.cursor.position.line c.position.line) }

/-- Runs a computation on the cursor. -/
def scan {α : Type} (s : Session) (m : Scan α) : Step (Except ParseError α) :=
  match m s.cursor with
  | .ok a c => { s.moveTo c with result := .ok a }
  | .error e c => { s.moveTo c with result := .error e }

/-- Appends a chunk without moving the cursor, then reports what was taken in so far. -/
def extend (s : Session) (chunk : List Char) : Step Nat :=
  let c := s.cursor.extend chunk
  let reported := { s with cursor := c }.report ⟨c.ingested, s.options.expectedLen.getD 0⟩
  { result := chunk.length
    session := reported.session
    activity :=
      .ofNotices [.extended chunk.length s.cursor.evicted c.retained] ++ reported.activity }

/-- Appends a chunk and moves onto the next code point if none was current. -/
def ingest (s : Session) (chunk : List Char) : Step (Except ParseError Unit) :=
  let extended := s.extend chunk
  let primed := extended.session.scan Cursor.prime
  let notices :=
    match s.cursor.current, primed.session.cursor.current with
    | none, some x => [Notice.primed x primed.session.cursor.index]
    | _, _ => []
  { primed with activity := extended.activity ++ primed.activity ++ .ofNotices notices }

end Session

end TextStream
