import TextStream.Cursor.Keyword
import TextStream.Cursor.Scan
import TextStream.Session.Describe

/-!
# Commands

The operations of a session as data, so that a session can be driven by a
list of them. Cursor commands are those that a grammar may use as well.
-/

namespace TextStream

/-- Predicates for scanning. The last one looks only at how often it was asked. -/
inductive Pattern where
  | any
  | none
  | digit
  | oneOf (set : String)
  | noneOf (set : String)
  | first (n : Nat)
deriving DecidableEq, Repr

/-- The answer for `x` after `calls` earlier questions. -/
def Pattern.accepts (calls : Nat) (x : Char) : Pattern → Bool
  | any => true
  | none => false
  | digit => x.isDigit
  | oneOf set => set.toList.contains x
  | noneOf set => !set.toList.contains x
  | first n => calls < n

/-- The pattern as a predicate that counts its calls. -/
def Pattern.judge (p : Pattern) : Judge Nat := fun calls x =>
  (p.accepts calls x, calls + 1)

/-- The errors that point at the current code point. -/
inductive Fault where
  | unexpectedCharacter
  | unexpectedKeyword
  | invalidNumber
deriving DecidableEq, Repr

def Fault.error (c : Cursor) : Fault → ParseError
  | unexpectedCharacter => c.unexpectedCharacter
  | unexpectedKeyword => c.unexpectedKeyword
  | invalidNumber => c.invalidNumber

inductive CursorCommand where
  | extend (chunk : List Char)
  | advance
  | advanceBy (n : Nat)
  | advanceWhile (p : Pattern) (dst : String)
  | skipWhile (p : Pattern)
  | keyword (k : Keyword)
  | errorHere (f : Fault)
  | report (r : Report)
  | describe
deriving DecidableEq, Repr

inductive Reply where
  | done
  | failed (e : ParseError)
  | number (n : Nat)
  | character (x : Char)
  /-- The code points reached with their positions, and what ended the walk early. -/
  | walk (reached : List (Char × Position)) (failure : Option ParseError)
  | copied (count calls : Nat) (dst : String)
  | skipped (count calls : Nat)
  | text (s : String)
deriving DecidableEq, Repr

def Reply.ofUnit : Except ParseError Unit → Reply
  | .ok () => .done
  | .error e => .failed e

def Reply.ofChar : Except ParseError Char → Reply
  | .ok x => .character x
  | .error e => .failed e

/-- Up to `n` advances, ending at the first that fails. -/
def Cursor.walk : Nat → Cursor → (List (Char × Position) × Option ParseError) × Cursor
  | 0, c => (([], none), c)
  | n + 1, c =>
    match c.advance with
    | .error e d => (([], some e), d)
    | .ok x d =>
      let ((reached, failure), f) := walk n d
      (((x, d.position) :: reached, failure), f)

def Session.act (s : Session) : CursorCommand → Step Reply
  | .extend chunk => let t := s.extend chunk; { t with result := .number t.result }
  | .advance => let t := s.scan Cursor.advance; { t with result := .ofChar t.result }
  | .advanceBy n =>
    let ((reached, failure), c) := s.cursor.walk n
    { s.moveTo c with result := .walk reached failure }
  | .advanceWhile p dst =>
    let (dst, run) := s.cursor.advanceWhile p.judge 0 dst
    { s.moveTo run.cursor with result := .copied run.count run.state dst }
  | .skipWhile p =>
    let run := s.cursor.skipWhile p.judge 0
    { s.moveTo run.cursor with result := .skipped run.count run.state }
  | .keyword k => let t := s.scan k.matchAt; { t with result := .ofUnit t.result }
  | .errorHere f => { result := .failed (f.error s.cursor), session := s }
  | .report r => { s.report r with result := .done }
  | .describe => { result := .text s.describe, session := s }

inductive Command where
  | cursor (c : CursorCommand)
  | ingest (chunk : List Char)
  /-- Creates a listener and reports to it from then on. -/
  | attach
  | reattach (id : Nat)
  | detach
  | drop (id : Nat)
  /-- Runs a command while a listener is busy. -/
  | whileBusy (id : Nat) (c : Command)
deriving DecidableEq, Repr

namespace Session

def perform (s : Session) : Command → Step Reply
  | .cursor c => s.act c
  | .ingest chunk => let t := s.ingest chunk; { t with result := .ofUnit t.result }
  | .attach =>
    let id := s.listeners.created
    { result := .number id
      session := { s with
        progress := s.progress.attach id
        listeners := { s.listeners with created := id + 1 } } }
  | .reattach id =>
    { result := .done, session := { s with progress := s.progress.attach id } }
  | .detach =>
    { result := .done, session := { s with progress := s.progress.detach } }
  | .drop id =>
    { result := .done
      session := { s with listeners :=
        { s.listeners with dropped := id :: s.listeners.dropped } } }
  | .whileBusy id c =>
    let busy := s.listeners.busy
    let t := { s with listeners := { s.listeners with busy := id :: busy } }.perform c
    { t with session := { t.session with listeners := { t.session.listeners with busy := busy } } }

/-- The steps of a list of commands and the session after them. -/
def run : Session → List Command → List (Step Reply) × Session
  | s, [] => ([], s)
  | s, c :: rest =>
    let step := s.perform c
    let (steps, last) := run step.session rest
    (step :: steps, last)

end Session

end TextStream
