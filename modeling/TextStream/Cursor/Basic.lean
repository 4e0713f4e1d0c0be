import TextStream.Cursor.Buffer
import TextStream.Error
import TextStream.Text.LineEnd

/-!
# The cursor

A cursor walks over a text that arrives in chunks. It sits on a code point, or
on none: before the first move, and once a move found nothing left. Chunks are
added without moving it. A `Scan` is a computation on a cursor that may fail
and leaves the cursor where it stopped in either case.
-/

namespace TextStream

structure Cursor where
  buffer : Buffer := {}
  current : Option Char := none
  /-- Successful moves so far. -/
  index : Nat := 0
  position : Position := {}
  /-- Code points received so far. -/
  ingested : Nat := 0
  endsLine : Char → Bool := Text.isLineEnd

abbrev Scan (α : Type) := EStateM ParseError Cursor α

abbrev Outcome (α : Type) := EStateM.Result ParseError Cursor α

namespace Cursor

def unvisited (c : Cursor) : List Char :=
  c.buffer.unvisited

/-- The code point that the next move reaches. -/
def peek (c : Cursor) : Option Char :=
  c.unvisited.head?

def retained (c : Cursor) : Nat :=
  c.buffer.size

def isSeated (c : Cursor) : Bool :=
  c.current.isSome

def isExhausted (c : Cursor) : Bool :=
  c.current.isNone && c.unvisited.isEmpty

/-- Code points still ahead, the current one included. -/
def pending (c : Cursor) : Nat :=
  c.unvisited.length + (if c.isSeated then 1 else 0)

/-- Appends a chunk after giving up what was visited before the current code point. -/
def extend (c : Cursor) (chunk : List Char) : Cursor :=
  { c with
    buffer := (c.buffer.compact c.isSeated).push chunk
    ingested := c.ingested + chunk.length }

/-- Code points that the next `extend` gives up. -/
def evicted (c : Cursor) : Nat :=
  c.buffer.evicted c.isSeated

/-- Steps onto the next code point, or off the text when there is none. -/
def move (c : Cursor) : Cursor :=
  match c.buffer.unvisited with
  | [] => { c with current := none }
  | x :: rest =>
    { c with
      buffer := ⟨x :: c.buffer.visited, rest⟩
      current := some x
      index := c.index + 1
      position := c.position.next (c.endsLine x) }

/-- Moves, and fails when that leaves nothing current. -/
def advance : Scan Char := fun c =>
  let d := c.move
  match d.current with
  | some x => .ok x d
  | none => .error .endOfFile d

/-- Moves only if nothing is current. -/
def prime : Scan Unit := fun c =>
  match c.current with
  | some _ => .ok () c
  | none =>
    match advance c with
    | .ok _ d => .ok () d
    | .error e d => .error e d

/-- Takes delivery of a chunk and sees to it that a code point is current if any is left. -/
def ingest (chunk : List Char) : Scan Unit := fun c =>
  prime (c.extend chunk)

def unexpectedCharacter (c : Cursor) : ParseError :=
  .unexpectedCharacter c.position

def unexpectedKeyword (c : Cursor) : ParseError :=
  .unexpectedKeyword c.position

def invalidNumber (c : Cursor) : ParseError :=
  .invalidNumber c.position

theorem unvisited_move (c : Cursor) : c.move.unvisited = c.unvisited.tail := by
  cases h : c.buffer.unvisited with
  | nil => simp [move, unvisited, h]
  | cons x rest => simp [move, unvisited, h]

theorem current_move (c : Cursor) : c.move.current = c.unvisited.head? := by
  cases h : c.buffer.unvisited with
  | nil => simp [move, unvisited, h]
  | cons x rest => simp [move, unvisited, h]

/-- A move takes one code point off what is ahead, down to none. -/
theorem pending_move (c : Cursor) : c.move.pending = c.unvisited.length := by
  unfold pending isSeated
  rw [unvisited_move, current_move]
  cases c.unvisited with
  | nil => rfl
  | cons x rest => simp

theorem pending_move_le (c : Cursor) : c.move.pending ≤ c.pending := by
  rw [pending_move]
  exact Nat.le_add_right _ _

theorem pending_move_lt {c : Cursor} {x : Char} (h : c.current = some x) :
    c.move.pending < c.pending := by
  rw [pending_move, pending, isSeated, h]
  exact Nat.lt_succ_self _

theorem advance_eq_ok {c d : Cursor} {x : Char} (h : advance c = .ok x d) :
    d = c.move ∧ d.current = some x := by
  unfold advance at h
  cases hm : c.move.current with
  | none => simp [hm] at h
  | some y =>
    simp only [hm, EStateM.Result.ok.injEq] at h
    obtain ⟨rfl, rfl⟩ := h
    exact ⟨rfl, hm⟩

/-- A successful `advance` visits one code point, whether or not one was current. -/
theorem unvisited_advance_lt {c d : Cursor} {x : Char} (h : advance c = .ok x d) :
    d.unvisited.length < c.unvisited.length := by
  obtain ⟨rfl, hx⟩ := advance_eq_ok h
  rw [current_move] at hx
  rw [unvisited_move]
  cases hu : c.unvisited with
  | nil => simp [hu] at hx
  | cons y rest => simp

end Cursor

end TextStream
