import TextStream.Assembly.Event
import TextStream.Cursor.Basic

/-!
# What a grammar leaves behind

A grammar runs over a cursor and reports events on the way. Its trail is the
reported events, each with the position at which it was reported, and the
outcome. Events reported before a failure stay on the trail.
-/

namespace TextStream

structure Stamped (α : Type) where
  value : α
  position : Position

structure Trail (α : Type) where
  entries : List (Stamped α)
  ended : Outcome Unit

abbrev Grammar := Cursor → Trail Event

namespace Trail

variable {α β : Type}

def done (c : Cursor) : Trail α :=
  ⟨[], .ok () c⟩

def fail (e : ParseError) (c : Cursor) : Trail α :=
  ⟨[], .error e c⟩

/-- Reports `a` at the cursor, before what `rest` reports. -/
def report (a : α) (c : Cursor) (rest : Trail α) : Trail α :=
  ⟨⟨a, c.position⟩ :: rest.entries, rest.ended⟩

/-- Goes on from where `t` ended, unless it failed. -/
def andThen (t : Trail α) (next : Cursor → Trail α) : Trail α :=
  match t.ended with
  | .ok () c => let rest := next c; ⟨t.entries ++ rest.entries, rest.ended⟩
  | .error _ _ => t

def map (f : α → β) (t : Trail α) : Trail β :=
  ⟨t.entries.map fun s => ⟨f s.value, s.position⟩, t.ended⟩

def values (t : Trail α) : List α :=
  t.entries.map Stamped.value

def cursor (t : Trail α) : Cursor :=
  match t.ended with
  | .ok () c => c
  | .error _ c => c

/-- The outcome, with what was reported as the result of a success. -/
def collect (t : Trail α) (f : List α → β) : Outcome β :=
  match t.ended with
  | .ok () c => .ok (f t.values) c
  | .error e c => .error e c

end Trail

end TextStream
