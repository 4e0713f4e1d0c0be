import TextStream.Value.Basic

/-!
# Structural events

A grammar reports a root as one `start`, its direct children in document
order, and one `complete`. An assembler folds such events into an output.
Nothing forces events to come in that order, so assemblers accept any.
-/

namespace TextStream

inductive Event where
  /-- An empty array or object to be filled, or a scalar that is the root itself. -/
  | start (template : Value)
  /-- A child, with its key if it is a member of an object. -/
  | child (value : Value) (key : Option String)
  | complete

/-- A child that found no place: whether it had a key, and the kind of root it met. -/
structure Refusal where
  keyed : Bool
  root : Option Kind
deriving DecidableEq, Repr

structure Assembler (σ ω : Type) where
  receive : σ → Event → σ
  /-- What `receive` leaves out of the output, if it does. -/
  refusal? : σ → Event → Option Refusal
  output : σ → Option ω

end TextStream
