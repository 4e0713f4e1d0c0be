/-!
# Retained input

A buffer holds the code points that were visited and not yet given up, the
latest first, and those still to be visited. Its contents in reading order and
the place of the next code point in them are views.
-/

namespace TextStream

structure Buffer where
  visited : List Char := []
  unvisited : List Char := []
deriving DecidableEq, Repr

namespace Buffer

/-- Everything held, in reading order. -/
def data (b : Buffer) : List Char :=
  b.visited.reverse ++ b.unvisited

/-- The place in `data` of the next code point to visit. -/
def next (b : Buffer) : Nat :=
  b.visited.length

def size (b : Buffer) : Nat :=
  b.visited.length + b.unvisited.length

def push (b : Buffer) (chunk : List Char) : Buffer :=
  { b with unvisited := b.unvisited ++ chunk }

/-- Gives up what was visited, all but the latest code point if that is kept. -/
def compact (b : Buffer) (keepLatest : Bool) : Buffer :=
  { b with visited := if keepLatest then b.visited.take 1 else [] }

/-- How many code points `compact` gives up. -/
def evicted (b : Buffer) (keepLatest : Bool) : Nat :=
  if keepLatest then b.visited.length - 1 else b.visited.length

theorem length_data (b : Buffer) : b.data.length = b.size := by
  simp [data, size]

theorem data_push (b : Buffer) (chunk : List Char) : (b.push chunk).data = b.data ++ chunk := by
  simp [data, push]

theorem data_compact (b : Buffer) (keepLatest : Bool) :
    (b.compact keepLatest).data = b.data.drop (b.evicted keepLatest) := by
  cases keepLatest with
  | false => simp [data, compact, evicted]
  | true =>
    cases hv : b.visited with
    | nil => simp [data, compact, evicted, hv]
    | cons c rest => simp [data, compact, evicted, hv]

theorem size_compact (b : Buffer) (keepLatest : Bool) :
    (b.compact keepLatest).size + b.evicted keepLatest = b.size := by
  cases keepLatest with
  | false => simp [size, compact, evicted]; omega
  | true =>
    cases hv : b.visited with
    | nil => simp [size, compact, evicted, hv]
    | cons c rest => simp [size, compact, evicted, hv]; omega

end Buffer

end TextStream
