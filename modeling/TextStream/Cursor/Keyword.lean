import TextStream.Cursor.Basic

/-!
# Fixed words

A keyword is what is still expected of it. Fed code points one at a time it
drops its head on each match and stays as it is on a mismatch; matched at a
cursor it must be met code point by code point.
-/

namespace TextStream

abbrev Keyword := List Char

namespace Keyword

inductive Step where
  | needMore
  | done
  | reject
deriving DecidableEq, Repr

/-- Feeds one code point: what happened, and what is expected from then on. -/
def step : Keyword → Char → Step × Keyword
  | [], _ => (.reject, [])
  | k :: rest, x =>
    if x = k then (if rest.isEmpty then .done else .needMore, rest)
    else (.reject, k :: rest)

/-- Feeds a text: the answers and expectations one by one, and the last expectation. -/
def feed : Keyword → List Char → List (Step × Keyword) × Keyword
  | k, [] => ([], k)
  | k, x :: xs =>
    let answer := k.step x
    let (answers, rest) := feed answer.2 xs
    (answer :: answers, rest)

/-- Passes over the keyword from the current code point on. The text may end
right after it, but not inside it. -/
def matchAt : Keyword → Scan Unit
  | [], c => .ok () c
  | k :: rest, c =>
    match c.current with
    | none => .error .endOfFile c
    | some x => if x = k then matchAt rest c.move else .error c.unexpectedKeyword c

/-- The match as a loop over steps. Only on the last code point of the keyword may
the move that follows find the end of the text. -/
theorem matchAt_eq_step {k : Keyword} (hk : k ≠ []) (c : Cursor) :
    k.matchAt c =
      match c.current with
      | none => .error .endOfFile c
      | some x =>
        match k.step x with
        | (.needMore, rest) =>
          match c.advance with
          | .ok _ d => rest.matchAt d
          | .error e d => .error e d
        | (.done, _) => .ok () c.move
        | (.reject, _) => .error c.unexpectedKeyword c := by
  cases k with
  | nil => exact absurd rfl hk
  | cons y rest =>
    cases hx : c.current with
    | none => simp [matchAt, hx]
    | some x =>
      by_cases hy : x = y
      · subst hy
        cases rest with
        | nil => simp [matchAt, hx, step]
        | cons z rest =>
          -- Off the text the rest of the keyword is met by nothing.
          cases hmove : c.move.current <;> simp [matchAt, hx, step, Cursor.advance, hmove]
      · simp [matchAt, hx, step, hy]

end Keyword

end TextStream
