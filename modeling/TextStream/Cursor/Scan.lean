import TextStream.Cursor.Basic

/-!
# Scanning a run of code points

Both loops ask a predicate about the current code point and go on while it
accepts. The predicate may keep state of its own between calls. One loop
copies what it passes, the other only counts.
-/

namespace TextStream

/-- A predicate with state: its answer and its next state. -/
abbrev Judge (σ : Type) := σ → Char → Bool × σ

/-- Where a scan ended: how many code points were accepted, and the states left. -/
structure Scanned (σ : Type) where
  count : Nat
  state : σ
  cursor : Cursor

namespace Cursor

variable {σ : Type}

def skipWhile (judge : Judge σ) (s : σ) (c : Cursor) : Scanned σ :=
  match _h : c.current with
  | none => ⟨0, s, c⟩
  | some x =>
    match judge s x with
    | (false, s) => ⟨0, s, c⟩
    | (true, s) =>
      let rest := skipWhile judge s c.move
      { rest with count := rest.count + 1 }
termination_by c.pending
decreasing_by exact pending_move_lt _h

/-- Like `skipWhile`, and appends the accepted code points to `dst`. -/
def advanceWhile (judge : Judge σ) (s : σ) (dst : String) (c : Cursor) : String × Scanned σ :=
  match _h : c.current with
  | none => (dst, ⟨0, s, c⟩)
  | some x =>
    match judge s x with
    | (false, s) => (dst, ⟨0, s, c⟩)
    | (true, s) =>
      let (dst, rest) := advanceWhile judge s (dst.push x) c.move
      (dst, { rest with count := rest.count + 1 })
termination_by c.pending
decreasing_by exact pending_move_lt _h

/-- A predicate without state. -/
def stateless (p : Char → Bool) : Judge Unit := fun _ x => (p x, ())

def skip (p : Char → Bool) (c : Cursor) : Cursor :=
  (c.skipWhile (stateless p) ()).cursor

def copy (p : Char → Bool) (c : Cursor) : String × Cursor :=
  let (dst, run) := c.advanceWhile (stateless p) () ""
  (dst, run.cursor)

theorem pending_skipWhile_le (judge : Judge σ) (s : σ) (c : Cursor) :
    (c.skipWhile judge s).cursor.pending ≤ c.pending := by
  fun_induction skipWhile judge s c with
  | case1 => exact Nat.le_refl _
  | case2 => exact Nat.le_refl _
  | case3 s c x hx t ht rest ih => exact Nat.le_trans ih (pending_move_le c)

theorem pending_advanceWhile_le (judge : Judge σ) (s : σ) (dst : String) (c : Cursor) :
    (c.advanceWhile judge s dst).2.cursor.pending ≤ c.pending := by
  fun_induction advanceWhile judge s dst c with
  | case1 => exact Nat.le_refl _
  | case2 => exact Nat.le_refl _
  | case3 s dst c x hx t ht dst' rest h ih =>
    simp only [h] at ih
    exact Nat.le_trans ih (pending_move_le c)

theorem pending_skip_le (p : Char → Bool) (c : Cursor) : (c.skip p).pending ≤ c.pending :=
  pending_skipWhile_le _ _ _

theorem pending_copy_le (p : Char → Bool) (c : Cursor) : (c.copy p).2.pending ≤ c.pending :=
  pending_advanceWhile_le _ _ _ _

end Cursor

end TextStream
