import TextStream.Proofs.Cursor.Tape
import TextStream.Proofs.Grammar.Simulation

/-!
# Cursors that differ in what they retain

Two cursors may hold different parts of the text that they visited and be equal
otherwise. They stay so as they move, and no grammar tells them apart. The text
that was delivered, the place in it and the seat decide a cursor that far, so
cursors that took in one text by different operations are alike.
-/

namespace TextStream

/-- Equal but for the visited text that is still held. -/
structure Cursor.Alike (c d : Cursor) : Prop where
  current : c.current = d.current
  unvisited : c.unvisited = d.unvisited
  index : c.index = d.index
  position : c.position = d.position
  ingested : c.ingested = d.ingested
  endsLine : c.endsLine = d.endsLine

namespace Cursor.Alike

variable {c d : Cursor}

theorem move (h : Alike c d) : Alike c.move d.move := by
  cases hu : c.unvisited with
  | nil =>
    rw [move_of_nil hu, move_of_nil (h.unvisited ▸ hu)]
    exact ⟨rfl, h.unvisited, h.index, h.position, h.ingested, h.endsLine⟩
  | cons x rest =>
    rw [move_of_cons hu, move_of_cons (h.unvisited ▸ hu)]
    refine ⟨rfl, rfl, ?_, ?_, h.ingested, h.endsLine⟩
    · simp only [h.index]
    · simp only [h.position, h.endsLine]

/-- Two cursors on tapes with the same text that stand at the same place. -/
theorem of_follows {t u : Tape} (hc : Follows c t) (hd : Follows d u) (ht : t.text = u.text)
    (hi : t.index = u.index) (hs : t.isSeated = u.isSeated) (he : t.endsLine = u.endsLine) :
    Alike c d := by
  refine ⟨?_, ?_, ?_, ?_, ?_, ?_⟩
  · rw [hc.current, hd.current, Tape.current, Tape.current, ht, hi, hs]
  · rw [hc.unvisited, hd.unvisited, ht, hi]
  · rw [hc.index, hd.index, hi]
  · simp only [hc.position, hd.position, Tape.position, Tape.line, Tape.character, Tape.visited,
      ht, hi, he]
  · rw [hc.ingested, hd.ingested, ht]
  · rw [hc.endsLine, hd.endsLine, he]

end Cursor.Alike

/-- Cursors that differ in what they retain, with no error taken for another. -/
def Simulation.alike : Simulation where
  rel := Cursor.Alike
  same := Eq
  current h := h.current
  unvisited h := h.unvisited
  move h := h.move
  same_refl _ := rfl
  unexpectedCharacter h := congrArg ParseError.unexpectedCharacter h.position
  unexpectedKeyword h := congrArg ParseError.unexpectedKeyword h.position
  invalidNumber h := congrArg ParseError.invalidNumber h.position

/-- Whatever the operations were, text, place and seat decide the cursor. -/
theorem Cursor.alike_after (endsLine : Char → Bool) {first second : List Operation}
    (ht : first.flatMap Operation.chunk = second.flatMap Operation.chunk)
    (hi : (Cursor.after { endsLine := endsLine } first).index =
      (Cursor.after { endsLine := endsLine } second).index)
    (hs : (Cursor.after { endsLine := endsLine } first).isSeated =
      (Cursor.after { endsLine := endsLine } second).isSeated) :
    (Cursor.after { endsLine := endsLine } first).Alike
      (Cursor.after { endsLine := endsLine } second) := by
  have hf := (follows_fresh endsLine).after first
  have hf' := (follows_fresh endsLine).after second
  obtain ⟨htext, hends⟩ := Tape.after_keeps { endsLine := endsLine } first
  obtain ⟨htext', hends'⟩ := Tape.after_keeps { endsLine := endsLine } second
  refine .of_follows hf hf' ?_ ?_ ?_ (hends.trans hends'.symm)
  · rw [htext, htext', ht]
  · rw [← hf.index, ← hf'.index, hi]
  · rw [← hf.isSeated, ← hf'.isSeated, hs]

end TextStream
