import TextStream.Proofs.Session.Diagnosis
import TextStream.Proofs.Session.Schedule

/-!
# Options place errors and do nothing else

What ends a line and how long a text was expected to be has no say in what is
read. Two sessions that differ in these read the same text to the same end, with
the same events. Only the positions on the way are others, and nothing but an
error shows one.
-/

namespace TextStream

/-- Cursors at the same place in the same text. Lines may be counted differently. -/
structure Cursor.Level (c d : Cursor) : Prop where
  current : c.current = d.current
  unvisited : c.unvisited = d.unvisited
  index : c.index = d.index

theorem Cursor.Level.move {c d : Cursor} (h : Level c d) : Level c.move d.move := by
  cases hu : c.unvisited with
  | nil =>
    rw [move_of_nil hu, move_of_nil (h.unvisited ▸ hu)]
    exact ⟨rfl, h.unvisited, h.index⟩
  | cons x rest =>
    rw [move_of_cons hu, move_of_cons (h.unvisited ▸ hu)]
    exact ⟨rfl, rfl, congrArg (· + 1) h.index⟩

theorem Cursor.level_atStart (endsLine endsLine' : Char → Bool) (text : List Char) :
    Level (.atStart endsLine text) (.atStart endsLine' text) :=
  Level.move ⟨rfl, rfl, rfl⟩

/-- Cursors at the same place, with errors of one kind taken for each other. -/
def Simulation.level : Simulation where
  rel := Cursor.Level
  same e f := e.kindName = f.kindName
  current h := h.current
  unvisited h := h.unvisited
  move h := h.move
  same_refl _ := rfl
  unexpectedCharacter _ := rfl
  unexpectedKeyword _ := rfl
  invalidNumber _ := rfl

variable {σ ω : Type}

/-- Verdicts that differ at most in where an error is reported. -/
inductive Verdict.UpToPosition : Verdict ω → Verdict ω → Prop
  | ok (output : ω) : UpToPosition (.ok output) (.ok output)
  | failed {e f : ParseError} : e.kindName = f.kindName → UpToPosition (.failed e) (.failed f)
  | aborted {e f : ParseError} (p q : Position) : e.kindName = f.kindName →
      UpToPosition (.aborted (.parseFailed p e)) (.aborted (.parseFailed q f))

namespace Options

variable {o o' : Options}

theorem refuse_upToPosition (ho : o.abortOnError = o'.abortOnError) {e f : ParseError}
    (h : e.kindName = f.kindName) (p q : Position) :
    (o.refuse e p : Verdict ω).UpToPosition (o'.refuse f q) := by
  unfold refuse
  rw [ho]
  split
  · exact .aborted p q h
  · exact .failed h

theorem judge_upToPosition (ho : o.abortOnError = o'.abortOnError) {t u : Trail Event}
    (h : Simulation.level.Trails t u) (a : Assembler σ ω) (held : σ) :
    (o.judge a held t).UpToPosition (o'.judge a held u) := by
  unfold judge
  rw [h.values]
  rcases h.ended.cases with ⟨_, c, d, hc, hd, -⟩ | ⟨e, f, c, d, hc, hd, he, -⟩
  · rw [hc, hd]
    simp only
    split
    · exact .ok _
    · exact refuse_upToPosition ho rfl _ _
  · rw [hc, hd]
    exact refuse_upToPosition ho he _ _

end Options

namespace Session

/-- Sessions that differ in what ends a line and in how much text they expect
read a document to the same value, or to an error of the same kind, and stop at
the same code point. -/
theorem options_place_errors (options : Options) (endsLine : Char → Bool)
    (expectedLen : Option Nat) (text : List Char) (a : Assembler σ ω) (held : σ) :
    let other := { options with endsLine := endsLine, expectedLen := expectedLen }
    let f := (new options).parse text a held (some (.grammar Document.finish))
    let f' := (new other).parse text a held (some (.grammar Document.finish))
    f.verdict.UpToPosition f'.verdict ∧ f.cursor.index = f'.cursor.index ∧
      f.cursor.current = f'.cursor.current := by
  intro other f f'
  have hstart := Cursor.level_atStart options.endsLine endsLine text
  have htrails := Document.trails_finish (S := .level) hstart
  have hcursor : Cursor.Level f.cursor f'.cursor := by
    rw [cursor_parse, cursor_parse]
    split
    · exact hstart
    · exact htrails.cursor
  refine ⟨?_, hcursor.index, hcursor.current⟩
  rw [verdict_parse, verdict_parse]
  split
  · exact Options.refuse_upToPosition rfl rfl _ _
  · exact Options.judge_upToPosition rfl htrails a held

end Session

end TextStream
