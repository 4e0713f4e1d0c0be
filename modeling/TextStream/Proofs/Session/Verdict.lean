import TextStream.Proofs.Cursor.Passage
import TextStream.Session.Finalize

/-!
# How a session ends under a grammar

The verdict is read off the trail that the grammar leaves: an error is passed
on, or made fatal where the options say so, and a success counts only if the
assembler has something to put out.
-/

namespace TextStream

variable {σ ω : Type}

/-- What an assembler holds after a trail depends on the reported values alone. -/
theorem Assembler.attend_held (a : Assembler σ ω) (line : Nat) (held : σ)
    (entries : List (Stamped Event)) :
    (a.attend line held entries).1.1 = (entries.map Stamped.value).foldl a.receive held := by
  induction entries generalizing line held with
  | nil => rfl
  | cons e rest ih => exact ih e.position.line (a.receive held e.value)

/-- The end of a session that failed with its cursor at `pos`. -/
def Options.refuse (o : Options) (e : ParseError) (pos : Position) : Verdict ω :=
  if o.abortOnError then .aborted (.parseFailed pos e) else .failed e

/-- The verdict on what a grammar left behind. -/
def Options.judge (o : Options) (a : Assembler σ ω) (held : σ) (t : Trail Event) : Verdict ω :=
  match t.ended with
  | .error e d => o.refuse e d.position
  | .ok () d =>
    match a.output (t.values.foldl a.receive held) with
    | some out => .ok out
    | none => o.refuse .unknown d.position

theorem Options.refuse_ne_ok (o : Options) (e : ParseError) (pos : Position) (out : ω) :
    o.refuse e pos ≠ Verdict.ok out := by
  unfold refuse
  split <;> simp

theorem Options.judge_eq_ok_iff {o : Options} {a : Assembler σ ω} {held : σ} {t : Trail Event}
    {out : ω} :
    o.judge a held t = .ok out ↔
      ∃ d, t.ended = .ok () d ∧ a.output (t.values.foldl a.receive held) = some out := by
  unfold judge
  cases t.ended with
  | error e d => simp [refuse_ne_ok]
  | ok _ d =>
    cases a.output (t.values.foldl a.receive held) with
    | none => simp [refuse_ne_ok]
    | some out' => simp

/-- A cursor on the first code point of a text that was delivered in one piece. -/
def Cursor.atStart (endsLine : Char → Bool) (text : List Char) : Cursor :=
  (Cursor.extend { endsLine := endsLine } text).move

theorem Cursor.ahead_atStart (endsLine : Char → Bool) (text : List Char) :
    (Cursor.atStart endsLine text).ahead = text :=
  Cursor.ahead_move _

theorem Cursor.ingested_atStart (endsLine : Char → Bool) (text : List Char) :
    (Cursor.atStart endsLine text).ingested = text.length :=
  (ingested_move _).trans (Nat.zero_add _)

namespace Session

theorem ingest_new (options : Options) (text : List Char) :
    ((new options).ingest text).session.cursor = .atStart options.endsLine text ∧
      ((new options).ingest text).session.options = options := by
  show (((new options).extend text).session.scan Cursor.prime).session.cursor = _ ∧
    (((new options).extend text).session.scan Cursor.prime).session.options = _
  have hc : ((new options).extend text).session.cursor =
      Cursor.extend { endsLine := options.endsLine } text := rfl
  unfold scan
  rw [hc]
  rcases Cursor.prime_of_none (c := Cursor.extend { endsLine := options.endsLine } text) rfl with
    h | h
  · rw [h]
    exact ⟨rfl, rfl⟩
  · rw [h]
    exact ⟨rfl, rfl⟩

theorem verdict_finalize (s : Session) (g : Grammar) (a : Assembler σ ω) (held : σ) :
    (s.finalize a held (some (.grammar g))).verdict =
      if s.cursor.ingested = 0 then s.options.refuse .emptyInput s.cursor.position
      else s.options.judge a held (g s.cursor) := by
  have hheld : (a.attend s.cursor.position.line held (g s.cursor).entries).1.1 =
      (g s.cursor).values.foldl a.receive held := a.attend_held _ _ _
  show (s.conclude a held (.grammar g)).verdict = _
  unfold conclude
  split
  · rfl
  · simp only [complete, follow, output, hheld]
    unfold Options.judge Trail.cursor
    cases (g s.cursor).ended with
    | error e d => rfl
    | ok _ d =>
      cases a.output ((g s.cursor).values.foldl a.receive held) with
      | none => rfl
      | some out => rfl

/-- A text that is parsed whole is judged from its first code point on. -/
theorem verdict_parse (options : Options) (text : List Char) (g : Grammar) (a : Assembler σ ω)
    (held : σ) :
    ((new options).parse text a held (some (.grammar g))).verdict =
      if text = [] then options.refuse .emptyInput {}
      else options.judge a held (g (.atStart options.endsLine text)) := by
  obtain ⟨hc, ho⟩ := ingest_new options text
  show (((new options).ingest text).session.finalize a held (some (.grammar g))).verdict = _
  rw [verdict_finalize, hc, ho, Cursor.ingested_atStart]
  cases text with
  | nil => rfl
  | cons x rest => rfl

theorem cursor_finalize (s : Session) (g : Grammar) (a : Assembler σ ω) (held : σ) :
    (s.finalize a held (some (.grammar g))).cursor =
      if s.cursor.ingested = 0 then s.cursor else (g s.cursor).cursor := by
  show (s.conclude a held (.grammar g)).cursor = _
  unfold conclude
  split
  · simp only [output]
  · simp only [complete, follow]
    split <;> rfl

/-- A whole text is left where the grammar that reads it stops. -/
theorem cursor_parse (options : Options) (text : List Char) (g : Grammar) (a : Assembler σ ω)
    (held : σ) :
    ((new options).parse text a held (some (.grammar g))).cursor =
      if text = [] then .atStart options.endsLine text
      else (g (.atStart options.endsLine text)).cursor := by
  obtain ⟨hc, -⟩ := ingest_new options text
  show (((new options).ingest text).session.finalize a held (some (.grammar g))).cursor = _
  rw [cursor_finalize, hc, Cursor.ingested_atStart]
  cases text with
  | nil => rfl
  | cons x rest => rfl

end Session

end TextStream
