import TextStream.Assembly.Tree
import TextStream.Grammar.Transcript
import TextStream.Proofs.Cursor.Alike
import TextStream.Proofs.Session.Verdict
import TextStream.Text.Chunk

/-!
# The schedule of deliveries does not matter

A session may be fed its text in chunks of any size, with moves by hand in
between. How it ends depends on the whole text, on how far the cursor was moved
and on whether a code point is current, and on nothing else. The cursors of two
such sessions can differ only in the visited text they still hold, and that no
grammar reads.
-/

namespace TextStream

namespace Transcript

variable {c d : Cursor}

theorem entries_eq (depth : Nat) (c : Cursor) :
    entries depth c =
      match c.current with
      | none => if depth = 0 then .report .complete c (.done c) else .fail .endOfFile c
      | some x =>
        match nesting? depth x with
        | none => .fail c.unexpectedCharacter c
        | some depth => .report (.child (entry x c.position) none) c (entries depth c.move) := by
  rw [entries]
  split
  · next h => rw [h]
  · next x h =>
    cases hn : nesting? depth x with
    | none => simp only [h, hn]
    | some depth' => simp only [h, hn]

-- A transcript shows positions, so its events agree only where these do.
theorem trails_entries (depth : Nat) (h : c.Alike d) :
    Simulation.alike.Trails (entries depth c) (entries depth d) := by
  induction hn : c.pending using Nat.strongRecOn generalizing depth c d with
  | ind n ih =>
    rw [entries_eq, entries_eq, h.current]
    cases hx : d.current with
    | none =>
      simp only
      split
      · exact (Simulation.Trails.done h).report _
      · exact .fail rfl h
    | some x =>
      simp only
      cases nesting? depth x with
      | none => exact .fail (congrArg ParseError.unexpectedCharacter h.position) h
      | some depth' =>
        have hlt := Cursor.pending_move_lt (h.current.trans hx)
        simp only [h.position]
        exact (ih _ (hn ▸ hlt) depth' h.move rfl).report _

theorem trails_finish (h : c.Alike d) : Simulation.alike.Trails (finish c) (finish d) :=
  (trails_entries 0 h).report _

end Transcript

-- ---------------------------------------------------------------------------
-- Feeding a session
-- ---------------------------------------------------------------------------

/-- How a text reaches a session: chunk by chunk, with moves by hand in between. -/
inductive Feed where
  | ingest (chunk : List Char)
  | advance
deriving DecidableEq, Repr

namespace Feed

def command : Feed → Command
  | ingest chunk => .ingest chunk
  | advance => .cursor .advance

def operation : Feed → Operation
  | ingest chunk => .ingest chunk
  | advance => .advance

/-- The text that one feed delivers. -/
def chunk : Feed → List Char
  | ingest chunk => chunk
  | advance => []

@[simp] theorem chunk_operation (f : Feed) : f.operation.chunk = f.chunk := by
  cases f <;> rfl

end Feed

variable {σ ω : Type}

namespace Session

/-- The session after a list of feeds. What they answered is not looked at. -/
def feed (s : Session) (feeds : List Feed) : Session :=
  (s.run (feeds.map Feed.command)).2

theorem scan_session {α : Type} (s : Session) (m : Scan α) :
    (s.scan m).session = { s with cursor := (Outcome.split (m s.cursor)).2 } := by
  unfold scan
  cases m s.cursor <;> rfl

theorem perform_feed (s : Session) (f : Feed) :
    (s.perform f.command).session.cursor = (s.cursor.apply f.operation).2 ∧
      (s.perform f.command).session.options = s.options := by
  cases f with
  | ingest chunk =>
    show ((s.extend chunk).session.scan Cursor.prime).session.cursor = _ ∧
      ((s.extend chunk).session.scan Cursor.prime).session.options = _
    rw [scan_session]
    exact ⟨rfl, rfl⟩
  | advance =>
    show (s.scan Cursor.advance).session.cursor = _ ∧
      (s.scan Cursor.advance).session.options = _
    rw [scan_session]
    exact ⟨rfl, rfl⟩

theorem feed_cursor (s : Session) (feeds : List Feed) :
    (s.feed feeds).cursor = s.cursor.after (feeds.map Feed.operation) ∧
      (s.feed feeds).options = s.options := by
  induction feeds generalizing s with
  | nil => exact ⟨rfl, rfl⟩
  | cons f rest ih =>
    obtain ⟨hc, ho⟩ := ih (s.perform f.command).session
    obtain ⟨hc', ho'⟩ := s.perform_feed f
    rw [hc'] at hc
    exact ⟨hc, ho.trans ho'⟩

theorem feed_follows (options : Options) (feeds : List Feed) :
    Follows ((new options).feed feeds).cursor
      (Tape.after { endsLine := options.endsLine } (feeds.map Feed.operation)) := by
  rw [((new options).feed_cursor feeds).1]
  exact (follows_fresh options.endsLine).after _

/-- Text, place and seat decide the cursor up to what it retains. -/
theorem feed_alike (options : Options) {first second : List Feed}
    (ht : first.flatMap Feed.chunk = second.flatMap Feed.chunk)
    (hi : ((new options).feed first).cursor.index = ((new options).feed second).cursor.index)
    (hs : ((new options).feed first).cursor.isSeated =
      ((new options).feed second).cursor.isSeated) :
    ((new options).feed first).cursor.Alike ((new options).feed second).cursor := by
  rw [((new options).feed_cursor first).1, ((new options).feed_cursor second).1] at hi hs ⊢
  refine Cursor.alike_after options.endsLine ?_ hi hs
  simpa [List.flatMap_map] using ht

/-- Sessions whose cursors are alike end alike under a grammar that leaves
alike cursors with the same events. -/
theorem verdict_eq_of_alike {s u : Session} (ho : s.options = u.options)
    (hc : s.cursor.Alike u.cursor) {g : Grammar}
    (hg : Simulation.alike.Trails (g s.cursor) (g u.cursor)) (a : Assembler σ ω) (held : σ) :
    (s.finalize a held (some (.grammar g))).verdict =
      (u.finalize a held (some (.grammar g))).verdict := by
  rw [verdict_finalize, verdict_finalize, ho, hc.ingested, hc.position]
  split
  · rfl
  · unfold Options.judge
    rw [hg.values]
    rcases hg.ended.cases with ⟨_, c, d, hc', hd', h⟩ | ⟨e, f, c, d, hc', hd', rfl, h⟩
    · rw [hc', hd']
      simp only [show c.position = d.position from h.position]
    · rw [hc', hd']
      simp only [show c.position = d.position from h.position]

end Session

-- ---------------------------------------------------------------------------
-- Cutting a text into chunks
-- ---------------------------------------------------------------------------

/-- The first code point is current as soon as there is one. -/
def Tape.Primed (t : Tape) : Prop :=
  t.index = min 1 t.text.length ∧ t.isSeated = decide (0 < t.text.length)

theorem Tape.Primed.ingest {t : Tape} (h : t.Primed) (chunk : List Char) :
    (t.ingest chunk).2.Primed := by
  obtain ⟨hi, hs⟩ := h
  have hi' : (t.extend chunk).index = t.index := rfl
  have hs' : (t.extend chunk).isSeated = t.isSeated := rfl
  have hl : (t.extend chunk).text.length = t.text.length + chunk.length := List.length_append
  unfold Tape.ingest Tape.Primed
  cases hb : t.isSeated with
  | true =>
    have hpos : 0 < t.text.length := by simpa [hb] using hs.symm
    simp only [hs', hb, hi', ↓reduceIte, hl, hi]
    refine ⟨by omega, ?_⟩
    exact (decide_eq_true (by omega)).symm
  | false =>
    have hzero : t.text.length = 0 := by simpa [hb] using hs.symm
    simp only [hs', hb, Bool.false_eq_true, ↓reduceIte, text_advance, hl]
    rcases Nat.lt_or_ge (t.extend chunk).index (t.extend chunk).text.length with hlt | hge
    · obtain ⟨-, hi'', hs''⟩ := advance_of_lt hlt
      rw [hl, hi', hi] at hlt
      rw [hi'', hs'', hi', hi]
      refine ⟨by omega, ?_⟩
      exact (decide_eq_true (by omega)).symm
    · obtain ⟨-, hi'', hs''⟩ := advance_of_le hge
      rw [hl, hi', hi] at hge
      rw [hi'', hs'', hi', hi]
      refine ⟨by omega, ?_⟩
      exact (decide_eq_false (by omega)).symm

theorem Tape.Primed.after {t : Tape} (h : t.Primed) (chunks : List (List Char)) :
    (t.after ((chunks.map Feed.ingest).map Feed.operation)).Primed := by
  induction chunks generalizing t with
  | nil => exact h
  | cons chunk rest ih => exact ih (h.ingest chunk)

namespace Session

theorem verdict_eq_of_feeds (options : Options) (a : Assembler σ ω) (held : σ) {g : Grammar}
    (hg : g = Document.finish ∨ g = Transcript.finish) {first second : List Feed}
    (ht : first.flatMap Feed.chunk = second.flatMap Feed.chunk)
    (hi : ((new options).feed first).cursor.index = ((new options).feed second).cursor.index)
    (hs : ((new options).feed first).cursor.isSeated =
      ((new options).feed second).cursor.isSeated) :
    (((new options).feed first).finalize a held (some (.grammar g))).verdict =
      (((new options).feed second).finalize a held (some (.grammar g))).verdict := by
  have hc := feed_alike options ht hi hs
  have ho := ((new options).feed_cursor first).2.trans ((new options).feed_cursor second).2.symm
  rcases hg with rfl | rfl
  · exact verdict_eq_of_alike ho hc (Document.trails_finish (S := .alike) hc) a held
  · exact verdict_eq_of_alike ho hc (Transcript.trails_finish hc) a held

/-- Fed by chunks alone, a session stands on the first code point or has none. -/
theorem feed_chunks (options : Options) (chunks : List (List Char)) :
    ((new options).feed (chunks.map .ingest)).cursor.index = min 1 chunks.flatten.length ∧
      ((new options).feed (chunks.map .ingest)).cursor.isSeated =
        decide (0 < chunks.flatten.length) := by
  have hf := feed_follows options (chunks.map .ingest)
  have hp : Tape.Primed { endsLine := options.endsLine } := ⟨rfl, rfl⟩
  obtain ⟨hi, hs⟩ := hp.after chunks
  obtain ⟨ht, -⟩ := Tape.after_keeps { endsLine := options.endsLine }
    ((chunks.map Feed.ingest).map Feed.operation)
  have hflat : ((chunks.map Feed.ingest).map Feed.operation).flatMap Operation.chunk =
      chunks.flatten := by
    simp [List.flatMap_map, Feed.chunk, List.flatMap_id']
  rw [hflat, List.nil_append] at ht
  rw [hf.index, hf.isSeated, hi, hs, ht]
  exact ⟨rfl, rfl⟩

theorem verdict_feed_chunks (options : Options) (a : Assembler σ ω) (held : σ) {g : Grammar}
    (hg : g = Document.finish ∨ g = Transcript.finish) (chunks : List (List Char)) :
    (((new options).feed (chunks.map .ingest)).finalize a held (some (.grammar g))).verdict =
      ((new options).parse chunks.flatten a held (some (.grammar g))).verdict := by
  -- a whole text is the list of one chunk
  show _ = (((new options).feed ([chunks.flatten].map .ingest)).finalize a held _).verdict
  obtain ⟨hi, hs⟩ := feed_chunks options chunks
  obtain ⟨hi', hs'⟩ := feed_chunks options [chunks.flatten]
  refine verdict_eq_of_feeds options a held hg ?_ ?_ ?_
  · simp [List.flatMap_map, Feed.chunk, List.flatMap_id']
  · rw [hi, hi']
    simp
  · rw [hs, hs']
    simp

/-- How a session ends depends on its text, on how far its cursor was moved and
on whether a code point is current. A text that is only delivered, in whatever
chunks, ends as it does in one piece. -/
theorem verdict_independent_of_schedule (options : Options) (a : Assembler σ ω) (held : σ)
    {g : Grammar} (hg : g = Document.finish ∨ g = Transcript.finish) :
    (∀ first second : List Feed,
      first.flatMap Feed.chunk = second.flatMap Feed.chunk →
      ((new options).feed first).cursor.index = ((new options).feed second).cursor.index →
      ((new options).feed first).cursor.current.isSome =
        ((new options).feed second).cursor.current.isSome →
      (((new options).feed first).finalize a held (some (.grammar g))).verdict =
        (((new options).feed second).finalize a held (some (.grammar g))).verdict) ∧
    (∀ chunks : List (List Char),
      (((new options).feed (chunks.map .ingest)).finalize a held (some (.grammar g))).verdict =
        ((new options).parse chunks.flatten a held (some (.grammar g))).verdict) ∧
    (∀ (text : List Char) (parts : Nat) (chunks : List (List Char)),
      Text.chunks text parts = .ok chunks →
      (((new options).feed (chunks.map .ingest)).finalize a held (some (.grammar g))).verdict =
        ((new options).parse text a held (some (.grammar g))).verdict) ∧
    ∀ (text : List Char) (lengths : List Nat),
      (((new options).feed ((Text.splitByLengths lengths text).map .ingest)).finalize a held
        (some (.grammar g))).verdict =
        ((new options).parse text a held (some (.grammar g))).verdict := by
  have hcut : ∀ chunks : List (List Char), _ := verdict_feed_chunks options a held hg
  refine ⟨fun first second => verdict_eq_of_feeds options a held hg, hcut, ?_, ?_⟩
  · intro text parts chunks h
    unfold Text.chunks at h
    split at h
    · simp at h
    · simp only [Except.ok.injEq] at h
      have hflat : chunks.flatten = text := h ▸ Text.flatten_splitByLengths _ text
      rw [hcut chunks, hflat]
  · intro text lengths
    rw [hcut, Text.flatten_splitByLengths]

/-- A move by hand before or after the second chunk is all one to the transcript. -/
theorem verdict_of_late_move :
    (((new {}).feed [.ingest ['(', '\r'], .advance, .ingest [')']]).finalize Tree.assembler none
      (some (.grammar Transcript.finish))).verdict =
    (((new {}).feed [.ingest ['('], .ingest [], .ingest ['\r', ')'], .advance]).finalize
      Tree.assembler none (some (.grammar Transcript.finish))).verdict :=
  (verdict_independent_of_schedule {} Tree.assembler none (.inr rfl)).1 _ _ (by decide)
    (by decide) (by decide)

end Session

end TextStream
