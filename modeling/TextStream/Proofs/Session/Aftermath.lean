import TextStream.Proofs.Session.Intake

/-!
# Where a document leaves the cursor

The end of a reading tells where the cursor is, whatever came before it. All is
visited after a document that was read, and after one that ends too early. Any
other error leaves the cursor on a code point, and an error with a position has
that cursor's. Two kinds of error never come up.
-/

namespace TextStream

/-- What an error tells of the cursor that was left behind. -/
def ParseError.Fits (c : Cursor) : ParseError → Prop
  | endOfFile | unterminatedString => c.isExhausted = true
  | unexpectedCharacter pos | unexpectedKeyword pos | invalidNumber pos =>
    c.isSeated = true ∧ pos = c.position
  | invalidUnicode => c.isSeated = true
  | unknown | emptyInput => False

namespace Stepwise

variable {α : Type} {m : Scan α} {c : Cursor}

theorem settled (h : Stepwise m) (hc : c.Settled) : (Outcome.cursor (m c)).Settled :=
  h.keeps (fun _ => Cursor.settled_move _) hc

theorem coherent (h : Stepwise m) (hc : c.Coherent) : (Outcome.cursor (m c)).Coherent :=
  h.keeps Cursor.Coherent.move hc

end Stepwise

theorem Cursor.Coherent.index_of_isExhausted {c : Cursor} (h : c.Coherent)
    (hc : c.isExhausted = true) : c.index = c.ingested := by
  rw [← h.count, (isExhausted_iff.mp hc).2]
  rfl

theorem Follows.ingested_ne_zero {c : Cursor} {t : Tape} (h : Follows c t)
    (hc : c.isSeated = true) : c.ingested ≠ 0 := by
  have hpos := Tape.index_pos (h.isSeated ▸ hc)
  rw [h.ingested]
  exact Nat.ne_of_gt (Nat.lt_of_lt_of_le hpos t.index_le)

namespace Document

variable {c d : Cursor} {e : ParseError}

-- ---------------------------------------------------------------------------
-- Nested values
-- ---------------------------------------------------------------------------

/-- What an assembler of its own puts out for a bracketed list, given the events
that stand for the items. Without an output the reading fails. -/
def assembled {α : Type} (template : Value) (child : α → Event) (t : Trail α) : Outcome Value :=
  match t.ended with
  | .error e d => .error e d
  | .ok () d =>
    match Tree.assembler.output ((Event.start template ::
        (t.values.map child ++ [.complete])).foldl Tree.receive none) with
    | some v => .ok v d
    | none => .error .unknown d

theorem assembled_of_output {α : Type} {template : Value} {child : α → Event}
    {f : List α → Value} {t : Trail α}
    (h : (Event.start template :: (t.values.map child ++ [.complete])).foldl Tree.receive none =
      some (f t.values)) : assembled template child t = t.collect f := by
  unfold assembled Trail.collect
  rw [h]
  cases t.ended <;> rfl

/-- A nested array or object has an output of its own, and that is its value. -/
theorem value_eq_assembled (c : Cursor) :
    value c =
      if c.current = some '[' then assembled (.array []) (fun v => .child v none) (array c)
      else if c.current = some '{' then
        assembled (.object []) (fun m => .child m.2 (some m.1)) (object c)
      else scalar c := by
  rw [value_eq, assembled_of_output (Tree.foldl_array_root none _),
    assembled_of_output (f := fun ms => .object (Members.ofList ms))
      (Tree.foldl_object_root none _)]

-- ---------------------------------------------------------------------------
-- How a document ends
-- ---------------------------------------------------------------------------

theorem fits_of_ended (hc : c.Settled) (h : (finish c).ended = .error e d) : e.Fits d := by
  have hd : d.Settled := by
    have hsettled := stepwise_ended_finish.settled hc
    rwa [h] at hsettled
  obtain ⟨w, -, hexplains⟩ := finish_error h
  cases hexplains with
  | incomplete hnone _ => exact hd.isExhausted hnone
  | unterminated hnone => exact hd.isExhausted hnone
  | malformed hseat => exact hseat
  | misplaced hpos hseat _ =>
    cases e with
    | unexpectedCharacter pos | unexpectedKeyword pos | invalidNumber pos =>
      exact ⟨hseat, Option.some.inj hpos⟩
    | _ => exact nomatch hpos

/-- Nothing but blanks comes behind the root. -/
theorem current_of_ended (h : (finish c).ended = .ok () d) : d.current = none := by
  rw [ended_finish] at h
  split at h
  · cases h
  · next v f _ =>
    unfold close at h
    simp only [Trail.report] at h
    split at h
    · cases h
    · next hseat =>
      obtain ⟨-, rfl⟩ := EStateM.Result.ok.inj h
      simpa [Cursor.isSeated] using hseat

theorem isExhausted_of_ended (hc : c.Settled) (h : (finish c).ended = .ok () d) :
    d.isExhausted = true := by
  have hsettled := stepwise_ended_finish.settled hc
  rw [h] at hsettled
  exact hsettled.isExhausted (current_of_ended h)

theorem index_of_ended (hc : c.Settled) (hc' : c.Coherent) (h : (finish c).ended = .ok () d) :
    d.index = d.ingested := by
  have hcoherent := stepwise_ended_finish.coherent hc'
  rw [h] at hcoherent
  exact hcoherent.index_of_isExhausted (isExhausted_of_ended hc h)

/-- An error with a position comes up only behind a code point. -/
theorem isSeated_of_position? {pos : Position} (hc : c.Settled)
    (h : (finish c).ended = .error e d) (hpos : e.position? = some pos) :
    c.isSeated = true ∧ d.position = pos := by
  have hfits := fits_of_ended hc h
  obtain ⟨w, hpass, -⟩ := finish_error h
  cases e with
  | unexpectedCharacter p | unexpectedKeyword p | invalidNumber p =>
    obtain ⟨hseat, rfl⟩ := hfits
    exact ⟨hpass.isSeated_of_isSeated hseat, Option.some.inj hpos⟩
  | _ => exact nomatch hpos

theorem finish_of_none (hc : c.current = none) : finish c = .fail .endOfFile c := by
  have hblanks : skipBlanks c = c := by
    unfold skipBlanks Cursor.skip
    rw [Cursor.skipWhile_of_none hc]
  unfold finish
  rw [hblanks]
  simp only [hc]

end Document

namespace Session

/-- A session that fails under a grammar stays where the grammar stopped, and
its error and its last notice say so. -/
theorem finalize_of_error {σ ω : Type} {s : Session} {g : Grammar} {e : ParseError} {d : Cursor}
    (hs : s.cursor.ingested ≠ 0) (h : (g s.cursor).ended = .error e d) (a : Assembler σ ω)
    (held : σ) :
    (s.finalize a held (some (.grammar g))).cursor = d ∧
      (s.finalize a held (some (.grammar g))).verdict = s.options.refuse e d.position ∧
      (s.finalize a held (some (.grammar g))).activity.notices.getLast? =
        some (.finalizeFailed e d.position) := by
  refine ⟨?_, ?_, ?_⟩
  · rw [cursor_finalize, if_neg hs, Trail.cursor, h]
  · rw [verdict_finalize, if_neg hs, Options.judge, h]
  · show (s.conclude a held (.grammar g)).activity.notices.getLast? = _
    unfold conclude
    simp only [if_neg hs, complete, follow, output, h, Trail.cursor]
    exact List.getLast?_concat

/-- Whatever was done with a session before, if it stands on a code point or has
nothing left, the end of a document tells where its cursor is, and an error that
has a position is reported there. A nested value never lacks an output of its own.
Text that was left behind a cursor on nothing is not looked at. -/
theorem document_places_cursor (options : Options) (ops : List Operation) :
    let s := (new options).after ops
    let trail := Document.finish s.cursor
    (s.cursor.isSeated = true ∨ s.cursor.isExhausted = true →
      (∀ d, trail.ended = .ok () d → d.isExhausted = true ∧ d.index = d.ingested) ∧
      (∀ e d, trail.ended = .error e d → e.Fits d) ∧
      ∀ e d pos, trail.ended = .error e d → e.position? = some pos →
        ∀ {σ ω : Type} (a : Assembler σ ω) (held : σ),
          let f := s.finalize a held (some (.grammar Document.finish))
          f.cursor.position = pos ∧ f.verdict = options.refuse e pos ∧
            f.activity.notices.getLast? = some (.finalizeFailed e pos)) ∧
    (∀ c, Document.value c =
      if c.current = some '[' then
        Document.assembled (.array []) (fun v => .child v none) (Document.array c)
      else if c.current = some '{' then
        Document.assembled (.object []) (fun m => .child m.2 (some m.1)) (Document.object c)
      else Document.scalar c) ∧
    (s.cursor.current = none →
      trail.ended = .error .endOfFile s.cursor ∧ trail.values = []) := by
  intro s trail
  obtain ⟨hcursor, hoptions⟩ := (new options).after_cursor ops
  have hcoherent : s.cursor.Coherent := by
    rw [hcursor]
    exact (Cursor.Coherent.fresh options.endsLine).after ops
  refine ⟨fun hplace => ?_, Document.value_eq_assembled, fun hnone => ?_⟩
  · have hsettled : s.cursor.Settled := Cursor.settled_iff.mpr hplace
    refine ⟨fun d h => ⟨Document.isExhausted_of_ended hsettled h,
      Document.index_of_ended hsettled hcoherent h⟩,
      fun e d h => Document.fits_of_ended hsettled h, fun e d pos h hpos σ ω a held => ?_⟩
    obtain ⟨hseat, rfl⟩ := Document.isSeated_of_position? hsettled h hpos
    obtain ⟨t, hfollows, -⟩ := after_follows options ops
    obtain ⟨hc, hv, hn⟩ := finalize_of_error (hfollows.ingested_ne_zero hseat) h a held
    exact ⟨congrArg Cursor.position hc, by rw [hv, hoptions]; rfl, hn⟩
  · have htrail : trail = .fail .endOfFile s.cursor := Document.finish_of_none hnone
    rw [htrail]
    exact ⟨rfl, rfl⟩

end Session

end TextStream
