import TextStream.Proofs.Cursor.Retention
import TextStream.Proofs.Session.Diagnosis
import TextStream.Proofs.Session.Schedule

/-!
# Taking text in

A session that takes its text in by `ingest` alone always stands on the first
code point that was not consumed, or has consumed everything. A bare extension
could leave text behind a cursor that stands on nothing, and a move could never
do so. So no delivery is lost on the way to the grammar, and only a session that
was given no text at all ends for want of input.
-/

namespace TextStream

namespace Cursor

variable {c : Cursor} {chunk : List Char} {op : Operation}

-- ---------------------------------------------------------------------------
-- Nothing waits behind a cursor on nothing
-- ---------------------------------------------------------------------------

/-- Where nothing is current, nothing is left. -/
def Settled (c : Cursor) : Prop :=
  c.current = none → c.unvisited = []

theorem isExhausted_iff : c.isExhausted = true ↔ c.current = none ∧ c.unvisited = [] := by
  simp [isExhausted]

theorem Settled.isExhausted (h : c.Settled) (hc : c.current = none) : c.isExhausted = true :=
  isExhausted_iff.mpr ⟨hc, h hc⟩

/-- A cursor is settled exactly if it stands on a code point or has visited all. -/
theorem settled_iff : c.Settled ↔ c.isSeated = true ∨ c.isExhausted = true := by
  rw [isExhausted_iff]
  unfold Settled isSeated
  cases c.current <;> simp

/-- A move comes to nothing only at the end. -/
theorem settled_move (c : Cursor) : c.move.Settled := by
  intro h
  rw [current_move, List.head?_eq_none_iff] at h
  rw [unvisited_move, h, List.tail_nil]

theorem settled_prime (c : Cursor) : (Outcome.cursor (prime c)).Settled := by
  cases hx : c.current with
  | none =>
    rcases prime_of_none hx with h | h <;> rw [h] <;> exact c.settled_move
  | some x =>
    simp only [prime, hx]
    exact fun h => absurd (hx.symm.trans h) (Option.some_ne_none x)

theorem Settled.apply (h : c.Settled) (hop : ∀ chunk, op ≠ .extend chunk) :
    (c.apply op).2.Settled := by
  cases op with
  | extend chunk => exact absurd rfl (hop chunk)
  | ingest chunk =>
    show (Outcome.split (prime (c.extend chunk))).2.Settled
    rw [Outcome.split_snd]
    exact settled_prime _
  | _ => exact apply_keeps (fun _ => settled_move _) h

theorem Settled.after (h : c.Settled) {ops : List Operation}
    (hops : ∀ chunk, Operation.extend chunk ∉ ops) : (c.after ops).Settled := by
  induction ops generalizing c with
  | nil => exact h
  | cons op rest ih =>
    refine ih (h.apply fun chunk hop => ?_) fun chunk hmem => ?_
    · exact hops chunk (hop ▸ List.mem_cons_self)
    · exact hops chunk (List.mem_cons_of_mem _ hmem)

-- ---------------------------------------------------------------------------
-- One delivery
-- ---------------------------------------------------------------------------

/-- What becomes of a chunk: it is added behind the current code point, or it is
empty and nothing is left, or the cursor comes to stand on its first code point. -/
inductive Takes (c : Cursor) : List Char → Outcome Unit → Prop
  | behind {chunk : List Char} : c.isSeated = true → Takes c chunk (.ok () (c.extend chunk))
  | nothing {d : Cursor} : c.isExhausted = true → d.isExhausted = true →
      Takes c [] (.error .endOfFile d)
  | onto {x : Char} {rest : List Char} {d : Cursor} : c.isExhausted = true →
      d.current = some x → d.index = c.index + 1 → Takes c (x :: rest) (.ok () d)

theorem Settled.takes (h : c.Settled) (chunk : List Char) : Takes c chunk (ingest chunk c) := by
  cases hx : c.current with
  | some x =>
    have hingest : ingest chunk c = .ok () (c.extend chunk) := by
      simp only [ingest, prime, show (c.extend chunk).current = some x from hx]
    rw [hingest]
    exact .behind (by simp [isSeated, hx])
  | none =>
    have hends : c.isExhausted = true := h.isExhausted hx
    have hunvisited : (c.extend chunk).unvisited = chunk := by
      show c.unvisited ++ chunk = chunk
      rw [h hx, List.nil_append]
    unfold ingest prime advance
    simp only [show (c.extend chunk).current = none from hx]
    cases chunk with
    | nil =>
      rw [move_of_nil hunvisited]
      exact .nothing hends (isExhausted_iff.mpr ⟨rfl, hunvisited⟩)
    | cons y rest =>
      rw [move_of_cons hunvisited]
      exact .onto hends rfl rfl

section
variable {o : Outcome Unit}

/-- A delivery fails only for want of text. -/
theorem Takes.result (h : Takes c chunk o) :
    Outcome.result o = .error .endOfFile ∨ Outcome.result o = .ok () := by
  cases h with
  | behind _ => exact .inr rfl
  | nothing _ _ => exact .inl rfl
  | onto _ _ _ => exact .inr rfl

theorem not_isExhausted_of_isSeated (h : c.isSeated = true) : c.isExhausted = false := by
  simp [isExhausted, ← Option.not_isSome, show c.current.isSome = true from h]

theorem Takes.fails_iff_before (h : Takes c chunk o) :
    Outcome.result o = .error .endOfFile ↔ c.isExhausted = true ∧ chunk = [] := by
  cases h with
  | behind hc => simp [Outcome.result, not_isExhausted_of_isSeated hc]
  | nothing hc _ => simp [Outcome.result, hc]
  | onto _ _ _ => simp [Outcome.result]

theorem Takes.fails_iff_after (h : Takes c chunk o) :
    Outcome.result o = .error .endOfFile ↔ (Outcome.cursor o).isExhausted = true := by
  cases h with
  | behind hc =>
    have hd : (c.extend chunk).isExhausted = false := not_isExhausted_of_isSeated hc
    simp [Outcome.result, Outcome.cursor, hd]
  | nothing _ hd => simp [Outcome.result, Outcome.cursor, hd]
  | @onto x rest d _ hx _ => simp [Outcome.result, Outcome.cursor, isExhausted, hx]

theorem Takes.stays (h : Takes c chunk o) (hc : c.isSeated = true) :
    (Outcome.cursor o).current = c.current ∧ (Outcome.cursor o).index = c.index ∧
      (Outcome.cursor o).position = c.position := by
  cases h with
  | behind _ => exact ⟨rfl, rfl, rfl⟩
  | nothing hends _ => simp [not_isExhausted_of_isSeated hc] at hends
  | onto hends _ _ => simp [not_isExhausted_of_isSeated hc] at hends

theorem Takes.seats {x : Char} {rest : List Char} (h : Takes c (x :: rest) o)
    (hc : c.current = none) :
    (Outcome.cursor o).current = some x ∧ (Outcome.cursor o).index = c.index + 1 := by
  cases h with
  | behind hseat => simp [isSeated, hc] at hseat
  | onto _ hx hi => exact ⟨hx, hi⟩

end

end Cursor

/-- A cursor that follows a tape stands right behind what it consumed. -/
theorem Follows.place {c : Cursor} {t : Tape} (h : Follows c t) (hc : c.Settled) :
    c.isExhausted = true ∧ c.index = t.text.length ∨
      ∃ passed x, t.text = passed ++ x :: c.unvisited ∧ c.current = some x ∧
        c.index = passed.length + 1 := by
  cases hx : c.current with
  | none =>
    have hdrop : t.text.drop t.index = [] := h.unvisited ▸ hc hx
    exact .inl ⟨hc.isExhausted hx,
      h.index.trans (Nat.le_antisymm t.index_le (List.drop_eq_nil_iff.mp hdrop))⟩
  | some x =>
    have hseat : t.isSeated = true := by rw [← h.isSeated, Cursor.isSeated, hx]; rfl
    obtain ⟨k, hk⟩ := Nat.exists_eq_add_of_lt (Tape.index_pos hseat)
    rw [Nat.zero_add] at hk
    have hget : t.text[k]? = some x := by
      have hcurrent := h.current
      rwa [Tape.current, if_pos hseat, hk, Nat.add_sub_cancel, hx, eq_comm] at hcurrent
    obtain ⟨hlt, hlast⟩ := List.getElem?_eq_some_iff.mp hget
    refine .inr ⟨t.text.take k, x, ?_, rfl, ?_⟩
    · rw [h.unvisited, hk, ← hlast, ← List.drop_eq_getElem_cons hlt, List.take_append_drop]
    · rw [h.index, hk, List.length_take_of_le (Nat.le_of_lt hlt)]

-- ---------------------------------------------------------------------------
-- Operations of a session
-- ---------------------------------------------------------------------------

namespace Session

/-- An operation on the session's cursor. -/
def apply (s : Session) : (op : Operation) → op.Answer × Session
  | .extend chunk => ((s.extend chunk).result, (s.extend chunk).session)
  | .ingest chunk => ((s.ingest chunk).result, (s.ingest chunk).session)
  | .advance => ((s.scan Cursor.advance).result, (s.scan Cursor.advance).session)
  | .advanceWhile judge state dst =>
    let (dst, run) := s.cursor.advanceWhile judge state dst
    ((dst, run.count, run.state), (s.moveTo run.cursor).session)
  | .skipWhile judge state =>
    let run := s.cursor.skipWhile judge state
    ((run.count, run.state), (s.moveTo run.cursor).session)
  | .matchAt k => ((s.scan k.matchAt).result, (s.scan k.matchAt).session)

/-- The session after a list of operations. -/
def after (s : Session) (ops : List Operation) : Session :=
  ops.foldl (fun s op => (s.apply op).2) s

theorem after_append (s : Session) (first second : List Operation) :
    s.after (first ++ second) = (s.after first).after second :=
  List.foldl_append

theorem scan_result {α : Type} (s : Session) (m : Scan α) :
    (s.scan m).result = Outcome.result (m s.cursor) := by
  unfold scan
  cases m s.cursor <;> rfl

theorem ingest_eq (s : Session) (chunk : List Char) :
    (s.ingest chunk).result = Outcome.result (Cursor.ingest chunk s.cursor) ∧
      (s.ingest chunk).session.cursor = Outcome.cursor (Cursor.ingest chunk s.cursor) := by
  refine ⟨scan_result _ Cursor.prime, ?_⟩
  show ((s.extend chunk).session.scan Cursor.prime).session.cursor = _
  rw [scan_session, Outcome.split_snd]
  rfl

theorem apply_cursor (s : Session) (op : Operation) :
    (s.apply op).2.cursor = (s.cursor.apply op).2 ∧ (s.apply op).2.options = s.options := by
  cases op with
  | extend chunk => exact ⟨rfl, rfl⟩
  | ingest chunk => exact s.perform_feed (.ingest chunk)
  | advance => exact s.perform_feed .advance
  | advanceWhile judge state dst => exact ⟨rfl, rfl⟩
  | skipWhile judge state => exact ⟨rfl, rfl⟩
  | matchAt k =>
    show (s.scan k.matchAt).session.cursor = _ ∧ (s.scan k.matchAt).session.options = _
    rw [scan_session]
    exact ⟨rfl, rfl⟩

theorem after_cursor (s : Session) (ops : List Operation) :
    (s.after ops).cursor = s.cursor.after ops ∧ (s.after ops).options = s.options := by
  induction ops generalizing s with
  | nil => exact ⟨rfl, rfl⟩
  | cons op rest ih =>
    obtain ⟨hcursor, hoptions⟩ := ih (s.apply op).2
    obtain ⟨hcursor', hoptions'⟩ := s.apply_cursor op
    rw [hcursor'] at hcursor
    exact ⟨hcursor, hoptions.trans hoptions'⟩

/-- A session's cursor follows a tape of what was delivered. -/
theorem after_follows (options : Options) (ops : List Operation) :
    ∃ t : Tape, Follows ((new options).after ops).cursor t ∧
      t.text = ops.flatMap Operation.chunk := by
  obtain ⟨htext, -⟩ := Tape.after_keeps { endsLine := options.endsLine } ops
  refine ⟨_, ?_, htext⟩
  rw [((new options).after_cursor ops).1]
  exact (follows_fresh options.endsLine).after ops

end Session

-- ---------------------------------------------------------------------------
-- Want of input
-- ---------------------------------------------------------------------------

theorem Transcript.entries_error {depth : Nat} {c d : Cursor} {e : ParseError}
    (h : (entries depth c).ended = .error e d) : e = .endOfFile ∨ e = d.unexpectedCharacter := by
  induction hn : c.pending using Nat.strongRecOn generalizing depth c with
  | ind n ih =>
    subst hn
    rw [entries_eq] at h
    split at h
    · split at h
      · cases h
      · obtain ⟨rfl, rfl⟩ := EStateM.Result.error.inj h
        exact .inl rfl
    · next x hx =>
      split at h
      · obtain ⟨rfl, rfl⟩ := EStateM.Result.error.inj h
        exact .inr rfl
      · exact ih _ (Cursor.pending_move_lt hx) h rfl

/-- Neither grammar finds its input empty. -/
theorem ended_ne_emptyInput {g : Grammar} (hg : g = Document.finish ∨ g = Transcript.finish)
    (c d : Cursor) : (g c).ended ≠ .error .emptyInput d := by
  intro h
  rcases hg with rfl | rfl
  · obtain ⟨w, -, hexplains⟩ := Document.finish_error h
    cases hexplains with
    | misplaced he _ _ => exact nomatch he
  · rcases Transcript.entries_error h with he | he
    · exact nomatch he
    · exact nomatch he

theorem Options.error?_judge {σ ω : Type} {o : Options} {a : Assembler σ ω} {held : σ}
    {t : Trail Event} {e : ParseError} (h : (o.judge a held t).error? = some e) :
    e = .unknown ∨ ∃ d, t.ended = .error e d := by
  unfold judge at h
  split at h
  · next e' d hend =>
    rw [error?_refuse, Option.some.injEq] at h
    exact .inr ⟨d, by rw [hend, h]⟩
  · split at h
    · exact nomatch h
    · rw [error?_refuse, Option.some.injEq] at h
      exact .inl h.symm

namespace Session

theorem emptyInput_iff (s : Session) {σ ω : Type} (a : Assembler σ ω) (held : σ) {g : Grammar}
    (hg : g = Document.finish ∨ g = Transcript.finish) :
    (s.finalize a held (some (.grammar g))).verdict.error? = some .emptyInput ↔
      s.cursor.ingested = 0 := by
  rw [verdict_finalize]
  split
  · next h => simp [Options.error?_refuse, h]
  · next h =>
    refine iff_of_false (fun herror => ?_) h
    rcases Options.error?_judge herror with he | ⟨d, hend⟩
    · exact nomatch he
    · exact ended_ne_emptyInput hg _ d hend

/-- A session that takes its text in by `ingest` alone stands on the first code
point that it did not consume, or has consumed all. A delivery fails exactly if
it brings nothing to a cursor that has nothing left, which is then still so. It
leaves a cursor on a code point in place, and otherwise moves it onto the first
code point delivered. The session ends for want of input exactly if all that it
was given was empty. -/
theorem ingest_strands_nothing (options : Options) (ops : List Operation)
    (hops : ∀ chunk, Operation.extend chunk ∉ ops) :
    let s := (new options).after ops
    let text := ops.flatMap Operation.chunk
    (s.cursor.current = none → s.cursor.unvisited = []) ∧
      (s.cursor.isExhausted = true ∧ s.cursor.index = text.length ∨
        ∃ passed x, text = passed ++ x :: s.cursor.unvisited ∧ s.cursor.current = some x ∧
          s.cursor.index = passed.length + 1) ∧
      (∀ chunk,
        let t := s.ingest chunk
        (t.result = .error .endOfFile ↔ s.cursor.isExhausted = true ∧ chunk = []) ∧
          (t.result = .error .endOfFile ↔ t.session.cursor.isExhausted = true) ∧
          (t.result = .error .endOfFile ∨ t.result = .ok ()) ∧
          (s.cursor.current.isSome = true →
            t.session.cursor.current = s.cursor.current ∧
              t.session.cursor.index = s.cursor.index ∧
              t.session.cursor.position = s.cursor.position) ∧
          ∀ x rest, s.cursor.current = none → chunk = x :: rest →
            t.session.cursor.current = some x ∧
              t.session.cursor.index = s.cursor.index + 1) ∧
      ∀ {σ ω : Type} (a : Assembler σ ω) (held : σ) (g : Grammar),
        g = Document.finish ∨ g = Transcript.finish →
        ((s.finalize a held (some (.grammar g))).verdict.error? = some .emptyInput ↔
          ∀ op ∈ ops, op.chunk = []) := by
  intro s text
  have hs : s.cursor.Settled := by
    rw [((new options).after_cursor ops).1]
    exact Cursor.Settled.after (fun _ => rfl) hops
  obtain ⟨t, hfollows, htext⟩ := after_follows options ops
  have hplace := hfollows.place hs
  rw [htext] at hplace
  refine ⟨hs, hplace, fun chunk => ?_, fun a held g hg => ?_⟩
  · obtain ⟨hresult, hcursor⟩ := s.ingest_eq chunk
    have htakes := hs.takes chunk
    simp only [hresult, hcursor]
    refine ⟨htakes.fails_iff_before, htakes.fails_iff_after, htakes.result, htakes.stays, ?_⟩
    rintro x rest hnone rfl
    exact htakes.seats hnone
  · rw [s.emptyInput_iff a held hg, hfollows.ingested, htext, List.length_eq_zero_iff,
      List.flatMap_eq_nil_iff]

/-- A cursor that ran off the end twice stands on the next code point that is delivered. -/
theorem ingest_strands_nothing_past_end :
    let ops : List Operation :=
      [.ingest ['[', '1'], .skipWhile (Cursor.stateless fun _ => true) (), .advance]
    let s := (new {}).after ops
    (∀ chunk, Operation.extend chunk ∉ ops) ∧ s.cursor.isExhausted = true ∧
      (s.ingest []).result = .error .endOfFile ∧
      (s.ingest [',', '2']).session.cursor.current = some ',' ∧
      (s.ingest [',', '2']).session.cursor.index = 3 := by
  intro ops s
  have hops : ∀ chunk, Operation.extend chunk ∉ ops := by simp [ops]
  have hends : s.cursor.isExhausted = true := by decide +kernel
  obtain ⟨-, -, hingest, -⟩ := ingest_strands_nothing {} ops hops
  obtain ⟨-, -, -, -, hseats⟩ := hingest [',', '2']
  obtain ⟨hcurrent, hindex⟩ := hseats ',' ['2'] (by decide +kernel) rfl
  have htwo : s.cursor.index = 2 := by decide +kernel
  exact ⟨hops, hends, (hingest []).1.mpr ⟨hends, rfl⟩, hcurrent, by rw [hindex, htwo]⟩

end Session

end TextStream
