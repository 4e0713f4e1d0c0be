import TextStream.Proofs.Session.Intake

/-!
# A run that goes on across deliveries

A run of accepted code points may be copied while its text is still arriving: a
chunk is taken in and the run goes on where it stopped. What was copied and what
is ahead after some chunks is read off the text that these make up, so it is the
same as if the whole text had been there from the start.
-/

namespace TextStream

-- ---------------------------------------------------------------------------
-- Text that is ahead
-- ---------------------------------------------------------------------------

namespace Cursor

variable {c : Cursor} {p : Char → Bool}

theorem Settled.unvisited_eq (h : c.Settled) : c.unvisited = c.ahead.tail := by
  cases hx : c.current with
  | none => rw [h hx, ahead_of_none hx, List.tail_nil]
  | some x => rw [ahead_of_some hx, List.tail_cons]

/-- With nothing left behind, a chunk lands right behind what is ahead. -/
theorem Settled.ahead_ingest (h : c.Settled) (chunk : List Char) :
    (c.apply (.ingest chunk)).2.ahead = c.ahead ++ chunk := by
  show (Outcome.split (prime (c.extend chunk))).2.ahead = _
  rw [Outcome.split_snd]
  cases hx : c.current with
  | some x =>
    have hx' : (c.extend chunk).current = some x := hx
    simp only [prime, hx', Outcome.cursor]
    rw [ahead_of_some hx', ahead_of_some hx]
    rfl
  | none =>
    have hmove : Outcome.cursor (prime (c.extend chunk)) = (c.extend chunk).move := by
      rcases prime_of_none (c := c.extend chunk) hx with hprime | hprime <;> rw [hprime] <;> rfl
    rw [hmove, ahead_move, ahead_of_none hx]
    show c.unvisited ++ chunk = [] ++ chunk
    rw [h hx]

/-- As many code points are copied as are counted. -/
theorem length_advanceWhile {σ : Type} (judge : Judge σ) (s : σ) (dst : String) (c : Cursor) :
    (c.advanceWhile judge s dst).1.length =
      dst.length + (c.advanceWhile judge s dst).2.count := by
  fun_induction advanceWhile judge s dst c with
  | case1 | case2 => rfl
  | case3 s dst c x hx s' hj dst' rest hr ih =>
    rw [hr, String.length_push] at ih
    rw [ih]
    exact Nat.add_right_comm _ _ _

theorem Stops.ahead (h : c.Stops p) :
    c.ahead.takeWhile p = [] ∧ c.ahead.dropWhile p = c.ahead := by
  cases hx : c.current with
  | none => simp [ahead_of_none hx]
  | some x => simp [ahead_of_some hx, h x hx]

/-- A run copies what is accepted and leaves the rest ahead. -/
theorem advanceWhile_eq (p : Char → Bool) (dst : String) (c : Cursor) :
    let run := c.advanceWhile (stateless p) () dst
    run.1 = dst ++ String.ofList (c.ahead.takeWhile p) ∧
      run.2.count = (c.ahead.takeWhile p).length ∧
      run.2.cursor.ahead = c.ahead.dropWhile p := by
  intro run
  obtain ⟨w, d, hpass, hw, hstops⟩ := exists_run p c
  obtain ⟨htake, hdrop⟩ := hstops.ahead
  obtain ⟨hdst, hcursor⟩ := advanceWhile_of_passes hpass hw hstops dst
  have hlength := c.length_advanceWhile (stateless p) () dst
  rw [hdst, String.length_append, String.length_ofList, Nat.add_left_cancel_iff] at hlength
  rw [hpass.ahead_eq, List.takeWhile_append_of_pos hw, List.dropWhile_append_of_pos hw, htake,
    hdrop, List.append_nil]
  exact ⟨hdst, hlength.symm, congrArg Cursor.ahead hcursor⟩

/-- Where nothing was left behind, the text and what is ahead of it decide the cursor. -/
theorem alike_of_ahead (endsLine : Char → Bool) {first second : List Operation}
    (hfirst : ∀ chunk, Operation.extend chunk ∉ first)
    (hsecond : ∀ chunk, Operation.extend chunk ∉ second)
    (ht : first.flatMap Operation.chunk = second.flatMap Operation.chunk)
    (ha : (Cursor.after { endsLine := endsLine } first).ahead =
      (Cursor.after { endsLine := endsLine } second).ahead) :
    (Cursor.after { endsLine := endsLine } first).Alike
      (Cursor.after { endsLine := endsLine } second) := by
  have hplace : ∀ {ops : List Operation}, (∀ chunk, Operation.extend chunk ∉ ops) →
      (Cursor.after { endsLine := endsLine } ops).index +
        (Cursor.after { endsLine := endsLine } ops).ahead.tail.length =
          (ops.flatMap Operation.chunk).length := by
    intro ops hops
    have hsettled : (Cursor.after { endsLine := endsLine } ops).Settled :=
      Settled.after (fun _ => rfl) hops
    have hfollows := (follows_fresh endsLine).after ops
    obtain ⟨htext, -⟩ := Tape.after_keeps { endsLine := endsLine } ops
    rw [← hsettled.unvisited_eq, ((Coherent.fresh endsLine).after ops).count,
      hfollows.ingested, htext, List.nil_append]
  refine alike_after endsLine ht ?_ ?_
  · have hindex := (hplace hfirst).trans (ht ▸ (hplace hsecond).symm)
    rwa [ha, Nat.add_right_cancel_iff] at hindex
  · rw [isSeated, isSeated, current_eq_head?, current_eq_head?, ha]

end Cursor

-- ---------------------------------------------------------------------------
-- Copying while the text arrives
-- ---------------------------------------------------------------------------

/-- What was copied so far, how many code points that took and the session to go
on with. -/
structure Copying where
  dst : String
  count : Nat := 0
  session : Session

namespace Copying

variable {p : Char → Bool} {options : Options} {dst : String} {text : List Char} {r u : Copying}

/-- Takes in a chunk, whatever comes of that, and copies on while `p` accepts. -/
def take (p : Char → Bool) (r : Copying) (chunk : List Char) : Copying :=
  let s := (r.session.ingest chunk).session
  let ((dst, count, _), s) := s.apply (.advanceWhile (Cursor.stateless p) () r.dst)
  { dst := dst, count := r.count + count, session := s }

/-- Copying has come as far as the text delivered lets it. -/
structure Stands (p : Char → Bool) (options : Options) (dst : String) (text : List Char)
    (r : Copying) : Prop where
  copied : r.dst = dst ++ String.ofList (text.takeWhile p)
  count : r.count = (text.takeWhile p).length
  ahead : r.session.cursor.ahead = text.dropWhile p
  /-- The session got there by deliveries and runs. -/
  reached : ∃ ops : List Operation, (∀ chunk, Operation.extend chunk ∉ ops) ∧
    ops.flatMap Operation.chunk = text ∧ r.session = (Session.new options).after ops

theorem takeWhile_resume (p : Char → Bool) (xs ys : List Char) :
    (xs ++ ys).takeWhile p = xs.takeWhile p ++ (xs.dropWhile p ++ ys).takeWhile p := by
  induction xs with
  | nil => rfl
  | cons x xs ih => cases hx : p x <;> simp [hx, ih]

theorem dropWhile_resume (p : Char → Bool) (xs ys : List Char) :
    (xs ++ ys).dropWhile p = (xs.dropWhile p ++ ys).dropWhile p := by
  induction xs with
  | nil => rfl
  | cons x xs ih => cases hx : p x <;> simp [hx, ih]

theorem stands_fresh (p : Char → Bool) (options : Options) (dst : String) :
    Stands p options dst [] { dst := dst, session := .new options } where
  copied := by simp
  count := rfl
  ahead := rfl
  reached := ⟨[], by simp, rfl, rfl⟩

theorem Stands.settled (h : r.Stands p options dst text) : r.session.cursor.Settled := by
  obtain ⟨ops, hops, -, hsession⟩ := h.reached
  rw [hsession, ((Session.new options).after_cursor ops).1]
  exact Cursor.Settled.after (fun _ => rfl) hops

/-- A chunk moves the copying on as the longer text asks for: over the chunk if the
run had come to the end, and not at all if it was stopped before. -/
theorem Stands.take (h : r.Stands p options dst text) (chunk : List Char) :
    (r.take p chunk).Stands p options dst (text ++ chunk) := by
  have hcursor : (r.session.ingest chunk).session.cursor =
      (r.session.cursor.apply (.ingest chunk)).2 := (r.session.apply_cursor (.ingest chunk)).1
  have hahead : (r.session.ingest chunk).session.cursor.ahead = text.dropWhile p ++ chunk := by
    rw [hcursor, h.settled.ahead_ingest, h.ahead]
  obtain ⟨hdst, hcount, hrest⟩ :=
    Cursor.advanceWhile_eq p r.dst (r.session.ingest chunk).session.cursor
  rw [hahead] at hdst hcount hrest
  refine ⟨?_, ?_, ?_, ?_⟩
  · rw [takeWhile_resume, String.ofList_append, ← String.append_assoc, ← h.copied]
    exact hdst
  · rw [takeWhile_resume, List.length_append, ← h.count, ← hcount]
    rfl
  · rw [dropWhile_resume, ← hrest]
    rfl
  · obtain ⟨ops, hops, htext, hsession⟩ := h.reached
    refine ⟨ops ++ [.ingest chunk, .advanceWhile (Cursor.stateless p) () r.dst], ?_, ?_, ?_⟩
    · simpa using hops
    · simp [htext, Operation.chunk]
    · rw [(Session.new options).after_append, ← hsession]
      rfl

theorem Stands.takes (h : r.Stands p options dst text) (chunks : List (List Char)) :
    (chunks.foldl (Copying.take p) r).Stands p options dst (text ++ chunks.flatten) := by
  induction chunks generalizing r text with
  | nil => simpa using h
  | cons chunk rest ih => simpa using ih (h.take chunk)

/-- The text delivered decides where copying stands. -/
theorem Stands.alike (h : r.Stands p options dst text) (h' : u.Stands p options dst text) :
    r.session.cursor.Alike u.session.cursor := by
  obtain ⟨ops, hops, htext, hsession⟩ := h.reached
  obtain ⟨ops', hops', htext', hsession'⟩ := h'.reached
  have hahead := h.ahead.trans h'.ahead.symm
  rw [hsession, hsession', ((Session.new options).after_cursor ops).1,
    ((Session.new options).after_cursor ops').1] at hahead ⊢
  exact Cursor.alike_of_ahead options.endsLine hops hops' (htext.trans htext'.symm) hahead

/-- A run that is copied chunk by chunk, empty ones among them, copies, counts and
ends as it does on the whole text. -/
theorem resumes_across_chunks (p : Char → Bool) (options : Options) (dst : String)
    (chunks : List (List Char)) :
    let fresh : Copying := { dst := dst, session := .new options }
    let pieces := chunks.foldl (take p) fresh
    let whole := fresh.take p chunks.flatten
    pieces.dst = whole.dst ∧ pieces.count = whole.count ∧
      pieces.session.cursor.current = whole.session.cursor.current ∧
      pieces.session.cursor.peek = whole.session.cursor.peek ∧
      pieces.session.cursor.position = whole.session.cursor.position ∧
      pieces.session.cursor.index = whole.session.cursor.index ∧
      pieces.session.cursor.ingested = whole.session.cursor.ingested ∧
      pieces.session.cursor.isExhausted = whole.session.cursor.isExhausted := by
  intro fresh pieces whole
  have hpieces : pieces.Stands p options dst chunks.flatten :=
    (stands_fresh p options dst).takes chunks
  have hwhole : whole.Stands p options dst chunks.flatten :=
    (stands_fresh p options dst).take chunks.flatten
  have halike := hpieces.alike hwhole
  refine ⟨?_, ?_, halike.current, ?_, halike.position, halike.index, halike.ingested, ?_⟩
  · rw [hpieces.copied, hwhole.copied]
  · rw [hpieces.count, hwhole.count]
  · rw [Cursor.peek, Cursor.peek, halike.unvisited]
  · rw [Cursor.isExhausted, Cursor.isExhausted, halike.current, halike.unvisited]

-- The first chunk is used up, the third goes on with the run and ends it, the last only waits.
example :
    let r := [['1', '2'], [], ['3', '\n'], ['4']].foldl (take Char.isDigit)
      { dst := "n=", session := .new {} }
    (r.dst, r.count, r.session.cursor.current, r.session.cursor.peek) =
      ("n=123", 3, some '\n', some '4') := by
  decide +kernel

end Copying

end TextStream
