import TextStream.Proofs.Cursor.Passage

/-!
# Scans that go step by step

A stepwise scan learns about the text only by looking at the current code point,
and changes the cursor only by moving it. Loops count, as long as every bound on
the code points ahead makes them finite. Two facts follow for all such scans at
once. What is ahead never grows. And a scan that stops while it is still within
a text ends in the same way on every text that goes on differently from there.
-/

namespace TextStream

variable {α β : Type}

/-- The cursor that a computation left, whether or not it failed. -/
def Outcome.cursor : Outcome α → Cursor
  | .ok _ c => c
  | .error _ c => c

namespace Scan

theorem bind_apply (m : Scan α) (f : α → Scan β) (c : Cursor) :
    (m >>= f) c =
      match m c with
      | .ok a d => f a d
      | .error e d => .error e d := by
  show EStateM.bind m f c = _
  unfold EStateM.bind
  cases m c <;> rfl

theorem map_apply (f : α → β) (m : Scan α) (c : Cursor) :
    (f <$> m) c =
      match m c with
      | .ok a d => .ok (f a) d
      | .error e d => .error e d := by
  show EStateM.map f m c = _
  unfold EStateM.map
  cases m c <;> rfl

theorem bind_eq_error_iff {m : Scan α} {f : α → Scan β} {c d : Cursor} {e : ParseError} :
    (m >>= f) c = .error e d ↔ m c = .error e d ∨ ∃ a g, m c = .ok a g ∧ f a g = .error e d := by
  rw [bind_apply]
  cases m c <;> simp

theorem map_eq_error_iff {m : Scan α} {f : α → β} {c d : Cursor} {e : ParseError} :
    (f <$> m) c = .error e d ↔ m c = .error e d := by
  rw [map_apply]
  cases m c <;> simp

end Scan

/-- The scan is made of looks at the current code point and moves. -/
inductive Stepwise : Scan α → Prop where
  | done (a : α) : Stepwise fun c => .ok a c
  | fail (e : Position → ParseError) : Stepwise fun c => .error (e c.position) c
  | look {m : Option Char → Scan α} : (∀ x, Stepwise (m x)) → Stepwise fun c => m c.current c
  | move {m : Scan α} : Stepwise m → Stepwise fun c => m c.move
  /-- On cursors with a bounded text ahead the scan is one of these. -/
  | bounded {m : Scan α} {f : Nat → Scan α} :
      (∀ n, Stepwise (f n)) → (∀ n c, c.pending ≤ n → m c = f n c) → Stepwise m

namespace Stepwise

variable {m : Scan α} {c : Cursor}

-- ---------------------------------------------------------------------------
-- Putting scans together
-- ---------------------------------------------------------------------------

theorem of_eq {m' : Scan α} (hm : Stepwise m) (h : ∀ c, m' c = m c) : Stepwise m' :=
  funext h ▸ hm

theorem bind {f : α → Scan β} (hm : Stepwise m) (hf : ∀ a, Stepwise (f a)) :
    Stepwise (m >>= f) := by
  induction hm with
  | done a => exact hf a
  | fail e => exact .fail e
  | @look m _ ih => exact .look (m := fun x => m x >>= f) ih
  | @move m _ ih => exact .move (m := m >>= f) ih
  | @bounded m g _ hg ih =>
    refine .bounded (f := fun n => g n >>= f) ih fun n c hc => ?_
    rw [Scan.bind_apply, Scan.bind_apply, hg n c hc]

/-- A scan that first does what a stepwise scan does, and then, depending on
the result, what another one does. -/
theorem andThen {m' : Scan β} (hm : Stepwise m)
    (hok : ∀ a, ∃ k, Stepwise k ∧ ∀ {c d}, m c = .ok a d → m' c = k d)
    (herror : ∀ {c e d}, m c = .error e d → m' c = .error e d) : Stepwise m' := by
  choose f hf hm' using hok
  have heq : m' = m >>= f := by
    funext c
    rw [Scan.bind_apply]
    cases h : m c with
    | ok a d => exact hm' a h
    | error e d => exact herror h
  exact heq ▸ hm.bind hf

theorem map (f : α → β) (hm : Stepwise m) : Stepwise (f <$> m) := by
  refine hm.andThen (fun a => ⟨_, .done (f a), fun h => ?_⟩) fun h => ?_
  · rw [Scan.map_apply, h]
  · rw [Scan.map_apply, h]

/-- One way at the end of the text and one for each code point. -/
theorem cases {atEnd : Scan α} {on : Char → Scan α} (hend : Stepwise atEnd)
    (hon : ∀ x, Stepwise (on x)) :
    Stepwise fun c =>
      match c.current with
      | none => atEnd c
      | some x => on x c := by
  refine .look (m := fun x c =>
    match x with
    | none => atEnd c
    | some x => on x c) fun x => ?_
  cases x with
  | none => exact hend
  | some x => exact hon x

theorem ite {p : Prop} [Decidable p] {m' : Scan α} (hm : Stepwise m) (hm' : Stepwise m') :
    Stepwise fun c => if p then m c else m' c := by
  by_cases hp : p
  · simpa only [hp, ↓reduceIte] using hm
  · simpa only [hp, ↓reduceIte] using hm'

section
variable {σ : Type}

/-- At most `n` rounds of a loop. A round ends it with a result or goes on with a state. -/
def rounds (body : σ → Scan (β ⊕ σ)) : Nat → σ → Scan β
  | 0, _ => fun c => .error .unknown c
  | n + 1, s => body s >>= Sum.elim pure (rounds body n)

theorem rounds_stepwise {body : σ → Scan (β ⊕ σ)} (h : ∀ s, Stepwise (body s)) (n : Nat) (s : σ) :
    Stepwise (rounds body n s) := by
  induction n generalizing s with
  | zero => exact .fail fun _ => .unknown
  | succ n ih =>
    refine (h s).bind fun r => ?_
    cases r with
    | inl b => exact .done b
    | inr s' => exact ih s'

/-- A loop whose rounds are stepwise and each go on with less than before. -/
theorem loop {m : σ → Scan β} (body : σ → Scan (β ⊕ σ)) (size : Cursor → Nat)
    (hsize : ∀ c, size c ≤ c.pending) (hbody : ∀ s, Stepwise (body s))
    (hm : ∀ s c, m s c = (body s >>= Sum.elim pure m) c)
    (hless : ∀ s c s' d, body s c = .ok (.inr s') d → size d < size c) (s : σ) :
    Stepwise (m s) := by
  -- there are never more rounds than there is left, so the bound is not felt
  have heq : ∀ n s c, size c < n → m s c = rounds body n s c := by
    intro n
    induction n with
    | zero => exact fun s c hc => absurd hc (Nat.not_lt_zero _)
    | succ n ih =>
      intro s c hc
      rw [hm, rounds, Scan.bind_apply, Scan.bind_apply]
      cases hr : body s c with
      | error e d => rfl
      | ok r d =>
        cases r with
        | inl b => rfl
        | inr s' => exact ih s' d (Nat.lt_of_lt_of_le (hless s c s' d hr) (Nat.le_of_lt_succ hc))
  exact .bounded (fun n => rounds_stepwise hbody (n + 1) s) fun n c hc =>
    heq (n + 1) s c (Nat.lt_succ_of_le (Nat.le_trans (hsize c) hc))

end

-- ---------------------------------------------------------------------------
-- Moves, runs and words
-- ---------------------------------------------------------------------------

theorem advance : Stepwise Cursor.advance := by
  refine (Stepwise.cases (.fail fun _ => .endOfFile) .done).move.of_eq fun c => ?_
  unfold Cursor.advance
  cases hx : c.move.current <;> simp [hx]

theorem prime : Stepwise Cursor.prime := by
  refine (Stepwise.cases (advance.map fun _ => ()) fun _ => .done ()).of_eq fun c => ?_
  unfold Cursor.prime
  cases c.current with
  | some x => rfl
  | none =>
    rw [Scan.map_apply]
    cases c.advance <;> rfl

section
variable {σ : Type}

/-- One round of a run: the current code point is accepted and copied, or ends it. -/
def runRound (judge : Judge σ) (t : σ × String) : Scan (String ⊕ σ × String) := fun c =>
  match c.current with
  | none => .ok (.inl t.2) c
  | some x =>
    match judge t.1 x with
    | (false, _) => .ok (.inl t.2) c
    | (true, s) => .ok (.inr (s, t.2.push x)) c.move

theorem run (judge : Judge σ) (s : σ) (dst : String) :
    Stepwise fun c =>
      .ok (c.advanceWhile judge s dst).1 (c.advanceWhile judge s dst).2.cursor := by
  refine loop (m := fun t c => .ok (c.advanceWhile judge t.1 t.2).1
    (c.advanceWhile judge t.1 t.2).2.cursor) (runRound judge) Cursor.pending
    (fun _ => Nat.le_refl _) (fun t => .cases (.done _) fun x => ?_) (fun t c => ?_)
    (fun t c t' d h => ?_) (s, dst)
  · rcases judge t.1 x with ⟨_ | _, s'⟩
    · exact .done _
    · exact .move (.done _)
  · rw [Scan.bind_apply]
    cases hx : c.current with
    | none => simp only [runRound, hx, Cursor.advanceWhile_of_none hx]; rfl
    | some x =>
      rcases hj : judge t.1 x with ⟨_ | _, s'⟩
      · simp only [runRound, hx, hj, Cursor.advanceWhile_of_reject hx hj]; rfl
      · simp only [runRound, hx, hj, Cursor.advanceWhile_of_accept hx hj]; rfl
  · cases hx : c.current with
    | none => simp [runRound, hx] at h
    | some x =>
      rcases hj : judge t.1 x with ⟨_ | _, s'⟩
      · simp [runRound, hx, hj] at h
      · simp only [runRound, hx, hj, EStateM.Result.ok.injEq, Sum.inr.injEq] at h
        exact h.2 ▸ Cursor.pending_move_lt hx

end

theorem copy (p : Char → Bool) : Stepwise fun c => .ok (c.copy p).1 (c.copy p).2 :=
  run _ _ _

theorem skipWhile {σ : Type} (judge : Judge σ) (s : σ) :
    Stepwise fun c => .ok () (c.skipWhile judge s).cursor := by
  have heq : ∀ c : Cursor,
      (c.skipWhile judge s).cursor = (c.advanceWhile judge s "").2.cursor := fun c => by
    rw [Cursor.advanceWhile_eq_skipWhile]
  simp only [heq]
  exact (run judge s "").map fun _ => ()

theorem skip (p : Char → Bool) : Stepwise fun c => .ok () (c.skip p) :=
  skipWhile _ _

theorem matchAt (k : Keyword) : Stepwise k.matchAt := by
  induction k with
  | nil => exact .done ()
  | cons k rest ih =>
    refine .cases (.fail fun _ => .endOfFile) fun x => ?_
    exact .ite ih.move (.fail .unexpectedKeyword)

-- ---------------------------------------------------------------------------
-- What is ahead
-- ---------------------------------------------------------------------------

/-- A scan never leaves more ahead than there was. -/
theorem pending_le (h : Stepwise m) (c : Cursor) :
    (Outcome.cursor (m c)).pending ≤ c.pending := by
  induction h generalizing c with
  | done a => exact Nat.le_refl _
  | fail e => exact Nat.le_refl _
  | look _ ih => exact ih _ c
  | move _ ih => exact Nat.le_trans (ih c.move) c.pending_move_le
  | bounded _ hf ih =>
    rw [hf c.pending c (Nat.le_refl _)]
    exact ih _ c

theorem pending_le_of_ok (h : Stepwise m) {a : α} {d : Cursor} (hm : m c = .ok a d) :
    d.pending ≤ c.pending := by
  have hle := h.pending_le c
  rwa [hm] at hle

/-- What every move keeps, a scan keeps. -/
theorem keeps {P : Cursor → Prop} (h : Stepwise m) (hmove : ∀ {c}, P c → P c.move) (hc : P c) :
    P (Outcome.cursor (m c)) := by
  induction h generalizing c with
  | done a => exact hc
  | fail e => exact hc
  | look _ ih => exact ih _ hc
  | move _ ih => exact ih (hmove hc)
  | bounded _ hf ih =>
    rw [hf c.pending c (Nat.le_refl _)]
    exact ih _ hc

/-- A scan takes nothing in. -/
theorem ingested_eq (h : Stepwise m) (c : Cursor) :
    (Outcome.cursor (m c)).ingested = c.ingested := by
  refine h.keeps (P := fun d => d.ingested = c.ingested) (fun {d} hd => ?_) rfl
  exact d.ingested_move.trans hd

end Stepwise

-- ---------------------------------------------------------------------------
-- A text that two cursors share
-- ---------------------------------------------------------------------------

section
variable (r r' : List Char)

/-- Both cursors stand at one place in a text that they share. Behind it comes
`r` for one and `r'` for the other. -/
structure Shares (c c' : Cursor) : Prop where
  ahead : ∃ w, w ≠ [] ∧ c.ahead = w ++ r ∧ c'.ahead = w ++ r'
  position : c.position = c'.position
  endsLine : c.endsLine = c'.endsLine

/-- The same result or error at one place in the shared text. -/
inductive Agrees : Outcome α → Outcome α → Prop where
  | ok (a : α) {c c' : Cursor} : Shares r r' c c' → Agrees (.ok a c) (.ok a c')
  | error (e : ParseError) {c c' : Cursor} : Shares r r' c c' → Agrees (.error e c) (.error e c')

end

namespace Shares

variable {r r' : List Char} {c c' : Cursor}

theorem current (h : Shares r r' c c') : c.current = c'.current := by
  obtain ⟨w, hw, hc, hc'⟩ := h.ahead
  obtain ⟨x, w, rfl⟩ := List.exists_cons_of_ne_nil hw
  rw [Cursor.current_of_ahead hc, Cursor.current_of_ahead hc']

/-- A move stays within the shared text or takes the first cursor past it. -/
theorem move (h : Shares r r' c c') :
    Shares r r' c.move c'.move ∨ c.move.pending ≤ r.length := by
  obtain ⟨w, hw, hc, hc'⟩ := h.ahead
  obtain ⟨x, w, rfl⟩ := List.exists_cons_of_ne_nil hw
  have hx : c.current = some x := Cursor.current_of_ahead hc
  have hx' : c'.current = some x := Cursor.current_of_ahead hc'
  rw [Cursor.ahead_of_some hx, List.cons_append, List.cons.injEq] at hc
  rw [Cursor.ahead_of_some hx', List.cons_append, List.cons.injEq] at hc'
  cases w with
  | nil =>
    refine .inr ?_
    rw [Cursor.pending_move, hc.2]
    exact Nat.le_refl _
  | cons y w =>
    rw [Cursor.move_of_cons hc.2, Cursor.move_of_cons hc'.2]
    refine .inl ⟨⟨y :: w, by simp, rfl, rfl⟩, ?_, h.endsLine⟩
    simp only [h.position, h.endsLine]

end Shares

/-- A scan that stops within the shared text does the same on both cursors. -/
theorem Stepwise.agrees {m : Scan α} {r r' : List Char} {c c' : Cursor} (hm : Stepwise m)
    (h : Shares r r' c c') (hwithin : r.length < (Outcome.cursor (m c)).pending) :
    Agrees r r' (m c) (m c') := by
  induction hm generalizing c c' with
  | done a => exact .ok a h
  | fail e =>
    show Agrees r r' (.error (e c.position) c) (.error (e c'.position) c')
    rw [← h.position]
    exact .error _ h
  | @look m _ ih =>
    show Agrees r r' (m c.current c) (m c'.current c')
    rw [← h.current]
    exact ih c.current h hwithin
  | move hm ih =>
    rcases h.move with h' | hpast
    · exact ih h' hwithin
    · exact absurd hwithin (Nat.not_lt_of_le (Nat.le_trans (hm.pending_le _) hpast))
  | @bounded m f _ hf ih =>
    -- a bound that is good for both cursors
    have hc := hf (max c.pending c'.pending) c (Nat.le_max_left _ _)
    have hc' := hf (max c.pending c'.pending) c' (Nat.le_max_right _ _)
    rw [hc] at hwithin
    rw [hc, hc']
    exact ih _ h hwithin

end TextStream
