import Mathlib
import TextStream.Cursor.Keyword
import TextStream.Cursor.Scan

/-!
# Passing over text

What lies ahead of a cursor is its current code point and everything after it;
with nothing current, nothing is ahead. `Passes c w d` says that moving over
`w` from `c` leads to `d`. Runs of code points and fixed words are described by
the text they pass over, and later modules describe every part of a grammar in
the same way.
-/

namespace TextStream

namespace Cursor

theorem move_of_nil {c : Cursor} (h : c.unvisited = []) : c.move = { c with current := none } := by
  unfold move
  rw [show c.buffer.unvisited = [] from h]

theorem move_of_cons {c : Cursor} {x : Char} {rest : List Char} (h : c.unvisited = x :: rest) :
    c.move =
      { c with
        buffer := ⟨x :: c.buffer.visited, rest⟩
        current := some x
        index := c.index + 1
        position := c.position.next (c.endsLine x) } := by
  unfold move
  rw [show c.buffer.unvisited = x :: rest from h]

theorem ingested_move (c : Cursor) : c.move.ingested = c.ingested := by
  unfold move
  split <;> rfl

/-- The code points a scan can see from here on. -/
def ahead (c : Cursor) : List Char :=
  match c.current with
  | none => []
  | some x => x :: c.unvisited

theorem ahead_of_none {c : Cursor} (h : c.current = none) : c.ahead = [] := by
  simp [ahead, h]

theorem ahead_of_some {c : Cursor} {x : Char} (h : c.current = some x) :
    c.ahead = x :: c.unvisited := by
  simp [ahead, h]

theorem current_eq_head? (c : Cursor) : c.current = c.ahead.head? := by
  unfold ahead
  cases c.current <;> rfl

theorem current_of_ahead {c : Cursor} {x : Char} {w : List Char} (h : c.ahead = x :: w) :
    c.current = some x := by
  rw [current_eq_head?, h, List.head?_cons]

/-- After a move everything unvisited before it is ahead. -/
theorem ahead_move (c : Cursor) : c.move.ahead = c.unvisited := by
  unfold ahead
  rw [current_move, unvisited_move]
  cases c.unvisited <;> rfl

theorem advance_eq_ok_iff {c d : Cursor} {x : Char} :
    advance c = .ok x d ↔ d = c.move ∧ c.move.current = some x := by
  constructor
  · intro h
    obtain ⟨rfl, hx⟩ := advance_eq_ok h
    exact ⟨rfl, hx⟩
  · rintro ⟨rfl, hx⟩
    simp [advance, hx]

theorem advance_eq_error_iff {c d : Cursor} {e : ParseError} :
    advance c = .error e d ↔ d = c.move ∧ d.current = none ∧ e = .endOfFile := by
  unfold advance
  cases hx : c.move.current with
  | some x =>
    simp only [hx, reduceCtorEq, false_iff]
    rintro ⟨rfl, hnone, -⟩
    simp [hx] at hnone
  | none =>
    simp only [hx, EStateM.Result.error.injEq]
    constructor
    · rintro ⟨rfl, rfl⟩
      exact ⟨rfl, hx, rfl⟩
    · rintro ⟨rfl, -, rfl⟩
      exact ⟨rfl, rfl⟩

theorem advance_of_isSeated {c : Cursor} (h : c.move.isSeated = true) :
    ∃ x, advance c = .ok x c.move := by
  obtain ⟨x, hx⟩ := Option.isSome_iff_exists.mp h
  exact ⟨x, advance_eq_ok_iff.mpr ⟨rfl, hx⟩⟩

theorem prime_of_none {c : Cursor} (h : c.current = none) :
    prime c = .ok () c.move ∨ prime c = .error .endOfFile c.move := by
  unfold prime advance
  rw [h]
  cases hm : c.move.current with
  | none => exact .inr (by simp [hm])
  | some x => exact .inl (by simp [hm])

-- ---------------------------------------------------------------------------
-- The loops, one code point at a time
-- ---------------------------------------------------------------------------

section
variable {σ : Type} {judge : Judge σ} {s s' : σ} {dst : String} {c : Cursor} {x : Char}

theorem skipWhile_of_none (h : c.current = none) : c.skipWhile judge s = ⟨0, s, c⟩ := by
  rw [skipWhile]
  split <;> simp_all

theorem skipWhile_of_reject (h : c.current = some x) (hj : judge s x = (false, s')) :
    c.skipWhile judge s = ⟨0, s', c⟩ := by
  rw [skipWhile]
  split <;> simp_all

theorem skipWhile_of_accept (h : c.current = some x) (hj : judge s x = (true, s')) :
    c.skipWhile judge s =
      { c.move.skipWhile judge s' with count := (c.move.skipWhile judge s').count + 1 } := by
  rw [skipWhile]
  split <;> simp_all

theorem advanceWhile_of_none (h : c.current = none) :
    c.advanceWhile judge s dst = (dst, ⟨0, s, c⟩) := by
  rw [advanceWhile]
  split <;> simp_all

theorem advanceWhile_of_reject (h : c.current = some x) (hj : judge s x = (false, s')) :
    c.advanceWhile judge s dst = (dst, ⟨0, s', c⟩) := by
  rw [advanceWhile]
  split <;> simp_all

theorem advanceWhile_of_accept (h : c.current = some x) (hj : judge s x = (true, s')) :
    c.advanceWhile judge s dst =
      ((c.move.advanceWhile judge s' (dst.push x)).1,
        { (c.move.advanceWhile judge s' (dst.push x)).2 with
          count := (c.move.advanceWhile judge s' (dst.push x)).2.count + 1 }) := by
  rw [advanceWhile]
  split <;> simp_all

/-- Both loops stop at the same place. -/
theorem advanceWhile_eq_skipWhile (judge : Judge σ) (s : σ) (dst : String) (c : Cursor) :
    (c.advanceWhile judge s dst).2 = c.skipWhile judge s := by
  fun_induction advanceWhile judge s dst c with
  | case1 s dst c hx => rw [skipWhile_of_none hx]
  | case2 s dst c x hx s' hj => rw [skipWhile_of_reject hx hj]
  | case3 s dst c x hx s' hj dst' rest hr ih =>
    rw [skipWhile_of_accept hx hj, ← ih, hr]

end

end Cursor

-- ---------------------------------------------------------------------------
-- Scans in sequence
-- ---------------------------------------------------------------------------

namespace Scan

variable {α β : Type} {m : Scan α} {c d : Cursor}

theorem pure_eq_ok_iff {a b : α} : (pure a : Scan α) c = .ok b d ↔ a = b ∧ c = d := by
  show EStateM.Result.ok a c = .ok b d ↔ _
  simp

theorem bind_eq_ok_iff {f : α → Scan β} {b : β} :
    (m >>= f) c = .ok b d ↔ ∃ a e, m c = .ok a e ∧ f a e = .ok b d := by
  show EStateM.bind m f c = .ok b d ↔ _
  unfold EStateM.bind
  cases m c with
  | error e f => simp
  | ok a f =>
    constructor
    · exact fun h => ⟨a, f, rfl, h⟩
    · rintro ⟨_, _, ⟨rfl, rfl⟩, h⟩
      exact h

theorem map_eq_ok_iff {f : α → β} {b : β} :
    (f <$> m) c = .ok b d ↔ ∃ a, m c = .ok a d ∧ f a = b := by
  show EStateM.map f m c = .ok b d ↔ _
  unfold EStateM.map
  cases m c with
  | error e f => simp
  | ok a f =>
    simp only [EStateM.Result.ok.injEq]
    constructor
    · rintro ⟨h, rfl⟩
      exact ⟨a, ⟨rfl, rfl⟩, h⟩
    · rintro ⟨_, ⟨rfl, rfl⟩, h⟩
      exact ⟨h, rfl⟩

end Scan

-- ---------------------------------------------------------------------------
-- Passing over a text
-- ---------------------------------------------------------------------------

/-- Moving over `w` code point by code point leads from the first cursor to the second. -/
inductive Passes : Cursor → List Char → Cursor → Prop where
  | nil (c : Cursor) : Passes c [] c
  | cons {c d : Cursor} {x : Char} {w : List Char} :
      c.current = some x → Passes c.move w d → Passes c (x :: w) d

namespace Passes

variable {c d e : Cursor} {x : Char} {w v r : List Char}

theorem one (h : c.current = some x) : Passes c [x] c.move :=
  .cons h (.nil _)

theorem append (h : Passes c w d) (h' : Passes d v e) : Passes c (w ++ v) e := by
  induction h with
  | nil => exact h'
  | cons hx _ ih => exact .cons hx (ih h')

theorem snoc (h : Passes c w d) (hx : d.current = some x) : Passes c (w ++ [x]) d.move :=
  h.append (.one hx)

theorem split (h : Passes c (w ++ v) e) : ∃ d, Passes c w d ∧ Passes d v e := by
  induction w generalizing c with
  | nil => exact ⟨c, .nil c, h⟩
  | cons x w ih =>
    cases h with
    | cons hx h =>
      obtain ⟨d, hd, he⟩ := ih h
      exact ⟨d, .cons hx hd, he⟩

theorem unsnoc (h : Passes c (w ++ [x]) e) :
    ∃ d, Passes c w d ∧ d.current = some x ∧ e = d.move := by
  obtain ⟨d, hw, hlast⟩ := h.split
  cases hlast with
  | cons hx hlast =>
    cases hlast
    exact ⟨d, hw, hx, rfl⟩

theorem current_of_cons (h : Passes c (x :: w) d) : c.current = some x := by
  cases h with
  | cons hx _ => exact hx

theorem move_of_cons (h : Passes c (x :: w) d) : Passes c.move w d := by
  cases h with
  | cons _ h => exact h

/-- What was passed over was ahead, and what is ahead afterwards came behind it. -/
theorem ahead_eq (h : Passes c w d) : c.ahead = w ++ d.ahead := by
  induction h with
  | nil => rfl
  | cons hx _ ih => rw [Cursor.ahead_of_some hx, ← Cursor.ahead_move, ih]; rfl

/-- Whatever is ahead can be passed over. -/
theorem of_ahead (h : c.ahead = w ++ r) : ∃ d, Passes c w d ∧ d.ahead = r := by
  induction w generalizing c with
  | nil => exact ⟨c, .nil c, h⟩
  | cons x w ih =>
    have hx : c.current = some x := Cursor.current_of_ahead h
    rw [Cursor.ahead_of_some hx, ← Cursor.ahead_move, List.cons_append, List.cons.injEq] at h
    obtain ⟨d, hd, hr⟩ := ih h.2
    exact ⟨d, .cons hx hd, hr⟩

theorem current_eq (h : Passes c w d) : c.current = w.head?.or d.current := by
  cases h with
  | nil => rfl
  | cons hx _ => rw [hx]; rfl

theorem isSeated (h : Passes c w d) (hw : w ≠ []) : c.isSeated = true := by
  cases h with
  | nil => exact absurd rfl hw
  | cons hx _ => simp [Cursor.isSeated, hx]

theorem isSeated_of_isSeated (h : Passes c w d) (hd : d.isSeated = true) : c.isSeated = true := by
  cases h with
  | nil => exact hd
  | cons hx _ => simp [Cursor.isSeated, hx]

theorem pending_eq (h : Passes c w d) : d.pending + w.length = c.pending := by
  induction h with
  | nil => rfl
  | cons hx _ ih =>
    rw [Cursor.pending_move] at ih
    simp only [Cursor.pending, Cursor.isSeated, hx, Option.isSome_some, ↓reduceIte,
      List.length_cons] at ih ⊢
    omega

end Passes

-- ---------------------------------------------------------------------------
-- Visiting a text
-- ---------------------------------------------------------------------------

/-- As many successful moves as `w` has code points lead from the first cursor
to the second, which ends on the last of them. -/
inductive Visits : Cursor → List Char → Cursor → Prop where
  | nil (c : Cursor) : Visits c [] c
  | cons {c d : Cursor} {x : Char} {w : List Char} :
      c.move.current = some x → Visits c.move w d → Visits c (x :: w) d

namespace Visits

variable {c d e : Cursor} {w v : List Char}

theorem append (h : Visits c w d) (h' : Visits d v e) : Visits c (w ++ v) e := by
  induction h with
  | nil => exact h'
  | cons hx _ ih => exact .cons hx (ih h')

theorem split (h : Visits c (w ++ v) e) : ∃ d, Visits c w d ∧ Visits d v e := by
  induction w generalizing c with
  | nil => exact ⟨c, .nil c, h⟩
  | cons x w ih =>
    cases h with
    | cons hx h =>
      obtain ⟨d, hd, he⟩ := ih h
      exact ⟨d, .cons hx hd, he⟩

/-- To visit a text is to pass over it from one move on and stop one move short. -/
theorem passes (h : Visits c w d) : Passes c.move w d.move := by
  induction h with
  | nil c => exact .nil c.move
  | cons hx _ ih => exact .cons hx ih

theorem of_passes (h : Passes c.move w e) : ∃ d, Visits c w d ∧ d.move = e := by
  induction w generalizing c with
  | nil =>
    cases h
    exact ⟨c, .nil c, rfl⟩
  | cons x w ih =>
    cases h with
    | cons hx h =>
      obtain ⟨d, hd, he⟩ := ih h
      exact ⟨d, .cons hx hd, he⟩

theorem of_unvisited (h : c.unvisited = w ++ v) : ∃ d, Visits c w d := by
  rw [← Cursor.ahead_move] at h
  obtain ⟨e, hpass, -⟩ := Passes.of_ahead h
  obtain ⟨d, hd, -⟩ := of_passes hpass
  exact ⟨d, hd⟩

/-- A visit that is not empty ends on the last code point of its text. -/
theorem last (h : Visits c w d) (hw : w ≠ []) :
    ∃ v x, w = v ++ [x] ∧ Passes c.move v d ∧ d.current = some x := by
  induction h with
  | nil => exact absurd rfl hw
  | @cons c d x w hx h ih =>
    cases h with
    | nil => exact ⟨[], x, rfl, .nil _, hx⟩
    | @cons _ _ y w hy h =>
      obtain ⟨v, z, hw, hpass, hz⟩ := ih (by simp)
      exact ⟨x :: v, z, by rw [hw]; rfl, .cons hx hpass, hz⟩

theorem position (h : Visits c w d) : d.position = c.position.after c.endsLine w := by
  induction h with
  | nil => rfl
  | @cons c d x w hx _ ih =>
    rw [Cursor.current_move] at hx
    obtain ⟨rest, hrest⟩ := List.head?_eq_some_iff.mp hx
    rw [ih, Cursor.move_of_cons hrest]
    rfl

/-- Every code point visited counts. -/
theorem index (h : Visits c w d) : d.index = c.index + w.length := by
  induction h with
  | nil => rfl
  | @cons c d x w hx _ ih =>
    rw [Cursor.current_move] at hx
    obtain ⟨rest, hrest⟩ := List.head?_eq_some_iff.mp hx
    rw [ih, Cursor.move_of_cons hrest, List.length_cons]
    exact Nat.add_right_comm _ _ _

end Visits

namespace Passes

variable {c d : Cursor} {w : List Char}

/-- To pass over a text and end on a code point is to visit as many of those behind
the first. -/
theorem visits (h : Passes c w d) (hd : d.isSeated = true) :
    Visits c (c.unvisited.take w.length) d := by
  induction h with
  | nil c => exact .nil c
  | @cons c d x w hx h ih =>
    obtain ⟨y, hy⟩ := Option.isSome_iff_exists.mp (h.isSeated_of_isSeated hd)
    have hunvisited : c.unvisited = y :: c.move.unvisited := by
      rw [← Cursor.ahead_move, Cursor.ahead_of_some hy]
    rw [hunvisited, List.length_cons, List.take_succ_cons]
    exact .cons hy (ih hd)

theorem index (h : Passes c w d) (hd : d.isSeated = true) : d.index = c.index + w.length := by
  have hpending := h.pending_eq
  simp only [Cursor.pending, hd, h.isSeated_of_isSeated hd, ↓reduceIte] at hpending
  have hlength : w.length ≤ c.unvisited.length := by omega
  rw [(h.visits hd).index, List.length_take_of_le hlength]

/-- To pass over a text and end on nothing is to visit everything that was left,
with the last move in vain. -/
theorem ends (h : Passes c w d) (hw : w ≠ []) (hd : d.current = none) :
    d.isExhausted = true ∧ d.index + 1 = c.index + w.length := by
  obtain ⟨v, x, rfl⟩ := (List.eq_nil_or_concat' w).resolve_left hw
  obtain ⟨e, hv, hx, rfl⟩ := h.unsnoc
  have hseat : e.isSeated = true := by simp [Cursor.isSeated, hx]
  have hnil : e.unvisited = [] := by simpa [Cursor.current_move] using hd
  have hindex : e.move.index = e.index := by rw [Cursor.move_of_nil hnil]
  refine ⟨by simp [Cursor.isExhausted, hd, Cursor.unvisited_move, hnil], ?_⟩
  rw [hindex, hv.index hseat, List.length_append]
  rfl

end Passes

-- ---------------------------------------------------------------------------
-- Stopping within a text and at its end
-- ---------------------------------------------------------------------------

namespace Passes

variable {c d : Cursor} {w : List Char} {n : Nat}

theorem ahead_eq_drop (h : Passes c w d) (hn : w.length = n) : d.ahead = c.ahead.drop n := by
  simp [h.ahead_eq, ← hn]

/-- Short of the end the cursor stands on the next code point. -/
theorem lands (h : Passes c w d) (hn : w.length = n) (hlt : n < c.ahead.length) :
    d.current = some c.ahead[n] ∧ d.unvisited = c.ahead.drop (n + 1) ∧
      d.index = c.index + n ∧ d.position = c.position.after c.endsLine (c.unvisited.take n) := by
  have hd := h.ahead_eq_drop hn
  rw [List.drop_eq_getElem_cons hlt] at hd
  have hx := Cursor.current_of_ahead hd
  have hseat : d.isSeated = true := by simp [Cursor.isSeated, hx]
  rw [Cursor.ahead_of_some hx] at hd
  refine ⟨hx, List.tail_eq_of_cons_eq hd, ?_, ?_⟩
  · rw [h.index hseat, hn]
  · rw [(h.visits hseat).position, hn]

/-- Once it passed over all that was ahead it stands on nothing. -/
theorem leaves (h : Passes c w d) (hn : w.length = n) (hall : n = c.ahead.length) :
    d.current = none := by
  simp [Cursor.current_eq_head?, h.ahead_eq_drop hn, hall]

theorem exhausts (h : Passes c w d) (hn : w.length = n) (hpos : 0 < n)
    (hall : n = c.ahead.length) :
    d.isExhausted = true ∧ d.index = c.index + (n - 1) := by
  have hw : w ≠ [] := List.ne_nil_of_length_pos (hn ▸ hpos)
  obtain ⟨hends, hindex⟩ := h.ends hw (h.leaves hn hall)
  exact ⟨hends, by omega⟩

/-- As many moves as there are code points in a part of what is ahead pass over it. -/
theorem iterate (h : n ≤ c.ahead.length) :
    Passes c (c.ahead.take n) (Cursor.move^[n] c) := by
  induction n generalizing c with
  | zero => exact .nil c
  | succ n ih =>
    cases hx : c.current with
    | none => simp [Cursor.ahead_of_none hx] at h
    | some x =>
      rw [Cursor.ahead_of_some hx, ← Cursor.ahead_move] at h ⊢
      exact .cons hx (ih (by simpa using h))

end Passes

-- ---------------------------------------------------------------------------
-- Runs and words
-- ---------------------------------------------------------------------------

namespace Cursor

variable {c d : Cursor} {p : Char → Bool} {w : List Char}

/-- Nothing is current, or a code point that the predicate refuses. -/
def Stops (p : Char → Bool) (c : Cursor) : Prop :=
  ∀ x, c.current = some x → p x = false

theorem stops_of_current {x : Char} (hx : c.current = some x) (hp : p x = false) : c.Stops p := by
  intro y hy
  obtain rfl := Option.some.inj (hx.symm.trans hy)
  exact hp

theorem stops_iff : c.Stops p ↔ c.current.any p = false := by
  unfold Stops
  cases c.current <;> simp

theorem advanceWhile_of_passes (h : Passes c w d) (hw : ∀ x ∈ w, p x = true) (hd : d.Stops p)
    (dst : String) :
    (c.advanceWhile (stateless p) () dst).1 = dst ++ String.ofList w ∧
      (c.advanceWhile (stateless p) () dst).2.cursor = d := by
  induction h generalizing dst with
  | nil c =>
    cases hx : c.current with
    | none => simp [advanceWhile_of_none hx]
    | some x =>
      have hj : stateless p () x = (false, ()) := by simp [stateless, hd x hx]
      simp [advanceWhile_of_reject hx hj]
  | @cons c d x w hx _ ih =>
    have hj : stateless p () x = (true, ()) := by simp [stateless, hw x (by simp)]
    obtain ⟨hs, hc⟩ := ih (fun y hy => hw y (by simp [hy])) hd (dst.push x)
    rw [advanceWhile_of_accept hx hj]
    refine ⟨?_, hc⟩
    rw [hs, ← String.toList_inj]
    simp

theorem copy_of_passes (h : Passes c w d) (hw : ∀ x ∈ w, p x = true) (hd : d.Stops p) :
    c.copy p = (String.ofList w, d) := by
  obtain ⟨hs, hc⟩ := advanceWhile_of_passes h hw hd ""
  unfold copy
  rw [Prod.mk.injEq]
  exact ⟨by simpa using hs, hc⟩

theorem skip_of_passes (h : Passes c w d) (hw : ∀ x ∈ w, p x = true) (hd : d.Stops p) :
    c.skip p = d := by
  rw [skip, ← advanceWhile_eq_skipWhile _ _ ""]
  exact (advanceWhile_of_passes h hw hd "").2

/-- A run ends somewhere: the longest accepted text ahead can always be passed over. -/
theorem exists_run (p : Char → Bool) (c : Cursor) :
    ∃ w d, Passes c w d ∧ (∀ x ∈ w, p x = true) ∧ d.Stops p := by
  have hsplit : c.ahead = c.ahead.takeWhile p ++ c.ahead.dropWhile p :=
    List.takeWhile_append_dropWhile.symm
  obtain ⟨d, hd, hr⟩ := Passes.of_ahead hsplit
  refine ⟨_, d, hd, List.all_eq_true.mp List.all_takeWhile, ?_⟩
  intro x hx
  have hnot := List.head?_dropWhile_not p c.ahead
  rw [← hr, ← current_eq_head?, hx] at hnot
  simpa using hnot

theorem copy_eq_iff {s : String} :
    c.copy p = (s, d) ↔ Passes c s.toList d ∧ (∀ x ∈ s.toList, p x = true) ∧ d.Stops p := by
  constructor
  · intro h
    obtain ⟨w, e, hp, hw, he⟩ := exists_run p c
    rw [copy_of_passes hp hw he, Prod.mk.injEq] at h
    obtain ⟨rfl, rfl⟩ := h
    simpa using ⟨hp, hw, he⟩
  · rintro ⟨hp, hw, hd⟩
    simpa using copy_of_passes hp hw hd

theorem skip_eq_iff :
    c.skip p = d ↔ ∃ w, Passes c w d ∧ (∀ x ∈ w, p x = true) ∧ d.Stops p := by
  constructor
  · intro h
    obtain ⟨w, e, hp, hw, he⟩ := exists_run p c
    rw [skip_of_passes hp hw he] at h
    exact ⟨w, h ▸ hp, hw, h ▸ he⟩
  · rintro ⟨w, hp, hw, hd⟩
    exact skip_of_passes hp hw hd

end Cursor

/-- A keyword is met exactly where it is ahead. -/
theorem Keyword.matchAt_eq_ok_iff {k : Keyword} {c d : Cursor} :
    k.matchAt c = .ok () d ↔ Passes c k d := by
  induction k generalizing c with
  | nil =>
    simp only [matchAt, EStateM.Result.ok.injEq, true_and]
    constructor
    · rintro rfl
      exact .nil c
    · intro h
      cases h
      rfl
  | cons k rest ih =>
    unfold matchAt
    constructor
    · intro h
      split at h
      · simp at h
      · next x hx =>
        split at h
        · next hk => exact .cons (hk ▸ hx) (ih.mp h)
        · simp at h
    · intro h
      rw [h.current_of_cons]
      simpa using ih.mpr h.move_of_cons

end TextStream
