import TextStream.Proofs.Cursor.Passage

/-!
# A cursor that gives nothing up

A tape keeps its whole text and what became of every attempted move. Where it
stands, what is current and which line it is on are all read off these two.
`Follows` relates a cursor to a tape. Every operation keeps it and answers the
same on both, so a cursor that gives up visited text cannot be told from one
that does not, whatever the operations and their order.
-/

namespace TextStream

structure Tape where
  text : List Char := []
  /-- What became of each attempted move, latest first. -/
  attempts : List Bool := []
  endsLine : Char → Bool := Text.isLineEnd
  /-- No more moves succeed than there is text for. -/
  count_le : attempts.count true ≤ text.length := by exact Nat.zero_le _

namespace Tape

/-- Successful moves so far. -/
def index (t : Tape) : Nat :=
  t.attempts.count true

/-- Whether a move was attempted and the last one succeeded. -/
def isSeated (t : Tape) : Bool :=
  t.attempts.head? == some true

def visited (t : Tape) : List Char :=
  t.text.take t.index

def current (t : Tape) : Option Char :=
  if t.isSeated then t.text[t.index - 1]? else none

/-- The line ends that were passed. -/
def line (t : Tape) : Nat :=
  t.visited.countP t.endsLine

/-- The code points visited since the last line end. -/
def character (t : Tape) : Nat :=
  (t.visited.reverse.takeWhile fun x => !t.endsLine x).length

def position (t : Tape) : Position :=
  ⟨t.line, t.character⟩

/-- Code points still ahead, the current one included. -/
def pending (t : Tape) : Nat :=
  t.text.length - t.index + (if t.isSeated then 1 else 0)

def extend (t : Tape) (chunk : List Char) : Tape :=
  { t with
    text := t.text ++ chunk
    count_le := Nat.le_trans t.count_le (by simp) }

/-- One attempt to move, and the code point it reached. -/
def advance (t : Tape) : Except ParseError Char × Tape :=
  if h : t.index < t.text.length then
    (.ok t.text[t.index],
      { t with
        attempts := true :: t.attempts
        count_le := by simpa [index, Nat.succ_le_iff] using h })
  else
    (.error .endOfFile,
      { t with
        attempts := false :: t.attempts
        count_le := by simpa using t.count_le })

/-- Takes in a chunk and attempts a move if nothing is current. -/
def ingest (t : Tape) (chunk : List Char) : Except ParseError Unit × Tape :=
  let u := t.extend chunk
  if u.isSeated then (.ok (), u) else (u.advance.1.map fun _ => (), u.advance.2)

theorem index_le (t : Tape) : t.index ≤ t.text.length :=
  t.count_le

theorem index_pos {t : Tape} (h : t.isSeated = true) : 0 < t.index := by
  unfold isSeated at h
  unfold index
  cases ha : t.attempts with
  | nil => simp [ha] at h
  | cons b rest =>
    simp only [ha, List.head?_cons, beq_iff_eq, Option.some.injEq] at h
    simp [h]

-- ---------------------------------------------------------------------------
-- One attempt
-- ---------------------------------------------------------------------------

theorem advance_of_lt {t : Tape} (h : t.index < t.text.length) :
    t.advance.1 = .ok t.text[t.index] ∧ t.advance.2.index = t.index + 1 ∧
      t.advance.2.isSeated = true := by
  unfold advance
  rw [dif_pos h]
  exact ⟨rfl, by simp [index], by simp [isSeated]⟩

theorem advance_of_le {t : Tape} (h : t.text.length ≤ t.index) :
    t.advance.1 = .error .endOfFile ∧ t.advance.2.index = t.index ∧
      t.advance.2.isSeated = false := by
  unfold advance
  rw [dif_neg (Nat.not_lt.mpr h)]
  exact ⟨rfl, by simp [index], by simp [isSeated]⟩

@[simp] theorem text_advance (t : Tape) : t.advance.2.text = t.text := by
  unfold advance
  split <;> rfl

@[simp] theorem endsLine_advance (t : Tape) : t.advance.2.endsLine = t.endsLine := by
  unfold advance
  split <;> rfl

/-- An attempt made while something is current leaves less ahead. -/
theorem pending_advance_lt {t : Tape} {x : Char} (h : t.current = some x) :
    t.advance.2.pending < t.pending := by
  have hs : t.isSeated = true := by
    unfold current at h
    split at h
    · assumption
    · simp at h
  unfold pending
  rw [text_advance, hs]
  rcases Nat.lt_or_ge t.index t.text.length with hlt | hle
  · obtain ⟨-, hi, hs'⟩ := advance_of_lt hlt
    rw [hi, hs']
    omega
  · obtain ⟨-, hi, hs'⟩ := advance_of_le hle
    rw [hi, hs']
    simp

-- ---------------------------------------------------------------------------
-- Loops
-- ---------------------------------------------------------------------------

variable {σ : Type}

def skipWhile (judge : Judge σ) (s : σ) (t : Tape) : (Nat × σ) × Tape :=
  match _h : t.current with
  | none => ((0, s), t)
  | some x =>
    match judge s x with
    | (false, s) => ((0, s), t)
    | (true, s) =>
      let ((count, s), u) := skipWhile judge s t.advance.2
      ((count + 1, s), u)
termination_by t.pending
decreasing_by exact pending_advance_lt _h

def advanceWhile (judge : Judge σ) (s : σ) (dst : String) (t : Tape) :
    (String × Nat × σ) × Tape :=
  match _h : t.current with
  | none => ((dst, 0, s), t)
  | some x =>
    match judge s x with
    | (false, s) => ((dst, 0, s), t)
    | (true, s) =>
      let ((dst, count, s), u) := advanceWhile judge s (dst.push x) t.advance.2
      ((dst, count + 1, s), u)
termination_by t.pending
decreasing_by exact pending_advance_lt _h

theorem skipWhile_of_none {judge : Judge σ} {s : σ} {t : Tape} (h : t.current = none) :
    t.skipWhile judge s = ((0, s), t) := by
  rw [skipWhile]
  split <;> simp_all

theorem skipWhile_of_reject {judge : Judge σ} {s s' : σ} {t : Tape} {x : Char}
    (h : t.current = some x) (hj : judge s x = (false, s')) :
    t.skipWhile judge s = ((0, s'), t) := by
  rw [skipWhile]
  split <;> simp_all

theorem skipWhile_of_accept {judge : Judge σ} {s s' : σ} {t : Tape} {x : Char}
    (h : t.current = some x) (hj : judge s x = (true, s')) :
    t.skipWhile judge s =
      (((t.advance.2.skipWhile judge s').1.1 + 1, (t.advance.2.skipWhile judge s').1.2),
        (t.advance.2.skipWhile judge s').2) := by
  rw [skipWhile]
  split <;> simp_all

theorem advanceWhile_of_none {judge : Judge σ} {s : σ} {dst : String} {t : Tape}
    (h : t.current = none) : t.advanceWhile judge s dst = ((dst, 0, s), t) := by
  rw [advanceWhile]
  split <;> simp_all

theorem advanceWhile_of_reject {judge : Judge σ} {s s' : σ} {dst : String} {t : Tape} {x : Char}
    (h : t.current = some x) (hj : judge s x = (false, s')) :
    t.advanceWhile judge s dst = ((dst, 0, s'), t) := by
  rw [advanceWhile]
  split <;> simp_all

theorem advanceWhile_of_accept {judge : Judge σ} {s s' : σ} {dst : String} {t : Tape} {x : Char}
    (h : t.current = some x) (hj : judge s x = (true, s')) :
    t.advanceWhile judge s dst =
      (((t.advance.2.advanceWhile judge s' (dst.push x)).1.1,
        (t.advance.2.advanceWhile judge s' (dst.push x)).1.2.1 + 1,
        (t.advance.2.advanceWhile judge s' (dst.push x)).1.2.2),
        (t.advance.2.advanceWhile judge s' (dst.push x)).2) := by
  rw [advanceWhile]
  split <;> simp_all

def matchAt (t : Tape) : Keyword → Except ParseError Unit × Tape
  | [] => (.ok (), t)
  | k :: rest =>
    match t.current with
    | none => (.error .endOfFile, t)
    | some x =>
      if x = k then t.advance.2.matchAt rest else (.error (.unexpectedKeyword t.position), t)

end Tape

-- ---------------------------------------------------------------------------
-- Operations as data
-- ---------------------------------------------------------------------------

/-- What can be asked of a cursor, with any predicate and any keyword. -/
inductive Operation : Type 1 where
  | extend (chunk : List Char)
  | ingest (chunk : List Char)
  | advance
  | advanceWhile {σ : Type} (judge : Judge σ) (s : σ) (dst : String)
  | skipWhile {σ : Type} (judge : Judge σ) (s : σ)
  | matchAt (k : Keyword)

namespace Operation

def Answer : Operation → Type
  | extend _ => Nat
  | ingest _ | matchAt _ => Except ParseError Unit
  | advance => Except ParseError Char
  | @advanceWhile σ _ _ _ => String × Nat × σ
  | @skipWhile σ _ _ => Nat × σ

/-- The text that an operation delivers. -/
def chunk : Operation → List Char
  | extend chunk | ingest chunk => chunk
  | advance | advanceWhile .. | skipWhile .. | matchAt _ => []

end Operation

/-- The answer of a computation and the cursor it leaves, whether or not it failed. -/
def Outcome.split {α : Type} : Outcome α → Except ParseError α × Cursor
  | .ok a c => (.ok a, c)
  | .error e c => (.error e, c)

def Cursor.apply (c : Cursor) : (op : Operation) → op.Answer × Cursor
  | .extend chunk => (chunk.length, c.extend chunk)
  | .ingest chunk => Outcome.split (Cursor.ingest chunk c)
  | .advance => Outcome.split (Cursor.advance c)
  | .advanceWhile judge s dst =>
    let (dst, run) := c.advanceWhile judge s dst
    ((dst, run.count, run.state), run.cursor)
  | .skipWhile judge s =>
    let run := c.skipWhile judge s
    ((run.count, run.state), run.cursor)
  | .matchAt k => Outcome.split (k.matchAt c)

def Tape.apply (t : Tape) : (op : Operation) → op.Answer × Tape
  | .extend chunk => (chunk.length, t.extend chunk)
  | .ingest chunk => t.ingest chunk
  | .advance => t.advance
  | .advanceWhile judge s dst => t.advanceWhile judge s dst
  | .skipWhile judge s => t.skipWhile judge s
  | .matchAt k => t.matchAt k

/-- The cursor after a list of operations. -/
def Cursor.after (c : Cursor) (ops : List Operation) : Cursor :=
  ops.foldl (fun c op => (c.apply op).2) c

def Tape.after (t : Tape) (ops : List Operation) : Tape :=
  ops.foldl (fun t op => (t.apply op).2) t

-- ---------------------------------------------------------------------------
-- A cursor follows a tape
-- ---------------------------------------------------------------------------

/-- Everything a cursor knows, apart from the visited text it still holds, as
the tape has it. -/
structure Follows (c : Cursor) (t : Tape) : Prop where
  current : c.current = t.current
  unvisited : c.unvisited = t.text.drop t.index
  index : c.index = t.index
  position : c.position = t.position
  ingested : c.ingested = t.text.length
  endsLine : c.endsLine = t.endsLine

theorem follows_fresh (endsLine : Char → Bool) :
    Follows { endsLine := endsLine } { endsLine := endsLine } :=
  ⟨rfl, rfl, rfl, rfl, rfl, rfl⟩

/-- One more visited code point moves the counted position as it moves a cursor's. -/
theorem position_snoc (endsLine : Char → Bool) (cs : List Char) (x : Char) :
    (⟨(cs ++ [x]).countP endsLine,
      ((cs ++ [x]).reverse.takeWhile fun y => !endsLine y).length⟩ : Position) =
    Position.next ⟨cs.countP endsLine, (cs.reverse.takeWhile fun y => !endsLine y).length⟩
      (endsLine x) := by
  cases hx : endsLine x <;> simp [Position.next, hx]

/-- A position is told by the text before it: the line ends in it, and the code
points behind the last of them. -/
theorem Position.after_eq (endsLine : Char → Bool) (w : List Char) :
    Position.after endsLine {} w =
      ⟨w.countP endsLine, (w.reverse.takeWhile fun x => !endsLine x).length⟩ := by
  induction w using List.reverseRecOn with
  | nil => rfl
  | append_singleton w x ih => rw [after_append, ih, position_snoc]; rfl

namespace Follows

variable {c : Cursor} {t : Tape}

theorem isSeated (h : Follows c t) : c.isSeated = t.isSeated := by
  unfold Cursor.isSeated
  rw [h.current, Tape.current]
  cases hs : t.isSeated with
  | false => rfl
  | true =>
    have hpos := Tape.index_pos hs
    have hle := t.index_le
    have hlt : t.index - 1 < t.text.length := by omega
    simp [hlt]

theorem extend (h : Follows c t) (chunk : List Char) :
    Follows (c.extend chunk) (t.extend chunk) := by
  have hle := t.index_le
  refine ⟨?_, ?_, h.index, ?_, ?_, h.endsLine⟩
  · show c.current = if t.isSeated then (t.text ++ chunk)[t.index - 1]? else none
    rw [h.current, Tape.current]
    cases hs : t.isSeated with
    | false => rfl
    | true =>
      have hpos := Tape.index_pos hs
      rw [List.getElem?_append_left (by omega)]
  · show c.buffer.unvisited ++ chunk = (t.text ++ chunk).drop t.index
    rw [List.drop_append_of_le_length hle]
    exact congrArg (· ++ chunk) h.unvisited
  · show c.position =
      ⟨((t.text ++ chunk).take t.index).countP t.endsLine,
        (((t.text ++ chunk).take t.index).reverse.takeWhile fun x => !t.endsLine x).length⟩
    rw [List.take_append_of_le_length hle]
    exact h.position
  · show c.ingested + chunk.length = (t.text ++ chunk).length
    rw [h.ingested, List.length_append]

/-- A move is what one attempt is on the tape. -/
theorem move (h : Follows c t) : Follows c.move t.advance.2 := by
  rcases Nat.lt_or_ge t.index t.text.length with hlt | hle
  · obtain ⟨-, hi, hs⟩ := Tape.advance_of_lt hlt
    have hu : c.unvisited = t.text[t.index] :: t.text.drop (t.index + 1) := by
      rw [h.unvisited, List.drop_eq_getElem_cons hlt]
    rw [Cursor.move_of_cons hu]
    refine ⟨?_, ?_, ?_, ?_, ?_, ?_⟩
    · simp [Tape.current, hs, hi, hlt]
    · simp [Cursor.unvisited, hi]
    · rw [hi, h.index]
    · simp only [h.position, h.endsLine, Tape.position, Tape.line, Tape.character,
        Tape.visited, Tape.text_advance, Tape.endsLine_advance, hi]
      rw [← position_snoc, List.take_append_getElem hlt]
    · rw [Tape.text_advance, h.ingested]
    · rw [Tape.endsLine_advance, h.endsLine]
  · obtain ⟨-, hi, hs⟩ := Tape.advance_of_le hle
    have hu : c.unvisited = [] := by rw [h.unvisited, List.drop_eq_nil_of_le hle]
    rw [Cursor.move_of_nil hu]
    refine ⟨?_, ?_, ?_, ?_, ?_, ?_⟩
    · simp [Tape.current, hs]
    · rw [Tape.text_advance, hi]
      exact h.unvisited
    · rw [hi, h.index]
    · simp only [h.position, Tape.position, Tape.line, Tape.character, Tape.visited,
        Tape.text_advance, Tape.endsLine_advance, hi]
    · rw [Tape.text_advance, h.ingested]
    · rw [Tape.endsLine_advance, h.endsLine]

/-- A move succeeds where the attempt does, on the same code point. -/
theorem advance (h : Follows c t) :
    (Outcome.split (Cursor.advance c)).1 = t.advance.1 ∧
      Follows (Outcome.split (Cursor.advance c)).2 t.advance.2 := by
  have hm := h.move
  have hc := hm.current
  unfold Cursor.advance
  rcases Nat.lt_or_ge t.index t.text.length with hlt | hle
  · obtain ⟨ha, hi, hs⟩ := Tape.advance_of_lt hlt
    have hx : c.move.current = some t.text[t.index] := by
      simpa [Tape.current, hs, hi, hlt] using hc
    simpa only [hx, Outcome.split, ha, true_and] using hm
  · obtain ⟨ha, -, hs⟩ := Tape.advance_of_le hle
    have hx : c.move.current = none := by simpa [Tape.current, hs] using hc
    simpa only [hx, Outcome.split, ha, true_and] using hm

theorem ingest (h : Follows c t) (chunk : List Char) :
    (Outcome.split (Cursor.ingest chunk c)).1 = (t.ingest chunk).1 ∧
      Follows (Outcome.split (Cursor.ingest chunk c)).2 (t.ingest chunk).2 := by
  have he := h.extend chunk
  have hs := he.isSeated
  unfold Cursor.ingest Cursor.prime Tape.ingest
  cases hc : (c.extend chunk).current with
  | some x =>
    rw [Cursor.isSeated, hc] at hs
    simp only [← hs, Option.isSome_some, ↓reduceIte]
    exact ⟨rfl, he⟩
  | none =>
    rw [Cursor.isSeated, hc] at hs
    obtain ⟨ha, hf⟩ := he.advance
    simp only [← hs, Option.isSome_none, Bool.false_eq_true, ↓reduceIte]
    cases hr : Cursor.advance (c.extend chunk) with
    | ok x d =>
      simp only [hr, Outcome.split] at ha hf
      exact ⟨by rw [← ha]; rfl, hf⟩
    | error e d =>
      simp only [hr, Outcome.split] at ha hf
      exact ⟨by rw [← ha]; rfl, hf⟩

variable {σ : Type}

theorem skipWhile (h : Follows c t) (judge : Judge σ) (s : σ) :
    ((c.skipWhile judge s).count, (c.skipWhile judge s).state) = (t.skipWhile judge s).1 ∧
      Follows (c.skipWhile judge s).cursor (t.skipWhile judge s).2 := by
  fun_induction Cursor.skipWhile judge s c generalizing t with
  | case1 s c hx =>
    rw [Tape.skipWhile_of_none (h.current ▸ hx)]
    exact ⟨rfl, h⟩
  | case2 s c x hx s' hj =>
    rw [Tape.skipWhile_of_reject (h.current ▸ hx) hj]
    exact ⟨rfl, h⟩
  | case3 s c x hx s' hj rest =>
    rename_i ih
    rw [Tape.skipWhile_of_accept (h.current ▸ hx) hj]
    obtain ⟨ha, hf⟩ := ih h.move
    exact ⟨by simp only [← ha, rest], hf⟩

theorem advanceWhile (h : Follows c t) (judge : Judge σ) (s : σ) (dst : String) :
    ((c.advanceWhile judge s dst).1, (c.advanceWhile judge s dst).2.count,
      (c.advanceWhile judge s dst).2.state) = (t.advanceWhile judge s dst).1 ∧
      Follows (c.advanceWhile judge s dst).2.cursor (t.advanceWhile judge s dst).2 := by
  fun_induction Cursor.advanceWhile judge s dst c generalizing t with
  | case1 s dst c hx =>
    rw [Tape.advanceWhile_of_none (h.current ▸ hx)]
    exact ⟨rfl, h⟩
  | case2 s dst c x hx s' hj =>
    rw [Tape.advanceWhile_of_reject (h.current ▸ hx) hj]
    exact ⟨rfl, h⟩
  | case3 s dst c x hx s' hj dst' rest hr ih =>
    rw [Tape.advanceWhile_of_accept (h.current ▸ hx) hj]
    obtain ⟨ha, hf⟩ := ih h.move
    rw [hr] at ha hf
    exact ⟨by simp only [← ha], hf⟩

theorem matchAt (h : Follows c t) (k : Keyword) :
    (Outcome.split (k.matchAt c)).1 = (t.matchAt k).1 ∧
      Follows (Outcome.split (k.matchAt c)).2 (t.matchAt k).2 := by
  induction k generalizing c t with
  | nil => exact ⟨rfl, h⟩
  | cons k rest ih =>
    unfold Keyword.matchAt Tape.matchAt
    rw [← h.current]
    cases c.current with
    | none => exact ⟨rfl, h⟩
    | some x =>
      simp only
      split
      · exact ih h.move
      · exact ⟨by rw [Cursor.unexpectedKeyword, h.position]; rfl, h⟩

/-- One operation answers the same on a cursor and on the tape it follows. -/
theorem apply (h : Follows c t) (op : Operation) :
    (c.apply op).1 = (t.apply op).1 ∧ Follows (c.apply op).2 (t.apply op).2 := by
  cases op with
  | extend chunk => exact ⟨rfl, h.extend chunk⟩
  | ingest chunk => exact h.ingest chunk
  | advance => exact h.advance
  | advanceWhile judge s dst => exact h.advanceWhile judge s dst
  | skipWhile judge s => exact h.skipWhile judge s
  | matchAt k => exact h.matchAt k

theorem after (h : Follows c t) (ops : List Operation) : Follows (c.after ops) (t.after ops) := by
  induction ops generalizing c t with
  | nil => exact h
  | cons op rest ih => exact ih (h.apply op).2

end Follows

-- ---------------------------------------------------------------------------
-- Every run
-- ---------------------------------------------------------------------------

namespace Tape

variable {σ : Type}

theorem keeps_skipWhile (judge : Judge σ) (s : σ) (t : Tape) :
    (t.skipWhile judge s).2.text = t.text ∧ (t.skipWhile judge s).2.endsLine = t.endsLine := by
  fun_induction skipWhile judge s t with
  | case1 => exact ⟨rfl, rfl⟩
  | case2 => exact ⟨rfl, rfl⟩
  | case3 s t x hx s' hj count s'' u hu ih => simpa [hu] using ih

theorem keeps_advanceWhile (judge : Judge σ) (s : σ) (dst : String) (t : Tape) :
    (t.advanceWhile judge s dst).2.text = t.text ∧
      (t.advanceWhile judge s dst).2.endsLine = t.endsLine := by
  fun_induction advanceWhile judge s dst t with
  | case1 => exact ⟨rfl, rfl⟩
  | case2 => exact ⟨rfl, rfl⟩
  | case3 s dst t x hx s' hj dst' count s'' u hu ih => simpa [hu] using ih

theorem keeps_matchAt (t : Tape) (k : Keyword) :
    (t.matchAt k).2.text = t.text ∧ (t.matchAt k).2.endsLine = t.endsLine := by
  induction k generalizing t with
  | nil => exact ⟨rfl, rfl⟩
  | cons k rest ih =>
    unfold matchAt
    split
    · exact ⟨rfl, rfl⟩
    · split
      · simpa using ih t.advance.2
      · exact ⟨rfl, rfl⟩

/-- Only deliveries change the text, and nothing changes what ends a line. -/
theorem apply_keeps (t : Tape) (op : Operation) :
    (t.apply op).2.text = t.text ++ op.chunk ∧ (t.apply op).2.endsLine = t.endsLine := by
  cases op with
  | extend chunk => exact ⟨rfl, rfl⟩
  | ingest chunk =>
    show (t.ingest chunk).2.text = t.text ++ chunk ∧ (t.ingest chunk).2.endsLine = t.endsLine
    unfold ingest
    simp only
    split
    · exact ⟨rfl, rfl⟩
    · exact ⟨text_advance _, endsLine_advance _⟩
  | advance => simp [apply, Operation.chunk]
  | advanceWhile judge s dst =>
    simpa [apply, Operation.chunk] using t.keeps_advanceWhile judge s dst
  | skipWhile judge s => simpa [apply, Operation.chunk] using t.keeps_skipWhile judge s
  | matchAt k => simpa [apply, Operation.chunk] using t.keeps_matchAt k

theorem after_keeps (t : Tape) (ops : List Operation) :
    (t.after ops).text = t.text ++ ops.flatMap Operation.chunk ∧
      (t.after ops).endsLine = t.endsLine := by
  induction ops generalizing t with
  | nil => simp [after]
  | cons op rest ih =>
    obtain ⟨ht, he⟩ := ih (t.apply op).2
    obtain ⟨ht', he'⟩ := t.apply_keeps op
    refine ⟨?_, he.trans he'⟩
    rw [List.flatMap_cons, ← List.append_assoc, ← ht']
    exact ht

end Tape

/-- After any operations on a fresh cursor its observers read the delivered
text `T`, the number `i` of attempted moves that succeeded and whether the last
one did, and any further operation answers as it does on the tape. -/
theorem Cursor.agrees_with_tape (endsLine : Char → Bool) (ops : List Operation) :
    let c := Cursor.after { endsLine := endsLine } ops
    let t := Tape.after { endsLine := endsLine } ops
    let T := ops.flatMap Operation.chunk
    let i := t.attempts.count true
    let seated := t.attempts.head? == some true
    t.text = T ∧ i ≤ T.length ∧
      c.current.isSome = seated ∧
      c.current = (if seated then T[i - 1]? else none) ∧
      c.peek = T[i]? ∧
      c.index = i ∧
      c.ingested = T.length ∧
      c.position.line = (T.take i).countP endsLine ∧
      c.position.character = ((T.take i).reverse.takeWhile fun x => !endsLine x).length ∧
      c.isExhausted = (!seated && i == T.length) ∧
      (c.apply .advance).1 =
        (match T[i]? with
        | some x => .ok x
        | none => .error .endOfFile) ∧
      ∀ op, (c.apply op).1 = (t.apply op).1 := by
  intro c t T i seated
  have hf : Follows c t := (follows_fresh endsLine).after ops
  obtain ⟨ht, he⟩ := Tape.after_keeps { endsLine := endsLine } ops
  replace ht : t.text = T := ht
  replace he : t.endsLine = endsLine := he
  have hle : i ≤ T.length := ht ▸ t.index_le
  have hs : c.current.isSome = seated := hf.isSeated
  refine ⟨ht, hle, hs, ?_, ?_, hf.index, ?_, ?_, ?_, ?_, ?_, fun op => (hf.apply op).1⟩
  · rw [← ht]
    exact hf.current
  · rw [Cursor.peek, hf.unvisited, ht, List.head?_drop]
    rfl
  · rw [hf.ingested, ht]
  · rw [hf.position, ← ht, ← he]
    rfl
  · rw [hf.position, ← ht, ← he]
    rfl
  · have hd : (T.drop t.index).isEmpty = (i == T.length) := by
      rw [Bool.eq_iff_iff, List.isEmpty_iff, List.drop_eq_nil_iff, beq_iff_eq]
      exact ⟨Nat.le_antisymm hle, Nat.le_of_eq ∘ Eq.symm⟩
    rw [Cursor.isExhausted, hf.unvisited, ht, hd, ← hs, Option.not_isSome]
  · rw [(hf.apply .advance).1, ← ht]
    show t.advance.1 = match t.text[t.index]? with | some x => .ok x | none => .error .endOfFile
    rcases Nat.lt_or_ge t.index t.text.length with hlt | hge
    · rw [(Tape.advance_of_lt hlt).1, List.getElem?_eq_getElem hlt]
    · rw [(Tape.advance_of_le hge).1, List.getElem?_eq_none hge]

end TextStream
