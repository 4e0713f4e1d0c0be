import TextStream.Proofs.Cursor.Stepwise
import TextStream.Proofs.Cursor.Tape

/-!
# What a cursor holds

The text that a cursor holds is one row of code points with the place of the
next one in it. The cursor counts on its own what it visited and what it took
in. `Coherent` says that these agree. Moves and deliveries keep it, so in every
run a delivery gives up exactly what was visited before the current code point,
without ever reaching past an end of the row.
-/

namespace TextStream

/-- A row of code points and the place of the next one to visit. Nothing ties
the place to the row, so whatever would reach past an end is refused. -/
structure Deque where
  data : List Char
  next : Nat
deriving DecidableEq, Repr

namespace Deque

def minus? (a b : Nat) : Option Nat :=
  if b ≤ a then some (a - b) else none

/-- Takes the first `n` code points away. -/
def drain? (n : Nat) (data : List Char) : Option (List Char) :=
  if n ≤ data.length then some (data.drop n) else none

def push (q : Deque) (chunk : List Char) : Deque :=
  { q with data := q.data ++ chunk }

/-- Gives up what was visited, all but the latest code point if that is kept.
Yields how many code points that were and what remains. No subtraction stops at
zero: there must be a latest code point to keep one. -/
def compact? (keepLatest : Bool) (q : Deque) : Option (Nat × Deque) := do
  let visited ← if keepLatest then minus? q.next 1 else some q.next
  let data ← drain? visited q.data
  let next ← minus? q.next visited
  return (visited, ⟨data, next⟩)

/-- The code point at the place, and the row with the place behind it. -/
def next? (q : Deque) : Option (Char × Deque) :=
  q.data[q.next]?.map fun x => (x, { q with next := q.next + 1 })

/-- How many code points are not yet visited. -/
def remaining? (q : Deque) : Option Nat :=
  minus? q.data.length q.next

theorem minus?_of_le {a b : Nat} (h : b ≤ a) : minus? a b = some (a - b) :=
  if_pos h

theorem drain?_of_le {n : Nat} {data : List Char} (h : n ≤ data.length) :
    drain? n data = some (data.drop n) :=
  if_pos h

/-- Compaction is refused only for want of a latest code point, or with a place
that is not in the row. -/
theorem compact?_of_le {q : Deque} {keepLatest : Bool} (hnext : q.next ≤ q.data.length)
    (hkeep : keepLatest = true → 1 ≤ q.next) :
    q.compact? keepLatest =
      some (if keepLatest then (q.next - 1, ⟨q.data.drop (q.next - 1), 1⟩)
        else (q.next, ⟨q.data.drop q.next, 0⟩)) := by
  cases keepLatest with
  | false => simp [compact?, drain?_of_le hnext, minus?_of_le (Nat.le_refl _)]
  | true =>
    have hpos : 1 ≤ q.next := hkeep rfl
    have hless : q.next - 1 ≤ q.next := Nat.sub_le _ _
    simp [compact?, minus?_of_le hpos, drain?_of_le (Nat.le_trans hless hnext),
      minus?_of_le hless, Nat.sub_sub_self hpos]

end Deque

namespace Buffer

/-- A buffer as one row. -/
def deque (b : Buffer) : Deque :=
  ⟨b.data, b.next⟩

theorem next_le (b : Buffer) : b.next ≤ b.data.length := by
  simp [data, next]

theorem length_data_sub_next (b : Buffer) : b.data.length - b.next = b.unvisited.length := by
  simp [data, next]

theorem remaining?_deque (b : Buffer) : b.deque.remaining? = some b.unvisited.length := by
  rw [← b.length_data_sub_next]
  exact Deque.minus?_of_le b.next_le

theorem deque_push (b : Buffer) (chunk : List Char) :
    (b.push chunk).deque = b.deque.push chunk :=
  congrArg (Deque.mk · b.next) (b.data_push chunk)

/-- On one row compaction does what it does on the two halves. -/
theorem compact?_deque (b : Buffer) {keepLatest : Bool} (h : keepLatest = true → 1 ≤ b.next) :
    b.deque.compact? keepLatest =
      some (b.evicted keepLatest, (b.compact keepLatest).deque) := by
  rw [Deque.compact?_of_le b.next_le h]
  unfold deque
  rw [data_compact]
  cases keepLatest with
  | false => rfl
  | true =>
    -- with a latest code point, subtraction that stops at zero does not stop
    have hlength : (b.visited.take 1).length = 1 := List.length_take_of_le (h rfl)
    simp [evicted, next, compact, hlength]

end Buffer

theorem Outcome.split_snd {α : Type} (o : Outcome α) : (split o).2 = cursor o := by
  cases o <;> rfl

theorem Stepwise.keeps_split {α : Type} {m : Scan α} {c : Cursor} {P : Cursor → Prop}
    (h : Stepwise m) (hmove : ∀ {c}, P c → P c.move) (hc : P c) :
    P (Outcome.split (m c)).2 := by
  rw [Outcome.split_snd]
  exact h.keeps hmove hc

namespace Cursor

variable {c : Cursor} {x : Char} {chunk : List Char} {op : Operation}

/-- A move visits the code point at the place in the row. -/
theorem next?_deque (c : Cursor) :
    c.buffer.deque.next? = c.peek.map fun x => (x, c.move.buffer.deque) := by
  have hget : c.buffer.data[c.buffer.next]? = c.peek := by
    simp [Buffer.data, Buffer.next, peek, unvisited, List.getElem?_append_right,
      List.head?_eq_getElem?]
  unfold Deque.next? Buffer.deque
  rw [hget]
  cases hu : c.unvisited with
  | nil => simp [peek, hu]
  | cons x rest =>
    have hdata : c.buffer.unvisited = x :: rest := hu
    simp [peek, hu, move_of_cons hu, Buffer.data, Buffer.next, hdata]

-- ---------------------------------------------------------------------------
-- What operations are made of
-- ---------------------------------------------------------------------------

/-- The cursor with what the operation delivers, before any move. -/
def supplied (c : Cursor) : Operation → Cursor
  | .extend chunk | .ingest chunk => c.extend chunk
  | .advance | .advanceWhile .. | .skipWhile .. | .matchAt _ => c

/-- Beyond what an operation delivers it only moves, so what every move keeps
and the delivery keeps, the operation keeps. -/
theorem apply_keeps {P : Cursor → Prop} (hmove : ∀ {c}, P c → P c.move)
    (h : P (c.supplied op)) : P (c.apply op).2 := by
  cases op with
  | extend chunk => exact h
  | ingest chunk => exact Stepwise.prime.keeps_split hmove h
  | advance => exact Stepwise.advance.keeps_split hmove h
  | advanceWhile judge s dst => exact (Stepwise.run judge s dst).keeps hmove h
  | skipWhile judge s => exact (Stepwise.skipWhile judge s).keeps hmove h
  | matchAt k => exact (Stepwise.matchAt k).keeps_split hmove h

-- ---------------------------------------------------------------------------
-- The invariant
-- ---------------------------------------------------------------------------

/-- What a cursor holds is what it counts. -/
structure Coherent (c : Cursor) : Prop where
  /-- The current code point is the latest that was visited. -/
  latest : ∀ {x}, c.current = some x → ∃ older, c.buffer.visited = x :: older
  /-- What was visited and what is left is what was taken in. -/
  count : c.index + c.unvisited.length = c.ingested

namespace Coherent

theorem fresh (endsLine : Char → Bool) : Coherent { endsLine := endsLine } :=
  ⟨nofun, rfl⟩

theorem move (h : Coherent c) : Coherent c.move := by
  cases hu : c.unvisited with
  | nil =>
    rw [move_of_nil hu]
    exact ⟨nofun, h.count⟩
  | cons x rest =>
    rw [move_of_cons hu]
    refine ⟨fun hx => ⟨c.buffer.visited, by rw [Option.some.inj hx]⟩, ?_⟩
    show c.index + 1 + rest.length = c.ingested
    rw [← h.count, hu, List.length_cons, Nat.add_right_comm, Nat.add_assoc]

theorem extend (h : Coherent c) (chunk : List Char) : Coherent (c.extend chunk) := by
  constructor
  · intro x hx
    obtain ⟨older, hv⟩ := h.latest hx
    have hseat : c.isSeated = true := by simp [isSeated, show c.current = some x from hx]
    exact ⟨[], by simp [Cursor.extend, Buffer.push, Buffer.compact, hseat, hv]⟩
  · show c.index + (c.unvisited ++ chunk).length = c.ingested + chunk.length
    rw [List.length_append, ← Nat.add_assoc, h.count]

theorem apply (h : Coherent c) (op : Operation) : Coherent (c.apply op).2 := by
  refine apply_keeps move ?_
  cases op with
  | extend chunk | ingest chunk => exact h.extend chunk
  | _ => exact h

theorem after (h : Coherent c) (ops : List Operation) : Coherent (c.after ops) := by
  induction ops generalizing c with
  | nil => exact h
  | cons op rest ih => exact ih (h.apply op)

theorem one_le_next (h : Coherent c) (hseat : c.isSeated = true) : 1 ≤ c.buffer.next := by
  obtain ⟨x, hx⟩ := Option.isSome_iff_exists.mp hseat
  obtain ⟨older, hv⟩ := h.latest hx
  simp [Buffer.next, hv]

theorem getElem?_data (h : Coherent c) (hx : c.current = some x) :
    c.buffer.data[c.buffer.next - 1]? = some x := by
  obtain ⟨older, hv⟩ := h.latest hx
  simp [Buffer.data, Buffer.next, hv]

end Coherent

-- ---------------------------------------------------------------------------
-- What is given up
-- ---------------------------------------------------------------------------

/-- How many code points an operation gives up. -/
def givenUp (c : Cursor) : Operation → Nat
  | .extend _ | .ingest _ => c.evicted
  | .advance | .advanceWhile .. | .skipWhile .. | .matchAt _ => 0

/-- How many code points each operation of a run gives up. -/
def evictions (c : Cursor) : List Operation → List Nat
  | [] => []
  | op :: rest => c.givenUp op :: (c.apply op).2.evictions rest

theorem retained_move (c : Cursor) : c.move.retained = c.retained := by
  cases hu : c.unvisited with
  | nil => rw [move_of_nil hu]; rfl
  | cons x rest =>
    rw [move_of_cons hu]
    show c.buffer.visited.length + 1 + rest.length = c.buffer.visited.length + c.unvisited.length
    rw [hu, List.length_cons, Nat.add_right_comm, Nat.add_assoc]

theorem retained_extend (c : Cursor) (chunk : List Char) :
    c.evicted + (c.extend chunk).retained = c.retained + chunk.length := by
  have hsize := c.buffer.size_compact c.isSeated
  simp only [evicted, retained, extend, Buffer.push, Buffer.size, List.length_append] at hsize ⊢
  omega

/-- A chunk is held in full when it was delivered, and a delivery alone gives anything up. -/
theorem balance_apply (c : Cursor) (op : Operation) :
    c.givenUp op + (c.apply op).2.retained = c.retained + op.chunk.length ∧
      (c.apply op).2.ingested = c.ingested + op.chunk.length := by
  -- moves shift code points from one half to the other, so only the delivery counts
  have hkeeps : (c.apply op).2.retained = (c.supplied op).retained ∧
      (c.apply op).2.ingested = (c.supplied op).ingested :=
    apply_keeps (P := fun d => d.retained = (c.supplied op).retained ∧
      d.ingested = (c.supplied op).ingested)
      (fun {d} h => ⟨d.retained_move.trans h.1, d.ingested_move.trans h.2⟩) ⟨rfl, rfl⟩
  rw [hkeeps.1, hkeeps.2]
  cases op with
  | extend chunk | ingest chunk => exact ⟨c.retained_extend chunk, rfl⟩
  | _ => exact ⟨Nat.zero_add _, rfl⟩

/-- Over a run, what was taken in is either still held or was given up. -/
theorem balance_after (c : Cursor) (ops : List Operation) :
    (c.evictions ops).sum + (c.after ops).retained + c.ingested =
      c.retained + (c.after ops).ingested := by
  induction ops generalizing c with
  | nil => exact congrArg (· + c.ingested) (Nat.zero_add _)
  | cons op rest ih =>
    obtain ⟨hretained, hingested⟩ := c.balance_apply op
    have hrest := ih (c.apply op).2
    have hafter : c.after (op :: rest) = (c.apply op).2.after rest := rfl
    rw [hafter, evictions, List.sum_cons]
    omega

-- ---------------------------------------------------------------------------
-- What is held after a delivery
-- ---------------------------------------------------------------------------

/-- Of what was visited only the current code point is held. -/
def Tight (c : Cursor) : Prop :=
  c.buffer.visited = c.current.toList

theorem Coherent.tight_extend (h : Coherent c) (chunk : List Char) : (c.extend chunk).Tight := by
  show (c.buffer.compact c.isSeated).visited = c.current.toList
  cases hx : c.current with
  | none => simp [Buffer.compact, isSeated, hx]
  | some x =>
    obtain ⟨older, hv⟩ := h.latest hx
    simp [Buffer.compact, isSeated, hx, hv]

/-- A cursor on nothing holds nothing that was visited, and only then a delivery moves it. -/
theorem Tight.prime (h : c.Tight) : (Outcome.cursor (Cursor.prime c)).Tight := by
  cases hx : c.current with
  | some x =>
    simp only [Cursor.prime, hx]
    exact h
  | none =>
    have hmove : Outcome.cursor (Cursor.prime c) = c.move := by
      rcases Cursor.prime_of_none hx with hp | hp <;> rw [hp] <;> rfl
    have hv : c.buffer.visited = [] := by simpa [Tight, hx] using h
    rw [hmove]
    cases hu : c.unvisited with
    | nil => simp [move_of_nil hu, Tight, hv]
    | cons x rest => simp [move_of_cons hu, Tight, hv]

theorem Coherent.tight_delivery (h : Coherent c) (hop : op = .extend chunk ∨ op = .ingest chunk) :
    (c.apply op).2.Tight := by
  rcases hop with rfl | rfl
  · exact h.tight_extend chunk
  · show (Outcome.split (Cursor.ingest chunk c)).2.Tight
    rw [Outcome.split_snd]
    exact (h.tight_extend chunk).prime

theorem Tight.data_eq (h : c.Tight) : c.buffer.data = c.current.toList ++ c.unvisited := by
  unfold Buffer.data
  rw [show c.buffer.visited = c.current.toList from h]
  cases c.current <;> rfl

theorem Tight.retained_eq (h : c.Tight) :
    c.retained = c.unvisited.length + if c.current.isSome then 1 else 0 := by
  rw [retained, ← Buffer.length_data, h.data_eq, List.length_append, Nat.add_comm]
  cases c.current <;> rfl

end Cursor

/-- In every run what a cursor holds and what it counts agree, nothing that a
delivery does to the row of held code points reaches past an end of it, and
what was taken in is either still held or was given up. Right after a delivery
the current code point and what is still to be visited are held, and no more. -/
theorem Cursor.retention (endsLine : Char → Bool) (ops : List Operation) :
    let start : Cursor := { endsLine := endsLine }
    let c := start.after ops
    let q := c.buffer.deque
    q.next ≤ q.data.length ∧
      (∀ x, c.current = some x → 1 ≤ q.next ∧ q.data[q.next - 1]? = some x) ∧
      c.index + (q.data.length - q.next) = c.ingested ∧
      (start.evictions ops).sum + c.retained = c.ingested ∧
      q.remaining? = some c.unvisited.length ∧
      q.next? = c.peek.map (fun x => (x, c.move.buffer.deque)) ∧
      (∀ chunk, ∃ kept, q.compact? c.current.isSome = some (c.evicted, kept) ∧
        (c.extend chunk).buffer.deque = kept.push chunk) ∧
      ∀ op chunk, op = .extend chunk ∨ op = .ingest chunk →
        let d := (c.apply op).2
        d.retained = d.unvisited.length + (if d.current.isSome then 1 else 0) ∧
          d.buffer.data = d.current.toList ++ d.unvisited := by
  intro start c q
  have hc : c.Coherent := (Cursor.Coherent.fresh endsLine).after ops
  refine ⟨c.buffer.next_le, fun x hx => ⟨?_, hc.getElem?_data hx⟩, ?_, ?_, ?_, c.next?_deque,
    fun chunk => ?_, fun op chunk hop => ?_⟩
  · exact hc.one_le_next (by simp [Cursor.isSeated, hx])
  · rw [← hc.count]
    exact congrArg (c.index + ·) c.buffer.length_data_sub_next
  · exact (start.balance_after ops).trans (Nat.zero_add _)
  · exact c.buffer.remaining?_deque
  · exact ⟨_, c.buffer.compact?_deque hc.one_le_next, Buffer.deque_push _ chunk⟩
  · have htight := hc.tight_delivery hop
    exact ⟨htight.retained_eq, htight.data_eq⟩

end TextStream
