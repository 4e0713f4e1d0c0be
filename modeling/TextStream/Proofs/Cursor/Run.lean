import TextStream.Proofs.Cursor.Passage

/-!
# The longest accepted run

A judge is asked about one code point after the other, and each answer may change
what it says to the next. From a text it accepts a longest run. Both loops ask it
about that run in order, then about the code point behind it if there is one, and
about nothing else. They move once for each code point of the run.
-/

namespace TextStream

namespace Judge

variable {σ : Type}

/-- The state left by questions about the code points of `w`, in order. -/
def after (judge : Judge σ) (s : σ) (w : List Char) : σ :=
  w.foldl (fun s x => (judge s x).2) s

/-- Every code point of a text is accepted when its turn comes. -/
def Accepts (judge : Judge σ) : σ → List Char → Prop
  | _, [] => True
  | s, x :: w => (judge s x).1 = true ∧ Accepts judge (judge s x).2 w

/-- How many code points from the start of a text are accepted one after the other. -/
def accepted (judge : Judge σ) : σ → List Char → Nat
  | s, x :: w => if (judge s x).1 then accepted judge (judge s x).2 w + 1 else 0
  | _, [] => 0

/-- The same judge, with the code points that it is asked about written down. -/
def recorded (judge : Judge σ) : Judge (σ × List Char) := fun (s, asked) x =>
  ((judge s x).1, (judge s x).2, asked ++ [x])

variable (judge : Judge σ) (s : σ) (text : List Char)

theorem accepted_le : judge.accepted s text ≤ text.length := by
  fun_induction accepted judge s text with
  | case1 s x w hx ih => exact Nat.succ_le_succ ih
  | case2 | case3 => exact Nat.zero_le _

theorem accepts_take_accepted : judge.Accepts s (text.take (judge.accepted s text)) := by
  fun_induction accepted judge s text with
  | case1 s x w hx ih => exact ⟨hx, ih⟩
  | case2 | case3 => exact trivial

theorem length_le_accepted {w : List Char} (hw : judge.Accepts s w) (hp : w <+: text) :
    w.length ≤ judge.accepted s text := by
  obtain ⟨r, rfl⟩ := hp
  induction w generalizing s with
  | nil => exact Nat.zero_le _
  | cons x w ih => simpa [accepted, hw.1] using ih _ hw.2

/-- What is counted is the longest run of acceptances. -/
theorem isGreatest_accepted :
    IsGreatest {n | ∃ w, w <+: text ∧ judge.Accepts s w ∧ w.length = n}
      (judge.accepted s text) := by
  constructor
  · exact ⟨_, List.take_prefix _ _, judge.accepts_take_accepted s text,
      List.length_take_of_le (judge.accepted_le s text)⟩
  · rintro n ⟨w, hp, hw, rfl⟩
    exact judge.length_le_accepted s text hw hp

/-- The code point behind the run is refused. -/
theorem refuses_behind (h : judge.accepted s text < text.length) :
    (judge (judge.after s (text.take (judge.accepted s text))) text[judge.accepted s text]).1 =
      false := by
  induction text generalizing s with
  | nil => simp at h
  | cons x w ih =>
    cases hx : (judge s x).1 with
    | false => simp [accepted, after, hx]
    | true =>
      have hw : judge.accepted (judge s x).2 w < w.length := by simpa [accepted, hx] using h
      simpa [accepted, after, hx] using ih _ hw

theorem after_concat (x : Char) :
    judge.after s (text ++ [x]) = (judge (judge.after s text) x).2 := by
  simp [after]

/-- To write the questions down changes no answer. -/
theorem accepted_recorded (asked : List Char) :
    judge.recorded.accepted (s, asked) text = judge.accepted s text := by
  induction text generalizing s asked with
  | nil => rfl
  | cons x w ih =>
    unfold accepted
    rw [ih]
    rfl

theorem after_recorded (asked : List Char) :
    judge.recorded.after (s, asked) text = (judge.after s text, asked ++ text) := by
  induction text generalizing s asked with
  | nil => simp [after]
  | cons x w ih =>
    show judge.recorded.after ((judge s x).2, asked ++ [x]) w = _
    rw [ih, List.append_assoc]
    rfl

end Judge

namespace Cursor

variable {σ : Type} (judge : Judge σ) (s : σ) (dst : String) (c : Cursor)

/-- One move for each code point of the run, and one question more than that if
the text goes on. -/
theorem skipWhile_eq :
    c.skipWhile judge s =
      { count := judge.accepted s c.ahead
        state := judge.after s (c.ahead.take (judge.accepted s c.ahead + 1))
        cursor := move^[judge.accepted s c.ahead] c } := by
  fun_induction skipWhile judge s c with
  | case1 s c hx => simp [ahead_of_none hx, Judge.accepted, Judge.after]
  | case2 s c x hx t ht => simp [ahead_of_some hx, Judge.accepted, Judge.after, ht]
  | case3 s c x hx t ht rest ih =>
    rw [ahead_move] at ih
    simp [rest, ih, ahead_of_some hx, Judge.accepted, Judge.after, ht]

/-- The copying loop appends the run and leaves what the other one leaves. -/
theorem advanceWhile_eq_skipWhile_copied :
    c.advanceWhile judge s dst =
      (dst ++ String.ofList (c.ahead.take (judge.accepted s c.ahead)), c.skipWhile judge s) := by
  refine Prod.ext ?_ (c.advanceWhile_eq_skipWhile judge s dst)
  fun_induction advanceWhile judge s dst c with
  | case1 s dst c hx => simp [ahead_of_none hx]
  | case2 s dst c x hx t ht => simp [ahead_of_some hx, Judge.accepted, ht]
  | case3 s dst c x hx t ht dst' rest hr ih =>
    rw [hr, ahead_move] at ih
    show dst' = _
    rw [show dst' = _ from ih]
    simp [ahead_of_some hx, Judge.accepted, ht, ← String.toList_inj]

/-- With the questions written down, they are the run and the code point behind it. -/
theorem skipWhile_recorded :
    c.skipWhile judge.recorded (s, []) =
      { count := (c.skipWhile judge s).count
        state := ((c.skipWhile judge s).state, c.ahead.take ((c.skipWhile judge s).count + 1))
        cursor := (c.skipWhile judge s).cursor } := by
  simp only [skipWhile_eq, Judge.accepted_recorded, Judge.after_recorded, List.nil_append]

theorem passes_skipWhile :
    Passes c (c.ahead.take (c.skipWhile judge s).count) (c.skipWhile judge s).cursor := by
  rw [skipWhile_eq]
  exact .iterate (judge.accepted_le s c.ahead)

section
variable {judge s c} {n : Nat} (hn : (c.skipWhile judge s).count = n)
include hn

theorem length_take_count : (c.ahead.take n).length = n := by
  rw [skipWhile_eq] at hn
  exact List.length_take_of_le (hn ▸ judge.accepted_le s c.ahead)

/-- Where the text goes on behind the run, the code point there was refused. -/
theorem skipWhile_refused (h : n < c.ahead.length) :
    judge (judge.after s (c.ahead.take n)) c.ahead[n] = (false, (c.skipWhile judge s).state) ∧
      (c.skipWhile judge s).cursor.current = some c.ahead[n] ∧
      (c.skipWhile judge s).cursor.unvisited = c.ahead.drop (n + 1) ∧
      (c.skipWhile judge s).cursor.index = c.index + n := by
  obtain ⟨hx, hunvisited, hindex, -⟩ :=
    (hn ▸ c.passes_skipWhile judge s).lands (length_take_count hn) h
  refine ⟨?_, hx, hunvisited, hindex⟩
  rw [skipWhile_eq] at hn ⊢
  subst hn
  refine Prod.ext (judge.refuses_behind s c.ahead h) ?_
  rw [← List.take_append_getElem h, Judge.after_concat]

/-- A run that is the whole text leaves nothing current. -/
theorem skipWhile_whole (h : n = c.ahead.length) :
    (c.skipWhile judge s).state = judge.after s c.ahead ∧
      (c.skipWhile judge s).cursor.current = none ∧
      (c.isSeated = true → (c.skipWhile judge s).cursor.isExhausted = true ∧
        (c.skipWhile judge s).cursor.index = c.index + (n - 1)) := by
  have hpass := hn ▸ c.passes_skipWhile judge s
  have hlength := length_take_count hn
  refine ⟨?_, hpass.leaves hlength h, fun hseat => hpass.exhausts hlength ?_ h⟩
  · rw [skipWhile_eq] at hn ⊢
    have hall : judge.accepted s c.ahead = c.ahead.length := hn.trans h
    simp only [hall, List.take_of_length_le (Nat.le_succ _)]
  · obtain ⟨x, hx⟩ := Option.isSome_iff_exists.mp hseat
    simp [h, ahead_of_some hx]

end

/-- What the two loops do with what is ahead. They accept its longest run, and one
of them copies it. They leave the judge and the cursor in the same state: on the
code point that was refused, or with everything visited. The judge was asked about
each code point of the run, in order, and about the one that it refused, if any. -/
theorem scans_longest_run :
    let text := c.ahead
    let run := c.skipWhile judge s
    let n := run.count
    let noted := c.skipWhile judge.recorded (s, [])
    let asked := noted.state.2
    IsGreatest {m | ∃ w, w <+: text ∧ judge.Accepts s w ∧ w.length = m} n ∧
    c.advanceWhile judge s dst = (dst ++ String.ofList (text.take n), run) ∧
    (c.advanceWhile judge.recorded (s, []) dst).2 = noted ∧
    noted = ⟨n, (run.state, asked), run.cursor⟩ ∧
    asked = text.take (n + 1) ∧
    run.cursor = move^[n] c ∧
    (∀ h : n < text.length,
      asked.length = n + 1 ∧
      judge (judge.after s (text.take n)) text[n] = (false, run.state) ∧
      run.cursor.current = some text[n] ∧ run.cursor.unvisited = text.drop (n + 1) ∧
      run.cursor.index = c.index + n) ∧
    (n = text.length →
      asked.length = n ∧
      run.state = judge.after s text ∧
      run.cursor.current = none ∧
      (c.isSeated = true →
        run.cursor.isExhausted = true ∧ run.cursor.index = c.index + (n - 1))) ∧
    (c.current = none →
      asked = [] ∧ run = ⟨0, s, c⟩ ∧ c.advanceWhile judge s dst = (dst, ⟨0, s, c⟩)) := by
  intro text run n noted asked
  have hn : n = judge.accepted s text := congrArg Scanned.count (c.skipWhile_eq judge s)
  have hcursor : run.cursor = move^[n] c := hn ▸ congrArg Scanned.cursor (c.skipWhile_eq judge s)
  have hnoted : noted = ⟨n, (run.state, text.take (n + 1)), run.cursor⟩ :=
    c.skipWhile_recorded judge s
  have hasked : asked = text.take (n + 1) := congrArg (fun r => r.state.2) hnoted
  refine ⟨hn ▸ judge.isGreatest_accepted s text, ?_, ?_, hasked ▸ hnoted, hasked, hcursor,
    fun h => ⟨?_, skipWhile_refused rfl h⟩, fun h => ⟨?_, skipWhile_whole rfl h⟩, fun h => ?_⟩
  · rw [hn]
    exact c.advanceWhile_eq_skipWhile_copied judge s dst
  · exact c.advanceWhile_eq_skipWhile judge.recorded (s, []) dst
  · rw [hasked, List.length_take_of_le h]
  · rw [hasked, List.take_of_length_le (h ▸ Nat.le_succ n), h]
  · have hskip : run = ⟨0, s, c⟩ := skipWhile_of_none h
    exact ⟨by rw [hasked, show text = [] from ahead_of_none h, List.take_nil], hskip,
      advanceWhile_of_none h⟩

end Cursor

end TextStream
