import Mathlib
import TextStream.Cursor.Keyword

/-!
# A keyword scattered over a text

Fed a text code point by code point, a keyword drops its head wherever that is
met and passes over everything else. To drop it at the first chance loses
nothing, so what it has dropped in the end is the longest beginning of it that is
a subsequence of the text. It is done where the whole of it first is one.
-/

namespace TextStream

namespace Keyword

variable {k : Keyword} {s : List Char} {x : Char} {i j : Nat}

/-- How many code points from the start of a keyword a text has in their order,
with any others between them. -/
def scattered (k : Keyword) (s : List Char) : Nat :=
  Nat.findGreatest (fun n => (k.take n).Sublist s) k.length

/-- What happened at each code point of a text. -/
def answers (k : Keyword) (s : List Char) : List Step :=
  (k.feed s).1.map Prod.fst

/-- What a text leaves of a keyword. -/
def rest (k : Keyword) (s : List Char) : Keyword :=
  (k.feed s).2

@[simp] theorem answers_nil (k : Keyword) : k.answers [] = [] := rfl

@[simp] theorem answers_cons (k : Keyword) (x : Char) (s : List Char) :
    k.answers (x :: s) = (k.step x).1 :: (k.step x).2.answers s := rfl

@[simp] theorem rest_nil (k : Keyword) : k.rest [] = k := rfl

@[simp] theorem rest_cons (k : Keyword) (x : Char) (s : List Char) :
    k.rest (x :: s) = (k.step x).2.rest s := rfl

theorem rest_append (k : Keyword) (s t : List Char) : k.rest (s ++ t) = (k.rest s).rest t := by
  induction s generalizing k with
  | nil => rfl
  | cons x s ih => exact ih (k.step x).2

/-- Each answer is that of a step from where the text before it has led. -/
theorem getElem?_feed (k : Keyword) (s : List Char) (i : Nat) :
    (k.feed s).1[i]? = s[i]?.map (k.rest (s.take i)).step := by
  induction s generalizing k i with
  | nil => rfl
  | cons x s ih =>
    cases i with
    | zero => rfl
    | succ i => exact ih (k.step x).2 i

-- ---------------------------------------------------------------------------
-- One step
-- ---------------------------------------------------------------------------

/-- A step drops the head that it meets, or leaves the keyword as it is. -/
theorem step_cases (k : Keyword) (x : Char) :
    (∃ rest, k = x :: rest ∧ k.step x = (if rest.isEmpty then .done else .needMore, rest)) ∨
      (k.head? ≠ some x ∧ k.step x = (.reject, k)) := by
  cases k with
  | nil => exact .inr ⟨by simp, rfl⟩
  | cons y rest =>
    by_cases hx : x = y
    · subst hx
      exact .inl ⟨rest, rfl, by simp [step]⟩
    · exact .inr ⟨by simpa using Ne.symm hx, by simp [step, hx]⟩

theorem step_snd_eq_drop (k : Keyword) (x : Char) :
    (k.step x).2 = k.drop (if (k.step x).1 = .reject then 0 else 1) := by
  rcases k.step_cases x with ⟨rest, rfl, hstep⟩ | ⟨-, hstep⟩
  · cases rest <;> simp [hstep]
  · simp [hstep]

theorem step_eq_done_iff : (k.step x).1 = .done ↔ k ≠ [] ∧ (k.step x).2 = [] := by
  rcases k.step_cases x with ⟨rest, rfl, hstep⟩ | ⟨-, hstep⟩
  · cases rest <;> simp [hstep]
  · simp [hstep]

-- ---------------------------------------------------------------------------
-- The longest beginning
-- ---------------------------------------------------------------------------

theorem isGreatest_scattered (k : Keyword) (s : List Char) :
    IsGreatest {n | n ≤ k.length ∧ (k.take n).Sublist s} (k.scattered s) := by
  constructor
  · refine ⟨Nat.findGreatest_le _, ?_⟩
    exact Nat.findGreatest_spec (P := fun n => (k.take n).Sublist s) (Nat.zero_le _) (by simp)
  · rintro n ⟨hn, hs⟩
    exact Nat.le_findGreatest hn hs

theorem scattered_nil (k : Keyword) : k.scattered [] = 0 := by
  obtain ⟨hlength, hs⟩ := (k.isGreatest_scattered []).1
  have hle := hs.length_le
  rw [List.length_take_of_le hlength] at hle
  exact Nat.le_zero.mp hle

/-- Whatever else a head could be met by, to be met by the first that fits is no worse. -/
theorem scattered_cons_self (x : Char) (k : Keyword) (s : List Char) :
    scattered (x :: k) (x :: s) = k.scattered s + 1 := by
  obtain ⟨⟨hlength, hs⟩, hgreatest⟩ := k.isGreatest_scattered s
  refine (isGreatest_scattered (x :: k) (x :: s)).unique ⟨⟨?_, ?_⟩, ?_⟩
  · exact Nat.succ_le_succ hlength
  · exact List.cons_sublist_cons.mpr hs
  · rintro n ⟨hn, hsub⟩
    cases n with
    | zero => exact Nat.zero_le _
    | succ n =>
      -- Wherever the text has the head, it has what comes behind it in `s`.
      exact Nat.succ_le_succ
        (hgreatest ⟨Nat.le_of_succ_le_succ hn, List.cons_sublist_cons.mp hsub⟩)

/-- Before its head is met a keyword has no use for a code point. -/
theorem sublist_cons_iff_of_head?_ne (h : k.head? ≠ some x) :
    k.Sublist (x :: s) ↔ k.Sublist s := by
  cases k with
  | nil => simp
  | cons y rest =>
    have hy : y ≠ x := by simpa using h
    simp [List.cons_sublist_cons', hy]

theorem scattered_of_head?_ne (h : k.head? ≠ some x) : k.scattered (x :: s) = k.scattered s := by
  have hsame : ∀ n, (k.take n).Sublist (x :: s) ↔ (k.take n).Sublist s := by
    intro n
    refine sublist_cons_iff_of_head?_ne ?_
    rw [List.head?_take]
    split <;> simp [h]
  simp only [scattered, hsame]

/-- What can be met from here is what this step meets and what can be met after it. -/
theorem scattered_cons (k : Keyword) (x : Char) (s : List Char) :
    k.scattered (x :: s) =
      (if (k.step x).1 = .reject then 0 else 1) + (k.step x).2.scattered s := by
  rcases k.step_cases x with ⟨rest, rfl, hstep⟩ | ⟨hhead, hstep⟩
  · rw [hstep, scattered_cons_self, Nat.add_comm]
    cases rest <;> rfl
  · rw [hstep, scattered_of_head?_ne hhead, if_pos rfl, Nat.zero_add]

theorem rest_eq_drop (k : Keyword) (s : List Char) : k.rest s = k.drop (k.scattered s) := by
  induction s generalizing k with
  | nil => rw [scattered_nil, rest_nil, List.drop_zero]
  | cons x s ih =>
    rw [rest_cons, ih, scattered_cons, ← List.drop_drop, ← step_snd_eq_drop]

theorem countP_answers (k : Keyword) (s : List Char) :
    (k.answers s).countP (· ≠ .reject) = k.scattered s := by
  induction s generalizing k with
  | nil => rw [scattered_nil, answers_nil, List.countP_nil]
  | cons x s ih =>
    rw [answers_cons, List.countP_cons, ih, scattered_cons, Nat.add_comm]
    simp

theorem rest_eq_nil_iff : k.rest s = [] ↔ k.Sublist s := by
  obtain ⟨⟨hlength, hs⟩, hgreatest⟩ := k.isGreatest_scattered s
  rw [rest_eq_drop, List.drop_eq_nil_iff]
  constructor
  · intro h
    rwa [List.take_of_length_le h] at hs
  · intro h
    exact hgreatest ⟨le_rfl, by rwa [List.take_length]⟩

-- ---------------------------------------------------------------------------
-- Where it is done
-- ---------------------------------------------------------------------------

theorem getElem?_answers (k : Keyword) (s : List Char) (i : Nat) :
    (k.answers s)[i]? = s[i]?.map fun x => ((k.rest (s.take i)).step x).1 := by
  rw [answers, List.getElem?_map, getElem?_feed, Option.map_map]
  rfl

theorem rest_take_succ (k : Keyword) (h : i < s.length) :
    k.rest (s.take (i + 1)) = ((k.rest (s.take i)).step s[i]).2 := by
  rw [List.take_succ_eq_append_getElem h, rest_append]
  rfl

/-- A step answers that it is done where the keyword is not complete before it, and is after. -/
theorem getElem?_answers_eq_done_iff_of_lt (h : i < s.length) :
    (k.answers s)[i]? = some .done ↔
      ¬ k.Sublist (s.take i) ∧ k.Sublist (s.take (i + 1)) := by
  rw [getElem?_answers, List.getElem?_eq_getElem h, Option.map_some, Option.some.injEq,
    step_eq_done_iff, ← rest_take_succ k h, Ne, rest_eq_nil_iff, rest_eq_nil_iff]

/-- It answers so at the code point that completes the keyword. -/
theorem getElem?_answers_eq_done_iff :
    (k.answers s)[i]? = some .done ↔
      IsLeast {n | k ≠ [] ∧ k.Sublist (s.take n)} (i + 1) := by
  constructor
  · intro h
    have hi : i < s.length := by
      rw [getElem?_answers, Option.map_eq_some_iff] at h
      obtain ⟨x, hx, -⟩ := h
      exact (List.getElem?_eq_some_iff.mp hx).1
    obtain ⟨hbefore, hafter⟩ := (getElem?_answers_eq_done_iff_of_lt hi).mp h
    refine ⟨⟨?_, hafter⟩, ?_⟩
    · rintro rfl
      exact hbefore (List.nil_sublist _)
    · rintro n ⟨-, hn⟩
      by_contra hlt
      have hle : n ≤ i := Nat.le_of_lt_succ (not_le.mp hlt)
      exact hbefore (hn.trans (List.take_prefix_take_left hle).sublist)
  · rintro ⟨⟨hk, hafter⟩, hleast⟩
    have hbefore : ¬ k.Sublist (s.take i) := fun h => Nat.not_succ_le_self i (hleast ⟨hk, h⟩)
    have hi : i < s.length := by
      by_contra hend
      -- Behind the end a text has no more than at its end.
      rw [List.take_of_length_le (by omega)] at hafter hbefore
      exact hbefore hafter
    exact (getElem?_answers_eq_done_iff_of_lt hi).mpr ⟨hbefore, hafter⟩

theorem count_done (k : Keyword) (s : List Char) :
    (k.answers s).count .done = if k ≠ [] ∧ k.Sublist s then 1 else 0 := by
  induction s generalizing k with
  | nil =>
    have hnone : ¬ (k ≠ [] ∧ k.Sublist []) := fun h => h.1 (List.sublist_nil.mp h.2)
    rw [if_neg hnone, answers_nil, List.count_nil]
  | cons x s ih =>
    rw [answers_cons, List.count_cons, ih]
    rcases k.step_cases x with ⟨rest, rfl, hstep⟩ | ⟨hhead, hstep⟩
    · rw [hstep]
      -- With nothing behind it the head completes the keyword; else the rest has yet to.
      cases rest <;> simp
    · simp [hstep, sublist_cons_iff_of_head?_ne hhead]

/-- From where the keyword is complete everything is rejected. -/
theorem reject_of_sublist (h : k.Sublist (s.take j)) (hj : j < s.length) :
    (k.answers s)[j]? = some .reject := by
  rw [getElem?_answers, rest_eq_nil_iff.mpr h, List.getElem?_eq_getElem hj]
  rfl

/-- What a keyword does when it is fed a text. It drops the longest beginning of it
that is a subsequence of the text, one code point for each answer other than a
rejection. It is done at most once: where it is complete for the first time, if it
is not empty and the text has it at all. All that comes later is rejected, as is
everything if there is nothing to meet. -/
theorem feed_drops_longest_subsequence (k : Keyword) (s : List Char) :
    let m := k.scattered s
    let answers := k.answers s
    IsGreatest {n | n ≤ k.length ∧ (k.take n).Sublist s} m ∧
    (∀ i, (k.feed s).1[i]? = s[i]?.map (k.rest (s.take i)).step) ∧
    k.rest s = k.drop m ∧
    answers.countP (· ≠ .reject) = m ∧
    answers.count .done ≤ 1 ∧
    (.done ∈ answers ↔ k ≠ [] ∧ k.Sublist s) ∧
    (∀ i, answers[i]? = some .done ↔
      IsLeast {n | k ≠ [] ∧ k.Sublist (s.take n)} (i + 1)) ∧
    (∀ i j, answers[i]? = some .done → i < j → j < s.length → answers[j]? = some .reject) ∧
    (k = [] → ∀ j, j < s.length → answers[j]? = some .reject) := by
  intro m answers
  have hcount : answers.count .done = if k ≠ [] ∧ k.Sublist s then 1 else 0 := k.count_done s
  refine ⟨k.isGreatest_scattered s, k.getElem?_feed s, k.rest_eq_drop s, k.countP_answers s,
    ?_, ?_, fun i => getElem?_answers_eq_done_iff, fun i j hdone hij hj => ?_, ?_⟩
  · rw [hcount]
    split <;> simp
  · rw [← List.count_pos_iff, hcount]
    split_ifs with h <;> simp [h]
  · have hcomplete : k.Sublist (s.take (i + 1)) := (getElem?_answers_eq_done_iff.mp hdone).1.2
    exact reject_of_sublist (hcomplete.trans (List.take_prefix_take_left hij).sublist) hj
  · rintro rfl j hj
    exact reject_of_sublist (List.nil_sublist _) hj

-- What does not fit is passed over, and so is what comes behind the end.
example :
    answers ['n', 'u', 'l'] ['n', 'x', 'u', 'l', 'l'] =
      [.needMore, .reject, .needMore, .done, .reject] := by
  decide

end Keyword

end TextStream
