import TextStream.Proofs.Cursor.Alike

/-!
# Meeting a keyword

A keyword and the text ahead agree up to some place. The match passes over what
they have in common and stops there: behind the keyword, on the code point that
differs, or at the end of the text. What lies further ahead is not looked at,
and neither is the way in which the text was delivered.
-/

namespace TextStream

-- ---------------------------------------------------------------------------
-- Seeing only so far
-- ---------------------------------------------------------------------------

/-- Alike as far as the current code point and the next `n` behind it can tell. -/
structure Cursor.AlikeFor (n : Nat) (c d : Cursor) : Prop where
  current : c.current = d.current
  unvisited : c.unvisited.take n = d.unvisited.take n
  index : c.index = d.index
  position : c.position = d.position
  endsLine : c.endsLine = d.endsLine

namespace Cursor.AlikeFor

variable {n : Nat} {c d : Cursor}

theorem weaken (h : AlikeFor n c d) : AlikeFor 0 c d :=
  ⟨h.current, rfl, h.index, h.position, h.endsLine⟩

/-- A move uses up one of the code points that both can see. -/
theorem move (h : AlikeFor (n + 1) c d) : AlikeFor n c.move d.move := by
  have hunvisited := h.unvisited
  cases hc : c.unvisited with
  | nil =>
    rw [hc] at hunvisited
    have hd : d.unvisited = [] := by simpa using hunvisited.symm
    have hsame : c.unvisited.take n = d.unvisited.take n := by rw [hc, hd]
    rw [move_of_nil hc, move_of_nil hd]
    exact ⟨rfl, hsame, h.index, h.position, h.endsLine⟩
  | cons x rest =>
    cases hd : d.unvisited with
    | nil => simp [hc, hd] at hunvisited
    | cons y rest' =>
      simp only [hc, hd, List.take_succ_cons, List.cons.injEq] at hunvisited
      obtain ⟨rfl, hrest⟩ := hunvisited
      rw [move_of_cons hc, move_of_cons hd]
      refine ⟨rfl, hrest, ?_, ?_, h.endsLine⟩
      · simp only [h.index]
      · simp only [h.position, h.endsLine]

end Cursor.AlikeFor

namespace Keyword

variable {k : Keyword} {c d : Cursor} {s : List Char}

/-- How many code points from the start a keyword has in common with a text. -/
def common : Keyword → List Char → Nat
  | k :: rest, x :: s => if x = k then common rest s + 1 else 0
  | [], _ | _, [] => 0

theorem take_common_prefix (k : Keyword) (s : List Char) : k.take (k.common s) <+: s := by
  fun_induction common k s with
  | case1 k rest s ih => simpa using ih
  | case2 k rest x s hx => exact List.nil_prefix
  | case3 | case4 => simp

theorem common_le (k : Keyword) (s : List Char) : k.common s ≤ k.length := by
  fun_induction common k s with
  | case1 k rest s ih => exact Nat.succ_le_succ ih
  | case2 | case3 | case4 => exact Nat.zero_le _

theorem length_le_common {w : List Char} (hk : w <+: k) (hs : w <+: s) :
    w.length ≤ k.common s := by
  induction w generalizing k s with
  | nil => exact Nat.zero_le _
  | cons x w ih =>
    obtain ⟨rest, rfl⟩ := hk
    obtain ⟨rest', rfl⟩ := hs
    simpa [common] using ih (List.prefix_append w rest) (List.prefix_append w rest')

/-- What is counted is the longest common beginning. -/
theorem isGreatest_common (k : Keyword) (s : List Char) :
    IsGreatest {n | ∃ w, w <+: k ∧ w <+: s ∧ w.length = n} (k.common s) := by
  constructor
  · exact ⟨_, List.take_prefix _ k, k.take_common_prefix s, List.length_take_of_le (k.common_le s)⟩
  · rintro n ⟨w, hk, hs, rfl⟩
    exact length_le_common hk hs

-- ---------------------------------------------------------------------------
-- Where the match stops
-- ---------------------------------------------------------------------------

/-- The match passes over what the keyword and the text have in common, and the
rest of the keyword decides how it ends. -/
theorem matchAt_eq (k : Keyword) (c : Cursor) :
    ∃ d, Passes c (k.take (k.common c.ahead)) d ∧
      k.matchAt c =
        if k.common c.ahead = k.length then .ok () d
        else if d.isSeated then .error d.unexpectedKeyword d
        else .error .endOfFile d := by
  induction k generalizing c with
  | nil => exact ⟨c, .nil c, rfl⟩
  | cons k rest ih =>
    cases hx : c.current with
    | none =>
      refine ⟨c, ?_, ?_⟩
      · simpa [common, Cursor.ahead_of_none hx] using Passes.nil c
      · simp [matchAt, common, Cursor.ahead_of_none hx, hx, Cursor.isSeated]
    | some x =>
      rw [Cursor.ahead_of_some hx]
      by_cases hk : x = k
      · subst hk
        obtain ⟨d, hpass, hmatch⟩ := ih c.move
        rw [Cursor.ahead_move] at hpass hmatch
        refine ⟨d, ?_, ?_⟩
        · simpa [common] using Passes.cons hx hpass
        · simpa [matchAt, hx, common] using hmatch
      · refine ⟨c, ?_, ?_⟩
        · simpa [common, hk] using Passes.nil c
        · simp [matchAt, hx, hk, common, Cursor.isSeated]

theorem length_take_common (k : Keyword) (s : List Char) :
    (k.take (k.common s)).length = k.common s :=
  List.length_take_of_le (k.common_le s)

theorem matchAt_of_whole (hm : k.common c.ahead = k.length) :
    ∃ d, Passes c k d ∧ Outcome.split (k.matchAt c) = (.ok (), d) := by
  obtain ⟨d, hpass, hmatch⟩ := k.matchAt_eq c
  rw [hm, List.take_length] at hpass
  exact ⟨d, hpass, by simp [hmatch, hm, Outcome.split]⟩

theorem matchAt_of_differs (hm : k.common c.ahead < k.length)
    (hs : k.common c.ahead < c.ahead.length) :
    ∃ d, Passes c (k.take (k.common c.ahead)) d ∧
      Outcome.split (k.matchAt c) = (.error (.unexpectedKeyword d.position), d) := by
  obtain ⟨d, hpass, hmatch⟩ := k.matchAt_eq c
  have hx := (hpass.lands (k.length_take_common _) hs).1
  refine ⟨d, hpass, ?_⟩
  simp [hmatch, Nat.ne_of_lt hm, Cursor.isSeated, hx, Outcome.split, Cursor.unexpectedKeyword]

theorem matchAt_of_ends (hm : k.common c.ahead < k.length)
    (hs : k.common c.ahead = c.ahead.length) :
    ∃ d, Passes c (k.take (k.common c.ahead)) d ∧
      Outcome.split (k.matchAt c) = (.error .endOfFile, d) := by
  obtain ⟨d, hpass, hmatch⟩ := k.matchAt_eq c
  have hx := hpass.leaves (k.length_take_common _) hs
  refine ⟨d, hpass, ?_⟩
  simp [hmatch, Nat.ne_of_lt hm, Cursor.isSeated, hx, Outcome.split]

/-- The match sees no further than one code point behind the keyword. -/
theorem matchAt_alikeFor (h : Cursor.AlikeFor k.length c d) :
    (Outcome.split (k.matchAt c)).1 = (Outcome.split (k.matchAt d)).1 ∧
      Cursor.AlikeFor 0 (Outcome.split (k.matchAt c)).2 (Outcome.split (k.matchAt d)).2 := by
  induction k generalizing c d with
  | nil => exact ⟨rfl, h⟩
  | cons k rest ih =>
    unfold matchAt
    rw [← h.current]
    cases c.current with
    | none => exact ⟨rfl, h.weaken⟩
    | some x =>
      simp only
      split
      · exact ih h.move
      · exact ⟨by simp [Outcome.split, Cursor.unexpectedKeyword, h.position], h.weaken⟩

theorem matchAt_alike (k : Keyword) (h : c.Alike d) :
    (Outcome.split (k.matchAt c)).1 = (Outcome.split (k.matchAt d)).1 ∧
      (Outcome.split (k.matchAt c)).2.Alike (Outcome.split (k.matchAt d)).2 := by
  rcases (Simulation.respects_matchAt (S := .alike) k h).cases with
    ⟨_, c', d', hc, hd, h'⟩ | ⟨e, f, c', d', hc, hd, he, h'⟩
  · rw [hc, hd]
    exact ⟨rfl, h'⟩
  · rw [hc, hd]
    exact ⟨congrArg Except.error he, h'⟩

/-- How a match ends, by the longest common beginning of the keyword and of what
is ahead. It is met whole where the keyword is that beginning. Else it fails on
the code point that differs, or at the end of the text. It sees no further than
one code point behind the keyword, and cursors that took in one text in different
chunks cannot be told apart by it. -/
theorem matchAt_stops_behind_common (k : Keyword) (c : Cursor) :
    let s := c.ahead
    let m := k.common s
    let result := (Outcome.split (k.matchAt c)).1
    let d := (Outcome.split (k.matchAt c)).2
    IsGreatest {n | ∃ w, w <+: k ∧ w <+: s ∧ w.length = n} m ∧
    (k = [] → result = .ok () ∧ d = c) ∧
    (k ≠ [] → c.current = none → result = .error .endOfFile ∧ d = c) ∧
    (k ≠ [] → c.isSeated = true →
      (m = k.length → result = .ok () ∧
        (∀ h : k.length < s.length, d.current = some s[k.length] ∧
          d.unvisited = s.drop (k.length + 1) ∧ d.index = c.index + k.length) ∧
        (s.length = k.length →
          d.isExhausted = true ∧ d.index = c.index + (k.length - 1))) ∧
      (m < k.length → ∀ h : m < s.length,
        result = .error (.unexpectedKeyword d.position) ∧
          d.position = c.position.after c.endsLine (c.unvisited.take m) ∧
          d.current = some s[m] ∧ d.unvisited = s.drop (m + 1) ∧ d.index = c.index + m) ∧
      (m < k.length → m = s.length →
        result = .error .endOfFile ∧ d.isExhausted = true ∧
          d.index = c.index + (s.length - 1))) ∧
    (∀ c', Cursor.AlikeFor k.length c c' →
      (Outcome.split (k.matchAt c')).1 = result ∧
        Cursor.AlikeFor 0 d (Outcome.split (k.matchAt c')).2) ∧
    ∀ (endsLine : Char → Bool) (first second : List Operation),
      let c₁ := Cursor.after { endsLine := endsLine } first
      let c₂ := Cursor.after { endsLine := endsLine } second
      first.flatMap Operation.chunk = second.flatMap Operation.chunk →
      c₁.index = c₂.index → c₁.current.isSome = c₂.current.isSome →
      (Outcome.split (k.matchAt c₁)).1 = (Outcome.split (k.matchAt c₂)).1 ∧
        (Outcome.split (k.matchAt c₁)).2.Alike (Outcome.split (k.matchAt c₂)).2 := by
  intro s m result d
  have hlength : (k.take m).length = m := k.length_take_common s
  refine ⟨k.isGreatest_common s, ?_, fun hk hc => ?_, fun hk hc => ⟨fun hm => ?_, fun hm hs => ?_,
    fun hm hs => ?_⟩, fun c' h => ?_, fun endsLine first second ht hi hseat => ?_⟩
  · rintro rfl
    exact ⟨rfl, rfl⟩
  · obtain ⟨x, rest, rfl⟩ := List.exists_cons_of_ne_nil hk
    simp only [result, d, matchAt, hc, Outcome.split, and_self]
  · obtain ⟨e, hpass, hmatch⟩ := matchAt_of_whole hm
    simp only [result, d, hmatch, true_and]
    refine ⟨fun hlt => ?_, fun hall => ?_⟩
    · obtain ⟨hx, hunvisited, hindex, -⟩ := hpass.lands rfl hlt
      exact ⟨hx, hunvisited, hindex⟩
    · exact hpass.exhausts rfl (List.length_pos_iff.mpr hk) hall.symm
  · obtain ⟨e, hpass, hmatch⟩ := matchAt_of_differs hm hs
    obtain ⟨hx, hunvisited, hindex, hposition⟩ := hpass.lands hlength hs
    simp only [result, d, hmatch, true_and]
    exact ⟨hposition, hx, hunvisited, hindex⟩
  · obtain ⟨e, hpass, hmatch⟩ := matchAt_of_ends hm hs
    have hpos : 0 < s.length := by
      obtain ⟨x, hx⟩ := Option.isSome_iff_exists.mp hc
      simp [s, Cursor.ahead_of_some hx]
    simp only [result, d, hmatch, true_and]
    exact hs ▸ hpass.exhausts hlength (hs ▸ hpos) hs
  · obtain ⟨hresult, hleft⟩ := matchAt_alikeFor h
    exact ⟨hresult.symm, hleft⟩
  · exact k.matchAt_alike (Cursor.alike_after endsLine ht hi hseat)

end Keyword

end TextStream
