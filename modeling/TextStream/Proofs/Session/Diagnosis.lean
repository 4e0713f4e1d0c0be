import TextStream.Proofs.Document.Protocol
import TextStream.Proofs.Document.Refusal

/-!
# What an error says about a text

A text that is not accepted is either too short or wrong. An error that points
at a code point points at the first one that rules the text out. Any error that
is not about the end of the text stays the same whatever more is to come.
-/

namespace TextStream

-- ---------------------------------------------------------------------------
-- Positions
-- ---------------------------------------------------------------------------

namespace Position

/-- Reading on ends up further down, or further along in the same line. -/
theorem after_cases (endsLine : Char → Bool) (p : Position) (w : List Char) :
    p.line < (p.after endsLine w).line ∨
      (p.after endsLine w).line = p.line ∧
        (p.after endsLine w).character = p.character + w.length := by
  induction w generalizing p with
  | nil => exact .inr ⟨rfl, rfl⟩
  | cons x w ih =>
    have hrest : p.after endsLine (x :: w) = (p.next (endsLine x)).after endsLine w := rfl
    rw [hrest, List.length_cons]
    have hcases := ih (p.next (endsLine x))
    cases hx : endsLine x with
    | true =>
      simp only [hx, next, ↓reduceIte] at hcases ⊢
      omega
    | false =>
      simp only [hx, next, Bool.false_eq_true, ↓reduceIte] at hcases ⊢
      omega

theorem after_ne (endsLine : Char → Bool) (p : Position) {w : List Char} (hw : w ≠ []) :
    p.after endsLine w ≠ p := by
  intro h
  have hlen := List.length_pos_iff.mpr hw
  rcases after_cases endsLine p w with hline | ⟨-, hcharacter⟩
  · rw [h] at hline
    exact Nat.lt_irrefl _ hline
  · rw [h] at hcharacter
    omega

/-- A longer part of a text ends at another position. -/
theorem after_take_ne (endsLine : Char → Bool) (p : Position) {text : List Char} {i j : Nat}
    (hij : i < j) (hj : j ≤ text.length) :
    p.after endsLine (text.take j) ≠ p.after endsLine (text.take i) := by
  have hsplit := List.take_append_drop i (text.take j)
  rw [List.take_take, Nat.min_eq_left hij.le] at hsplit
  rw [← hsplit, after_append]
  exact after_ne _ _ (List.ne_nil_of_length_pos (by simp; omega))

end Position

namespace Visits

variable {c d : Cursor} {w : List Char}

theorem walk (h : Visits c w d) : (c.walk w.length).2 = d := by
  induction h with
  | nil => rfl
  | @cons c d x w hx _ ih =>
    have hadv : c.advance = .ok x c.move := Cursor.advance_eq_ok_iff.mpr ⟨rfl, hx⟩
    simp only [List.length_cons, Cursor.walk, hadv]
    exact ih

end Visits

namespace Cursor

/-- A cursor before a text that was delivered in one piece. -/
def before (endsLine : Char → Bool) (text : List Char) : Cursor :=
  Cursor.extend { endsLine := endsLine } text

variable {endsLine : Char → Bool} {text : List Char}

/-- Where a walk over part of a text ends. -/
theorem position_walk {i : Nat} (hi : i ≤ text.length) :
    ((before endsLine text).walk i).2.position = Position.after endsLine {} (text.take i) := by
  have hsplit : (before endsLine text).unvisited = text.take i ++ text.drop i :=
    (List.take_append_drop i text).symm
  obtain ⟨d, hd⟩ := Visits.of_unvisited hsplit
  have hlen : (text.take i).length = i := List.length_take_of_le hi
  rw [← hlen, hd.walk, hd.position, hlen]
  rfl

/-- The code point that a cursor stands on within a text is the only one at its position. -/
theorem position_walk_iff {w r : List Char} {x : Char} {d : Cursor}
    (h : Passes (.atStart endsLine (w ++ x :: r)) w d) (hx : d.current = some x) (j : Nat) :
    (1 ≤ j ∧ j ≤ (w ++ x :: r).length ∧
      ((before endsLine (w ++ x :: r)).walk j).2.position = d.position) ↔ j = w.length + 1 := by
  obtain ⟨f, hvisits, rfl⟩ := Visits.of_passes (c := before endsLine (w ++ x :: r)) h
  have hlen : w.length + 1 ≤ (w ++ x :: r).length := by simp
  have htake : (w ++ x :: r).take (w.length + 1) = w ++ [x] := by simp [List.take_append]
  have hposition : f.move.position =
      Position.after endsLine {} ((w ++ x :: r).take (w.length + 1)) := by
    rw [(hvisits.append (.cons hx (.nil _))).position, htake]
    rfl
  constructor
  · rintro ⟨-, hj, hwalk⟩
    rw [position_walk hj, hposition] at hwalk
    rcases Nat.lt_trichotomy j (w.length + 1) with hlt | heq | hlt
    · exact absurd hwalk.symm (Position.after_take_ne _ _ hlt hlen)
    · exact heq
    · exact absurd hwalk (Position.after_take_ne _ _ hlt hj)
  · rintro rfl
    exact ⟨Nat.le_add_left _ _, hlen, by rw [position_walk hlen, hposition]⟩

end Cursor

-- ---------------------------------------------------------------------------
-- Verdicts on documents
-- ---------------------------------------------------------------------------

/-- The error that a verdict passes on, also where it is fatal. -/
def Verdict.error? {ω : Type} : Verdict ω → Option ParseError
  | .failed e | .aborted (.parseFailed _ e) => some e
  | .ok _ | .aborted _ => none

theorem Options.error?_refuse {ω : Type} (o : Options) (e : ParseError) (pos : Position) :
    (o.refuse e pos : Verdict ω).error? = some e := by
  unfold refuse
  split <;> rfl

namespace Document

/-- The verdict on a text that is parsed whole as a document. -/
def verdict (options : Options) (text : List Char) : Verdict Value :=
  ((Session.new options).parse text Tree.assembler none (some (.grammar finish))).verdict

variable {options : Options} {text more : List Char} {e : ParseError} {d : Cursor}

theorem verdict_nil (options : Options) : verdict options [] = options.refuse .emptyInput {} :=
  Session.verdict_parse _ _ _ _ _

theorem verdict_eq_ok_iff {v : Value} : verdict options text = .ok v ↔ Means text v := by
  unfold verdict
  rw [Session.verdict_parse]
  split
  · next hnil => simp [hnil, Options.refuse_ne_ok, not_means_nil]
  · rw [judge_finish_iff, Cursor.ahead_atStart]

theorem verdict_of_ended_error (hne : text ≠ [])
    (h : (finish (.atStart options.endsLine text)).ended = .error e d) :
    verdict options text = options.refuse e d.position := by
  unfold verdict
  rw [Session.verdict_parse, if_neg hne, Options.judge, h]

theorem verdict_of_ended_ok (hne : text ≠ [])
    (h : (finish (.atStart options.endsLine text)).ended = .ok () d) :
    ∃ v, verdict options text = .ok v := by
  obtain ⟨v, f, hv⟩ := (value_ok_iff_ended _).mpr (.inl ⟨d, h⟩)
  obtain ⟨w, -, hevents⟩ := announces_of_value hv
  unfold verdict
  rw [Session.verdict_parse, if_neg hne]
  exact ⟨v, Options.judge_eq_ok_iff.mpr ⟨d, h, hevents.folded none⟩⟩

/-- An error is where the reading stopped. -/
theorem ended_of_error? (hne : text ≠ []) (h : (verdict options text).error? = some e) :
    ∃ d, (finish (.atStart options.endsLine text)).ended = .error e d := by
  cases hend : (finish (.atStart options.endsLine text)).ended with
  | ok _ d =>
    obtain ⟨v, hv⟩ := verdict_of_ended_ok hne hend
    simp [hv, Verdict.error?] at h
  | error e' d =>
    rw [verdict_of_ended_error hne hend, Options.error?_refuse, Option.some.injEq] at h
    exact ⟨d, by rw [h]⟩

-- ---------------------------------------------------------------------------
-- Texts that begin alike
-- ---------------------------------------------------------------------------

theorem shares_atStart (endsLine : Char → Bool) {w : List Char} (hw : w ≠ []) (r r' : List Char) :
    Shares r r' (.atStart endsLine (w ++ r)) (.atStart endsLine (w ++ r')) where
  ahead := ⟨w, hw, Cursor.ahead_atStart _ _, Cursor.ahead_atStart _ _⟩
  position := by
    obtain ⟨x, w, rfl⟩ := List.exists_cons_of_ne_nil hw
    rfl
  endsLine := by
    obtain ⟨x, w, rfl⟩ := List.exists_cons_of_ne_nil hw
    rfl

/-- An error within a text is the verdict on every text that begins like it. -/
theorem verdict_of_shared {w r : List Char} (hw : w ≠ [])
    (h : (finish (.atStart options.endsLine (w ++ r))).ended = .error e d)
    (hd : r.length < d.pending) (r' : List Char) :
    verdict options (w ++ r') = options.refuse e d.position := by
  have hshares := shares_atStart options.endsLine hw r r'
  have hagrees := stepwise_ended_finish.agrees hshares (by rw [h]; exact hd)
  rw [h] at hagrees
  generalize hend : (finish (.atStart options.endsLine (w ++ r'))).ended = o at hagrees
  cases hagrees with
  | error _ hd =>
    rw [verdict_of_ended_error (by simp [hw]) hend, hd.position]

/-- What is behind a cursor that stands within a text. -/
theorem split_at_cursor {endsLine : Char → Bool} {w : List Char}
    (h : Passes (.atStart endsLine text) w d) (hd : d.isSeated = true) :
    ∃ x r, d.current = some x ∧ text = w ++ x :: r ∧ d.pending = r.length + 1 := by
  obtain ⟨x, hx⟩ := Option.isSome_iff_exists.mp hd
  have hahead := h.ahead_eq
  rw [Cursor.ahead_atStart, Cursor.ahead_of_some hx] at hahead
  exact ⟨x, d.unvisited, hx, hahead, by simp [Cursor.pending, hd]⟩

/-- An error with the cursor on a code point stays, and there are two without one. -/
theorem ended_error_cases (hne : text ≠ [])
    (h : (finish (.atStart options.endsLine text)).ended = .error e d) :
    (∀ more, verdict options (text ++ more) = verdict options text) ∨ e = .endOfFile ∨
      e = .unterminatedString := by
  obtain ⟨w, hpass, hexplains⟩ := finish_error h
  have hstays : d.isSeated = true →
      ∀ more, verdict options (text ++ more) = verdict options text := by
    intro hseat more
    obtain ⟨_, _, -, -, hpending⟩ := split_at_cursor hpass hseat
    rw [verdict_of_ended_error hne h]
    exact verdict_of_shared (r := []) hne (by rwa [List.append_nil])
      (by rw [hpending]; exact Nat.succ_pos _) more
  cases hexplains with
  | incomplete _ _ => exact .inr (.inl rfl)
  | misplaced _ hseat _ => exact .inl (hstays hseat)
  | unterminated _ => exact .inr (.inr rfl)
  | malformed hseat => exact .inl (hstays hseat)

end Document

namespace Session

open Document (verdict)

/-- A text that ends too early can go on to be accepted. An error that points at
a code point points at exactly one. What comes before that can be the beginning
of an accepted text, and together with it cannot. -/
theorem errors_located (options : Options) (text : List Char) (hne : text ≠ []) :
    ((verdict options text).error? = some .endOfFile →
      ∃ more v, verdict options (text ++ more) = .ok v) ∧
    ∀ e pos, (verdict options text).error? = some e → e.position? = some pos →
      ∃ i,
        (∀ j, (1 ≤ j ∧ j ≤ text.length ∧
          ((Cursor.before options.endsLine text).walk j).2.position = pos) ↔ j = i) ∧
        (∃ more v, verdict options (text.take (i - 1) ++ more) = .ok v) ∧
        ∀ more v, verdict options (text.take i ++ more) ≠ .ok v := by
  refine ⟨fun h => ?_, fun e pos h hpos => ?_⟩
  · obtain ⟨d, hend⟩ := Document.ended_of_error? hne h
    obtain ⟨w, hpass, hexplains⟩ := Document.finish_error hend
    have hahead := hpass.ahead_eq
    cases hexplains with
    | incomplete hd hviable =>
      rw [Cursor.ahead_atStart, Cursor.ahead_of_none hd, List.append_nil] at hahead
      obtain ⟨more, v, hmeans⟩ := hviable
      exact ⟨more, v, Document.verdict_eq_ok_iff.mpr (hahead ▸ hmeans)⟩
    | misplaced he _ _ => exact nomatch he
  · obtain ⟨d, hend⟩ := Document.ended_of_error? hne h
    obtain ⟨w, hpass, hexplains⟩ := Document.finish_error hend
    cases hexplains with
    | incomplete _ _ => exact nomatch hpos
    | unterminated _ => exact nomatch hpos
    | malformed _ => exact nomatch hpos
    | misplaced he hseat hviable =>
      obtain rfl : d.position = pos := Option.some.inj (he.symm.trans hpos)
      obtain ⟨x, r, hx, rfl, hpending⟩ := Document.split_at_cursor hpass hseat
      refine ⟨w.length + 1, Cursor.position_walk_iff hpass hx, ?_, fun more v => ?_⟩
      · obtain ⟨more, v, hmeans⟩ := hviable
        exact ⟨more, v, Document.verdict_eq_ok_iff.mpr (by simpa using hmeans)⟩
      · have htake : (w ++ x :: r).take (w.length + 1) = w ++ [x] := by simp [List.take_append]
        have hsplit : w ++ x :: r = w ++ [x] ++ r := by simp
        rw [htake, Document.verdict_of_shared (by simp) (hsplit ▸ hend) (by omega) more]
        exact Options.refuse_ne_ok _ _ _ _

/-- A second digit behind a zero, on the second line. -/
theorem errors_located_leading_zero :
    (verdict {} "[1,\r 02]".toList).error? = some (.invalidNumber ⟨1, 3⟩) ∧
    (∃ more v, verdict {} ("[1,\r 0".toList ++ more) = .ok v) ∧
    ∀ more v, verdict {} ("[1,\r 02".toList ++ more) ≠ .ok v := by
  have herror : (verdict {} "[1,\r 02]".toList).error? = some (.invalidNumber ⟨1, 3⟩) := by
    decide +kernel
  obtain ⟨i, hi, hbefore, hwith⟩ :=
    (errors_located {} "[1,\r 02]".toList (by decide)).2 _ ⟨1, 3⟩ herror rfl
  obtain rfl : 7 = i := (hi 7).mp (by decide +kernel)
  exact ⟨herror, hbefore, hwith⟩

/-- An error that is not about the end of the text is the verdict on every text
that begins so. Hence a beginning of an accepted text is accepted, or fails
only because it ends too early. -/
theorem errors_final (options : Options) (text more : List Char) :
    (∀ e, (verdict options text).error? = some e →
      e ∉ [.emptyInput, .endOfFile, .unterminatedString] →
      verdict options (text ++ more) = verdict options text) ∧
    ∀ v, verdict options (text ++ more) = .ok v → text ≠ [] →
      (∃ u, verdict options text = .ok u) ∨
      (verdict options text).error? = some .endOfFile ∨
      (verdict options text).error? = some .unterminatedString := by
  constructor
  · intro e h he
    simp only [List.mem_cons, List.not_mem_nil, or_false, not_or] at he
    have hne : text ≠ [] := by
      rintro rfl
      rw [Document.verdict_nil, Options.error?_refuse, Option.some.injEq] at h
      exact he.1 h.symm
    obtain ⟨d, hend⟩ := Document.ended_of_error? hne h
    rcases Document.ended_error_cases hne hend with hstays | heof | hopen
    · exact hstays more
    · exact absurd heof he.2.1
    · exact absurd hopen he.2.2
  · intro v hv hne
    cases hend : (Document.finish (.atStart options.endsLine text)).ended with
    | ok _ d => exact .inl (Document.verdict_of_ended_ok hne hend)
    | error e d =>
      have herror : (verdict options text).error? = some e := by
        rw [Document.verdict_of_ended_error hne hend, Options.error?_refuse]
      rcases Document.ended_error_cases hne hend with hstays | rfl | rfl
      · exact .inl ⟨v, by rw [← hstays more, hv]⟩
      · exact .inr (.inl herror)
      · exact .inr (.inr herror)

end Session

end TextStream
