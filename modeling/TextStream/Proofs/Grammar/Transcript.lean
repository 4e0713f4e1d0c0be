import TextStream.Proofs.Assembly.Tree
import TextStream.Proofs.Session.Diagnosis
import TextStream.Proofs.Session.Schedule

/-!
# Which texts have a transcript

A transcript is made of a text in which parentheses match and no exclamation mark
occurs. Any other text is refused at its first code point that no such text can
have there, or at its end if a parenthesis is still open. Whether parentheses
match is said without a counter, and the counter is shown to agree.
-/

namespace TextStream

-- ---------------------------------------------------------------------------
-- Matching parentheses
-- ---------------------------------------------------------------------------

namespace Transcript

/-- Every parenthesis has its partner. Other code points stand anywhere. -/
inductive Balanced : List Char → Prop where
  | nil : Balanced []
  | other {x : Char} {w : List Char} : x ≠ '(' → x ≠ ')' → Balanced w → Balanced (x :: w)
  | nest {u w : List Char} : Balanced u → Balanced w → Balanced ('(' :: (u ++ ')' :: w))

/-- An opening parenthesis has no partner: wherever a closing one follows, the
text between the two is not balanced. -/
def LeftOpen (w : List Char) : Prop :=
  ∃ u v, w = u ++ '(' :: v ∧ ∀ b r, v = b ++ ')' :: r → ¬ Balanced b

/-- No balanced text has this code point there, whatever comes behind it. -/
def Misplaced (text : List Char) (i : Nat) : Prop :=
  text[i]? = some '!' ∨ text[i]? = some ')' ∧ ¬ LeftOpen (text.take i)

theorem Misplaced.lt {text : List Char} {i : Nat} (h : Misplaced text i) : i < text.length := by
  rcases h with h | ⟨h, -⟩
  · exact (List.getElem?_eq_some_iff.mp h).1
  · exact (List.getElem?_eq_some_iff.mp h).1

theorem exists_misplaced {text : List Char} (h : '!' ∈ text) : ∃ i, Misplaced text i := by
  obtain ⟨i, hi, hx⟩ := List.mem_iff_getElem.mp h
  exact ⟨i, .inl (by rw [List.getElem?_eq_getElem hi, hx])⟩

namespace Balanced

variable {w v b r : List Char}

theorem append (hw : Balanced w) (hv : Balanced v) : Balanced (w ++ v) := by
  induction hw with
  | nil => exact hv
  | other ho hc _ ih => exact .other ho hc ih
  | nest hu _ _ ihw => simpa using Balanced.nest hu ihw

theorem one {x : Char} (ho : x ≠ '(') (hc : x ≠ ')') : Balanced [x] :=
  .other ho hc .nil

theorem count_eq (h : Balanced w) : w.count ')' = w.count '(' := by
  induction h with
  | nil => rfl
  | other ho hc _ ih => simpa [List.count_cons, ho, hc] using ih
  | nest _ _ ihu ihw =>
    simp only [List.count_cons, List.count_append, ihu, ihw]
    simp
    omega

/-- From the left, no more parentheses are closed than were opened. -/
theorem count_take_le (h : Balanced w) (n : Nat) :
    (w.take n).count ')' ≤ (w.take n).count '(' := by
  induction h generalizing n with
  | nil => simp
  | other ho hc _ ih =>
    cases n with
    | zero => simp
    | succ n => simpa [List.count_cons, ho, hc] using ih n
  | @nest u w _ _ ihu ihw =>
    cases n with
    | zero => simp
    | succ n =>
      rw [List.take_succ_cons, List.take_append]
      cases n - u.length with
      | zero => simpa [List.count_cons] using Nat.le_succ_of_le (ihu n)
      | succ m =>
        have hu := ihu n
        have hw := ihw m
        simp
        omega

/-- What stands before a closing parenthesis of a balanced text is not balanced. -/
theorem not_before_close (h : Balanced (b ++ ')' :: r)) : ¬ Balanced b := by
  intro hb
  have hle := h.count_take_le (b.length + 1)
  have heq := hb.count_eq
  simp [List.take_append, List.take_of_length_le, heq] at hle

/-- Every opening parenthesis of a balanced text has a partner. -/
theorem exists_partner (h : Balanced w) {u : List Char} (hw : w = u ++ '(' :: v) :
    ∃ b r, v = b ++ ')' :: r ∧ Balanced b := by
  induction h generalizing u v with
  | nil => simp at hw
  | other ho _ _ ih =>
    cases u with
    | nil => exact absurd (List.head_eq_of_cons_eq hw) ho
    | cons y u => exact ih (List.tail_eq_of_cons_eq hw)
  | @nest u₁ w₁ hu₁ _ ihu ihw =>
    cases u with
    | nil => exact ⟨u₁, w₁, (List.tail_eq_of_cons_eq hw).symm, hu₁⟩
    | cons y u =>
      rcases List.append_eq_append_iff.mp (List.tail_eq_of_cons_eq hw) with
        ⟨s, rfl, hs⟩ | ⟨s, rfl, hs⟩
      · -- it stands behind the first pair, or would be that pair's other half
        cases s with
        | nil => exact absurd (List.head_eq_of_cons_eq hs) (by decide)
        | cons z s => exact ihw (List.tail_eq_of_cons_eq hs)
      · cases s with
        | nil => exact absurd (List.head_eq_of_cons_eq hs) (by decide)
        | cons z s =>
          obtain ⟨rfl, rfl⟩ := List.cons.inj hs
          obtain ⟨b, r, rfl, hb⟩ := ihu rfl
          exact ⟨b, r ++ ')' :: w₁, by simp, hb⟩

theorem not_leftOpen (h : Balanced w) : ¬ LeftOpen w := by
  rintro ⟨u, v, hw, hopen⟩
  obtain ⟨b, r, hv, hb⟩ := h.exists_partner hw
  exact hopen b r hv hb

theorem leftOpen_behind (h : Balanced v) (u : List Char) : LeftOpen (u ++ '(' :: v) :=
  ⟨u, v, rfl, fun _ _ hv => (hv ▸ h).not_before_close⟩

end Balanced

-- ---------------------------------------------------------------------------
-- Counting what is open
-- ---------------------------------------------------------------------------

/-- Balanced texts with `n` opening parentheses between them. -/
inductive Nested : Nat → List Char → Prop where
  | closed {w : List Char} : Balanced w → Nested 0 w
  | opened {n : Nat} {u v : List Char} : Nested n u → Balanced v → Nested (n + 1) (u ++ '(' :: v)

theorem nesting?_eq_none_iff {n : Nat} {x : Char} :
    nesting? n x = none ↔ x = '!' ∨ x = ')' ∧ n = 0 := by
  unfold nesting?
  by_cases hbang : x = '!'
  · simp [hbang]
  · by_cases hclose : x = ')'
    · simp [hclose]
    · by_cases hopen : x = '(' <;> simp [hbang, hclose, hopen]

namespace Nested

variable {n m : Nat} {w v : List Char} {x : Char}

theorem balanced (h : Nested 0 w) : Balanced w := by
  cases h with
  | closed hw => exact hw

theorem append (h : Nested n w) (hv : Balanced v) : Nested n (w ++ v) := by
  cases h with
  | closed hw => exact .closed (hw.append hv)
  | opened hu hw => simpa using Nested.opened hu (hw.append hv)

theorem leftOpen_iff (h : Nested n w) : LeftOpen w ↔ n ≠ 0 := by
  cases h with
  | closed hw => simpa using hw.not_leftOpen
  | opened _ hv => simpa using hv.leftOpen_behind _

/-- One more code point, where it may stand. -/
theorem step (h : Nested n w) (hx : nesting? n x = some m) : Nested m (w ++ [x]) := by
  unfold nesting? at hx
  split at hx
  · exact nomatch hx
  · split at hx
    · next ho =>
      obtain rfl := Option.some.inj hx
      exact ho ▸ .opened h .nil
    · next ho =>
      split at hx
      · next hc =>
        cases h with
        | closed _ => exact nomatch hx
        | @opened k u v hu hv =>
          obtain rfl : k = m := by simpa using hx
          subst hc
          simpa using hu.append (.nest hv .nil)
      · next hc =>
        obtain rfl := Option.some.inj hx
        exact h.append (.one ho hc)

/-- The counter stops where no balanced text goes on. -/
theorem misplaced_iff (h : Nested n w) (x : Char) (r : List Char) :
    Misplaced (w ++ x :: r) w.length ↔ nesting? n x = none := by
  have hx : (w ++ x :: r)[w.length]? = some x := by simp
  have hw : (w ++ x :: r).take w.length = w := by simp
  rw [Misplaced, hx, hw, h.leftOpen_iff, nesting?_eq_none_iff, Option.some.injEq,
    Option.some.injEq, not_not]

end Nested

/-- The open parentheses after a text, or `none` where some code point may not stand. -/
def nestingAfter? (n : Nat) (w : List Char) : Option Nat :=
  w.foldlM nesting? n

theorem nestingAfter?_append {n : Nat} {w v : List Char} :
    nestingAfter? n (w ++ v) = (nestingAfter? n w).bind fun m => nestingAfter? m v :=
  List.foldlM_append

theorem nested_of_nestingAfter? {n : Nat} {w : List Char} (h : nestingAfter? 0 w = some n) :
    Nested n w := by
  induction w using List.reverseRecOn generalizing n with
  | nil =>
    obtain rfl := Option.some.inj h
    exact .closed .nil
  | append_singleton w x ih =>
    rw [nestingAfter?_append, Option.bind_eq_some_iff] at h
    obtain ⟨m, hm, hx⟩ := h
    exact (ih hm).step (by simpa [nestingAfter?] using hx)

/-- Either the whole text can be counted through, or some code point stops that. -/
theorem nestingAfter?_cases (text : List Char) :
    (∃ n, nestingAfter? 0 text = some n) ∨
      ∃ w x r n, text = w ++ x :: r ∧ nestingAfter? 0 w = some n ∧ nesting? n x = none := by
  induction text using List.reverseRecOn with
  | nil => exact .inl ⟨0, rfl⟩
  | append_singleton text y ih =>
    rcases ih with ⟨n, hn⟩ | ⟨w, x, r, n, rfl, hn, hx⟩
    · cases hy : nesting? n y with
      | none => exact .inr ⟨text, y, [], n, rfl, hn, hy⟩
      | some m =>
      refine .inl ⟨m, ?_⟩
      rw [nestingAfter?_append, hn]
      simpa [nestingAfter?] using hy
    · exact .inr ⟨w, x, r ++ [y], n, by simp, hn, hx⟩

/-- No code point is misplaced in what was counted through. -/
theorem not_misplaced {n : Nat} {w : List Char} (h : nestingAfter? 0 w = some n) (r : List Char)
    {i : Nat} (hi : i < w.length) : ¬ Misplaced (w ++ r) i := by
  obtain ⟨u, x, v, rfl, rfl⟩ : ∃ u x v, w = u ++ x :: v ∧ u.length = i :=
    ⟨w.take i, w[i], w.drop (i + 1), by simp, List.length_take_of_le hi.le⟩
  rw [nestingAfter?_append, Option.bind_eq_some_iff] at h
  obtain ⟨m, hm, hrest⟩ := h
  rw [List.append_assoc, List.cons_append, (nested_of_nestingAfter? hm).misplaced_iff]
  intro hx
  simp [nestingAfter?, hx] at hrest

theorem not_misplaced_of_nestingAfter? {n : Nat} {text : List Char}
    (h : nestingAfter? 0 text = some n) (i : Nat) : ¬ Misplaced text i := fun hi =>
  not_misplaced h [] hi.lt (by rwa [List.append_nil])

theorem isLeast_misplaced {n : Nat} {w r : List Char} {x : Char}
    (hw : nestingAfter? 0 w = some n) (hx : nesting? n x = none) :
    IsLeast {i | Misplaced (w ++ x :: r) i} w.length := by
  refine ⟨((nested_of_nestingAfter? hw).misplaced_iff x r).mpr hx, fun i hi => ?_⟩
  by_contra hlt
  exact not_misplaced hw _ (Nat.lt_of_not_le hlt) hi

theorem nestingAfter?_eq_zero_iff {text : List Char} :
    nestingAfter? 0 text = some 0 ↔ Balanced text ∧ '!' ∉ text := by
  constructor
  · intro h
    refine ⟨(nested_of_nestingAfter? h).balanced, fun hbang => ?_⟩
    obtain ⟨i, hi⟩ := exists_misplaced hbang
    exact not_misplaced_of_nestingAfter? h i hi
  · rintro ⟨hbalanced, hbang⟩
    rcases nestingAfter?_cases text with ⟨n, hn⟩ | ⟨w, x, r, n, rfl, hn, hx⟩
    · have h0 : n = 0 := by
        simpa [(nested_of_nestingAfter? hn).leftOpen_iff] using hbalanced.not_leftOpen
      rw [hn, h0]
    · rcases nesting?_eq_none_iff.mp hx with rfl | ⟨rfl, rfl⟩
      · exact absurd (by simp) hbang
      · exact absurd (nested_of_nestingAfter? hn).balanced hbalanced.not_before_close

-- ---------------------------------------------------------------------------
-- What is reported
-- ---------------------------------------------------------------------------

/-- The children of a transcript, with positions counted from `p` on. -/
def children (endsLine : Char → Bool) (p : Position) (w : List Char) : List Value :=
  w.mapIdx fun j x => entry x (p.after endsLine (w.take (j + 1)))

theorem children_cons (endsLine : Char → Bool) (p : Position) (x : Char) (w : List Char) :
    children endsLine p (x :: w) =
      entry x (p.next (endsLine x)) :: children endsLine (p.next (endsLine x)) w :=
  List.mapIdx_cons

/-- Code points that may stand where they do are reported one by one. -/
theorem entries_of_nestingAfter? {n m : Nat} {w r : List Char} {b : Cursor}
    (hb : b.unvisited = w ++ r) (hw : nestingAfter? n w = some m) :
    ∃ d : Cursor, d.unvisited = r ∧ d.position = b.position.after b.endsLine w ∧
      d.endsLine = b.endsLine ∧ (entries n b.move).ended = (entries m d.move).ended ∧
      (entries n b.move).values =
        (children b.endsLine b.position w).map (fun v => .child v none) ++
          (entries m d.move).values := by
  induction w generalizing n b with
  | nil =>
    obtain rfl := Option.some.inj hw
    exact ⟨b, hb, rfl, rfl, rfl, rfl⟩
  | cons x w ih =>
    have hmove := Cursor.move_of_cons (show b.unvisited = x :: (w ++ r) from hb)
    obtain ⟨k, hk, hw⟩ := Option.bind_eq_some_iff.mp hw
    have hunvisited : b.move.unvisited = w ++ r := by rw [Cursor.unvisited_move, hb]; rfl
    obtain ⟨d, hd, hposition, hends, hended, hvalues⟩ := ih hunvisited hw
    have hentries : entries n b.move =
        .report (.child (entry x b.move.position) none) b.move (entries k b.move.move) := by
      rw [entries_eq]
      simp only [Cursor.current_move, hb, List.cons_append, List.head?_cons, hk]
    have hp : b.move.position = b.position.next (b.endsLine x) := by rw [hmove]
    have he : b.move.endsLine = b.endsLine := by rw [hmove]
    refine ⟨d, hd, ?_, hends.trans he, ?_, ?_⟩
    · rw [hposition, hp, he]
      rfl
    · rw [hentries]
      exact hended
    · rw [hentries, children_cons, ← hp, ← he]
      show _ :: (entries k b.move.move).values = _
      rw [hvalues]
      rfl

-- ---------------------------------------------------------------------------
-- Verdicts on transcripts
-- ---------------------------------------------------------------------------

/-- The verdict on a text that is parsed whole as a transcript. -/
def verdict (options : Options) (text : List Char) : Verdict Value :=
  ((Session.new options).parse text Tree.assembler none (some (.grammar finish))).verdict

variable {options : Options} {text w r : List Char} {n : Nat} {x : Char}

theorem verdict_eq (hne : text ≠ []) :
    verdict options text =
      options.judge Tree.assembler none (finish (.atStart options.endsLine text)) := by
  rw [verdict, Session.verdict_parse, if_neg hne]

theorem verdict_of_misplaced (hw : nestingAfter? 0 w = some n) (hx : nesting? n x = none) :
    verdict options (w ++ x :: r) =
      let p := Position.after options.endsLine {} (w ++ [x])
      options.refuse (.unexpectedCharacter p) p := by
  obtain ⟨d, hd, hposition, hends, hended, -⟩ :=
    entries_of_nestingAfter? (b := .before options.endsLine (w ++ x :: r)) (w := w) rfl hw
  have hp : d.move.position = Position.after options.endsLine {} (w ++ [x]) := by
    rw [Cursor.move_of_cons hd, Position.after_append, hposition, hends]
    rfl
  have hfail : entries n d.move = .fail d.move.unexpectedCharacter d.move := by
    rw [entries_eq]
    simp only [Cursor.current_move, hd, List.head?_cons, hx]
  have hend : (finish (.atStart options.endsLine (w ++ x :: r))).ended =
      .error (.unexpectedCharacter (Position.after options.endsLine {} (w ++ [x]))) d.move := by
    rw [← hp]
    exact hended.trans (congrArg Trail.ended hfail)
  rw [verdict_eq (by simp), Options.judge, hend]
  simp only [hp]

theorem verdict_of_nestingAfter? (hne : text ≠ []) (h : nestingAfter? 0 text = some n) :
    verdict options text =
      if n = 0 then .ok (.array (children options.endsLine {} text))
      else options.refuse .endOfFile (Position.after options.endsLine {} text) := by
  obtain ⟨d, hd, hposition, -, hended, hvalues⟩ := entries_of_nestingAfter?
    (b := .before options.endsLine text) (w := text) (List.append_nil _).symm h
  have hentries : entries n d.move =
      if n = 0 then .report .complete d.move (.done d.move) else .fail .endOfFile d.move := by
    rw [entries_eq]
    simp only [Cursor.current_move, hd, List.head?_nil]
  rw [verdict_eq hne]
  split
  · next hn =>
    rw [hentries, if_pos hn] at hended hvalues
    refine Options.judge_eq_ok_iff.mpr ⟨d.move, hended, ?_⟩
    show Tree.assembler.output ((Event.start (.array []) ::
      (entries 0 (Cursor.before options.endsLine text).move).values).foldl Tree.receive none) = _
    rw [hvalues]
    exact Tree.foldl_array_root none _
  · next hn =>
    rw [hentries, if_neg hn] at hended
    have hp : d.move.position = Position.after options.endsLine {} text := by
      rw [Cursor.move_of_nil hd]
      exact hposition
    have hend : (finish (.atStart options.endsLine text)).ended = .error .endOfFile d.move := hended
    rw [Options.judge, hend, ← hp]

theorem verdict_ok_iff (hne : text ≠ []) :
    (∃ v, verdict options text = .ok v) ↔ nestingAfter? 0 text = some 0 := by
  constructor
  · rintro ⟨v, hv⟩
    rcases nestingAfter?_cases text with ⟨n, hn⟩ | ⟨w, x, r, n, rfl, hn, hx⟩
    · rw [verdict_of_nestingAfter? hne hn] at hv
      split at hv
      · next h0 => rw [hn, h0]
      · exact absurd hv (Options.refuse_ne_ok _ _ _ _)
    · rw [verdict_of_misplaced hn hx] at hv
      exact absurd hv (Options.refuse_ne_ok _ _ _ _)
  · intro h
    exact ⟨_, verdict_of_nestingAfter? hne h⟩

/-- Where the `j`-th code point of a text stands: the line ends up to it, and the
code points behind the last of them. -/
def place (endsLine : Char → Bool) (text : List Char) (j : Nat) : Position :=
  let read := text.take (j + 1)
  ⟨read.countP endsLine, (read.reverse.takeWhile fun x => !endsLine x).length⟩

theorem place_eq (endsLine : Char → Bool) (text : List Char) (j : Nat) :
    place endsLine text j = Position.after endsLine {} (text.take (j + 1)) :=
  (Position.after_eq endsLine _).symm

/-- A text has a transcript just if its parentheses match and it has no exclamation
mark. The transcript lists its code points with their positions. Otherwise the
first misplaced code point is reported, or else that the text ends too early. -/
theorem lists_balanced_texts (options : Options) (text : List Char) (hne : text ≠ []) :
    let p := place options.endsLine text
    ((∃ v, verdict options text = .ok v) ↔ Balanced text ∧ '!' ∉ text) ∧
    (∀ i, IsLeast {i | Misplaced text i} i →
      verdict options text = options.refuse (.unexpectedCharacter (p i)) (p i)) ∧
    ((∀ i, ¬ Misplaced text i) →
      (LeftOpen text →
        verdict options text = options.refuse .endOfFile (p (text.length - 1))) ∧
      (¬ LeftOpen text →
        verdict options text = .ok (.array (text.mapIdx fun j x =>
          .string (Text.quoted x ++ "@" ++
            (toString (p j).line ++ ":" ++ toString (p j).character)))))) := by
  intro p
  refine ⟨(verdict_ok_iff hne).trans nestingAfter?_eq_zero_iff, fun i hi => ?_, fun hnone => ?_⟩
  · rcases nestingAfter?_cases text with ⟨n, hn⟩ | ⟨w, x, r, n, rfl, hn, hx⟩
    · exact absurd hi.1 (not_misplaced_of_nestingAfter? hn i)
    · obtain rfl : i = w.length := hi.unique (isLeast_misplaced hn hx)
      have htake : (w ++ x :: r).take (w.length + 1) = w ++ [x] := by simp [List.take_append]
      rw [verdict_of_misplaced hn hx]
      simp only [p, place_eq, htake]
  · rcases nestingAfter?_cases text with ⟨n, hn⟩ | ⟨w, x, r, n, rfl, hn, hx⟩
    · have hiff := (nested_of_nestingAfter? hn).leftOpen_iff
      refine ⟨fun hopen => ?_, fun hopen => ?_⟩
      · have hlast : text.length - 1 + 1 = text.length :=
          Nat.sub_add_cancel (List.length_pos_iff.mpr hne)
        rw [verdict_of_nestingAfter? hne hn, if_neg (hiff.mp hopen)]
        simp only [p, place_eq, hlast, List.take_length]
      · rw [verdict_of_nestingAfter? hne hn, if_pos (by simpa [hiff] using hopen)]
        simp only [p, place_eq]
        rfl
    · exact absurd (isLeast_misplaced hn hx).1 (hnone _)

/-- The first closing parenthesis has a partner, the second has none. -/
theorem lists_balanced_texts_stray_close :
    "(a\r)b)".toList ≠ [] ∧
      verdict {} "(a\r)b)".toList = .failed (.unexpectedCharacter ⟨1, 3⟩) := by
  have hne : "(a\r)b)".toList ≠ [] := by decide
  have hleast : IsLeast {i | Misplaced "(a\r)b)".toList i} 5 :=
    isLeast_misplaced (w := "(a\r)b".toList) (n := 0) (r := []) rfl rfl
  exact ⟨hne, ((lists_balanced_texts {} _ hne).2.1 5 hleast).trans rfl⟩

end Transcript

end TextStream
