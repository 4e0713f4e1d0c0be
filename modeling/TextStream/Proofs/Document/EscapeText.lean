import TextStream.Proofs.Document.Refusal
import TextStream.Proofs.Text.EscapeCalls

/-!
# The text of a Unicode escape

Behind the letter of an escape come the digits of one code point, or of a pair of
surrogates with a second backslash and letter between them. A text that goes
wrong goes wrong at one code point, where reading stops. A text that ends before
it is complete, and before it goes wrong, is unterminated.
-/

namespace TextStream

namespace Visits

variable {c d : Cursor} {w : List Char}

/-- What is not visited yet can be visited, and nothing else. -/
theorem prefix_iff : w <+: c.unvisited ↔ ∃ d, Visits c w d := by
  constructor
  · rintro ⟨r, hr⟩
    exact of_unvisited hr.symm
  · rintro ⟨d, hd⟩
    exact ⟨d.move.ahead, hd.passes.ahead_eq.symm.trans c.ahead_move⟩

/-- The cursor stands on the last code point of what it visited, with the rest behind. -/
theorem stands (h : Visits c w d) :
    d.unvisited = c.unvisited.drop w.length ∧ (w ≠ [] → d.current = w.getLast?) := by
  refine ⟨?_, fun hw => ?_⟩
  · rw [← Cursor.ahead_move, h.passes.ahead_eq_drop rfl, Cursor.ahead_move]
  · obtain ⟨v, y, rfl, -, hy⟩ := h.last hw
    simpa using hy

end Visits

namespace Document

open Text (UnicodeEscape)

variable {c d f : Cursor} {x : Char} {e e' : UnicodeEscape} {err : ParseError} {n : Nat}
  {w : List Char}

def HighSurrogate (m : Nat) : Prop :=
  0xD800 ≤ m ∧ m ≤ 0xDBFF

def LowSurrogate (m : Nat) : Prop :=
  0xDC00 ≤ m ∧ m ≤ 0xDFFF

/-- The digits of two surrogates, with the mark of a second escape between them. -/
inductive Paired : Char → List Char → Prop
  | surrogates {y : Char} {ds es : List Char} {high low : Nat} :
      HexUnit ds high → HighSurrogate high → HexUnit es low → LowSurrogate low →
      y.toNat = 0x10000 + (high - 0xD800) * 0x400 + (low - 0xDC00) →
      Paired y (ds ++ '\\' :: 'u' :: es)

/-- Fewer than `n` digits, and something else behind them. -/
def Interrupted (n : Nat) (w : List Char) : Prop :=
  ∃ ds x, w = ds ++ [x] ∧ ds.length < n ∧ (∀ y ∈ ds, (Text.hexDigit? y).isSome = true) ∧
    Text.hexDigit? x = none

/-- With its last code point the text goes wrong, and not before. -/
inductive Misspelt : List Char → Prop
  | digit {w : List Char} : Interrupted 4 w → Misspelt w
  | lone {ds : List Char} {low : Nat} : HexUnit ds low → LowSurrogate low → Misspelt ds
  | mark {ds : List Char} {high : Nat} {x : Char} :
      HexUnit ds high → HighSurrogate high → x ≠ '\\' → Misspelt (ds ++ [x])
  | letter {ds : List Char} {high : Nat} {x : Char} :
      HexUnit ds high → HighSurrogate high → x ≠ 'u' → Misspelt (ds ++ ['\\', x])
  | secondDigit {ds es : List Char} {high : Nat} :
      HexUnit ds high → HighSurrogate high → Interrupted 4 es → Misspelt (ds ++ '\\' :: 'u' :: es)
  | unpaired {ds es : List Char} {high unit : Nat} :
      HexUnit ds high → HighSurrogate high → HexUnit es unit → ¬ LowSurrogate unit →
      Misspelt (ds ++ '\\' :: 'u' :: es)

-- ---------------------------------------------------------------------------
-- Digits
-- ---------------------------------------------------------------------------

theorem interrupted_cons :
    Interrupted (n + 1) (x :: w) ↔
      Text.hexDigit? x = none ∧ w = [] ∨
        (Text.hexDigit? x).isSome = true ∧ Interrupted n w := by
  constructor
  · rintro ⟨ds, y, hw, hlength, hds, hy⟩
    cases ds with
    | nil =>
      obtain ⟨rfl, rfl⟩ := List.cons.inj hw
      exact .inl ⟨hy, rfl⟩
    | cons z ds =>
      obtain ⟨rfl, rfl⟩ := List.cons.inj hw
      exact .inr ⟨hds x (by simp), ds, y, rfl, by simpa using hlength,
        fun z hz => hds z (by simp [hz]), hy⟩
  · rintro (⟨hx, rfl⟩ | ⟨hx, ds, y, rfl, hlength, hds, hy⟩)
    · exact ⟨[], x, rfl, by simp, by simp, hx⟩
    · exact ⟨x :: ds, y, rfl, by simpa using hlength, by simpa [hx] using hds, hy⟩

theorem not_interrupted_nil : ¬ Interrupted n [] := by
  rintro ⟨ds, x, hw, -⟩
  simp at hw

/-- A code point is refused, or taken without an answer and the next one is looked at. -/
theorem feedDigits_invalid_step :
    feedDigits (n + 1) e c = .error .invalidUnicode d ↔
      ∃ x f, Visits c [x] f ∧
        ((e.feed x).1 = .error .invalidUnicode ∧ f = d ∨
          (e.feed x).1 = .ok none ∧
            feedDigits n (e.feed x).2 f = .error .invalidUnicode d) := by
  rw [feedDigits]
  constructor
  · intro h
    split at h
    · next hnext =>
      obtain ⟨rfl, rfl⟩ := EStateM.Result.error.inj h
      exact absurd (nextInString_error hnext).2.2 (by simp)
    · next x f hx =>
      refine ⟨x, f, nextInString_eq_ok_iff.mp hx, ?_⟩
      split at h
      · next hfeed =>
        obtain ⟨rfl, rfl⟩ := EStateM.Result.error.inj h
        exact .inl ⟨by rw [hfeed], rfl⟩
      · simp at h
      · next hfeed => exact .inr ⟨by rw [hfeed], by rw [hfeed]; exact h⟩
  · rintro ⟨x, f, hx, hfeed⟩
    rw [nextInString_eq_ok_iff.mpr hx]
    rcases hr : e.feed x with ⟨r, e'⟩
    rw [hr] at hfeed
    simp only [hr]
    rcases hfeed with ⟨rfl, rfl⟩ | ⟨rfl, h⟩
    · rfl
    · exact h

/-- What makes `w` wrong for a decoder that still misses `n` digits of a unit. -/
def Refused (e : UnicodeEscape) (n : Nat) (w : List Char) : Prop :=
  Interrupted n w ∨
    ∃ m, w.length = n ∧ hexFrom? e.unit.toNat w = some m ∧
      UnicodeEscape.complete e.high m.toUInt16 = .error .invalidUnicode

theorem exists_visits_iff {P : List Char → Prop} (hnil : ¬ P []) :
    (∃ w, Visits c w d ∧ P w) ↔ ∃ x f, Visits c [x] f ∧ ∃ w, Visits f w d ∧ P (x :: w) := by
  constructor
  · rintro ⟨w, hw, hp⟩
    cases w with
    | nil => exact absurd hp hnil
    | cons x w =>
      obtain ⟨f, hx, hw⟩ := Visits.split (w := [x]) hw
      exact ⟨x, f, hx, w, hw, hp⟩
  · rintro ⟨x, f, hx, w, hw, hp⟩
    exact ⟨x :: w, hx.append hw, hp⟩

theorem visits_nil_iff : Visits c [] d ↔ c = d := by
  constructor
  · rintro ⟨⟩
    rfl
  · rintro rfl
    exact .nil c

theorem not_interrupted_zero : ¬ Interrupted 0 w := by
  rintro ⟨ds, x, -, hlength, -⟩
  exact Nat.not_lt_zero _ hlength

theorem refused_nil (he : e.Sound) (hn : e.digits + n = 4) : ¬ Refused e n [] := by
  have hdigits := he.digits
  rintro (h | ⟨m, hlength, -⟩)
  · exact not_interrupted_nil h
  · simp only [List.length_nil] at hlength
    omega

/-- The missing digits of a unit are refused at something else, or as a whole. -/
theorem feedDigits_invalid_iff (he : e.Sound) (hn : e.digits + n = 4) :
    feedDigits n e c = .error .invalidUnicode d ↔ ∃ w, Visits c w d ∧ Refused e n w := by
  induction n generalizing e c with
  | zero => exact absurd hn (Nat.ne_of_lt he.digits)
  | succ n ih =>
    rw [exists_visits_iff (refused_nil he hn), feedDigits_invalid_step]
    refine exists_congr fun x => exists_congr fun f => and_congr_right fun _ => ?_
    rcases he.feed_step x with ⟨hx, hfeed⟩ | ⟨a, hx, hlt, hfeed⟩ | ⟨m, hm, hfeed, -⟩
    · simp [Refused, interrupted_cons, hexFrom?_cons, hx, hfeed, visits_nil_iff]
    · have hunit := UnicodeEscape.toNat_shift (UnicodeEscape.unit_lt he.unit he.digits)
        (Text.hexDigit?_lt hx)
      have hsound := he.feed x
      rw [hfeed] at hsound ⊢
      have hrest := ih (c := f) hsound (by simp only; omega)
      simp only [reduceCtorEq, false_and, true_and, false_or, hrest]
      simp [Refused, interrupted_cons, hexFrom?_cons, hx, hunit]
    · obtain ⟨hdigits, a, ha, rfl⟩ := hm
      obtain rfl : n = 0 := by omega
      rw [hfeed]
      simp only [Refused, interrupted_cons, hexFrom?_cons, ha, not_interrupted_zero]
      constructor
      · rintro (⟨hcomp, rfl⟩ | ⟨-, h⟩)
        · exact ⟨[], .nil f, .inr ⟨_, rfl, rfl, hcomp⟩⟩
        · simp [feedDigits] at h
      · rintro ⟨w, hw, (⟨h, -⟩ | ⟨-, h⟩) | ⟨m, hlength, hm, hcomp⟩⟩
        · simp at h
        · exact h.elim
        · obtain rfl : w = [] := by simpa using hlength
          obtain rfl := Option.some.inj hm
          exact .inl ⟨hcomp, visits_nil_iff.mp hw⟩

/-- From a decoder between units, four digits are refused as one unit. -/
theorem feedDigits_unit_invalid_iff (he : e.Sound) (hdigits : e.digits = 0) (hunit : e.unit = 0) :
    feedDigits 4 e c = .error .invalidUnicode d ↔
      ∃ w, Visits c w d ∧
        (Interrupted 4 w ∨
          ∃ m, HexUnit w m ∧
            UnicodeEscape.complete e.high m.toUInt16 = .error .invalidUnicode) := by
  have hzero : e.unit.toNat = 0 := by rw [hunit]; rfl
  simp only [feedDigits_invalid_iff he (n := 4) (by omega), Refused, hexUnit_iff, and_assoc, hzero]

theorem feedDigits_first_invalid_iff :
    feedDigits 4 {} c = .error .invalidUnicode d ↔
      ∃ w, Visits c w d ∧ (Interrupted 4 w ∨ ∃ m, HexUnit w m ∧ LowSurrogate m) := by
  rw [feedDigits_unit_invalid_iff UnicodeEscape.sound_fresh rfl rfl]
  refine exists_congr fun w => and_congr_right fun _ => or_congr_right ?_
  refine exists_congr fun m => and_congr_right fun hunit => ?_
  rw [UnicodeEscape.complete_none_error_iff, UnicodeEscape.isLow_toUInt16 hunit.lt]
  simp [LowSurrogate]

theorem feedDigits_second_invalid_iff {high : UInt16} (hhigh : UnicodeEscape.isHigh high = true) :
    feedDigits 4 { high := some high } c = .error .invalidUnicode d ↔
      ∃ w, Visits c w d ∧ (Interrupted 4 w ∨ ∃ m, HexUnit w m ∧ ¬ LowSurrogate m) := by
  rw [feedDigits_unit_invalid_iff (UnicodeEscape.sound_waiting hhigh) rfl rfl]
  refine exists_congr fun w => and_congr_right fun _ => or_congr_right ?_
  refine exists_congr fun m => and_congr_right fun hunit => ?_
  rw [UnicodeEscape.complete_some_error_iff hhigh, ← Bool.not_eq_true,
    UnicodeEscape.isLow_toUInt16 hunit.lt]
  simp [LowSurrogate]

-- ---------------------------------------------------------------------------
-- The second escape
-- ---------------------------------------------------------------------------

/-- In the second round a unit is answered or refused, and nothing else. -/
theorem feedDigits_second_ne_none {high : UInt16} :
    feedDigits 4 { high := some high } c ≠ .ok (none, e') d := by
  intro h
  obtain ⟨es, low, -, -, hcomp, -⟩ := feedDigits_unit_iff.mp h
  obtain ⟨_, hy, -⟩ := UnicodeEscape.complete_some_iff.mp hcomp
  simp at hy

theorem unicodeEscapeFrom_high_invalid_iff {high : UInt16}
    (hhigh : UnicodeEscape.isHigh high = true) :
    unicodeEscapeFrom { high := some high } c = .error .invalidUnicode d ↔
      ∃ w, Visits c w d ∧ (Interrupted 4 w ∨ ∃ m, HexUnit w m ∧ ¬ LowSurrogate m) := by
  rw [← feedDigits_second_invalid_iff hhigh, unicodeEscapeFrom_eq]
  rcases hfeed : feedDigits 4 { high := some high } c with ⟨_ | x, e'⟩ | _
  · exact absurd hfeed feedDigits_second_ne_none
  · simp
  · simp

theorem pairMark_invalid_iff :
    pairMark c = .error .invalidUnicode d ↔
      (∃ x, Visits c [x] d ∧ x ≠ '\\') ∨ ∃ x, Visits c ['\\', x] d ∧ x ≠ 'u' := by
  unfold pairMark
  constructor
  · intro h
    split at h
    · next hnext =>
      obtain ⟨rfl, rfl⟩ := EStateM.Result.error.inj h
      exact absurd (nextInString_error hnext).2.2 (by simp)
    · next x f hx =>
      have hx := nextInString_eq_ok_iff.mp hx
      split at h
      · next hb =>
        subst hb
        split at h
        · next hnext =>
          obtain ⟨rfl, rfl⟩ := EStateM.Result.error.inj h
          exact absurd (nextInString_error hnext).2.2 (by simp)
        · next y g hy =>
          split at h
          · simp at h
          · next hne =>
            obtain ⟨-, rfl⟩ := EStateM.Result.error.inj h
            exact .inr ⟨y, hx.append (nextInString_eq_ok_iff.mp hy), hne⟩
      · next hne =>
        obtain ⟨-, rfl⟩ := EStateM.Result.error.inj h
        exact .inl ⟨x, hx, hne⟩
  · rintro (⟨x, hx, hne⟩ | ⟨x, hx, hne⟩)
    · simp [nextInString_eq_ok_iff.mpr hx, hne]
    · obtain ⟨f, hb, hx⟩ := Visits.split (w := ['\\']) hx
      simp [nextInString_eq_ok_iff.mpr hb, nextInString_eq_ok_iff.mpr hx, hne]

-- ---------------------------------------------------------------------------
-- The whole escape
-- ---------------------------------------------------------------------------

/-- In the first round a unit has no answer yet if it is a high surrogate, which then waits. -/
theorem feedDigits_first_none_iff :
    feedDigits 4 {} c = .ok (none, e') f ↔
      ∃ ds high, HexUnit ds high ∧ HighSurrogate high ∧ Visits c ds f ∧
        e' = { high := some high.toUInt16 } := by
  rw [@feedDigits_unit_iff _ _ none]
  refine exists_congr fun ds => exists_congr fun high => and_congr_right fun hunit => ?_
  rw [UnicodeEscape.complete_none_eq_none_iff, UnicodeEscape.isHigh_toUInt16 hunit.lt]
  exact and_left_comm

/-- After a high surrogate the mark of a second escape must come, and that escape. -/
theorem unicodeEscape_of_waiting {high : UInt16}
    (hfeed : feedDigits 4 {} c = .ok (none, { high := some high }) f) :
    unicodeEscape c = (do pairMark; unicodeEscapeFrom { high := some high }) f := by
  rw [unicodeEscape, unicodeEscapeFrom_eq, hfeed, Scan.bind_apply]
  simp only [UnicodeEscape.isAwaitingLow, Option.isSome_some, beq_self_eq_true, Bool.and_self,
    ↓reduceIte]
  cases pairMark f <;> rfl

theorem unicodeEscape_of_error (hfeed : feedDigits 4 {} c = .error err d) :
    unicodeEscape c = .error err d := by
  rw [unicodeEscape, unicodeEscapeFrom_eq, hfeed]

theorem unicodeEscape_invalid_sound (h : unicodeEscape c = .error .invalidUnicode d) :
    ∃ w, Visits c w d ∧ Misspelt w := by
  rcases hfeed : feedDigits 4 {} c with ⟨_ | x, e'⟩ | ⟨err, f⟩
  · obtain ⟨ds, high, hunit, hhigh, hvis, rfl⟩ := feedDigits_first_none_iff.mp hfeed
    have hwaits := (UnicodeEscape.isHigh_toUInt16 hunit.lt).mpr hhigh
    rw [unicodeEscape_of_waiting hfeed, Scan.bind_eq_error_iff] at h
    rcases h with h | ⟨_, g, hmark, h⟩
    · rcases pairMark_invalid_iff.mp h with ⟨x, hx, hne⟩ | ⟨x, hx, hne⟩
      · exact ⟨_, hvis.append hx, .mark hunit hhigh hne⟩
      · exact ⟨_, hvis.append hx, .letter hunit hhigh hne⟩
    · have hmark := pairMark_eq_ok_iff.mp hmark
      obtain ⟨es, hes, hwrong⟩ := (unicodeEscapeFrom_high_invalid_iff hwaits).mp h
      refine ⟨_, hvis.append (hmark.append hes), ?_⟩
      rcases hwrong with hbroken | ⟨unit, hunit', hlow⟩
      · exact .secondDigit hunit hhigh hbroken
      · exact .unpaired hunit hhigh hunit' hlow
  · rw [unicodeEscape, unicodeEscapeFrom_eq, hfeed] at h
    simp at h
  · rw [unicodeEscape_of_error hfeed] at h
    obtain ⟨rfl, rfl⟩ := EStateM.Result.error.inj h
    obtain ⟨w, hw, hbroken | ⟨low, hunit, hlow⟩⟩ := feedDigits_first_invalid_iff.mp hfeed
    · exact ⟨w, hw, .digit hbroken⟩
    · exact ⟨w, hw, .lone hunit hlow⟩

theorem unicodeEscape_of_high {ds : List Char} {high : Nat} (hunit : HexUnit ds high)
    (hhigh : HighSurrogate high) (h : Visits c ds f) :
    unicodeEscape c = (do pairMark; unicodeEscapeFrom { high := some high.toUInt16 }) f :=
  unicodeEscape_of_waiting (feedDigits_first_none_iff.mpr ⟨ds, high, hunit, hhigh, h, rfl⟩)

theorem unicodeEscape_second_invalid {ds es : List Char} {high : Nat} (hunit : HexUnit ds high)
    (hhigh : HighSurrogate high) (hes : Interrupted 4 es ∨ ∃ m, HexUnit es m ∧ ¬ LowSurrogate m)
    (h : Visits c (ds ++ '\\' :: 'u' :: es) d) :
    unicodeEscape c = .error .invalidUnicode d := by
  obtain ⟨f, hvis, h⟩ := h.split
  obtain ⟨g, hmark, h⟩ := Visits.split (w := ['\\', 'u']) h
  have hwaits := (UnicodeEscape.isHigh_toUInt16 hunit.lt).mpr hhigh
  rw [unicodeEscape_of_high hunit hhigh hvis, Scan.bind_eq_error_iff]
  exact .inr ⟨(), g, pairMark_eq_ok_iff.mpr hmark,
    (unicodeEscapeFrom_high_invalid_iff hwaits).mpr ⟨es, h, hes⟩⟩

theorem unicodeEscape_invalid_complete (hw : Misspelt w) (h : Visits c w d) :
    unicodeEscape c = .error .invalidUnicode d := by
  cases hw with
  | digit hbroken =>
    exact unicodeEscape_of_error (feedDigits_first_invalid_iff.mpr ⟨w, h, .inl hbroken⟩)
  | lone hunit hlow =>
    exact unicodeEscape_of_error (feedDigits_first_invalid_iff.mpr ⟨w, h, .inr ⟨_, hunit, hlow⟩⟩)
  | mark hunit hhigh hne =>
    obtain ⟨f, hvis, hx⟩ := h.split
    rw [unicodeEscape_of_high hunit hhigh hvis, Scan.bind_eq_error_iff]
    exact .inl (pairMark_invalid_iff.mpr (.inl ⟨_, hx, hne⟩))
  | letter hunit hhigh hne =>
    obtain ⟨f, hvis, hx⟩ := h.split
    rw [unicodeEscape_of_high hunit hhigh hvis, Scan.bind_eq_error_iff]
    exact .inl (pairMark_invalid_iff.mpr (.inr ⟨_, hx, hne⟩))
  | secondDigit hunit hhigh hbroken =>
    exact unicodeEscape_second_invalid hunit hhigh (.inl hbroken) h
  | unpaired hunit hhigh hunit' hlow =>
    exact unicodeEscape_second_invalid hunit hhigh (.inr ⟨_, hunit', hlow⟩) h

theorem unicodeEscape_error (h : unicodeEscape c = .error err d) :
    err = .unterminatedString ∨ err = .invalidUnicode := by
  obtain ⟨w, -, hw⟩ := unicodeEscapeFrom_error h
  cases hw with
  | incomplete _ hviable | misplaced _ _ hviable =>
    obtain ⟨u, hu⟩ := hviable
    exact hu.elim
  | unterminated _ => exact .inl rfl
  | malformed _ => exact .inr rfl

theorem unicodeEscape_invalid_iff :
    unicodeEscape c = .error .invalidUnicode d ↔ ∃ w, Visits c w d ∧ Misspelt w :=
  ⟨unicodeEscape_invalid_sound, fun ⟨_, h, hw⟩ => unicodeEscape_invalid_complete hw h⟩

theorem Paired.length (h : Paired x w) : w.length = 10 := by
  cases h with
  | surrogates hds _ hes _ _ =>
    rw [List.length_append, List.length_cons, List.length_cons, hds.1, hes.1]

/-- A whole escape is the digits of one code point or of a pair of surrogates. -/
theorem unicodeEscape_ok_iff :
    unicodeEscape c = .ok x d ↔
      ∃ w, Visits c w d ∧ (w.length = 4 ∧ HexUnit w x.toNat ∨ w.length = 10 ∧ Paired x w) := by
  rw [unicodeEscape_eq_ok_iff]
  refine exists_congr fun w => and_congr_right fun _ => or_congr ?_ ?_
  · exact ⟨fun h => ⟨h.1, h⟩, And.right⟩
  · constructor
    · rintro ⟨ds, es, high, low, rfl, hds, hge, hle, hes, hge', hle', hx⟩
      have hpaired := Paired.surrogates hds ⟨hge, hle⟩ hes ⟨hge', hle'⟩ hx
      exact ⟨hpaired.length, hpaired⟩
    · rintro ⟨-, hpaired⟩
      cases hpaired with
      | surrogates hds hhigh hes hlow hx =>
        exact ⟨_, _, _, _, rfl, hds, hhigh.1, hhigh.2, hes, hlow.1, hlow.2, hx⟩

/-- A text that ends neither completes an escape nor goes wrong. -/
theorem unicodeEscape_unterminated_iff :
    (∃ d, unicodeEscape c = .error .unterminatedString d) ↔
      ∀ w, w <+: c.unvisited →
        ¬ Misspelt w ∧ ∀ x : Char, ¬ HexUnit w x.toNat ∧ ¬ Paired x w := by
  constructor
  · rintro ⟨d, h⟩ w hw
    obtain ⟨f, hvis⟩ := Visits.prefix_iff.mp hw
    have hnot (x : Char) : ¬ unicodeEscape c = .ok x f := by simp [h]
    refine ⟨fun hwrong => ?_, fun x => ⟨fun hunit => ?_, fun hpaired => ?_⟩⟩
    · simp [unicodeEscape_invalid_complete hwrong hvis] at h
    · exact hnot x (unicodeEscape_ok_iff.mpr ⟨w, hvis, .inl ⟨hunit.1, hunit⟩⟩)
    · exact hnot x (unicodeEscape_ok_iff.mpr ⟨w, hvis, .inr ⟨hpaired.length, hpaired⟩⟩)
  · intro h
    rcases hc : unicodeEscape c with ⟨x, d⟩ | ⟨err, d⟩
    · obtain ⟨w, hvis, hw⟩ := unicodeEscape_ok_iff.mp hc
      obtain ⟨hunit, hpaired⟩ := (h w (Visits.prefix_iff.mpr ⟨d, hvis⟩)).2 x
      rcases hw with ⟨-, hw⟩ | ⟨-, hw⟩
      · exact absurd hw hunit
      · exact absurd hw hpaired
    · rcases unicodeEscape_error hc with rfl | rfl
      · exact ⟨d, rfl⟩
      · obtain ⟨w, hvis, hw⟩ := unicodeEscape_invalid_sound hc
        exact absurd hw (h w (Visits.prefix_iff.mpr ⟨d, hvis⟩)).1

-- ---------------------------------------------------------------------------
-- Rounds
-- ---------------------------------------------------------------------------

/-- Digits without an answer are those of a high surrogate, and only in the first round. -/
theorem feedDigits_none_waits (h : feedDigits 4 {} c = .ok (none, e) d) :
    e.isAwaitingLow = true ∧ ∀ f e' g, feedDigits 4 e f ≠ .ok (none, e') g := by
  obtain ⟨_, _, -, -, -, rfl⟩ := feedDigits_first_none_iff.mp h
  exact ⟨rfl, fun _ _ _ => feedDigits_second_ne_none⟩

theorem escapeRound_goes_on (h : escapeRound e c = .ok (.inr e') d) :
    ∃ f, feedDigits 4 e c = .ok (none, e') f ∧ pairMark f = .ok () d := by
  obtain ⟨⟨r, e''⟩, f, hfeed, h⟩ := Scan.bind_eq_ok_iff.mp h
  cases r with
  | some y => exact nomatch h
  | none =>
    simp only at h
    split at h
    · obtain ⟨_, hmark, he⟩ := Scan.map_eq_ok_iff.mp h
      obtain rfl := Sum.inr.inj he
      exact ⟨f, hfeed, hmark⟩
    · exact nomatch h

/-- A Unicode escape. It is read where the digits of a code point or of a pair of
surrogates come next, goes wrong with the first code point that rules this out,
and is unterminated where the text ends before either. Reading it takes at most
two rounds, and digits without an answer always leave the decoder waiting. -/
theorem unicodeEscape_reads (c : Cursor) :
    (∀ w, (w <+: c.unvisited ↔ ∃ d, Visits c w d) ∧
      ∀ d, Visits c w d → d.unvisited = c.unvisited.drop w.length ∧
        d.index = c.index + w.length ∧ (w ≠ [] → d.current = w.getLast?)) ∧
    (∀ x d, unicodeEscape c = .ok x d ↔
      ∃ w, Visits c w d ∧ (w.length = 4 ∧ HexUnit w x.toNat ∨ w.length = 10 ∧ Paired x w)) ∧
    ((∃ d, unicodeEscape c = .error .unterminatedString d) ↔
      ∀ w, w <+: c.unvisited →
        ¬ Misspelt w ∧ ∀ x : Char, ¬ HexUnit w x.toNat ∧ ¬ Paired x w) ∧
    (∀ d, unicodeEscape c = .error .invalidUnicode d ↔ ∃ w, Visits c w d ∧ Misspelt w) ∧
    (∀ err d, unicodeEscape c = .error err d →
      err = .unterminatedString ∨ err = .invalidUnicode) ∧
    (∀ e f, unicodeEscapeFrom e f = (escapeRound e >>= Sum.elim pure unicodeEscapeFrom) f) ∧
    (∀ e d, feedDigits 4 {} c = .ok (none, e) d → e.isAwaitingLow = true) ∧
    ∀ e d, escapeRound {} c = .ok (.inr e) d →
      (∀ e' f, feedDigits 4 e d ≠ .ok (none, e') f) ∧
        ∀ e' f, escapeRound e d ≠ .ok (.inr e') f := by
  refine ⟨fun w => ⟨Visits.prefix_iff, fun d h => ⟨h.stands.1, h.index, h.stands.2⟩⟩,
    fun x d => unicodeEscape_ok_iff, unicodeEscape_unterminated_iff,
    fun d => unicodeEscape_invalid_iff, fun err d => unicodeEscape_error, unicodeEscapeFrom_round,
    fun e d h => (feedDigits_none_waits h).1, fun e d h => ?_⟩
  obtain ⟨f, hfeed, -⟩ := escapeRound_goes_on h
  have hlast := (feedDigits_none_waits hfeed).2
  refine ⟨hlast d, fun e' g h' => ?_⟩
  obtain ⟨f', hfeed', -⟩ := escapeRound_goes_on h'
  exact hlast d e' f' hfeed'

end Document

end TextStream
