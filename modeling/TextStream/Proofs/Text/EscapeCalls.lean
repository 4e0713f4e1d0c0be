import TextStream.Proofs.Text.Utf16

/-!
# Calls of the escape decoder

A decoder is fed and reset in any order. After any such calls it is `Sound`,
which is what its arithmetic relies on: no digit is shifted out of a unit, and
what a pair of surrogates names is a code point. An error says that the digits
are wrong where they stand, and leaves nothing behind.
-/

namespace TextStream.Text.UnicodeEscape

inductive Call where
  | feed (x : Char)
  | reset

/-- The answers to what is fed, and the decoder that the calls leave. -/
def run : UnicodeEscape → List Call → List Answer × UnicodeEscape
  | e, [] => ([], e)
  | e, .feed x :: calls =>
    let (answers, last) := run (e.feed x).2 calls
    ((e.feed x).1 :: answers, last)
  | _, .reset :: calls => run {} calls

/-- The decoder after calls that began on a fresh one. -/
def after (calls : List Call) : UnicodeEscape :=
  (run {} calls).2

/-- The code point is the fourth digit of a unit, which is `m`. -/
def Completes (e : UnicodeEscape) (x : Char) (m : Nat) : Prop :=
  e.digits = 3 ∧ ∃ a, hexDigit? x = some a ∧ m = 16 * e.unit.toNat + a

variable {e : UnicodeEscape} {x : Char} {u high : UInt16} {m : Nat} {err : ParseError}

theorem run_append (e : UnicodeEscape) (calls later : List Call) :
    e.run (calls ++ later) =
      ((e.run calls).1 ++ ((e.run calls).2.run later).1, ((e.run calls).2.run later).2) := by
  induction calls generalizing e with
  | nil => rfl
  | cons call calls ih =>
    cases call with
    | feed x => simp [run, ih]
    | reset => exact ih {}

theorem after_feed (calls : List Call) (x : Char) :
    after (calls ++ [.feed x]) = ((after calls).feed x).2 := by
  simp only [after, run_append, run]

theorem after_reset (calls : List Call) : after (calls ++ [.reset]) = {} := by
  simp only [after, run_append, run]

-- ---------------------------------------------------------------------------
-- Which units are wrong
-- ---------------------------------------------------------------------------

theorem exists_char {n : Nat} (h : n.isValidChar) : ∃ x : Char, x.toNat = n :=
  ⟨Char.ofNatAux n h, rfl⟩

/-- A high and a low surrogate always name a code point. -/
theorem exists_paired (hhigh : isHigh high = true) (hlow : isLow u = true) :
    ∃ x, paired? high u = some x := by
  rw [isHigh_iff] at hhigh
  rw [isLow_iff] at hlow
  obtain ⟨x, hx⟩ := exists_char
    (n := 0x10000 + (high.toNat - 0xD800) * 0x400 + (u.toNat - 0xDC00)) (.inr ⟨by omega, by omega⟩)
  exact ⟨x, paired?_eq_some_iff.mpr hx⟩

theorem isHigh_of_isLow (h : isLow u = true) : isHigh u = false := by
  rw [isLow_iff] at h
  rw [Bool.eq_false_iff, Ne, isHigh_iff]
  omega

theorem complete_none_error_iff :
    complete none u = .error err ↔ err = .invalidUnicode ∧ isLow u = true := by
  by_cases hlow : isLow u = true
  · simp [complete, hlow, isHigh_of_isLow hlow, eq_comm]
  · by_cases hhigh : isHigh u = true
    · simp [complete, hhigh, hlow]
    · have hlow' := mt isLow_iff.mpr hlow
      have hhigh' := mt isHigh_iff.mpr hhigh
      have hlt := u.toNat_lt
      have hvalid : u.toNat.isValidChar := by
        unfold Nat.isValidChar
        omega
      obtain ⟨x, hx⟩ := exists_char hvalid
      simp [complete, hlow, hhigh, scalar?_eq_some_iff.mpr hx]

theorem complete_some_error_iff (hhigh : isHigh high = true) :
    complete (some high) u = .error err ↔ err = .invalidUnicode ∧ isLow u = false := by
  by_cases hlow : isLow u = true
  · obtain ⟨x, hx⟩ := exists_paired hhigh hlow
    simp [complete, hlow, hx]
  · simp [complete, hlow, eq_comm]

theorem isLow_toUInt16 (hm : m < 0x10000) :
    isLow m.toUInt16 = true ↔ 0xDC00 ≤ m ∧ m ≤ 0xDFFF := by
  rw [isLow_iff, toNat_toUInt16 hm]

theorem isHigh_toUInt16 (hm : m < 0x10000) :
    isHigh m.toUInt16 = true ↔ 0xD800 ≤ m ∧ m ≤ 0xDBFF := by
  rw [isHigh_iff, toNat_toUInt16 hm]

theorem complete_eq_none_iff {high : Option UInt16} :
    complete high u = .ok none ↔ high = none ∧ isHigh u = true := by
  cases high with
  | none => simp [complete_none_eq_none_iff]
  | some high => simp [complete_some_iff]

-- ---------------------------------------------------------------------------
-- One call
-- ---------------------------------------------------------------------------

/-- After an error the decoder is as good as new. -/
theorem feed_of_error (h : (e.feed x).1 = .error err) : e.feed x = (.error err, {}) := by
  cases hx : hexDigit? x with
  | none => simp_all [feed]
  | some a =>
    simp only [feed, hx] at h ⊢
    split
    · simp_all
    · rcases hc : complete e.high ((e.unit <<< 4) ||| a.toUInt16) with err' | _ | y <;> simp_all

theorem Completes.feed_fst (h : Completes e x m) (he : e.Sound) :
    (e.feed x).1 = complete e.high m.toUInt16 := by
  obtain ⟨hdigits, a, ha, rfl⟩ := h
  have hsmall := unit_lt he.unit he.digits
  have hmore : ¬ e.digits + 1 < 4 := by omega
  simp only [feed, ha, hmore, ↓reduceIte, shift_eq hsmall (hexDigit?_lt ha)]
  rcases complete e.high (16 * e.unit.toNat + a).toUInt16 with err | _ | y <;> rfl

theorem Completes.isSome_hexDigit? (h : Completes e x m) : (hexDigit? x).isSome = true := by
  obtain ⟨-, a, ha, -⟩ := h
  simp [ha]

theorem Completes.unique (h : Completes e x m) {m' : Nat} : Completes e x m' ↔ m' = m := by
  constructor
  · rintro ⟨-, b, hb, rfl⟩
    obtain ⟨-, a, ha, rfl⟩ := h
    rw [Option.some.inj (hb.symm.trans ha)]
  · rintro rfl
    exact h

theorem Completes.lt (h : Completes e x m) (he : e.Sound) : m < 0x10000 := by
  obtain ⟨-, a, ha, rfl⟩ := h
  have hsmall := unit_lt he.unit he.digits
  have hlt := hexDigit?_lt ha
  omega

/-- What a call of a sound decoder can do: refuse what is no digit, take in a
digit of a unit, or answer what a complete unit means. -/
theorem Sound.feed_step (he : e.Sound) (x : Char) :
    (hexDigit? x = none ∧ e.feed x = (.error .invalidUnicode, {})) ∨
      (∃ a, hexDigit? x = some a ∧ e.digits + 1 < 4 ∧
        e.feed x =
          (.ok none, { e with unit := (e.unit <<< 4) ||| a.toUInt16, digits := e.digits + 1 })) ∨
      ∃ m, Completes e x m ∧ (e.feed x).1 = complete e.high m.toUInt16 ∧
        ∀ r, (e.feed x).1 = .ok r → (e.feed x).2 = settled m r := by
  cases hx : hexDigit? x with
  | none => exact .inl ⟨rfl, feed_of_none hx⟩
  | some a =>
    have hdigits := he.digits
    rcases Nat.lt_or_ge (e.digits + 1) 4 with hlt | hge
    · exact .inr (.inl ⟨a, rfl, hlt, feed_of_more hx hlt⟩)
    · have hlast : Completes e x (16 * e.unit.toNat + a) := ⟨by omega, a, hx, rfl⟩
      refine .inr (.inr ⟨_, hlast, hlast.feed_fst he, fun r hr => ?_⟩)
      exact ((feed_last_iff hx (by omega) (unit_lt he.unit he.digits)).mp (Prod.ext hr rfl)).2

theorem Sound.feed (he : e.Sound) (x : Char) : (e.feed x).2.Sound := by
  cases h : (e.feed x).1 with
  | ok r => exact (feed_conserves he (Prod.ext h rfl)).1
  | error err =>
    rw [feed_of_error h]
    exact sound_fresh

theorem mem_digits_iff : x ∈ "0123456789abcdefABCDEF".toList ↔ (hexDigit? x).isSome = true := by
  have hall : ("0123456789abcdefABCDEF".toList.all fun y => (hexDigit? y).isSome) = true := rfl
  exact ⟨List.all_eq_true.mp hall x, mem_digits⟩

/-- A digit is refused if it completes a unit that cannot stand where it does. -/
theorem Sound.feed_error_iff (he : e.Sound) :
    (e.feed x).1 = .error err ↔
      err = .invalidUnicode ∧
        (x ∉ "0123456789abcdefABCDEF".toList ∨
          ∃ m, Completes e x m ∧
            (e.high = none ∧ (0xDC00 ≤ m ∧ m ≤ 0xDFFF) ∨
              e.high ≠ none ∧ ¬ (0xDC00 ≤ m ∧ m ≤ 0xDFFF))) := by
  rw [mem_digits_iff]
  rcases he.feed_step x with ⟨hx, hfeed⟩ | ⟨a, hx, hlt, hfeed⟩ | ⟨m, hm, hfeed, -⟩
  · simpa [hx, hfeed] using eq_comm
  · have hnot : ∀ m, ¬ Completes e x m := fun m h => by have := h.1; omega
    simp [hx, hfeed, hnot]
  · have hlow := isLow_toUInt16 (hm.lt he)
    rw [hfeed]
    simp only [hm.isSome_hexDigit?, hm.unique, not_true_eq_false, false_or, exists_eq_left,
      ← hlow]
    cases hhigh : e.high with
    | none => simp [complete_none_error_iff]
    | some high => simp [complete_some_error_iff (he.high hhigh)]

-- ---------------------------------------------------------------------------
-- Any calls
-- ---------------------------------------------------------------------------

theorem Sound.after (calls : List Call) : (after calls).Sound := by
  induction calls using List.reverseRecOn with
  | nil => exact sound_fresh
  | append_singleton calls call ih =>
    cases call with
    | feed x => exact after_feed calls x ▸ ih.feed x
    | reset => exact after_reset calls ▸ sound_fresh

/-- The unit so far is made of what the last calls fed. -/
def Holds (calls : List Call) (e : UnicodeEscape) : Prop :=
  ∃ before, ∃ ds : List Char, calls = before ++ ds.map Call.feed ∧ ds.length = e.digits ∧
    ds.map Char.toLower = lastDigits e.digits e.unit.toNat

theorem Holds.none (calls : List Call) (high : Option UInt16) : Holds calls { high := high } :=
  ⟨calls, [], by simp, rfl, rfl⟩

theorem Holds.settled (calls : List Call) (m : Nat) (r : Option Char) :
    Holds calls (settled m r) := by
  cases r with
  | none => exact .none calls _
  | some y => exact .none calls _

theorem Holds.after (calls : List Call) : Holds calls (after calls) := by
  induction calls using List.reverseRecOn with
  | nil => exact .none [] _
  | append_singleton calls call ih =>
    cases call with
    | reset => exact after_reset calls ▸ .none _ _
    | feed x =>
      have he := Sound.after calls
      rw [after_feed]
      rcases he.feed_step x with ⟨-, hfeed⟩ | ⟨a, ha, hlt, hfeed⟩ | ⟨m, -, -, hsettled⟩
      · rw [hfeed]
        exact .none _ _
      · obtain ⟨before, ds, hcalls, hlength, hdigits⟩ := ih
        obtain ⟨ha, hlower⟩ := hexDigit?_eq_some_iff.mp ha
        have hshift := toNat_shift (unit_lt he.unit he.digits) ha
        rw [hfeed]
        refine ⟨before, ds ++ [x], by simp [hcalls], by simp [hlength], ?_⟩
        simp only [List.map_append, List.map_cons, List.map_nil]
        rw [hdigits, hlower, hshift, lastDigits_snoc ha]
      · cases h : ((UnicodeEscape.after calls).feed x).1 with
        | ok r => exact hsettled r h ▸ .settled _ m r
        | error err => exact (congrArg Prod.snd (feed_of_error h)) ▸ .none _ _

theorem isAwaitingLow_settled (m : Nat) (r : Option Char) :
    (settled m r).isAwaitingLow = r.isNone := by
  cases r <;> rfl

/-- Only a complete high surrogate makes the decoder wait, and only until the next call. -/
theorem Sound.isAwaitingLow_feed_iff (he : e.Sound) (x : Char) :
    (e.feed x).2.isAwaitingLow = true ↔
      ∃ m, Completes e x m ∧ (0xD800 ≤ m ∧ m ≤ 0xDBFF) ∧ (e.feed x).1 = .ok none := by
  rcases he.feed_step x with ⟨hx, hfeed⟩ | ⟨a, hx, hlt, hfeed⟩ | ⟨m, hm, hfst, hsettled⟩
  · simp [hfeed, isAwaitingLow]
  · have hnot : ∀ m, ¬ Completes e x m := fun m h => by have := h.1; omega
    simp [hfeed, hnot, isAwaitingLow]
  · constructor
    · intro h
      cases hr : (e.feed x).1 with
      | error err => simp [feed_of_error hr, isAwaitingLow] at h
      | ok r =>
        rw [hsettled r hr, isAwaitingLow_settled, Option.isNone_iff_eq_none] at h
        obtain rfl := h
        have hhigh := (complete_eq_none_iff.mp (hfst.symm.trans hr)).2
        exact ⟨m, hm, (isHigh_toUInt16 (hm.lt he)).mp hhigh, rfl⟩
    · rintro ⟨-, -, -, hr⟩
      rw [hsettled none hr]
      rfl

theorem isAwaitingLow_after_iff (calls : List Call) :
    (after calls).isAwaitingLow = true ↔
      ∃ before x m, calls = before ++ [.feed x] ∧ Completes (after before) x m ∧
        (0xD800 ≤ m ∧ m ≤ 0xDBFF) ∧ ((after before).feed x).1 = .ok none := by
  cases calls using List.reverseRecOn with
  | nil => simp [after, run, isAwaitingLow]
  | append_singleton calls call =>
    cases call with
    | reset =>
      rw [after_reset]
      simp [isAwaitingLow]
    | feed x =>
      rw [after_feed, (Sound.after calls).isAwaitingLow_feed_iff]
      constructor
      · rintro ⟨m, h⟩
        exact ⟨calls, x, m, rfl, h⟩
      · rintro ⟨before, y, m, heq, h⟩
        obtain ⟨rfl, hlast⟩ := List.append_inj' heq rfl
        obtain rfl : x = y := by simpa using hlast
        exact ⟨m, h⟩

/-- After an error the answers are those of a fresh decoder. -/
theorem run_of_error {calls : List Call} (h : ((after calls).feed x).1 = .error err)
    (later : List Call) :
    run {} (calls ++ .feed x :: later) =
      ((run {} calls).1 ++ .error err :: (run {} later).1, (run {} later).2) := by
  have hfeed : (run {} calls).2.feed x = (.error err, {}) := feed_of_error h
  rw [run_append]
  simp only [run, hfeed]

/-- The decoder after any calls. Its state keeps within bounds in which a digit is
shifted in without loss and any pair of surrogates names a code point, and its
digits are those that were fed last. It refuses what is no digit, and a complete
unit where that cannot stand. After an error it answers as a fresh one does. It
waits for a low surrogate exactly if the last call completed a high one. -/
theorem calls_keep_bounds (calls : List Call) :
    let e := after calls
    (e.digits < 4 ∧ e.unit.toNat < 16 ^ e.digits ∧
      ∀ high, e.high = some high → 0xD800 ≤ high.toNat ∧ high.toNat ≤ 0xDBFF) ∧
    Holds calls e ∧
    (∀ a < 16, ((e.unit <<< 4) ||| a.toUInt16).toNat = 16 * e.unit.toNat + a) ∧
    (∀ high low, e.high = some high → 0xDC00 ≤ low.toNat → low.toNat ≤ 0xDFFF →
      0xD800 ≤ high.toNat ∧ ∃ y, paired? high low = some y ∧
        y.toNat = 0x10000 + (high.toNat - 0xD800) * 0x400 + (low.toNat - 0xDC00)) ∧
    (∀ x err, (e.feed x).1 = .error err ↔
      err = .invalidUnicode ∧
        (x ∉ "0123456789abcdefABCDEF".toList ∨
          ∃ m, Completes e x m ∧
            (e.high = none ∧ (0xDC00 ≤ m ∧ m ≤ 0xDFFF) ∨
              e.high ≠ none ∧ ¬ (0xDC00 ≤ m ∧ m ≤ 0xDFFF)))) ∧
    (∀ x err, (e.feed x).1 = .error err →
      (e.feed x).2 = {} ∧
        ∀ later, run {} (calls ++ .feed x :: later) =
          ((run {} calls).1 ++ .error err :: (run {} later).1, (run {} later).2)) ∧
    (e.isAwaitingLow = true ↔
      ∃ before x m, calls = before ++ [.feed x] ∧ Completes (after before) x m ∧
        (0xD800 ≤ m ∧ m ≤ 0xDBFF) ∧ ((after before).feed x).1 = .ok none) := by
  intro e
  have he : e.Sound := .after calls
  refine ⟨⟨he.digits, he.unit, fun high h => isHigh_iff.mp (he.high h)⟩, .after calls,
    fun a ha => toNat_shift (unit_lt he.unit he.digits) ha, fun high low h hge hle => ?_,
    fun x err => he.feed_error_iff, fun x err h => ⟨congrArg Prod.snd (feed_of_error h),
      run_of_error h⟩, isAwaitingLow_after_iff calls⟩
  obtain ⟨y, hy⟩ := exists_paired (he.high h) (isLow_iff.mpr ⟨hge, hle⟩)
  exact ⟨(isHigh_iff.mp (he.high h)).1, y, hy, paired?_eq_some_iff.mp hy⟩

end TextStream.Text.UnicodeEscape
