import TextStream.Proofs.Text.UnicodeEscape

/-!
# UTF-16 in hexadecimal digits

A text is written in UTF-16 with four digits for each unit. The decoder reads
back what was written so: it answers each code point at the last of its digits.
What it took in and has not answered yet is the text it has in hand. A digit is
never lost between the two, so whatever the decoder takes without an error, and
with nothing left in hand, was written in this way.
-/

namespace TextStream.Text

/-- The units of a code point: one, or a high and a low surrogate. -/
def utf16 (x : Char) : List Nat :=
  if x.toNat < 0x10000 then [x.toNat]
  else [0xD800 + (x.toNat - 0x10000) / 0x400, 0xDC00 + (x.toNat - 0x10000) % 0x400]

/-- The units of a code point in four lower-case digits each. -/
def utf16Digits (x : Char) : List Char :=
  (utf16 x).flatMap (hexDigits 4)

theorem utf16_of_lt {x : Char} {n : Nat} (hx : x.toNat = n) (hn : n < 0x10000) :
    utf16 x = [n] := by
  simp [utf16, hx, hn]

theorem utf16_of_pair {x : Char} {high low : Nat} (hhigh : 0xD800 ≤ high)
    (hlow : 0xDC00 ≤ low ∧ low ≤ 0xDFFF)
    (hx : x.toNat = 0x10000 + (high - 0xD800) * 0x400 + (low - 0xDC00)) :
    utf16 x = [high, low] := by
  have hlarge : ¬ x.toNat < 0x10000 := by omega
  simp only [utf16, hlarge, ↓reduceIte, List.cons.injEq, and_true]
  omega

/-- A code point above `FFFF` is a pair. -/
theorem exists_pair {x : Char} (hx : 0x10000 ≤ x.toNat) :
    ∃ high low, (0xD800 ≤ high ∧ high ≤ 0xDBFF) ∧ (0xDC00 ≤ low ∧ low ≤ 0xDFFF) ∧
      x.toNat = 0x10000 + (high - 0xD800) * 0x400 + (low - 0xDC00) := by
  have hlt : x.toNat < 0x110000 := by
    rcases x.valid with h | ⟨-, h⟩
    · exact Nat.lt_trans h (by decide)
    · exact h
  refine ⟨0xD800 + (x.toNat - 0x10000) / 0x400, 0xDC00 + (x.toNat - 0x10000) % 0x400, ?_⟩
  omega

-- ---------------------------------------------------------------------------
-- Digits of a fixed number
-- ---------------------------------------------------------------------------

/-- The last `w` hexadecimal digits of a number. -/
def lastDigits : Nat → Nat → List Char
  | 0, _ => []
  | w + 1, n => lastDigits w (n / 16) ++ [Nat.digitChar (n % 16)]

theorem lastDigits_snoc {a : Nat} (ha : a < 16) (w n : Nat) :
    lastDigits (w + 1) (16 * n + a) = lastDigits w n ++ [Nat.digitChar a] := by
  have hdiv : (16 * n + a) / 16 = n := by omega
  have hmod : (16 * n + a) % 16 = a := by omega
  simp only [lastDigits, hdiv, hmod]

theorem lastDigits_cons (w n : Nat) :
    lastDigits (w + 1) n = Nat.digitChar (n / 16 ^ w % 16) :: lastDigits w n := by
  induction w generalizing n with
  | zero => simp [lastDigits]
  | succ w ih =>
    have hdiv : n / 16 / 16 ^ w = n / 16 ^ (w + 1) := by
      rw [Nat.div_div_eq_div_mul, Nat.pow_succ']
    rw [lastDigits, ih (n / 16), hdiv]
    rfl

/-- Padded to a width that is enough, a number shows its last digits. -/
theorem hexDigits_eq_lastDigits {w n : Nat} (hn : n < 16 ^ (w + 1)) :
    hexDigits (w + 1) n = lastDigits (w + 1) n := by
  induction w generalizing n with
  | zero =>
    have hlt : n < 16 := by simpa using hn
    simp [hexDigits, lastDigits, Nat.toDigits_of_lt_base hlt, Nat.mod_eq_of_lt hlt]
  | succ w ih =>
    have hrest : n / 16 < 16 ^ (w + 1) := by
      rw [Nat.pow_succ] at hn
      omega
    rw [lastDigits, ← ih hrest]
    rcases Nat.lt_or_ge n 16 with hlt | hge
    · have hzero : n / 16 = 0 := Nat.div_eq_of_lt hlt
      have hpad : List.replicate w '0' ++ ['0'] = List.replicate (w + 1) '0' :=
        List.replicate_succ'.symm
      simp [hexDigits, hzero, Nat.toDigits_of_lt_base hlt, Nat.mod_eq_of_lt hlt, hpad]
    · rw [hexDigits, Nat.toDigits_eq_if (by decide), if_neg (by omega)]
      simp [hexDigits]

-- ---------------------------------------------------------------------------
-- Digits of either case
-- ---------------------------------------------------------------------------

theorem hexDigit?_ascii : ∀ n < 128, ∀ a < 16,
    (hexDigit? (Char.ofNat n) = some a ↔ (Char.ofNat n).toLower = Nat.digitChar a) := by
  decide +kernel

theorem toNat_digitChar_lt : ∀ a < 16, (Nat.digitChar a).toNat < 128 := by
  decide

theorem toNat_lt_of_hexDigit? {x : Char} {a : Nat} (h : hexDigit? x = some a) :
    x.toNat < 128 := by
  have hle : ∀ y : Char, x ≤ y → x.toNat ≤ y.toNat := fun _ h => h
  unfold hexDigit? at h
  split at h
  · next hx =>
    simp only [Char.isDigit, Bool.and_eq_true, decide_eq_true_eq] at hx
    exact Nat.lt_of_le_of_lt (hle '9' hx.2) (by decide)
  · split at h
    · next hx => exact Nat.lt_of_le_of_lt (hle 'f' hx.2) (by decide)
    · split at h
      · next hx => exact Nat.lt_of_le_of_lt (hle 'F' hx.2) (by decide)
      · exact nomatch h

theorem toNat_lt_of_toLower {x : Char} (h : x.toLower.toNat < 128) : x.toNat < 128 := by
  unfold Char.toLower at h
  split at h
  · next hx =>
    have hle : x.toNat ≤ 'Z'.toNat := hx.2
    exact Nat.lt_of_le_of_lt hle (by decide)
  · exact h

/-- A digit is read as what it is written for, in either case. -/
theorem hexDigit?_eq_some_iff {x : Char} {a : Nat} :
    hexDigit? x = some a ↔ a < 16 ∧ x.toLower = Nat.digitChar a := by
  have hascii (hx : x.toNat < 128) (ha : a < 16) :
      hexDigit? x = some a ↔ x.toLower = Nat.digitChar a := by
    simpa only [Char.ofNat_toNat] using hexDigit?_ascii x.toNat hx a ha
  constructor
  · intro h
    have ha := hexDigit?_lt h
    exact ⟨ha, (hascii (toNat_lt_of_hexDigit? h) ha).mp h⟩
  · rintro ⟨ha, h⟩
    have hx : x.toNat < 128 := toNat_lt_of_toLower (h ▸ toNat_digitChar_lt a ha)
    exact (hascii hx ha).mpr h

theorem mem_digits_ascii : ∀ n < 128, (hexDigit? (Char.ofNat n)).isSome = true →
    Char.ofNat n ∈ "0123456789abcdefABCDEF".toList := by
  decide +kernel

theorem mem_digits {x : Char} (h : (hexDigit? x).isSome = true) :
    x ∈ "0123456789abcdefABCDEF".toList := by
  obtain ⟨a, ha⟩ := Option.isSome_iff_exists.mp h
  have hx := mem_digits_ascii x.toNat (toNat_lt_of_hexDigit? ha)
  rw [Char.ofNat_toNat] at hx
  exact hx h

namespace UnicodeEscape

variable {e e' : UnicodeEscape} {x : Char} {r : Option Char} {xs cs : List Char}

/-- What feeding a digit answers. -/
abbrev Answer := Except ParseError (Option Char)

/-- Feeds digits one by one: all answers, and the decoder after them. -/
def feedAll : UnicodeEscape → List Char → List Answer × UnicodeEscape
  | e, [] => ([], e)
  | e, x :: cs =>
    let (answers, last) := feedAll (e.feed x).2 cs
    ((e.feed x).1 :: answers, last)

/-- The code point in an answer, if there is one. -/
def codePoint? : Answer → Option Char
  | .ok r => r
  | .error _ => none

/-- How the digits of a code point are answered: nothing before the last of them. -/
def answersFor (x : Char) : List Answer :=
  List.replicate (4 * (utf16 x).length - 1) (.ok none) ++ [.ok (some x)]

theorem feedAll_append (e : UnicodeEscape) (cs ds : List Char) :
    e.feedAll (cs ++ ds) =
      ((e.feedAll cs).1 ++ ((e.feedAll cs).2.feedAll ds).1, ((e.feedAll cs).2.feedAll ds).2) := by
  induction cs generalizing e with
  | nil => rfl
  | cons x cs ih => simp [feedAll, ih]

theorem feedAll_cons_of_eq (h : e.feed x = (.ok r, e')) (cs : List Char) :
    e.feedAll (x :: cs) = (.ok r :: (e'.feedAll cs).1, (e'.feedAll cs).2) := by
  simp [feedAll, h]

-- ---------------------------------------------------------------------------
-- Reading what was written
-- ---------------------------------------------------------------------------

/-- The next digit of a unit, where `k` more are to follow. -/
theorem exists_next_digit {k m : Nat} {ds : List Char}
    (hds : ds.map Char.toLower = lastDigits (k + 1) m) :
    ∃ x rest a, ds = x :: rest ∧ hexDigit? x = some a ∧
      16 * (m / 16 ^ (k + 1)) + a = m / 16 ^ k ∧ rest.map Char.toLower = lastDigits k m := by
  rw [lastDigits_cons, List.map_eq_cons_iff] at hds
  obtain ⟨x, rest, rfl, hx, hrest⟩ := hds
  have hlt : m / 16 ^ k % 16 < 16 := Nat.mod_lt _ (by decide)
  refine ⟨x, rest, _, rfl, hexDigit?_eq_some_iff.mpr ⟨hlt, hx⟩, ?_, hrest⟩
  rw [Nat.pow_succ, ← Nat.div_div_eq_div_mul]
  exact Nat.div_add_mod _ _

theorem div_pow_lt {m : Nat} (hm : m < 0x10000) (k : Nat) : m / 16 ^ (k + 1) < 0x1000 := by
  have hpow : 16 ^ 1 ≤ 16 ^ (k + 1) := Nat.pow_le_pow_right (by decide) (Nat.le_add_left 1 k)
  have hle : m / 16 ^ (k + 1) ≤ m / 16 ^ 1 := Nat.div_le_div_left hpow (by decide)
  omega

/-- The digits still missing from a unit are answered at the last of them. -/
theorem feedAll_lastDigits {k m : Nat} {ds : List Char} (hk : e.digits + (k + 1) = 4)
    (hu : e.unit.toNat = m / 16 ^ (k + 1)) (hm : m < 0x10000)
    (hds : ds.map Char.toLower = lastDigits (k + 1) m)
    (hc : complete e.high m.toUInt16 = .ok r) :
    e.feedAll ds = (List.replicate k (.ok none) ++ [.ok r], settled m r) := by
  have hsmall : e.unit.toNat < 0x1000 := hu ▸ div_pow_lt hm k
  induction k generalizing e ds with
  | zero =>
    obtain ⟨x, rest, a, rfl, ha, hnext, hrest⟩ := exists_next_digit hds
    obtain rfl : rest = [] := List.map_eq_nil_iff.mp hrest
    have hunit : 16 * e.unit.toNat + a = m := by simpa [hu] using hnext
    have hfeed : e.feed x = (.ok r, settled m r) :=
      (feed_last_iff ha hk hsmall).mpr (by simpa only [hunit, and_true] using hc)
    simp [feedAll, hfeed]
  | succ k ih =>
    obtain ⟨x, rest, a, rfl, ha, hnext, hrest⟩ := exists_next_digit hds
    have hunit := (toNat_shift hsmall (hexDigit?_lt ha)).trans (hu ▸ hnext)
    have hfeed := feed_of_more ha (show e.digits + 1 < 4 by omega)
    have hlater := ih (e := { e with
        unit := (e.unit <<< 4) ||| a.toUInt16, digits := e.digits + 1 })
      (by simpa [Nat.add_assoc, Nat.add_comm 1] using hk) hunit hrest hc
      (hunit.trans_lt (div_pow_lt hm k))
    rw [feedAll_cons_of_eq hfeed, hlater]
    rfl

/-- Between units, the four digits of a unit are fed as one. -/
theorem feedAll_unit {high : Option UInt16} {m : Nat} {ds : List Char} (hm : m < 0x10000)
    (hds : ds.map Char.toLower = hexDigits 4 m) (hc : complete high m.toUInt16 = .ok r) :
    feedAll { high := high } ds = (List.replicate 3 (.ok none) ++ [.ok r], settled m r) := by
  rw [hexDigits_eq_lastDigits hm] at hds
  exact feedAll_lastDigits rfl (Nat.div_eq_of_lt hm).symm hm hds hc

theorem toNat_toUInt16 {m : Nat} (hm : m < 0x10000) : m.toUInt16.toNat = m :=
  Nat.mod_eq_of_lt hm

/-- A fresh decoder reads one code point and is fresh again. -/
theorem feedAll_utf16Digits {ds : List Char} (hds : ds.map Char.toLower = utf16Digits x) :
    feedAll {} ds = (answersFor x, {}) := by
  unfold utf16Digits at hds
  unfold answersFor
  rcases Nat.lt_or_ge x.toNat 0x10000 with hlt | hge
  · rw [utf16_of_lt rfl hlt] at hds ⊢
    have hc : complete none x.toNat.toUInt16 = .ok (some x) :=
      complete_none_eq_some_iff.mpr (toNat_toUInt16 hlt).symm
    exact feedAll_unit hlt (hds.trans (List.append_nil _)) hc
  · -- above `FFFF` the first four digits are only kept, and the other four complete the pair
    obtain ⟨high, low, hhigh, hlow, hx⟩ := exists_pair hge
    rw [utf16_of_pair hhigh.1 hlow hx] at hds ⊢
    obtain ⟨first, second, rfl, hfirst, hsecond⟩ := List.map_eq_append_iff.mp hds
    have hhigh' : complete none high.toUInt16 = .ok none := by
      rw [complete_none_eq_none_iff, isHigh_iff, toNat_toUInt16 (by omega)]
      exact hhigh
    have hlow' : complete (some high.toUInt16) low.toUInt16 = .ok (some x) := by
      rw [complete_some_iff, isLow_iff, toNat_toUInt16 (by omega), toNat_toUInt16 (by omega)]
      exact ⟨x, rfl, hlow, hx⟩
    rw [feedAll_append, feedAll_unit (by omega) hfirst hhigh']
    simp only [settled]
    rw [feedAll_unit (by omega) (hsecond.trans (List.append_nil _)) hlow']
    rfl

/-- Digits of a text are answered one code point after the other. -/
theorem feedAll_flatMap (hcs : cs.map Char.toLower = xs.flatMap utf16Digits) :
    feedAll {} cs = (xs.flatMap answersFor, {}) := by
  induction xs generalizing cs with
  | nil =>
    obtain rfl : cs = [] := List.map_eq_nil_iff.mp hcs
    rfl
  | cons x xs ih =>
    rw [List.flatMap_cons] at hcs
    obtain ⟨first, rest, rfl, hfirst, hrest⟩ := List.map_eq_append_iff.mp hcs
    rw [feedAll_append, feedAll_utf16Digits hfirst]
    simp only [ih hrest, List.flatMap_cons]

-- ---------------------------------------------------------------------------
-- What the decoder has in hand
-- ---------------------------------------------------------------------------

/-- No unit has more than three digits, and only a high surrogate waits. -/
structure Sound (e : UnicodeEscape) : Prop where
  digits : e.digits < 4
  unit : e.unit.toNat < 16 ^ e.digits
  high : ∀ {u}, e.high = some u → isHigh u = true

theorem sound_fresh : Sound {} :=
  ⟨by decide, by decide, nofun⟩

theorem sound_waiting {u : UInt16} (hu : isHigh u = true) : Sound { high := some u } :=
  ⟨Nat.zero_lt_succ _, Nat.zero_lt_one, fun h => Option.some.inj h ▸ hu⟩

/-- The digits that were taken in and not yet answered with a code point. -/
def inHand (e : UnicodeEscape) : List Char :=
  (e.high.toList.flatMap fun u => hexDigits 4 u.toNat) ++ lastDigits e.digits e.unit.toNat

/-- A digit that is taken goes to the unit, and the fourth one completes it. -/
theorem feed_cases (he : e.Sound) (h : e.feed x = (.ok r, e')) :
    ∃ a, hexDigit? x = some a ∧
      (e.digits + 1 < 4 ∧ r = none ∧
          e' = { e with unit := (e.unit <<< 4) ||| a.toUInt16, digits := e.digits + 1 } ∨
        e.digits + 1 = 4 ∧ complete e.high (16 * e.unit.toNat + a).toUInt16 = .ok r ∧
          e' = settled (16 * e.unit.toNat + a) r) := by
  cases ha : hexDigit? x with
  | none => simp [feed_of_none ha] at h
  | some a =>
    refine ⟨a, rfl, ?_⟩
    have hdigits := he.digits
    rcases Nat.lt_or_ge (e.digits + 1) 4 with hlt | hge
    · rw [feed_of_more ha hlt] at h
      simp only [Prod.mk.injEq, Except.ok.injEq] at h
      exact .inl ⟨hlt, h.1.symm, h.2.symm⟩
    · have hlast : e.digits + 1 = 4 := by omega
      exact .inr ⟨hlast, (feed_last_iff ha hlast (unit_lt he.unit he.digits)).mp h⟩

/-- A complete unit that is no error, with the high surrogate before it, if any,
is the text of the code point it is answered with, or is kept. -/
theorem inHand_settled {m : Nat} (he : e.Sound) (hm : m < 0x10000)
    (hc : complete e.high m.toUInt16 = .ok r) :
    (settled m r).Sound ∧
      (e.high.toList.flatMap fun u => hexDigits 4 u.toNat) ++ hexDigits 4 m =
        r.toList.flatMap utf16Digits ++ (settled m r).inHand := by
  have hunit := toNat_toUInt16 hm
  cases hhigh : e.high with
  | none =>
    rw [hhigh] at hc
    cases r with
    | none =>
      rw [complete_none_eq_none_iff] at hc
      exact ⟨sound_waiting hc, by simp [settled, inHand, lastDigits, hunit]⟩
    | some x =>
      rw [complete_none_eq_some_iff, hunit] at hc
      refine ⟨sound_fresh, ?_⟩
      simp [settled, inHand, lastDigits, utf16Digits, utf16_of_lt hc hm]
  | some high =>
    rw [hhigh, complete_some_iff, isLow_iff, hunit] at hc
    obtain ⟨x, rfl, hlow, hx⟩ := hc
    have hrange := isHigh_iff.mp (he.high hhigh)
    refine ⟨sound_fresh, ?_⟩
    simp [settled, inHand, lastDigits, utf16Digits, utf16_of_pair hrange.1 hlow hx]

/-- What is in hand and the digit that is fed are what is answered and what is
in hand afterwards. -/
theorem feed_conserves (he : e.Sound) (h : e.feed x = (.ok r, e')) :
    e'.Sound ∧ e.inHand ++ [x.toLower] = r.toList.flatMap utf16Digits ++ e'.inHand := by
  obtain ⟨a, ha, ⟨hmore, rfl, rfl⟩ | ⟨hlast, hc, rfl⟩⟩ := feed_cases he h
  · obtain ⟨hlt, hlower⟩ := hexDigit?_eq_some_iff.mp ha
    have hshift := toNat_shift (unit_lt he.unit he.digits) hlt
    refine ⟨⟨hmore, shift_lt he.unit he.digits hlt, he.high⟩, ?_⟩
    simp [inHand, hshift, lastDigits_snoc hlt, hlower]
  · obtain ⟨hlt, hlower⟩ := hexDigit?_eq_some_iff.mp ha
    have hsmall := unit_lt he.unit he.digits
    have hm : 16 * e.unit.toNat + a < 0x10000 := by omega
    obtain ⟨hsound, htext⟩ := inHand_settled he hm hc
    have hdigits : e.digits = 3 := by omega
    refine ⟨hsound, ?_⟩
    rw [← htext, hexDigits_eq_lastDigits hm, lastDigits_snoc hlt, hlower, inHand, hdigits,
      List.append_assoc]

/-- Over a run without an error no digit is lost. -/
theorem feedAll_conserves (he : e.Sound) (hok : ∀ err, .error err ∉ (e.feedAll cs).1) :
    e.inHand ++ cs.map Char.toLower =
      ((e.feedAll cs).1.filterMap codePoint?).flatMap utf16Digits ++ (e.feedAll cs).2.inHand := by
  induction cs generalizing e with
  | nil => simp [feedAll]
  | cons x cs ih =>
    simp only [feedAll, List.mem_cons, not_or] at hok ⊢
    cases hfeed : (e.feed x).1 with
    | error err => exact absurd hfeed.symm (hok err).1
    | ok r =>
      obtain ⟨hsound, hstep⟩ := feed_conserves he (Prod.ext hfeed rfl)
      have hrest := ih hsound fun err => (hok err).2
      calc
        e.inHand ++ (x :: cs).map Char.toLower
          = (e.inHand ++ [x.toLower]) ++ cs.map Char.toLower := by simp
        _ = r.toList.flatMap utf16Digits ++ ((e.feed x).2.inHand ++ cs.map Char.toLower) := by
          rw [hstep, List.append_assoc]
        _ = _ := by
          rw [hrest]
          cases r <;> simp [List.filterMap_cons, codePoint?]

theorem hexDigit?_of_feedAll (hok : ∀ err, .error err ∉ (e.feedAll cs).1) (hx : x ∈ cs) :
    (hexDigit? x).isSome = true := by
  induction cs generalizing e with
  | nil => exact nomatch hx
  | cons y cs ih =>
    simp only [feedAll, List.mem_cons, not_or] at hok
    rcases List.mem_cons.mp hx with rfl | hmem
    · cases hhex : hexDigit? x with
      | none => exact absurd (by rw [feed_of_none hhex]) (hok .invalidUnicode).1
      | some a => rfl
    · exact ih (fun err => (hok err).2) hmem

/-- Texts and their UTF-16 digits are in one-to-one correspondence. Fed the
digits of a text, in any mix of cases, a fresh decoder answers each code point
at the last of its digits and nothing at the others, and is fresh again at the
end. Whatever leaves a fresh decoder fresh without an error is nothing but
digits, those of the code points that were answered. -/
theorem decodes_utf16 :
    (∀ xs cs : List Char, cs.map Char.toLower = xs.flatMap utf16Digits →
      feedAll {} cs = (xs.flatMap answersFor, {})) ∧
    ∀ cs : List Char, (∀ err, .error err ∉ (feedAll {} cs).1) → (feedAll {} cs).2 = {} →
      (∀ x ∈ cs, x ∈ "0123456789abcdefABCDEF".toList) ∧
        cs.map Char.toLower = ((feedAll {} cs).1.filterMap codePoint?).flatMap utf16Digits := by
  refine ⟨fun xs cs => feedAll_flatMap, fun cs hok hfresh => ⟨fun x hx => ?_, ?_⟩⟩
  · exact mem_digits (hexDigit?_of_feedAll hok hx)
  · have htext := feedAll_conserves sound_fresh hok
    rw [hfresh] at htext
    simpa [inHand, lastDigits] using htext

end UnicodeEscape

end TextStream.Text
