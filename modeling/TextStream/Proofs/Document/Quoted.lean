import TextStream.Grammar.Document.Quoted
import TextStream.Proofs.Cursor.Passage
import TextStream.Proofs.Document.Language
import TextStream.Proofs.Text.UnicodeEscape

/-!
# Reading strings

Inside a string the cursor always stands on the last code point that was read,
so each part is described by the text it visits from there. A string is read
exactly where a quoted form of it is ahead.
-/

namespace TextStream.Document

open Text (UnicodeEscape)

variable {c d : Cursor} {x : Char}

theorem nextInString_eq_ok_iff : nextInString c = .ok x d ↔ Visits c [x] d := by
  unfold nextInString
  constructor
  · intro h
    split at h
    · next y e hy =>
      obtain ⟨rfl, rfl⟩ := EStateM.Result.ok.inj h
      obtain ⟨rfl, hx⟩ := Cursor.advance_eq_ok_iff.mp hy
      exact .cons hx (.nil _)
    · simp at h
  · rintro (_ | ⟨hx, ⟨⟩⟩)
    simp [Cursor.advance_eq_ok_iff.mpr ⟨rfl, hx⟩]

-- ---------------------------------------------------------------------------
-- Unicode escapes
-- ---------------------------------------------------------------------------

/-- The number that hexadecimal digits name behind those of `n`. -/
def hexFrom? (n : Nat) (ds : List Char) : Option Nat :=
  ds.foldlM (fun n x => (Text.hexDigit? x).map (16 * n + ·)) n

theorem hexFrom?_cons (n : Nat) (x : Char) (ds : List Char) :
    hexFrom? n (x :: ds) = (Text.hexDigit? x).bind fun a => hexFrom? (16 * n + a) ds := by
  unfold hexFrom?
  rw [List.foldlM_cons]
  cases Text.hexDigit? x <;> rfl

theorem hexFrom?_lt {n m k : Nat} {ds : List Char} (h : hexFrom? n ds = some m)
    (hn : n < 16 ^ k) : m < 16 ^ (k + ds.length) := by
  induction ds generalizing n k with
  | nil =>
    obtain rfl := Option.some.inj h
    exact hn
  | cons x ds ih =>
    rw [hexFrom?_cons] at h
    obtain ⟨a, ha, h⟩ := Option.bind_eq_some_iff.mp h
    have hlt := Text.hexDigit?_lt ha
    have hpow : 16 ^ (k + 1) = 16 * 16 ^ k := by rw [Nat.pow_succ]; omega
    have := ih (k := k + 1) h (by omega)
    rw [List.length_cons, Nat.add_comm ds.length, ← Nat.add_assoc]
    exact this

theorem hexUnit_iff {ds : List Char} {n : Nat} :
    HexUnit ds n ↔ ds.length = 4 ∧ hexFrom? 0 ds = some n := by
  unfold HexUnit Text.ofHex?
  refine and_congr_right fun hlen => ?_
  have hne : ds.isEmpty = false := by cases ds <;> simp_all
  rw [hne]
  exact Iff.rfl

theorem feedDigits_one_iff {e e' : UnicodeEscape} {r : Option Char} :
    feedDigits 1 e c = .ok (r, e') d ↔ ∃ x, Visits c [x] d ∧ e.feed x = (.ok r, e') := by
  simp only [feedDigits]
  constructor
  · intro h
    split at h
    · simp at h
    · next x f hx =>
      split at h
      · simp at h
      all_goals
        next hfeed =>
        simp only [EStateM.Result.ok.injEq, Prod.mk.injEq] at h
        obtain ⟨⟨rfl, rfl⟩, rfl⟩ := h
        exact ⟨x, nextInString_eq_ok_iff.mp hx, hfeed⟩
  · rintro ⟨x, hx, hfeed⟩
    rw [nextInString_eq_ok_iff.mpr hx]
    cases r <;> simp [hfeed]

theorem feedDigits_more_iff {n : Nat} {e e' : UnicodeEscape} {r : Option Char}
    (he : e.digits + 1 < 4) :
    feedDigits (n + 1) e c = .ok (r, e') d ↔
      ∃ x f a, Visits c [x] f ∧ Text.hexDigit? x = some a ∧
        feedDigits n { e with unit := (e.unit <<< 4) ||| a.toUInt16, digits := e.digits + 1 } f =
          .ok (r, e') d := by
  rw [feedDigits]
  constructor
  · intro h
    split at h
    · simp at h
    · next x f hx =>
      cases hhex : Text.hexDigit? x with
      | none => simp [UnicodeEscape.feed_of_none hhex] at h
      | some a =>
        rw [UnicodeEscape.feed_of_more hhex he] at h
        exact ⟨x, f, a, nextInString_eq_ok_iff.mp hx, hhex, h⟩
  · rintro ⟨x, f, a, hx, hhex, h⟩
    rw [nextInString_eq_ok_iff.mpr hx]
    simp only [UnicodeEscape.feed_of_more hhex he]
    exact h

/-- The digits that are missing from a unit complete it. -/
theorem feedDigits_eq_ok_iff {n : Nat} {e e' : UnicodeEscape} {r : Option Char}
    (hn : e.digits + (n + 1) = 4) (hu : e.unit.toNat < 16 ^ e.digits) :
    feedDigits (n + 1) e c = .ok (r, e') d ↔
      ∃ ds m, ds.length = n + 1 ∧ Visits c ds d ∧ hexFrom? e.unit.toNat ds = some m ∧
        UnicodeEscape.complete e.high m.toUInt16 = .ok r ∧ e' = .settled m r := by
  induction n generalizing e c with
  | zero =>
    have hu' := UnicodeEscape.unit_lt hu (by omega)
    rw [feedDigits_one_iff]
    constructor
    · rintro ⟨x, hx, hfeed⟩
      cases hhex : Text.hexDigit? x with
      | none => simp [UnicodeEscape.feed_of_none hhex] at hfeed
      | some a =>
        obtain ⟨hcomp, rfl⟩ := (UnicodeEscape.feed_last_iff hhex hn hu').mp hfeed
        exact ⟨[x], _, rfl, hx, by simp [hexFrom?_cons, hhex]; rfl, hcomp, rfl⟩
    · rintro ⟨ds, m, hlen, hvis, hhex, hcomp, rfl⟩
      obtain ⟨x, rfl⟩ := List.length_eq_one_iff.mp hlen
      rw [hexFrom?_cons] at hhex
      obtain ⟨a, ha, hm⟩ := Option.bind_eq_some_iff.mp hhex
      obtain rfl := Option.some.inj hm
      exact ⟨x, hvis, (UnicodeEscape.feed_last_iff ha hn hu').mpr ⟨hcomp, rfl⟩⟩
  | succ n ih =>
    have hu' := UnicodeEscape.unit_lt hu (by omega)
    have hn' : e.digits + 1 + (n + 1) = 4 := by omega
    rw [feedDigits_more_iff (by omega)]
    constructor
    · rintro ⟨x, f, a, hx, hhex, h⟩
      have ha := Text.hexDigit?_lt hhex
      have hlt := UnicodeEscape.shift_lt hu (by omega) ha
      obtain ⟨ds, m, hlen, hvis, hm, hcomp, rfl⟩ := (ih hn' hlt).mp h
      rw [UnicodeEscape.toNat_shift hu' ha] at hm
      refine ⟨x :: ds, m, by simp [hlen], hx.append hvis, ?_, hcomp, rfl⟩
      rw [hexFrom?_cons, hhex]
      exact hm
    · rintro ⟨ds, m, hlen, hvis, hhex, hcomp, rfl⟩
      obtain ⟨x, ds, rfl⟩ := List.exists_cons_of_length_eq_add_one hlen
      rw [hexFrom?_cons] at hhex
      obtain ⟨a, ha, hm⟩ := Option.bind_eq_some_iff.mp hhex
      obtain ⟨f, hx, hvis⟩ := Visits.split (w := [x]) hvis
      have hlt := UnicodeEscape.shift_lt hu (by omega) (Text.hexDigit?_lt ha)
      rw [← UnicodeEscape.toNat_shift hu' (Text.hexDigit?_lt ha)] at hm
      exact ⟨x, f, a, hx, ha, (ih hn' hlt).mpr ⟨ds, m, by simpa using hlen, hvis, hm, hcomp, rfl⟩⟩

/-- From a decoder between units, four digits are fed as one unit. -/
theorem feedDigits_unit_iff {high : Option UInt16} {e' : UnicodeEscape} {r : Option Char} :
    feedDigits 4 { high := high } c = .ok (r, e') d ↔
      ∃ ds m, HexUnit ds m ∧ Visits c ds d ∧
        UnicodeEscape.complete high m.toUInt16 = .ok r ∧ e' = .settled m r := by
  rw [feedDigits_eq_ok_iff (n := 3) (e := { high := high }) rfl Nat.zero_lt_one]
  constructor
  · rintro ⟨ds, m, hlen, hvis, hm, h⟩
    exact ⟨ds, m, hexUnit_iff.mpr ⟨hlen, hm⟩, hvis, h⟩
  · rintro ⟨ds, m, hunit, hvis, h⟩
    obtain ⟨hlen, hm⟩ := hexUnit_iff.mp hunit
    exact ⟨ds, m, hlen, hvis, hm, h⟩

theorem HexUnit.lt {ds : List Char} {m : Nat} (h : HexUnit ds m) : m < 2 ^ 16 := by
  obtain ⟨hlen, hm⟩ := hexUnit_iff.mp h
  have hlt := hexFrom?_lt (k := 0) hm Nat.zero_lt_one
  rw [hlen] at hlt
  exact hlt

theorem HexUnit.toNat_toUInt16 {ds : List Char} {m : Nat} (h : HexUnit ds m) :
    m.toUInt16.toNat = m := by
  show (UInt16.ofNat m).toNat = m
  rw [UInt16.toNat_ofNat', Nat.mod_eq_of_lt h.lt]

theorem pairMark_eq_ok_iff : pairMark c = .ok () d ↔ Visits c ['\\', 'u'] d := by
  unfold pairMark
  constructor
  · intro h
    split at h
    · simp at h
    · next x f hx =>
      split at h
      · split at h
        · simp at h
        · next y g hy =>
          split at h
          · obtain ⟨-, rfl⟩ := EStateM.Result.ok.inj h
            subst_vars
            exact (nextInString_eq_ok_iff.mp hx).append (nextInString_eq_ok_iff.mp hy)
          · simp at h
      · simp at h
  · intro h
    obtain ⟨f, hx, hy⟩ := Visits.split (w := ['\\']) h
    simp [nextInString_eq_ok_iff.mpr hx, nextInString_eq_ok_iff.mpr hy]

/-- The second half of a pair, after the mark that announces it. -/
theorem unicodeEscapeFrom_high_iff {high : UInt16} :
    unicodeEscapeFrom { high := some high } c = .ok x d ↔
      ∃ es low, HexUnit es low ∧ 0xDC00 ≤ low ∧ low ≤ 0xDFFF ∧ Visits c es d ∧
        x.toNat = 0x10000 + (high.toNat - 0xD800) * 0x400 + (low - 0xDC00) := by
  rw [unicodeEscapeFrom_eq]
  constructor
  · intro h
    split at h
    · simp at h
    · next y e' f hfeed =>
      obtain ⟨rfl, rfl⟩ := EStateM.Result.ok.inj h
      obtain ⟨es, low, hunit, hvis, hcomp, -⟩ := feedDigits_unit_iff.mp hfeed
      rw [UnicodeEscape.complete_some_iff, UnicodeEscape.isLow_iff, hunit.toNat_toUInt16] at hcomp
      obtain ⟨_, hy, ⟨hge, hle⟩, hx⟩ := hcomp
      obtain rfl := Option.some.inj hy
      exact ⟨es, low, hunit, hge, hle, hvis, hx⟩
    · next e' f hfeed =>
      obtain ⟨es, low, hunit, hvis, hcomp, -⟩ := feedDigits_unit_iff.mp hfeed
      obtain ⟨_, hy, -⟩ := UnicodeEscape.complete_some_iff.mp hcomp
      simp at hy
  · rintro ⟨es, low, hunit, hge, hle, hvis, hx⟩
    have hcomp : UnicodeEscape.complete (some high) low.toUInt16 = .ok (some x) := by
      rw [UnicodeEscape.complete_some_iff, UnicodeEscape.isLow_iff, hunit.toNat_toUInt16]
      exact ⟨x, rfl, ⟨hge, hle⟩, hx⟩
    rw [feedDigits_unit_iff.mpr ⟨es, low, hunit, hvis, hcomp, rfl⟩]

/-- A Unicode escape visits the digits of one unit, or those of a pair with a
backslash and a letter between them. -/
theorem unicodeEscape_eq_ok_iff :
    unicodeEscape c = .ok x d ↔
      ∃ w, Visits c w d ∧
        (HexUnit w x.toNat ∨
          ∃ ds es high low, w = ds ++ '\\' :: 'u' :: es ∧ HexUnit ds high ∧ 0xD800 ≤ high ∧
            high ≤ 0xDBFF ∧ HexUnit es low ∧ 0xDC00 ≤ low ∧ low ≤ 0xDFFF ∧
            x.toNat = 0x10000 + (high - 0xD800) * 0x400 + (low - 0xDC00)) := by
  unfold unicodeEscape
  rw [unicodeEscapeFrom_eq]
  constructor
  · intro h
    split at h
    · simp at h
    · next y e' f hfeed =>
      obtain ⟨rfl, rfl⟩ := EStateM.Result.ok.inj h
      obtain ⟨ds, m, hunit, hvis, hcomp, -⟩ := feedDigits_unit_iff.mp hfeed
      rw [UnicodeEscape.complete_none_eq_some_iff, hunit.toNat_toUInt16] at hcomp
      exact ⟨ds, hvis, .inl (hcomp ▸ hunit)⟩
    · next e' f hfeed =>
      obtain ⟨ds, high, hunit, hvis, hcomp, rfl⟩ := feedDigits_unit_iff.mp hfeed
      rw [UnicodeEscape.complete_none_eq_none_iff, UnicodeEscape.isHigh_iff,
        hunit.toNat_toUInt16] at hcomp
      split at h
      · split at h
        · simp at h
        · next g hmark =>
          obtain ⟨es, low, hunit', hge, hle, hvis', hx⟩ := unicodeEscapeFrom_high_iff.mp h
          rw [hunit.toNat_toUInt16] at hx
          refine ⟨ds ++ ('\\' :: 'u' :: es), hvis.append ?_, .inr ?_⟩
          · exact (pairMark_eq_ok_iff.mp hmark).append hvis'
          · exact ⟨ds, es, high, low, rfl, hunit, hcomp.1, hcomp.2, hunit', hge, hle, hx⟩
      · simp at h
  · rintro ⟨w, hvis, hunit | ⟨ds, es, high, low, rfl, hunit, hge, hle, hunit', hge', hle', hx⟩⟩
    · have hcomp : UnicodeEscape.complete none x.toNat.toUInt16 = .ok (some x) := by
        rw [UnicodeEscape.complete_none_eq_some_iff, hunit.toNat_toUInt16]
      rw [feedDigits_unit_iff.mpr ⟨w, _, hunit, hvis, hcomp, rfl⟩]
    · have hcomp : UnicodeEscape.complete none high.toUInt16 = .ok none := by
        rw [UnicodeEscape.complete_none_eq_none_iff, UnicodeEscape.isHigh_iff,
          hunit.toNat_toUInt16]
        exact ⟨hge, hle⟩
      obtain ⟨f, hvis, hvis'⟩ := hvis.split
      obtain ⟨g, hmark, hvis'⟩ := Visits.split (w := ['\\', 'u']) hvis'
      rw [feedDigits_unit_iff.mpr ⟨ds, high, hunit, hvis, hcomp, rfl⟩]
      simp only [UnicodeEscape.settled, UnicodeEscape.isAwaitingLow, Option.isSome_some,
        beq_self_eq_true, Bool.and_self, ↓reduceIte, pairMark_eq_ok_iff.mpr hmark]
      exact unicodeEscapeFrom_high_iff.mpr
        ⟨es, low, hunit', hge', hle', hvis', by rw [hunit.toNat_toUInt16]; exact hx⟩

-- ---------------------------------------------------------------------------
-- Strings
-- ---------------------------------------------------------------------------

theorem letterEscape?_eq_some_iff {y : Char} : letterEscape? x = some y ↔ (x, y) ∈ letters := by
  constructor
  · intro h
    unfold letterEscape? at h
    repeat' split at h
    · next hx =>
      obtain rfl := Option.some.inj h
      rcases hx with rfl | rfl | rfl <;> decide
    all_goals simp_all [letters, eq_comm]
  · have hall : ∀ e ∈ letters, letterEscape? e.1 = some e.2 := by decide
    exact hall (x, y)

/-- An escape visits what may follow the backslash of a spelling. -/
theorem escape_eq_ok_iff :
    escape c = .ok x d ↔ ∃ w, Visits c w d ∧ Spelling x ('\\' :: w) := by
  unfold escape
  constructor
  · intro h
    split at h
    · simp at h
    · next y f hy =>
      have hy := nextInString_eq_ok_iff.mp hy
      split at h
      · next hu =>
        subst hu
        obtain ⟨w, hvis, hunit |
          ⟨ds, es, high, low, rfl, hunit, hge, hle, hunit', hge', hle', hx⟩⟩ :=
          unicodeEscape_eq_ok_iff.mp h
        · exact ⟨'u' :: w, hy.append hvis, .unit hunit⟩
        · exact ⟨_, hy.append hvis, .pair hunit hge hle hunit' hge' hle' hx⟩
      · split at h
        · next z hz =>
          obtain ⟨rfl, rfl⟩ := EStateM.Result.ok.inj h
          exact ⟨[y], hy, .letter (letterEscape?_eq_some_iff.mp hz)⟩
        · simp at h
  · rintro ⟨w, hvis, hx⟩
    cases hx with
    | raw _ hne => exact absurd rfl hne
    | @letter y _ hy =>
      have hne : y ≠ 'u' := by
        rintro rfl
        simp [letters] at hy
      simp [nextInString_eq_ok_iff.mpr hvis, hne, letterEscape?_eq_some_iff.mpr hy]
    | @unit _ ds hunit =>
      obtain ⟨f, hu, hvis⟩ := Visits.split (w := ['u']) hvis
      simp [nextInString_eq_ok_iff.mpr hu, unicodeEscape_eq_ok_iff.mpr ⟨ds, hvis, .inl hunit⟩]
    | pair hunit hge hle hunit' hge' hle' hx =>
      obtain ⟨f, hu, hvis⟩ := Visits.split (w := ['u']) hvis
      have h := unicodeEscape_eq_ok_iff.mpr
        ⟨_, hvis, .inr ⟨_, _, _, _, rfl, hunit, hge, hle, hunit', hge', hle', hx⟩⟩
      simp [nextInString_eq_ok_iff.mpr hu, h]

theorem Spelling.not_quote {w : List Char} (h : Spelling x w) :
    ∃ y w', w = y :: w' ∧ y ≠ '"' ∧ (y ≠ '\\' → w' = [] ∧ y = x) := by
  cases h with
  | raw hq hb => exact ⟨_, _, rfl, hq, fun _ => ⟨rfl, rfl⟩⟩
  | letter _ => exact ⟨_, _, rfl, by decide, fun h => absurd rfl h⟩
  | unit _ => exact ⟨_, _, rfl, by decide, fun h => absurd rfl h⟩
  | pair => exact ⟨_, _, rfl, by decide, fun h => absurd rfl h⟩

theorem stringItem_eq_none_iff : stringItem c = .ok none d ↔ Visits c ['"'] d := by
  unfold stringItem
  constructor
  · intro h
    split at h
    · simp at h
    · next y f hy =>
      split at h
      · next hq =>
        obtain ⟨-, rfl⟩ := EStateM.Result.ok.inj h
        exact hq ▸ nextInString_eq_ok_iff.mp hy
      · split at h
        · split at h <;> simp at h
        · simp at h
  · intro h
    simp [nextInString_eq_ok_iff.mpr h]

theorem stringItem_eq_some_iff :
    stringItem c = .ok (some x) d ↔ ∃ w, Visits c w d ∧ Spelling x w := by
  unfold stringItem
  constructor
  · intro h
    split at h
    · simp at h
    · next y f hy =>
      have hvis := nextInString_eq_ok_iff.mp hy
      split at h
      · simp at h
      · next hq =>
        split at h
        · next hb =>
          subst hb
          split at h
          · next z g hz =>
            obtain ⟨hx, rfl⟩ := EStateM.Result.ok.inj h
            obtain rfl := Option.some.inj hx
            obtain ⟨w, hvis', hx⟩ := escape_eq_ok_iff.mp hz
            exact ⟨_, hvis.append hvis', hx⟩
          · simp at h
        · next hb =>
          obtain ⟨hx, rfl⟩ := EStateM.Result.ok.inj h
          obtain rfl := Option.some.inj hx
          exact ⟨[y], hvis, .raw hq hb⟩
  · rintro ⟨w, hvis, hx⟩
    obtain ⟨y, w', rfl, hq, hraw⟩ := hx.not_quote
    obtain ⟨f, hy, hrest⟩ := Visits.split (w := [y]) hvis
    rw [nextInString_eq_ok_iff.mpr hy]
    by_cases hb : y = '\\'
    · subst hb
      simp [escape_eq_ok_iff.mpr ⟨w', hrest, hx⟩]
    · obtain ⟨rfl, rfl⟩ := hraw hb
      cases hrest
      simp [hq, hb]

theorem stringFrom_sound {read s : String} (h : stringFrom read c = .ok s d) :
    ∃ xs w, s.toList = read.toList ++ xs ∧ Spelled xs w ∧ Passes c.move (w ++ ['"']) d := by
  induction hn : c.unvisited.length using Nat.strongRecOn generalizing read c with
  | ind n ih =>
    subst hn
    rw [stringFrom_eq] at h
    split at h
    · simp at h
    · next f hitem =>
      obtain ⟨rfl, rfl⟩ := EStateM.Result.ok.inj h
      exact ⟨[], [], by simp, .nil, (stringItem_eq_none_iff.mp hitem).passes⟩
    · next x f hitem =>
      obtain ⟨xs, ws, hs, hspell, hpass⟩ := ih _ (unvisited_stringItem hitem) h rfl
      obtain ⟨w, hvis, hx⟩ := stringItem_eq_some_iff.mp hitem
      refine ⟨x :: xs, w ++ ws, by simp [hs], .cons hx hspell, ?_⟩
      rw [List.append_assoc]
      exact hvis.passes.append hpass

theorem stringFrom_complete {xs w : List Char} (h : Spelled xs w) {read : String}
    (hp : Passes c.move (w ++ ['"']) d) : stringFrom read c = .ok (read ++ String.ofList xs) d := by
  induction h generalizing read c with
  | nil =>
    obtain ⟨f, hvis, rfl⟩ := Visits.of_passes hp
    rw [stringFrom_eq, stringItem_eq_none_iff.mpr hvis]
    simp
  | cons hx _ ih =>
    rw [List.append_assoc] at hp
    obtain ⟨e, hpass, hrest⟩ := hp.split
    obtain ⟨f, hvis, rfl⟩ := Visits.of_passes hpass
    rw [stringFrom_eq, stringItem_eq_some_iff.mpr ⟨_, hvis, hx⟩]
    simp only [ih hrest]
    congr 1
    rw [← String.toList_inj]
    simp

/-- A string is read exactly where a quoted form of it is ahead. -/
theorem string_eq_ok_iff {s : String} (hc : c.current = some '"') :
    string c = .ok s d ↔ ∃ w, Quoted s w ∧ Passes c w d := by
  unfold string
  constructor
  · intro h
    obtain ⟨xs, w, hs, hspell, hpass⟩ := stringFrom_sound h
    have hxs : xs = s.toList := by simpa using hs.symm
    exact ⟨_, .quotes (hxs ▸ hspell), .cons hc hpass⟩
  · rintro ⟨_, ⟨hspell⟩, hpass⟩
    rw [stringFrom_complete hspell hpass.move_of_cons]
    simp

end TextStream.Document
