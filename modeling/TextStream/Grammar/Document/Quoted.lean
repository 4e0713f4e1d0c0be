import TextStream.Cursor.Basic
import TextStream.Text.UnicodeEscape

/-!
# Strings in a document

A string runs from a quote to the next quote that is not escaped. Everything
between stands for itself, control characters included, except what a
backslash begins. Reading starts with the cursor on the opening quote.
-/

namespace TextStream.Document

open Text (UnicodeEscape)

/-- A string may not end with the text. -/
def nextInString : Scan Char := fun c =>
  match c.advance with
  | .ok x d => .ok x d
  | .error _ d => .error .unterminatedString d

/-- Feeds up to `n` code points to the decoder, stopping once it yields one. -/
def feedDigits : Nat → UnicodeEscape → Scan (Option Char × UnicodeEscape)
  | 0, e, c => .ok (none, e) c
  | n + 1, e, c =>
    match nextInString c with
    | .error err d => .error err d
    | .ok x d =>
      match e.feed x with
      | (.error err, _) => .error err d
      | (.ok (some y), e) => .ok (some y, e) d
      | (.ok none, e) => feedDigits n e d

/-- The backslash and letter that must follow a high surrogate. -/
def pairMark : Scan Unit := fun c =>
  match nextInString c with
  | .error err d => .error err d
  | .ok x d =>
    if x = '\\' then
      match nextInString d with
      | .error err f => .error err f
      | .ok y f => if y = 'u' then .ok () f else .error .invalidUnicode f
    else .error .invalidUnicode d

theorem unvisited_nextInString {c d : Cursor} {x : Char} (h : nextInString c = .ok x d) :
    d.unvisited.length < c.unvisited.length := by
  unfold nextInString at h
  split at h
  · next y f hy =>
    simp only [EStateM.Result.ok.injEq] at h
    obtain ⟨rfl, rfl⟩ := h
    exact Cursor.unvisited_advance_lt hy
  · simp at h

theorem unvisited_feedDigits {n : Nat} {e : UnicodeEscape} {c d : Cursor}
    {r : Option Char × UnicodeEscape} (h : feedDigits n e c = .ok r d) :
    d.unvisited.length ≤ c.unvisited.length := by
  induction n generalizing e c with
  | zero =>
    simp only [feedDigits, EStateM.Result.ok.injEq] at h
    exact Nat.le_of_eq (by rw [h.2])
  | succ n ih =>
    unfold feedDigits at h
    split at h
    · simp at h
    · next x f hx =>
      have hlt := unvisited_nextInString hx
      split at h
      · simp at h
      · simp only [EStateM.Result.ok.injEq] at h
        obtain ⟨-, rfl⟩ := h
        exact Nat.le_of_lt hlt
      · exact Nat.le_trans (ih h) (Nat.le_of_lt hlt)

theorem unvisited_pairMark {c d : Cursor} (h : pairMark c = .ok () d) :
    d.unvisited.length < c.unvisited.length := by
  unfold pairMark at h
  split at h
  · simp at h
  · next x f hx =>
    split at h
    · split at h
      · simp at h
      · next y g hy =>
        split at h
        · simp only [EStateM.Result.ok.injEq, true_and] at h
          subst h
          exact Nat.lt_trans (unvisited_nextInString hy) (unvisited_nextInString hx)
        · simp at h
    · simp at h

/-- The digits that are to come, and after a high surrogate a second escape. -/
def unicodeEscapeFrom (e : UnicodeEscape) : Scan Char := fun c =>
  match _hd : feedDigits 4 e c with
  | .error err d => .error err d
  | .ok (some x, _) d => .ok x d
  | .ok (none, e) d =>
    if e.isAwaitingLow then
      match _hp : pairMark d with
      | .error err f => .error err f
      | .ok () f => unicodeEscapeFrom e f
    else .error .invalidUnicode d
termination_by c => c.unvisited.length
decreasing_by exact Nat.lt_of_lt_of_le (unvisited_pairMark _hp) (unvisited_feedDigits _hd)

theorem unicodeEscapeFrom_eq (e : UnicodeEscape) (c : Cursor) :
    unicodeEscapeFrom e c =
      match feedDigits 4 e c with
      | .error err d => .error err d
      | .ok (some x, _) d => .ok x d
      | .ok (none, e) d =>
        if e.isAwaitingLow then
          match pairMark d with
          | .error err f => .error err f
          | .ok () f => unicodeEscapeFrom e f
        else .error .invalidUnicode d := by
  rw [unicodeEscapeFrom]
  split <;> simp_all
  split
  · split <;> simp_all
  · rfl

/-- Reads a Unicode escape with the cursor on its letter. -/
def unicodeEscape : Scan Char :=
  unicodeEscapeFrom {}

/-- The code point that a letter after a backslash stands for. -/
def letterEscape? (x : Char) : Option Char :=
  if x = '"' ∨ x = '\\' ∨ x = '/' then some x
  else if x = 'b' then some '\x08'
  else if x = 'f' then some '\x0c'
  else if x = 'n' then some '\n'
  else if x = 'r' then some '\r'
  else if x = 't' then some '\t'
  else none

/-- Reads an escape with the cursor on its backslash. -/
def escape : Scan Char := fun c =>
  match nextInString c with
  | .error err d => .error err d
  | .ok x d =>
    if x = 'u' then unicodeEscape d
    else
      match letterEscape? x with
      | some y => .ok y d
      | none => .error d.unexpectedCharacter d

/-- The next code point of the string, or `none` at the closing quote. -/
def stringItem : Scan (Option Char) := fun c =>
  match nextInString c with
  | .error err d => .error err d
  | .ok x d =>
    if x = '"' then .ok none d
    else if x = '\\' then
      match escape d with
      | .ok y f => .ok (some y) f
      | .error err f => .error err f
    else .ok (some x) d

theorem unvisited_unicodeEscapeFrom {e : UnicodeEscape} {c d : Cursor} {x : Char}
    (h : unicodeEscapeFrom e c = .ok x d) : d.unvisited.length ≤ c.unvisited.length := by
  fun_induction unicodeEscapeFrom e c with
  | case1 => simp at h
  | case2 e c y _ f hf =>
    simp only [EStateM.Result.ok.injEq] at h
    obtain ⟨-, rfl⟩ := h
    exact unvisited_feedDigits hf
  | case3 => simp at h
  | case4 e c _ f hf _ g hg ih =>
    exact Nat.le_trans (ih h)
      (Nat.le_trans (Nat.le_of_lt (unvisited_pairMark hg)) (unvisited_feedDigits hf))
  | case5 => simp at h

theorem unvisited_escape {c d : Cursor} {x : Char} (h : escape c = .ok x d) :
    d.unvisited.length < c.unvisited.length := by
  unfold escape at h
  split at h
  · simp at h
  · next y f hy =>
    have hlt := unvisited_nextInString hy
    split at h
    · exact Nat.lt_of_le_of_lt (unvisited_unicodeEscapeFrom h) hlt
    · split at h
      · simp only [EStateM.Result.ok.injEq] at h
        obtain ⟨-, rfl⟩ := h
        exact hlt
      · simp at h

theorem unvisited_stringItem {c d : Cursor} {r : Option Char} (h : stringItem c = .ok r d) :
    d.unvisited.length < c.unvisited.length := by
  unfold stringItem at h
  split at h
  · simp at h
  · next x f hx =>
    have hlt := unvisited_nextInString hx
    split at h
    · simp only [EStateM.Result.ok.injEq] at h
      obtain ⟨-, rfl⟩ := h
      exact hlt
    · split at h
      · split at h
        · next y g hy =>
          simp only [EStateM.Result.ok.injEq] at h
          obtain ⟨-, rfl⟩ := h
          exact Nat.lt_trans (unvisited_escape hy) hlt
        · simp at h
      · simp only [EStateM.Result.ok.injEq] at h
        obtain ⟨-, rfl⟩ := h
        exact hlt

/-- The rest of a string after `read`. The text may end right after the closing quote. -/
def stringFrom (read : String) : Scan String := fun c =>
  match _h : stringItem c with
  | .error err d => .error err d
  | .ok none d => .ok read d.move
  | .ok (some x) d => stringFrom (read.push x) d
termination_by c => c.unvisited.length
decreasing_by exact unvisited_stringItem _h

theorem stringFrom_eq (read : String) (c : Cursor) :
    stringFrom read c =
      match stringItem c with
      | .error err d => .error err d
      | .ok none d => .ok read d.move
      | .ok (some x) d => stringFrom (read.push x) d := by
  rw [stringFrom]
  split <;> simp_all

def string : Scan String :=
  stringFrom ""

end TextStream.Document
