import TextStream.Proofs.Document.Stepwise

/-!
# Where reading a document stops

A reading that fails has passed over a text and stands behind it. The error
says what is wrong there. For an error that points at a code point, and for the
end of the text, that text is the beginning of one that could have been read.
-/

namespace TextStream.Document

open Text (UnicodeEscape)

variable {α : Type} {c d f : Cursor} {e : ParseError} {L L' : List Char → Prop}

-- ---------------------------------------------------------------------------
-- Explaining an error
-- ---------------------------------------------------------------------------

/-- Some text of the language begins with `w`. -/
def Viable (L : List Char → Prop) (w : List Char) : Prop :=
  ∃ u, L (w ++ u)

theorem Viable.of_mem {w : List Char} (h : L w) : Viable L w :=
  ⟨[], by rwa [List.append_nil]⟩

/-- The texts that mean something. -/
def Texts (Item : α → List Char → Prop) (w : List Char) : Prop :=
  ∃ a, Item a w

/-- What the error says of a reading that passed over `w` and stopped at `d`. -/
inductive Explains (L : List Char → Prop) (w : List Char) (d : Cursor) : ParseError → Prop
  | incomplete : d.current = none → Viable L w → Explains L w d .endOfFile
  | misplaced {e : ParseError} :
      e.position? = some d.position → d.isSeated = true → Viable L w → Explains L w d e
  | unterminated : d.current = none → Explains L w d .unterminatedString
  | malformed : d.isSeated = true → Explains L w d .invalidUnicode

/-- A reading from `c` that failed at `d` is explained by what it passed over. -/
def Explained (L : List Char → Prop) (c : Cursor) (e : ParseError) (d : Cursor) : Prop :=
  ∃ w, Passes c w d ∧ Explains L w d e

namespace Explained

variable {w : List Char}

theorem ended (h : Passes c w d) (hd : d.current = none) (hw : Viable L w) :
    Explained L c .endOfFile d :=
  ⟨w, h, .incomplete hd hw⟩

theorem refused {x : Char} (h : Passes c w d) (hd : d.current = some x)
    (he : e.position? = some d.position) (hw : Viable L w) : Explained L c e d :=
  ⟨w, h, .misplaced he (by simp [Cursor.isSeated, hd]) hw⟩

/-- A reading that fails behind `w` fails as part of a larger one, in which
what could come next can come behind `w`. -/
theorem after (hw : Passes c w f) (h : Explained L f e d) (hL : ∀ u, L u → Viable L' (w ++ u)) :
    Explained L' c e d := by
  have hviable : ∀ v, Viable L v → Viable L' (w ++ v) := by
    rintro v ⟨u, hu⟩
    obtain ⟨u', hu'⟩ := hL _ hu
    exact ⟨u ++ u', by simpa using hu'⟩
  obtain ⟨v, hv, h⟩ := h
  refine ⟨w ++ v, hw.append hv, ?_⟩
  cases h with
  | incomplete hd h => exact .incomplete hd (hviable v h)
  | misplaced he hd h => exact .misplaced he hd (hviable v h)
  | unterminated hd => exact .unterminated hd
  | malformed hd => exact .malformed hd

theorem mono (h : Explained L c e d) (hL : ∀ u, L u → Viable L' u) : Explained L' c e d :=
  h.after (.nil c) hL

/-- An error that says nothing of what could have come is explained alike in any language. -/
theorem anyhow (hw : Passes c w f) (h : Explained (fun _ => False) f e d) : Explained L c e d :=
  h.after hw fun _ hu => hu.elim

end Explained

-- ---------------------------------------------------------------------------
-- Numbers
-- ---------------------------------------------------------------------------

theorem mark_error {p : Char → Bool} (h : mark p c = .error e d) :
    ∃ x, p x = true ∧ c.current = some x ∧ d = c.move ∧ d.current = none ∧ e = .endOfFile := by
  unfold mark at h
  split at h
  · simp at h
  · next x hx =>
    split at h
    · next hp =>
      split at h
      · simp at h
      · next e' d' hadv =>
        obtain ⟨rfl, rfl⟩ := EStateM.Result.error.inj h
        exact ⟨x, hp, hx, Cursor.advance_eq_error_iff.mp hadv⟩
    · simp at h

/-- Where digits are missing they could have followed. -/
theorem digits_error (h : digits c = .error e d) (hL : Viable L []) : Explained L c e d := by
  unfold digits at h
  split at h
  · next hx =>
    obtain ⟨rfl, rfl⟩ := EStateM.Result.error.inj h
    exact .ended (.nil _) hx hL
  · next x hx =>
    split at h
    · simp at h
    · obtain ⟨rfl, rfl⟩ := EStateM.Result.error.inj h
      exact .refused (.nil _) hx rfl hL

theorem digits_zero : Digits ['0'] :=
  ⟨by simp, by simp⟩

theorem whole_error (h : whole c = .error e d) : Explained Whole c e d := by
  unfold whole at h
  split at h
  · next hzero =>
    simp only at h
    cases hx : c.move.current with
    | none => simp [hx] at h
    | some x =>
      split at h
      · obtain ⟨rfl, rfl⟩ := EStateM.Result.error.inj h
        exact .refused (.one hzero) hx rfl (.of_mem (.inl rfl))
      · simp at h
  · exact digits_error h ⟨['0'], .inl rfl⟩

/-- A part that begins with a mark fails behind the mark, where the text may end. -/
theorem optional_error {p : Char → Bool} {rest : String → Scan String}
    (h : (do let m ← mark p; if m.isEmpty then return "" else rest m : Scan String) c =
      .error e d) :
    ∃ x, p x = true ∧ Passes c [x] c.move ∧
      (e = .endOfFile ∧ d = c.move ∧ d.current = none ∨ rest x.toString c.move = .error e d) := by
  rcases Scan.bind_eq_error_iff.mp h with h | ⟨m, f, hm, h⟩
  · obtain ⟨x, hp, hx, rfl, hd, rfl⟩ := mark_error h
    exact ⟨x, hp, .one hx, .inl ⟨rfl, rfl, hd⟩⟩
  · rcases mark_eq_ok_iff.mp hm with ⟨rfl, -, -⟩ | ⟨x, hp, rfl, hx, -⟩
    · cases h
    · cases hx with
      | cons hx hf =>
        cases hf
        exact ⟨x, hp, .one hx, .inr (by simpa using h)⟩

theorem fraction_error (h : fraction c = .error e d) : Explained (Texts Fraction) c e d := by
  have hpoint : Viable (fun u => Texts Fraction ('.' :: u)) [] := ⟨['0'], _, .point digits_zero⟩
  obtain ⟨x, hp, hx, ⟨rfl, rfl, hd⟩ | h⟩ := optional_error h
  · obtain rfl := eq_of_beq hp
    exact .ended hx hd hpoint
  · obtain rfl := eq_of_beq hp
    rcases Scan.bind_eq_error_iff.mp h with h | ⟨_, _, -, h⟩
    · exact (digits_error h hpoint).after hx fun u hu => .of_mem hu
    · cases h

theorem exponent_error (h : exponent c = .error e d) : Explained (Texts Power) c e d := by
  obtain ⟨x, hp, hx, h⟩ := optional_error h
  have hpower : ∀ {s}, Marked isPowerSign s → Viable (fun u => Texts Power (x :: s ++ u)) [] := by
    intro s hs
    obtain ⟨negative, hs⟩ := powerSign_iff.mpr hs
    exact ⟨['0'], _, .marked (isPowerMark_iff.mp hp) hs digits_zero⟩
  rcases h with ⟨rfl, rfl, hd⟩ | h
  · exact .ended hx hd (hpower (.inl rfl))
  · rcases Scan.bind_eq_error_iff.mp h with h | ⟨s, f, hs, h⟩
    · obtain ⟨y, hy, hcur, rfl, hd, rfl⟩ := mark_error h
      exact .ended (hx.snoc hcur) hd (hpower (.inr ⟨y, hy, rfl⟩))
    · obtain ⟨hs, hpass⟩ := Marked.of_mark hs
      rcases Scan.bind_eq_error_iff.mp h with h | ⟨_, _, -, h⟩
      · exact (digits_error h (hpower hs)).after (hx.append hpass) fun u hu => .of_mem hu
      · cases h

theorem texts_numeral {negative : Bool} {s w ds f : List Char} (hs : Sign negative s)
    (hw : Whole w) (hf : Fraction ds f) : Texts Numeral (s ++ w ++ f) :=
  ⟨_, by simpa only [List.append_nil] using Numeral.parts hs hw hf .absent⟩

theorem numeral_error (h : numeral c = .error e d) : Explained (Texts Numeral) c e d := by
  rcases Scan.bind_eq_error_iff.mp h with h | ⟨sg, c₁, hsg, h⟩
  · obtain ⟨x, hp, hx, rfl, hd, rfl⟩ := mark_error h
    obtain rfl := eq_of_beq hp
    exact .ended (.one hx) hd ⟨['0'], _, .parts .minus (.inl rfl) .absent .absent⟩
  obtain ⟨hsign, hps⟩ := Marked.of_mark hsg
  obtain ⟨negative, hsign⟩ := sign_iff.mpr hsign
  rcases Scan.bind_eq_error_iff.mp h with h | ⟨w, c₂, hw, h⟩
  · refine (whole_error h).after hps fun u hu => .of_mem ?_
    simpa using texts_numeral hsign hu .absent
  obtain ⟨hwhole, hpw, -⟩ := whole_eq_ok_iff.mp hw
  rcases Scan.bind_eq_error_iff.mp h with h | ⟨f, c₃, hf, h⟩
  · exact (fraction_error h).after (hps.append hpw) fun u ⟨ds, hu⟩ =>
      .of_mem (texts_numeral hsign hwhole hu)
  obtain ⟨⟨ds, hfrac⟩, hpf, -⟩ := fraction_eq_ok_iff.mp hf
  rcases Scan.bind_eq_error_iff.mp h with h | ⟨_, _, -, h⟩
  · exact (exponent_error h).after ((hps.append hpw).append hpf) fun u ⟨n, hu⟩ =>
      .of_mem ⟨_, .parts hsign hwhole hfrac hu⟩
  · cases h

/-- Every text of a number can be converted, so only the text itself can be wrong. -/
theorem number_error (h : number c = .error e d) : Explained (Texts Numeral) c e d := by
  rw [number_eq] at h
  split at h
  · next hnumeral =>
    obtain ⟨rfl, rfl⟩ := EStateM.Result.error.inj h
    exact numeral_error hnumeral
  · next text f htext =>
    obtain ⟨_, _, _, _, _, _, _, hsign, hwhole, hfrac, hpow, hs, -⟩ := numeral_eq_ok_iff.mp htext
    have hn := Numeral.parts hsign hwhole hfrac hpow
    rw [← hs] at hn
    simp [Decimal.toFloat?, hn.ofList?] at h

/-- A keyword is left where the text ends or differs from it. -/
theorem matchAt_error {k : Keyword} (h : k.matchAt c = .error e d) : Explained (· = k) c e d := by
  induction k generalizing c with
  | nil => simp [Keyword.matchAt] at h
  | cons k rest ih =>
    unfold Keyword.matchAt at h
    split at h
    · next hx =>
      obtain ⟨rfl, rfl⟩ := EStateM.Result.error.inj h
      exact .ended (.nil _) hx ⟨_, rfl⟩
    · next x hx =>
      split at h
      · next hk =>
        exact (ih h).after (.one (hk ▸ hx)) fun u hu => .of_mem (by rw [hu]; rfl)
      · obtain ⟨rfl, rfl⟩ := EStateM.Result.error.inj h
        exact .refused (.nil _) hx rfl ⟨_, rfl⟩

-- ---------------------------------------------------------------------------
-- Strings
-- ---------------------------------------------------------------------------

theorem nextInString_error (h : nextInString c = .error e d) :
    d = c.move ∧ d.current = none ∧ e = .unterminatedString := by
  unfold nextInString at h
  split at h
  · simp at h
  · next hadv =>
    obtain ⟨rfl, rfl⟩ := EStateM.Result.error.inj h
    obtain ⟨rfl, hd, -⟩ := Cursor.advance_eq_error_iff.mp hadv
    exact ⟨rfl, hd, rfl⟩

/-- In a string the cursor stands on the last code point that was read, so what
is passed over from there on begins one move further. -/
theorem nextInString_explained (h : nextInString c = .error e d) : Explained L c.move e d := by
  obtain ⟨rfl, hd, rfl⟩ := nextInString_error h
  exact ⟨[], .nil _, .unterminated hd⟩

theorem malformed_explained {w : List Char} (h : Visits c w d) (hw : w ≠ []) :
    Explained L c.move .invalidUnicode d := by
  obtain ⟨v, x, -, hpass, hx⟩ := h.last hw
  exact ⟨v, hpass, .malformed (by simp [Cursor.isSeated, hx])⟩

theorem feedDigits_error {n : Nat} {u : UnicodeEscape} (h : feedDigits n u c = .error e d) :
    Explained (fun _ => False) c.move e d := by
  induction n generalizing u c with
  | zero => simp [feedDigits] at h
  | succ n ih =>
    unfold feedDigits at h
    split at h
    · next hnext =>
      obtain ⟨rfl, rfl⟩ := EStateM.Result.error.inj h
      exact nextInString_explained hnext
    · next x f hnext =>
      have hvisits := nextInString_eq_ok_iff.mp hnext
      split at h
      · next hfeed =>
        obtain ⟨rfl, rfl⟩ := EStateM.Result.error.inj h
        obtain rfl := UnicodeEscape.feed_error hfeed
        exact malformed_explained hvisits (by simp)
      · simp at h
      · exact .anyhow hvisits.passes (ih h)

theorem feedDigits_visits {n : Nat} {u : UnicodeEscape} {r : Option Char × UnicodeEscape}
    (h : feedDigits (n + 1) u c = .ok r d) : ∃ w, Visits c w d ∧ w ≠ [] := by
  induction n generalizing u c with
  | zero =>
    obtain ⟨x, hx, -⟩ := feedDigits_one_iff.mp h
    exact ⟨[x], hx, by simp⟩
  | succ n ih =>
    rw [feedDigits] at h
    split at h
    · simp at h
    · next x f hnext =>
      have hvisits := nextInString_eq_ok_iff.mp hnext
      split at h
      · simp at h
      · obtain ⟨-, rfl⟩ := EStateM.Result.ok.inj h
        exact ⟨[x], hvisits, by simp⟩
      · obtain ⟨w, hw, -⟩ := ih h
        exact ⟨[x] ++ w, hvisits.append hw, by simp⟩

theorem pairMark_error (h : pairMark c = .error e d) : Explained (fun _ => False) c.move e d := by
  unfold pairMark at h
  split at h
  · next hnext =>
    obtain ⟨rfl, rfl⟩ := EStateM.Result.error.inj h
    exact nextInString_explained hnext
  · next x f hnext =>
    have hvisits := nextInString_eq_ok_iff.mp hnext
    split at h
    · split at h
      · next hnext' =>
        obtain ⟨rfl, rfl⟩ := EStateM.Result.error.inj h
        exact .anyhow hvisits.passes (nextInString_explained hnext')
      · next hnext' =>
        split at h
        · simp at h
        · obtain ⟨rfl, rfl⟩ := EStateM.Result.error.inj h
          have hvisits' := nextInString_eq_ok_iff.mp hnext'
          exact malformed_explained (hvisits.append hvisits') (by simp)
    · obtain ⟨rfl, rfl⟩ := EStateM.Result.error.inj h
      exact malformed_explained hvisits (by simp)

theorem unicodeEscapeFrom_error {u : UnicodeEscape} (h : unicodeEscapeFrom u c = .error e d) :
    Explained (fun _ => False) c.move e d := by
  fun_induction unicodeEscapeFrom u c with
  | case1 u c err f hfeed =>
    obtain ⟨rfl, rfl⟩ := EStateM.Result.error.inj h
    exact feedDigits_error hfeed
  | case2 => simp at h
  | case3 u c u' f hfeed _ err g hmark =>
    obtain ⟨rfl, rfl⟩ := EStateM.Result.error.inj h
    obtain ⟨w, hw, -⟩ := feedDigits_visits hfeed
    exact .anyhow hw.passes (pairMark_error hmark)
  | case4 u c u' f hfeed _ g hmark ih =>
    obtain ⟨w, hw, -⟩ := feedDigits_visits hfeed
    exact .anyhow (hw.append (pairMark_eq_ok_iff.mp hmark)).passes (ih h)
  | case5 u c u' f hfeed _ =>
    obtain ⟨rfl, rfl⟩ := EStateM.Result.error.inj h
    obtain ⟨w, hw, hne⟩ := feedDigits_visits hfeed
    exact malformed_explained hw hne

theorem escape_error (h : escape c = .error e d) :
    Explained (fun u => ∃ x, Spelling x ('\\' :: u)) c.move e d := by
  unfold escape at h
  split at h
  · next hnext =>
    obtain ⟨rfl, rfl⟩ := EStateM.Result.error.inj h
    exact nextInString_explained hnext
  · next x f hnext =>
    have hvisits := nextInString_eq_ok_iff.mp hnext
    split at h
    · exact .anyhow hvisits.passes (unicodeEscapeFrom_error h)
    · split at h
      · simp at h
      · obtain ⟨rfl, rfl⟩ := EStateM.Result.error.inj h
        cases hvisits with
        | cons hx hf =>
          cases hf
          exact .refused (.nil _) hx rfl ⟨['n'], '\n', .letter (by decide)⟩

theorem stringItem_error (h : stringItem c = .error e d) :
    Explained (Texts Spelling) c.move e d := by
  unfold stringItem at h
  split at h
  · next hnext =>
    obtain ⟨rfl, rfl⟩ := EStateM.Result.error.inj h
    exact nextInString_explained hnext
  · next x f hnext =>
    split at h
    · simp at h
    · split at h
      · next hb =>
        subst hb
        split at h
        · simp at h
        · next hescape =>
          obtain ⟨rfl, rfl⟩ := EStateM.Result.error.inj h
          exact (escape_error hescape).after (nextInString_eq_ok_iff.mp hnext).passes
            fun u hu => .of_mem hu
      · simp at h

theorem texts_quoted_nil : Texts Quoted ['"', '"'] :=
  ⟨"", .quotes (s := "") (w := []) .nil⟩

theorem Spelling.texts_quoted {x : Char} {w u : List Char} (hx : Spelling x w)
    (hu : Texts Quoted ('"' :: u)) : Texts Quoted ('"' :: (w ++ u)) := by
  obtain ⟨s, hs⟩ := hu
  generalize hq : '"' :: u = q at hs
  cases hs with
  | @quotes v hspell =>
    obtain rfl := List.tail_eq_of_cons_eq hq
    refine ⟨String.ofList (x :: s.toList), ?_⟩
    have hq := Quoted.quotes (s := String.ofList (x :: s.toList)) (w := w ++ v)
      (by rw [String.toList_ofList]; exact .cons hx hspell)
    simpa using hq

theorem stringFrom_error {read : String} (h : stringFrom read c = .error e d) :
    Explained (fun u => Texts Quoted ('"' :: u)) c.move e d := by
  induction hn : c.unvisited.length using Nat.strongRecOn generalizing read c with
  | ind n ih =>
    subst hn
    rw [stringFrom_eq] at h
    split at h
    · next hitem =>
      obtain ⟨rfl, rfl⟩ := EStateM.Result.error.inj h
      refine (stringItem_error hitem).mono ?_
      rintro u ⟨x, hx⟩
      exact ⟨['"'], hx.texts_quoted texts_quoted_nil⟩
    · simp at h
    · next x f hitem =>
      obtain ⟨w, hvis, hx⟩ := stringItem_eq_some_iff.mp hitem
      exact (ih _ (unvisited_stringItem hitem) h rfl).after hvis.passes fun u hu =>
        .of_mem (hx.texts_quoted hu)

theorem string_error (hc : c.current = some '"') (h : string c = .error e d) :
    Explained (Texts Quoted) c e d :=
  (stringFrom_error h).after (.one hc) fun _ hu => .of_mem hu

-- ---------------------------------------------------------------------------
-- Marks between items
-- ---------------------------------------------------------------------------

/-- The mark could come next, with blanks before it, and something behind it. -/
structure Awaits (L : List Char → Prop) (x : Char) : Prop where
  before : ∀ {b}, Blanks b → Viable L b
  behind : ∀ {b}, Blanks b → Viable L (b ++ [x])

section
variable {x : Char} {a : α} {other : Scan α}

theorem pastMark_error (h : pastMark x a other c = .error e d) (hL : Awaits L x)
    (hother : ∀ {f e d}, other f = .error e d → e = f.unexpectedCharacter ∧ d = f) :
    Explained L c e d := by
  obtain ⟨b, hb, hpass, -⟩ := exists_blanks c
  unfold pastMark at h
  revert h hpass
  generalize skipBlanks c = f
  intro h hpass
  simp only at h
  split at h
  · next hx =>
    obtain ⟨rfl, rfl⟩ := EStateM.Result.error.inj h
    exact .ended hpass hx (hL.before hb)
  · next y hy =>
    split at h
    · next hxy =>
      split at h
      · simp at h
      · next hadv =>
        obtain ⟨rfl, rfl⟩ := EStateM.Result.error.inj h
        obtain ⟨rfl, hnone, rfl⟩ := Cursor.advance_eq_error_iff.mp hadv
        exact .ended (hpass.snoc (hxy ▸ hy)) hnone (hL.behind hb)
    · obtain ⟨rfl, rfl⟩ := hother h
      exact .refused hpass hy rfl (hL.before hb)

/-- A mark that was passed over has blanks around it, also where the text ends behind them. -/
theorem pastMark_gap (h : pastMark x a other c = .ok a d) (hother : ∀ {f}, other f ≠ .ok a d) :
    Gap c x d := by
  obtain ⟨b, hb, hpass, -⟩ := exists_blanks c
  unfold pastMark at h
  revert h hpass
  generalize skipBlanks c = f
  intro h hpass
  simp only at h
  split at h
  · simp at h
  · next y hy =>
    split at h
    · next hxy =>
      split at h
      · next g hadv =>
        obtain ⟨-, rfl⟩ := EStateM.Result.ok.inj h
        obtain ⟨rfl, -⟩ := Cursor.advance_eq_ok hadv
        obtain ⟨b', hb', hpass', hstop⟩ := exists_blanks f.move
        exact ⟨b, b', hb, hb', hpass.append (.cons (hxy ▸ hy) hpass'), hstop⟩
      · simp at h
    · exact absurd h hother

end

theorem separator_error {close : Char} (h : separator close c = .error e d) (hL : Awaits L ',') :
    Explained L c e d := by
  rw [separator_eq] at h
  refine pastMark_error h hL fun h => ?_
  split at h
  · simp at h
  · obtain ⟨rfl, rfl⟩ := EStateM.Result.error.inj h
    exact ⟨rfl, rfl⟩

theorem separator_gap {close : Char} (h : separator close c = .ok true d) : Gap c ',' d := by
  rw [separator_eq] at h
  refine pastMark_gap h fun h => ?_
  split at h <;> simp at h

theorem colon_error (h : colon c = .error e d) (hL : Awaits L ':') : Explained L c e d := by
  rw [colon_eq] at h
  refine pastMark_error h hL fun h => ?_
  obtain ⟨rfl, rfl⟩ := EStateM.Result.error.inj h
  exact ⟨rfl, rfl⟩

theorem colon_gap (h : colon c = .ok () d) : Gap c ':' d := by
  rw [colon_eq] at h
  exact pastMark_gap h fun h => by simp at h

-- ---------------------------------------------------------------------------
-- Lists
-- ---------------------------------------------------------------------------

/-- What follows the opening bracket of a list that has items, and the blanks there. -/
def Ending (close : Char) (Item : α → List Char → Prop) (w : List Char) : Prop :=
  ∃ as v, Listed Item as v ∧ w = v ++ [close]

section
variable {close left : Char} {Item : α → List Char → Prop} {item : Scan α} {w u b b' : List Char}

theorem Ending.one {a : α} (ha : Item a w) (hb : Blanks b) :
    Ending close Item (w ++ b ++ [close]) :=
  ⟨[a], w ++ b, .one ha hb, rfl⟩

theorem Ending.more {a : α} (ha : Item a w) (hb : Blanks b) (hb' : Blanks b')
    (hu : Ending close Item u) : Ending close Item (w ++ b ++ ',' :: b' ++ u) := by
  obtain ⟨as, v, hv, rfl⟩ := hu
  exact ⟨a :: as, _, .more ha hb hb' hv, by simp⟩

/-- Behind an item there can be another one or the end of the list. -/
theorem awaits_comma {a : α} (ha : Item a w) (hsome : ∃ v, Texts Item v) :
    Awaits (fun u => Ending close Item (w ++ u)) ',' where
  before hb := ⟨[close], by simpa using Ending.one ha hb⟩
  behind hb := by
    obtain ⟨v, a', ha'⟩ := hsome
    have hend : Ending close Item (v ++ [] ++ [close]) := .one ha' blanks_nil
    exact ⟨v ++ [close], by simpa using Ending.more ha hb blanks_nil hend⟩

/-- Errors in a list are explained if those in its items are. -/
theorem items_error {m n : Nat} (hr : Reads m item Item) (hc : Consumes item)
    (hsome : ∃ v, Texts Item v) (hn : c.pending ≤ n)
    (hitem : ∀ {f e d}, f.pending ≤ c.pending → item f = .error e d → Explained (Texts Item) f e d)
    (h : (items close item n c).ended = .error e d) : Explained (Ending close Item) c e d := by
  induction n generalizing c with
  | zero =>
    obtain ⟨v, a, ha⟩ := hsome
    obtain ⟨rfl, rfl⟩ := EStateM.Result.error.inj h
    exact .ended (.nil _) (current_eq_none_of_bound hn) ⟨_, Ending.one ha blanks_nil⟩
  | succ n ih =>
    unfold items at h
    split at h
    · next hfail =>
      obtain ⟨rfl, rfl⟩ := EStateM.Result.error.inj h
      refine (hitem (Nat.le_refl _) hfail).mono ?_
      rintro u ⟨a, ha⟩
      exact ⟨[close], by simpa using Ending.one ha blanks_nil⟩
    · next a f ha =>
      have hless := hc.less ha
      obtain ⟨w, hw, hpass⟩ := hr.sound ha
      rcases hsep : separator close f with ⟨_ | _, g⟩ | ⟨e', g⟩
      · simp only [hsep, Trail.report, Trail.done] at h
        cases h
      · simp only [hsep, Trail.report] at h
        have hle := (stepwise_separator close).pending_le_of_ok hsep
        obtain ⟨b, b', hb, hb', hgap, -⟩ := separator_gap hsep
        refine (ih (by omega) (fun hf => hitem (by omega)) h).after (hpass.append hgap) ?_
        intro u hu
        exact .of_mem (by simpa using Ending.more hw hb hb' hu)
      · simp only [hsep, Trail.report] at h
        obtain ⟨rfl, rfl⟩ := EStateM.Result.error.inj h
        exact (separator_error hsep (awaits_comma hw hsome)).after hpass fun u hu => .of_mem hu

theorem bracketed_error {m : Nat} (hr : Reads m item Item) (hc : Consumes item)
    (hsome : ∃ v, Texts Item v) (hleft : c.current = some left)
    (hitem : ∀ {f e d}, f.pending < c.pending → item f = .error e d → Explained (Texts Item) f e d)
    (h : (bracketed close item c).ended = .error e d) :
    Explained (Texts (Bracketed left close Item)) c e d := by
  unfold bracketed at h
  split at h
  · next hadv =>
    obtain ⟨rfl, rfl⟩ := EStateM.Result.error.inj h
    obtain ⟨rfl, hnone, rfl⟩ := Cursor.advance_eq_error_iff.mp hadv
    exact .ended (.one hleft) hnone ⟨[close], [], .empty blanks_nil⟩
  · next x f hadv =>
    obtain ⟨rfl, -⟩ := Cursor.advance_eq_ok hadv
    have hless := Nat.lt_of_le_of_lt (pending_skipBlanks_le c.move) (Cursor.pending_move_lt hleft)
    obtain ⟨b, hb, hpass, -⟩ := exists_blanks c.move
    simp only at h
    split at h
    · cases h
    · refine (items_error hr hc hsome (Nat.le_refl _) (fun hf => hitem (by omega)) h).after
        (.cons hleft hpass) ?_
      rintro _ ⟨as, v, hv, rfl⟩
      exact .of_mem ⟨as, by simpa using Bracketed.items hb hv⟩

end

-- ---------------------------------------------------------------------------
-- Values and documents
-- ---------------------------------------------------------------------------

theorem texts_written_null : Texts Written "null".toList :=
  ⟨.null, .nullWord⟩

section
variable {Item : Value → List Char → Prop} {read : Scan Value}

theorem Quoted.texts_entry {key : String} {k b b' w : List Char} (hk : Quoted key k)
    (hb : Blanks b) (hb' : Blanks b') (hw : Texts Item w) :
    Texts (Entry Item) (k ++ b ++ ':' :: b' ++ w) := by
  obtain ⟨v, hv⟩ := hw
  exact ⟨(key, v), .colon hk hb hb' hv⟩

theorem awaits_colon {key : String} {k : List Char} (hk : Quoted key k)
    (hsome : ∃ v, Texts Item v) : Awaits (fun u => Texts (Entry Item) (k ++ u)) ':' := by
  obtain ⟨v, hv⟩ := hsome
  have hentry : ∀ {b}, Blanks b → Texts (Entry Item) (k ++ b ++ ':' :: v) := fun hb =>
    by simpa using hk.texts_entry hb blanks_nil hv
  exact ⟨fun hb => ⟨':' :: v, by simpa using hentry hb⟩, fun hb => ⟨v, by simpa using hentry hb⟩⟩

theorem exists_texts_entry (hsome : ∃ v, Texts Item v) : ∃ v, Texts (Entry Item) v := by
  obtain ⟨v, hv⟩ := hsome
  obtain ⟨key, hkey⟩ := texts_quoted_nil
  exact ⟨_, hkey.texts_entry blanks_nil blanks_nil hv⟩

/-- Errors in a member are explained if those in its value are. -/
theorem member_error (hsome : ∃ v, Texts Item v)
    (hread : ∀ {f e d}, f.pending ≤ c.pending → read f = .error e d → Explained (Texts Item) f e d)
    (h : member read c = .error e d) : Explained (Texts (Entry Item)) c e d := by
  obtain ⟨v, hv⟩ := exists_texts_entry hsome
  unfold member at h
  split at h
  · next hx =>
    obtain ⟨rfl, rfl⟩ := EStateM.Result.error.inj h
    exact .ended (.nil _) hx ⟨_, hv⟩
  · next x hx =>
    split at h
    · next hq =>
      subst hq
      rcases Scan.bind_eq_error_iff.mp h with h | ⟨key, f, hkey, h⟩
      · refine (string_error hx h).mono ?_
        rintro u ⟨key, hkey⟩
        obtain ⟨v, hv⟩ := hsome
        exact ⟨':' :: v, by simpa using hkey.texts_entry blanks_nil blanks_nil hv⟩
      obtain ⟨k, hk, hpass⟩ := (string_eq_ok_iff hx).mp hkey
      rcases Scan.bind_eq_error_iff.mp h with h | ⟨_, g, hcolon, h⟩
      · exact (colon_error h (awaits_colon hk hsome)).after hpass fun u hu => .of_mem hu
      obtain ⟨b, b', hb, hb', hgap, -⟩ := colon_gap hcolon
      have hf := (stepwise_stringFrom "").pending_le_of_ok hkey
      have hg := stepwise_colon.pending_le_of_ok hcolon
      rcases Scan.bind_eq_error_iff.mp h with h | ⟨_, _, -, h⟩
      · refine (hread (by omega) h).after (hpass.append hgap) fun u hu => .of_mem ?_
        simpa using hk.texts_entry hb hb' hu
      · cases h
    · obtain ⟨rfl, rfl⟩ := EStateM.Result.error.inj h
      exact .refused (.nil _) hx rfl ⟨_, hv⟩

end

theorem scalar_error (h : scalar c = .error e d) : Explained (Texts Written) c e d := by
  unfold scalar at h
  split at h
  · next hx =>
    obtain ⟨rfl, rfl⟩ := EStateM.Result.error.inj h
    exact .ended (.nil _) hx ⟨_, texts_written_null⟩
  · next x hx =>
    split at h
    · next hq =>
      subst hq
      refine (string_error hx (Scan.map_eq_error_iff.mp h)).mono ?_
      rintro u ⟨s, hs⟩
      exact .of_mem ⟨_, .string hs⟩
    · split at h
      · next word v hword =>
        refine (matchAt_error (Scan.map_eq_error_iff.mp h)).mono ?_
        rintro u rfl
        exact .of_mem ⟨v, word?_written hword⟩
      · split at h
        · refine (number_error (Scan.map_eq_error_iff.mp h)).mono ?_
          rintro u ⟨n, hn⟩
          exact .of_mem ⟨_, .number hn⟩
        · obtain ⟨rfl, rfl⟩ := EStateM.Result.error.inj h
          exact .refused (.nil _) hx rfl ⟨_, texts_written_null⟩

theorem value_error (h : value c = .error e d) : Explained (Texts Written) c e d := by
  induction hn : c.pending using Nat.strongRecOn generalizing c e d with
  | ind n ih =>
    subst hn
    have hsome : ∃ v, Texts Written v := ⟨_, texts_written_null⟩
    rw [value_eq] at h
    split at h
    · next hx =>
      refine (bracketed_error (reads_value 0) consumes_value hsome hx
        (fun hf hv => ih _ hf hv rfl) (Trail.collect_eq_error_iff.mp h)).mono ?_
      rintro u ⟨vs, hvs⟩
      exact .of_mem ⟨_, .array hvs⟩
    · split at h
      · next hx =>
        refine (bracketed_error (reads_value 0).member consumes_member_value
          (exists_texts_entry hsome) hx (fun hf hm => ?_)
          (Trail.collect_eq_error_iff.mp h)).mono ?_
        · exact member_error hsome (fun hg hv => ih _ (Nat.lt_of_le_of_lt hg hf) hv rfl) hm
        · rintro u ⟨es, hes⟩
          exact .of_mem ⟨_, .object hes (Members.collects_ofList es)⟩
      · exact scalar_error h

/-- A document that cannot be read is left where its text ends or goes wrong. -/
theorem finish_error (h : (finish c).ended = .error e d) :
    Explained (fun w => ∃ v, Means w v) c e d := by
  obtain ⟨b, hb, hpass, -⟩ := exists_blanks c
  rw [ended_finish] at h
  split at h
  · next hvalue =>
    obtain ⟨rfl, rfl⟩ := EStateM.Result.error.inj h
    refine (value_error hvalue).after hpass ?_
    rintro u ⟨v, hv⟩
    exact .of_mem ⟨v, by simpa using Means.padded hb hv blanks_nil⟩
  · next v f hvalue =>
    obtain ⟨w, hw, hpass'⟩ := (reads_value 0).sound hvalue
    obtain ⟨b', hb', hpass'', -⟩ := exists_blanks f
    unfold close at h
    simp only [Trail.report] at h
    split at h
    · next hseat =>
      obtain ⟨rfl, rfl⟩ := EStateM.Result.error.inj h
      exact ⟨_, (hpass.append hpass').append hpass'',
        .misplaced rfl hseat (.of_mem ⟨v, .padded hb hw hb'⟩)⟩
    · cases h

end TextStream.Document
