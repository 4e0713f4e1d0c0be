import TextStream.Grammar.Document.Value
import TextStream.Proofs.Document.Number
import TextStream.Proofs.Document.Quoted

/-!
# Reading values

An item of a list is described once for arrays and objects: `Reads` says that a
scan succeeds on the texts of a relation and on no others, up to a length that
bounds the depth of recursion. It carries over from items to bracketed lists
and from values to members, so values of every nesting are read as written.
-/

namespace TextStream

-- ---------------------------------------------------------------------------
-- What a trail yields
-- ---------------------------------------------------------------------------

namespace Trail

variable {α β : Type} {as : List α} {c d : Cursor}

/-- The trail ended well at `d` after reporting `as`. -/
def Yields (t : Trail α) (as : List α) (d : Cursor) : Prop :=
  t.ended = .ok () d ∧ t.values = as

theorem yields_done : (Trail.done c).Yields as d ↔ as = [] ∧ c = d := by
  unfold Yields done values
  simp [and_comm, eq_comm]

theorem not_yields_fail {e : ParseError} : ¬ (Trail.fail e c).Yields as d := by
  rintro ⟨h, -⟩
  simp [fail] at h

theorem yields_report {a : α} {t : Trail α} :
    (Trail.report a c t).Yields as d ↔ ∃ rest, as = a :: rest ∧ t.Yields rest d := by
  unfold Yields report values
  simp only [List.map_cons]
  constructor
  · rintro ⟨h, rfl⟩
    exact ⟨_, rfl, h, rfl⟩
  · rintro ⟨_, rfl, h, rfl⟩
    exact ⟨h, rfl⟩

theorem collect_eq_ok_iff {t : Trail α} {f : List α → β} {b : β} :
    t.collect f = .ok b d ↔ ∃ as, t.Yields as d ∧ f as = b := by
  unfold collect Yields
  cases t.ended with
  | error e c => simp
  | ok _ c =>
    simp only [EStateM.Result.ok.injEq, true_and]
    constructor
    · rintro ⟨h, rfl⟩
      exact ⟨_, ⟨rfl, rfl⟩, h⟩
    · rintro ⟨_, ⟨rfl, rfl⟩, h⟩
      exact ⟨h, rfl⟩

theorem collect_eq_error_iff {t : Trail α} {f : List α → β} {e : ParseError} :
    t.collect f = .error e d ↔ t.ended = .error e d := by
  unfold collect
  cases t.ended <;> simp

end Trail

namespace Document

variable {α : Type} {c d : Cursor}

-- ---------------------------------------------------------------------------
-- Blanks and marks
-- ---------------------------------------------------------------------------

theorem isBlank_iff {x : Char} : isBlank x = true ↔ x ∈ blanks := by
  simp [isBlank, blanks, or_assoc]

theorem stops_isBlank {x : Char} (hx : c.current = some x) (hb : x ∉ blanks) : c.Stops isBlank :=
  Cursor.stops_of_current hx (Bool.eq_false_iff.mpr fun h => hb (isBlank_iff.mp h))

theorem skipBlanks_eq_iff :
    skipBlanks c = d ↔ ∃ b, Blanks b ∧ Passes c b d ∧ d.Stops isBlank := by
  unfold skipBlanks Blanks
  rw [Cursor.skip_eq_iff]
  simp only [isBlank_iff]
  constructor
  · rintro ⟨b, h, hb, hd⟩
    exact ⟨b, hb, h, hd⟩
  · rintro ⟨b, hb, h, hd⟩
    exact ⟨b, h, hb, hd⟩

theorem exists_blanks (c : Cursor) :
    ∃ b, Blanks b ∧ Passes c b (skipBlanks c) ∧ (skipBlanks c).Stops isBlank :=
  skipBlanks_eq_iff.mp rfl

/-- A mark with blanks around it, and something else behind these. -/
def Gap (c : Cursor) (x : Char) (d : Cursor) : Prop :=
  ∃ b b', Blanks b ∧ Blanks b' ∧ Passes c (b ++ x :: b') d ∧ d.Stops isBlank

theorem gap_iff {x : Char} (hx : x ∉ blanks) (hd : d.isSeated = true) :
    Gap c x d ↔
      (skipBlanks c).current = some x ∧ (skipBlanks c).move.isSeated = true ∧
        skipBlanks (skipBlanks c).move = d := by
  constructor
  · rintro ⟨b, b', hb, hb', hpass, hstop⟩
    obtain ⟨e, hpass, hrest⟩ := hpass.split
    have hcur := hrest.current_of_cons
    have he : skipBlanks c = e := skipBlanks_eq_iff.mpr ⟨b, hb, hpass, stops_isBlank hcur hx⟩
    rw [he]
    refine ⟨hcur, hrest.move_of_cons.isSeated_of_isSeated hd, ?_⟩
    exact skipBlanks_eq_iff.mpr ⟨b', hb', hrest.move_of_cons, hstop⟩
  · rintro ⟨hcur, -, rfl⟩
    obtain ⟨b, hb, hpass, -⟩ := exists_blanks c
    obtain ⟨b', hb', hpass', hstop⟩ := exists_blanks (skipBlanks c).move
    exact ⟨b, b', hb, hb', hpass.append (.cons hcur hpass'), hstop⟩

theorem separator_more_iff (close : Char) (hd : d.isSeated = true) :
    separator close c = .ok true d ↔ Gap c ',' d := by
  rw [gap_iff (by decide) hd]
  unfold separator
  simp only
  generalize skipBlanks c = e
  constructor
  · intro h
    split at h
    · simp at h
    · next x hx =>
      split at h
      · next hcomma =>
        split at h
        · next y f hy =>
          obtain ⟨rfl, hseat⟩ := Cursor.advance_eq_ok_iff.mp hy
          obtain ⟨-, rfl⟩ := EStateM.Result.ok.inj h
          exact ⟨hcomma ▸ hx, by simp [Cursor.isSeated, hseat], rfl⟩
        · simp at h
      · split at h <;> simp at h
  · rintro ⟨hx, hseat, rfl⟩
    obtain ⟨y, hy⟩ := Cursor.advance_of_isSeated hseat
    simp [hx, hy]

theorem close_not_blank {close : Char} (hclose : close ∈ [']', '}']) : close ∉ blanks := by
  simp only [List.mem_cons, List.not_mem_nil, or_false] at hclose
  rcases hclose with rfl | rfl
  · decide
  · decide

theorem separator_close_iff {close : Char} (hclose : close ∈ [']', '}']) :
    separator close c = .ok false d ↔ ∃ b, Blanks b ∧ Passes c (b ++ [close]) d := by
  have hblank := close_not_blank hclose
  have hcomma : close ≠ ',' := by
    rintro rfl
    simp at hclose
  unfold separator
  simp only
  constructor
  · intro h
    obtain ⟨b, hb, hpass, -⟩ := exists_blanks c
    revert h hpass
    generalize skipBlanks c = e
    intro h hpass
    split at h
    · simp at h
    · next x hx =>
      split at h
      · split at h <;> simp at h
      · split at h
        · next heq =>
          obtain ⟨-, rfl⟩ := EStateM.Result.ok.inj h
          exact ⟨b, hb, hpass.snoc (heq ▸ hx)⟩
        · simp at h
  · rintro ⟨b, hb, hpass⟩
    obtain ⟨e, hbefore, hx, rfl⟩ := hpass.unsnoc
    rw [skipBlanks_eq_iff.mpr ⟨b, hb, hbefore, stops_isBlank hx hblank⟩]
    simp [hx, hcomma]

theorem colon_iff (hd : d.isSeated = true) : colon c = .ok () d ↔ Gap c ':' d := by
  rw [gap_iff (by decide) hd]
  unfold colon
  simp only
  generalize skipBlanks c = e
  constructor
  · intro h
    split at h
    · simp at h
    · next x hx =>
      split at h
      · next hcolon =>
        split at h
        · next y f hy =>
          obtain ⟨rfl, hseat⟩ := Cursor.advance_eq_ok_iff.mp hy
          obtain ⟨-, rfl⟩ := EStateM.Result.ok.inj h
          exact ⟨hcolon ▸ hx, by simp [Cursor.isSeated, hseat], rfl⟩
        · simp at h
      · simp at h
  · rintro ⟨hx, hseat, rfl⟩
    obtain ⟨y, hy⟩ := Cursor.advance_of_isSeated hseat
    simp [hx, hy]

-- ---------------------------------------------------------------------------
-- Lists of items
-- ---------------------------------------------------------------------------

/-- What may follow an item: a blank, a comma, a closing bracket or the end. -/
def Delimited (d : Cursor) : Prop :=
  ∀ x, d.current = some x → x ∈ blanks ∨ x ∈ [',', ']', '}']

theorem Delimited.of_blanks {b r : List Char} {x : Char} (hb : Blanks b)
    (hx : x ∈ [',', ']', '}']) (h : Passes c (b ++ x :: r) d) : Delimited c := by
  intro y hy
  rw [h.current_eq] at hy
  cases b with
  | nil =>
    obtain rfl := Option.some.inj hy
    exact .inr hx
  | cons z b =>
    obtain rfl := Option.some.inj hy
    exact .inl (hb z (by simp))

/-- The text cannot be taken for blanks or for the end of a list. -/
def Opens (w : List Char) : Prop :=
  ∃ x w', w = x :: w' ∧ x ∉ blanks ∧ x ∉ [']', '}']

/-- The scan reads the items of a relation: only these, and all that have at
most `n` code points. -/
structure Reads (n : Nat) (item : Scan α) (Item : α → List Char → Prop) : Prop where
  sound : ∀ {c d a}, item c = .ok a d → ∃ w, Item a w ∧ Passes c w d
  complete : ∀ {c d a w}, Item a w → w.length ≤ n → Passes c w d → Delimited d → item c = .ok a d
  opens : ∀ {a w}, Item a w → Opens w

section
variable {n m : Nat} {item : Scan α} {Item : α → List Char → Prop} {close : Char} {as : List α}

theorem items_sound (h : Reads n item Item) (hclose : close ∈ [']', '}'])
    (hy : (items close item m c).Yields as d) :
    ∃ w, Listed Item as w ∧ Passes c (w ++ [close]) d := by
  induction m generalizing c as with
  | zero => exact absurd hy Trail.not_yields_fail
  | succ m ih =>
    unfold items at hy
    split at hy
    · exact absurd hy Trail.not_yields_fail
    · next a e ha =>
      obtain ⟨w, hw, hpass⟩ := h.sound ha
      obtain ⟨rest, rfl, hrest⟩ := Trail.yields_report.mp hy
      split at hrest
      · exact absurd hrest Trail.not_yields_fail
      · next f hsep =>
        obtain ⟨rfl, rfl⟩ := Trail.yields_done.mp hrest
        obtain ⟨b, hb, hpass'⟩ := (separator_close_iff hclose).mp hsep
        exact ⟨w ++ b, .one hw hb, by simpa using hpass.append hpass'⟩
      · next f hsep =>
        obtain ⟨ws, hws, hpass'⟩ := ih hrest
        have hseat := hpass'.isSeated (by simp)
        obtain ⟨b, b', hb, hb', hgap, -⟩ := (separator_more_iff close hseat).mp hsep
        exact ⟨_, .more hw hb hb' hws, by simpa using (hpass.append hgap).append hpass'⟩

theorem Reads.listed_opens (h : Reads n item Item) {w : List Char} (hl : Listed Item as w) :
    Opens w := by
  cases hl with
  | one ha _ =>
    obtain ⟨x, w', rfl, hx⟩ := h.opens ha
    exact ⟨x, _, rfl, hx⟩
  | more ha _ _ _ =>
    obtain ⟨x, w', rfl, hx⟩ := h.opens ha
    exact ⟨x, _, rfl, hx⟩

theorem items_complete (h : Reads n item Item) (hclose : close ∈ [']', '}']) {w : List Char}
    (hl : Listed Item as w) (hn : w.length ≤ n) (hm : w.length ≤ m)
    (hp : Passes c (w ++ [close]) d) : (items close item m c).Yields as d := by
  have hclose' : close ∈ [',', ']', '}'] := List.mem_cons_of_mem _ hclose
  induction hl generalizing c m with
  | @one a w b hw hb =>
    obtain ⟨x, w', rfl, -⟩ := h.opens hw
    obtain ⟨m, rfl⟩ : ∃ k, m = k + 1 := ⟨m - 1, by simp at hm; omega⟩
    rw [List.append_assoc] at hp
    obtain ⟨e, hpass, hrest⟩ := hp.split
    have ha := h.complete hw (by simp at hn ⊢; omega) hpass (.of_blanks hb hclose' hrest)
    have hsep := (separator_close_iff hclose).mpr ⟨b, hb, hrest⟩
    simp only [items, ha, hsep]
    exact Trail.yields_report.mpr ⟨[], rfl, Trail.yields_done.mpr ⟨rfl, rfl⟩⟩
  | @more a as w b b' ws hw hb hb' hl ih =>
    obtain ⟨x, w', rfl, -⟩ := h.opens hw
    obtain ⟨m, rfl⟩ : ∃ k, m = k + 1 := ⟨m - 1, by simp at hm; omega⟩
    have hp' : Passes c ((x :: w') ++ ((b ++ ',' :: b') ++ (ws ++ [close]))) d := by simpa using hp
    obtain ⟨e, hpass, hp'⟩ := hp'.split
    obtain ⟨f, hgap, hrest⟩ := hp'.split
    have ha := h.complete hw (by simp at hn ⊢; omega) hpass (.of_blanks hb (by simp) hgap)
    obtain ⟨y, ws', rfl, hy, -⟩ := h.listed_opens hl
    have hstop := stops_isBlank hrest.current_of_cons hy
    have hsep := (separator_more_iff close (hrest.isSeated (by simp))).mpr
      ⟨b, b', hb, hb', hgap, hstop⟩
    simp only [items, ha, hsep]
    exact Trail.yields_report.mpr
      ⟨as, rfl, ih (by simp at hn ⊢; omega) (by simp at hm ⊢; omega) hrest⟩

theorem bracketed_sound (h : Reads n item Item) (hclose : close ∈ [']', '}']) {left : Char}
    (hc : c.current = some left) (hy : (bracketed close item c).Yields as d) :
    ∃ w, Bracketed left close Item as w ∧ Passes c w d := by
  unfold bracketed at hy
  split at hy
  · exact absurd hy Trail.not_yields_fail
  · next x e hx =>
    obtain ⟨rfl, -⟩ := Cursor.advance_eq_ok_iff.mp hx
    obtain ⟨b, hb, hpass, -⟩ := exists_blanks c.move
    simp only at hy
    split at hy
    · next hend =>
      obtain ⟨rfl, rfl⟩ := Trail.yields_done.mp hy
      exact ⟨_, .empty hb, .cons hc (hpass.snoc hend)⟩
    · obtain ⟨w, hw, hrest⟩ := items_sound h hclose hy
      exact ⟨_, .items hb hw, .cons hc (by simpa using hpass.append hrest)⟩

theorem bracketed_complete (h : Reads n item Item) (hclose : close ∈ [']', '}']) {left : Char}
    {w : List Char} (hw : Bracketed left close Item as w) (hn : w.length ≤ n + 1)
    (hp : Passes c w d) : (bracketed close item c).Yields as d := by
  have hblank := close_not_blank hclose
  unfold bracketed
  cases hw with
  | @empty b hb =>
    have hpass := hp.move_of_cons
    obtain ⟨x, hadv⟩ := Cursor.advance_of_isSeated (hpass.isSeated (by simp))
    obtain ⟨e, hbefore, hx, rfl⟩ := hpass.unsnoc
    have hskip := skipBlanks_eq_iff.mpr ⟨b, hb, hbefore, stops_isBlank hx hblank⟩
    simp only [hadv, hskip, hx, ↓reduceIte]
    exact Trail.yields_done.mpr ⟨rfl, rfl⟩
  | @items _ b w hb hl =>
    have hpass : Passes c.move (b ++ (w ++ [close])) d := by simpa using hp.move_of_cons
    obtain ⟨x, hadv⟩ := Cursor.advance_of_isSeated (hpass.isSeated (by simp))
    obtain ⟨e, hbefore, hrest⟩ := hpass.split
    obtain ⟨y, w', rfl, hy, hend⟩ := h.listed_opens hl
    have hcur := hrest.current_of_cons
    have hskip := skipBlanks_eq_iff.mpr ⟨b, hb, hbefore, stops_isBlank hcur hy⟩
    have hne : e.current ≠ some close := by
      rw [hcur]
      rintro ⟨⟩
      exact hend hclose
    have hpending := hrest.pending_eq
    simp only [hadv, hskip, hne, ↓reduceIte]
    refine items_complete h hclose hl ?_ ?_ hrest
    · simp at hn ⊢
      omega
    · simp at hpending ⊢
      omega

end

-- ---------------------------------------------------------------------------
-- Members
-- ---------------------------------------------------------------------------

theorem Quoted.opens {s : String} {w : List Char} (h : Quoted s w) : ∃ w', w = '"' :: w' := by
  cases h
  exact ⟨_, rfl⟩

theorem Reads.member {n : Nat} {value : Scan Value} {Item : Value → List Char → Prop}
    (h : Reads n value Item) : Reads n (member value) (Entry Item) where
  sound := by
    intro c d a hm
    unfold Document.member at hm
    split at hm
    · simp at hm
    · next x hx =>
      split at hm
      · next hq =>
        subst hq
        obtain ⟨key, e, hkey, hm⟩ := Scan.bind_eq_ok_iff.mp hm
        obtain ⟨_, f, hcolon, hm⟩ := Scan.bind_eq_ok_iff.mp hm
        obtain ⟨v, g, hv, hm⟩ := Scan.bind_eq_ok_iff.mp hm
        obtain ⟨rfl, rfl⟩ := Scan.pure_eq_ok_iff.mp hm
        obtain ⟨k, hk, hpass⟩ := (string_eq_ok_iff hx).mp hkey
        obtain ⟨w, hw, hrest⟩ := h.sound hv
        obtain ⟨y, w', rfl, -⟩ := h.opens hw
        obtain ⟨b, b', hb, hb', hgap, -⟩ := (colon_iff (hrest.isSeated (by simp))).mp hcolon
        exact ⟨_, .colon hk hb hb' hw, by simpa using (hpass.append hgap).append hrest⟩
      · simp at hm
  complete := by
    intro c d a w hw hn hp hd
    cases hw with
    | @colon key v k b b' w hk hb hb' hw =>
      have hp' : Passes c (k ++ ((b ++ ':' :: b') ++ w)) d := by simpa using hp
      obtain ⟨e, hpass, hp'⟩ := hp'.split
      obtain ⟨f, hgap, hrest⟩ := hp'.split
      obtain ⟨k', rfl⟩ := hk.opens
      have hx := hpass.current_of_cons
      have hkey := (string_eq_ok_iff hx).mpr ⟨_, hk, hpass⟩
      obtain ⟨y, w', rfl, hy, -⟩ := h.opens hw
      have hstop := stops_isBlank hrest.current_of_cons hy
      have hcolon := (colon_iff (hrest.isSeated (by simp))).mpr ⟨b, b', hb, hb', hgap, hstop⟩
      have hv := h.complete hw (by simp at hn ⊢; omega) hrest hd
      unfold Document.member
      simp only [hx, ↓reduceIte, Scan.bind_eq_ok_iff]
      exact ⟨key, e, hkey, (), f, hcolon, v, d, hv, rfl⟩
  opens := by
    intro a w hw
    cases hw with
    | colon hk _ _ _ =>
      obtain ⟨k', rfl⟩ := hk.opens
      exact ⟨'"', _, rfl, by decide, by decide⟩

-- ---------------------------------------------------------------------------
-- Scalars
-- ---------------------------------------------------------------------------

theorem Numeral.opens {n : Decimal.Numeral} {w : List Char} (h : Numeral n w) :
    ∃ x w', w = x :: w' ∧ (x = '-' ∨ x.isDigit = true) := by
  cases h with
  | parts hs hw _ _ =>
    obtain ⟨hne, hdig⟩ := hw.digits
    obtain ⟨x, w', rfl⟩ := List.exists_cons_of_ne_nil hne
    cases hs with
    | absent => exact ⟨x, _, rfl, .inr (hdig x (by simp))⟩
    | minus => exact ⟨'-', _, rfl, .inl rfl⟩

theorem not_mem_of_numeral_start {x : Char} {l : List Char} (hx : x = '-' ∨ x.isDigit = true)
    (hl : l.all (fun y => y != '-' && !y.isDigit) = true) : x ∉ l := by
  intro h
  have hx' := List.all_eq_true.mp hl x h
  simp only [Bool.and_eq_true, bne_iff_ne, Bool.not_eq_true'] at hx'
  rcases hx with hx | hx
  · exact hx'.1 hx
  · simp [hx'.2] at hx

theorem Delimited.stops (h : Delimited d) : d.Stops extendsNumber := by
  have hall : (blanks ++ [',', ']', '}']).all (fun x => !extendsNumber x) = true := rfl
  intro x hx
  have hx' := List.all_eq_true.mp hall x (List.mem_append.mpr (h x hx))
  rwa [Bool.not_eq_true'] at hx'

theorem word?_written {x : Char} {word : Keyword} {v : Value} (h : word? x = some (word, v)) :
    Written v word := by
  unfold word? at h
  repeat' split at h
  all_goals simp only [Option.some.injEq, Prod.mk.injEq, reduceCtorEq] at h
  · obtain ⟨rfl, rfl⟩ := h
    exact .nullWord
  · obtain ⟨rfl, rfl⟩ := h
    exact .trueWord
  · obtain ⟨rfl, rfl⟩ := h
    exact .falseWord

theorem scalar_sound {v : Value} (h : scalar c = .ok v d) : ∃ w, Written v w ∧ Passes c w d := by
  unfold scalar at h
  split at h
  · simp at h
  · next x hx =>
    split at h
    · next hq =>
      obtain ⟨s, hs, rfl⟩ := Scan.map_eq_ok_iff.mp h
      obtain ⟨w, hw, hpass⟩ := (string_eq_ok_iff (hq ▸ hx)).mp hs
      exact ⟨w, .string hw, hpass⟩
    · split at h
      · next word v' hword =>
        obtain ⟨_, hmatch, rfl⟩ := Scan.map_eq_ok_iff.mp h
        exact ⟨word, word?_written hword, Keyword.matchAt_eq_ok_iff.mp hmatch⟩
      · split at h
        · obtain ⟨y, hy, rfl⟩ := Scan.map_eq_ok_iff.mp h
          obtain ⟨n, w, hn, rfl, hpass⟩ := number_sound hy
          exact ⟨w, .number hn, hpass⟩
        · simp at h

theorem scalar_of_word {x : Char} {word : Keyword} {v : Value}
    (hword : word? x = some (x :: word, v)) (h : Passes c (x :: word) d) :
    scalar c = .ok v d := by
  have hq : x ≠ '"' := by
    rintro rfl
    simp [word?] at hword
  simp only [scalar, h.current_of_cons, hq, ↓reduceIte, hword]
  exact Scan.map_eq_ok_iff.mpr ⟨(), Keyword.matchAt_eq_ok_iff.mpr h, rfl⟩

theorem scalar_of_number {n : Decimal.Numeral} {w : List Char} (hn : Numeral n w)
    (h : Passes c w d) (hd : Delimited d) : scalar c = .ok (.number n.toFloat) d := by
  obtain ⟨x, w', rfl, hx⟩ := hn.opens
  have hother := not_mem_of_numeral_start (l := ['"', 'n', 't', 'f']) hx rfl
  simp only [List.mem_cons, List.not_mem_nil, or_false, not_or] at hother
  have hword : word? x = none := by simp [word?, hother]
  simp only [scalar, h.current_of_cons, hother.1, ↓reduceIte, hword, hx]
  exact Scan.map_eq_ok_iff.mpr ⟨_, number_complete hn h hd.stops, rfl⟩

theorem scalar_of_string {s : String} {w : List Char} (hs : Quoted s w) (h : Passes c w d) :
    scalar c = .ok (.string s) d := by
  obtain ⟨w', rfl⟩ := hs.opens
  have hx := h.current_of_cons
  simp only [scalar, hx, ↓reduceIte]
  exact Scan.map_eq_ok_iff.mpr ⟨s, (string_eq_ok_iff hx).mpr ⟨_, hs, h⟩, rfl⟩

-- ---------------------------------------------------------------------------
-- Values
-- ---------------------------------------------------------------------------

theorem Bracketed.opens {left right : Char} {Item : α → List Char → Prop} {as : List α}
    {w : List Char} (h : Bracketed left right Item as w) : ∃ w', w = left :: w' := by
  cases h with
  | empty _ => exact ⟨_, rfl⟩
  | items _ _ => exact ⟨_, rfl⟩

theorem Written.opens {v : Value} {w : List Char} (h : Written v w) : Opens w := by
  cases h with
  | nullWord => exact ⟨'n', _, rfl, by decide, by decide⟩
  | trueWord => exact ⟨'t', _, rfl, by decide, by decide⟩
  | falseWord => exact ⟨'f', _, rfl, by decide, by decide⟩
  | number hn =>
    obtain ⟨x, w', rfl, hx⟩ := hn.opens
    exact ⟨x, w', rfl, not_mem_of_numeral_start hx rfl,
      not_mem_of_numeral_start hx rfl⟩
  | string hs =>
    obtain ⟨w', rfl⟩ := hs.opens
    exact ⟨'"', w', rfl, by decide, by decide⟩
  | array ha =>
    obtain ⟨w', rfl⟩ := ha.opens
    exact ⟨'[', w', rfl, by decide, by decide⟩
  | object ho _ =>
    obtain ⟨w', rfl⟩ := ho.opens
    exact ⟨'{', w', rfl, by decide, by decide⟩

theorem valueWithin_sound {n : Nat} (ih : Reads n (valueWithin n) Written) {v : Value}
    (h : valueWithin (n + 1) c = .ok v d) : ∃ w, Written v w ∧ Passes c w d := by
  unfold valueWithin at h
  split at h
  · next hc =>
    obtain ⟨vs, hy, rfl⟩ := Trail.collect_eq_ok_iff.mp h
    obtain ⟨w, hw, hpass⟩ := bracketed_sound ih (by simp) hc hy
    exact ⟨w, .array hw, hpass⟩
  · split at h
    · next hc =>
      obtain ⟨es, hy, rfl⟩ := Trail.collect_eq_ok_iff.mp h
      obtain ⟨w, hw, hpass⟩ := bracketed_sound ih.member (by simp) hc hy
      exact ⟨w, .object hw (Members.collects_ofList es), hpass⟩
    · exact scalar_sound h

theorem valueWithin_eq_scalar (n : Nat) {x : Char} (hx : c.current = some x)
    (hx' : x ∉ ['[', '{']) : valueWithin (n + 1) c = scalar c := by
  simp only [List.mem_cons, List.not_mem_nil, or_false, not_or] at hx'
  simp [valueWithin, hx, hx']

theorem valueWithin_complete {n : Nat} (ih : Reads n (valueWithin n) Written) {v : Value}
    {w : List Char} (hw : Written v w) (hn : w.length ≤ n + 1) (hp : Passes c w d)
    (hd : Delimited d) : valueWithin (n + 1) c = .ok v d := by
  cases hw with
  | nullWord =>
    rw [valueWithin_eq_scalar n (x := 'n') hp.current_of_cons (by decide)]
    exact scalar_of_word rfl hp
  | trueWord =>
    rw [valueWithin_eq_scalar n (x := 't') hp.current_of_cons (by decide)]
    exact scalar_of_word rfl hp
  | falseWord =>
    rw [valueWithin_eq_scalar n (x := 'f') hp.current_of_cons (by decide)]
    exact scalar_of_word rfl hp
  | number h =>
    obtain ⟨x, w', rfl, hx⟩ := h.opens
    rw [valueWithin_eq_scalar n hp.current_of_cons (not_mem_of_numeral_start hx rfl)]
    exact scalar_of_number h hp hd
  | string h =>
    obtain ⟨w', rfl⟩ := h.opens
    rw [valueWithin_eq_scalar n hp.current_of_cons (by decide)]
    exact scalar_of_string h hp
  | array h =>
    obtain ⟨w', rfl⟩ := h.opens
    rw [valueWithin, if_pos hp.current_of_cons]
    exact Trail.collect_eq_ok_iff.mpr ⟨_, bracketed_complete ih (by simp) h hn hp, rfl⟩
  | object h hms =>
    obtain ⟨w', rfl⟩ := h.opens
    have hx := hp.current_of_cons
    rw [valueWithin, if_neg (by simp [hx]), if_pos hx, Members.collects_iff.mp hms]
    exact Trail.collect_eq_ok_iff.mpr ⟨_, bracketed_complete ih.member (by simp) h hn hp, rfl⟩

theorem reads_valueWithin (n : Nat) : Reads n (valueWithin n) Written := by
  induction n with
  | zero =>
    refine ⟨fun h => ?_, fun hw hn _ _ => ?_, Written.opens⟩
    · simp [valueWithin] at h
    · obtain ⟨x, w', rfl, -⟩ := hw.opens
      simp at hn
  | succ n ih => exact ⟨valueWithin_sound ih, valueWithin_complete ih, Written.opens⟩

/-- The bound that a value is read with is never too small for it. -/
theorem reads_value (n : Nat) : Reads n value Written where
  sound h := (reads_valueWithin _).sound h
  complete := by
    intro c d v w hw _ hp hd
    have := hp.pending_eq
    exact (reads_valueWithin c.pending).complete hw (by omega) hp hd
  opens := Written.opens

end Document

end TextStream
