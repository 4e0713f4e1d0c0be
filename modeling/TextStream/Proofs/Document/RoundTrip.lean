import TextStream.Proofs.Document.Acceptance
import TextStream.Proofs.Document.Printing

/-!
# Printing and reading are inverse

A number that is not finite spoils the text of the value it is in: reading
gets as far as the word that stands for it and fails there, however deep it is
nested. Main statement: a session gives a value back from its text exactly if
all its numbers are finite, and otherwise gives nothing back.
-/

namespace TextStream

namespace Document

-- ---------------------------------------------------------------------------
-- Texts that nothing can be read from
-- ---------------------------------------------------------------------------

section
variable {α : Type} {n m : Nat} {item : Scan α} {Item : α → List Char → Prop} {close : Char}
  {c d : Cursor} {as : List α} {w r : List Char}

/-- The scan fails wherever the text is ahead, whatever comes behind it. -/
def Baffles (item : Scan α) (w : List Char) : Prop :=
  ∀ c r, c.ahead = w ++ r → ∀ a d, item c ≠ .ok a d

/-- Items up to one that the scan fails on. -/
inductive Spoiled (item : Scan α) (Item : α → List Char → Prop) : List Char → Prop
  | here {w r : List Char} : Baffles item w → Opens w → Spoiled item Item (w ++ r)
  | later {a : α} {w ws : List Char} :
      Item a w → Opens w → Spoiled item Item ws → Spoiled item Item (w ++ ',' :: ws)

theorem Opens.append (h : Opens w) (r : List Char) : Opens (w ++ r) := by
  obtain ⟨x, w', rfl, hx⟩ := h
  exact ⟨x, w' ++ r, rfl, hx⟩

theorem Spoiled.opens (h : Spoiled item Item w) : Opens w := by
  cases h with
  | here _ hw => exact hw.append _
  | later _ hw _ => exact hw.append _

/-- A cursor before such a text stands on its first code point, which is no blank. -/
theorem Opens.current (hw : Opens w) (hc : c.ahead = w ++ r) :
    c.isSeated = true ∧ c.Stops isBlank ∧ skipBlanks c = c := by
  obtain ⟨x, w', rfl, hx, -⟩ := hw
  have hcur : c.current = some x := Cursor.current_of_ahead hc
  have hstop := stops_isBlank hcur hx
  exact ⟨by simp [Cursor.isSeated, hcur], hstop,
    skipBlanks_eq_iff.mpr ⟨[], by simp [Blanks], .nil c, hstop⟩⟩

/-- Right on a mark, with an item right behind it. -/
theorem Gap.tight {x : Char} (hc : c.ahead = x :: (w ++ r)) (hw : Opens w) :
    Gap c x c.move ∧ c.move.isSeated = true ∧ c.move.ahead = w ++ r := by
  have hcur : c.current = some x := Cursor.current_of_ahead hc
  have hmove : c.move.ahead = w ++ r := by
    rw [Cursor.ahead_move]
    rw [Cursor.ahead_of_some hcur] at hc
    exact (List.cons.inj hc).2
  obtain ⟨hseat, hstop, -⟩ := hw.current hmove
  exact ⟨⟨[], [], by simp [Blanks], by simp [Blanks], .one hcur, hstop⟩, hseat, hmove⟩

theorem items_of_spoiled (h : Reads n item Item) (hs : Spoiled item Item w) (hn : w.length ≤ n)
    (hc : c.ahead = w ++ r) : ¬ (items close item m c).Yields as d := by
  intro hy
  induction m generalizing c as w with
  | zero => exact Trail.not_yields_fail hy
  | succ m ih =>
    unfold items at hy
    cases hs with
    | @here w r' hbaf hw =>
      split at hy
      · exact Trail.not_yields_fail hy
      · next a e ha => exact hbaf c (r' ++ r) (by rw [hc, List.append_assoc]) a e ha
    | @later a w ws hw hopen hs =>
      have hc' : c.ahead = w ++ ',' :: (ws ++ r) := by simpa using hc
      obtain ⟨e, hpass, he⟩ := Passes.of_ahead hc'
      have hdelim : Delimited e := by
        intro x hx
        rw [Cursor.current_of_ahead he] at hx
        obtain rfl := Option.some.inj hx
        exact .inr (by simp)
      have ha := h.complete hw (by simp at hn; omega) hpass hdelim
      obtain ⟨hgap, hseat, hmove⟩ := Gap.tight he hs.opens
      simp only [ha, (separator_more_iff close hseat).mpr hgap] at hy
      obtain ⟨rest, -, hrest⟩ := Trail.yields_report.mp hy
      exact ih hs (by simp at hn; omega) hmove hrest

theorem bracketed_of_spoiled (h : Reads n item Item) (hs : Spoiled item Item w)
    (hn : w.length ≤ n) (hclose : close ∈ [']', '}']) {left : Char}
    (hc : c.ahead = left :: (w ++ r)) : ¬ (bracketed close item c).Yields as d := by
  intro hy
  obtain ⟨-, hseat, hmove⟩ := Gap.tight hc hs.opens
  obtain ⟨-, -, hskip⟩ := hs.opens.current hmove
  obtain ⟨x, hadv⟩ := Cursor.advance_of_isSeated hseat
  have hne : c.move.current ≠ some close := by
    obtain ⟨y, w', rfl, -, hend⟩ := hs.opens
    rw [Cursor.current_of_ahead hmove]
    rintro ⟨⟩
    exact hend hclose
  simp only [bracketed, hadv, hskip, hne, ↓reduceIte] at hy
  exact items_of_spoiled h hs hn hmove hy

end

theorem Baffles.member {value : Scan Value} {key : String} {k w : List Char} (hk : Quoted key k)
    (hw : Opens w) (h : Baffles value w) : Baffles (member value) (k ++ ':' :: w) := by
  intro c r hc a d hm
  have hc' : c.ahead = k ++ ':' :: (w ++ r) := by simpa using hc
  obtain ⟨e, hpass, he⟩ := Passes.of_ahead hc'
  obtain ⟨k', rfl⟩ := hk.opens
  have hx := hpass.current_of_cons
  have hkey := (string_eq_ok_iff hx).mpr ⟨_, hk, hpass⟩
  obtain ⟨hgap, hseat, hmove⟩ := Gap.tight he hw
  have hcolon := (colon_iff hseat).mpr hgap
  simp only [Document.member, hx, ↓reduceIte, Scan.bind_eq_ok_iff] at hm
  obtain ⟨_, _, hkey', _, _, hcolon', v, g, hv, -⟩ := hm
  obtain ⟨-, rfl⟩ := EStateM.Result.ok.inj (hkey.symm.trans hkey')
  obtain ⟨-, rfl⟩ := EStateM.Result.ok.inj (hcolon.symm.trans hcolon')
  exact h _ r hmove v g hv

theorem Numeral.minus {n : Decimal.Numeral} {w : List Char} (h : Numeral n ('-' :: w)) :
    ∃ y w', w = y :: w' ∧ y.isDigit = true := by
  generalize hu : '-' :: w = u at h
  cases h with
  | parts hs hw _ _ =>
    obtain ⟨hne, hdig⟩ := hw.digits
    obtain ⟨y, w', rfl⟩ := List.exists_cons_of_ne_nil hne
    have hy := hdig y (by simp)
    cases hs with
    | absent =>
      obtain ⟨rfl, -⟩ := List.cons.inj hu
      exact absurd hy (by decide)
    | minus =>
      obtain ⟨-, rfl⟩ := List.cons.inj hu
      exact ⟨y, _, rfl, hy⟩

/-- The words for doubles that are not finite are no values. -/
theorem baffles_floatText {x : Float} (h : x.isFinite = false) (n : Nat) :
    Baffles (valueWithin n) (Decimal.floatText x) := by
  intro c r hc v d hv
  have hword := Decimal.floatText_of_not_finite h
  obtain ⟨y, w, hw, hy⟩ : ∃ y w, c.ahead = y :: w ∧
      (y = 'i' ∨ y = 'N' ∨ y = '-' ∧ ∃ w', w = 'i' :: w') := by
    simp only [List.mem_cons, List.not_mem_nil, or_false] at hword
    rcases hword with hword | hword | hword <;> rw [hc, hword]
    · exact ⟨'i', _, rfl, .inl rfl⟩
    · exact ⟨'-', _, rfl, .inr (.inr ⟨rfl, _, rfl⟩)⟩
    · exact ⟨'N', _, rfl, .inr (.inl rfl)⟩
  have hcur : c.current = some y := Cursor.current_of_ahead hw
  cases n with
  | zero => simp [valueWithin] at hv
  | succ n =>
    rcases hy with rfl | rfl | ⟨rfl, w', rfl⟩
    · rw [valueWithin_eq_scalar n hcur (by decide)] at hv
      simp [scalar, hcur, word?] at hv
    · rw [valueWithin_eq_scalar n hcur (by decide)] at hv
      simp [scalar, hcur, word?] at hv
    · have hnumber : scalar c = (Value.number <$> number) c := by simp [scalar, hcur, word?]
      rw [valueWithin_eq_scalar n hcur (by decide), hnumber] at hv
      obtain ⟨z, hz, -⟩ := Scan.map_eq_ok_iff.mp hv
      obtain ⟨k, u, hk, -, hpass⟩ := number_sound hz
      obtain ⟨y, u, rfl, -⟩ := hk.opens
      obtain rfl : '-' = y := Option.some.inj (hcur.symm.trans hpass.current_of_cons)
      obtain ⟨y, u, rfl, hy⟩ := hk.minus
      have hahead := hw.symm.trans hpass.ahead_eq
      simp only [List.cons_append, List.cons.injEq, true_and] at hahead
      exact absurd hy (hahead.1 ▸ by decide)

-- ---------------------------------------------------------------------------
-- Values with a number that is not finite
-- ---------------------------------------------------------------------------

theorem Baffles.array {n : Nat} {w : List Char} (hs : Spoiled (valueWithin n) Written w)
    (hn : w.length ≤ n) : Baffles (valueWithin (n + 1)) ('[' :: (w ++ [']'])) := by
  intro c r hc v d hv
  have hcur : c.current = some '[' := Cursor.current_of_ahead hc
  rw [valueWithin, if_pos hcur] at hv
  obtain ⟨vs, hy, -⟩ := Trail.collect_eq_ok_iff.mp hv
  exact bracketed_of_spoiled (reads_valueWithin n) hs hn (by simp)
    (by simpa using hc : c.ahead = '[' :: (w ++ ']' :: r)) hy

theorem Baffles.object {n : Nat} {w : List Char}
    (hs : Spoiled (Document.member (valueWithin n)) (Entry Written) w) (hn : w.length ≤ n) :
    Baffles (valueWithin (n + 1)) ('{' :: (w ++ ['}'])) := by
  intro c r hc v d hv
  have hcur : c.current = some '{' := Cursor.current_of_ahead hc
  rw [valueWithin, if_neg (by simp [hcur]), if_pos hcur] at hv
  obtain ⟨es, hy, -⟩ := Trail.collect_eq_ok_iff.mp hv
  exact bracketed_of_spoiled (reads_valueWithin n).member hs hn (by simp)
    (by simpa using hc : c.ahead = '{' :: (w ++ '}' :: r)) hy

/-- Items are spoiled by the first one that is not good. -/
theorem spoiled_joined {α : Type} {item : Scan α} {Item : α → List Char → Prop}
    {text : α → List Char} {as : List α} (Good : α → Prop)
    (hgood : ∀ a ∈ as, Good a → Item a (text a))
    (hbad : ∀ a ∈ as, ¬ Good a → Baffles item (text a)) (hopens : ∀ a ∈ as, Opens (text a))
    (h : ∃ a ∈ as, ¬ Good a) : Spoiled item Item (Value.joined text as) := by
  fun_induction Value.joined text as with
  | case1 => simp at h
  | case2 a =>
    have ha : ¬ Good a := by simpa using h
    rw [← List.append_nil (text a)]
    exact .here (hbad a (by simp) ha) (hopens a (by simp))
  | case3 a rest _ ih =>
    by_cases ha : Good a
    · refine .later (hgood a (by simp) ha) (hopens a (by simp)) (ih ?_ ?_ ?_ ?_)
      · exact fun b hb => hgood b (by simp [hb])
      · exact fun b hb => hbad b (by simp [hb])
      · exact fun b hb => hopens b (by simp [hb])
      · simpa [ha] using h
    · exact .here (hbad a (by simp) ha) (hopens a (by simp))

/-- Nothing can be read from the text of a value that has a number that is not finite. -/
theorem baffles_chars {v : Value} (hv : v.Ordered) (hbad : ¬ Finite v) {n : Nat}
    (hn : v.chars.length ≤ n) : Baffles (valueWithin n) v.chars := by
  induction v using Value.nested generalizing n with
  | null => simp [Finite, Value.numbers] at hbad
  | boolean b => simp [Finite, Value.numbers] at hbad
  | string s => simp [Finite, Value.numbers] at hbad
  | number x =>
    rw [finite_number_iff, Bool.not_eq_true] at hbad
    exact baffles_floatText hbad n
  | array items ih =>
    rw [Value.ordered_array_iff] at hv
    rw [finite_array_iff] at hbad
    rw [Value.chars_array] at hn ⊢
    obtain ⟨n, rfl⟩ : ∃ k, n = k + 1 := ⟨n - 1, by simp at hn; omega⟩
    have hn' : (Value.joined Value.chars items).length ≤ n := by simp at hn; omega
    refine .array (spoiled_joined Finite ?_ ?_ (fun v _ => opens_chars v) (by simpa using hbad)) hn'
    · exact fun v hmem => written_chars (hv v hmem)
    · intro v hmem hbad
      exact ih v hmem (hv v hmem) hbad (Nat.le_trans (Value.length_le_joined hmem) hn')
  | object members ih =>
    rw [Value.ordered_object_iff] at hv
    rw [finite_object_iff] at hbad
    rw [Value.chars_object] at hn ⊢
    obtain ⟨n, rfl⟩ : ∃ k, n = k + 1 := ⟨n - 1, by simp at hn; omega⟩
    have hn' : (Value.joined Value.entryChars members).length ≤ n := by simp at hn; omega
    refine .object (spoiled_joined (fun e => Finite e.2) ?_ ?_ ?_ (by simpa using hbad)) hn'
    · exact fun e hmem hfinite => entry_entryChars (written_chars (hv.2 e hmem) hfinite)
    · intro e hmem hbad
      have hlen := Nat.le_trans (Value.length_le_joined hmem) hn'
      refine .member (quoted_quotedChars e.1) (opens_chars e.2) ?_
      exact ih e hmem (hv.2 e hmem) hbad (by simp [Value.entryChars] at hlen; omega)
    · intro e _
      exact ⟨'"', _, rfl, by decide, by decide⟩

theorem not_means_of_baffles {w : List Char} {v : Value} (hw : Opens w)
    (h : Baffles (valueWithin w.length) w) : ¬ Means w v := by
  intro hmeans
  cases hmeans with
  | @padded b w b' v hb hwritten hb' =>
    obtain rfl : b = [] := by
      cases b with
      | nil => rfl
      | cons y b =>
        obtain ⟨x, r, hx, hblank, -⟩ := hw
        obtain ⟨rfl, -⟩ := List.cons.inj hx
        exact absurd (hb y (by simp)) hblank
    rw [List.nil_append] at h
    have hc := Cursor.ahead_atStart Text.isLineEnd (w ++ b')
    obtain ⟨d, hpass, hd⟩ := Passes.of_ahead hc
    have hdelim : Delimited d := by
      intro x hx
      rw [Cursor.current_eq_head?, hd] at hx
      exact .inl (hb' x (List.mem_of_mem_head? hx))
    refine h _ [] (by rw [hc, List.append_nil]) v d ?_
    exact (reads_valueWithin _).complete hwritten (by simp) hpass hdelim

theorem means_chars {v : Value} (hv : v.Ordered) (h : Finite v) : Means v.chars v := by
  simpa using Means.padded blanks_nil (written_chars hv h) blanks_nil

end Document

/-- A value whose objects are in order comes back from its text exactly if all
its numbers are finite. Otherwise nothing can be read from its text. -/
theorem Session.parse_text_iff_finite (options : Options) (v : Value) (hv : v.Ordered) :
    (((new options).parse v.text.toList Tree.assembler none
      (some (.grammar Document.finish))).verdict = .ok v ↔ ∀ x ∈ v.numbers, x.isFinite = true) ∧
    ((∃ x ∈ v.numbers, x.isFinite = false) → ∀ u,
      ((new options).parse v.text.toList Tree.assembler none
        (some (.grammar Document.finish))).verdict ≠ .ok u) := by
  have hopen := Document.opens_chars v
  have hne : v.chars ≠ [] := by
    obtain ⟨x, w, hw, -⟩ := hopen
    simp [hw]
  have hverdict : ∀ u, ((new options).parse v.text.toList Tree.assembler none
      (some (.grammar Document.finish))).verdict = .ok u ↔ Document.Means v.chars u := by
    intro u
    rw [verdict_parse, Value.text, String.toList_ofList, if_neg hne, Document.judge_finish_iff,
      Cursor.ahead_atStart]
  have hbad : ¬ Document.Finite v → ∀ u, ¬ Document.Means v.chars u := fun h u =>
    Document.not_means_of_baffles hopen (Document.baffles_chars hv h (Nat.le_refl _))
  refine ⟨?_, ?_⟩
  · rw [hverdict]
    constructor
    · intro hmeans
      exact Decidable.byContradiction fun h => hbad h v hmeans
    · exact Document.means_chars hv
  · rintro ⟨x, hx, hinfinite⟩ u
    rw [Ne, hverdict]
    refine hbad (fun hfinite => ?_) u
    simp [hfinite x hx] at hinfinite

/-- A control character in a key, the negative zero and the least double all come back. -/
theorem Session.parse_text_of_extremes :
    ((new {}).parse
      (Value.object [("\x1f\"", .array [.number (-0.0), .number 5e-324, .null]),
        ("é", .string "😀\n")]).text.toList
      Tree.assembler none (some (.grammar Document.finish))).verdict =
      .ok (.object [("\x1f\"", .array [.number (-0.0), .number 5e-324, .null]),
        ("é", .string "😀\n")]) := by
  have hordered : (Value.object [("\x1f\"", .array [.number (-0.0), .number 5e-324, .null]),
      ("é", .string "😀\n")]).Ordered := by
    simp only [Value.Ordered, Value.OrderedMembers, Value.OrderedItems, Members.Sorted, and_true]
    decide
  refine (parse_text_iff_finite {} _ hordered).1.mpr ?_
  show ∀ x ∈ [(-0.0 : Float), 5e-324], _
  decide +kernel

end TextStream
