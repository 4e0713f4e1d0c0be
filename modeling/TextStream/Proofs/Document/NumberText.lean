import TextStream.Proofs.Document.Refusal

/-!
# The text of a number

A number is read up to where it cannot go on, which leaves one text to be the
number that is ahead. Where none is, either the text has ended within a number,
or the next code point is one with which no number begins.
-/

namespace TextStream

/-- What comes behind a part of the text that is not empty can be another text. -/
theorem Shares.exists_of_ahead {c : Cursor} {w r : List Char} (hw : w ≠ [])
    (hc : c.ahead = w ++ r) (r' : List Char) : ∃ c', Shares r r' c c' ∧ c'.ahead = w ++ r' := by
  obtain ⟨x, w, rfl⟩ := List.exists_cons_of_ne_nil hw
  have hx := Cursor.current_of_ahead hc
  have hahead : Cursor.ahead { c with buffer := ⟨c.buffer.visited, w ++ r'⟩ } = x :: w ++ r' :=
    Cursor.ahead_of_some hx
  exact ⟨_, ⟨⟨x :: w, hw, hc, hahead⟩, rfl, rfl⟩, hahead⟩

theorem Cursor.exists_ahead : ∀ s : List Char, ∃ c : Cursor, c.ahead = s
  | [] => ⟨{}, rfl⟩
  | x :: s => ⟨{ current := some x, buffer := ⟨[], s⟩ }, rfl⟩

namespace Document

variable {α β : Type} {c d : Cursor} {e : ParseError} {s : String} {y : Float}
  {w r w' r' f p : List Char}

/-- A number with the fraction `f` and the exponent `p`. Either may be absent. -/
inductive NumberText (f p : List Char) : List Char → Prop
  | parts {negative : Bool} {exponent : Int} {sg w ds : List Char} :
      Sign negative sg → Whole w → Fraction ds f → Power exponent p →
      NumberText f p (sg ++ w ++ f ++ p)

/-- A number, and behind it nothing that would make it longer. -/
def NumberBefore (w r : List Char) : Prop :=
  ∃ f p, NumberText f p w ∧
    ∀ x, r.head? = some x →
      x.isDigit = false ∧ (f = [] → p = [] → x ≠ '.') ∧ (p = [] → x ≠ 'e' ∧ x ≠ 'E')

theorem texts_numeral_iff : Texts Numeral w ↔ ∃ f p, NumberText f p w := by
  constructor
  · rintro ⟨_, hw⟩
    cases hw with
    | parts hs hw hf hp => exact ⟨_, _, .parts hs hw hf hp⟩
  · rintro ⟨f, p, hw⟩
    cases hw with
    | parts hs hw hf hp => exact ⟨_, .parts hs hw hf hp⟩

theorem NumberBefore.text (h : NumberBefore w r) : Texts Numeral w := by
  obtain ⟨f, p, hw, -⟩ := h
  exact texts_numeral_iff.mpr ⟨f, p, hw⟩

theorem numberBefore_nil : NumberBefore w [] ↔ Texts Numeral w := by
  simp [NumberBefore, texts_numeral_iff]

theorem NumberBefore.ne_nil (h : NumberBefore w r) : w ≠ [] := by
  obtain ⟨n, hn⟩ := h.text
  obtain ⟨x, w, rfl, -⟩ := hn.opens
  simp

-- ---------------------------------------------------------------------------
-- The number that is ahead
-- ---------------------------------------------------------------------------

theorem numberEnds_iff :
    NumberEnds f p d ↔
      ∀ x, d.ahead.head? = some x →
        x.isDigit = false ∧ (f = [] → p = [] → x ≠ '.') ∧ (p = [] → x ≠ 'e' ∧ x ≠ 'E') := by
  rw [← Cursor.current_eq_head?]
  constructor
  · intro h x hx
    refine ⟨h.digit x hx, fun hf hp => ?_, fun hp => ?_⟩
    · simpa using h.point hf hp x hx
    · simpa [isPowerMark] using h.power hp x hx
  · intro h
    refine ⟨fun x hx => (h x hx).1, fun hf hp x hx => ?_, fun hp x hx => ?_⟩
    · simpa using (h x hx).2.1 hf hp
    · simpa [isPowerMark] using (h x hx).2.2 hp

theorem numeral_iff_before :
    numeral c = .ok s d ↔ Passes c s.toList d ∧ NumberBefore s.toList d.ahead := by
  rw [numeral_eq_ok_iff]
  constructor
  · rintro ⟨negative, exponent, sg, w, ds, f, p, hsign, hwhole, hfrac, hpow, hs, hpass, hends⟩
    exact ⟨hpass, f, p, hs ▸ .parts hsign hwhole hfrac hpow, numberEnds_iff.mp hends⟩
  · rintro ⟨hpass, f, p, hw, hends⟩
    generalize hs : s.toList = v at hw hpass
    cases hw with
    | parts hsign hwhole hfrac hpow =>
      exact ⟨_, _, _, _, _, f, p, hsign, hwhole, hfrac, hpow, rfl, hpass, numberEnds_iff.mpr hends⟩

/-- Conversion takes whatever is read as a number. -/
theorem toFloat?_of_numeral (h : numeral c = .ok s d) :
    ∃ y, Decimal.toFloat? s.toList = some y := by
  obtain ⟨n, hn⟩ := (numeral_iff_before.mp h).2.text
  exact ⟨n.toFloat, by rw [Decimal.toFloat?, hn.ofList?]; rfl⟩

theorem number_ok_iff :
    number c = .ok y d ↔ ∃ s, numeral c = .ok s d ∧ Decimal.toFloat? s.toList = some y := by
  rw [number_eq]
  rcases numeral c with ⟨s, f⟩ | ⟨e, f⟩
  · simp only [EStateM.Result.ok.injEq]
    cases hconv : Decimal.toFloat? s.toList with
    | none => simp [hconv]
    | some z => simp [hconv, and_comm]
  · simp

theorem numeral_of_before (hc : c.ahead = w ++ r) (h : NumberBefore w r) :
    ∃ d, numeral c = .ok (String.ofList w) d ∧ Passes c w d ∧ d.ahead = r := by
  obtain ⟨d, hpass, hd⟩ := Passes.of_ahead hc
  refine ⟨d, numeral_iff_before.mpr ?_, hpass, hd⟩
  rw [String.toList_ofList, hd]
  exact ⟨hpass, h⟩

/-- At most one number begins a text and cannot go on there. -/
theorem NumberBefore.unique (h : NumberBefore w r) (h' : NumberBefore w' r')
    (heq : w ++ r = w' ++ r') : w = w' := by
  obtain ⟨c, hc⟩ := Cursor.exists_ahead (w ++ r)
  obtain ⟨d, hd, -⟩ := numeral_of_before hc h
  obtain ⟨d', hd', -⟩ := numeral_of_before (hc.trans heq) h'
  obtain ⟨hw, -⟩ := EStateM.Result.ok.inj (hd.symm.trans hd')
  exact String.ofList_injective hw

theorem number_of_before (hc : c.ahead = w ++ r) (h : NumberBefore w r) :
    ∃ y d, Decimal.toFloat? w = some y ∧ numeral c = .ok (String.ofList w) d ∧
      number c = .ok y d ∧ Passes c w d ∧ d.ahead = r := by
  obtain ⟨d, hd, hpass, hr⟩ := numeral_of_before hc h
  obtain ⟨y, hy⟩ := toFloat?_of_numeral hd
  exact ⟨y, d, by simpa using hy, hd, number_ok_iff.mpr ⟨_, hd, hy⟩, hpass, hr⟩

theorem exists_number_iff :
    (∃ y d, number c = .ok y d) ↔ ∃ w r, c.ahead = w ++ r ∧ NumberBefore w r := by
  constructor
  · rintro ⟨y, d, h⟩
    obtain ⟨s, hs, -⟩ := number_ok_iff.mp h
    obtain ⟨hpass, hbefore⟩ := numeral_iff_before.mp hs
    exact ⟨_, _, hpass.ahead_eq, hbefore⟩
  · rintro ⟨w, r, hc, h⟩
    obtain ⟨y, d, -, -, hy, -⟩ := number_of_before hc h
    exact ⟨y, d, hy⟩

-- ---------------------------------------------------------------------------
-- Where a number goes wrong
-- ---------------------------------------------------------------------------

/-- The scan fails where the text ends, or at a code point that is wrong in a number. -/
def FailsAsNumber (m : Scan α) : Prop :=
  ∀ c e d, m c = .error e d → e = .endOfFile ∨ e = d.invalidNumber

theorem FailsAsNumber.bind {m : Scan α} {f : α → Scan β} (hm : FailsAsNumber m)
    (hf : ∀ a, FailsAsNumber (f a)) : FailsAsNumber (m >>= f) := by
  intro c e d h
  rcases Scan.bind_eq_error_iff.mp h with h | ⟨a, _, -, h⟩
  · exact hm _ _ _ h
  · exact hf a _ _ _ h

theorem failsAsNumber_pure (a : α) : FailsAsNumber (pure a) :=
  fun _ _ _ h => nomatch h

theorem failsAsNumber_mark (q : Char → Bool) : FailsAsNumber (mark q) := by
  intro c e d h
  obtain ⟨_, -, -, -, -, rfl⟩ := mark_error h
  exact .inl rfl

theorem failsAsNumber_digits : FailsAsNumber digits := by
  intro c e d h
  unfold digits at h
  split at h
  · exact .inl (EStateM.Result.error.inj h).1.symm
  · split at h
    · simp at h
    · obtain ⟨rfl, rfl⟩ := EStateM.Result.error.inj h
      exact .inr rfl

theorem failsAsNumber_whole : FailsAsNumber whole := by
  intro c e d h
  unfold whole at h
  split at h
  · simp only at h
    split at h
    · obtain ⟨rfl, rfl⟩ := EStateM.Result.error.inj h
      exact .inr rfl
    · simp at h
  · exact failsAsNumber_digits _ _ _ h

theorem failsAsNumber_optional {q : Char → Bool} {rest : String → Scan String}
    (h : ∀ m, FailsAsNumber (rest m)) :
    FailsAsNumber (do let m ← mark q; if m.isEmpty then return "" else rest m) := by
  refine (failsAsNumber_mark q).bind fun m => ?_
  split
  · exact failsAsNumber_pure _
  · exact h m

theorem failsAsNumber_numeral : FailsAsNumber numeral := by
  have hfraction : FailsAsNumber fraction :=
    failsAsNumber_optional fun _ => failsAsNumber_digits.bind fun _ => failsAsNumber_pure _
  have hexponent : FailsAsNumber exponent :=
    failsAsNumber_optional fun _ => (failsAsNumber_mark _).bind fun _ =>
      failsAsNumber_digits.bind fun _ => failsAsNumber_pure _
  exact (failsAsNumber_mark _).bind fun _ => failsAsNumber_whole.bind fun _ =>
    hfraction.bind fun _ => hexponent.bind fun _ => failsAsNumber_pure _

/-- Only the text of a number is ever refused. -/
theorem numeral_of_number_error (h : number c = .error e d) : numeral c = .error e d := by
  rw [number_eq] at h
  split at h
  · next hnumeral =>
    obtain ⟨rfl, rfl⟩ := EStateM.Result.error.inj h
    exact hnumeral
  · next s f hs =>
    obtain ⟨y, hy⟩ := toFloat?_of_numeral hs
    simp [hy] at h

/-- A number that fails with a code point current fails alike whatever is behind that. -/
theorem not_viable_of_number_error {x : Char} (hpass : Passes c w d) (hx : d.current = some x)
    (h : number c = .error e d) : ¬ Viable (Texts Numeral) (w ++ [x]) := by
  rintro ⟨u, hu⟩
  have hc : c.ahead = w ++ [x] ++ d.unvisited := by
    rw [hpass.ahead_eq, Cursor.ahead_of_some hx]
    simp
  obtain ⟨c', hshares, hc'⟩ := Shares.exists_of_ahead (by simp) hc u
  have hagrees := stepwise_number.agrees hshares (by
    rw [h]
    simp [Outcome.cursor, Cursor.pending, Cursor.isSeated, hx])
  obtain ⟨y, d', -, -, hy, -⟩ :=
    number_of_before (r := []) (by rw [hc', List.append_nil]) (numberBefore_nil.mpr hu)
  rw [h, hy] at hagrees
  cases hagrees

/-- A number fails at the end of its text, or at a code point with which no number begins. -/
theorem number_error_cases (h : number c = .error e d) :
    (e = .endOfFile ∧ Viable (Texts Numeral) c.ahead) ∨
      ∃ w x r, c.ahead = w ++ x :: r ∧ Passes c w d ∧ d.current = some x ∧
        e = d.invalidNumber ∧ Viable (Texts Numeral) w ∧ ¬ Viable (Texts Numeral) (w ++ [x]) := by
  obtain ⟨w, hpass, hexplains⟩ := number_error h
  have hc := hpass.ahead_eq
  cases hexplains with
  | incomplete hd hviable =>
    rw [Cursor.ahead_of_none hd, List.append_nil] at hc
    exact .inl ⟨rfl, hc ▸ hviable⟩
  | misplaced he hseat hviable =>
    obtain ⟨x, hx⟩ := Option.isSome_iff_exists.mp hseat
    rw [Cursor.ahead_of_some hx] at hc
    rcases failsAsNumber_numeral _ _ _ (numeral_of_number_error h) with rfl | he'
    · exact nomatch he
    · exact .inr ⟨w, x, _, hc, hpass, hx, he', hviable, not_viable_of_number_error hpass hx h⟩
  | unterminated _ | malformed _ =>
    rcases failsAsNumber_numeral _ _ _ (numeral_of_number_error h) with he | he
    · exact nomatch he
    · exact nomatch he

theorem Viable.mono {L : List Char → Prop} (h : Viable L (w ++ r)) : Viable L w := by
  obtain ⟨u, hu⟩ := h
  exact ⟨r ++ u, by simpa using hu⟩

theorem number_endOfFile_iff :
    (∃ d, number c = .error .endOfFile d) ↔
      ¬ Texts Numeral c.ahead ∧ ∃ u, u ≠ [] ∧ Texts Numeral (c.ahead ++ u) := by
  constructor
  · rintro ⟨d, h⟩
    have hnot : ¬ Texts Numeral c.ahead := fun hw => by
      obtain ⟨y, f, -, -, hy, -⟩ :=
        number_of_before (r := []) (by rw [List.append_nil]) (numberBefore_nil.mpr hw)
      exact nomatch h.symm.trans hy
    rcases number_error_cases h with ⟨-, u, hu⟩ | ⟨_, _, _, -, -, -, he, -⟩
    · refine ⟨hnot, u, ?_, hu⟩
      rintro rfl
      exact hnot (by rwa [List.append_nil] at hu)
    · exact nomatch he
  · rintro ⟨hnot, u, -, hu⟩
    rcases hc : number c with ⟨y, d⟩ | ⟨e, d⟩
    · obtain ⟨w, r, hahead, hbefore⟩ := exists_number_iff.mp ⟨y, d, hc⟩
      cases r with
      | nil => exact absurd hbefore.text (by rwa [hahead, List.append_nil] at hnot)
      | cons x r =>
        -- nothing behind the number that was read makes it longer, so `u` does not
        have hbefore' : NumberBefore w (x :: r ++ u) := hbefore
        rw [hahead] at hu
        have heq := hbefore'.unique (numberBefore_nil.mpr hu) (by simp)
        simp at heq
    · rcases number_error_cases hc with ⟨rfl, -⟩ | ⟨w, x, r, hahead, -, -, -, -, hnot'⟩
      · exact ⟨d, rfl⟩
      · refine absurd (Viable.mono (r := r) ⟨u, ?_⟩) hnot'
        rw [hahead] at hu
        simpa using hu

/-- A number is read exactly where one is ahead that nothing behind it would make
longer. There is no other such text then, it is what is converted, and the cursor
is left behind it. A text that ends too early could go on to be a number. Any
other one fails at the first code point with which no number begins. -/
theorem number_reads (c : Cursor) :
    ((∃ y d, number c = .ok y d) ↔ ∃ w r, c.ahead = w ++ r ∧ NumberBefore w r) ∧
    (∀ w r, c.ahead = w ++ r → NumberBefore w r →
      (∀ w' r', c.ahead = w' ++ r' → NumberBefore w' r' → w' = w) ∧
      ∃ y d, Decimal.toFloat? w = some y ∧ numeral c = .ok (String.ofList w) d ∧
        number c = .ok y d ∧ Passes c w d ∧ d.current = r.head? ∧
        (r = [] → d.isExhausted = true) ∧ (r ≠ [] → d.unvisited = r.tail)) ∧
    ((∃ d, number c = .error .endOfFile d) ↔
      ¬ Texts Numeral c.ahead ∧ ∃ u, u ≠ [] ∧ Texts Numeral (c.ahead ++ u)) ∧
    (∀ e d, number c = .error e d → e ≠ .endOfFile →
      ∃ w x r, c.ahead = w ++ x :: r ∧ Passes c w d ∧ d.current = some x ∧
        e = .invalidNumber d.position ∧ Viable (Texts Numeral) w ∧
        ¬ Viable (Texts Numeral) (w ++ [x])) ∧
    ∀ s d, numeral c = .ok s d → ∃ y, Decimal.toFloat? s.toList = some y := by
  refine ⟨exists_number_iff, fun w r hc h => ⟨fun w' r' hc' h' => ?_, ?_⟩, number_endOfFile_iff,
    fun e d h hne => ?_, fun s d => toFloat?_of_numeral⟩
  · exact h'.unique h (hc'.symm.trans hc)
  · obtain ⟨y, d, hy, hnumeral, hnumber, hpass, hr⟩ := number_of_before hc h
    have hcurrent : d.current = r.head? := by rw [Cursor.current_eq_head?, hr]
    refine ⟨y, d, hy, hnumeral, hnumber, hpass, hcurrent, ?_, fun hne => ?_⟩
    · rintro rfl
      exact (hpass.ends h.ne_nil hcurrent).1
    · obtain ⟨x, r, rfl⟩ := List.exists_cons_of_ne_nil hne
      rw [Cursor.ahead_of_some hcurrent] at hr
      exact (List.cons.inj hr).2
  · rcases number_error_cases h with ⟨he, -⟩ | hcase
    · exact absurd he hne
    · exact hcase

end Document

end TextStream
