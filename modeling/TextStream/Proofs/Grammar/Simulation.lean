import TextStream.Grammar.Document
import TextStream.Proofs.Cursor.Passage

/-!
# Cursors that a grammar cannot tell apart

A simulation relates cursors that show the same code points and stay related
when both move. It also says which errors count as the same, since an error may
carry a position. Scans take related cursors to the same result on related
cursors. That is shown for each part of the document grammar, from single moves
up to `Document.finish`, for every simulation at once.
-/

namespace TextStream

structure Simulation where
  rel : Cursor → Cursor → Prop
  /-- Which errors count as the same. -/
  same : ParseError → ParseError → Prop
  current : ∀ {c d}, rel c d → c.current = d.current
  unvisited : ∀ {c d}, rel c d → c.unvisited = d.unvisited
  move : ∀ {c d}, rel c d → rel c.move d.move
  same_refl : ∀ e, same e e
  unexpectedCharacter : ∀ {c d}, rel c d → same c.unexpectedCharacter d.unexpectedCharacter
  unexpectedKeyword : ∀ {c d}, rel c d → same c.unexpectedKeyword d.unexpectedKeyword
  invalidNumber : ∀ {c d}, rel c d → same c.invalidNumber d.invalidNumber

namespace Simulation

variable (S : Simulation) {α β : Type} {c d : Cursor}

/-- The same result, or the same error, on related cursors. -/
inductive Outcomes : Outcome α → Outcome α → Prop where
  | ok (a : α) {c d : Cursor} : S.rel c d → Outcomes (.ok a c) (.ok a d)
  | error {e f : ParseError} {c d : Cursor} :
      S.same e f → S.rel c d → Outcomes (.error e c) (.error f d)

def Respects (m : Scan α) : Prop :=
  ∀ ⦃c d⦄, S.rel c d → S.Outcomes (m c) (m d)

/-- The same reports in the same order, and the same end. -/
structure Trails (t u : Trail α) : Prop where
  values : t.values = u.values
  ended : S.Outcomes t.ended u.ended

variable {S}

theorem Outcomes.cases {r s : Outcome α} (h : S.Outcomes r s) :
    (∃ a c d, r = .ok a c ∧ s = .ok a d ∧ S.rel c d) ∨
      ∃ e f c d, r = .error e c ∧ s = .error f d ∧ S.same e f ∧ S.rel c d := by
  cases h with
  | ok a h => exact .inl ⟨a, _, _, rfl, rfl, h⟩
  | error he h => exact .inr ⟨_, _, _, _, rfl, rfl, he, h⟩

theorem pending (h : S.rel c d) : c.pending = d.pending := by
  unfold Cursor.pending Cursor.isSeated
  rw [S.unvisited h, S.current h]

-- ---------------------------------------------------------------------------
-- Sequencing
-- ---------------------------------------------------------------------------

theorem respects_pure (a : α) : S.Respects (pure a : Scan α) :=
  fun _ _ h => .ok a h

theorem respects_bind {m : Scan α} {f : α → Scan β} (hm : S.Respects m)
    (hf : ∀ a, S.Respects (f a)) : S.Respects (m >>= f) := by
  intro c d h
  show S.Outcomes (EStateM.bind m f c) (EStateM.bind m f d)
  unfold EStateM.bind
  rcases (hm h).cases with ⟨a, c', d', hc, hd, h'⟩ | ⟨e, f, c', d', hc, hd, he, h'⟩
  · rw [hc, hd]
    exact hf a h'
  · rw [hc, hd]
    exact .error he h'

theorem respects_map {m : Scan α} (f : α → β) (hm : S.Respects m) : S.Respects (f <$> m) := by
  intro c d h
  show S.Outcomes (EStateM.map f m c) (EStateM.map f m d)
  unfold EStateM.map
  rcases (hm h).cases with ⟨a, c', d', hc, hd, h'⟩ | ⟨e, f, c', d', hc, hd, he, h'⟩
  · rw [hc, hd]
    exact .ok _ h'
  · rw [hc, hd]
    exact .error he h'

theorem Trails.done (h : S.rel c d) : S.Trails (.done c : Trail α) (.done d) :=
  ⟨rfl, .ok () h⟩

theorem Trails.fail {e f : ParseError} (he : S.same e f) (h : S.rel c d) :
    S.Trails (.fail e c : Trail α) (.fail f d) :=
  ⟨rfl, .error he h⟩

theorem Trails.report {t u : Trail α} (h : S.Trails t u) (a : α) :
    S.Trails (.report a c t) (.report a d u) :=
  ⟨congrArg (a :: ·) h.values, h.ended⟩

theorem Trails.map {t u : Trail α} (h : S.Trails t u) (f : α → β) :
    S.Trails (t.map f) (u.map f) := by
  refine ⟨?_, h.ended⟩
  have hv := congrArg (List.map f) h.values
  simpa [Trail.values, Trail.map, Function.comp_def] using hv

theorem Trails.andThen {t u : Trail α} {f : Cursor → Trail α} (h : S.Trails t u)
    (hf : ∀ {c d}, S.rel c d → S.Trails (f c) (f d)) : S.Trails (t.andThen f) (u.andThen f) := by
  unfold Trail.andThen
  rcases h.ended.cases with ⟨a, c, d, hc, hd, h'⟩ | ⟨e, e', c, d, hc, hd, he, h'⟩
  · rw [hc, hd]
    obtain ⟨hv, he⟩ := hf h'
    refine ⟨?_, he⟩
    simp only [Trail.values, List.map_append] at hv ⊢
    rw [hv]
    exact congrArg (· ++ _) h.values
  · rw [hc, hd]
    exact h

theorem Trails.collect {t u : Trail α} (h : S.Trails t u) (f : List α → β) :
    S.Outcomes (t.collect f) (u.collect f) := by
  unfold Trail.collect
  rcases h.ended.cases with ⟨a, c, d, hc, hd, h'⟩ | ⟨e, e', c, d, hc, hd, he, h'⟩
  · rw [hc, hd, h.values]
    exact .ok _ h'
  · rw [hc, hd]
    exact .error he h'

theorem Trails.cursor {t u : Trail α} (h : S.Trails t u) : S.rel t.cursor u.cursor := by
  unfold Trail.cursor
  rcases h.ended.cases with ⟨_, c, d, hc, hd, h'⟩ | ⟨e, f, c, d, hc, hd, -, h'⟩
  · rw [hc, hd]
    exact h'
  · rw [hc, hd]
    exact h'

-- ---------------------------------------------------------------------------
-- Moves, runs and words
-- ---------------------------------------------------------------------------

theorem respects_advance : S.Respects Cursor.advance := by
  intro c d h
  have hm := S.move h
  unfold Cursor.advance
  simp only [S.current hm]
  cases d.move.current with
  | none => exact .error (S.same_refl _) hm
  | some x => exact .ok x hm

theorem rel_advanceWhile {σ : Type} (judge : Judge σ) (s : σ) (dst : String) (h : S.rel c d) :
    (c.advanceWhile judge s dst).1 = (d.advanceWhile judge s dst).1 ∧
      S.rel (c.advanceWhile judge s dst).2.cursor (d.advanceWhile judge s dst).2.cursor := by
  fun_induction Cursor.advanceWhile judge s dst c generalizing d with
  | case1 s dst c hx =>
    rw [Cursor.advanceWhile_of_none (S.current h ▸ hx)]
    exact ⟨rfl, h⟩
  | case2 s dst c x hx s' hj =>
    rw [Cursor.advanceWhile_of_reject (S.current h ▸ hx) hj]
    exact ⟨rfl, h⟩
  | case3 s dst c x hx s' hj dst' rest hr ih =>
    rw [Cursor.advanceWhile_of_accept (S.current h ▸ hx) hj]
    have := ih (S.move h)
    rw [hr] at this
    exact this

theorem rel_copy (p : Char → Bool) (h : S.rel c d) :
    (c.copy p).1 = (d.copy p).1 ∧ S.rel (c.copy p).2 (d.copy p).2 :=
  rel_advanceWhile _ _ _ h

theorem rel_skip (p : Char → Bool) (h : S.rel c d) : S.rel (c.skip p) (d.skip p) := by
  unfold Cursor.skip
  rw [← Cursor.advanceWhile_eq_skipWhile _ _ "", ← Cursor.advanceWhile_eq_skipWhile _ _ ""]
  exact (rel_advanceWhile _ _ _ h).2

theorem respects_matchAt (k : Keyword) : S.Respects k.matchAt := by
  induction k with
  | nil => exact fun c d h => .ok () h
  | cons k rest ih =>
    intro c d h
    unfold Keyword.matchAt
    rw [S.current h]
    cases d.current with
    | none => exact .error (S.same_refl _) h
    | some x =>
      simp only
      split
      · exact ih (S.move h)
      · exact .error (S.unexpectedKeyword h) h

end Simulation

namespace Document

open Simulation
open Text (UnicodeEscape)

variable {S : Simulation} {α : Type} {c d : Cursor}

-- ---------------------------------------------------------------------------
-- Numbers
-- ---------------------------------------------------------------------------

theorem respects_mark (p : Char → Bool) : S.Respects (mark p) := by
  intro c d h
  unfold mark
  rw [S.current h]
  cases d.current with
  | none => exact .ok "" h
  | some x =>
    simp only
    split
    · rcases (respects_advance h).cases with
        ⟨y, c', d', hc, hd, h'⟩ | ⟨e, f, c', d', hc, hd, he, h'⟩
      · rw [hc, hd]
        exact .ok _ h'
      · rw [hc, hd]
        exact .error he h'
    · exact .ok "" h

theorem respects_digits : S.Respects digits := by
  intro c d h
  unfold digits
  rw [S.current h]
  cases d.current with
  | none => exact .error (S.same_refl _) h
  | some x =>
    simp only
    split
    · obtain ⟨hs, h'⟩ := rel_copy Char.isDigit h
      rw [hs]
      exact .ok _ h'
    · exact .error (S.invalidNumber h) h

theorem respects_whole : S.Respects whole := by
  intro c d h
  have hm := S.move h
  unfold whole
  rw [S.current h]
  split
  · simp only [S.current hm]
    split
    · exact .error (S.invalidNumber hm) hm
    · exact .ok _ hm
  · exact respects_digits h

theorem respects_fraction : S.Respects fraction := by
  refine respects_bind (respects_mark _) fun point => ?_
  split
  · exact respects_pure ""
  · exact respects_bind respects_digits fun _ => respects_pure _

theorem respects_exponent : S.Respects exponent := by
  refine respects_bind (respects_mark _) fun e => ?_
  split
  · exact respects_pure ""
  · exact respects_bind (respects_mark _) fun _ =>
      respects_bind respects_digits fun _ => respects_pure _

theorem respects_numeral : S.Respects numeral :=
  respects_bind (respects_mark _) fun _ => respects_bind respects_whole fun _ =>
    respects_bind respects_fraction fun _ => respects_bind respects_exponent fun _ =>
      respects_pure _

theorem respects_number : S.Respects number := by
  refine respects_bind respects_numeral fun text => ?_
  split
  · exact respects_pure _
  · exact fun c d h => .error (S.invalidNumber h) h

-- ---------------------------------------------------------------------------
-- Strings
-- ---------------------------------------------------------------------------

theorem respects_nextInString : S.Respects nextInString := by
  intro c d h
  unfold nextInString
  rcases (respects_advance h).cases with
    ⟨x, c', d', hc, hd, h'⟩ | ⟨e, f, c', d', hc, hd, he, h'⟩
  · rw [hc, hd]
    exact .ok x h'
  · rw [hc, hd]
    exact .error (S.same_refl _) h'

theorem respects_feedDigits (n : Nat) (e : UnicodeEscape) : S.Respects (feedDigits n e) := by
  induction n generalizing e with
  | zero => exact fun c d h => .ok (none, e) h
  | succ n ih =>
    intro c d h
    unfold feedDigits
    rcases (respects_nextInString h).cases with
      ⟨x, c', d', hc, hd, h'⟩ | ⟨e, f, c', d', hc, hd, he, h'⟩
    · rw [hc, hd]
      simp only
      split
      · exact .error (S.same_refl _) h'
      · exact .ok _ h'
      · exact ih _ h'
    · rw [hc, hd]
      exact .error he h'

theorem respects_pairMark : S.Respects pairMark := by
  intro c d h
  unfold pairMark
  rcases (respects_nextInString h).cases with
    ⟨x, c', d', hc, hd, h'⟩ | ⟨e, f, c', d', hc, hd, he, h'⟩
  · rw [hc, hd]
    simp only
    split
    · rcases (respects_nextInString h').cases with
        ⟨y, c'', d'', hc', hd', h''⟩ | ⟨e, f, c'', d'', hc', hd', he, h''⟩
      · rw [hc', hd']
        simp only
        split
        · exact .ok () h''
        · exact .error (S.same_refl _) h''
      · rw [hc', hd']
        exact .error he h''
    · exact .error (S.same_refl _) h'
  · rw [hc, hd]
    exact .error he h'

/-- The loop without the proofs that it ends. -/
theorem respects_unicodeEscapeFrom (e : UnicodeEscape) : S.Respects (unicodeEscapeFrom e) := by
  intro c d h
  induction hn : c.unvisited.length using Nat.strongRecOn generalizing e c d with
  | ind n ih =>
    subst hn
    rw [unicodeEscapeFrom_eq, unicodeEscapeFrom_eq]
    rcases (respects_feedDigits 4 e h).cases with
      ⟨⟨x, e'⟩, c', d', hc, hd, h'⟩ | ⟨e, f, c', d', hc, hd, he, h'⟩
    · rw [hc, hd]
      cases x with
      | some x => exact .ok x h'
      | none =>
        simp only
        split
        · rcases (respects_pairMark h').cases with
            ⟨_, c'', d'', hc', hd', h''⟩ | ⟨e, f, c'', d'', hc', hd', he, h''⟩
          · rw [hc', hd']
            have hlt := Nat.lt_of_lt_of_le (unvisited_pairMark hc') (unvisited_feedDigits hc)
            exact ih _ hlt e' h'' rfl
          · rw [hc', hd']
            exact .error he h''
        · exact .error (S.same_refl _) h'
    · rw [hc, hd]
      exact .error he h'

theorem respects_escape : S.Respects escape := by
  intro c d h
  unfold escape
  rcases (respects_nextInString h).cases with
    ⟨x, c', d', hc, hd, h'⟩ | ⟨e, f, c', d', hc, hd, he, h'⟩
  · rw [hc, hd]
    simp only
    split
    · exact respects_unicodeEscapeFrom {} h'
    · split
      · exact .ok _ h'
      · exact .error (S.unexpectedCharacter h') h'
  · rw [hc, hd]
    exact .error he h'

theorem respects_stringItem : S.Respects stringItem := by
  intro c d h
  unfold stringItem
  rcases (respects_nextInString h).cases with
    ⟨x, c', d', hc, hd, h'⟩ | ⟨e, f, c', d', hc, hd, he, h'⟩
  · rw [hc, hd]
    simp only
    split
    · exact .ok none h'
    · split
      · rcases (respects_escape h').cases with
          ⟨y, c'', d'', hc', hd', h''⟩ | ⟨e, f, c'', d'', hc', hd', he, h''⟩
        · rw [hc', hd']
          exact .ok (some y) h''
        · rw [hc', hd']
          exact .error he h''
      · exact .ok (some x) h'
  · rw [hc, hd]
    exact .error he h'

theorem respects_stringFrom (read : String) : S.Respects (stringFrom read) := by
  intro c d h
  induction hn : c.unvisited.length using Nat.strongRecOn generalizing read c d with
  | ind n ih =>
    subst hn
    rw [stringFrom_eq, stringFrom_eq]
    rcases (respects_stringItem h).cases with
      ⟨x, c', d', hc, hd, h'⟩ | ⟨e, f, c', d', hc, hd, he, h'⟩
    · rw [hc, hd]
      cases x with
      | none => exact .ok read (S.move h')
      | some x => exact ih _ (unvisited_stringItem hc) _ h' rfl
    · rw [hc, hd]
      exact .error he h'

-- ---------------------------------------------------------------------------
-- Values
-- ---------------------------------------------------------------------------

theorem rel_skipBlanks (h : S.rel c d) : S.rel (skipBlanks c) (skipBlanks d) :=
  rel_skip isBlank h

theorem respects_separator (close : Char) : S.Respects (separator close) := by
  intro c d h
  have hb := rel_skipBlanks h
  unfold separator
  simp only [S.current hb]
  cases (skipBlanks d).current with
  | none => exact .error (S.same_refl _) hb
  | some x =>
    simp only
    split
    · rcases (respects_advance hb).cases with
        ⟨y, c', d', hc, hd, h'⟩ | ⟨e, f, c', d', hc, hd, he, h'⟩
      · rw [hc, hd]
        exact .ok true (rel_skipBlanks h')
      · rw [hc, hd]
        exact .error he h'
    · split
      · exact .ok false (S.move hb)
      · exact .error (S.unexpectedCharacter hb) hb

theorem trails_items {close : Char} {item : Scan α} (hi : S.Respects item) (n : Nat)
    (h : S.rel c d) : S.Trails (items close item n c) (items close item n d) := by
  induction n generalizing c d with
  | zero => exact .fail (S.same_refl _) h
  | succ n ih =>
    unfold items
    rcases (hi h).cases with ⟨a, c', d', hc, hd, h'⟩ | ⟨e, f, c', d', hc, hd, he, h'⟩
    · rw [hc, hd]
      refine Trails.report ?_ a
      rcases (respects_separator close h').cases with
        ⟨b, c'', d'', hc', hd', h''⟩ | ⟨e, f, c'', d'', hc', hd', he, h''⟩
      · rw [hc', hd']
        cases b with
        | false => exact .done h''
        | true => exact ih h''
      · rw [hc', hd']
        exact .fail he h''
    · rw [hc, hd]
      exact .fail he h'

theorem trails_bracketed {close : Char} {item : Scan α} (hi : S.Respects item) (h : S.rel c d) :
    S.Trails (bracketed close item c) (bracketed close item d) := by
  unfold bracketed
  rcases (respects_advance h).cases with
    ⟨x, c', d', hc, hd, h'⟩ | ⟨e, f, c', d', hc, hd, he, h'⟩
  · rw [hc, hd]
    have hb := rel_skipBlanks h'
    simp only [pending hb]
    by_cases hx : (skipBlanks d').current = some close
    · rw [if_pos ((S.current hb).trans hx), if_pos hx]
      exact .done (S.move hb)
    · rw [if_neg (fun hx' => hx ((S.current hb).symm.trans hx')), if_neg hx]
      exact trails_items hi _ hb
  · rw [hc, hd]
    exact .fail he h'

theorem respects_colon : S.Respects colon := by
  intro c d h
  have hb := rel_skipBlanks h
  unfold colon
  simp only [S.current hb]
  cases (skipBlanks d).current with
  | none => exact .error (S.same_refl _) hb
  | some x =>
    simp only
    split
    · rcases (respects_advance hb).cases with
        ⟨y, c', d', hc, hd, h'⟩ | ⟨e, f, c', d', hc, hd, he, h'⟩
      · rw [hc, hd]
        exact .ok () (rel_skipBlanks h')
      · rw [hc, hd]
        exact .error he h'
    · exact .error (S.unexpectedCharacter hb) hb

theorem respects_member {value : Scan Value} (hv : S.Respects value) :
    S.Respects (member value) := by
  intro c d h
  unfold member
  rw [S.current h]
  cases d.current with
  | none => exact .error (S.same_refl _) h
  | some x =>
    simp only
    split
    · exact respects_bind (respects_stringFrom "") (fun _ => respects_bind respects_colon fun _ =>
        respects_bind hv fun _ => respects_pure _) h
    · exact .error (S.unexpectedCharacter h) h

theorem respects_scalar : S.Respects scalar := by
  intro c d h
  unfold scalar
  rw [S.current h]
  cases d.current with
  | none => exact .error (S.same_refl _) h
  | some x =>
    simp only
    split
    · exact respects_map _ (respects_stringFrom "") h
    · split
      · exact respects_map _ (respects_matchAt _) h
      · split
        · exact respects_map _ respects_number h
        · exact .error (S.unexpectedCharacter h) h

theorem respects_valueWithin (n : Nat) : S.Respects (valueWithin n) := by
  induction n with
  | zero => exact fun c d h => .error (S.same_refl _) h
  | succ n ih =>
    intro c d h
    unfold valueWithin
    rw [S.current h]
    split
    · exact (trails_bracketed ih h).collect _
    · split
      · exact (trails_bracketed (respects_member ih) h).collect _
      · exact respects_scalar h

theorem respects_value : S.Respects value := by
  intro c d h
  unfold value
  rw [pending h]
  exact respects_valueWithin _ h

-- ---------------------------------------------------------------------------
-- Documents
-- ---------------------------------------------------------------------------

theorem trails_close (h : S.rel c d) : S.Trails (close c) (close d) := by
  have hb := rel_skipBlanks h
  have hs : (skipBlanks c).isSeated = (skipBlanks d).isSeated :=
    congrArg Option.isSome (S.current hb)
  unfold close
  simp only
  rw [hs]
  refine Trails.report ?_ _
  split
  · exact .fail (S.unexpectedCharacter hb) hb
  · exact .done hb

/-- Related cursors give the same events and the same end. -/
theorem trails_finish (h : S.rel c d) : S.Trails (finish c) (finish d) := by
  have hb := rel_skipBlanks h
  unfold finish
  simp only [S.current hb]
  cases (skipBlanks d).current with
  | none => exact .fail (S.same_refl _) hb
  | some x =>
    simp only
    split
    · exact (((trails_bracketed respects_value hb).map _).andThen trails_close).report _
    · split
      · exact (((trails_bracketed (respects_member respects_value) hb).map _).andThen
          trails_close).report _
      · rcases (respects_value hb).cases with
          ⟨v, c', d', hc, hd, h'⟩ | ⟨e, f, c', d', hc, hd, he, h'⟩
        · rw [hc, hd]
          exact ((trails_close h').report _).report _
        · rw [hc, hd]
          exact .fail he h'

end Document

end TextStream
