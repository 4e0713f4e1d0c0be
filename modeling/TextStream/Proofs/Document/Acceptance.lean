import TextStream.Grammar.Document
import TextStream.Proofs.Assembly.Tree
import TextStream.Proofs.Document.Value
import TextStream.Proofs.Session.Verdict

/-!
# Documents are read as they are meant

The events that a document reports are folded into the value it means, for
roots of every kind. Main statement: a session accepts a text with a value
exactly if the text means that value.
-/

namespace TextStream

namespace Trail

variable {α β : Type} {as : List α} {d : Cursor} {t : Trail α}

theorem yields_map {f : α → β} {bs : List β} :
    (t.map f).Yields bs d ↔ ∃ as, t.Yields as d ∧ bs = as.map f := by
  unfold Yields map values
  simp only [List.map_map]
  constructor
  · rintro ⟨h, rfl⟩
    exact ⟨_, ⟨h, rfl⟩, by simp⟩
  · rintro ⟨_, ⟨h, rfl⟩, rfl⟩
    exact ⟨h, by simp⟩

theorem yields_andThen {next : Cursor → Trail α} :
    (t.andThen next).Yields as d ↔
      ∃ first c rest, t.Yields first c ∧ (next c).Yields rest d ∧ as = first ++ rest := by
  unfold Yields andThen values
  cases h : t.ended with
  | error e c => simp [h]
  | ok _ c =>
    simp only [EStateM.Result.ok.injEq, true_and, List.map_append]
    constructor
    · rintro ⟨h, rfl⟩
      exact ⟨_, c, _, ⟨rfl, rfl⟩, ⟨h, rfl⟩, rfl⟩
    · rintro ⟨_, _, _, ⟨rfl, rfl⟩, ⟨h, rfl⟩, rfl⟩
      exact ⟨h, rfl⟩

end Trail

namespace Document

variable {c d : Cursor} {v : Value}

-- ---------------------------------------------------------------------------
-- The root
-- ---------------------------------------------------------------------------

/-- Only blanks are left, up to the end of the text. -/
def Closes (c d : Cursor) : Prop :=
  ∃ b, Blanks b ∧ Passes c b d ∧ d.current = none

theorem Closes.delimited (h : Closes c d) : Delimited c := by
  obtain ⟨b, hb, hpass, hnone⟩ := h
  intro x hx
  rw [hpass.current_eq, hnone] at hx
  cases b with
  | nil => simp at hx
  | cons y b =>
    obtain rfl := Option.some.inj hx
    exact .inl (hb y (by simp))

theorem close_yields_iff {events : List Event} :
    (close c).Yields events d ↔ Closes c d ∧ events = [.complete] := by
  unfold close
  rw [Trail.yields_report]
  constructor
  · rintro ⟨rest, rfl, h⟩
    split at h
    · exact absurd h Trail.not_yields_fail
    · next hseat =>
      obtain ⟨rfl, rfl⟩ := Trail.yields_done.mp h
      obtain ⟨b, hb, hpass, -⟩ := exists_blanks c
      exact ⟨⟨b, hb, hpass, by simpa [Cursor.isSeated] using hseat⟩, rfl⟩
  · rintro ⟨⟨b, hb, hpass, hnone⟩, rfl⟩
    have hskip : skipBlanks c = d :=
      skipBlanks_eq_iff.mpr ⟨b, hb, hpass, fun x hx => by simp [hnone] at hx⟩
    refine ⟨[], rfl, ?_⟩
    rw [hskip, if_neg (by simp [Cursor.isSeated, hnone])]
    exact Trail.yields_done.mpr ⟨rfl, rfl⟩

/-- What the three kinds of root report when all is well. -/
theorem finish_array_iff {events : List Event} (hx : (skipBlanks c).current = some '[') :
    (finish c).Yields events d ↔
      ∃ vs e, (array (skipBlanks c)).Yields vs e ∧ Closes e d ∧
        events = .start (.array []) :: (vs.map (fun v => .child v none) ++ [.complete]) := by
  simp only [finish, hx, ↓reduceIte, Trail.yields_report, Trail.yields_andThen, Trail.yields_map,
    close_yields_iff]
  constructor
  · rintro ⟨_, rfl, _, e, _, ⟨vs, hvs, rfl⟩, ⟨hclose, rfl⟩, rfl⟩
    exact ⟨vs, e, hvs, hclose, rfl⟩
  · rintro ⟨vs, e, hvs, hclose, rfl⟩
    exact ⟨_, rfl, _, e, _, ⟨vs, hvs, rfl⟩, ⟨hclose, rfl⟩, rfl⟩

theorem finish_object_iff {events : List Event} (hx : (skipBlanks c).current = some '{') :
    (finish c).Yields events d ↔
      ∃ es e, (object (skipBlanks c)).Yields es e ∧ Closes e d ∧
        events =
          .start (.object []) :: (es.map (fun m => .child m.2 (some m.1)) ++ [.complete]) := by
  have hne : ('{' : Char) ≠ '[' := by decide
  simp only [finish, hx, hne, ↓reduceIte, Trail.yields_report, Trail.yields_andThen,
    Trail.yields_map, close_yields_iff]
  constructor
  · rintro ⟨_, rfl, _, e, _, ⟨es, hes, rfl⟩, ⟨hclose, rfl⟩, rfl⟩
    exact ⟨es, e, hes, hclose, rfl⟩
  · rintro ⟨es, e, hes, hclose, rfl⟩
    exact ⟨_, rfl, _, e, _, ⟨es, hes, rfl⟩, ⟨hclose, rfl⟩, rfl⟩

theorem finish_scalar_iff {events : List Event} {x : Char} (hx : (skipBlanks c).current = some x)
    (hx' : x ∉ ['[', '{']) :
    (finish c).Yields events d ↔
      ∃ v e, value (skipBlanks c) = .ok v e ∧ Closes e d ∧
        events = [.start v, .child v none, .complete] := by
  simp only [List.mem_cons, List.not_mem_nil, or_false, not_or] at hx'
  simp only [finish, hx, hx', ↓reduceIte]
  cases value (skipBlanks c) with
  | error e f => simp [Trail.not_yields_fail]
  | ok v e =>
    simp only [Trail.yields_report, close_yields_iff, EStateM.Result.ok.injEq]
    constructor
    · rintro ⟨_, rfl, _, rfl, hclose, rfl⟩
      exact ⟨v, e, ⟨rfl, rfl⟩, hclose, rfl⟩
    · rintro ⟨_, _, ⟨rfl, rfl⟩, hclose, rfl⟩
      exact ⟨_, rfl, _, rfl, hclose, rfl⟩

/-- The first code point of a value tells which kind of root it is. -/
theorem Written.root {x : Char} {w : List Char} (h : Written v (x :: w)) :
    (x = '[' ∧ ∃ vs, v = .array vs ∧ Bracketed '[' ']' Written vs (x :: w)) ∨
    (x = '{' ∧ ∃ es, v = .object (Members.ofList es) ∧
      Bracketed '{' '}' (Entry Written) es (x :: w)) ∨
    (x ∉ ['[', '{'] ∧ v.isScalar = true) := by
  generalize hu : x :: w = u at h
  cases h with
  | nullWord =>
    obtain ⟨rfl, -⟩ := List.cons.inj (hu.trans (rfl : _ = ['n', 'u', 'l', 'l']))
    exact .inr (.inr ⟨by decide, rfl⟩)
  | trueWord =>
    obtain ⟨rfl, -⟩ := List.cons.inj (hu.trans (rfl : _ = ['t', 'r', 'u', 'e']))
    exact .inr (.inr ⟨by decide, rfl⟩)
  | falseWord =>
    obtain ⟨rfl, -⟩ := List.cons.inj (hu.trans (rfl : _ = ['f', 'a', 'l', 's', 'e']))
    exact .inr (.inr ⟨by decide, rfl⟩)
  | number hn =>
    obtain ⟨y, w', rfl, hy⟩ := hn.opens
    obtain ⟨rfl, -⟩ := List.cons.inj hu
    exact .inr (.inr ⟨not_mem_of_numeral_start hy rfl, rfl⟩)
  | string hs =>
    obtain ⟨w', rfl⟩ := hs.opens
    obtain ⟨rfl, -⟩ := List.cons.inj hu
    exact .inr (.inr ⟨by decide, rfl⟩)
  | array ha =>
    obtain ⟨w', rfl⟩ := ha.opens
    obtain ⟨rfl, -⟩ := List.cons.inj hu
    exact .inl ⟨rfl, _, rfl, ha⟩
  | object ho hms =>
    obtain ⟨w', rfl⟩ := ho.opens
    obtain ⟨rfl, -⟩ := List.cons.inj hu
    exact .inr (.inl ⟨rfl, _, by rw [Members.collects_iff.mp hms], ho⟩)

/-- The events of a document are folded into a value that is written where its blanks end. -/
theorem finish_sound {events : List Event} {held : Tree.Held} (h : (finish c).Yields events d)
    (hv : events.foldl Tree.receive held = some v) :
    ∃ w e, Written v w ∧ Passes (skipBlanks c) w e ∧ Closes e d := by
  cases hx : (skipBlanks c).current with
  | none =>
    simp only [finish, hx] at h
    exact absurd h Trail.not_yields_fail
  | some x =>
    by_cases ha : x = '['
    · subst ha
      obtain ⟨vs, e, hvs, hclose, rfl⟩ := (finish_array_iff hx).mp h
      obtain ⟨w, hw, hpass⟩ := bracketed_sound (reads_value 0) (by simp) hx hvs
      rw [Tree.foldl_array_root, Option.some.injEq] at hv
      subst hv
      exact ⟨w, e, .array hw, hpass, hclose⟩
    · by_cases ho : x = '{'
      · subst ho
        obtain ⟨es, e, hes, hclose, rfl⟩ := (finish_object_iff hx).mp h
        obtain ⟨w, hw, hpass⟩ := bracketed_sound (reads_value 0).member (by simp) hx hes
        rw [Tree.foldl_object_root, Option.some.injEq] at hv
        subst hv
        exact ⟨w, e, .object hw (Members.collects_ofList es), hpass, hclose⟩
      · have hne : x ∉ ['[', '{'] := by simp [ha, ho]
        obtain ⟨u, e, hu, hclose, rfl⟩ := (finish_scalar_iff hx hne).mp h
        obtain ⟨w, hw, hpass⟩ := (reads_value 0).sound hu
        obtain ⟨y, w, rfl, -⟩ := hw.opens
        obtain rfl : x = y := Option.some.inj (hx.symm.trans hpass.current_of_cons)
        rcases hw.root with ⟨hx', -⟩ | ⟨hx', -⟩ | ⟨-, hscalar⟩
        · exact absurd hx' ha
        · exact absurd hx' ho
        · rw [Tree.foldl_scalar_root held hscalar, Option.some.injEq] at hv
          subst hv
          exact ⟨_, e, hw, hpass, hclose⟩

theorem finish_complete {w : List Char} {e : Cursor} (held : Tree.Held) (hw : Written v w)
    (hpass : Passes (skipBlanks c) w e) (hclose : Closes e d) :
    ∃ events, (finish c).Yields events d ∧ events.foldl Tree.receive held = some v := by
  obtain ⟨x, w, rfl, -⟩ := hw.opens
  have hx := hpass.current_of_cons
  rcases hw.root with ⟨rfl, vs, rfl, hvs⟩ | ⟨rfl, es, rfl, hes⟩ | ⟨hne, hscalar⟩
  · have hy := bracketed_complete (reads_value (w.length + 1)) (by simp) hvs (by simp) hpass
    exact ⟨_, (finish_array_iff hx).mpr ⟨vs, e, hy, hclose, rfl⟩, Tree.foldl_array_root held vs⟩
  · have hy := bracketed_complete (reads_value (w.length + 1)).member (by simp) hes (by simp) hpass
    exact ⟨_, (finish_object_iff hx).mpr ⟨es, e, hy, hclose, rfl⟩, Tree.foldl_object_root held es⟩
  · have hvalue := (reads_value _).complete hw (Nat.le_refl _) hpass hclose.delimited
    exact ⟨_, (finish_scalar_iff hx hne).mpr ⟨v, e, hvalue, hclose, rfl⟩,
      Tree.foldl_scalar_root held hscalar⟩

/-- Over the text ahead of a cursor, a document ends well exactly if that text means something. -/
theorem finish_iff_means (held : Tree.Held) :
    (∃ events d, (finish c).Yields events d ∧ events.foldl Tree.receive held = some v) ↔
      Means c.ahead v := by
  constructor
  · rintro ⟨events, d, h, hv⟩
    obtain ⟨b, hb, hpass, -⟩ := exists_blanks c
    obtain ⟨w, e, hw, hpass', b', hb', hpass'', hnone⟩ := finish_sound h hv
    have hahead := ((hpass.append hpass').append hpass'').ahead_eq
    rw [Cursor.ahead_of_none hnone, List.append_nil] at hahead
    rw [hahead]
    exact .padded hb hw hb'
  · intro h
    generalize ht : c.ahead = t at h
    cases h with
    | @padded b w b' v hb hw hb' =>
      rw [← List.append_nil (b ++ w ++ b')] at ht
      obtain ⟨d, hall, hend⟩ := Passes.of_ahead ht
      obtain ⟨f, hvalue, hafter⟩ := hall.split
      obtain ⟨e, hbefore, hvalue⟩ := hvalue.split
      have hnone : d.current = none := by rw [Cursor.current_eq_head?, hend]; rfl
      have hskip : skipBlanks c = e := by
        obtain ⟨x, w, rfl, hx, -⟩ := hw.opens
        exact skipBlanks_eq_iff.mpr ⟨b, hb, hbefore, stops_isBlank hvalue.current_of_cons hx⟩
      obtain ⟨events, h⟩ := finish_complete held hw (hskip ▸ hvalue) ⟨b', hb', hafter, hnone⟩
      exact ⟨events, d, h⟩

theorem not_means_nil : ¬ Means [] v := by
  intro h
  generalize ht : [] = t at h
  cases h with
  | padded _ hw _ =>
    obtain ⟨x, w, rfl, -⟩ := hw.opens
    simp at ht

/-- What is folded from a document is put out exactly if the text ahead means it. -/
theorem judge_finish_iff (options : Options) (held : Tree.Held) :
    options.judge Tree.assembler held (finish c) = .ok v ↔ Means c.ahead v := by
  rw [Options.judge_eq_ok_iff, ← finish_iff_means held]
  constructor
  · rintro ⟨d, hend, hv⟩
    exact ⟨_, d, ⟨hend, rfl⟩, hv⟩
  · rintro ⟨_, d, ⟨hend, rfl⟩, hv⟩
    exact ⟨d, hend, hv⟩

end Document

/-- A session accepts exactly the texts that mean a value, and puts out that value. -/
theorem Session.accepts_iff_means (options : Options) (text : List Char) (v : Value) :
    ((new options).parse text Tree.assembler none (some (.grammar Document.finish))).verdict =
      .ok v ↔ Document.Means text v := by
  rw [verdict_parse]
  split
  · next hnil =>
    subst hnil
    simp [Options.refuse_ne_ok, Document.not_means_nil]
  · rw [Document.judge_finish_iff, Cursor.ahead_atStart]

end TextStream
