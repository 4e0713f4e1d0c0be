import TextStream.Proofs.Document.Acceptance
import TextStream.Proofs.Document.Stepwise

/-!
# The events of a document

A document reports one root: where it starts, its direct children, and that it
is complete. Which events these are depends on the text alone. They stop short
where the root cannot be read. Once it was read they are complete and stand for
the value that the root has on its own, whatever comes behind it.
-/

namespace TextStream

variable {α β : Type}

/-- The outcome without the cursor. -/
def Outcome.result : Outcome α → Except ParseError α
  | .ok a _ => .ok a
  | .error e _ => .error e

namespace Document

variable {c d : Cursor} {v : Value} {x : Char}

def arrayEvents (vs : List Value) : List Event :=
  .start (.array []) :: vs.map fun v => .child v none

def objectEvents (es : List (String × Value)) : List Event :=
  .start (.object []) :: es.map fun e => .child e.2 (some e.1)

def scalarEvents (v : Value) : List Event :=
  [.start v, .child v none]

/-- All events of a root that begins with the given code point. -/
inductive Protocol : Option Char → List Event → Prop
  | array (vs : List Value) : Protocol (some '[') (arrayEvents vs ++ [.complete])
  | object (es : List (String × Value)) : Protocol (some '{') (objectEvents es ++ [.complete])
  | scalar {x : Option Char} {v : Value} : x ≠ some '[' → x ≠ some '{' → v.isScalar = true →
      Protocol x (scalarEvents v ++ [.complete])

/-- The events of a root that is written as `w`. The members of an object are
reported as they are written, also where a key is repeated. -/
inductive Announces : List Char → Value → List Event → Prop
  | array {vs : List Value} {w : List Char} : Bracketed '[' ']' Written vs w →
      Announces w (.array vs) (arrayEvents vs ++ [.complete])
  | object {es : List (String × Value)} {w : List Char} : Bracketed '{' '}' (Entry Written) es w →
      Announces w (.object (Members.ofList es)) (objectEvents es ++ [.complete])
  | scalar {v : Value} {w : List Char} : Written v w → v.isScalar = true →
      Announces w v (scalarEvents v ++ [.complete])

-- ---------------------------------------------------------------------------
-- Reported events
-- ---------------------------------------------------------------------------

/-- Completion is reported behind a root that was read. -/
def completion : Outcome α → List Event
  | .ok _ _ => [.complete]
  | .error _ _ => []

theorem values_close (c : Cursor) : (close c).values = [.complete] := by
  unfold close
  simp only
  split <;> rfl

theorem values_andThen_map {t : Trail α} (f : α → Event) (g : List α → Value) :
    ((t.map f).andThen close).values = t.values.map f ++ completion (t.collect g) := by
  unfold Trail.andThen Trail.collect
  cases h : t.ended with
  | error e d => simp [Trail.map, Trail.values, h, completion]
  | ok _ d =>
    have hclose := values_close d
    simp only [Trail.values] at hclose
    simp [Trail.map, Trail.values, h, completion, hclose]

theorem values_finish_of_none (hx : (skipBlanks c).current = none) : (finish c).values = [] := by
  simp only [finish, hx]
  rfl

theorem values_finish_array (hx : (skipBlanks c).current = some '[') :
    (finish c).values =
      arrayEvents (array (skipBlanks c)).values ++ completion (value (skipBlanks c)) := by
  rw [value_eq, if_pos hx]
  simp only [finish, hx, ↓reduceIte]
  exact congrArg (Event.start (.array []) :: ·) (values_andThen_map _ Value.array)

theorem values_finish_object (hx : (skipBlanks c).current = some '{') :
    (finish c).values =
      objectEvents (object (skipBlanks c)).values ++ completion (value (skipBlanks c)) := by
  have hne : ('{' : Char) ≠ '[' := by decide
  rw [value_eq, if_neg (by simp [hx]), if_pos hx]
  simp only [finish, hx, hne, ↓reduceIte]
  exact congrArg (Event.start (.object []) :: ·) (values_andThen_map _ _)

theorem values_finish_scalar (hx : (skipBlanks c).current = some x) (hx' : x ∉ ['[', '{']) :
    (finish c).values =
      match value (skipBlanks c) with
      | .ok v _ => scalarEvents v ++ [.complete]
      | .error _ _ => [] := by
  simp only [List.mem_cons, List.not_mem_nil, or_false, not_or] at hx'
  simp only [finish, hx, hx', ↓reduceIte]
  cases value (skipBlanks c) with
  | error e d => rfl
  | ok v d => exact congrArg (scalarEvents v ++ ·) (values_close d)

-- ---------------------------------------------------------------------------
-- The protocol
-- ---------------------------------------------------------------------------

theorem completion_prefix (events : List Event) (o : Outcome α) :
    events ++ completion o <+: events ++ [.complete] := by
  cases o with
  | ok a d => exact List.prefix_rfl
  | error e d => exact List.prefix_append_right_inj events |>.mpr List.nil_prefix

/-- A value that begins with neither bracket is a scalar. -/
theorem isScalar_of_value {e : Cursor} (hx : c.current = some x) (hx' : x ∉ ['[', '{'])
    (h : value c = .ok v e) : v.isScalar = true := by
  obtain ⟨w, hw, hpass⟩ := (reads_value 0).sound h
  obtain ⟨y, w, rfl, -⟩ := hw.opens
  obtain rfl : x = y := Option.some.inj (hx.symm.trans hpass.current_of_cons)
  rcases hw.root with ⟨rfl, -⟩ | ⟨rfl, -⟩ | ⟨-, hscalar⟩
  · simp at hx'
  · simp at hx'
  · exact hscalar

/-- The events of any text are the beginning of those of a root. -/
theorem values_finish_prefix (c : Cursor) :
    ∃ whole, Protocol (skipBlanks c).current whole ∧ (finish c).values <+: whole := by
  cases hx : (skipBlanks c).current with
  | none =>
    rw [values_finish_of_none hx]
    exact ⟨_, .scalar (v := .null) (by simp) (by simp) rfl, List.nil_prefix⟩
  | some x =>
    by_cases ha : x = '['
    · subst ha
      rw [values_finish_array hx]
      exact ⟨_, .array _, completion_prefix _ _⟩
    by_cases ho : x = '{'
    · subst ho
      rw [values_finish_object hx]
      exact ⟨_, .object _, completion_prefix _ _⟩
    have hne : x ∉ ['[', '{'] := by simp [ha, ho]
    rw [values_finish_scalar hx hne]
    cases hv : value (skipBlanks c) with
    | error e d => exact ⟨_, .scalar (v := .null) (by simpa) (by simpa) rfl, List.nil_prefix⟩
    | ok v d =>
      exact ⟨_, .scalar (by simpa) (by simpa) (isScalar_of_value hx hne hv), List.prefix_rfl⟩

theorem complete_mem_completion_iff {events : List Event} {o : Outcome α}
    (h : Event.complete ∉ events) :
    .complete ∈ events ++ completion o ↔ ∃ a d, o = .ok a d := by
  cases o <;> simp [completion, h]

/-- Completion is reported exactly if the root can be read. -/
theorem complete_mem_iff (c : Cursor) :
    .complete ∈ (finish c).values ↔ ∃ v d, value (skipBlanks c) = .ok v d := by
  cases hx : (skipBlanks c).current with
  | none => simp [values_finish_of_none hx, value_of_none hx]
  | some x =>
    by_cases ha : x = '['
    · subst ha
      rw [values_finish_array hx]
      exact complete_mem_completion_iff (by simp [arrayEvents])
    by_cases ho : x = '{'
    · subst ho
      rw [values_finish_object hx]
      exact complete_mem_completion_iff (by simp [objectEvents])
    rw [values_finish_scalar hx (by simp [ha, ho])]
    cases value (skipBlanks c) <;> simp

/-- A document ends well, or with an error at the first code point behind its
root that is no blank, or its root cannot be read. -/
theorem value_ok_iff_ended (c : Cursor) :
    (∃ v e, value (skipBlanks c) = .ok v e) ↔
      (∃ d, (finish c).ended = .ok () d) ∨
        ∃ v e, value (skipBlanks c) = .ok v e ∧ (skipBlanks e).isSeated = true ∧
          (finish c).ended = .error (skipBlanks e).unexpectedCharacter (skipBlanks e) := by
  rw [ended_finish]
  cases value (skipBlanks c) with
  | error e d => simp
  | ok v e =>
    simp only [close, Trail.report, EStateM.Result.ok.injEq]
    by_cases hseat : (skipBlanks e).isSeated = true
    · simp only [hseat, ↓reduceIte, Trail.fail]
      exact ⟨fun _ => .inr ⟨v, e, ⟨rfl, rfl⟩, hseat, rfl⟩, fun _ => ⟨v, e, rfl, rfl⟩⟩
    · simp only [hseat, Bool.false_eq_true, ↓reduceIte, Trail.done]
      exact ⟨fun _ => .inl ⟨_, rfl⟩, fun _ => ⟨v, e, rfl, rfl⟩⟩

/-- The events of a root that was read are those of the value it has on its own. -/
theorem announces_of_value {e : Cursor} (h : value (skipBlanks c) = .ok v e) :
    ∃ w, Passes (skipBlanks c) w e ∧ Announces w v (finish c).values := by
  cases hx : (skipBlanks c).current with
  | none => simp [value_of_none hx] at h
  | some x =>
    by_cases ha : x = '['
    · subst ha
      rw [values_finish_array hx, h]
      rw [value_eq, if_pos hx] at h
      obtain ⟨vs, hvs, rfl⟩ := Trail.collect_eq_ok_iff.mp h
      obtain ⟨w, hw, hpass⟩ := bracketed_sound (reads_value 0) (by simp) hx hvs
      rw [hvs.2]
      exact ⟨w, hpass, .array hw⟩
    by_cases ho : x = '{'
    · subst ho
      rw [values_finish_object hx, h]
      rw [value_eq, if_neg (by simp [hx]), if_pos hx] at h
      obtain ⟨es, hes, rfl⟩ := Trail.collect_eq_ok_iff.mp h
      obtain ⟨w, hw, hpass⟩ := bracketed_sound (reads_value 0).member (by simp) hx hes
      rw [hes.2]
      exact ⟨w, hpass, .object hw⟩
    have hne : x ∉ ['[', '{'] := by simp [ha, ho]
    rw [values_finish_scalar hx hne, h]
    obtain ⟨w, hw, hpass⟩ := (reads_value 0).sound h
    exact ⟨w, hpass, .scalar hw (isScalar_of_value hx hne h)⟩

/-- The announced value is what the events are folded into, whatever was held before. -/
theorem Announces.folded {w : List Char} {events : List Event} (h : Announces w v events)
    (held : Tree.Held) : events.foldl Tree.receive held = some v := by
  cases h with
  | array _ => exact Tree.foldl_array_root held _
  | object _ => exact Tree.foldl_object_root held _
  | scalar _ hscalar => exact Tree.foldl_scalar_root held hscalar

end Document

/-- What an assembler does makes no difference to the grammar that it attends to. -/
theorem Session.follow_eq {σ ω : Type} (s : Session) (g : Grammar) (a : Assembler σ ω) (held : σ) :
    (s.follow g a held).held = (g s.cursor).values.foldl a.receive held ∧
      (s.follow g a held).result = Outcome.result (g s.cursor).ended ∧
      (s.follow g a held).session = { s with cursor := Outcome.cursor (g s.cursor).ended } := by
  refine ⟨a.attend_held _ _ _, ?_, ?_⟩
  · cases h : (g s.cursor).ended <;> simp [follow, h, Outcome.result]
  · show { s with cursor := (g s.cursor).cursor } = _
    unfold Trail.cursor
    cases (g s.cursor).ended <;> rfl

/-- A session that follows the document grammar hands the same events to every
assembler and ends alike with each. The events keep to the protocol of a root.
They are complete exactly if all is well or only what comes behind the root is
wrong. If all is well they announce the root's children as they are written,
and a tree assembled from them is the value read from where the root begins. -/
theorem Session.follow_finish_protocol (s : Session) :
    (∀ {σ ω : Type} (a : Assembler σ ω) (held : σ),
      (s.follow Document.finish a held).held =
        (Document.finish s.cursor).values.foldl a.receive held ∧
      (s.follow Document.finish a held).result =
        Outcome.result (Document.finish s.cursor).ended ∧
      (s.follow Document.finish a held).session =
        { s with cursor := Outcome.cursor (Document.finish s.cursor).ended }) ∧
    (∃ whole, Document.Protocol (Document.skipBlanks s.cursor).current whole ∧
      (Document.finish s.cursor).values <+: whole) ∧
    (.complete ∈ (Document.finish s.cursor).values ↔
      (∃ d, (Document.finish s.cursor).ended = .ok () d) ∨
        ∃ v e, Document.value (Document.skipBlanks s.cursor) = .ok v e ∧
          (Document.skipBlanks e).isSeated = true ∧
          (Document.finish s.cursor).ended =
            .error (Document.skipBlanks e).unexpectedCharacter (Document.skipBlanks e)) ∧
    ∀ d, (Document.finish s.cursor).ended = .ok () d →
      ∃ v e w, Document.value (Document.skipBlanks s.cursor) = .ok v e ∧
        Passes (Document.skipBlanks s.cursor) w e ∧
        Document.Announces w v (Document.finish s.cursor).values ∧
        ∀ held, output Tree.assembler (s.follow Document.finish Tree.assembler held) = .ok v := by
  refine ⟨s.follow_eq Document.finish, Document.values_finish_prefix _, ?_, fun d hd => ?_⟩
  · rw [Document.complete_mem_iff, Document.value_ok_iff_ended]
  · obtain ⟨v, e, hv⟩ := (Document.value_ok_iff_ended s.cursor).mpr (.inl ⟨d, hd⟩)
    obtain ⟨w, hpass, hevents⟩ := Document.announces_of_value hv
    refine ⟨v, e, w, hv, hpass, hevents, fun held => ?_⟩
    obtain ⟨hheld, hresult, -⟩ := s.follow_eq Document.finish Tree.assembler held
    have hout : Tree.assembler.output (s.follow Document.finish Tree.assembler held).held =
        some v := by
      rw [hheld]
      exact hevents.folded held
    simp only [output, hresult, hd, Outcome.result, hout]

end TextStream
