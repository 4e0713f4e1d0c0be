import TextStream.Proofs.Document.Stepwise

/-!
# Reading comes to an end

The runs of the grammar are bounded by nothing: a list takes another round
wherever a comma stands, and a value takes whatever is nested in it. Each cursor
still has a run, and only one, which ends as reading with a bound does. What is
ahead never grows on the way. A value that was read takes some of it, and so does
each round of a loop that goes on to the next.
-/

namespace TextStream.Document

section
variable {α : Type}

/-- The rounds of a list: an item, and what follows it. -/
inductive Rounds (close : Char) (Item : Cursor → Outcome α → Prop) : Cursor → Trail α → Prop
  | stopped {c d : Cursor} {e : ParseError} :
      Item c (.error e d) → Rounds close Item c (.fail e d)
  | broken {c d f : Cursor} {a : α} {e : ParseError} :
      Item c (.ok a d) → separator close d = .error e f →
      Rounds close Item c (.report a d (.fail e f))
  | closed {c d f : Cursor} {a : α} :
      Item c (.ok a d) → separator close d = .ok false f →
      Rounds close Item c (.report a d (.done f))
  | more {c d f : Cursor} {a : α} {t : Trail α} :
      Item c (.ok a d) → separator close d = .ok true f → Rounds close Item f t →
      Rounds close Item c (.report a d t)

/-- A list, with the cursor on its opening bracket. -/
inductive ListRun (close : Char) (Item : Cursor → Outcome α → Prop) : Cursor → Trail α → Prop
  | unopened {e : ParseError} {c d : Cursor} :
      c.advance = .error e d → ListRun close Item c (.fail e d)
  | empty {x : Char} {c d : Cursor} :
      c.advance = .ok x d → (skipBlanks d).current = some close →
      ListRun close Item c (.done (skipBlanks d).move)
  | items {x : Char} {c d : Cursor} {t : Trail α} :
      c.advance = .ok x d → (skipBlanks d).current ≠ some close →
      Rounds close Item (skipBlanks d) t → ListRun close Item c t

end

/-- The key of a member, with the colon behind it. -/
def memberKey : Scan String := fun c =>
  match c.current with
  | none => .error .endOfFile c
  | some x =>
    if x = '"' then
      (do
        let key ← string
        colon
        return key) c
    else .error c.unexpectedCharacter c

inductive MemberRun (Item : Cursor → Outcome Value → Prop) :
    Cursor → Outcome (String × Value) → Prop
  | unnamed {e : ParseError} {c d : Cursor} :
      memberKey c = .error e d → MemberRun Item c (.error e d)
  | stopped {key : String} {e : ParseError} {c d f : Cursor} :
      memberKey c = .ok key d → Item d (.error e f) → MemberRun Item c (.error e f)
  | whole {key : String} {v : Value} {c d f : Cursor} :
      memberKey c = .ok key d → Item d (.ok v f) → MemberRun Item c (.ok (key, v) f)

/-- A value, with what is nested in it to any depth. -/
inductive ValueRun : Cursor → Outcome Value → Prop
  | array {c : Cursor} {t : Trail Value} :
      c.current = some '[' → ListRun ']' ValueRun c t → ValueRun c (t.collect .array)
  | object {c : Cursor} {t : Trail (String × Value)} :
      c.current = some '{' → ListRun '}' (MemberRun ValueRun) c t →
      ValueRun c (t.collect fun ms => .object (Members.ofList ms))
  | scalar {c : Cursor} :
      c.current ≠ some '[' → c.current ≠ some '{' → ValueRun c (scalar c)

/-- The rounds of a string, behind what was read of it. -/
inductive StringRun : String → Cursor → Outcome String → Prop
  | stopped {c d : Cursor} {read : String} {e : ParseError} :
      stringItem c = .error e d → StringRun read c (.error e d)
  | closed {c d : Cursor} {read : String} :
      stringItem c = .ok none d → StringRun read c (.ok read d.move)
  | more {c d : Cursor} {read : String} {x : Char} {o : Outcome String} :
      stringItem c = .ok (some x) d → StringRun (read.push x) d o → StringRun read c o

inductive DocumentRun (c : Cursor) : Trail Event → Prop
  | missing : (skipBlanks c).current = none → DocumentRun c (.fail .endOfFile (skipBlanks c))
  | array {t : Trail Value} :
      (skipBlanks c).current = some '[' → ListRun ']' ValueRun (skipBlanks c) t →
      DocumentRun c (.report (.start (.array [])) (skipBlanks c)
        ((t.map fun v => .child v none).andThen close))
  | object {t : Trail (String × Value)} :
      (skipBlanks c).current = some '{' → ListRun '}' (MemberRun ValueRun) (skipBlanks c) t →
      DocumentRun c (.report (.start (.object [])) (skipBlanks c)
        ((t.map fun m => .child m.2 (some m.1)).andThen close))
  | stopped {x : Char} {d : Cursor} {e : ParseError} :
      (skipBlanks c).current = some x → x ≠ '[' → x ≠ '{' →
      ValueRun (skipBlanks c) (.error e d) → DocumentRun c (.fail e d)
  | scalar {x : Char} {d : Cursor} {v : Value} :
      (skipBlanks c).current = some x → x ≠ '[' → x ≠ '{' →
      ValueRun (skipBlanks c) (.ok v d) →
      DocumentRun c (.report (.start v) d (.report (.child v none) d (close d)))

-- ---------------------------------------------------------------------------
-- Lists
-- ---------------------------------------------------------------------------

section
variable {α : Type} {close : Char} {item : Scan α} {Item : Cursor → Outcome α → Prop}
  {c d f : Cursor} {t : Trail α}

/-- A round leaves less than it began with. -/
theorem round_less (hi : Consumes item) {a : α} {more : Bool} (ha : item c = .ok a d)
    (hsep : separator close d = .ok more f) : f.pending < c.pending :=
  Nat.lt_of_le_of_lt ((stepwise_separator close).pending_le_of_ok hsep) (hi.less ha)

/-- If items run as they are read, so do as many as a sufficient bound allows. -/
theorem rounds_iff (hi : Consumes item) {n : Nat} (hn : c.pending ≤ n)
    (hitem : ∀ d, d.pending ≤ c.pending → ∀ o, Item d o ↔ o = item d) :
    Rounds close Item c t ↔ t = items close item n c := by
  have hhere := hitem c (Nat.le_refl _)
  induction n generalizing c t with
  | zero =>
    rw [hi.needs (current_eq_none_of_bound hn)] at hhere
    constructor
    · intro h
      cases h with
      | stopped h =>
        obtain ⟨rfl, rfl⟩ := EStateM.Result.error.inj ((hhere _).mp h)
        rfl
      | broken h _ | closed h _ | more h _ _ => exact nomatch (hhere _).mp h
    · rintro rfl
      exact .stopped ((hhere _).mpr rfl)
  | succ n ih =>
    -- the item took some of what was ahead, so the bound left over is good for the rest
    have hrest {a : α} {d f : Cursor} (ha : item c = .ok a d)
        (hsep : separator close d = .ok true f) {t : Trail α} :
        Rounds close Item f t ↔ t = items close item n f := by
      have hless := round_less hi ha hsep
      have hitem' : ∀ g, g.pending ≤ f.pending → ∀ o, Item g o ↔ o = item g :=
        fun g hg => hitem g (by omega)
      exact ih (by omega) hitem' (hitem' f (Nat.le_refl _))
    constructor
    · intro h
      cases h with
      | stopped h => simp [items, ← (hhere _).mp h]
      | broken h hsep => simp [items, ← (hhere _).mp h, hsep]
      | closed h hsep => simp [items, ← (hhere _).mp h, hsep]
      | more h hsep h' =>
        have ha := (hhere _).mp h
        simp [items, ← ha, hsep, (hrest ha.symm hsep).mp h']
    · rintro rfl
      unfold items
      rcases ha : item c with ⟨a, d⟩ | ⟨e, d⟩
      · have hrun := (hhere _).mpr ha.symm
        rcases hsep : separator close d with ⟨_ | _, f⟩ | ⟨e, f⟩
        · simpa only [hsep] using .closed hrun hsep
        · simpa only [hsep] using .more hrun hsep ((hrest ha hsep).mpr rfl)
        · simpa only [hsep] using .broken hrun hsep
      · exact .stopped ((hhere _).mpr ha.symm)

theorem listRun_iff (hi : Consumes item)
    (hitem : ∀ d, (c.isSeated = true → d.pending < c.pending) → ∀ o, Item d o ↔ o = item d) :
    ListRun close Item c t ↔ t = bracketed close item c := by
  have hrounds {x : Char} {d : Cursor} (hadv : c.advance = .ok x d) {t : Trail α} :
      Rounds close Item (skipBlanks d) t ↔
        t = items close item (skipBlanks d).pending (skipBlanks d) := by
    obtain ⟨rfl, -⟩ := Cursor.advance_eq_ok hadv
    refine rounds_iff hi (Nat.le_refl _) fun f hf => hitem f fun hseat => ?_
    obtain ⟨y, hy⟩ := Option.isSome_iff_exists.mp hseat
    exact Nat.lt_of_le_of_lt (Nat.le_trans hf (pending_skipBlanks_le _))
      (Cursor.pending_move_lt hy)
  unfold bracketed
  constructor
  · intro h
    cases h with
    | unopened hadv => simp [hadv]
    | empty hadv hclose => simp [hadv, hclose]
    | items hadv hclose h => simp [hadv, hclose, (hrounds hadv).mp h]
  · rintro rfl
    rcases hadv : c.advance with ⟨x, d⟩ | ⟨e, d⟩
    · simp only
      split
      · next hclose => exact .empty hadv hclose
      · next hclose => exact .items hadv hclose ((hrounds hadv).mpr rfl)
    · exact .unopened hadv

end

-- ---------------------------------------------------------------------------
-- Members and values
-- ---------------------------------------------------------------------------

variable {c d f : Cursor}

theorem stepwise_memberKey : Stepwise memberKey := by
  refine .cases (.fail fun _ => .endOfFile) fun x => .ite ?_ (.fail .unexpectedCharacter)
  exact (stepwise_stringFrom "").bind fun _ => stepwise_colon.bind fun _ => .done _

theorem member_eq (read : Scan Value) (c : Cursor) :
    member read c =
      match memberKey c with
      | .error e d => .error e d
      | .ok key d =>
        match read d with
        | .error e f => .error e f
        | .ok v f => .ok (key, v) f := by
  unfold member memberKey
  cases hx : c.current with
  | none => rfl
  | some x =>
    by_cases hq : x = '"'
    · simp only [hq, ↓reduceIte, Scan.bind_apply]
      rcases string c with ⟨key, d⟩ | _
      · rcases hcolon : colon d with ⟨_, f⟩ | _
        · have hkey : (pure key : Scan String) f = .ok key f := rfl
          simp only [hcolon, hkey]
          cases read f <;> rfl
        · simp only [hcolon]
      · rfl
    · simp only [hq, ↓reduceIte]

theorem memberRun_iff {read : Scan Value} {Item : Cursor → Outcome Value → Prop}
    {o : Outcome (String × Value)}
    (hitem : ∀ d, d.pending ≤ c.pending → ∀ o, Item d o ↔ o = read d) :
    MemberRun Item c o ↔ o = member read c := by
  have hvalue {key : String} {d : Cursor} (hkey : memberKey c = .ok key d) :
      ∀ o, Item d o ↔ o = read d :=
    hitem d (stepwise_memberKey.pending_le_of_ok hkey)
  rw [member_eq]
  constructor
  · intro h
    cases h with
    | unnamed hkey => simp [hkey]
    | stopped hkey h => simp [hkey, ← (hvalue hkey _).mp h]
    | whole hkey h => simp [hkey, ← (hvalue hkey _).mp h]
  · rintro rfl
    rcases hkey : memberKey c with ⟨key, d⟩ | ⟨e, d⟩
    · simp only
      rcases hv : read d with ⟨v, f⟩ | ⟨e, f⟩
      · exact .whole hkey ((hvalue hkey _).mpr hv.symm)
      · exact .stopped hkey ((hvalue hkey _).mpr hv.symm)
    · exact .unnamed hkey

/-- Each value has one run, which ends as reading it does. -/
theorem valueRun_iff {o : Outcome Value} : ValueRun c o ↔ o = value c := by
  induction hn : c.pending using Nat.strongRecOn generalizing c o with
  | ind n ih =>
    subst hn
    have hseated {x : Char} (hx : c.current = some x) : c.isSeated = true := by
      simp [Cursor.isSeated, hx]
    have harray (hx : c.current = some '[') (t : Trail Value) :
        ListRun ']' ValueRun c t ↔ t = array c :=
      listRun_iff consumes_value fun d hd o => ih _ (hd (hseated hx)) rfl
    have hobject (hx : c.current = some '{') (t : Trail (String × Value)) :
        ListRun '}' (MemberRun ValueRun) c t ↔ t = object c :=
      listRun_iff consumes_member_value fun d hd o =>
        memberRun_iff fun f hf o => ih _ (Nat.lt_of_le_of_lt hf (hd (hseated hx))) rfl
    rw [value_eq]
    constructor
    · intro h
      cases h with
      | array hx h => simp [hx, (harray hx _).mp h]
      | object hx h => simp [hx, (hobject hx _).mp h]
      | scalar ha ho => simp [ha, ho]
    · rintro rfl
      split
      · next hx => exact .array hx ((harray hx _).mpr rfl)
      · next ha =>
        split
        · next hx => exact .object hx ((hobject hx _).mpr rfl)
        · next ho => exact .scalar ha ho

theorem arrayRun_iff {t : Trail Value} : ListRun ']' ValueRun c t ↔ t = array c :=
  listRun_iff consumes_value fun _ _ _ => valueRun_iff

theorem objectRun_iff {t : Trail (String × Value)} :
    ListRun '}' (MemberRun ValueRun) c t ↔ t = object c :=
  listRun_iff consumes_member_value fun _ _ _ => memberRun_iff fun _ _ _ => valueRun_iff

theorem stringRun_iff {read : String} {o : Outcome String} :
    StringRun read c o ↔ o = stringFrom read c := by
  induction hn : c.unvisited.length using Nat.strongRecOn generalizing read c o with
  | ind n ih =>
    subst hn
    have hrest {x : Char} {d : Cursor} (hitem : stringItem c = .ok (some x) d) :
        StringRun (read.push x) d o ↔ o = stringFrom (read.push x) d :=
      ih _ (unvisited_stringItem hitem) rfl
    rw [stringFrom_eq]
    constructor
    · intro h
      cases h with
      | stopped hitem => simp [hitem]
      | closed hitem => simp [hitem]
      | more hitem h => simp [hitem, (hrest hitem).mp h]
    · intro h
      rcases hitem : stringItem c with ⟨_ | x, d⟩ | ⟨e, d⟩
      · simp only [hitem] at h
        exact h ▸ .closed hitem
      · simp only [hitem] at h
        exact .more hitem ((hrest hitem).mpr h)
      · simp only [hitem] at h
        exact h ▸ .stopped hitem

theorem documentRun_iff {t : Trail Event} : DocumentRun c t ↔ t = finish c := by
  unfold finish
  constructor
  · intro h
    cases h with
    | missing hx => simp [hx]
    | array hx h => simp [hx, arrayRun_iff.mp h]
    | object hx h => simp [hx, objectRun_iff.mp h]
    | stopped hx ha ho h => simp [hx, ha, ho, ← valueRun_iff.mp h]
    | scalar hx ha ho h => simp [hx, ha, ho, ← valueRun_iff.mp h]
  · rintro rfl
    simp only
    split
    · next hx => exact .missing hx
    · next x hx =>
      split
      · next ha => exact .array (ha ▸ hx) (arrayRun_iff.mpr rfl)
      · next ha =>
        split
        · next ho => exact .object (ho ▸ hx) (objectRun_iff.mpr rfl)
        · next ho =>
          split
          · next hv => exact .stopped hx ha ho (valueRun_iff.mpr hv.symm)
          · next hv => exact .scalar hx ha ho (valueRun_iff.mpr hv.symm)

-- ---------------------------------------------------------------------------
-- What is ahead
-- ---------------------------------------------------------------------------

section
variable {α : Type} {close : Char} {item : Scan α}

theorem items_less (hi : Consumes item) {n : Nat} (h : (items close item n c).ended = .ok () d) :
    d.pending < c.pending := by
  induction n generalizing c with
  | zero => cases h
  | succ n ih =>
    unfold items at h
    rcases ha : item c with ⟨a, f⟩ | _
    · rcases hsep : separator close f with ⟨_ | _, g⟩ | _
      · simp only [ha, hsep, Trail.report, Trail.done] at h
        obtain ⟨-, rfl⟩ := EStateM.Result.ok.inj h
        exact round_less hi ha hsep
      · simp only [ha, hsep, Trail.report] at h
        exact Nat.lt_trans (ih h) (round_less hi ha hsep)
      · simp only [ha, hsep] at h
        cases h
    · simp only [ha] at h
      cases h

theorem bracketed_less (hi : Consumes item) (h : (bracketed close item c).ended = .ok () d) :
    d.pending < c.pending := by
  unfold bracketed at h
  split at h
  · cases h
  · next x f hadv =>
    obtain ⟨rfl, -⟩ := Cursor.advance_eq_ok hadv
    have hle := Nat.le_trans (pending_skipBlanks_le c.move) c.pending_move_le
    simp only at h
    split at h
    · next hclose =>
      obtain ⟨-, rfl⟩ := EStateM.Result.ok.inj h
      exact Nat.lt_of_lt_of_le (Cursor.pending_move_lt hclose) hle
    · exact Nat.lt_of_lt_of_le (items_less hi h) hle

end

theorem isSeated_of_visits {w : List Char} (h : Visits c w d) (hw : w ≠ []) :
    d.isSeated = true := by
  obtain ⟨v, x, -, -, hx⟩ := h.last hw
  simp [Cursor.isSeated, hx]

/-- Within a string the cursor stands on what was read last, and every round reads on. -/
theorem stringItem_less {x : Char} (hc : c.isSeated = true) (h : stringItem c = .ok (some x) d) :
    d.isSeated = true ∧ d.pending < c.pending := by
  obtain ⟨w, hvisits, hx⟩ := stringItem_eq_some_iff.mp h
  obtain ⟨y, w, rfl, -⟩ := hx.not_quote
  have hd := isSeated_of_visits hvisits (by simp)
  have hless := unvisited_stringItem h
  refine ⟨hd, ?_⟩
  simp only [Cursor.pending, hc, hd, ↓reduceIte]
  omega

/-- At the latest the closing quote is taken. -/
theorem StringRun.less {read s : String} {o : Outcome String} (h : StringRun read c o)
    (ho : o = .ok s d) : d.pending < c.pending := by
  induction h with
  | stopped _ => exact nomatch ho
  | closed hitem =>
    obtain ⟨-, rfl⟩ := EStateM.Result.ok.inj ho
    obtain ⟨x, hx⟩ := Option.isSome_iff_exists.mp
      (isSeated_of_visits (stringItem_eq_none_iff.mp hitem) (by simp))
    exact Nat.lt_of_lt_of_le (Cursor.pending_move_lt hx) (stepwise_stringItem.pending_le_of_ok hitem)
  | more hitem _ ih =>
    exact Nat.lt_of_lt_of_le (ih ho) (stepwise_stringItem.pending_le_of_ok hitem)

/-- With nothing current there is no value to read. -/
theorem isSeated_of_value {v : Value} (h : value c = .ok v d) : c.isSeated = true := by
  rw [Cursor.isSeated, Option.isSome_iff_ne_none]
  intro hx
  rw [value_of_none hx] at h
  cases h

theorem number_less {y : Float} (h : number c = .ok y d) : d.pending < c.pending := by
  obtain ⟨n, w, hn, -, hpass⟩ := number_sound h
  obtain ⟨x, w, rfl, -⟩ := hn.opens
  have hpending := hpass.pending_eq
  rw [List.length_cons] at hpending
  omega

/-- Whatever the cursor, a document has exactly one run, and so does all that is
read within it. No step leaves more ahead than there was. A value, a list, a
string and a number each take some of it, a value only where a code point is
current. So does every round of a loop that leads to another one, in a string
from one code point to the next. -/
theorem reading_terminates (c : Cursor) :
    (∀ t, DocumentRun c t ↔ t = finish c) ∧
    ((∀ o, ValueRun c o ↔ o = value c) ∧ (∀ t, ListRun ']' ValueRun c t ↔ t = array c) ∧
      (∀ t, ListRun '}' (MemberRun ValueRun) c t ↔ t = object c) ∧
      ∀ o, StringRun "" c o ↔ o = string c) ∧
    (c.move.pending ≤ c.pending ∧ (Outcome.cursor c.advance).pending ≤ c.pending ∧
      (∀ p, (c.skip p).pending ≤ c.pending) ∧ (∀ p, (c.copy p).2.pending ≤ c.pending) ∧
      (∀ k : Keyword, (Outcome.cursor (k.matchAt c)).pending ≤ c.pending) ∧
      (Outcome.cursor (finish c).ended).pending ≤ c.pending) ∧
    (∀ d, (∀ v, value c = .ok v d → c.isSeated = true ∧ d.pending < c.pending) ∧
      ((array c).ended = .ok () d → d.pending < c.pending) ∧
      ((object c).ended = .ok () d → d.pending < c.pending) ∧
      (∀ s, string c = .ok s d → d.pending < c.pending) ∧
      ∀ y, number c = .ok y d → d.pending < c.pending) ∧
    (∀ v d f, value c = .ok v d → separator ']' d = .ok true f → f.pending < c.pending) ∧
    (∀ m d f, member value c = .ok m d → separator '}' d = .ok true f →
      f.pending < c.pending) ∧
    ∀ x d, c.isSeated = true → stringItem c = .ok (some x) d →
      d.isSeated = true ∧ d.pending < c.pending := by
  refine ⟨fun t => documentRun_iff, ⟨fun o => valueRun_iff, fun t => arrayRun_iff,
    fun t => objectRun_iff, fun o => stringRun_iff⟩, ⟨c.pending_move_le,
    Stepwise.advance.pending_le c, fun p => c.pending_skip_le p, fun p => c.pending_copy_le p,
    fun k => (Stepwise.matchAt k).pending_le c, stepwise_ended_finish.pending_le c⟩,
    fun d => ⟨fun v h => ⟨isSeated_of_value h, consumes_value.less h⟩, bracketed_less consumes_value,
      bracketed_less consumes_member_value, fun s h => (stringRun_iff.mpr h.symm).less rfl,
      fun y => number_less⟩,
    fun v d f => round_less consumes_value, fun m d f => round_less consumes_member_value,
    fun x d => stringItem_less⟩

end TextStream.Document
