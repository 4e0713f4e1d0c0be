import TextStream.Grammar.Document
import TextStream.Proofs.Cursor.Stepwise
import TextStream.Proofs.Document.Value

/-!
# Documents are read step by step

Every part of the document grammar is a stepwise scan, from numbers and strings
up to whole documents. Values are read with a bound on nesting and lists with a
bound on their items. Each level and each item takes at least one code point,
so all bounds that are not below what is ahead give the same outcome, and with
such a bound a value nested in another is read as it is on its own.
-/

namespace TextStream.Document

open Text (UnicodeEscape)

variable {α β : Type} {c d : Cursor}

-- ---------------------------------------------------------------------------
-- Numbers
-- ---------------------------------------------------------------------------

theorem stepwise_mark (p : Char → Bool) : Stepwise (mark p) := by
  refine .cases (.done "") fun x => .ite ?_ (.done "")
  exact Stepwise.advance.andThen (fun _ => ⟨_, .done x.toString, fun h => by simp [h]⟩)
    fun h => by simp [h]

theorem stepwise_digits : Stepwise digits := by
  refine .cases (.fail fun _ => .endOfFile) fun x => ?_
  exact .ite (.copy Char.isDigit) (.fail .invalidNumber)

theorem stepwise_whole : Stepwise whole := by
  refine .look (m := fun x c =>
    if x = some '0' then
      if c.move.current.any Char.isDigit then .error c.move.invalidNumber c.move
      else .ok "0" c.move
    else digits c) fun x => .ite (.move (m := fun d =>
      if d.current.any Char.isDigit then .error d.invalidNumber d else .ok "0" d) ?_)
      stepwise_digits
  exact .look (m := fun x d => if x.any Char.isDigit then .error d.invalidNumber d else .ok "0" d)
    fun x => .ite (.fail .invalidNumber) (.done "0")

/-- A part that begins with a mark is stepwise if what follows the mark is. -/
theorem stepwise_optional {p : Char → Bool} {rest : String → Scan String}
    (h : ∀ m, Stepwise (rest m)) :
    Stepwise (do let m ← mark p; if m.isEmpty then return "" else rest m) := by
  refine (stepwise_mark p).bind fun m => ?_
  split
  · exact .done ""
  · exact h m

theorem stepwise_fraction : Stepwise fraction :=
  stepwise_optional fun _ => stepwise_digits.bind fun _ => .done _

theorem stepwise_exponent : Stepwise exponent :=
  stepwise_optional fun _ => (stepwise_mark _).bind fun _ => stepwise_digits.bind fun _ => .done _

theorem stepwise_numeral : Stepwise numeral :=
  (stepwise_mark _).bind fun _ => stepwise_whole.bind fun _ => stepwise_fraction.bind fun _ =>
    stepwise_exponent.bind fun _ => .done _

theorem stepwise_number : Stepwise number := by
  refine stepwise_numeral.bind fun text => ?_
  split
  · exact .done _
  · exact .fail .invalidNumber

-- ---------------------------------------------------------------------------
-- Strings
-- ---------------------------------------------------------------------------

theorem stepwise_nextInString : Stepwise nextInString := by
  refine (Stepwise.cases (.fail fun _ => .unterminatedString) .done).move.of_eq fun c => ?_
  unfold nextInString Cursor.advance
  cases hx : c.move.current <;> simp [hx]

theorem stepwise_feedDigits (n : Nat) (e : UnicodeEscape) : Stepwise (feedDigits n e) := by
  induction n generalizing e with
  | zero => exact .done _
  | succ n ih =>
    refine stepwise_nextInString.andThen (fun x => ?_) fun h => by simp [feedDigits, h]
    rcases hx : e.feed x with ⟨err | _ | y, e'⟩
    · exact ⟨_, .fail fun _ => err, fun h => by simp [feedDigits, h, hx]⟩
    · exact ⟨_, ih e', fun h => by simp [feedDigits, h, hx]⟩
    · exact ⟨_, .done (some y, e'), fun h => by simp [feedDigits, h, hx]⟩

theorem stepwise_pairMark : Stepwise pairMark := by
  refine stepwise_nextInString.andThen (fun x => ?_) fun h => by simp [pairMark, h]
  by_cases hx : x = '\\'
  · refine ⟨nextInString >>= fun y => if y = 'u' then pure () else throw .invalidUnicode,
      stepwise_nextInString.bind fun y => ?_, fun {c d} h => ?_⟩
    · split
      · exact .done ()
      · exact .fail fun _ => .invalidUnicode
    · simp only [pairMark, h, hx, ↓reduceIte, Scan.bind_apply]
      rcases nextInString d with ⟨y, f⟩ | _
      · simp only
        split <;> rfl
      · rfl
  · exact ⟨_, .fail fun _ => .invalidUnicode, fun h => by simp [pairMark, h, hx]⟩

/-- One round of an escape: digits, and the mark of a second escape if one is to follow. -/
def escapeRound (e : UnicodeEscape) : Scan (Char ⊕ UnicodeEscape) := do
  match ← feedDigits 4 e with
  | (some x, _) => return .inl x
  | (none, e) => if e.isAwaitingLow then (fun _ => .inr e) <$> pairMark else throw .invalidUnicode

/-- An escape is read in such rounds. -/
theorem unicodeEscapeFrom_round (e : UnicodeEscape) (c : Cursor) :
    unicodeEscapeFrom e c = (escapeRound e >>= Sum.elim pure unicodeEscapeFrom) c := by
  rw [unicodeEscapeFrom_eq]
  simp only [escapeRound, Scan.bind_apply]
  rcases feedDigits 4 e c with ⟨_ | x, e'⟩ | _
  · simp only
    split
    · simp only [Scan.map_apply]
      cases pairMark _ <;> rfl
    · rfl
  · rfl
  · rfl

theorem stepwise_unicodeEscapeFrom (e : UnicodeEscape) : Stepwise (unicodeEscapeFrom e) := by
  refine Stepwise.loop escapeRound (fun c => c.unvisited.length)
    (fun c => Nat.le_add_right _ _) (fun e => ?_) unicodeEscapeFrom_round
    (fun e c e' d h => ?_) e
  · refine (stepwise_feedDigits 4 e).bind fun ⟨x, e'⟩ => ?_
    cases x with
    | some x => exact .done _
    | none =>
      simp only
      split
      · exact stepwise_pairMark.map _
      · exact .fail fun _ => .invalidUnicode
  · simp only [escapeRound, Scan.bind_apply] at h
    rcases hfeed : feedDigits 4 e c with ⟨_ | x, e''⟩ | _
    · simp only [hfeed] at h
      split at h
      · obtain ⟨_, hmark, -⟩ := Scan.map_eq_ok_iff.mp h
        exact Nat.lt_of_lt_of_le (unvisited_pairMark hmark) (unvisited_feedDigits hfeed)
      · exact nomatch h
    · simp only [hfeed] at h
      exact nomatch h
    · simp only [hfeed] at h
      exact nomatch h

theorem stepwise_escape : Stepwise escape := by
  refine stepwise_nextInString.andThen (fun x => ?_) fun h => by simp [escape, h]
  by_cases hu : x = 'u'
  · exact ⟨_, stepwise_unicodeEscapeFrom {}, fun h => by simp [escape, h, hu, unicodeEscape]⟩
  · cases hx : letterEscape? x with
    | some y => exact ⟨_, .done y, fun h => by simp [escape, h, hu, hx]⟩
    | none =>
      exact ⟨_, .fail .unexpectedCharacter, fun h => by
        simp [escape, h, hu, hx, Cursor.unexpectedCharacter]⟩

theorem stepwise_stringItem : Stepwise stringItem := by
  refine stepwise_nextInString.andThen (fun x => ?_) fun h => by simp [stringItem, h]
  by_cases hq : x = '"'
  · exact ⟨_, .done none, fun h => by simp [stringItem, h, hq]⟩
  · by_cases hb : x = '\\'
    · refine ⟨_, stepwise_escape.map some, fun {c d} h => ?_⟩
      simp only [stringItem, h, hb, Scan.map_apply]
      cases escape d <;> rfl
    · exact ⟨_, .done (some x), fun h => by simp [stringItem, h, hq, hb]⟩

/-- One round of a string: an item that is added to what was read, or the end. -/
def stringRound (read : String) : Scan (String ⊕ String) := do
  match ← stringItem with
  | some x => return .inr (read.push x)
  | none => fun c => .ok (.inl read) c.move

theorem stepwise_stringFrom (read : String) : Stepwise (stringFrom read) := by
  refine Stepwise.loop stringRound (fun c => c.unvisited.length)
    (fun c => Nat.le_add_right _ _) (fun read => ?_) (fun read c => ?_)
    (fun read c read' d h => ?_) read
  · refine stepwise_stringItem.bind fun x => ?_
    cases x with
    | some x => exact .done _
    | none => exact .move (.done _)
  · rw [stringFrom_eq]
    simp only [stringRound, Scan.bind_apply]
    rcases stringItem c with ⟨_ | x, d⟩ | _
    · rfl
    · rfl
    · rfl
  · simp only [stringRound, Scan.bind_apply] at h
    rcases hitem : stringItem c with ⟨_ | x, f⟩ | _
    · simp only [hitem] at h
      exact nomatch h
    · simp only [hitem] at h
      obtain ⟨-, rfl⟩ := EStateM.Result.ok.inj h
      exact unvisited_stringItem hitem
    · simp only [hitem] at h
      exact nomatch h

-- ---------------------------------------------------------------------------
-- Marks between items
-- ---------------------------------------------------------------------------

theorem stepwise_afterBlanks {m : Scan α} (hm : Stepwise m) : Stepwise fun c => m (skipBlanks c) :=
  (Stepwise.skip isBlank).bind fun _ => hm

/-- A scan that decides by the code point behind blanks how to go on from there. -/
theorem stepwise_pastBlanks {m : Scan α}
    (h : ∀ x, ∃ k, Stepwise k ∧ ∀ {c}, (skipBlanks c).current = x → m c = k (skipBlanks c)) :
    Stepwise m := by
  choose k hk hm using h
  have heq : m = fun c => k (skipBlanks c).current (skipBlanks c) := funext fun c => hm _ rfl
  exact heq ▸ stepwise_afterBlanks (.look hk)

/-- A mark is passed over together with the blanks behind it. -/
theorem stepwise_passMark (a : α) :
    Stepwise fun c =>
      match c.advance with
      | .ok _ d => .ok a (skipBlanks d)
      | .error e d => .error e d :=
  Stepwise.advance.andThen
    (fun _ => ⟨_, stepwise_afterBlanks (.done a), fun h => by simp [h]⟩) fun h => by simp [h]

/-- Passes over a mark with blanks around it. Another code point is left to `other`. -/
def pastMark (x : Char) (a : α) (other : Scan α) : Scan α := fun c =>
  let c := skipBlanks c
  match c.current with
  | none => .error .endOfFile c
  | some y =>
    if y = x then
      match c.advance with
      | .ok _ d => .ok a (skipBlanks d)
      | .error e d => .error e d
    else other c

theorem separator_eq (close : Char) :
    separator close = pastMark ',' true fun c =>
      if c.current = some close then .ok false c.move else .error c.unexpectedCharacter c := by
  funext c
  unfold separator pastMark
  generalize skipBlanks c = c
  cases hx : c.current with
  | none => simp [hx]
  | some x => cases hadv : c.advance <;> simp [hx, hadv]

theorem colon_eq : colon = pastMark ':' () fun c => .error c.unexpectedCharacter c := by
  funext c
  unfold colon pastMark
  generalize skipBlanks c = c
  cases hx : c.current with
  | none => simp [hx]
  | some x => cases hadv : c.advance <;> simp [hx, hadv]

theorem stepwise_pastMark {other : Scan α} (x : Char) (a : α) (h : Stepwise other) :
    Stepwise (pastMark x a other) := by
  refine stepwise_pastBlanks fun y => ?_
  cases y with
  | none => exact ⟨_, .fail fun _ => .endOfFile, fun h => by simp [pastMark, h]⟩
  | some y =>
    by_cases hy : y = x
    · exact ⟨_, stepwise_passMark a, fun h => by simp only [pastMark, h, hy, ↓reduceIte]⟩
    · exact ⟨_, h, fun h => by simp [pastMark, h, hy]⟩

theorem stepwise_separator (close : Char) : Stepwise (separator close) := by
  rw [separator_eq]
  exact stepwise_pastMark _ _ (.look (m := fun x c =>
    if x = some close then .ok false c.move else .error c.unexpectedCharacter c)
    fun x => .ite (.move (.done false)) (.fail .unexpectedCharacter))

theorem stepwise_colon : Stepwise colon := by
  rw [colon_eq]
  exact stepwise_pastMark _ _ (.fail .unexpectedCharacter)

theorem stepwise_member {value : Scan Value} (hv : Stepwise value) : Stepwise (member value) := by
  refine .cases (.fail fun _ => .endOfFile) fun x => .ite ?_ (.fail .unexpectedCharacter)
  exact (stepwise_stringFrom "").bind fun _ => stepwise_colon.bind fun _ => hv.bind fun _ => .done _

theorem stepwise_scalar : Stepwise scalar := by
  refine .cases (.fail fun _ => .endOfFile) fun x => .ite ((stepwise_stringFrom "").map _) ?_
  cases word? x with
  | some word => exact (Stepwise.matchAt word.1).map _
  | none => exact .ite (stepwise_number.map _) (.fail .unexpectedCharacter)

-- ---------------------------------------------------------------------------
-- Bounds that are large enough
-- ---------------------------------------------------------------------------

/-- The scan takes at least one code point, and needs one. -/
structure Consumes (item : Scan α) : Prop where
  less : ∀ {c a d}, item c = .ok a d → d.pending < c.pending
  needs : ∀ {c}, c.current = none → item c = .error .endOfFile c

theorem Reads.consumes {n : Nat} {item : Scan α} {Item : α → List Char → Prop}
    (h : Reads n item Item) (hneeds : ∀ {c}, c.current = none → item c = .error .endOfFile c) :
    Consumes item where
  less ha := by
    obtain ⟨w, hw, hpass⟩ := h.sound ha
    obtain ⟨x, w, rfl, -⟩ := h.opens hw
    have hpending := hpass.pending_eq
    rw [List.length_cons] at hpending
    omega
  needs := hneeds

theorem pending_skipBlanks_le (c : Cursor) : (skipBlanks c).pending ≤ c.pending :=
  c.pending_skip_le isBlank

/-- With a code point ahead no sufficient bound is zero. -/
theorem exists_bound {x : Char} {n : Nat} (hx : c.current = some x) (hn : c.pending ≤ n) :
    ∃ k, n = k + 1 := by
  have := Cursor.pending_move_lt hx
  exact ⟨n - 1, by omega⟩

theorem current_eq_none_of_bound (hn : c.pending ≤ 0) : c.current = none := by
  cases hx : c.current with
  | none => rfl
  | some x => exact absurd (exists_bound hx hn) (by simp)

section
variable {item item' : Scan α} {close : Char}

theorem items_of_none (hi : Consumes item) (hc : c.current = none) (n : Nat) :
    items close item n c = .fail .endOfFile c := by
  cases n with
  | zero => rfl
  | succ n => simp [items, hi.needs hc]

/-- To a list it makes no difference which sufficient bound it has, nor what its
items would be on more than is ahead. -/
theorem items_congr (hi : Consumes item) (hi' : Consumes item') {n m : Nat} (hn : c.pending ≤ n)
    (hm : c.pending ≤ m) (heq : ∀ d, d.pending ≤ c.pending → item d = item' d) :
    items close item n c = items close item' m c := by
  induction n generalizing c m with
  | zero =>
    cases hx : c.current with
    | none => rw [items_of_none hi hx, items_of_none hi' hx]
    | some x => exact absurd (exists_bound hx hn) (by simp)
  | succ n ih =>
    cases hx : c.current with
    | none => rw [items_of_none hi hx, items_of_none hi' hx]
    | some x =>
      obtain ⟨m, rfl⟩ := exists_bound hx hm
      simp only [items, ← heq c (Nat.le_refl _)]
      cases ha : item c with
      | error e d => rfl
      | ok a d =>
        have hd := hi.less ha
        simp only
        congr 1
        cases hsep : separator close d with
        | error e f => rfl
        | ok more f =>
          cases more with
          | false => rfl
          | true =>
            have hf := (stepwise_separator close).pending_le_of_ok hsep
            exact ih (by omega) (by omega) fun g hg => heq g (by omega)

theorem bracketed_congr (hi : Consumes item) (hi' : Consumes item') {x : Char}
    (hx : c.current = some x) (heq : ∀ d, d.pending < c.pending → item d = item' d) :
    bracketed close item c = bracketed close item' c := by
  unfold bracketed
  cases hadv : c.advance with
  | error e d => rfl
  | ok y d =>
    obtain ⟨rfl, -⟩ := Cursor.advance_eq_ok hadv
    have hless := Nat.lt_of_le_of_lt (pending_skipBlanks_le c.move) (Cursor.pending_move_lt hx)
    simp only
    split
    · rfl
    · exact items_congr hi hi' (Nat.le_refl _) (Nat.le_refl _) fun d hd => heq d (by omega)

end

theorem member_of_none {value : Scan Value} (hc : c.current = none) :
    member value c = .error .endOfFile c := by
  simp [member, hc]

theorem member_congr {value value' : Scan Value}
    (heq : ∀ d, d.pending ≤ c.pending → value d = value' d) : member value c = member value' c := by
  unfold member
  split
  · rfl
  · split
    · simp only [Scan.bind_apply]
      cases hkey : string c with
      | error e d => rfl
      | ok key d =>
        have hd := (stepwise_stringFrom "").pending_le_of_ok hkey
        simp only
        cases hcolon : colon d with
        | error e f => rfl
        | ok _ f =>
          have hf := stepwise_colon.pending_le_of_ok hcolon
          simp only [heq f (by omega)]
    · rfl

theorem valueWithin_of_none (hc : c.current = none) (n : Nat) :
    valueWithin n c = .error .endOfFile c := by
  cases n with
  | zero => rfl
  | succ n => simp [valueWithin, hc, scalar]

theorem consumes_valueWithin (n : Nat) : Consumes (valueWithin n) :=
  (reads_valueWithin n).consumes fun h => valueWithin_of_none h n

theorem consumes_member_valueWithin (n : Nat) : Consumes (member (valueWithin n)) :=
  (reads_valueWithin n).member.consumes member_of_none

theorem valueWithin_congr {n m : Nat} (hn : c.pending ≤ n) (hm : c.pending ≤ m) :
    valueWithin n c = valueWithin m c := by
  induction n generalizing c m with
  | zero =>
    cases hx : c.current with
    | none => rw [valueWithin_of_none hx, valueWithin_of_none hx]
    | some x => exact absurd (exists_bound hx hn) (by simp)
  | succ n ih =>
    cases hx : c.current with
    | none => rw [valueWithin_of_none hx, valueWithin_of_none hx]
    | some x =>
      obtain ⟨m, rfl⟩ := exists_bound hx hm
      have hnested : ∀ d, d.pending < c.pending → valueWithin n d = valueWithin m d :=
        fun d hd => ih (by omega) (by omega)
      have harray : bracketed ']' (valueWithin n) c = bracketed ']' (valueWithin m) c :=
        bracketed_congr (consumes_valueWithin n) (consumes_valueWithin m) hx hnested
      have hobject : bracketed '}' (member (valueWithin n)) c =
          bracketed '}' (member (valueWithin m)) c :=
        bracketed_congr (consumes_member_valueWithin n) (consumes_member_valueWithin m) hx
          fun d hd => member_congr fun e he => hnested e (by omega)
      simp only [valueWithin, harray, hobject]

theorem value_of_none (hc : c.current = none) : value c = .error .endOfFile c :=
  valueWithin_of_none hc _

theorem consumes_value : Consumes value :=
  (reads_value 0).consumes value_of_none

theorem consumes_member_value : Consumes (member value) :=
  (reads_value 0).member.consumes member_of_none

/-- A value in another is read as it is on its own. -/
theorem value_eq (c : Cursor) :
    value c =
      if c.current = some '[' then (array c).collect .array
      else if c.current = some '{' then
        (object c).collect fun ms => .object (Members.ofList ms)
      else scalar c := by
  cases hx : c.current with
  | none => simp [value_of_none hx, scalar, hx]
  | some x =>
    obtain ⟨n, hn⟩ := exists_bound hx (Nat.le_refl _)
    have hnested : ∀ d, d.pending < c.pending → valueWithin n d = value d :=
      fun d hd => valueWithin_congr (by omega) (Nat.le_refl _)
    have harray : bracketed ']' (valueWithin n) c = array c :=
      bracketed_congr (consumes_valueWithin n) consumes_value hx hnested
    have hobject : bracketed '}' (member (valueWithin n)) c = object c :=
      bracketed_congr (consumes_member_valueWithin n) consumes_member_value hx
        fun d hd => member_congr fun e he => hnested e (by omega)
    rw [value, hn]
    simp only [valueWithin, harray, hobject, hx]

-- ---------------------------------------------------------------------------
-- Lists, values and documents
-- ---------------------------------------------------------------------------

section
variable {item : Scan α} {close : Char}

theorem stepwise_items (hi : Stepwise item) (n : Nat) (f : List α → β) :
    Stepwise fun c => (items close item n c).collect f := by
  induction n generalizing f with
  | zero => exact .fail fun _ => .endOfFile
  | succ n ih =>
    refine hi.andThen (fun a => ?_) fun h => by simp [items, h, Trail.collect, Trail.fail]
    have hrest := ih fun as => f (a :: as)
    refine ⟨_, (stepwise_separator close).bind fun more => .ite (p := more) hrest (.done (f [a])),
      fun {c d} h => ?_⟩
    refine .trans ?_ (Scan.bind_apply _ _ d).symm
    simp only [items, h]
    rcases separator close d with ⟨_ | _, g⟩ | _
    · rfl
    · rfl
    · rfl

theorem stepwise_bracketed (hi : Stepwise item) (hc : Consumes item) (f : List α → β) :
    Stepwise fun c => (bracketed close item c).collect f := by
  refine Stepwise.advance.andThen (fun a => ?_) fun h => by simp [bracketed, h]; rfl
  refine ⟨_, stepwise_afterBlanks (.look (m := fun x d =>
    if x = some close then .ok (f []) d.move else (items close item d.pending d).collect f)
    fun x => .ite (.move (.done _)) ?_), fun {c d} h => ?_⟩
  · exact .bounded (fun n => stepwise_items hi n f) fun n d hd => by
      rw [items_congr hc hc (Nat.le_refl _) hd fun _ _ => rfl]
  · simp only [bracketed, h]
    split
    · rfl
    · rfl

end

theorem stepwise_valueWithin (n : Nat) : Stepwise (valueWithin n) := by
  induction n with
  | zero => exact .fail fun _ => .endOfFile
  | succ n ih =>
    refine .look (m := fun x c =>
      if x = some '[' then (bracketed ']' (valueWithin n) c).collect Value.array
      else if x = some '{' then
        (bracketed '}' (member (valueWithin n)) c).collect fun ms => .object (Members.ofList ms)
      else scalar c) fun x => .ite ?_ (.ite ?_ stepwise_scalar)
    · exact stepwise_bracketed ih (consumes_valueWithin n) _
    · exact stepwise_bracketed (stepwise_member ih) (consumes_member_valueWithin n) _

theorem stepwise_value : Stepwise value :=
  .bounded stepwise_valueWithin fun _ _ hc => valueWithin_congr (Nat.le_refl _) hc

theorem ended_andThen_map {t : Trail α} (f : α → Event) (g : List α → Value) :
    ((t.map f).andThen close).ended =
      match t.collect g with
      | .error e d => .error e d
      | .ok _ d => (close d).ended := by
  unfold Trail.andThen Trail.map Trail.collect
  cases t.ended <;> rfl

/-- A document ends as its value does, or as what comes behind the value says. -/
theorem ended_finish (c : Cursor) :
    (finish c).ended =
      match value (skipBlanks c) with
      | .error e d => .error e d
      | .ok _ d => (close d).ended := by
  unfold finish
  generalize skipBlanks c = c
  simp only
  cases hx : c.current with
  | none => rw [value_of_none hx]; rfl
  | some x =>
    simp only
    by_cases ha : x = '['
    · rw [if_pos ha, value_eq, hx, ha, if_pos rfl]
      exact ended_andThen_map _ Value.array
    · rw [if_neg ha]
      by_cases ho : x = '{'
      · rw [if_pos ho, value_eq, hx, ho, if_neg (by decide), if_pos rfl]
        exact ended_andThen_map _ _
      · rw [if_neg ho]
        cases value c <;> rfl

theorem stepwise_ended_close : Stepwise fun c => (close c).ended := by
  refine stepwise_pastBlanks fun x => ?_
  cases x with
  | none => exact ⟨_, .done (), fun h => by simp [close, Trail.report, Cursor.isSeated, h]; rfl⟩
  | some x =>
    exact ⟨_, .fail .unexpectedCharacter, fun h => by
      simp [close, Trail.report, Cursor.isSeated, h]; rfl⟩

theorem stepwise_ended_finish : Stepwise fun c => (finish c).ended := by
  refine (Stepwise.skip isBlank).andThen (fun _ => ?_) fun h => nomatch h
  refine ⟨fun c => match value c with
    | .error e d => .error e d
    | .ok _ d => (close d).ended, ?_, fun {c d} h => ?_⟩
  · exact stepwise_value.andThen
      (fun _ => ⟨_, stepwise_ended_close, fun h => by simp [h]⟩) fun h => by simp [h]
  · obtain ⟨-, rfl⟩ := EStateM.Result.ok.inj h
    exact ended_finish c

end TextStream.Document
