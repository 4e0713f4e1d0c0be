import TextStream.Proofs.Document.Printing
import TextStream.Tagged

/-!
# Reading the tagged form back

Each part of the tagged form is followed through the reader that takes it: on
its own text the reader gives what was written and stops right behind, or it
fails. Readers in sequence take texts in sequence, so the whole form is settled
part by part. Main statement: a value comes back from its tagged form exactly
if its numbers are finite and its brackets nest no deeper than `maxDepth`;
otherwise nothing is read.
-/

namespace TextStream.Tagged

open Text (UnicodeEscape)

variable {α β : Type} {p q : Prop} {a : α} {b : β} {x close : Char} {n : Nat} {u w r : List Char}

-- ---------------------------------------------------------------------------
-- Readers in sequence
-- ---------------------------------------------------------------------------

/-- With `w` ahead and `r` behind it, the reader gives `a` and stops before `r`
if `p` holds, and fails otherwise. -/
def Decides (reader : Reader α) (p : Prop) (a : α) (w r : List Char) : Prop :=
  (p → reader (w ++ r) = some (a, r)) ∧ (¬ p → reader (w ++ r) = none)

theorem Decides.congr {reader : Reader α} (h : Decides reader p a w r) (hpq : p ↔ q) :
    Decides reader q a w r :=
  ⟨fun hq => h.1 (hpq.mpr hq), fun hq => h.2 (mt hpq.mp hq)⟩

theorem Decides.of_eq {reader : Reader α} (h : reader (w ++ r) = some (a, r)) :
    Decides reader True a w r :=
  ⟨fun _ => h, fun hp => absurd trivial hp⟩

theorem Decides.never {reader : Reader α} (h : reader (w ++ r) = none) :
    Decides reader False a w r :=
  ⟨False.elim, fun _ => h⟩

theorem decides_pure (a : α) (r : List Char) : Decides (pure a) True a [] r :=
  .of_eq rfl

theorem bind_apply (m : Reader α) (f : α → Reader β) (cs : List Char) :
    (m >>= f) cs = (m cs).bind fun y => f y.1 y.2 :=
  rfl

theorem get_apply (cs : List Char) : (get : Reader (List Char)) cs = some (cs, cs) :=
  rfl

/-- One reader after the other takes one text after the other. -/
theorem Decides.bind {m : Reader α} {f : α → Reader β} (h : Decides m p a u (w ++ r))
    (h' : Decides (f a) q b w r) : Decides (m >>= f) (p ∧ q) b (u ++ w) r := by
  unfold Decides
  rw [List.append_assoc, bind_apply]
  by_cases hp : p
  · rw [h.1 hp, Option.bind_some]
    exact ⟨fun hq => h'.1 hq.2, fun hq => h'.2 fun hq' => hq ⟨hp, hq'⟩⟩
  · rw [h.2 hp, Option.bind_none]
    exact ⟨fun hq => absurd hq.1 hp, fun _ => rfl⟩

/-- A reader that cannot fail here leaves the decision to the next one. -/
theorem Decides.andThen {m : Reader α} {f : α → Reader β} (h : Decides m True a u (w ++ r))
    (h' : Decides (f a) p b w r) : Decides (m >>= f) p b (u ++ w) r :=
  (h.bind h').congr (iff_of_eq (true_and p))

/-- What follows without reading on does not fail. -/
theorem Decides.result {m : Reader α} {f : α → Reader β} (h : Decides m p a w r)
    (hf : f a = pure b) : Decides (m >>= f) p b w r := by
  have hpure : Decides (f a) True b [] r := hf ▸ decides_pure b r
  have hboth := h.bind (w := []) hpure
  rw [List.append_nil] at hboth
  exact hboth.congr (iff_of_eq (and_true p))

theorem Decides.map {m : Reader α} (f : α → β) (h : Decides m p a w r) :
    Decides (f <$> m) p (f a) w r :=
  h.result (f := fun a => pure (f a)) rfl

-- ---------------------------------------------------------------------------
-- Blanks, marks and words
-- ---------------------------------------------------------------------------

theorem skipBlanks_cons (hx : isBlank x = false) (r : List Char) :
    skipBlanks (x :: r) = some ((), x :: r) := by
  show some ((), (x :: r).dropWhile isBlank) = _
  rw [List.dropWhile_cons_of_neg (by simp [hx])]

theorem peek_cons (hx : isBlank x = false) (r : List Char) :
    peek (x :: r) = some (x, x :: r) := by
  unfold peek
  rw [bind_apply, skipBlanks_cons hx]
  rfl

theorem peek_append (hw : w.all isBlank = true) (r : List Char) : peek (w ++ r) = peek r := by
  have hskip : skipBlanks (w ++ r) = skipBlanks r := by
    show some ((), (w ++ r).dropWhile isBlank) = _
    rw [List.dropWhile_append_of_pos (List.all_eq_true.mp hw)]
    rfl
  unfold peek
  rw [bind_apply, hskip]
  rfl

theorem decides_peek {f : Char → Reader α} (hx : isBlank x = false)
    (h : Decides (f x) p a (x :: w) r) : Decides (peek >>= f) p a (x :: w) r := by
  unfold Decides
  rw [bind_apply, List.cons_append, peek_cons hx]
  exact h

theorem decides_get {f : List Char → Reader α} (h : Decides (f (w ++ r)) p a w r) :
    Decides (get >>= f) p a w r :=
  h

theorem decides_mark (hx : isBlank x = false) (r : List Char) :
    Decides (mark x) True () [x] r := by
  refine .of_eq ?_
  unfold mark
  rw [bind_apply, List.singleton_append, peek_cons hx, Option.bind_some, if_pos rfl]
  rfl

theorem decides_word {v : String} (hv : v.toList = x :: w) (hx : isBlank x = false)
    (r : List Char) : Decides (word v) True () (x :: w) r := by
  have hpre : v.toList.isPrefixOf (x :: w ++ r) = true := by
    rw [hv]
    exact List.isPrefixOf_iff_prefix.mpr (List.prefix_append _ r)
  have hdrop : (x :: w ++ r).drop v.length = r := by
    rw [← String.length_toList, hv, List.drop_left]
  refine .of_eq ?_
  unfold word
  rw [bind_apply, List.cons_append, skipBlanks_cons hx, Option.bind_some]
  show (if v.toList.isPrefixOf (x :: w ++ r) then set ((x :: w ++ r).drop v.length)
    else failure : Reader Unit) _ = _
  rw [if_pos hpre, hdrop]
  rfl

-- ---------------------------------------------------------------------------
-- Strings
-- ---------------------------------------------------------------------------

/-- The digits that are missing from a unit outside the surrogates complete it. -/
theorem stringFrom_digits {e : UnicodeEscape} {ds : List Char} (hhigh : e.high = none)
    (hdigits : e.digits < 4) (hlen : e.digits + ds.length = 4)
    (hu : e.unit.toNat < 16 ^ e.digits)
    (hds : Document.hexFrom? e.unit.toNat ds = some x.toNat) (hx : x.toNat < 0x10000)
    (read : String) :
    stringFrom (.digits e) read (ds ++ r) = stringFrom .plain (read.push x) r := by
  have hu' := UnicodeEscape.unit_lt hu hdigits
  -- over the digits to come: the decoder has fewer than four and keeps no surrogate
  induction ds generalizing e with
  | nil => simp at hlen; omega
  | cons y ds ih =>
    rw [Document.hexFrom?_cons] at hds
    obtain ⟨a, ha, hds⟩ := Option.bind_eq_some_iff.mp hds
    have hlt := Text.hexDigit?_lt ha
    rw [List.length_cons] at hlen
    rw [List.cons_append, stringFrom]
    rcases Nat.lt_or_ge (e.digits + 1) 4 with hmore | hlast
    · have hshift := UnicodeEscape.toNat_shift hu' hlt
      have hu'' := UnicodeEscape.shift_lt hu hdigits hlt
      have hmid : UnicodeEscape.isAwaitingLow { e with
          unit := (e.unit <<< 4) ||| a.toUInt16, digits := e.digits + 1 } = false := by
        simp [UnicodeEscape.isAwaitingLow, hhigh]
      simp only [UnicodeEscape.feed_of_more ha hmore, hmid, Bool.false_eq_true, ↓reduceIte]
      have hlen' : e.digits + 1 + ds.length = 4 := by omega
      exact ih hhigh hmore hlen' hu'' (hshift ▸ hds) (UnicodeEscape.unit_lt hu'' hmore)
    · obtain rfl : ds = [] := List.length_eq_zero_iff.mp (by omega)
      have hm : 16 * e.unit.toNat + a = x.toNat := Option.some.inj hds
      have hcomp : UnicodeEscape.complete e.high x.toNat.toUInt16 = .ok (some x) := by
        rw [hhigh, UnicodeEscape.complete_none_eq_some_iff]
        exact (Nat.mod_eq_of_lt hx).symm
      have hfeed := (UnicodeEscape.feed_last_iff (r := some x) ha (by omega) hu').mpr
        ⟨hm ▸ hcomp, rfl⟩
      simp only [hfeed, List.nil_append]

theorem stringFrom_escapedChar (x : Char) (read : String) (r : List Char) :
    stringFrom .plain read (Value.escapedChar x ++ r) = stringFrom .plain (read.push x) r := by
  have hletter (y : Char) (hy : y ≠ 'u') (hx : Document.letterEscape? y = some x) :
      stringFrom .plain read (['\\', y] ++ r) = stringFrom .plain (read.push x) r := by
    simp [stringFrom, hy, hx]
  unfold Value.escapedChar
  simp only [beq_iff_eq]
  split
  · next h => exact hletter '"' (by decide) (by simp [h, Document.letterEscape?])
  split
  · next h => exact hletter '\\' (by decide) (by simp [h, Document.letterEscape?])
  split
  · next h => exact hletter 'n' (by decide) (by simp [h, Document.letterEscape?])
  split
  · next h => exact hletter 'r' (by decide) (by simp [h, Document.letterEscape?])
  split
  · next h => exact hletter 't' (by decide) (by simp [h, Document.letterEscape?])
  split
  · next hcontrol =>
    simp only [Value.isControl, Bool.or_eq_true, Bool.and_eq_true, decide_eq_true_eq] at hcontrol
    have hx : x.toNat < 0x10000 := by omega
    obtain ⟨hlen, hunit⟩ := Document.hexUnit_iff.mp (Document.hexUnit_hexUpper hx)
    have hdigits := stringFrom_digits (r := r) (e := {}) rfl (by decide) (by simpa using hlen)
      (by decide) hunit hx read
    simpa [stringFrom] using hdigits
  · next hquote hback _ _ _ hcontrol =>
    have hx : ¬ x.toNat < 0x20 := by
      intro h
      simp [Value.isControl, h] at hcontrol
    simp [stringFrom, hquote, hback, hx]

theorem stringFrom_flatMap (xs : List Char) (read : String) (r : List Char) :
    stringFrom .plain read (xs.flatMap Value.escapedChar ++ '"' :: r) =
      some (read ++ String.ofList xs, r) := by
  induction xs generalizing read with
  | nil => simp [stringFrom]
  | cons x xs ih =>
    rw [List.flatMap_cons, List.append_assoc, stringFrom_escapedChar, ih]
    have hread : read.push x ++ String.ofList xs = read ++ String.ofList (x :: xs) := by
      simp [← String.toList_inj]
    rw [hread]

theorem decides_string (s : String) (r : List Char) :
    Decides string True s (Value.quotedChars s) r := by
  have hrest : Decides (fun cs => stringFrom .plain "" cs) True s
      (s.toList.flatMap Value.escapedChar ++ ['"']) r := by
    refine .of_eq ?_
    rw [List.append_assoc, List.singleton_append, stringFrom_flatMap]
    simp
  exact (Decides.bind (decides_mark (by decide) _) hrest).congr (by simp)

-- ---------------------------------------------------------------------------
-- Numbers
-- ---------------------------------------------------------------------------

/-- A numeral has no zero in front that it could do without. -/
theorem hasSpareZero_numeral {n : Decimal.Numeral} (h : Document.Numeral n w)
    (hr : r.head?.any Document.extendsNumber = false) : hasSpareZero (w ++ r) = false := by
  cases h with
  | @parts negative exponent s w ds f p hs hw hf hp =>
    have hrest := hf.head_append (hp.head_append hr)
    obtain ⟨y, w', rfl⟩ := List.exists_cons_of_ne_nil hw.digits.1
    simp only [List.append_assoc, hasSpareZero, hs.read hw.digits]
    split
    · next x t heq =>
      obtain ⟨rfl, htail⟩ := List.cons.inj heq
      rcases hw with hzero | ⟨-, hne⟩
      · obtain rfl : w' = [] := (List.cons.inj hzero).2
        have htail' : f ++ (p ++ r) = x :: t := htail
        simpa [htail'] using hrest
      · exact absurd rfl hne
    · rfl

theorem number_numeral {n : Decimal.Numeral} (h : Document.Numeral n w)
    (hr : r.head?.any Document.extendsNumber = false) (hinf : n.toFloat.isInf = false) :
    number (w ++ r) = some (n.toFloat, r) := by
  have hskip : skipBlanks (w ++ r) = some ((), w ++ r) := by
    obtain ⟨x, w', rfl, hx⟩ := h.opens
    refine skipBlanks_cons ?_ _
    have hmem := Document.not_mem_of_numeral_start hx
      (l := [' ', '\t', '\n', '\r']) (by decide)
    simpa [isBlank, and_assoc] using hmem
  unfold number
  simp only [bind_apply, get_apply, hskip, Option.bind_some, hasSpareZero_numeral h hr,
    Bool.false_eq_true, ↓reduceIte, h.read hr, hinf]
  rfl

/-- Before a closing bracket, numbers of which `good` holds are read back from what
`write` makes of them, and no others. -/
def Rereads (write : Float → List Char) (good : Float → Prop) : Prop :=
  ∀ x r, Decides number (good x) x (write x) ('}' :: r)

theorem rereads_floatText : Rereads Decimal.floatText (fun x => x.isFinite = true) := by
  refine fun x r => ⟨fun hx => ?_, fun hx => ?_⟩
  · obtain ⟨n, hn, rfl⟩ := Decimal.numeral_floatText hx
    exact number_numeral hn rfl (Decimal.isInf_of_isFinite hx)
  · rw [Bool.not_eq_true] at hx
    have hword := Decimal.floatText_of_not_finite hx
    simp only [List.mem_cons, List.not_mem_nil, or_false] at hword
    rcases hword with hword | hword | hword <;> rw [hword] <;> rfl

theorem rereads_bitsChars : Rereads bitsChars (fun _ => False) :=
  fun _ _ => .never rfl

-- ---------------------------------------------------------------------------
-- Lists
-- ---------------------------------------------------------------------------

theorem decides_items {item : Reader α} {good : α → Prop} {text : α → List Char} {as : List α}
    (hblank : isBlank close = false) (hcomma : close ≠ ',')
    (hitem : ∀ a ∈ as, ∀ r, Decides item (good a) a (text a) r) (hne : as ≠ [])
    (hn : as.length ≤ n) (r : List Char) :
    Decides (itemsWithin close item n) (∀ a ∈ as, good a) as (Value.joined text as ++ [close])
      r := by
  fun_induction Value.joined text as generalizing n with
  | case1 => exact absurd rfl hne
  | case2 a =>
    obtain ⟨n, rfl⟩ : ∃ m, n = m + 1 := ⟨n - 1, by simp at hn; omega⟩
    rw [itemsWithin]
    refine Decides.congr (p := good a ∧ True) ?_ (by simp)
    refine (hitem a (by simp) _).bind (decides_peek hblank ?_)
    rw [if_neg hcomma]
    exact (decides_mark hblank r).result rfl
  | case3 a rest hrest ih =>
    obtain ⟨n, rfl⟩ : ∃ m, n = m + 1 := ⟨n - 1, by simp at hn; omega⟩
    have hlater := ih (n := n) (fun b hb => hitem b (by simp [hb])) hrest (by simpa using hn)
    rw [List.append_assoc, List.cons_append, itemsWithin]
    refine Decides.congr (p := good a ∧ ∀ b ∈ rest, good b) ?_ (by simp)
    refine (hitem a (by simp) _).bind (decides_peek (by decide) ?_)
    rw [if_pos rfl]
    exact (decides_mark (by decide) _).andThen (hlater.result rfl)

/-- A list in brackets, where no item can be taken for the closing bracket. -/
theorem decides_bracketed {item : Reader α} {good : α → Prop} {text : α → List Char}
    {as : List α} {opening : Char} (hopening : isBlank opening = false)
    (hblank : isBlank close = false) (hcomma : close ≠ ',')
    (hitem : ∀ a ∈ as, ∀ r, Decides item (good a) a (text a) r)
    (hhead : ∀ a ∈ as, ∃ x w, text a = x :: w ∧ isBlank x = false ∧ x ≠ close) (r : List Char) :
    Decides (bracketed opening close item) (∀ a ∈ as, good a) as
      (opening :: (Value.joined text as ++ [close])) r := by
  unfold bracketed
  show Decides _ _ _ ([opening] ++ (Value.joined text as ++ [close])) r
  refine (decides_mark hopening _).andThen ?_
  by_cases hne : as = []
  · subst hne
    refine Decides.congr (p := True) (decides_peek hblank ?_) (by simp)
    rw [if_pos rfl]
    exact (decides_mark hblank r).result rfl
  · obtain ⟨a, ha, v, hjoined⟩ : ∃ a ∈ as, ∃ v, Value.joined text as = text a ++ v :=
      Value.exists_joined_eq hne
    obtain ⟨x, w, htext, hx, hxclose⟩ := hhead a ha
    have hlen : as.length ≤ (Value.joined text as ++ [close] ++ r).length := by
      have hjoin : as.length ≤ (Value.joined text as).length := by
        refine Value.length_le_length_joined fun b hb => ?_
        obtain ⟨y, w, hy, -⟩ := hhead b hb
        simp [hy]
      simp only [List.length_append]
      omega
    have hitems := decides_items hblank hcomma hitem hne hlen r
    rw [hjoined, htext, List.cons_append, List.cons_append] at hitems ⊢
    refine decides_peek hx ?_
    rw [if_neg hxclose]
    exact decides_get hitems

-- ---------------------------------------------------------------------------
-- Open brackets
-- ---------------------------------------------------------------------------

mutual
/-- How many brackets the tagged form has open at once. -/
def depth : Value → Nat
  | .null => 0
  | .boolean _ => 1
  | .number _ => 1
  | .string _ => 1
  | .array items => itemsDepth items + 2
  | .object members => membersDepth members + 2

def itemsDepth : List Value → Nat
  | [] => 0
  | v :: rest => max (depth v) (itemsDepth rest)

def membersDepth : List (String × Value) → Nat
  | [] => 0
  | (_, v) :: rest => max (depth v) (membersDepth rest)
end

theorem depth_array_le_iff {items : List Value} :
    depth (.array items) ≤ n + 2 ↔ ∀ v ∈ items, depth v ≤ n := by
  rw [depth, Nat.add_le_add_iff_right]
  induction items with
  | nil => simp [itemsDepth]
  | cons v rest ih => rw [itemsDepth, Nat.max_le, List.forall_mem_cons, ih]

theorem depth_object_le_iff {members : List (String × Value)} :
    depth (.object members) ≤ n + 2 ↔ ∀ e ∈ members, depth e.2 ≤ n := by
  rw [depth, Nat.add_le_add_iff_right]
  induction members with
  | nil => simp [membersDepth]
  | cons e rest ih => rw [membersDepth, Nat.max_le, List.forall_mem_cons, ih]

variable {write : Float → List Char} {good : Float → Prop} {v : Value}
  {nested : Option (Reader Value)} {kind : String}

theorem depth_eq_zero_iff : depth v = 0 ↔ v = .null := by
  cases v <;> simp [depth]

/-- The value is read back where brackets suffice and all its numbers are good. -/
def Readable (good : Float → Prop) (n : Nat) (v : Value) : Prop :=
  depth v ≤ n ∧ ∀ x ∈ v.numbers, good x

theorem readable_array_iff {items : List Value} :
    Readable good (n + 2) (.array items) ↔ ∀ v ∈ items, Readable good n v := by
  unfold Readable
  rw [depth_array_le_iff, Value.numbers_array, List.forall_mem_flatMap, ← forall₂_and]

theorem readable_object_iff {members : List (String × Value)} :
    Readable good (n + 2) (.object members) ↔ ∀ e ∈ members, Readable good n e.2 := by
  unfold Readable
  rw [depth_object_le_iff, Value.numbers_object, List.forall_mem_flatMap, ← forall₂_and]

/-- What reads the values inside a bracket where `n` more may be opened in it. -/
def inside : Nat → Option (Reader Value)
  | 0 => none
  | n + 1 => some (valueWithin n)

theorem valueWithin_succ (n : Nat) : valueWithin (n + 1) = labelled (inside n) := by
  cases n <;> rfl

-- ---------------------------------------------------------------------------
-- Kinds
-- ---------------------------------------------------------------------------

/-- The text of a kind and the content behind it, in brackets. -/
def labelledChars (kind : String) (w : List Char) : List Char :=
  '{' :: (Value.quotedChars kind ++ ':' :: (w ++ ['}']))

def entryChars (write : Float → List Char) (e : String × Value) : List Char :=
  Value.quotedChars e.1 ++ ':' :: chars write e.2

theorem chars_boolean (b : Bool) :
    chars write (.boolean b) =
      labelledChars "Boolean" (if b then "true".toList else "false".toList) := by
  cases b <;> rfl

theorem chars_number (x : Float) :
    chars write (.number x) = labelledChars "Number" (write x) :=
  rfl

theorem chars_string (s : String) :
    chars write (.string s) = labelledChars "String" (Value.quotedChars s) :=
  rfl

theorem chars_array (items : List Value) :
    chars write (.array items) =
      labelledChars "Array" ('[' :: (Value.joined (chars write) items ++ [']'])) := by
  have hitems : itemChars write items = Value.joined (chars write) items :=
    Value.eq_joined rfl (fun _ => rfl) (fun _ _ _ => rfl) items
  rw [← hitems, labelledChars, List.cons_append, List.append_assoc]
  rfl

theorem chars_object (members : List (String × Value)) :
    chars write (.object members) =
      labelledChars "Object" ('{' :: (Value.joined (entryChars write) members ++ ['}'])) := by
  have hmore (e e' : String × Value) (rest : List (String × Value)) :
      memberChars write (e :: e' :: rest) =
        entryChars write e ++ ',' :: memberChars write (e' :: rest) := by
    simp [memberChars, entryChars]
  have hmembers : memberChars write members = Value.joined (entryChars write) members :=
    Value.eq_joined rfl (fun _ => rfl) hmore members
  rw [← hmembers, labelledChars, List.cons_append, List.append_assoc]
  rfl

theorem decides_bareNull (r : List Char) :
    Decides bareNull True .null (Value.quotedChars "Null") r :=
  (decides_string "Null" r).result rfl

theorem decides_labelled_null (r : List Char) :
    Decides (labelled nested) True .null (Value.quotedChars "Null") r := by
  unfold labelled
  refine decides_peek (by decide) ?_
  rw [if_pos rfl]
  exact decides_bareNull r

/-- A labelled text is read as its content is. -/
theorem decides_labelled (h : Decides (content nested kind) p v w ('}' :: r)) :
    Decides (labelled nested) p v (labelledChars kind w) r := by
  unfold labelled
  refine decides_peek (by decide) ?_
  rw [if_neg (by decide)]
  show Decides _ _ _ (['{'] ++ (Value.quotedChars kind ++ ([':'] ++ (w ++ ['}'])))) r
  refine (decides_mark (by decide) _).andThen ?_
  refine (decides_string kind _).andThen ?_
  refine (decides_mark (by decide) _).andThen ?_
  have hend : Decides (do mark '}'; return v) True v ['}'] r :=
    (decides_mark (by decide) r).result rfl
  refine Decides.congr (p := p ∧ True) ?_ (iff_of_eq (and_true p))
  exact Decides.bind (w := ['}']) h hend

theorem decides_boolean (b : Bool) (r : List Char) :
    Decides (content nested "Boolean") True (.boolean b)
      (if b then "true".toList else "false".toList) r := by
  have hcontent : content nested "Boolean" = (do
      if (← peek) = 't' then do word "true"; return .boolean true
      else do word "false"; return .boolean false) := rfl
  rw [hcontent]
  cases b with
  | true =>
    show Decides _ _ _ ('t' :: ['r', 'u', 'e']) r
    refine decides_peek (by decide) ?_
    rw [if_pos rfl]
    exact (decides_word (v := "true") rfl (by decide) r).result rfl
  | false =>
    show Decides _ _ _ ('f' :: ['a', 'l', 's', 'e']) r
    refine decides_peek (by decide) ?_
    rw [if_neg (by decide)]
    exact (decides_word (v := "false") rfl (by decide) r).result rfl

theorem decides_member {value : Reader Value} {e : String × Value}
    (h : Decides value p e.2 (chars write e.2) r) :
    Decides (member value) p e (entryChars write e) r := by
  unfold member entryChars
  show Decides _ _ _ (Value.quotedChars e.1 ++ ([':'] ++ chars write e.2)) r
  refine (decides_string e.1 _).andThen ?_
  refine (decides_mark (by decide) _).andThen ?_
  exact h.result rfl

theorem chars_head (v : Value) :
    ∃ x w, chars write v = x :: w ∧ isBlank x = false ∧ x ≠ ']' := by
  cases v with
  | null => exact ⟨'"', _, rfl, by decide, by decide⟩
  | boolean b => exact ⟨'{', _, chars_boolean b, by decide, by decide⟩
  | number x => exact ⟨'{', _, chars_number x, by decide, by decide⟩
  | string s => exact ⟨'{', _, chars_string s, by decide, by decide⟩
  | array items => exact ⟨'{', _, chars_array items, by decide, by decide⟩
  | object members => exact ⟨'{', _, chars_object members, by decide, by decide⟩

theorem decides_array {value : Reader Value} {items : List Value} {good : Value → Prop}
    (h : ∀ v ∈ items, ∀ r, Decides value (good v) v (chars write v) r) (r : List Char) :
    Decides (content (some value) "Array") (∀ v ∈ items, good v) (.array items)
      ('[' :: (Value.joined (chars write) items ++ [']'])) r := by
  have hcontent : content (some value) "Array" = (do
      return .array (← bracketed '[' ']' value)) := rfl
  rw [hcontent]
  exact (decides_bracketed (by decide) (by decide) (by decide) h (fun v _ => chars_head v)
    r).result rfl

/-- The members come in order and so are kept as they are. -/
theorem decides_object {value : Reader Value} {members : List (String × Value)}
    {good : String × Value → Prop} (hsorted : Members.Sorted members)
    (h : ∀ e ∈ members, ∀ r, Decides value (good e) e.2 (chars write e.2) r) (r : List Char) :
    Decides (content (some value) "Object") (∀ e ∈ members, good e) (.object members)
      ('{' :: (Value.joined (entryChars write) members ++ ['}'])) r := by
  have hcontent : content (some value) "Object" = (do
      return .object (Members.ofList (← bracketed '{' '}' (member value)))) := rfl
  have hkept : Members.ofList members = members :=
    (Members.collects_iff.mp hsorted.collects).symm
  have hentries : Decides (bracketed '{' '}' (member value)) (∀ e ∈ members, good e) members
      ('{' :: (Value.joined (entryChars write) members ++ ['}'])) r :=
    decides_bracketed (by decide) (by decide) (by decide)
      (fun e he r => decides_member (h e he r))
      (fun e _ => ⟨'"', _, rfl, by decide, by decide⟩) r
  rw [hcontent]
  exact hentries.result (by rw [hkept])

-- ---------------------------------------------------------------------------
-- Values
-- ---------------------------------------------------------------------------

/-- The label takes a bracket, and the content decides about the rest. -/
theorem decides_of_content (hv : v ≠ .null) (htext : chars write v = labelledChars kind w)
    (h : ∀ n, Decides (content (inside n) kind) (Readable good (n + 1) v) v w ('}' :: r)) :
    Decides (valueWithin n) (Readable good n v) v (chars write v) r := by
  rw [htext]
  cases n with
  | zero =>
    refine (Decides.never rfl).congr (iff_of_false id ?_)
    rintro ⟨hdepth, -⟩
    exact hv (depth_eq_zero_iff.mp (Nat.le_zero.mp hdepth))
  | succ n =>
    rw [valueWithin_succ]
    exact decides_labelled (h n)

/-- The text of each value is read on its own, whatever stands behind it. -/
theorem decides_valueWithin (hwrite : Rereads write good) (hv : v.Ordered) (n : Nat)
    (r : List Char) : Decides (valueWithin n) (Readable good n v) v (chars write v) r := by
  -- the values inside are read with fewer brackets left and other text behind them
  induction v using Value.nested generalizing n r with
  | null =>
    have hreadable : Readable good n .null := by simp [Readable, depth, Value.numbers]
    cases n with
    | zero => exact (decides_bareNull r).congr (iff_of_true trivial hreadable)
    | succ n =>
      rw [valueWithin_succ]
      exact (decides_labelled_null r).congr (iff_of_true trivial hreadable)
  | boolean b =>
    refine decides_of_content (by simp) (chars_boolean b) fun n => ?_
    exact (decides_boolean b _).congr (by simp [Readable, depth, Value.numbers])
  | number x =>
    refine decides_of_content (by simp) (chars_number x) fun n => ?_
    exact ((hwrite x r).map Value.number).congr (by simp [Readable, depth, Value.numbers])
  | string s =>
    refine decides_of_content (by simp) (chars_string s) fun n => ?_
    exact ((decides_string s _).map Value.string).congr (by simp [Readable, depth, Value.numbers])
  | array items ih =>
    rw [Value.ordered_array_iff] at hv
    refine decides_of_content (by simp) (chars_array items) fun n => ?_
    cases n with
    | zero => exact (Decides.never rfl).congr (iff_of_false id (by simp [Readable, depth]))
    | succ n =>
      exact (decides_array (fun u hu => ih u hu (hv u hu) n) _).congr readable_array_iff.symm
  | object members ih =>
    rw [Value.ordered_object_iff] at hv
    refine decides_of_content (by simp) (chars_object members) fun n => ?_
    cases n with
    | zero => exact (Decides.never rfl).congr (iff_of_false id (by simp [Readable, depth]))
    | succ n =>
      refine (decides_object hv.1 (fun e he => ?_) _).congr readable_object_iff.symm
      exact ih e he (hv.2 e he) n

theorem valueWithin_append (hw : w.all isBlank = true) (n : Nat) (r : List Char) :
    valueWithin n (w ++ r) = valueWithin n r := by
  cases n with
  | zero =>
    unfold valueWithin bareNull string mark
    simp only [bind_apply, peek_append hw]
  | succ n =>
    rw [valueWithin_succ, labelled]
    simp only [bind_apply, peek_append hw]

/-- Blanks around the text make no difference. -/
theorem ofList?_of_rereads [DecidablePred good] (hwrite : Rereads write good) (hv : v.Ordered)
    (hu : u.all isBlank = true) (hw : w.all isBlank = true) :
    ofList? (u ++ (chars write v ++ w)) =
      if depth v ≤ maxDepth ∧ ∀ x ∈ v.numbers, good x then some v else none := by
  obtain ⟨hread, hfail⟩ := decides_valueWithin hwrite hv maxDepth w
  unfold ofList?
  rw [valueWithin_append hu]
  split
  · next h =>
    rw [hread h]
    exact if_pos hw
  · next h =>
    rw [hfail h]
    rfl

/-- A value whose objects are in order comes back from its tagged form, with any
blanks around it, exactly if its numbers are finite and it opens at most
`maxDepth` brackets at once. Otherwise nothing is read. -/
theorem ofList?_chars (v : Value) (hv : v.Ordered) (hu : u.all isBlank = true)
    (hw : w.all isBlank = true) :
    ofList? (u ++ (chars Decimal.floatText v ++ w)) =
      if depth v ≤ maxDepth ∧ ∀ x ∈ v.numbers, x.isFinite = true then some v else none :=
  ofList?_of_rereads rereads_floatText hv hu hw

/-- Bits are no number, so `text` is read back only where there are no numbers. -/
theorem ofList?_text (v : Value) (hv : v.Ordered) :
    ofList? (text v).toList = if depth v ≤ maxDepth ∧ v.numbers = [] then some v else none := by
  have hread := ofList?_of_rereads (u := []) (w := []) rereads_bitsChars hv rfl rfl
  rw [List.nil_append, List.append_nil] at hread
  rw [text, String.toList_ofList, hread]
  simp only [imp_false, List.eq_nil_iff_forall_not_mem]

end TextStream.Tagged
