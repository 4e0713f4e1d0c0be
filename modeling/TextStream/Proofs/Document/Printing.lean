import TextStream.Proofs.Decimal.ReadBack
import TextStream.Proofs.Document.Value
import TextStream.Proofs.Value.Contents

/-!
# The text of a value is a way to write it

Strings are written with escapes that mean what was escaped, lists with commas
and no blanks, numbers with digits that name them again. So a value is written
by its own text, provided that its objects are in order and its numbers finite.
-/

namespace TextStream

-- ---------------------------------------------------------------------------
-- Strings
-- ---------------------------------------------------------------------------

namespace Document

theorem hexFrom?_append (n : Nat) (ds es : List Char) :
    hexFrom? n (ds ++ es) = (hexFrom? n ds).bind fun m => hexFrom? m es := by
  unfold hexFrom?
  rw [List.foldlM_append]
  rfl

theorem hexDigit?_upper : ∀ a < 16, Text.hexDigit? (Nat.digitChar a).toUpper = some a := by
  decide

theorem hexFrom?_toDigits (n : Nat) :
    hexFrom? 0 ((Nat.toDigits 16 n).map Char.toUpper) = some n := by
  induction n using Nat.strongRecOn with
  | ind n ih =>
    rw [Nat.toDigits_eq_if (by decide)]
    split
    · next hlt =>
      simp only [List.map_cons, List.map_nil, hexFrom?_cons, hexDigit?_upper n hlt,
        Option.bind_some]
      simp [hexFrom?]
    · next hge =>
      have hdigit := hexDigit?_upper (n % 16) (Nat.mod_lt _ (by decide))
      rw [List.map_append, hexFrom?_append, ih (n / 16) (by omega)]
      simp only [List.map_cons, List.map_nil, hexFrom?_cons, hdigit, Option.bind_some]
      simp only [hexFrom?, List.foldlM_nil]
      exact congrArg some (Nat.div_add_mod n 16)

theorem hexFrom?_zeros (k : Nat) (ds : List Char) :
    hexFrom? 0 (List.replicate k '0' ++ ds) = hexFrom? 0 ds := by
  induction k with
  | zero => rfl
  | succ k ih =>
    rw [List.replicate_succ, List.cons_append, hexFrom?_cons]
    exact ih

/-- Four upper-case digits name the unit they are written for. -/
theorem hexUnit_hexUpper {n : Nat} (hn : n < 16 ^ 4) : HexUnit (Text.hexUpper 4 n).toList n := by
  have hlen : (Nat.toDigits 16 n).length ≤ 4 :=
    (Nat.length_toDigits_le_iff (by decide) (by decide)).mpr hn
  rw [hexUnit_iff, Text.hexUpper, String.toList_ofList, Text.hexDigits, List.map_append,
    List.map_replicate]
  refine ⟨?_, ?_⟩
  · simp
    omega
  · exact (hexFrom?_zeros _ _).trans (hexFrom?_toDigits n)

theorem spelling_escapedChar (x : Char) : Spelling x (Value.escapedChar x) := by
  by_cases hquote : x = '"'
  · subst hquote
    exact .letter (by decide)
  by_cases hback : x = '\\'
  · subst hback
    exact .letter (by decide)
  by_cases hn : x = '\n'
  · subst hn
    exact .letter (by decide)
  by_cases hr : x = '\r'
  · subst hr
    exact .letter (by decide)
  by_cases ht : x = '\t'
  · subst ht
    exact .letter (by decide)
  simp only [Value.escapedChar, beq_iff_eq, hquote, hback, hn, hr, ht, ↓reduceIte]
  split
  · next hcontrol =>
    simp only [Value.isControl, Bool.or_eq_true, Bool.and_eq_true, decide_eq_true_eq] at hcontrol
    exact .unit (hexUnit_hexUpper (by omega))
  · exact .raw hquote hback

theorem spelled_flatMap (xs : List Char) : Spelled xs (xs.flatMap Value.escapedChar) := by
  induction xs with
  | nil => exact .nil
  | cons x xs ih =>
    rw [List.flatMap_cons]
    exact .cons (spelling_escapedChar x) ih

theorem quoted_quotedChars (s : String) : Quoted s (Value.quotedChars s) :=
  .quotes (spelled_flatMap s.toList)

-- ---------------------------------------------------------------------------
-- Lists without blanks
-- ---------------------------------------------------------------------------

section
variable {α : Type} {Item : α → List Char → Prop} {text : α → List Char} {as : List α}

theorem listed_joined (hne : as ≠ []) (h : ∀ a ∈ as, Item a (text a)) :
    Listed Item as (Value.joined text as) := by
  fun_induction Value.joined text as with
  | case1 => exact absurd rfl hne
  | case2 a => simpa using Listed.one (h a (by simp)) blanks_nil
  | case3 a rest hrest ih =>
    have hlist := ih hrest fun b hb => h b (by simp [hb])
    simpa using Listed.more (h a (by simp)) blanks_nil blanks_nil hlist

theorem bracketed_joined (left right : Char) (h : ∀ a ∈ as, Item a (text a)) :
    Bracketed left right Item as (left :: (Value.joined text as ++ [right])) := by
  by_cases hne : as = []
  · subst hne
    exact .empty blanks_nil
  · simpa using Bracketed.items blanks_nil (listed_joined hne h)

theorem entry_entryChars {Item : Value → List Char → Prop} {e : String × Value}
    (h : Item e.2 e.2.chars) : Entry Item e (Value.entryChars e) := by
  simpa [Value.entryChars] using Entry.colon (quoted_quotedChars e.1) blanks_nil blanks_nil h

end

-- ---------------------------------------------------------------------------
-- Values
-- ---------------------------------------------------------------------------

/-- All numbers of the value are finite. -/
def Finite (v : Value) : Prop :=
  ∀ x ∈ v.numbers, x.isFinite = true

theorem finite_number_iff {x : Float} : Finite (.number x) ↔ x.isFinite = true := by
  simp [Finite, Value.numbers]

theorem finite_array_iff {items : List Value} :
    Finite (.array items) ↔ ∀ v ∈ items, Finite v := by
  simp only [Finite, Value.numbers_array, List.mem_flatMap]
  exact ⟨fun h v hv x hx => h x ⟨v, hv, hx⟩, fun h x ⟨v, hv, hx⟩ => h v hv x hx⟩

theorem finite_object_iff {members : List (String × Value)} :
    Finite (.object members) ↔ ∀ e ∈ members, Finite e.2 := by
  simp only [Finite, Value.numbers_object, List.mem_flatMap]
  exact ⟨fun h e he x hx => h x ⟨e, he, hx⟩, fun h x ⟨e, he, hx⟩ => h e he x hx⟩

theorem written_floatText {x : Float} (h : x.isFinite = true) :
    Written (.number x) (Decimal.floatText x) := by
  obtain ⟨n, hn, hx⟩ := Decimal.numeral_floatText h
  have hw := Written.number hn
  rwa [hx] at hw

/-- A value is written by its own text. -/
theorem written_chars {v : Value} (hv : v.Ordered) (hfinite : Finite v) : Written v v.chars := by
  induction v using Value.nested with
  | null => exact .nullWord
  | boolean b =>
    cases b with
    | true => exact .trueWord
    | false => exact .falseWord
  | number x => exact written_floatText (finite_number_iff.mp hfinite)
  | string s => exact .string (quoted_quotedChars s)
  | array items ih =>
    rw [Value.ordered_array_iff] at hv
    rw [finite_array_iff] at hfinite
    rw [Value.chars_array]
    exact .array (bracketed_joined '[' ']' fun u hu => ih u hu (hv u hu) (hfinite u hu))
  | object members ih =>
    rw [Value.ordered_object_iff] at hv
    rw [finite_object_iff] at hfinite
    rw [Value.chars_object]
    refine .object (bracketed_joined '{' '}' fun e he => entry_entryChars ?_) hv.1.collects
    exact ih e he (hv.2 e he) (hfinite e he)

/-- Whatever its numbers are, the text of a value begins like a value. -/
theorem opens_chars (v : Value) : Opens v.chars := by
  cases v with
  | null => exact Written.nullWord.opens
  | boolean b =>
    cases b with
    | false => exact Written.falseWord.opens
    | true => exact Written.trueWord.opens
  | number x =>
    cases hx : x.isFinite with
    | true => exact (written_floatText hx).opens
    | false =>
      show Opens (Decimal.floatText x)
      have hword := Decimal.floatText_of_not_finite hx
      simp only [List.mem_cons, List.not_mem_nil, or_false] at hword
      rcases hword with hword | hword | hword <;> rw [hword]
      · exact ⟨'i', _, rfl, by decide, by decide⟩
      · exact ⟨'-', _, rfl, by decide, by decide⟩
      · exact ⟨'N', _, rfl, by decide, by decide⟩
  | string s => exact (Written.string (quoted_quotedChars s)).opens
  | array items => exact ⟨'[', _, rfl, by decide, by decide⟩
  | object members => exact ⟨'{', _, rfl, by decide, by decide⟩

end Document

end TextStream
