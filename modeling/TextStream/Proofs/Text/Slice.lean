import Mathlib
import TextStream.Text.Chunk

/-!
# Chunks as slices of UTF-8

Cut at byte offsets, a string gives the chunks that its text has as a list of code
points. Every offset falls between two code points, so that no cut is refused.
-/

namespace TextStream.Text

variable {text : List Char} {offset : Nat}

/-- The bytes of a text. -/
def byteSize (text : List Char) : Nat :=
  (String.ofList text).utf8ByteSize

theorem byteSize_append (v w : List Char) : byteSize (v ++ w) = byteSize v + byteSize w := by
  simp [byteSize]

/-- The offset falls between two code points of the text, or at one of its ends. -/
def IsBoundary (text : List Char) (offset : Nat) : Prop :=
  ∃ i, offset = byteSize (text.take i)

theorem isBoundary_iff :
    IsBoundary text offset ↔ (⟨offset⟩ : String.Pos.Raw).IsValid (String.ofList text) :=
  String.Pos.Raw.isValid_ofList.symm

-- ---------------------------------------------------------------------------
-- Cuts
-- ---------------------------------------------------------------------------

/-- A string can be cut where two texts were put together. -/
theorem cut?_append (v w : List Char) :
    cut? (String.ofList (v ++ w)) (byteSize v) = some (String.ofList v, String.ofList w) := by
  have h : (⟨byteSize v⟩ : String.Pos.Raw).IsValid (String.ofList (v ++ w)) :=
    isBoundary_iff.mp ⟨v.length, by rw [List.take_left]⟩
  obtain ⟨hto, hfrom⟩ := (String.Pos.splits (⟨⟨byteSize v⟩, h⟩ : (String.ofList (v ++ w)).Pos)).eq
    ⟨String.ofList_append, rfl⟩
  rw [cut?, dif_pos h]
  simp only [hto, hfrom]

theorem cut?_take (text : List Char) (n : Nat) :
    cut? (String.ofList text) (byteSize (text.take n)) =
      some (String.ofList (text.take n), String.ofList (text.drop n)) := by
  simpa only [List.take_append_drop] using cut?_append (text.take n) (text.drop n)

/-- No cut goes through a code point. -/
example : cut? "aé" 2 = none := by decide

/-- The offset found by going through the code points is the size of those before it. -/
theorem offsetOf_ofList (text : List Char) (n : Nat) :
    offsetOf (String.ofList text) n = byteSize (text.take n) := by
  have h : ∀ start, ((indexed start text)[n]?.map Prod.fst).getD (start + byteSize text) =
      start + byteSize (text.take n) := by
    induction text generalizing n with
    | nil => simp [indexed]
    | cons x rest ih =>
      intro start
      cases n with
      | zero => simp [indexed, byteSize]
      | succ n => simpa [indexed, byteSize, Nat.add_assoc] using ih n (start + x.utf8Size)
  simpa [offsetOf, byteSize] using h 0

/-- No cut is refused, and the slices are the chunks. -/
theorem slices?_ofList (start : Nat) (lengths : List Nat) (text : List Char) :
    ∃ offsets, slices? start lengths (String.ofList text) =
        some (offsets, (splitByLengths lengths text).map String.ofList) ∧
      ∀ o ∈ offsets, ∃ i, o = start + byteSize (text.take i) := by
  fun_induction splitByLengths lengths text generalizing start with
  | case1 lengths => cases lengths <;> exact ⟨[], by simp [slices?], by simp⟩
  | case2 x rest => exact ⟨[], by simp [slices?], by simp⟩
  | case3 n lengths x rest ih =>
    obtain ⟨offsets, hslices, hoffsets⟩ := ih (start + byteSize ((x :: rest).take n))
    refine ⟨(start + byteSize ((x :: rest).take n)) :: offsets, ?_, ?_⟩
    · have hne : (String.ofList (x :: rest)).isEmpty = false := by simp
      simp only [slices?, hne, offsetOf_ofList, cut?_take, hslices, Bool.false_eq_true,
        ↓reduceIte, Option.bind_some, Option.map_some, List.map_cons]
    · rintro o (_ | ⟨_, ho⟩)
      · exact ⟨n, rfl⟩
      · obtain ⟨i, rfl⟩ := hoffsets o ho
        exact ⟨n + i, by rw [List.take_add, byteSize_append, Nat.add_assoc]⟩

/-- Where chunks lie behind `k` code points, the first comes next and the others behind it. -/
theorem take_of_flatten_prefix {k : Nat} {c : List Char} {cs : List (List Char)}
    (h : (c :: cs).flatten <+: text.drop k) :
    text.take (k + c.length) = text.take k ++ c ∧ cs.flatten <+: text.drop (k + c.length) := by
  obtain ⟨r, hr⟩ := h
  rw [List.flatten_cons, List.append_assoc] at hr
  constructor
  · rw [List.take_add, ← hr, List.take_left]
  · exact ⟨r, by rw [← List.drop_drop, ← hr, List.drop_left]⟩

/-- No beginning that ends with one of the chunks behind `k` code points is refused. -/
theorem beginningSlices?_ofList {k : Nat} {cs : List (List Char)} (h : cs.flatten <+: text.drop k) :
    ∃ offsets, beginningSlices? (String.ofList text) (byteSize (text.take k))
        (cs.map String.ofList) =
        some (offsets, (beginningsAt text k cs).map String.ofList) ∧
      ∀ o ∈ offsets, IsBoundary text o := by
  induction cs generalizing k with
  | nil => exact ⟨[], rfl, by simp⟩
  | cons c cs ih =>
    obtain ⟨htake, hrest⟩ := take_of_flatten_prefix h
    have hstop : byteSize (text.take k) + (String.ofList c).utf8ByteSize =
        byteSize (text.take (k + c.length)) := by
      rw [htake, byteSize_append]
      rfl
    obtain ⟨offsets, hslices, hoffsets⟩ := ih hrest
    refine ⟨byteSize (text.take (k + c.length)) :: offsets, ?_, ?_⟩
    · rw [List.map_cons, beginningSlices?, hstop, cut?_take]
      simp [hslices, beginningsAt]
    · rintro o (_ | ⟨_, ho⟩)
      · exact ⟨k + c.length, rfl⟩
      · exact hoffsets o ho

/-- Cutting a string by lengths refuses no cut. -/
theorem slices?_eq (payload : String) (lengths : List Nat) :
    ∃ offsets, slices? 0 lengths payload =
        some (offsets, (splitByLengths lengths payload.toList).map String.ofList) ∧
      ∀ o ∈ offsets, (⟨o⟩ : String.Pos.Raw).IsValid payload := by
  obtain ⟨offsets, hslices, hoffsets⟩ := slices?_ofList 0 lengths payload.toList
  rw [String.ofList_toList] at hslices
  refine ⟨offsets, hslices, fun o ho => ?_⟩
  obtain ⟨i, hi⟩ := hoffsets o ho
  have hboundary : IsBoundary payload.toList o := ⟨i, by rw [hi, Nat.zero_add]⟩
  simpa [isBoundary_iff] using hboundary

/-- Cutting a string where its chunks end refuses no cut. -/
theorem beginningSlices?_eq (payload : String) {cs : List (List Char)}
    (h : cs.flatten = payload.toList) :
    ∃ offsets, beginningSlices? payload 0 (cs.map String.ofList) =
        some (offsets, (beginningsAt payload.toList 0 cs).map String.ofList) ∧
      ∀ o ∈ offsets, (⟨o⟩ : String.Pos.Raw).IsValid payload := by
  have hprefix : cs.flatten <+: payload.toList.drop 0 := h ▸ List.prefix_rfl
  obtain ⟨offsets, hslices, hoffsets⟩ := beginningSlices?_ofList hprefix
  rw [String.ofList_toList] at hslices
  exact ⟨offsets, hslices, fun o ho => by simpa using isBoundary_iff.mp (hoffsets o ho)⟩

end TextStream.Text
