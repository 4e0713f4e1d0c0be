import TextStream.Error

/-!
# Cutting a text into chunks

Cuts fall between code points. A list of lengths is used up as far as there is
text for it, and what text is left after the last length is one more chunk. Lengths
count code points, while a string is cut at byte offsets: the same cuts are defined
there too, refused wherever an offset does not fall between two code points.
-/

namespace TextStream.Text

def splitByLengths : List Nat → List Char → List (List Char)
  | _, [] => []
  | [], x :: rest => [x :: rest]
  | n :: lengths, x :: rest =>
    (x :: rest).take n :: splitByLengths lengths ((x :: rest).drop n)

/-- The length of `parts` equal chunks that hold `n` code points; at least one. -/
def evenLength (n parts : Nat) : Nat :=
  max 1 ((n + parts - 1) / parts)

/-- At most `parts` chunks of one length, the last one possibly shorter. A text
never needs more lengths than it has code points. -/
def chunks (text : List Char) (parts : Nat) : Except Abort (List (List Char)) :=
  if parts = 0 then .error .noParts
  else
    let length := evenLength text.length parts
    .ok (splitByLengths (List.replicate (min parts text.length) length) text)

/-- The beginnings of `text` that end where the chunks `cs`, laid out from `start`, end. -/
def beginningsAt (text : List Char) : Nat → List (List Char) → List (List Char)
  | _, [] => []
  | start, c :: cs =>
    text.take (start + c.length) :: beginningsAt text (start + c.length) cs

/-- Beginnings of a text, one for each of its chunks. -/
def beginnings (text : List Char) (parts : Nat) : Except Abort (List (List Char)) :=
  (chunks text parts).map (beginningsAt text 0)

variable {lengths : List Nat} {text : List Char} {parts : Nat}

theorem flatten_splitByLengths (lengths : List Nat) (text : List Char) :
    (splitByLengths lengths text).flatten = text := by
  fun_induction splitByLengths lengths text with
  | case1 => rfl
  | case2 => simp
  | case3 n lengths x rest ih => simp [ih]

theorem splitByLengths_empty (lengths : List Nat) : splitByLengths lengths [] = [] := by
  cases lengths <;> rfl

/-- Where no text is left behind the last length, further lengths make no difference. -/
theorem splitByLengths_append_of_length_le
    (h : (splitByLengths lengths text).length ≤ lengths.length) (more : List Nat) :
    splitByLengths (lengths ++ more) text = splitByLengths lengths text := by
  fun_induction splitByLengths lengths text with
  | case1 lengths => exact splitByLengths_empty _
  | case2 x rest => simp at h
  | case3 n lengths x rest ih =>
    rw [← ih (Nat.le_of_succ_le_succ h)]
    rfl

theorem length_splitByLengths_replicate_le {m l : Nat} (h : text.length ≤ m * l) :
    (splitByLengths (List.replicate m l) text).length ≤ m := by
  induction m generalizing text with
  | zero =>
    obtain rfl : text = [] := List.length_eq_zero_iff.mp (by omega)
    exact Nat.le_refl _
  | succ m ih =>
    cases text with
    | nil => exact Nat.zero_le _
    | cons x rest =>
      have hrest : ((x :: rest).drop l).length ≤ m * l := by
        rw [Nat.succ_mul] at h
        rw [List.length_drop]
        omega
      exact Nat.succ_le_succ (ih hrest)

theorem evenLength_pos (n parts : Nat) : 0 < evenLength n parts :=
  Nat.le_max_left _ _

theorem length_le_mul_evenLength (n : Nat) (hparts : 0 < parts) :
    n ≤ parts * evenLength n parts := by
  have hquotient := Nat.lt_mul_div_succ (n + parts - 1) hparts
  have hle := Nat.mul_le_mul_left parts (Nat.le_max_right 1 ((n + parts - 1) / parts))
  rw [Nat.mul_add] at hquotient
  rw [evenLength]
  omega

/-- The chunks are those of `parts` lengths: as many as there are code points are enough. -/
theorem chunks_eq (text : List Char) (hparts : 0 < parts) :
    chunks text parts =
      .ok (splitByLengths (List.replicate parts (evenLength text.length parts)) text) := by
  rw [chunks, if_neg (Nat.ne_of_gt hparts)]
  generalize hl : evenLength text.length parts = l
  generalize hm : min parts text.length = m
  have henough : text.length ≤ m * l := by
    subst hl hm
    rcases Nat.le_total parts text.length with hle | hle
    · rw [Nat.min_eq_left hle]
      exact length_le_mul_evenLength _ hparts
    · rw [Nat.min_eq_right hle]
      exact Nat.le_mul_of_pos_right _ (evenLength_pos _ _)
  have hused : (splitByLengths (List.replicate m l) text).length ≤
      (List.replicate m l).length := by
    rw [List.length_replicate]
    exact length_splitByLengths_replicate_le henough
  have hmore := splitByLengths_append_of_length_le hused (List.replicate (parts - m) l)
  rw [List.replicate_append_replicate, Nat.add_sub_cancel' (by omega)] at hmore
  rw [hmore]

-- ---------------------------------------------------------------------------
-- Slices of UTF-8
-- ---------------------------------------------------------------------------

/-- A string up to and from a byte offset, which must be that of a code point or the end. -/
def cut? (s : String) (offset : Nat) : Option (String × String) :=
  if h : (⟨offset⟩ : String.Pos.Raw).IsValid s then
    let p : s.Pos := ⟨⟨offset⟩, h⟩
    some ((s.sliceTo p).copy, (s.sliceFrom p).copy)
  else none

/-- Code points with the byte offsets at which they begin. -/
def indexed : Nat → List Char → List (Nat × Char)
  | _, [] => []
  | start, x :: rest => (start, x) :: indexed (start + x.utf8Size) rest

/-- Where the `n`-th code point begins, or the end if there are no more than `n`. -/
def offsetOf (s : String) (n : Nat) : Nat :=
  ((indexed 0 s.toList)[n]?.map Prod.fst).getD s.utf8ByteSize

/-- Slices of `rest`, which begins at the byte `start` of some string. With them come
the offsets in that string at which it was cut. -/
def slices? : Nat → List Nat → String → Option (List Nat × List String)
  | _, [], rest => some ([], if rest.isEmpty then [] else [rest])
  | start, n :: lengths, rest =>
    if rest.isEmpty then some ([], [])
    else
      let offset := offsetOf rest n
      (cut? rest offset).bind fun (chunk, tail) =>
        (slices? (start + offset) lengths tail).map fun (offsets, chunks) =>
          ((start + offset) :: offsets, chunk :: chunks)

/-- The beginnings of `s` that end where the slices `cs`, laid out from `start`, end,
with the offsets of these ends. -/
def beginningSlices? (s : String) : Nat → List String → Option (List Nat × List String)
  | _, [] => some ([], [])
  | start, c :: cs =>
    let stop := start + c.utf8ByteSize
    (cut? s stop).bind fun (beginning, _) =>
      (beginningSlices? s stop cs).map fun (offsets, beginnings) =>
        (stop :: offsets, beginning :: beginnings)

end TextStream.Text
