import TextStream.Proofs.Text.Slice

/-!
# Chunks partition a text

Of any list of lengths, those up to the end of the text make one chunk each, and
what is left behind the last length makes one more. With equal lengths that are
enough for the text there is none left, and the beginnings that end where the
chunks end grow by that length up to the whole text.
-/

namespace TextStream.Text

variable {lengths : List Nat} {text : List Char} {j n : Nat}

-- ---------------------------------------------------------------------------
-- Cutting by lengths
-- ---------------------------------------------------------------------------

theorem splitByLengths_of_ne (n : Nat) (lengths : List Nat) (h : text ≠ []) :
    splitByLengths (n :: lengths) text = text.take n :: splitByLengths lengths (text.drop n) := by
  cases text with
  | nil => exact absurd rfl h
  | cons x rest => rfl

/-- While text is left, every length makes one chunk, and cutting goes on behind it. -/
theorem drop_splitByLengths (hj : j ≤ lengths.length) (h : (lengths.take j).sum < text.length) :
    (splitByLengths lengths text).drop j =
      splitByLengths (lengths.drop j) (text.drop (lengths.take j).sum) := by
  induction j generalizing lengths text with
  | zero => simp
  | succ j ih =>
    cases lengths with
    | nil => simp at hj
    | cons n lengths =>
      rw [List.take_succ_cons, List.sum_cons] at h ⊢
      have hne : text ≠ [] := List.ne_nil_of_length_pos (Nat.zero_lt_of_lt h)
      rw [splitByLengths_of_ne n lengths hne, List.drop_succ_cons, List.drop_succ_cons,
        ih (Nat.le_of_succ_le_succ hj) (by rw [List.length_drop]; omega), List.drop_drop]

/-- Lengths behind a used-up text make no difference. -/
theorem splitByLengths_append (h : text.length ≤ lengths.sum) (more : List Nat) :
    splitByLengths (lengths ++ more) text = splitByLengths lengths text ∧
      (splitByLengths lengths text).length ≤ lengths.length := by
  have hlength : (splitByLengths lengths text).length ≤ lengths.length := by
    fun_induction splitByLengths lengths text with
    | case1 lengths => exact Nat.zero_le _
    | case2 x rest => simp at h
    | case3 n lengths x rest ih =>
      refine Nat.succ_le_succ (ih ?_)
      rw [List.sum_cons] at h
      rw [List.length_drop]
      omega
  exact ⟨splitByLengths_append_of_length_le hlength more, hlength⟩

/-- What lies in the first chunks is what their lengths ask for. -/
theorem flatten_take_splitByLengths (hj : j ≤ lengths.length) :
    ((splitByLengths lengths text).take j).flatten = text.take (lengths.take j).sum := by
  induction j generalizing lengths text with
  | zero => simp
  | succ j ih =>
    cases lengths with
    | nil => simp at hj
    | cons n lengths =>
      by_cases hne : text = []
      · simp [hne, splitByLengths_empty]
      · rw [splitByLengths_of_ne n lengths hne, List.take_succ_cons, List.flatten_cons,
          ih (Nat.le_of_succ_le_succ hj), List.take_succ_cons, List.sum_cons, List.take_add]

theorem getElem?_splitByLengths (hn : lengths[j]? = some n)
    (h : (lengths.take j).sum < text.length) :
    (splitByLengths lengths text)[j]? = some ((text.drop (lengths.take j).sum).take n) := by
  obtain ⟨hj, rfl⟩ := List.getElem?_eq_some_iff.mp hn
  have hne : text.drop (lengths.take j).sum ≠ [] :=
    List.ne_nil_of_length_pos (by rw [List.length_drop]; omega)
  rw [← List.head?_drop, drop_splitByLengths hj.le h, List.drop_eq_getElem_cons hj,
    splitByLengths_of_ne _ _ hne, List.head?_cons]

/-- Text behind the last length is one more chunk. -/
theorem drop_splitByLengths_all (h : lengths.sum < text.length) :
    (splitByLengths lengths text).drop lengths.length = [text.drop lengths.sum] := by
  have hleft : (lengths.take lengths.length).sum < text.length := by rwa [List.take_length]
  rw [drop_splitByLengths le_rfl hleft, List.take_length, List.drop_length]
  cases hr : text.drop lengths.sum with
  | nil => simp at hr; omega
  | cons x rest => rfl

theorem length_splitByLengths_le (h : text.length ≤ (lengths.take j).sum) :
    (splitByLengths lengths text).length ≤ j := by
  obtain ⟨hmore, hlength⟩ := splitByLengths_append h (lengths.drop j)
  rw [List.take_append_drop] at hmore
  rw [hmore]
  exact hlength.trans (List.length_take_le _ _)

theorem exists_last_splitByLengths (h : text ≠ []) (lengths : List Nat) :
    ∃ c, (splitByLengths lengths text).getLast? = some c ∧ c ≠ [] := by
  fun_induction splitByLengths lengths text with
  | case1 lengths => exact absurd rfl h
  | case2 x rest => exact ⟨_, rfl, h⟩
  | case3 n lengths x rest ih =>
    by_cases hrest : (x :: rest).drop n = []
    · rw [hrest, splitByLengths_empty]
      refine ⟨_, rfl, ?_⟩
      rwa [List.take_of_length_le (List.drop_eq_nil_iff.mp hrest)]
    · obtain ⟨c, hc, hne⟩ := ih hrest
      exact ⟨c, by rw [List.getLast?_cons, hc]; rfl, hne⟩

/-- A chunk is empty where a length is zero and text is left. -/
theorem getElem?_splitByLengths_eq_nil_iff :
    (splitByLengths lengths text)[j]? = some [] ↔
      lengths[j]? = some 0 ∧ (lengths.take j).sum < text.length := by
  rcases Nat.lt_or_ge (lengths.take j).sum text.length with hlt | hge
  · cases hn : lengths[j]? with
    | some n =>
      rw [getElem?_splitByLengths hn hlt]
      simp [hlt]
    | none =>
      have hj : lengths.length ≤ j := List.getElem?_eq_none_iff.mp hn
      rw [List.take_of_length_le hj] at hlt
      have hdrop := congrArg (fun cs => cs[j - lengths.length]?) (drop_splitByLengths_all hlt)
      simp only [List.getElem?_drop, Nat.add_sub_cancel' hj] at hdrop
      rw [hdrop]
      cases j - lengths.length <;> simp [hlt]
  · have hnone := List.getElem?_eq_none (length_splitByLengths_le hge)
    simp [hnone, hge]

/-- How lengths cut a text. While text is left, each makes one chunk with as many
code points as it asks for and are left. Behind a used-up text none is looked at,
and text behind the last of them is one more chunk. In UTF-8 every cut falls
between two code points. -/
theorem splitByLengths_partitions (payload : String) (lengths : List Nat) :
    let text := payload.toList
    let chunks := splitByLengths lengths text
    let given := fun j => (lengths.take j).sum
    chunks.flatten = text ∧
    (∀ j ≤ lengths.length, (chunks.take j).flatten = text.take (given j)) ∧
    (∀ j n, lengths[j]? = some n → given j < text.length →
      ∃ c, chunks[j]? = some c ∧ c.length = min n (text.length - given j)) ∧
    (∀ j, text.length ≤ given j → chunks.length ≤ j ∧
      ∀ more, splitByLengths (lengths.take j ++ more) text = chunks) ∧
    (lengths.sum < text.length → chunks.drop lengths.length = [text.drop lengths.sum]) ∧
    (∀ j, chunks[j]? = some [] ↔ lengths[j]? = some 0 ∧ given j < text.length) ∧
    (text ≠ [] → ∃ c, chunks.getLast? = some c ∧ c ≠ []) ∧
    ∃ offsets, slices? 0 lengths payload = some (offsets, chunks.map String.ofList) ∧
      ∀ o ∈ offsets, (⟨o⟩ : String.Pos.Raw).IsValid payload := by
  intro text chunks given
  refine ⟨flatten_splitByLengths _ _, fun j hj => flatten_take_splitByLengths hj,
    fun j n hn h => ⟨_, getElem?_splitByLengths hn h, by simp [given]⟩,
    fun j h => ⟨length_splitByLengths_le h, fun more => ?_⟩, drop_splitByLengths_all,
    fun j => getElem?_splitByLengths_eq_nil_iff, fun h => exists_last_splitByLengths h _,
    slices?_eq payload lengths⟩
  have hused := splitByLengths_append h
  rw [(hused more).1, ← (hused (lengths.drop j)).1, List.take_append_drop]

-- ---------------------------------------------------------------------------
-- Even chunks
-- ---------------------------------------------------------------------------

variable {l m parts : Nat}

theorem sum_take_replicate (m l j : Nat) :
    ((List.replicate m l).take j).sum = min j m * l := by
  simp [List.take_replicate]

theorem ceilDiv_le_of_le_mul (hl : 0 < l) (h : n ≤ m * l) : n ⌈/⌉ l ≤ m :=
  (ceilDiv_le_iff_le_mul hl).mpr (by rwa [Nat.mul_comm])

theorem mul_lt_of_lt_ceilDiv (hl : 0 < l) (h : j < n ⌈/⌉ l) : j * l < n := by
  rw [Nat.mul_comm]
  exact Nat.lt_of_not_le fun hle => h.not_ge ((ceilDiv_le_iff_le_mul hl).mpr hle)

theorem evenLength_eq (n parts : Nat) : evenLength n parts = max 1 (n ⌈/⌉ parts) := by
  rw [evenLength, Nat.ceilDiv_eq_add_pred_div]

section
variable (hl : 0 < l) (h : text.length ≤ m * l)

include h in
/-- While text is left there is a length for it. -/
theorem getElem?_splitByLengths_replicate (hj : j * l < text.length) :
    (splitByLengths (List.replicate m l) text)[j]? = some ((text.drop (j * l)).take l) := by
  have hm : j < m := Nat.lt_of_mul_lt_mul_right (hj.trans_le h)
  have hn : (List.replicate m l)[j]? = some l := by rw [List.getElem?_replicate, if_pos hm]
  have hgiven : ((List.replicate m l).take j).sum = j * l := by
    rw [sum_take_replicate, Nat.min_eq_left hm.le]
  rw [getElem?_splitByLengths hn (hgiven ▸ hj), hgiven]

include hl h

/-- Lengths that are enough for a text are used as often as they fit in, rounded up. -/
theorem length_splitByLengths_replicate :
    (splitByLengths (List.replicate m l) text).length = text.length ⌈/⌉ l := by
  apply Nat.le_antisymm
  · apply length_splitByLengths_le
    rw [sum_take_replicate, Nat.min_eq_left (ceilDiv_le_of_le_mul hl h), Nat.mul_comm]
    exact le_smul_ceilDiv hl
  · by_contra hlt
    have hleft := mul_lt_of_lt_ceilDiv hl (Nat.lt_of_not_le hlt)
    have hchunk := getElem?_splitByLengths_replicate h hleft
    rw [List.getElem?_eq_none le_rfl] at hchunk
    exact nomatch hchunk

/-- No chunk is empty, and only the last may be shorter than the others. -/
theorem length_of_getElem?_splitByLengths_replicate {c : List Char}
    (hc : (splitByLengths (List.replicate m l) text)[j]? = some c) :
    c ≠ [] ∧ (j + 1 < (splitByLengths (List.replicate m l) text).length → c.length = l) := by
  constructor
  · rintro rfl
    obtain ⟨hzero, -⟩ := getElem?_splitByLengths_eq_nil_iff.mp hc
    rw [List.getElem?_replicate] at hzero
    split at hzero
    · exact hl.ne' (Option.some.inj hzero)
    · exact nomatch hzero
  · intro hj
    rw [length_splitByLengths_replicate hl h] at hj
    have hmore : (j + 1) * l < text.length := mul_lt_of_lt_ceilDiv hl hj
    rw [Nat.succ_mul] at hmore
    rw [getElem?_splitByLengths_replicate h (by omega), Option.some.injEq] at hc
    rw [← hc, List.length_take, List.length_drop]
    omega

end

-- ---------------------------------------------------------------------------
-- Beginnings
-- ---------------------------------------------------------------------------

theorem length_beginningsAt (text : List Char) (k : Nat) (cs : List (List Char)) :
    (beginningsAt text k cs).length = cs.length := by
  induction cs generalizing k with
  | nil => rfl
  | cons c cs ih => exact congrArg (· + 1) (ih _)

/-- A beginning is made of the chunks up to the one that it ends with. -/
theorem getElem?_beginningsAt {k : Nat} {cs : List (List Char)}
    (h : cs.flatten <+: text.drop k) (hj : j < cs.length) :
    (beginningsAt text k cs)[j]? = some (text.take k ++ (cs.take (j + 1)).flatten) := by
  induction cs generalizing k j with
  | nil => exact absurd hj (Nat.not_lt_zero j)
  | cons c cs ih =>
    obtain ⟨htake, hrest⟩ := take_of_flatten_prefix h
    cases j with
    | zero => simp [beginningsAt, htake]
    | succ j =>
      rw [beginningsAt, List.getElem?_cons_succ, ih hrest (by simpa using hj), htake]
      simp

/-- The beginnings of a text by its own chunks. -/
theorem getElem?_beginningsAt_eq_some {cs : List (List Char)} (h : cs.flatten = text)
    {p : List Char} (hp : (beginningsAt text 0 cs)[j]? = some p) :
    j < cs.length ∧ p = (cs.take (j + 1)).flatten := by
  have hprefix : cs.flatten <+: text.drop 0 := h ▸ List.prefix_rfl
  have hj : j < cs.length :=
    length_beginningsAt text 0 cs ▸ (List.getElem?_eq_some_iff.mp hp).1
  rw [getElem?_beginningsAt hprefix hj, Option.some.injEq, List.take_zero, List.nil_append] at hp
  exact ⟨hj, hp.symm⟩

theorem getLast?_beginningsAt {cs : List (List Char)} (h : cs.flatten = text) (hne : text ≠ []) :
    (beginningsAt text 0 cs).getLast? = some text := by
  have hprefix : cs.flatten <+: text.drop 0 := h ▸ List.prefix_rfl
  have hpos : 0 < cs.length := by
    rw [List.length_pos_iff]
    rintro rfl
    exact hne h.symm
  rw [List.getLast?_eq_getElem?, length_beginningsAt,
    getElem?_beginningsAt hprefix (Nat.sub_lt hpos Nat.one_pos), Nat.sub_add_cancel hpos,
    List.take_length, h]
  rfl

/-- By even chunks a beginning has one chunk's length more than the one before it. -/
theorem beginningsAt_replicate (hl : 0 < l) (h : text.length ≤ m * l) {p : List Char}
    (hp : (beginningsAt text 0 (splitByLengths (List.replicate m l) text))[j]? = some p) :
    j * l < text.length ∧ p = text.take ((j + 1) * l) := by
  obtain ⟨hj, hmade⟩ := getElem?_beginningsAt_eq_some (flatten_splitByLengths _ _) hp
  rw [length_splitByLengths_replicate hl h] at hj
  have hm := ceilDiv_le_of_le_mul hl h
  refine ⟨mul_lt_of_lt_ceilDiv hl hj, ?_⟩
  rw [hmade, flatten_take_splitByLengths (by rw [List.length_replicate]; omega),
    sum_take_replicate, Nat.min_eq_left (by omega)]

theorem pairwise_beginningsAt_replicate (hl : 0 < l) (h : text.length ≤ m * l) :
    (beginningsAt text 0 (splitByLengths (List.replicate m l) text)).Pairwise
      (fun p q => p <+: q ∧ p.length < q.length) := by
  rw [List.pairwise_iff_getElem]
  intro i j hi hj hij
  obtain ⟨-, hp⟩ := beginningsAt_replicate hl h (List.getElem?_eq_getElem hi)
  obtain ⟨hlt, hq⟩ := beginningsAt_replicate hl h (List.getElem?_eq_getElem hj)
  have hle : (i + 1) * l ≤ j * l := Nat.mul_le_mul_right l hij
  have hlength : (text.take ((i + 1) * l)).length < (text.take ((j + 1) * l)).length := by
    rw [List.length_take, List.length_take, Nat.succ_mul j]
    omega
  rw [hp, hq]
  exact ⟨List.prefix_of_prefix_length_le (List.take_prefix _ _) (List.take_prefix _ _) hlength.le,
    hlength⟩

/-- How a text is cut evenly. The chunks are as long as each other, the last one apart,
and no more than were asked for, so nothing is left behind the last length. The
beginnings grow by one chunk each up to the whole text. In UTF-8 every chunk and
every beginning ends between two code points. -/
theorem chunks_even (payload : String) (parts : Nat) (hparts : 0 < parts) :
    let text := payload.toList
    let n := text.length
    let l := max 1 (n ⌈/⌉ parts)
    ∃ cs ps, chunks text parts = .ok cs ∧ beginnings text parts = .ok ps ∧
      cs = splitByLengths (List.replicate parts l) text ∧ n ≤ parts * l ∧
      cs.length = n ⌈/⌉ l ∧ cs.length ≤ parts ∧
      (∀ j c, cs[j]? = some c → c ≠ [] ∧ (j + 1 < cs.length → c.length = l)) ∧
      cs.flatten = text ∧
      ps.length = cs.length ∧
      (∀ j p, ps[j]? = some p →
        p = (cs.take (j + 1)).flatten ∧ p.length = min ((j + 1) * l) n ∧ p <+: text) ∧
      ps.Pairwise (fun p q => p <+: q ∧ p.length < q.length) ∧
      (0 < n → ps.getLast? = some text) ∧
      (∃ offsets, slices? 0 (List.replicate parts l) payload =
          some (offsets, cs.map String.ofList) ∧
        ∀ o ∈ offsets, (⟨o⟩ : String.Pos.Raw).IsValid payload) ∧
      ∃ offsets, beginningSlices? payload 0 (cs.map String.ofList) =
          some (offsets, ps.map String.ofList) ∧
        ∀ o ∈ offsets, (⟨o⟩ : String.Pos.Raw).IsValid payload := by
  intro text n l
  have hl : 0 < l := lt_max_of_lt_left Nat.one_pos
  have heven : evenLength n parts = l := evenLength_eq n parts
  have henough : n ≤ parts * l := heven ▸ length_le_mul_evenLength n hparts
  have hchunks : chunks text parts = .ok (splitByLengths (List.replicate parts l) text) :=
    heven ▸ chunks_eq text hparts
  have hlength := length_splitByLengths_replicate hl henough
  have hflatten := flatten_splitByLengths (List.replicate parts l) text
  refine ⟨_, _, hchunks, by rw [beginnings, hchunks]; rfl, rfl, henough, hlength, ?_,
    fun j c hc => length_of_getElem?_splitByLengths_replicate hl henough hc, hflatten,
    length_beginningsAt _ _ _, fun j p hp => ?_, pairwise_beginningsAt_replicate hl henough,
    fun hn => getLast?_beginningsAt hflatten (List.ne_nil_of_length_pos hn),
    slices?_eq payload _, beginningSlices?_eq payload hflatten⟩
  · rw [hlength]
    exact ceilDiv_le_of_le_mul hl henough
  · obtain ⟨-, htake⟩ := beginningsAt_replicate hl henough hp
    refine ⟨(getElem?_beginningsAt_eq_some hflatten hp).2, ?_, htake ▸ List.take_prefix _ _⟩
    rw [htake, List.length_take]

/-- Four code points in three parts make two chunks of two. -/
theorem chunks_even_fewer_than_parts :
    0 < 3 ∧ ∃ cs ps, chunks "f😊o🚀".toList 3 = .ok cs ∧ beginnings "f😊o🚀".toList 3 = .ok ps ∧
      cs.length = 2 ∧ ps.getLast? = some "f😊o🚀".toList := by
  obtain ⟨cs, ps, hcs, hps, -, -, hlength, -, -, -, -, -, -, hlast, -, -⟩ :=
    chunks_even "f😊o🚀" 3 (by decide)
  have htwo : "f😊o🚀".toList.length ⌈/⌉ max 1 ("f😊o🚀".toList.length ⌈/⌉ 3) = 2 := by
    simp only [Nat.ceilDiv_eq_add_pred_div]
    decide
  exact ⟨by decide, cs, ps, hcs, hps, hlength.trans htwo, hlast (by decide)⟩

end TextStream.Text
