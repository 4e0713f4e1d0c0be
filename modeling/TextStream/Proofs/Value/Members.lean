import Mathlib
import TextStream.Value.Members

/-!
# What a list of entries means

Entries may repeat a key and come in any order. The members they mean have each
key once, in order, with the last value given for it, and this determines them.
-/

namespace TextStream.Members

variable {α : Type} {key : String} {v : α} {ms ns : Members α}

/-- The members hold the last value of every key among the entries, and no other. -/
structure Collects (entries : List (String × α)) (ms : Members α) : Prop where
  sorted : ms.Sorted
  find? : ∀ key, ms.find? key = Members.find? key entries.reverse

-- ---------------------------------------------------------------------------
-- Order
-- ---------------------------------------------------------------------------

theorem Sorted.tail {e : String × α} (h : Sorted (e :: ms)) : ms.Sorted :=
  (List.pairwise_cons.mp h).2

theorem mem_insert {e : String × α} (h : e ∈ insert key v ms) : e = (key, v) ∨ e ∈ ms := by
  induction ms with
  | nil => simpa [insert] using h
  | cons e' rest ih => grind [insert]

theorem Sorted.insert (h : ms.Sorted) (key : String) (v : α) : (ms.insert key v).Sorted := by
  induction ms with
  | nil => exact List.pairwise_singleton _ _
  | cons e rest ih =>
    obtain ⟨k, w⟩ := e
    obtain ⟨hk, hrest⟩ := List.pairwise_cons.mp h
    unfold Members.insert
    split
    · next hlt =>
      refine List.pairwise_cons.mpr ⟨?_, h⟩
      intro e he
      rcases List.mem_cons.mp he with rfl | he
      · exact hlt
      · exact Std.lt_trans hlt (hk e he)
    · next hnot =>
      split
      · next heq => exact List.pairwise_cons.mpr ⟨fun e he => heq ▸ hk e he, hrest⟩
      · next hne =>
        refine List.pairwise_cons.mpr ⟨?_, ih hrest⟩
        intro e he
        rcases mem_insert he with rfl | he
        · rcases Std.lt_trichotomy key k with hlt | heq | hgt
          · exact absurd hlt hnot
          · exact absurd heq hne
          · exact hgt
        · exact hk e he

-- ---------------------------------------------------------------------------
-- Looking up
-- ---------------------------------------------------------------------------

theorem find?_append (key : String) (ms ns : Members α) :
    find? key (ms ++ ns) = (find? key ms).or (find? key ns) := by
  induction ms with
  | nil => rfl
  | cons e rest ih =>
    simp only [List.cons_append, find?]
    split
    · rfl
    · exact ih

theorem mem_of_find? (h : find? key ms = some v) : (key, v) ∈ ms := by
  induction ms with
  | nil => simp [find?] at h
  | cons e rest ih => grind [find?]

/-- Keys below the first one are not there. -/
theorem Sorted.find?_eq_none {e : String × α} (h : Sorted (e :: ms)) (hlt : key < e.1) :
    find? key (e :: ms) = none := by
  obtain ⟨he, -⟩ := List.pairwise_cons.mp h
  cases hf : find? key (e :: ms) with
  | none => rfl
  | some v =>
    rcases List.mem_cons.mp (mem_of_find? hf) with rfl | hmem
    · exact absurd hlt (Std.lt_irrefl)
    · exact absurd (Std.lt_trans hlt (he _ hmem)) (Std.lt_irrefl)

theorem Sorted.find?_tail_eq_none {e : String × α} (h : Sorted (e :: ms)) :
    find? e.1 ms = none := by
  obtain ⟨he, -⟩ := List.pairwise_cons.mp h
  cases hf : find? e.1 ms with
  | none => rfl
  | some v => exact absurd (he _ (mem_of_find? hf)) (Std.lt_irrefl)

/-- Members in order are determined by what is found under each key. -/
theorem Sorted.ext (hm : ms.Sorted) (hn : ns.Sorted) (h : ∀ key, find? key ms = find? key ns) :
    ms = ns := by
  induction ms generalizing ns with
  | nil =>
    cases ns with
    | nil => rfl
    | cons e rest => simpa [find?] using h e.1
  | cons e rest ih =>
    cases ns with
    | nil => simpa [find?] using h e.1
    | cons e' rest' =>
      obtain ⟨k, v⟩ := e
      obtain ⟨k', v'⟩ := e'
      -- the smaller of the two first keys would be found on one side only
      have hk : k = k' := by
        rcases Std.lt_trichotomy k k' with hlt | heq | hgt
        · have := (h k).trans (hn.find?_eq_none hlt)
          simp [find?] at this
        · exact heq
        · have := (h k').symm.trans (hm.find?_eq_none hgt)
          simp [find?] at this
      subst hk
      have hv : v = v' := by simpa [find?] using h k
      subst hv
      rw [ih hm.tail hn.tail]
      intro key
      by_cases hkey : k = key
      · subst hkey
        exact hm.find?_tail_eq_none.trans hn.find?_tail_eq_none.symm
      · simpa [find?, hkey] using h key

-- ---------------------------------------------------------------------------
-- Entries
-- ---------------------------------------------------------------------------

theorem ofList_append_singleton (entries : List (String × α)) (e : String × α) :
    ofList (entries ++ [e]) = insert e.1 e.2 (ofList entries) := by
  simp [ofList]

theorem collects_snoc {entries : List (String × α)} (h : Collects entries ms) (e : String × α) :
    Collects (entries ++ [e]) (ms.insert e.1 e.2) := by
  refine ⟨h.sorted.insert _ _, ?_⟩
  intro key
  rw [find?_insert, h.find? key, List.reverse_append, List.reverse_singleton, List.singleton_append]
  simp only [find?, eq_comm]

theorem collects_ofList (entries : List (String × α)) : Collects entries (ofList entries) := by
  -- entries are taken up one by one from the left
  rw [← entries.reverse_reverse]
  induction entries.reverse with
  | nil => exact ⟨.nil, fun _ => rfl⟩
  | cons e rest ih =>
    rw [List.reverse_cons, ofList_append_singleton]
    exact collects_snoc ih e

theorem collects_iff {entries : List (String × α)} :
    Collects entries ms ↔ ms = ofList entries := by
  constructor
  · intro h
    refine h.sorted.ext (collects_ofList entries).sorted fun key => ?_
    rw [h.find?, (collects_ofList entries).find?]
  · rintro rfl
    exact collects_ofList entries

theorem Sorted.find?_reverse (h : ms.Sorted) (key : String) :
    find? key ms.reverse = find? key ms := by
  induction ms with
  | nil => rfl
  | cons e rest ih =>
    rw [List.reverse_cons, find?_append, ih h.tail]
    by_cases hkey : e.1 = key
    · subst hkey
      simp [h.find?_tail_eq_none, find?]
    · simp [find?, hkey]

/-- Members that are in order already mean themselves. -/
theorem Sorted.collects (h : ms.Sorted) : Collects ms ms :=
  ⟨h, fun key => (h.find?_reverse key).symm⟩

end TextStream.Members
