import Mathlib
import TextStream.Value.Text

/-!
# What a value holds

Values nest through lists of items and of members. One induction rule speaks
about the values in such a list; the numbers of a value, the order of its
objects and its text are described by what holds of each of them.
-/

namespace TextStream.Value

/-- Induction on the nesting of arrays and objects. -/
@[elab_as_elim]
theorem nested {P : Value → Prop} (null : P null) (boolean : ∀ b, P (boolean b))
    (number : ∀ x, P (number x)) (string : ∀ s, P (string s))
    (array : ∀ items, (∀ v ∈ items, P v) → P (array items))
    (object : ∀ members, (∀ e ∈ members, P e.2) → P (object members)) (v : Value) : P v :=
  match v with
  | .null => null
  | .boolean b => boolean b
  | .number x => number x
  | .string s => string s
  | .array items => array items fun v _ => nested null boolean number string array object v
  | .object members =>
    object members fun e _ => nested null boolean number string array object e.2
termination_by sizeOf v
decreasing_by
  · next h =>
    have := List.sizeOf_lt_of_mem h
    simp only [Value.array.sizeOf_spec]
    omega
  · next h =>
    have := List.sizeOf_lt_of_mem h
    obtain ⟨key, u⟩ := e
    simp only [Value.object.sizeOf_spec, Prod.mk.sizeOf_spec] at this ⊢
    omega

-- ---------------------------------------------------------------------------
-- Numbers and order
-- ---------------------------------------------------------------------------

mutual
/-- The numbers in a value, at any depth and in the order of its text. -/
def numbers : Value → List Float
  | null => []
  | boolean _ => []
  | number x => [x]
  | string _ => []
  | array items => itemNumbers items
  | object members => memberNumbers members

def itemNumbers : List Value → List Float
  | [] => []
  | v :: rest => v.numbers ++ itemNumbers rest

def memberNumbers : List (String × Value) → List Float
  | [] => []
  | (_, v) :: rest => v.numbers ++ memberNumbers rest
end

theorem numbers_array (items : List Value) : (array items).numbers = items.flatMap numbers := by
  show itemNumbers items = _
  induction items with
  | nil => rfl
  | cons v rest ih => rw [itemNumbers, ih, List.flatMap_cons]

theorem numbers_object (members : List (String × Value)) :
    (object members).numbers = members.flatMap fun e => e.2.numbers := by
  show memberNumbers members = _
  induction members with
  | nil => rfl
  | cons e rest ih => rw [memberNumbers, ih, List.flatMap_cons]

mutual
/-- Every object in the value has each of its keys once, and in order. -/
def Ordered : Value → Prop
  | null => True
  | boolean _ => True
  | number _ => True
  | string _ => True
  | array items => OrderedItems items
  | object members => Members.Sorted members ∧ OrderedMembers members

def OrderedItems : List Value → Prop
  | [] => True
  | v :: rest => v.Ordered ∧ OrderedItems rest

def OrderedMembers : List (String × Value) → Prop
  | [] => True
  | (_, v) :: rest => v.Ordered ∧ OrderedMembers rest
end

theorem ordered_array_iff {items : List Value} :
    (array items).Ordered ↔ ∀ v ∈ items, v.Ordered := by
  show OrderedItems items ↔ _
  induction items with
  | nil => simp [OrderedItems]
  | cons v rest ih => rw [OrderedItems, List.forall_mem_cons, ih]

theorem ordered_object_iff {members : List (String × Value)} :
    (object members).Ordered ↔ Members.Sorted members ∧ ∀ e ∈ members, e.2.Ordered := by
  show Members.Sorted members ∧ OrderedMembers members ↔ _
  refine and_congr_right' ?_
  induction members with
  | nil => simp [OrderedMembers]
  | cons e rest ih => rw [OrderedMembers, List.forall_mem_cons, ih]

-- ---------------------------------------------------------------------------
-- Texts with commas between them
-- ---------------------------------------------------------------------------

/-- The texts of the items with a comma between any two of them. -/
def joined {α : Type} (text : α → List Char) : List α → List Char
  | [] => []
  | [a] => text a
  | a :: rest => text a ++ ',' :: joined text rest

def entryChars (e : String × Value) : List Char :=
  quotedChars e.1 ++ ':' :: e.2.chars

/-- The only function of a list that puts commas between the texts of its items. -/
theorem eq_joined {α : Type} {text : α → List Char} {f : List α → List Char} (hnil : f [] = [])
    (hone : ∀ a, f [a] = text a)
    (hmore : ∀ a b rest, f (a :: b :: rest) = text a ++ ',' :: f (b :: rest)) (as : List α) :
    f as = joined text as := by
  fun_induction joined text as with
  | case1 => exact hnil
  | case2 a => exact hone a
  | case3 a rest hne ih =>
    obtain ⟨b, rest, rfl⟩ := List.exists_cons_of_ne_nil hne
    rw [hmore, ih]

theorem chars_array (items : List Value) :
    (array items).chars = '[' :: (joined chars items ++ [']']) := by
  have hitems : itemChars items = joined chars items :=
    eq_joined rfl (fun _ => rfl) (fun _ _ _ => rfl) items
  rw [chars, hitems]

theorem chars_object (members : List (String × Value)) :
    (object members).chars = '{' :: (joined entryChars members ++ ['}']) := by
  have hmore (e e' : String × Value) (rest : List (String × Value)) :
      memberChars (e :: e' :: rest) = entryChars e ++ ',' :: memberChars (e' :: rest) := by
    simp [memberChars, entryChars]
  have hmembers : memberChars members = joined entryChars members :=
    eq_joined rfl (fun _ => rfl) hmore members
  rw [chars, hmembers]

theorem length_le_joined {α : Type} {text : α → List Char} {as : List α} {a : α} (h : a ∈ as) :
    (text a).length ≤ (joined text as).length := by
  fun_induction joined text as with
  | case1 => simp at h
  | case2 b =>
    obtain rfl := List.mem_singleton.mp h
    exact Nat.le_refl _
  | case3 b rest hne ih =>
    rw [List.length_append, List.length_cons]
    rcases List.mem_cons.mp h with rfl | h
    · omega
    · have := ih h
      omega

theorem exists_joined_eq {α : Type} {text : α → List Char} {as : List α} (hne : as ≠ []) :
    ∃ a ∈ as, ∃ r, joined text as = text a ++ r := by
  fun_cases joined text as with
  | case1 => exact absurd rfl hne
  | case2 a => exact ⟨a, by simp, [], (List.append_nil _).symm⟩
  | case3 a rest => exact ⟨a, by simp, _, rfl⟩

theorem length_le_length_joined {α : Type} {text : α → List Char} {as : List α}
    (h : ∀ a ∈ as, text a ≠ []) : as.length ≤ (joined text as).length := by
  fun_induction joined text as with
  | case1 => exact Nat.le_refl _
  | case2 a => exact List.length_pos_of_ne_nil (h a (by simp))
  | case3 a rest _ ih =>
    have hrest := ih fun b hb => h b (by simp [hb])
    simp only [List.length_cons, List.length_append]
    omega

end TextStream.Value
