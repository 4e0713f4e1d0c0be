/-!
# Members of an object

An object's members are kept as a list of keyed values in which every key is
smaller than the keys after it, so each key occurs once and two objects with
the same members are the same list. Keys compare code point by code point.
-/

namespace TextStream

abbrev Members (α : Type) := List (String × α)

namespace Members

variable {α : Type}

/-- Puts `v` under `key`, in place of what was there. -/
def insert (key : String) (v : α) : Members α → Members α
  | [] => [(key, v)]
  | (k, w) :: rest =>
    if key < k then (key, v) :: (k, w) :: rest
    else if key = k then (key, v) :: rest
    else (k, w) :: insert key v rest

/-- Inserts in order, so the last of several values under one key stays. -/
def ofList (entries : List (String × α)) : Members α :=
  entries.foldl (fun ms e => insert e.1 e.2 ms) []

def find? (key : String) : Members α → Option α
  | [] => none
  | (k, v) :: rest => if k = key then some v else find? key rest

/-- Every key is smaller than all keys after it. -/
def Sorted (ms : Members α) : Prop :=
  ms.Pairwise (fun a b => a.1 < b.1)

theorem find?_insert (key : String) (v : α) (ms : Members α) (k : String) :
    find? k (insert key v ms) = if k = key then some v else find? k ms := by
  induction ms with
  | nil => simp [insert, find?, eq_comm]
  | cons e rest ih => grind [insert, find?]

end Members

end TextStream
