import TextStream.Assembly.Event

/-!
# Assembling a tree

The tree assembler holds the root it was last given. Keyed children go into an
object, unkeyed ones into an array; a child that fits neither way is left out.
-/

namespace TextStream.Tree

abbrev Held := Option Value

/-- Whether a child with this key has a place in the root. -/
def fits : Held → Option String → Bool
  | some (.object _), some _ => true
  | some (.array _), none => true
  | _, _ => false

def receive : Held → Event → Held
  | _, .start template => some template
  | some (.object ms), .child v (some key) => some (.object (Members.insert key v ms))
  | some (.array items), .child v none => some (.array (items ++ [v]))
  | root, .child _ _ => root
  | root, .complete => root

def refusal? (root : Held) : Event → Option Refusal
  | .child _ key => if fits root key then none else some ⟨key.isSome, root.map Value.kind⟩
  | .start _ | .complete => none

def assembler : Assembler Held Value where
  receive := receive
  refusal? := refusal?
  output := id

inductive Command where
  | event (e : Event)
  /-- Hands the root over and forgets it. -/
  | take

def perform : Held → Command → Held
  | root, .event e => receive root e
  | _, .take => none

end TextStream.Tree
