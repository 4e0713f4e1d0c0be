/-!
# Positions in a text

A position counts the line ends that were passed and the code points read
since the last of them, so the first code point of a text sits at `0:1`.
-/

namespace TextStream

structure Position where
  line : Nat := 0
  character : Nat := 0
deriving DecidableEq, Repr

namespace Position

/-- The position after one more code point. -/
def next (p : Position) (endsLine : Bool) : Position :=
  if endsLine then ⟨p.line + 1, 0⟩ else ⟨p.line, p.character + 1⟩

def text (p : Position) : String :=
  toString p.line ++ ":" ++ toString p.character

/-- Lines decide first, then characters. -/
def compare (p q : Position) : Ordering :=
  (Ord.compare p.line q.line).then (Ord.compare p.character q.character)

instance : Ord Position := ⟨compare⟩

/-- The position after reading `cs` from `p`. -/
def after (endsLine : Char → Bool) (p : Position) (cs : List Char) : Position :=
  cs.foldl (fun q c => q.next (endsLine c)) p

theorem after_append (endsLine : Char → Bool) (p : Position) (cs ds : List Char) :
    p.after endsLine (cs ++ ds) = (p.after endsLine cs).after endsLine ds := by
  simp [after]

end Position

end TextStream
