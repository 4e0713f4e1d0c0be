import TextStream.Decimal.Numeral
import TextStream.Proofs.Value.Members
import TextStream.Text.Hex
import TextStream.Value.Basic

/-!
# The language of documents

Which texts are documents and what they mean, said without a cursor. Each part
of the language relates what is meant to a text that means it: `Numeral` for
numbers, `Quoted` for strings, `Written` for values of any nesting. A document
is a written value with blanks around it.
-/

namespace TextStream.Document

-- ---------------------------------------------------------------------------
-- Blanks and numbers
-- ---------------------------------------------------------------------------

def blanks : List Char :=
  [' ', '\t', '\n', '\r', '\x0c']

def Blanks (w : List Char) : Prop :=
  ∀ x ∈ w, x ∈ blanks

theorem blanks_nil : Blanks [] := by
  simp [Blanks]

def Digits (w : List Char) : Prop :=
  w ≠ [] ∧ ∀ x ∈ w, x.isDigit = true

/-- A zero that stands alone, or digits of which the first is another one. -/
def Whole (w : List Char) : Prop :=
  w = ['0'] ∨ Digits w ∧ w.head? ≠ some '0'

inductive Sign : Bool → List Char → Prop
  | absent : Sign false []
  | minus : Sign true ['-']

/-- The digits after the point, and the text of point and digits. -/
inductive Fraction : List Char → List Char → Prop
  | absent : Fraction [] []
  | point {ds : List Char} : Digits ds → Fraction ds ('.' :: ds)

inductive PowerSign : Bool → List Char → Prop
  | absent : PowerSign false []
  | plus : PowerSign false ['+']
  | minus : PowerSign true ['-']

/-- The power of ten that an exponent names. -/
inductive Power : Int → List Char → Prop
  | absent : Power 0 []
  | marked {e : Char} {negative : Bool} {s ds : List Char} :
      e ∈ ['e', 'E'] → PowerSign negative s → Digits ds →
      Power (if negative then -(Decimal.ofDigits ds : Int) else Decimal.ofDigits ds) (e :: s ++ ds)

/-- A point moves the exponent down by the digits behind it. -/
inductive Numeral : Decimal.Numeral → List Char → Prop
  | parts {negative : Bool} {exponent : Int} {s w ds f p : List Char} :
      Sign negative s → Whole w → Fraction ds f → Power exponent p →
      Numeral ⟨negative, Decimal.ofDigits (w ++ ds), exponent - ds.length⟩ (s ++ w ++ f ++ p)

-- ---------------------------------------------------------------------------
-- Strings
-- ---------------------------------------------------------------------------

/-- The letters after a backslash, each with the code point it stands for. -/
def letters : List (Char × Char) :=
  [('"', '"'), ('\\', '\\'), ('/', '/'), ('b', '\x08'), ('f', '\x0c'), ('n', '\n'), ('r', '\r'),
    ('t', '\t')]

/-- Four hexadecimal digits of either case and the UTF-16 unit they name. -/
def HexUnit (ds : List Char) (unit : Nat) : Prop :=
  ds.length = 4 ∧ Text.ofHex? ds = some unit

/-- The ways to write one code point of a string. A unit that is a surrogate is
no code point, so `unit` leaves these to `pair`. -/
inductive Spelling : Char → List Char → Prop
  | raw {x : Char} : x ≠ '"' → x ≠ '\\' → Spelling x [x]
  | letter {x y : Char} : (x, y) ∈ letters → Spelling y ['\\', x]
  | unit {y : Char} {ds : List Char} : HexUnit ds y.toNat → Spelling y ('\\' :: 'u' :: ds)
  | pair {y : Char} {ds es : List Char} {high low : Nat} :
      HexUnit ds high → 0xD800 ≤ high → high ≤ 0xDBFF →
      HexUnit es low → 0xDC00 ≤ low → low ≤ 0xDFFF →
      y.toNat = 0x10000 + (high - 0xD800) * 0x400 + (low - 0xDC00) →
      Spelling y ('\\' :: 'u' :: ds ++ '\\' :: 'u' :: es)

inductive Spelled : List Char → List Char → Prop
  | nil : Spelled [] []
  | cons {x : Char} {xs w ws : List Char} :
      Spelling x w → Spelled xs ws → Spelled (x :: xs) (w ++ ws)

inductive Quoted : String → List Char → Prop
  | quotes {s : String} {w : List Char} : Spelled s.toList w → Quoted s ('"' :: w ++ ['"'])

-- ---------------------------------------------------------------------------
-- Values
-- ---------------------------------------------------------------------------

section
variable {α : Type}

/-- One or more items with commas between them and blanks around the commas. -/
inductive Listed (Item : α → List Char → Prop) : List α → List Char → Prop
  | one {a : α} {w b : List Char} : Item a w → Blanks b → Listed Item [a] (w ++ b)
  | more {a : α} {as : List α} {w b b' ws : List Char} :
      Item a w → Blanks b → Blanks b' → Listed Item as ws →
      Listed Item (a :: as) (w ++ b ++ ',' :: b' ++ ws)

inductive Bracketed (left right : Char) (Item : α → List Char → Prop) :
    List α → List Char → Prop
  | empty {b : List Char} : Blanks b → Bracketed left right Item [] (left :: b ++ [right])
  | items {as : List α} {b w : List Char} :
      Blanks b → Listed Item as w → Bracketed left right Item as (left :: b ++ w ++ [right])

/-- A key and what belongs to it. -/
inductive Entry (Item : α → List Char → Prop) : String × α → List Char → Prop
  | colon {key : String} {a : α} {k b b' w : List Char} :
      Quoted key k → Blanks b → Blanks b' → Item a w →
        Entry Item (key, a) (k ++ b ++ ':' :: b' ++ w)

end

/-- The text is a way to write the value. -/
inductive Written : Value → List Char → Prop
  | nullWord : Written .null "null".toList
  | trueWord : Written (.boolean true) "true".toList
  | falseWord : Written (.boolean false) "false".toList
  | number {n : Decimal.Numeral} {w : List Char} : Numeral n w → Written (.number n.toFloat) w
  | string {s : String} {w : List Char} : Quoted s w → Written (.string s) w
  | array {vs : List Value} {w : List Char} :
      Bracketed '[' ']' Written vs w → Written (.array vs) w
  | object {es : List (String × Value)} {ms : Members Value} {w : List Char} :
      Bracketed '{' '}' (Entry Written) es w → Members.Collects es ms → Written (.object ms) w

/-- A written value with nothing but blanks around it. -/
inductive Means : List Char → Value → Prop
  | padded {b w b' : List Char} {v : Value} :
      Blanks b → Written v w → Blanks b' → Means (b ++ w ++ b') v

end TextStream.Document
