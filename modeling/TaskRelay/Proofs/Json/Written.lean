import TaskRelay.Json.Basic
import TaskRelay.Text.Hex

/-!
# JSON texts as they are written

What the grammar of JSON leaves open about a text is kept beside what it says: the blanks
between any two tokens, the escapes in a string, the digits of a number, and all members of an
object, the order and the repetitions included. Every such text is well formed, and it stands
for a value if its strings have no half of a surrogate pair alone and its numbers are integers of
64 bits.
-/

set_option autoImplicit false

namespace TaskRelay.Json

inductive Blank
  | space
  | lineFeed
  | carriageReturn
  | tab
  deriving DecidableEq, Repr

def Blank.char : Blank → Char
  | .space => ' '
  | .lineFeed => '\n'
  | .carriageReturn => '\r'
  | .tab => '\t'

abbrev Gap := List Blank

def gapChars (g : Gap) : List Char := g.map Blank.char

inductive Short
  | quote
  | backslash
  | slash
  | backspace
  | formFeed
  | lineFeed
  | carriageReturn
  | tab
  deriving DecidableEq, Repr

def Short.letter : Short → Char
  | .quote => '"'
  | .backslash => '\\'
  | .slash => '/'
  | .backspace => 'b'
  | .formFeed => 'f'
  | .lineFeed => 'n'
  | .carriageReturn => 'r'
  | .tab => 't'

def Short.char : Short → Char
  | .quote => '"'
  | .backslash => '\\'
  | .slash => '/'
  | .backspace => '\x08'
  | .formFeed => '\x0c'
  | .lineFeed => '\n'
  | .carriageReturn => '\r'
  | .tab => '\t'

structure HexDigit where
  char : Char
  value : Nat
  reads : Text.hexDigit? char = some value

def hexDigitOf (c : Char) (h : (Text.hexDigit? c).isSome = true) : HexDigit :=
  ⟨c, (Text.hexDigit? c).get h, (Option.some_get h).symm⟩

structure CodeUnit where
  first : HexDigit
  second : HexDigit
  third : HexDigit
  fourth : HexDigit

namespace CodeUnit

def chars (u : CodeUnit) : List Char := [u.first.char, u.second.char, u.third.char, u.fourth.char]

def number (u : CodeUnit) : Nat :=
  16 * (16 * (16 * u.first.value + u.second.value) + u.third.value) + u.fourth.value

def IsHigh (u : CodeUnit) : Prop := 0xD800 ≤ u.number ∧ u.number ≤ 0xDBFF

def IsLow (u : CodeUnit) : Prop := 0xDC00 ≤ u.number ∧ u.number ≤ 0xDFFF

instance (u : CodeUnit) : Decidable u.IsHigh := inferInstanceAs (Decidable (_ ∧ _))

instance (u : CodeUnit) : Decidable u.IsLow := inferInstanceAs (Decidable (_ ∧ _))

def joined (high low : CodeUnit) : Char :=
  Char.ofNat (0x10000 + (high.number - 0xD800) * 0x400 + (low.number - 0xDC00))

end CodeUnit

def IsPlain (c : Char) : Prop := c ≠ '"' ∧ c ≠ '\\' ∧ 0x20 ≤ c.toNat

instance : DecidablePred IsPlain := fun c =>
  inferInstanceAs (Decidable (c ≠ '"' ∧ c ≠ '\\' ∧ 0x20 ≤ c.toNat))

inductive Piece
  | plain (c : Char) (h : IsPlain c)
  | short (s : Short)
  | unit (u : CodeUnit)

def Piece.chars : Piece → List Char
  | .plain c _ => [c]
  | .short s => ['\\', s.letter]
  | .unit u => '\\' :: 'u' :: u.chars

def pieceChars (ps : List Piece) : List Char := ps.flatMap Piece.chars

def plainPieces (s : String) : List Piece :=
  s.toList.filterMap fun c => if h : IsPlain c then some (.plain c h) else none

/-- What a string stands for. Half of a surrogate pair alone stands for nothing. -/
def content? : List Piece → Option (List Char)
  | [] => some []
  | .plain c _ :: ps => (content? ps).map (c :: ·)
  | .short s :: ps => (content? ps).map (s.char :: ·)
  | .unit u :: ps =>
    if u.IsLow then none
    else if u.IsHigh then
      match ps with
      | .unit low :: rest =>
        if low.IsLow then (content? rest).map (u.joined low :: ·) else none
      | _ => none
    else (content? ps).map (Char.ofNat u.number :: ·)

structure Digits where
  chars : List Char
  ne_nil : chars ≠ []
  digits : ∀ c ∈ chars, c.isDigit = true

namespace Digits

def number (ds : Digits) : Nat := Nat.ofDigitChars 10 ds.chars 0

end Digits

inductive ExponentSign
  | bare
  | plus
  | minus
  deriving DecidableEq, Repr

def ExponentSign.chars : ExponentSign → List Char
  | .bare => []
  | .plus => ['+']
  | .minus => ['-']

structure Exponent where
  capital : Bool
  sign : ExponentSign
  digits : Digits

def Exponent.chars (e : Exponent) : List Char :=
  (if e.capital then 'E' else 'e') :: (e.sign.chars ++ e.digits.chars)

structure Numeric where
  negative : Bool
  whole : Digits
  unpadded : whole.chars.head? = some '0' → whole.chars = ['0']
  fraction : Option Digits
  exponent : Option Exponent

namespace Numeric

def fractionChars : Option Digits → List Char
  | none => []
  | some ds => '.' :: ds.chars

def exponentChars : Option Exponent → List Char
  | none => []
  | some e => e.chars

def unsignedChars (n : Numeric) : List Char :=
  n.whole.chars ++ (fractionChars n.fraction ++ exponentChars n.exponent)

def chars (n : Numeric) : List Char :=
  if n.negative then '-' :: n.unsignedChars else n.unsignedChars

def IsInteger (n : Numeric) : Prop := n.fraction = none ∧ n.exponent = none

instance (n : Numeric) : Decidable n.IsInteger :=
  decidable_of_iff (n.fraction.isNone ∧ n.exponent.isNone) (by
    rw [IsInteger, Option.isNone_iff_eq_none, Option.isNone_iff_eq_none])

def value? (n : Numeric) : Option Json :=
  if n.IsInteger then
    if n.negative then
      if n.whole.number = 0 then some (.real (-Float.ofNat 0))
      else if h : n.whole.number ≤ 0x8000000000000000 then
        some (.whole ⟨-(n.whole.number : Int), by omega, by omega⟩)
      else none
    else if h : n.whole.number < 0x10000000000000000 then
      some (.whole ⟨n.whole.number, by omega, by omega⟩)
    else none
  else none

end Numeric

structure Slot where
  before : Gap
  lead : Gap

def Slot.chars (s : Slot) (first : Bool) : List Char :=
  gapChars s.before ++ ((if first then [] else [',']) ++ gapChars s.lead)

structure Label where
  slot : Slot
  name : List Piece
  beforeColon : Gap
  afterColon : Gap

namespace Label

def name? (l : Label) : Option String := (content? l.name).map String.ofList

def nameChars (l : Label) (first : Bool) : List Char :=
  l.slot.chars first ++ '"' :: (pieceChars l.name ++ ['"'])

def chars (l : Label) (first : Bool) : List Char :=
  l.nameChars first ++ (gapChars l.beforeColon ++ ':' :: gapChars l.afterColon)

end Label

inductive Written
  | null
  | bool (b : Bool)
  | number (n : Numeric)
  | text (ps : List Piece)
  | list (items : List (Slot × Written)) (close : Gap)
  | object (members : List (Label × Written)) (close : Gap)

namespace Written

mutual

def chars : Written → List Char
  | .null => ['n', 'u', 'l', 'l']
  | .bool true => ['t', 'r', 'u', 'e']
  | .bool false => ['f', 'a', 'l', 's', 'e']
  | .number n => n.chars
  | .text ps => '"' :: (pieceChars ps ++ ['"'])
  | .list items close => '[' :: (itemChars true items ++ (gapChars close ++ [']']))
  | .object members close => '\x7b' :: (memberChars true members ++ (gapChars close ++ ['\x7d']))

def itemChars (first : Bool) : List (Slot × Written) → List Char
  | [] => []
  | (s, w) :: ws => s.chars first ++ (chars w ++ itemChars false ws)

def memberChars (first : Bool) : List (Label × Written) → List Char
  | [] => []
  | (l, w) :: ms => l.chars first ++ (chars w ++ memberChars false ms)

end

mutual

def value? : Written → Option Json
  | .null => some .null
  | .bool b => some (.bool b)
  | .number n => n.value?
  | .text ps => (content? ps).map fun cs => .text (String.ofList cs)
  | .list items _ => (items? items).map .list
  | .object members _ => (members? [] members).map .object

def items? : List (Slot × Written) → Option (List Json)
  | [] => some []
  | (_, w) :: ws => (value? w).bind fun v => (items? ws).map (v :: ·)

def members? (t : Table String Json) : List (Label × Written) → Option (Table String Json)
  | [] => some t
  | (l, w) :: ms =>
    l.name?.bind fun k => (value? w).bind fun v => members? (Table.insert k v t) ms

end

mutual

def nesting : Written → Nat
  | .list items _ => itemsNesting items + 1
  | .object members _ => membersNesting members + 1
  | _ => 0

def itemsNesting : List (Slot × Written) → Nat
  | [] => 0
  | (_, w) :: ws => max (nesting w) (itemsNesting ws)

def membersNesting : List (Label × Written) → Nat
  | [] => 0
  | (_, w) :: ms => max (nesting w) (membersNesting ms)

end

end Written

end TaskRelay.Json
