/-!
# Shortest decimal text of a double

The digits are the fewest that read back as the same double and, of those, the
ones nearest to it. They come from exact arithmetic on the value's mantissa and
exponent: on the grid of `n` digits only the value's two neighbours can lie in
the interval of numbers that round to it, and the first `n` from 1 to 17 with a
hit is taken.
-/

set_option autoImplicit false

namespace TaskRelay.Decimal

structure Magnitude where
  mantissa : Nat
  exponent : Int
  deriving DecidableEq, Repr

def leadingBit : Nat := 0x10000000000000

def Magnitude.ofFloat (x : Float) : Magnitude :=
  let bits := x.toBits.toNat
  let fraction := bits % leadingBit
  let biased := bits / leadingBit % 0x800
  if biased == 0 then ⟨fraction, -1074⟩ else ⟨leadingBit + fraction, Int.ofNat biased - 1075⟩

def scaleParts (i j : Int) : Nat × Nat :=
  (Nat.pow 2 i.toNat * Nat.pow 10 j.toNat, Nat.pow 2 (-i).toNat * Nat.pow 10 (-j).toNat)

def compareScaled (a : Nat) (i : Int) (b : Nat) (j : Int) : Ordering :=
  let (up, down) := scaleParts i (-j)
  compare (a * up) (b * down)

/-- Whether `c * 10 ^ x` rounds to the value. The interval of such numbers holds
its ends when the mantissa is even; below a power of two it is half as wide. -/
def Magnitude.reads (v : Magnitude) (c : Nat) (x : Int) : Bool :=
  let narrow := v.mantissa = leadingBit ∧ v.exponent > -1074
  let low := 4 * v.mantissa - (if narrow then 1 else 2)
  let high := 4 * v.mantissa + 2
  let even := v.mantissa % 2 == 0
  let atLow := compareScaled low (v.exponent - 2) c x
  let atHigh := compareScaled high (v.exponent - 2) c x
  (atLow == .lt || (even && atLow == .eq)) && (atHigh == .gt || (even && atHigh == .eq))

def Magnitude.digitsBefore (v : Magnitude) : Nat → Int → Int
  | 0, k => k
  | fuel + 1, k =>
    if compareScaled v.mantissa v.exponent 1 k == .lt then k else v.digitsBefore fuel (k + 1)

def Magnitude.onGrid? (v : Magnitude) (x : Int) : Option Nat :=
  let (up, down) := scaleParts v.exponent (-x)
  let below := v.mantissa * up / down
  let twiceRest := 2 * (v.mantissa * up % down)
  match v.reads below x, v.reads (below + 1) x with
  | true, true =>
    if twiceRest < down ∨ (twiceRest = down ∧ below % 2 = 0) then some below
    else some (below + 1)
  | true, false => some below
  | false, true => some (below + 1)
  | false, false => none

def Magnitude.search (v : Magnitude) : Nat → Int → Nat × Int
  | 0, x => (v.mantissa, x)
  | n + 1, x =>
    match v.onGrid? x with
    | some c => (c, x)
    | none => v.search n (x - 1)

def stripZeros : Nat → Nat × Int → Nat × Int
  | 0, p => p
  | fuel + 1, (c, x) => if c ≠ 0 ∧ c % 10 = 0 then stripZeros fuel (c / 10, x + 1) else (c, x)

def Magnitude.exponentBelow (v : Magnitude) : Int :=
  (v.exponent + v.mantissa.log2) * 30103 / 100000 - 1

def Magnitude.shortest (v : Magnitude) : Nat × Int :=
  stripZeros 20 (v.search 17 (v.digitsBefore 5 v.exponentBelow - 1))

structure Layout where
  plainFrom : Int
  plainBelow : Int

def Layout.write (l : Layout) (digits : List Char) (x : Int) : List Char :=
  let top := x + digits.length - 1
  if l.plainFrom ≤ top ∧ top < l.plainBelow then
    if 0 ≤ x then digits ++ List.replicate x.toNat '0' ++ ['.', '0']
    else if 0 ≤ top then
      digits.take (top + 1).toNat ++ '.' :: digits.drop (top + 1).toNat
    else '0' :: '.' :: (List.replicate (-top - 1).toNat '0' ++ digits)
  else
    let power := (if 0 ≤ top then '+' else '-') :: (toString top.natAbs).toList
    match digits with
    | [d] => d :: 'e' :: power
    | d :: ds => d :: '.' :: ds ++ 'e' :: power
    | [] => 'e' :: power

def Layout.text (l : Layout) (x : Float) : List Char :=
  let v := Magnitude.ofFloat x
  let sign := if 0x8000000000000000 ≤ x.toBits.toNat then ['-'] else []
  if v.mantissa = 0 then sign ++ ['0', '.', '0']
  else
    let (c, e) := v.shortest
    sign ++ l.write (toString c).toList e

end TaskRelay.Decimal
