import TaskRelay.Json.Scanner

/-!
# The value of a JSON number

A number without point and exponent that fits 64 bits is whole. Any other is a
double: the first digits that fit 64 bits form a significand, later digits of
the whole part only raise the decimal exponent, later ones of the fraction are
dropped, and the significand is scaled by a power of ten. A number too large for
a double is refused, one too small becomes zero.
-/

set_option autoImplicit false

namespace TaskRelay.Json

structure Significand where
  value : Nat
  scale : Int
  full : Bool
  deriving DecidableEq, Repr

def Significand.pushWhole (s : Significand) (d : Nat) : Significand :=
  if s.full then { s with scale := s.scale + 1 }
  else if s.value * 10 + d < 0x10000000000000000 then { s with value := s.value * 10 + d }
  else { s with scale := s.scale + 1, full := true }

def Significand.pushFraction (s : Significand) (d : Nat) : Significand :=
  if s.full then s
  else if s.value * 10 + d < 0x10000000000000000 then
    { s with value := s.value * 10 + d, scale := s.scale - 1 }
  else { s with full := true }

def Significand.ofWhole (ds : List Nat) : Significand := ds.foldl pushWhole ⟨0, 0, false⟩

/-- The digits of the fraction start afresh: one of them may still fit where a
digit of the whole part did not. -/
def Significand.addFraction (s : Significand) (ds : List Nat) : Significand :=
  ds.foldl pushFraction { s with full := false }

def maxExponent : Nat := 2147483647

def exponentValue? (ds : List Nat) : Option Nat :=
  ds.foldlM (fun n d => if n * 10 + d ≤ maxExponent then some (n * 10 + d) else none) 0

def powerOfTen (k : Nat) : Float := Float.ofScientific 1 false k

def scaled (x : Float) (e : Int) : Except Fault Float :=
  if e.natAbs ≤ 308 then
    if 0 ≤ e then
      let y := x * powerOfTen e.natAbs
      if y.isInf then .error .malformed else .ok y
    else .ok (x / powerOfTen e.natAbs)
  else if x == 0 then .ok x
  else if 0 ≤ e then .error .malformed
  else scaled (x / powerOfTen 308) (e + 308)
termination_by e.natAbs
decreasing_by omega

def signed (negative : Bool) (x : Float) : Json := .real (if negative then -x else x)

def Significand.toReal (s : Significand) (negative : Bool) :
    Option (Bool × List Nat) → Except Fault Json
  | none => (scaled (Float.ofNat s.value) s.scale).map (signed negative)
  | some (down, ds) =>
    match exponentValue? ds with
    | some n =>
      let e := if down then s.scale - n else s.scale + n
      (scaled (Float.ofNat s.value) e).map (signed negative)
    | none =>
      if s.value ≠ 0 ∧ down = false then .error .malformed else .ok (signed negative 0)

/-- The value of a number without point and exponent whose digits all fit. A
zero with a minus sign is a double, and so is a number below the signed range. -/
def wholeValue (negative : Bool) (n : Nat) : Json :=
  if negative then
    if h : 0 < n ∧ n ≤ 0x8000000000000000 then .whole ⟨-(n : Int), by omega, by omega⟩
    else .real (-Float.ofNat n)
  else
    match ofNat? n with
    | some v => v
    | none => .real (Float.ofNat n)

def Numeral.value (n : Numeral) : Except Fault Json :=
  let s := Significand.ofWhole n.whole
  match n.fraction, n.exponent with
  | none, none => if s.full then s.toReal n.negative none else .ok (wholeValue n.negative s.value)
  | none, some e => s.toReal n.negative (some e)
  | some ds, e => (s.addFraction ds).toReal n.negative e

def number (negative : Bool) (s : Bytes) : Except Fault (Front Json) := do
  let (n, rest) ← numeral negative s
  let v ← n.value
  .ok (v, rest)

end TaskRelay.Json
