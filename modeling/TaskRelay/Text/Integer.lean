/-!
# Decimal integers with a limit

A signed or unsigned whole number as settings and identifiers write it: an
optional sign, then ASCII digits and nothing else. The digits are taken from
the left, so a number that has outgrown its limit is reported as such even when
a stray character follows.
-/

set_option autoImplicit false

namespace TaskRelay.Text

inductive IntegerFault
  | empty
  | strayDigit
  | tooLarge
  | tooSmall
  deriving DecidableEq, Repr

def IntegerFault.message : IntegerFault → String
  | .empty => "cannot parse integer from empty string"
  | .strayDigit => "invalid digit found in string"
  | .tooLarge => "number too large to fit in target type"
  | .tooSmall => "number too small to fit in target type"

def digit? (c : Char) : Option Nat :=
  if '0' ≤ c ∧ c ≤ '9' then some (c.toNat - 48) else none

def appendDigits (limit : Nat) (beyond : IntegerFault) :
    Nat → List Char → Except IntegerFault Nat
  | n, [] => .ok n
  | n, c :: cs =>
    match digit? c with
    | none => .error .strayDigit
    | some d => if n * 10 + d ≤ limit then appendDigits limit beyond (n * 10 + d) cs
        else .error beyond

def natural (limit : Nat) (s : String) : Except IntegerFault Nat :=
  match s.toList with
  | [] => .error .empty
  | ['+'] => .error .strayDigit
  | '+' :: cs => appendDigits limit .tooLarge 0 cs
  | cs => appendDigits limit .tooLarge 0 cs

def integer (limit : Nat) (s : String) : Except IntegerFault Int :=
  match s.toList with
  | [] => .error .empty
  | ['+'] => .error .strayDigit
  | ['-'] => .error .strayDigit
  | '+' :: cs => (appendDigits limit .tooLarge 0 cs).map Int.ofNat
  | '-' :: cs => (appendDigits (limit + 1) .tooSmall 0 cs).map fun n => -(n : Int)
  | cs => (appendDigits limit .tooLarge 0 cs).map Int.ofNat

def maxU16 : Nat := 65535

def maxU64 : Nat := 18446744073709551615

def maxI64 : Nat := 9223372036854775807

end TaskRelay.Text
