import TaskRelay.Table

/-!
# JSON values

The payload of a task. Whole numbers are kept apart from all others and lie in
the joint range of the signed and the unsigned 64-bit integers; every other
number is a finite double. The members of an object stand in increasing order
of their names, each name once.
-/

set_option autoImplicit false

namespace TaskRelay

structure WholeNumber where
  value : Int
  lower : -(0x8000000000000000) ≤ value
  upper : value < 0x10000000000000000
  deriving DecidableEq

inductive Json
  | null
  | bool (b : Bool)
  | whole (n : WholeNumber)
  | real (x : Float)
  | text (s : String)
  | list (items : List Json)
  | object (members : List (String × Json))

namespace Json

instance : Inhabited Json := ⟨.null⟩

mutual

/-- Equality of values. Zeros of both signs are equal; a whole number never
equals a double. -/
def same : Json → Json → Bool
  | .null, .null => true
  | .bool a, .bool b => a == b
  | .whole a, .whole b => a == b
  | .real a, .real b => a == b
  | .text a, .text b => a == b
  | .list a, .list b => sameItems a b
  | .object a, .object b => sameMembers a b
  | _, _ => false

def sameItems : List Json → List Json → Bool
  | [], [] => true
  | a :: as, b :: bs => same a b && sameItems as bs
  | _, _ => false

def sameMembers : List (String × Json) → List (String × Json) → Bool
  | [], [] => true
  | (j, a) :: as, (k, b) :: bs => j == k && same a b && sameMembers as bs
  | _, _ => false

end

def ofNat? (n : Nat) : Option Json :=
  if h : n < 0x10000000000000000 then some (.whole ⟨n, by omega, by omega⟩) else none

def member? (v : Json) (name : String) : Option Json :=
  match v with
  | .object members => Table.get? name members
  | _ => none

end Json

end TaskRelay
