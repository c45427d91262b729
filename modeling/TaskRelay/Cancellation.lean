/-!
# Cancellation

A token is cancelled when its own mark is, or that of a token it was derived
from. Cancelling a child leaves its parent and its siblings alone.
-/

set_option autoImplicit false

namespace TaskRelay

structure Token where
  mark : Nat
  ancestors : List Nat
  deriving DecidableEq, Repr

structure Cancellations where
  next : Nat
  cancelled : List Nat
  deriving DecidableEq, Repr

namespace Cancellations

def start : Cancellations := ⟨0, []⟩

def fresh (c : Cancellations) : Cancellations × Token :=
  ({ c with next := c.next + 1 }, ⟨c.next, []⟩)

def child (c : Cancellations) (t : Token) : Cancellations × Token :=
  ({ c with next := c.next + 1 }, ⟨c.next, t.mark :: t.ancestors⟩)

def cancel (c : Cancellations) (t : Token) : Cancellations :=
  { c with cancelled := t.mark :: c.cancelled }

def isCancelled (c : Cancellations) (t : Token) : Bool :=
  (t.mark :: t.ancestors).any c.cancelled.contains

end Cancellations

end TaskRelay
