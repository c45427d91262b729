/-!
# Bells

A bell calls one waiter at a time, the oldest first. Rung with nobody waiting,
it keeps one permit, which the next waiter to come uses up. A waiter that leaves
after it was called and before it answered passes the call on, so no call is
lost.
-/

set_option autoImplicit false

namespace TaskRelay

structure Bell where
  next : Nat
  permit : Bool
  waiting : List Nat
  called : List Nat
  deriving DecidableEq, Repr

namespace Bell

def silent : Bell := ⟨0, false, [], []⟩

def ring (b : Bell) : Bell :=
  match b.waiting with
  | [] => { b with permit := true }
  | t :: ts => { b with waiting := ts, called := b.called ++ [t] }

def settle (b : Bell) : Bell := { b with permit := false }

def join (b : Bell) : Bell × Nat :=
  ({ b with next := b.next + 1, waiting := b.waiting ++ [b.next] }, b.next)

def isCalled (b : Bell) (t : Nat) : Bool := b.called.contains t

def answer (b : Bell) (t : Nat) : Bell := { b with called := b.called.erase t }

def leave (b : Bell) (t : Nat) : Bell :=
  if b.isCalled t then (b.answer t).ring else { b with waiting := b.waiting.erase t }

end Bell

end TaskRelay
