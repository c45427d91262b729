import TaskRelay.Handoff.Bell
import TaskRelay.Progress

/-!
# The handoff

A single slot between one producer and any number of takers. An offer puts an
item into the slot and ends when a taker has emptied it, or takes the item back
when it is told to stop first. A take ends with the item in the slot, when its
deadline comes, or when the handoff is closed, and a close comes before
anything else.
-/

set_option autoImplicit false

namespace TaskRelay

structure Handoff (α : Type) where
  slot : Option α
  offered : Bell
  taken : Bell
  closed : Bool
  deriving DecidableEq, Repr

inductive Offered (α : Type)
  | accepted
  | stopped (item : α)
  deriving DecidableEq, Repr

inductive Taken (α : Type)
  | item (a : α)
  | timedOut
  | closed
  deriving DecidableEq, Repr

structure Offer where
  ticket : Nat
  deriving DecidableEq, Repr

structure Take where
  ticket : Nat
  deadline : Nat
  deriving DecidableEq, Repr

namespace Handoff

variable {α : Type}

def empty : Handoff α := ⟨none, .silent, .silent, false⟩

/-- Takes the item back. If a taker was faster the offer counts as accepted. -/
def reclaim (h : Handoff α) : Handoff α × Offered α :=
  match h.slot with
  | some a => ({ h with slot := none }, .stopped a)
  | none => (h, .accepted)

def watchSlot (h : Handoff α) (stopped : Bool) : Handoff α × Progress Offer (Offered α) :=
  let h := { h with taken := h.taken.settle }
  if h.slot.isNone then (h, .done .accepted)
  else if stopped then
    let (h, r) := h.reclaim
    (h, .done r)
  else
    let (bell, t) := h.taken.join
    ({ h with taken := bell }, .waiting ⟨t⟩)

def beginOffer (h : Handoff α) (item : α) (stopped : Bool) :
    Handoff α × Progress Offer (Offered α) :=
  watchSlot { h with slot := some item, offered := h.offered.ring } stopped

def lookInSlot (h : Handoff α) (now deadline : Nat) : Handoff α × Progress Take (Taken α) :=
  let h := { h with offered := h.offered.settle }
  if h.closed then (h, .done .closed)
  else match h.slot with
    | some a => ({ h with slot := none, taken := h.taken.ring }, .done (.item a))
    | none =>
      if deadline ≤ now then (h, .done .timedOut)
      else
        let (bell, t) := h.offered.join
        ({ h with offered := bell }, .waiting ⟨t, deadline⟩)

def beginTake (h : Handoff α) (now wait : Nat) : Handoff α × Progress Take (Taken α) :=
  h.lookInSlot now (now + wait)

def close (h : Handoff α) : Handoff α := { h with closed := true }

end Handoff

namespace Offer

variable {α : Type}

def woken (o : Offer) (h : Handoff α) (stopped : Bool) : Bool :=
  stopped || h.taken.isCalled o.ticket

/-- Goes on with a suspended offer. A stop comes before a call. -/
def resume (o : Offer) (h : Handoff α) (stopped : Bool) :
    Handoff α × Progress Offer (Offered α) :=
  if stopped then
    let (h, r) := h.reclaim
    ({ h with taken := h.taken.leave o.ticket }, .done r)
  else if h.taken.isCalled o.ticket then
    Handoff.watchSlot { h with taken := h.taken.answer o.ticket } stopped
  else (h, .waiting o)

def abandon (o : Offer) (h : Handoff α) : Handoff α :=
  { h with taken := h.taken.leave o.ticket }

end Offer

namespace Take

variable {α : Type}

def woken (t : Take) (h : Handoff α) (now : Nat) : Bool :=
  h.closed || h.offered.isCalled t.ticket || t.deadline ≤ now

def abandon (t : Take) (h : Handoff α) : Handoff α :=
  { h with offered := h.offered.leave t.ticket }

/-- Goes on with a suspended take: a close comes first, then a call, then the deadline. -/
def resume (t : Take) (h : Handoff α) (now : Nat) : Handoff α × Progress Take (Taken α) :=
  if h.closed then (t.abandon h, .done .closed)
  else if h.offered.isCalled t.ticket then
    Handoff.lookInSlot { h with offered := h.offered.answer t.ticket } now t.deadline
  else if t.deadline ≤ now then (t.abandon h, .done .timedOut)
  else (h, .waiting t)

end Take

end TaskRelay
