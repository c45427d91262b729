import TaskRelay.World.Step

/-!
# The schedule

Agents share one thread. Whoever was woken first goes on first and keeps the
thread until it waits or has ended. Of those that one cancellation wakes, the
ones with a derived token go first, the newest token before the others. The clock
stands still while anybody can go on; then it moves straight to the next deadline.
-/

set_option autoImplicit false

namespace TaskRelay

structure Schedule where
  world : World
  ready : List Agent
  idle : List Agent

namespace Schedule

def start (view : StoreView) : Schedule := ⟨.start view, [], []⟩

def runAgent : Nat → World → Agent → World × World.Standing
  | 0, w, _ => (w, .running)
  | fuel + 1, w, a =>
    match w.step a with
    | (w, .running) => runAgent fuel w a
    | r => r

/-- Those of `as` who go on first, before the others: a cancellation reaches the
tokens derived from a token before the token itself, and the one derived last first. -/
def inOrder (w : World) (as : List Agent) : List Agent :=
  let derived := as.filterMap fun a => (w.derivedMark? a).map fun m => (m, a)
  (derived.mergeSort fun a b => b.1 ≤ a.1).map (·.2) ++
    as.filter fun a => (w.derivedMark? a).isNone

def rouse (s : Schedule) : Schedule :=
  let woken := inOrder s.world (s.idle.filter s.world.woken)
  let idle := s.idle.filter fun a => !s.world.woken a
  let ready := s.ready ++ woken
  let fresh := s.world.agents.filter fun a => !(ready.contains a || idle.contains a)
  ⟨s.world, ready ++ fresh, idle⟩

def turn : Nat := 1000000

def advance (s : Schedule) : Schedule :=
  match s.ready with
  | [] => s
  | a :: rest =>
    match runAgent turn s.world a with
    | (w, .running) => rouse ⟨w, rest ++ [a], s.idle⟩
    | (w, .waiting) => rouse ⟨w, rest, s.idle ++ [a]⟩
    | (w, .gone) => rouse ⟨w, rest, s.idle⟩

def nextDeadline? (s : Schedule) : Option Nat :=
  (s.world.deadlines.filter (s.world.now < ·)).min?

def wait (s : Schedule) : Option Schedule :=
  match s.nextDeadline? with
  | some d => some (rouse { s with world := { s.world with now := d } })
  | none => none

def settle : Nat → Schedule → Schedule
  | 0, s => s
  | fuel + 1, s => if s.ready.isEmpty then s else settle fuel s.advance

def await (id : Nat) : Nat → Schedule → Schedule
  | 0, s => s
  | fuel + 1, s =>
    if (s.world.ended? id).isSome then s
    else if s.ready.isEmpty then
      match s.wait with
      | some s => await id fuel s
      | none => s
    else await id fuel s.advance

def change (s : Schedule) (f : World → World) : Schedule := rouse { s with world := f s.world }

def begin (s : Schedule) (c : Call) : Schedule × Nat :=
  let (w, id) := s.world.begin c
  (rouse { s with world := w }, id)

end Schedule

end TaskRelay
