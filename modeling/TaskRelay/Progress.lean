/-!
# Suspended work

A piece of work that waits for others is a value. Stepping it does one
uninterrupted action, after which it can go on at once, waits, or is done. A
step of waiting work that nothing has woken changes nothing.
-/

set_option autoImplicit false

namespace TaskRelay

inductive Progress (σ α : Type)
  | running (s : σ)
  | waiting (s : σ)
  | done (a : α)
  deriving Repr

namespace Progress

variable {σ τ α β : Type}

def within (f : σ → τ) (g : α → β) : Progress σ α → Progress τ β
  | .running s => .running (f s)
  | .waiting s => .waiting (f s)
  | .done a => .done (g a)

end Progress

end TaskRelay
