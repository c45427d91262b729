import TaskRelay.Worker.Request

/-!
# The window of a request

The attempts of a request follow one another without a gap, so a request is under way for as
long as its attempts take together and no longer. Only the last of them ends it for want of an
entry. A request that finds the handoff open and an entry in the slot leaves with the entry,
unless it sleeps through its attempt because nobody called it.
-/

set_option autoImplicit false

namespace TaskRelay

inductive Handoff.Finds {α : Type} (h : Handoff α) (now deadline : Nat) :
    Progress Take (Taken α) → Prop
  | closed (shut : h.closed = true) : Finds h now deadline (.done .closed)
  | item {a : α} (opened : h.closed = false) (slot : h.slot = some a) :
      Finds h now deadline (.done (.item a))
  | timedOut (opened : h.closed = false) (late : deadline ≤ now) :
      Finds h now deadline (.done .timedOut)
  | waits {t : Take} (opened : h.closed = false) (early : now < deadline)
      (due : t.deadline = deadline) : Finds h now deadline (.waiting t)

section
variable {α : Type} (h : Handoff α)

theorem Handoff.look_finds (now deadline : Nat) :
    h.Finds now deadline (h.lookInSlot now deadline).2 := by
  unfold lookInSlot
  dsimp only
  split
  · next hc => exact .closed hc
  · next hc =>
    have opened : h.closed = false := Bool.eq_false_iff.mpr hc
    split
    · next a hs => exact .item opened hs
    · split
      · next hd => exact .timedOut opened hd
      · next hd => exact .waits opened (Nat.lt_of_not_le hd) rfl

theorem Take.resume_finds (t : Take) (now : Nat) :
    h.Finds now t.deadline (t.resume h now).2 := by
  unfold resume
  split
  · next hc => exact .closed hc
  · next hc =>
    have opened : h.closed = false := Bool.eq_false_iff.mpr hc
    split
    · have hl := Handoff.look_finds { h with offered := h.offered.answer t.ticket } now t.deadline
      generalize (Handoff.lookInSlot { h with offered := h.offered.answer t.ticket } now
        t.deadline).2 = p at hl
      cases hl with
      | closed shut => exact .closed shut
      | item opened slot => exact .item opened slot
      | timedOut opened late => exact .timedOut opened late
      | waits opened early due => exact .waits opened early due
    · split
      · next hd => exact .timedOut opened hd
      · next hd => exact .waits opened (Nat.lt_of_not_le hd) rfl

end

namespace Request

def window : Nat := maxAttempts * pollInterval

example : window = 5000 := by decide

inductive OnTime (t now : Nat) : Request → Prop
  | fresh (start : now = t) : OnTime t now .fresh
  | between {n : Nat} (few : n ≤ maxAttempts) (start : now = t + n * pollInterval) :
      OnTime t now (.between n)
  | taking {n : Nat} {tk : Take} (few : n < maxAttempts)
      (due : tk.deadline = t + (n + 1) * pollInterval) (since : t + n * pollInterval ≤ now)
      (bound : now ≤ tk.deadline) : OnTime t now (.taking n tk)

inductive Proceeds (t now : Nat) (h : Handoff Entry) :
    Progress Request (Except WorkerError Entry) → Prop
  | runs {r : Request} (onTime : r.OnTime t now) : Proceeds t now h (.running r)
  | waits {r : Request} (onTime : r.OnTime t now) : Proceeds t now h (.waiting r)
  | item {e : Entry} (opened : h.closed = false) (slot : h.slot = some e) :
      Proceeds t now h (.done (.ok e))
  | closed (shut : h.closed = true) : Proceeds t now h (.done (.error .queueHasBeenClosed))
  | empty (last : now = t + window) : Proceeds t now h (.done (.error .noTaskInQueue))

section
variable {t now : Nat} {r : Request}

/-- An attempt goes on, or ends the request, or is over at its deadline. -/
theorem finds_proceeds {k : Worker} {h : Handoff Entry} {n deadline : Nat}
    {p : Progress Take (Taken Entry)} (hp : k.handoff.Finds now deadline p) (few : n < maxAttempts)
    (due : deadline = t + (n + 1) * pollInterval) (since : t + n * pollInterval ≤ now)
    (bound : now ≤ deadline) : Proceeds t now k.handoff (afterTake k n h p).2.2 := by
  cases hp with
  | closed shut => exact .closed shut
  | item opened slot => exact .item opened slot
  | timedOut opened late => exact .runs (.between few ((Nat.le_antisymm bound late).trans due))
  | waits opened early hd => exact .waits (.taking few (hd.trans due) since (hd ▸ bound))

theorem OnTime.step (h : r.OnTime t now) (k : Worker) :
    Proceeds t now k.handoff (r.step now k).2.2 := by
  cases h with
  | fresh start => exact .runs (.between (Nat.zero_le _) (by simpa using start))
  | @between n few start =>
    simp only [Request.step]
    split
    · next hn =>
      refine finds_proceeds (Handoff.look_finds k.handoff now (now + pollInterval)) hn ?_
        (Nat.le_of_eq start.symm) (Nat.le_add_right _ _)
      rw [start, Nat.add_assoc, Nat.succ_mul]
    · next hn =>
      obtain rfl : n = maxAttempts := Nat.le_antisymm few (Nat.le_of_not_lt hn)
      exact .empty start
  | @taking n tk few due since bound =>
    exact finds_proceeds (tk.resume_finds k.handoff now) few due since bound

theorem OnTime.since (h : r.OnTime t now) : t ≤ now := by
  cases h with
  | fresh start => exact Nat.le_of_eq start.symm
  | between few start => exact Nat.le.intro start.symm
  | taking few due since => exact Nat.le_trans (Nat.le_add_right _ _) since

theorem attempts_le {n : Nat} (few : n ≤ maxAttempts) : t + n * pollInterval ≤ t + window :=
  Nat.add_le_add_left (Nat.mul_le_mul_right _ few) _

theorem OnTime.bound (h : r.OnTime t now) : now ≤ t + window := by
  cases h with
  | fresh start =>
    rw [start]
    exact Nat.le_add_right _ _
  | between few start =>
    rw [start]
    exact attempts_le few
  | taking few due since bound =>
    rw [due] at bound
    exact Nat.le_trans bound (attempts_le few)

/-- A request can go on, or waits for a deadline within its window. -/
theorem OnTime.pressed (h : r.OnTime t now) (k : Worker) :
    r.woken now k = true ∨ ∃ d ∈ r.deadline?, now < d ∧ d ≤ t + window := by
  cases h with
  | fresh | between => exact Or.inl rfl
  | @taking n tk few due since bound =>
    rcases Nat.lt_or_ge now tk.deadline with hlt | hge
    · refine Or.inr ⟨tk.deadline, rfl, hlt, ?_⟩
      rw [due]
      exact attempts_le few
    · exact Or.inl (by simp [woken, Take.woken, hge])

/-- Time that passes while a request sleeps leaves it on time. -/
theorem OnTime.wait (h : r.OnTime t now) {k : Worker} {millis : Nat}
    (asleep : r.woken now k = false) (inTime : ∀ d ∈ r.deadline?, now < d → now + millis ≤ d) :
    r.OnTime t (now + millis) := by
  cases h with
  | fresh | between => cases asleep
  | @taking n tk few due since bound =>
    have early : now < tk.deadline := by
      simp only [woken, Take.woken, Bool.or_eq_false_iff, decide_eq_false_iff_not] at asleep
      exact Nat.lt_of_not_le asleep.2
    exact .taking few due (Nat.le_add_right_of_le since) (inTime _ rfl early)

def overdue : Request → Nat
  | .between _ => 1
  | _ => 2

theorem overdue_pos (r : Request) : 0 < r.overdue := by
  cases r <;> exact Nat.zero_lt_succ _

theorem OnTime.late_woken (h : r.OnTime t (t + window)) (k : Worker) :
    r.woken (t + window) k = true :=
  (h.pressed k).resolve_right fun ⟨_, _, hlt, hle⟩ => Nat.not_lt.mpr hle hlt

/-- At the end of its window a request ends, or its last attempt does. -/
theorem OnTime.late_step (h : r.OnTime t (t + window)) (k : Worker) :
    (∃ x, (r.step (t + window) k).2.2 = .done x) ∨
      ∃ r', (r.step (t + window) k).2.2 = .running r' ∧ r'.overdue < r.overdue := by
  cases h with
  | fresh start =>
    have hpos : 0 < window := by decide
    omega
  | @between n few start =>
    have hn : n = maxAttempts :=
      (Nat.eq_of_mul_eq_mul_right (by decide) (Nat.add_left_cancel start)).symm
    exact Or.inl ⟨_, by rw [Request.step, if_neg (by omega)]⟩
  | @taking n tk few due since bound =>
    have hfinds := tk.resume_finds k.handoff (t + window)
    simp only [Request.step]
    generalize tk.resume k.handoff (t + window) = p at hfinds
    obtain ⟨h, p⟩ := p
    cases hfinds with
    | closed | item => exact Or.inl ⟨_, rfl⟩
    | timedOut => exact Or.inr ⟨_, rfl, Nat.lt_succ_self 1⟩
    | waits opened early =>
      rw [due] at early
      exact absurd (attempts_le few) (Nat.not_le.mpr early)

def unserved : Request → Nat
  | .fresh => 2
  | _ => 1

theorem unserved_pos (r : Request) : 0 < r.unserved := by
  cases r <;> exact Nat.zero_lt_succ _

/-- A request that has begun and, if it waits, was called takes the entry that lies in the
slot. -/
theorem OnTime.gets (h : r.OnTime t now) (hr : r ≠ .fresh) (early : now < t + window) {k : Worker}
    (opened : k.handoff.closed = false) {e : Entry} (slot : k.handoff.slot = some e)
    (called : ∀ n tk, r = .taking n tk → k.handoff.offered.isCalled tk.ticket = true) :
    (r.step now k).2.2 = .done (.ok e) := by
  cases h with
  | fresh => exact absurd rfl hr
  | @between n few start =>
    have hn : n < maxAttempts :=
      Nat.lt_of_mul_lt_mul_right (Nat.lt_of_add_lt_add_left (start ▸ early))
    simp [Request.step, if_pos hn, Handoff.beginTake, Handoff.lookInSlot, opened, slot, afterTake]
  | @taking n tk =>
    simp [Request.step, Take.resume, opened, called n tk rfl, Handoff.lookInSlot, slot, afterTake]

end

end Request

end TaskRelay
