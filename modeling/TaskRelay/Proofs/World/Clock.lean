import TaskRelay.Proofs.Store.Readers
import TaskRelay.Proofs.World.Moves

/-!
# Virtual time

A virtual clock moves only while nobody can go on, and then not past a deadline at which
somebody goes on by itself. The clock of a schedule is one.
-/

set_option autoImplicit false

namespace TaskRelay

namespace World

structure Lull (w : World) (millis : Nat) : Prop where
  nobody : ∀ a ∈ w.agents, w.woken a = false
  inTime : ∀ t ∈ w.deadlines, w.now < t → w.now + millis ≤ t

instance (w : World) (millis : Nat) : Decidable (w.Lull millis) :=
  decidable_of_iff ((∀ a ∈ w.agents, w.woken a = false) ∧
    ∀ t ∈ w.deadlines, w.now < t → w.now + millis ≤ t)
    ⟨fun h => ⟨h.1, h.2⟩, fun h => ⟨h.nobody, h.inTime⟩⟩

def TimelyMove (w : World) : Move → Prop
  | .wait millis => w.Lull millis
  | _ => True

instance (w : World) (m : Move) : Decidable (w.TimelyMove m) := by
  cases m <;> unfold TimelyMove <;> infer_instance

def Timed : List Move → World → Prop
  | [], _ => True
  | m :: ms, w => w.TimelyMove m ∧ Timed ms (w.move m)

instance decidableTimed : (ms : List Move) → (w : World) → Decidable (Timed ms w)
  | [], _ => .isTrue trivial
  | m :: ms, w => @instDecidableAnd _ _ inferInstance (decidableTimed ms (w.move m))

theorem timed_append (ms ms' : List Move) (w : World) :
    Timed (ms ++ ms') w ↔ Timed ms w ∧ Timed ms' (run ms w) := by
  induction ms generalizing w with
  | nil => exact (and_iff_right trivial).symm
  | cons m ms ih => exact (and_congr_right fun _ => ih (w.move m)).trans and_assoc.symm

section
variable {w : World} {n : Nat} {c : Call} (hc : Table.get? n w.calls = some c)
include hc

theorem woken_call : w.woken (.call n) = w.callWoken n c := by
  simp only [woken, hc]

theorem mem_deadlines {d : Nat} (hd : d ∈ callDeadlines c) : d ∈ w.deadlines :=
  List.mem_append_left _ (List.mem_flatMap.mpr ⟨(n, c), Table.mem_of_get? hc, hd⟩)

end

section
variable {w : World} {millis : Nat}

theorem Lull.call (h : w.Lull millis) {n : Nat} {c : Call} (hc : Table.get? n w.calls = some c) :
    w.callWoken n c = false ∧ ∀ t ∈ callDeadlines c, w.now < t → w.now + millis ≤ t := by
  constructor
  · have ha : Agent.call n ∈ w.agents :=
      List.mem_append_left _ (List.mem_map.mpr ⟨(n, c), Table.mem_of_get? hc, rfl⟩)
    exact (woken_call hc).symm.trans (h.nobody _ ha)
  · exact fun t ht => h.inTime t (mem_deadlines hc ht)

theorem Lull.loop (h : w.Lull millis) {i : Nat} {k : Worker} {c : Consumer}
    (hk : w.workers[i]? = some k) (hc : k.consumer = .active c) :
    c.woken w.now (w.isCancelled k.stop) w.store k.handoff = false ∧
      ∀ t ∈ c.deadline?, w.now < t → w.now + millis ≤ t := by
  constructor
  · have ha : Agent.loop i ∈ w.agents := by
      refine List.mem_append_right _ (List.mem_flatten.mpr ⟨[.loop i], ?_, List.mem_singleton_self _⟩)
      obtain ⟨hi, rfl⟩ := List.getElem?_eq_some_iff.mp hk
      exact List.mem_mapIdx.mpr ⟨i, hi, by simp [hc, LoopState.isActive]⟩
    have hw := h.nobody _ ha
    simpa only [woken, hk, hc] using hw
  · intro t ht
    refine h.inTime t (List.mem_append_right _ (List.mem_flatMap.mpr ⟨k, List.mem_of_getElem? hk, ?_⟩))
    simpa [hc] using ht

theorem Lull.still (h : w.Lull millis) (a : Agent) : w.woken a = false := by
  cases a with
  | call n =>
    cases hc : Table.get? n w.calls with
    | none => simp only [woken, hc]
    | some c => exact (woken_call hc).trans (h.call hc).1
  | loop i =>
    cases hk : w.workers[i]? with
    | none => simp only [woken, hk]
    | some k =>
      cases hc : k.consumer with
      | active c =>
        simp only [woken, hk, hc]
        exact (h.loop hk hc).1
      | _ => simp only [woken, hk, hc]

end

/-- The clock of a schedule in which nobody can go on moves so. -/
theorem schedule_lull {s s' : Schedule} (h : s.wait = some s')
    (hw : ∀ a ∈ s.world.agents, s.world.woken a = false) :
    ∃ millis, s.world.Lull millis ∧
      s'.world = { s.world with now := s.world.now + millis } := by
  unfold Schedule.wait at h
  cases hd : s.nextDeadline? with
  | none => simp [hd] at h
  | some d =>
    simp only [hd, Option.some.injEq] at h
    obtain ⟨hm, hmin⟩ := List.min?_eq_some_iff.mp hd
    have hlt : s.world.now < d := by simpa using (List.mem_filter.mp hm).2
    refine ⟨d - s.world.now, ⟨hw, fun t ht hn => ?_⟩, ?_⟩
    · have hle := hmin t (List.mem_filter.mpr ⟨ht, by simpa using hn⟩)
      omega
    · rw [← h, Nat.add_sub_cancel' (Nat.le_of_lt hlt)]
      rfl

end World

end TaskRelay
