import TaskRelay.Proofs.Runner.Permits
import TaskRelay.Proofs.World.Clock

/-!
# The end of a runner

When its request loop has ended, a runner with runs in flight cancels its token, which
reaches every one of them, and drains: it returns as soon as enough permits are free, or when
its drain time is over. Enough are all of them as long as their number fits 32 bits. Of a
larger capacity only the lower 32 bits count, and the drain does not wait for as many runs as
the others make up.
-/

set_option autoImplicit false

namespace TaskRelay

def Runner.isOver (r : Runner) : Bool :=
  match r.stage with
  | .winding | .draining _ => true
  | _ => false

theorem Runner.not_over {r : Runner} (h : r.stage = .fresh ∨ r.Loops) : r.isOver = false := by
  unfold Runner.Loops at h
  unfold Runner.isOver
  rcases h with h | h
  · rw [h]
  · split at h
    case h_4 => exact False.elim h
    all_goals next hs => rw [hs]

def Runner.unawaited (capacity : Nat) : Nat := capacity - capacity % 0x100000000

theorem Runner.unawaited_none {capacity : Nat} (h : capacity < 0x100000000) :
    unawaited capacity = 0 := by
  rw [unawaited, Nat.mod_eq_of_lt h, Nat.sub_self]

namespace World

def TimelyHappening (w : World) : Happening → Prop
  | .act (.move m) => w.TimelyMove m
  | _ => True

def Timely : List Happening → World → Prop
  | [], _ => True
  | x :: xs, w => w.TimelyHappening x ∧ Timely xs (w.happen x)

theorem timely_append (xs ys : List Happening) (w : World) :
    Timely (xs ++ ys) w ↔ Timely xs w ∧ Timely ys (occur xs w) := by
  induction xs generalizing w with
  | nil => exact (and_iff_right trivial).symm
  | cons x xs ih => exact (and_congr_right fun _ => ih (w.happen x)).trans and_assoc.symm

instance (w : World) (x : Happening) : Decidable (w.TimelyHappening x) := by
  unfold TimelyHappening
  split <;> infer_instance

instance decidableTimely : (xs : List Happening) → (w : World) → Decidable (Timely xs w)
  | [], _ => .isTrue trivial
  | x :: xs, w => @instDecidableAnd _ _ inferInstance (decidableTimely xs (w.happen x))

def overAt? (w : World) (d : Nat) : Option Nat :=
  match w.call? d with
  | some (.driving r) => if r.isOver then some w.now else none
  | _ => none

def loopEnd? (d : Nat) : List Happening → World → Option Nat
  | [], w => w.overAt? d
  | x :: xs, w => (w.overAt? d).or (loopEnd? d xs (w.happen x))

theorem overAt?_none {w : World} {d : Nat}
    (h : ∀ r, w.call? d = some (.driving r) → r.isOver = false) : w.overAt? d = none := by
  unfold overAt?
  split
  · next r hr => rw [h r hr, if_neg Bool.false_ne_true]
  · rfl

theorem loopEnd?_snoc (d : Nat) (xs : List Happening) (x : Happening) (w : World) :
    loopEnd? d (xs ++ [x]) w = (loopEnd? d xs w).or ((occur (xs ++ [x]) w).overAt? d) := by
  induction xs generalizing w with
  | nil => rfl
  | cons y xs ih =>
    rw [List.cons_append, loopEnd?, ih, loopEnd?, Option.or_assoc]
    rfl

inductive Stands (w : World) (d : Nat) (settings : RunnerSettings) (shutdown : Token) :
    Option Nat → Prop
  | loops (r : Runner) (call : w.call? d = some (.driving r)) (same : r.settings = settings)
      (token : r.shutdown = shutdown) (on : r.isOver = false) :
      Stands w d settings shutdown none
  | winding (r : Runner) (call : w.call? d = some (.driving r)) (same : r.settings = settings)
      (token : r.shutdown = shutdown) (stage : r.stage = .winding) :
      Stands w d settings shutdown (some w.now)
  | draining (r : Runner) (t : Nat) (call : w.call? d = some (.driving r))
      (same : r.settings = settings) (token : r.shutdown = shutdown)
      (stage : r.stage = .draining (t + settings.drain)) (since : t ≤ w.now)
      (bound : w.now ≤ t + settings.drain) (cancelled : shutdown.mark ∈ w.tokens.cancelled) :
      Stands w d settings shutdown (some t)
  | returned (t : Nat) (call : w.call? d = none)
      (told : w.inFlight d = 0 ∨ shutdown.mark ∈ w.tokens.cancelled) :
      Stands w d settings shutdown (some t)
  | refused (call : w.call? d = none) (idle : w.inFlight d = 0) :
      Stands w d settings shutdown none

section
variable {w w' : World} {d : Nat} {settings : RunnerSettings} {shutdown : Token} {t? : Option Nat}

theorem Stands.apart (h : w.Stands d settings shutdown t?) (apart : w.Apart d w') :
    w'.Stands d settings shutdown (t?.or (w'.overAt? d)) := by
  cases h with
  | loops r call same token on =>
    have call' := apart.call.trans call
    have past : w'.overAt? d = none := overAt?_none fun r' hr => by
      rw [call'] at hr
      cases hr
      exact on
    rw [past]
    exact .loops r call' same token on
  | winding r call same token stage =>
    rw [← apart.now]
    exact .winding r (apart.call.trans call) same token stage
  | draining r t call same token stage since bound cancelled =>
    exact .draining r t (apart.call.trans call) same token stage (apart.now ▸ since)
      (apart.now ▸ bound) (apart.tokens cancelled)
  | returned t call told =>
    refine .returned t (apart.call.trans call) ?_
    refine told.imp (fun h => ?_) fun h => apart.tokens h
    have less := apart.less
    omega
  | refused call idle =>
    have call' := apart.call.trans call
    have past : w'.overAt? d = none := overAt?_none fun r' hr => by
      rw [call'] at hr
      cases hr
    have less := apart.less
    rw [past]
    exact .refused call' (by omega)

/-- A runner whose loop has just ended lets no time pass, and one that drains not more than
its drain time. -/
theorem Stands.waits (h : w.Stands d settings shutdown t?) {millis : Nat} (hl : w.Lull millis) :
    ({ w with now := w.now + millis } : World).Stands d settings shutdown
      (t?.or (overAt? { w with now := w.now + millis } d)) := by
  cases h with
  | loops r call same token on =>
    have past : overAt? { w with now := w.now + millis } d = none := overAt?_none fun r' hr => by
      cases call.symm.trans hr
      exact on
    rw [past]
    exact .loops r call same token on
  | winding r call same token stage =>
    have hw := (hl.call call).1
    simp [callWoken, runnerWoken, stage] at hw
  | draining r t call same token stage since bound cancelled =>
    obtain ⟨hw, ht⟩ := hl.call call
    simp only [callWoken, runnerWoken, stage, Bool.or_eq_false_iff, decide_eq_false_iff_not] at hw
    have hle := ht (t + settings.drain) (by simp [callDeadlines, runnerDeadlines, stage])
      (Nat.lt_of_not_le hw.2)
    exact .draining r t call same token stage (Nat.le_trans since (Nat.le_add_right _ _)) hle
      cancelled
  | returned t call told => exact .returned t call told
  | refused call idle =>
    have past : overAt? { w with now := w.now + millis } d = none := overAt?_none fun r' hr => by
      cases call.symm.trans hr
    rw [past]
    exact .refused call idle

/-- What is known of a runner under way. -/
theorem Stands.of_call (h : w.Stands d settings shutdown t?) {r : Runner}
    (call : w.call? d = some (.driving r)) : (r.settings = settings ∧ r.shutdown = shutdown) ∧
      ((r.isOver = false ∧ t? = none) ∨ (r.stage = .winding ∧ t? = some w.now) ∨
        ∃ t, r.stage = .draining (t + settings.drain) ∧ t? = some t ∧ t ≤ w.now ∧
          w.now ≤ t + settings.drain ∧ shutdown.mark ∈ w.tokens.cancelled) := by
  cases h with
  | loops r' call' same token on =>
    cases call.symm.trans call'
    exact ⟨⟨same, token⟩, Or.inl ⟨on, rfl⟩⟩
  | winding r' call' same token stage =>
    cases call.symm.trans call'
    exact ⟨⟨same, token⟩, Or.inr (Or.inl ⟨stage, rfl⟩)⟩
  | draining r' t call' same token stage since bound cancelled =>
    cases call.symm.trans call'
    exact ⟨⟨same, token⟩, Or.inr (Or.inr ⟨t, stage, rfl, since, bound, cancelled⟩)⟩
  | returned t call' | refused call' => cases call.symm.trans call'

/-- How a runner stands after a step of its own. -/
theorem Stands.drives {capacity : Nat} (hb : w.Balanced d capacity) (hw : w.Filed)
    (h : w.Stands d settings shutdown t?) {r : Runner} (call : w.call? d = some (.driving r))
    {w₁ : World} {p : Progress Runner Outcome} (step : w.Manages d r (w₁, p)) :
    (w₁.conclude d (p.within .driving fun o => o)).Stands d settings shutdown
      (t?.or ((w₁.conclude d (p.within .driving fun o => o)).overAt? d)) := by
  obtain ⟨⟨same, token⟩, stands⟩ := h.of_call call
  have early (hs : r.stage = .fresh ∨ r.Loops) : t? = none := by
    have on := Runner.not_over hs
    rcases stands with ⟨-, ht⟩ | ⟨hst, -⟩ | ⟨t, hst, -⟩
    · exact ht
    · simp [Runner.isOver, hst] at on
    · simp [Runner.isOver, hst] at on
  have on {w₁ : World} {p : Progress Runner Outcome} {s : Runner}
      (hp : p = .running s ∨ p = .waiting s) :
      (w₁.conclude d (p.within .driving fun o => o)).call? d = some (.driving s) := by
    rw [conclude_same]
    rcases hp with rfl | rfl <;> rfl
  have off {w₁ : World} {o : Outcome} :
      (w₁.conclude d (Progress.within Call.driving (fun o => o) (.done o))).call? d = none :=
    conclude_same _ _ _
  have looping {w₁ : World} {p : Progress Runner Outcome} {s : Runner} (ht : t? = none)
      (hp : p = .running s ∨ p = .waiting s) (hs : s.settings = settings)
      (htok : s.shutdown = shutdown) (hon : s.isOver = false) :
      (w₁.conclude d (p.within .driving fun o => o)).Stands d settings shutdown
        (t?.or ((w₁.conclude d (p.within .driving fun o => o)).overAt? d)) := by
    have past : (w₁.conclude d (p.within .driving fun o => o)).overAt? d = none :=
      overAt?_none fun s' hs' => by
        cases (on hp).symm.trans hs'
        exact hon
    rw [past, ht]
    exact .loops s (on hp) hs htok hon
  cases step with
  | refuses fresh many steady =>
    have past : (w₁.conclude d (Progress.within Call.driving (fun o => o)
        (.done .panicked))).overAt? d = none := overAt?_none fun s hs => by
      cases off.symm.trans hs
    rw [past, early (Or.inl fresh)]
    refine .refused off ?_
    rw [inFlight_drives hw call steady.calls, (hb.idle call fresh).1]
  | «opens» fresh few frees full =>
    exact looping (early (Or.inl fresh)) (Or.inl rfl) same token rfl
  | @goes _ s _ loops next follows frees balance hp =>
    have hs := follows.settings.trans same
    have htok := follows.shutdown.trans token
    rcases next with next | next
    · exact looping (early (Or.inr loops)) hp hs htok (Runner.not_over (Or.inr next))
    · have past : (w₁.conclude d (p.within .driving fun o => o)).overAt? d =
          some (w₁.conclude d (p.within .driving fun o => o)).now := by
        simp [overAt?, on hp, Runner.isOver, next]
      rw [past, early (Or.inr loops)]
      exact .winding s (on hp) hs htok next
  | @dispatches w₂ s c t loops next follows holds spends steady owner =>
    exact looping (early (Or.inr loops)) (Or.inl rfl) (follows.settings.trans same)
      (follows.shutdown.trans token) (Runner.not_over (Or.inr next))
  | @winds w₁ winding active steady cancelled =>
    have ht : t? = some w.now := by
      rcases stands with ⟨on, -⟩ | ⟨-, ht⟩ | ⟨t, hst, -⟩
      · simp [Runner.isOver, winding] at on
      · exact ht
      · rw [winding] at hst
        cases hst
    rw [ht]
    refine .draining _ w.now (on (Or.inl rfl)) same token ?_ ?_ ?_ ?_
    · show RunnerStage.draining (w.now + r.settings.drain) = _
      rw [same]
    · rw [conclude_now, steady.now]
    · rw [conclude_now, steady.now]
      exact Nat.le_add_right _ _
    · rw [conclude_tokens, ← token]
      exact cancelled
  | waits draining short early =>
    rcases stands with ⟨hon, -⟩ | ⟨hst, -⟩ | ⟨t, hst, ht, since, bound, cancelled⟩
    · simp [Runner.isOver, draining] at hon
    · rw [draining] at hst
      cases hst
    · rw [ht]
      exact .draining r t (on (Or.inr rfl)) same token hst since bound cancelled
  | @ends w₁ steady how =>
    rcases stands with ⟨hon, -⟩ | ⟨hst, ht⟩ | ⟨t, hst, ht, -, -, cancelled⟩
    · rcases how with ⟨hst, -⟩ | ⟨t, hst, -⟩ <;> simp [Runner.isOver, hst] at hon
    · rcases how with ⟨-, free⟩ | ⟨t, hst', -⟩
      · obtain ⟨hsum, hcap⟩ := hb.sum call (by simp [hst])
        rw [ht]
        refine .returned w.now off (Or.inl ?_)
        rw [inFlight_drives hw call steady.calls]
        omega
      · rw [hst] at hst'
        cases hst'
    · rw [ht]
      refine .returned t off (Or.inr ?_)
      rw [conclude_tokens]
      exact steady.tokens cancelled

theorem Stands.driver (h : w.Stands d settings shutdown t?) (c : Call) (hc : w.call? d = some c) :
    ∃ r, c = .driving r := by
  cases h with
  | loops r call | winding r call | draining r _ call =>
    cases call.symm.trans hc
    exact ⟨r, rfl⟩
  | returned _ call | refused call => cases call.symm.trans hc

theorem Stands.happen {capacity : Nat} (hb : w.Balanced d capacity) (hw : w.Filed)
    (hd : d < w.nextCall) (h : w.Stands d settings shutdown t?) {x : Happening}
    (ht : w.TimelyHappening x) :
    (w.happen x).Stands d settings shutdown (t?.or ((w.happen x).overAt? d)) := by
  cases happen_concerns hw hd h.driver x with
  | waits millis wait after =>
    subst wait
    rw [after]
    exact h.waits ht
  | apart apart => exact h.apart apart
  | drives call step after => exact after ▸ h.drives hb hw call step

end

def Derived (w : World) (d : Nat) (shutdown : Token) : Prop :=
  ∀ n c t, w.call? n = some c → c.owner? = some d → c.runToken? = some t →
    shutdown.mark ∈ t.marks

def Warned (w : World) (d : Nat) (shutdown : Token) : Prop :=
  ∀ n c, w.call? n = some c → c.owner? = some d →
    w.isCancelled shutdown = true ∧ ∃ t, c.runToken? = some t ∧ w.isCancelled t = true

section
variable {w w' : World} {d : Nat} {shutdown : Token}

theorem Derived.put (h : w.Derived d shutdown) (n : Nat) (left : Option Call)
    (calls : w'.calls = Table.put n left w.calls)
    (new : ∀ c t, left = some c → c.owner? = some d → c.runToken? = some t →
      shutdown.mark ∈ t.marks) : w'.Derived d shutdown := by
  intro m c t hc ho ht
  by_cases hm : m = n
  · subst hm
    rw [call?, calls, Table.get?_put_self] at hc
    exact new c t hc ho ht
  · rw [call?, calls, Table.get?_put_of_ne _ hm] at hc
    exact h m c t hc ho ht

theorem Derived.happen (h : w.Derived d shutdown)
    (driver : ∀ r, w.call? d = some (.driving r) → r.shutdown = shutdown) (x : Happening) :
    (w.happen x).Derived d shutdown := by
  have unowned {c : Call} {t : Token} (hc : c.owner? = none) (ho : c.owner? = some d) :
      shutdown.mark ∈ t.marks := by
    rw [hc] at ho
    cases ho
  cases w.happen_occurs x with
  | rests steady =>
    intro n c t hc
    rw [call?, steady.calls] at hc
    exact h n c t hc
  | waits millis wait after =>
    rw [after]
    exact h
  | enters c opens after =>
    rw [after]
    refine h.put w.nextCall (some c) rfl fun c' t hc' ho _ => ?_
    cases hc'
    exact unowned opens.unowned ho
  | aside left call aside stays onward calls =>
    exact h.put _ left calls fun c t hc ho _ => unowned (stays c hc).unowned ho
  | @runs n e c t w₁ p call owner token step after =>
    rw [after]
    cases step with
    | @goes _ _ c' t' steady left owner' token' derived =>
      refine h.put n (left? p) (by rw [conclude_calls, steady.calls]) ?_
      intro c'' t'' hc'' ho ht
      rw [left] at hc''
      cases hc''
      rw [token'] at ht
      cases ht
      rw [owner'] at ho
      cases ho
      exact derived (h n c t call owner token)
    | ends frees =>
      refine h.put n none (by rw [conclude_calls, frees.calls]; rfl) ?_
      exact fun c' t' hc' => by cases hc'
  | @drives n r w₁ p call step after =>
    rw [after]
    have drives {w₁ : World} (h : w₁.Derived d shutdown) (p : Progress Runner Outcome) :
        (w₁.conclude n (p.within .driving fun o => o)).Derived d shutdown := by
      refine h.put n _ (conclude_calls _ _ _) fun c t hc ho _ => ?_
      obtain ⟨r', rfl⟩ := left?_driving hc
      exact unowned rfl ho
    have same {w₁ : World} (calls : w₁.calls = w.calls) : w₁.Derived d shutdown := by
      intro m c t hc
      rw [call?, calls] at hc
      exact h m c t hc
    cases step with
    | refuses _ _ steady | winds _ _ steady | ends steady => exact drives (same steady.calls) _
    | «opens» _ _ frees | goes _ _ _ frees => exact drives (same frees.calls) _
    | waits => exact drives h _
    | @dispatches w₂ s c t loops next follows holds spends steady owner token derived =>
      refine drives ((same steady.calls).put w₂.nextCall (some c) rfl ?_) _
      intro c' t' hc' ho ht
      cases hc'
      rw [token] at ht
      cases ht
      rw [owner] at ho
      cases ho
      rw [← driver r call]
      exact derived List.mem_cons_self

theorem Derived.warned (h : w.Derived d shutdown) (hc : shutdown.mark ∈ w.tokens.cancelled) :
    w.Warned d shutdown := by
  have cancelled {t : Token} (ht : shutdown.mark ∈ t.marks) : w.isCancelled t = true :=
    List.any_eq_true.mpr ⟨_, ht, List.contains_iff_mem.mpr hc⟩
  intro n c hn ho
  refine ⟨cancelled List.mem_cons_self, ?_⟩
  cases c with
  | dispatched owner i task r => exact ⟨_, rfl, cancelled (h n _ _ hn ho rfl)⟩
  | loose owner token x => exact ⟨_, rfl, cancelled (h n _ _ hn ho rfl)⟩
  | _ => cases ho

theorem warned_idle (hw : w.Filed) (h : w.inFlight d = 0) : w.Warned d shutdown := by
  intro n c hn ho
  have hm := (Table.Sorted.mem_iff hw.sorted n c).mpr hn
  have hnot := List.countP_eq_zero.mp h (n, c) hm
  simp [Call.ownedBy, ho] at hnot

end

structure Overseen (w : World) (d : Nat) (settings : RunnerSettings) (shutdown : Token)
    (t? : Option Nat) : Prop where
  filed : w.Filed
  known : d < w.nextCall
  balanced : w.Balanced d (max settings.maxTasks 1)
  stands : w.Stands d settings shutdown t?
  derived : w.Derived d shutdown

section
variable {w : World} {d : Nat} {settings : RunnerSettings} {shutdown : Token} {t? : Option Nat}

theorem Overseen.happen (h : w.Overseen d settings shutdown t?) {x : Happening}
    (ht : w.TimelyHappening x) :
    (w.happen x).Overseen d settings shutdown (t?.or ((w.happen x).overAt? d)) :=
  ⟨h.filed.happen x, Nat.lt_of_lt_of_le h.known (w.happen_next x),
    Balanced.happen h.filed h.known h.balanced x, h.stands.happen h.balanced h.filed h.known ht,
    h.derived.happen (fun _ hr => (h.stands.of_call hr).1.2) x⟩

theorem Overseen.occur (h : w.Overseen d settings shutdown (w.overAt? d)) (xs : List Happening)
    (ht : Timely xs w) : (occur xs w).Overseen d settings shutdown (loopEnd? d xs w) := by
  induction xs using List.reverseRecOn with
  | nil => exact h
  | append_singleton xs x ih =>
    obtain ⟨hxs, hx, -⟩ := (timely_append xs [x] w).mp ht
    rw [loopEnd?_snoc, occur_append]
    exact (ih hxs).happen hx

theorem started_kept (hw : w.Filed) (source : Source) (settings : RunnerSettings)
    (shutdown : Token) : (w.happen (started source settings shutdown)).Overseen w.nextCall settings
      shutdown ((w.happen (started source settings shutdown)).overAt? w.nextCall) := by
  have call := begin_same w (.driving ⟨source, settings, shutdown, 0, .fresh⟩)
  have past : (w.happen (started source settings shutdown)).overAt? w.nextCall = none :=
    overAt?_none fun r hr => by
      cases call.symm.trans hr
      rfl
  have filed := hw.happen (started source settings shutdown)
  refine ⟨filed, Nat.lt_succ_self _, started_balanced hw source settings shutdown, ?_, ?_⟩
  · rw [past]
    exact .loops _ call rfl rfl rfl
  · intro n c t hc ho
    refine absurd (hw.owners n c w.nextCall ?_ ho) (Nat.lt_irrefl _)
    rw [← hc]
    refine (begin_other w _ ?_).symm
    rintro rfl
    cases call.symm.trans hc
    cases ho

/-- A runner returns when the drain need not wait for the runs in flight, or when its time is
over. -/
theorem Overseen.returns (h : w.Overseen d settings shutdown t?)
    (admitted : max settings.maxTasks 1 ≤ Runner.maxPermits) {x : Happening}
    (call : w.call? d ≠ none) (gone : (w.happen x).call? d = none) :
    ∃ t, t? = some t ∧ (w.inFlight d ≤ Runner.unawaited (max settings.maxTasks 1) ∨
      w.now = t + settings.drain) := by
  cases happen_concerns h.filed h.known h.stands.driver x with
  | waits millis wait after =>
    rw [after] at gone
    exact absurd gone call
  | apart apart => exact absurd (apart.call ▸ gone) call
  | @drives r w₁ p call' step after =>
    rw [after, conclude_same] at gone
    obtain ⟨-, stands⟩ := h.stands.of_call call'
    cases step with
    | refuses fresh many =>
      rw [(h.balanced.idle call' fresh).2] at many
      exact absurd admitted (Nat.not_le.mpr many)
    | «opens» | dispatches | winds | waits => cases gone
    | goes _ _ _ _ _ hp => rcases hp with rfl | rfl <;> cases gone
    | ends steady how =>
      have hs : r.stage ≠ .fresh := by
        rcases how with ⟨hst, -⟩ | ⟨t, hst, -⟩ <;> simp [hst]
      obtain ⟨hsum, hcap⟩ := h.balanced.sum call' hs
      rcases how with ⟨hst, free⟩ | ⟨t', hst, enough⟩
      · rcases stands with ⟨hon, -⟩ | ⟨-, ht⟩ | ⟨t, hst', -⟩
        · simp [Runner.isOver, hst] at hon
        · exact ⟨w.now, ht, Or.inl (by omega)⟩
        · rw [hst] at hst'
          cases hst'
      · rcases stands with ⟨hon, -⟩ | ⟨hst', -⟩ | ⟨t, hst', ht, -, bound, -⟩
        · simp [Runner.isOver, hst] at hon
        · rw [hst] at hst'
          cases hst'
        · rw [hst] at hst'
          cases hst'
          refine ⟨t, ht, enough.imp (fun hg => ?_) (Nat.le_antisymm bound)⟩
          rw [Runner.drainGoal, hcap] at hg
          rw [Runner.unawaited]
          omega

theorem drive_step {r : Runner} (call : w.call? d = some (.driving r)) :
    ∃ w₁ p, w.Manages d r (w₁, p) ∧
      (w.step (.call d)).1 = w₁.conclude d (p.within .driving fun o => o) :=
  ⟨_, _, runner_manages w d r, step_call call⟩

theorem drained_gone {r : Runner} {t : Nat} (call : w.call? d = some (.driving r))
    (stage : r.stage = .draining t) (done : r.drainGoal ≤ w.free d ∨ t ≤ w.now) :
    (w.step (.call d)).1.call? d = none := by
  obtain ⟨w₁, p, step, after⟩ := drive_step call
  have on : r.isOver = true := by simp [Runner.isOver, stage]
  rw [after, conclude_same]
  cases step with
  | refuses fresh | «opens» fresh => simp [fresh] at stage
  | goes loops | dispatches loops =>
    rw [Runner.not_over (Or.inr loops)] at on
    cases on
  | winds winding =>
    rw [winding] at stage
    cases stage
  | waits draining short early =>
    rw [draining] at stage
    cases stage
    omega
  | ends => rfl

/-- What a runner does right after its loop has ended. -/
theorem winding_step {r : Runner} (call : w.call? d = some (.driving r))
    (stage : r.stage = .winding) : let w' := (w.step (.call d)).1
      (w'.call? d = none ∧ r.capacity ≤ w.free d ∧ w'.calls = Table.put d none w.calls) ∨
      (w'.call? d = some (.driving { r with stage := .draining (w.now + r.settings.drain) }) ∧
        w'.free d = w.free d ∧ w'.now = w.now ∧ r.shutdown.mark ∈ w'.tokens.cancelled) := by
  obtain ⟨w₁, p, step, after⟩ := drive_step call
  have on : r.isOver = true := by simp [Runner.isOver, stage]
  intro w'
  rw [show w' = _ from after]
  cases step with
  | refuses fresh | «opens» fresh => simp [fresh] at stage
  | goes loops | dispatches loops =>
    rw [Runner.not_over (Or.inr loops)] at on
    cases on
  | winds winding active steady cancelled =>
    refine Or.inr ⟨conclude_same _ _ _, ?_, ?_, ?_⟩
    · rw [conclude_free, steady.free]
    · rw [conclude_now, steady.now]
    · rw [conclude_tokens]
      exact cancelled
  | waits draining =>
    rw [draining] at stage
    cases stage
  | ends steady how =>
    refine Or.inl ⟨conclude_same _ _ _, ?_, ?_⟩
    · rcases how with ⟨-, free⟩ | ⟨t, hst, -⟩
      · exact free
      · rw [hst] at stage
        cases stage
    · rw [conclude_calls, steady.calls]
      rfl

/-- A runner whose loop has ended returns with its next steps once it need not wait. -/
theorem Overseen.ready (h : w.Overseen d settings shutdown t?) {t : Nat} (ht : t? = some t)
    (done : w.inFlight d ≤ Runner.unawaited (max settings.maxTasks 1) ∨
      w.now = t + settings.drain) :
    ((w.step (.call d)).1.step (.call d)).1.call? d = none := by
  have stay {w : World} (hc : w.call? d = none) : (w.step (.call d)).1.call? d = none := by
    rw [step_gone hc, hc]
  cases hc : w.call? d with
  | none => exact stay (stay hc)
  | some c =>
    obtain ⟨r, rfl⟩ := h.stands.driver c hc
    obtain ⟨⟨same, -⟩, stands⟩ := h.stands.of_call hc
    have enough (hs : r.held = 0) (hf : r.stage ≠ .fresh) :
        r.drainGoal ≤ w.free d ∨ w.now = t + settings.drain := by
      obtain ⟨hsum, hcap⟩ := h.balanced.sum hc hf
      refine done.imp_left fun hle => ?_
      rw [Runner.unawaited] at hle
      rw [Runner.drainGoal, hcap]
      have hmod := Nat.mod_le (max settings.maxTasks 1) 0x100000000
      omega
    rcases stands with ⟨-, hnone⟩ | ⟨hst, hsome⟩ | ⟨t', hst, hsome, -⟩
    · rw [hnone] at ht
      cases ht
    · cases hsome.symm.trans ht
      rcases winding_step hc hst with ⟨hgone, -⟩ | ⟨hon, hfree, hnow, -⟩
      · exact stay hgone
      · refine drained_gone hon rfl ?_
        rw [hfree, hnow]
        refine (enough (by simp [Runner.held, hst]) (by simp [hst])).imp_right fun he => ?_
        rw [same]
        omega
    · cases hsome.symm.trans ht
      refine stay (drained_gone hc hst ?_)
      exact (enough (by simp [Runner.held, hst]) (by simp [hst])).imp_right
        fun he => Nat.le_of_eq he.symm

/-- Once the loop has ended, the runs in flight are told to stop with the runner's next step,
and have been told from then on. -/
theorem Overseen.warns (h : w.Overseen d settings shutdown t?) {t : Nat} (ht : t? = some t) :
    ((∀ r, w.call? d = some (.driving r) → r.stage ≠ .winding) → w.Warned d shutdown) ∧
      (w.step (.call d)).1.Warned d shutdown := by
  have h' := h.happen (x := .act (.move (.step (.call d)))) trivial
  have later {r : Runner} (hc : w.call? d = some (.driving r))
      (cancelled : shutdown.mark ∈ w.tokens.cancelled) : (w.step (.call d)).1.Warned d shutdown := by
    obtain ⟨w₁, p, step, after⟩ := drive_step hc
    refine h'.derived.warned ?_
    show shutdown.mark ∈ (w.step (.call d)).1.tokens.cancelled
    rw [after, conclude_tokens]
    rcases step.frees with frees | ⟨w₂, c, steady, -, rfl⟩
    · exact frees.tokens cancelled
    · exact steady.tokens cancelled
  cases h.stands with
  | loops | refused => cases ht
  | returned t' call told =>
    have warned : w.Warned d shutdown :=
      told.elim (warned_idle h.filed) h.derived.warned
    exact ⟨fun _ => warned, (step_gone call).symm ▸ warned⟩
  | draining r t' call same token stage since bound cancelled =>
    exact ⟨fun _ => h.derived.warned cancelled, later call cancelled⟩
  | winding r call same token stage =>
    refine ⟨fun hr => absurd stage (hr r call), ?_⟩
    rcases winding_step call stage with ⟨-, free, calls⟩ | ⟨-, -, -, cancelled⟩
    · obtain ⟨hsum, hcap⟩ := h.balanced.sum call (by simp [stage])
      have count := inFlight_put h.filed calls d
      rw [call, mark_aside rfl] at count
      simp only [Table.mark] at count
      exact warned_idle h'.filed (show (w.step (.call d)).1.inFlight d = 0 by omega)
    · exact h'.derived.warned (token ▸ cancelled)

end

/-- While a runner is under way after its loop has ended, at most its drain time goes by. It
returns only when the drain need not wait for the runs in flight or that time is over, and
then at once; below a capacity of 2³² it waits for all of them. Those that are in flight when
the loop ends are told to stop. -/
theorem drain_bounded (view : StoreView) (before after : List Happening) (source : Source)
    (settings : RunnerSettings) (shutdown : Token)
    (admitted : max settings.maxTasks 1 ≤ Runner.maxPermits)
    (timely : Timely after ((occur before (start view)).happen (started source settings shutdown))) :
    let capacity := max settings.maxTasks 1
    let w₀ := occur before (start view)
    let d := w₀.nextCall
    let w₁ := w₀.happen (started source settings shutdown)
    let w := occur after w₁
    let unfinished := w.inFlight d - Runner.unawaited capacity
    (capacity < 0x100000000 → unfinished = w.inFlight d) ∧
    (∀ x, w.call? d ≠ none → (w.happen x).call? d = none → ∃ t, loopEnd? d after w₁ = some t ∧
      (unfinished = 0 ∨ w.now = t + settings.drain)) ∧
    ∀ t, loopEnd? d after w₁ = some t →
      (w.call? d ≠ none → t ≤ w.now ∧ w.now ≤ t + settings.drain) ∧
      (unfinished = 0 ∨ w.now = t + settings.drain →
        ((w.step (.call d)).1.step (.call d)).1.call? d = none) ∧
      ((∀ r, w.call? d = some (.driving r) → r.stage ≠ .winding) → w.Warned d shutdown) ∧
      (w.step (.call d)).1.Warned d shutdown := by
  intro capacity w₀ d w₁ w unfinished
  have hw₀ : w₀.Filed := (start_filed view).occur before
  have h : w.Overseen d settings shutdown (loopEnd? d after w₁) :=
    (started_kept hw₀ source settings shutdown).occur after timely
  have none_left : unfinished = 0 ↔ w.inFlight d ≤ Runner.unawaited capacity :=
    Nat.sub_eq_zero_iff_le
  refine ⟨fun hlt => ?_, fun x call gone => ?_, fun t ht => ⟨fun call => ?_, fun done => ?_, ?_⟩⟩
  · show w.inFlight d - Runner.unawaited capacity = _
    rw [Runner.unawaited_none hlt, Nat.sub_zero]
  · obtain ⟨t, ht, done⟩ := h.returns admitted call gone
    exact ⟨t, ht, done.imp_left none_left.mpr⟩
  · have stands := h.stands
    rw [ht] at stands
    cases stands with
    | winding => exact ⟨Nat.le_refl _, Nat.le_add_right _ _⟩
    | draining r t call' same token stage since bound => exact ⟨since, bound⟩
    | returned t call' => exact absurd call' call
  · exact h.ready ht (done.imp_left none_left.mp)
  · exact h.warns ht

def sleeping : Task :=
  { Task.empty with
    body := .object [("do", .list [.list [.text "sleep", .whole ⟨5000, by decide, by decide⟩]])] }

def stoppedAsleep (capacity : Nat) : World × List Happening :=
  let step (n : Nat) : Happening := .act (.move (.step (.call n)))
  ((start ⟨2, false⟩).happen
      (started (.supplies [⟨.ok sleeping, 0⟩]) ⟨capacity, 100, 100⟩ ⟨9, []⟩),
    [0, 0, 0, 0, 0, 1, 1, 1].map step ++ [.act (.cancel ⟨9, []⟩)] ++ [0, 0, 0].map step)

/-- With a capacity of two the runner is under way until its drain time is over. -/
theorem small_runner_drains :
    let xs := (stoppedAsleep 2).2 ++ [.act (.move (.wait 100))]
    let w₁ := (stoppedAsleep 2).1
    let w := occur xs w₁
    let unfinished := w.inFlight 0 - Runner.unawaited 2
    (max 2 1 ≤ Runner.maxPermits ∧ Timely xs w₁ ∧ loopEnd? 0 xs w₁ = some 0 ∧ w.inFlight 0 = 1) ∧
    (2 < 0x100000000 → unfinished = w.inFlight 0) ∧
    (∀ x, w.call? 0 ≠ none → (w.happen x).call? 0 = none → ∃ t, loopEnd? 0 xs w₁ = some t ∧
      (unfinished = 0 ∨ w.now = t + 100)) ∧
    ∀ t, loopEnd? 0 xs w₁ = some t →
      (w.call? 0 ≠ none → t ≤ w.now ∧ w.now ≤ t + 100) ∧
      (unfinished = 0 ∨ w.now = t + 100 →
        ((w.step (.call 0)).1.step (.call 0)).1.call? 0 = none) ∧
      ((∀ r, w.call? 0 = some (.driving r) → r.stage ≠ .winding) → w.Warned 0 ⟨9, []⟩) ∧
      (w.step (.call 0)).1.Warned 0 ⟨9, []⟩ := by
  intro xs w₁ w unfinished
  have admitted : max 2 1 ≤ Runner.maxPermits := by decide
  have timely : Timely xs w₁ := by decide +kernel
  exact ⟨⟨admitted, timely, by decide +kernel, by decide +kernel⟩,
    drain_bounded ⟨2, false⟩ [] xs (.supplies [⟨.ok sleeping, 0⟩]) ⟨2, 100, 100⟩ ⟨9, []⟩ admitted
      timely⟩

/-- With a capacity of 2³² the same runner returns at once, with the run still in flight. -/
theorem large_runner_leaves :
    let xs := (stoppedAsleep 0x100000000).2
    let w₁ := (stoppedAsleep 0x100000000).1
    let w := occur xs w₁
    max 0x100000000 1 ≤ Runner.maxPermits ∧ Timely xs w₁ ∧ loopEnd? 0 xs w₁ = some 0 ∧
      w.ended.map Ended.call = [0] ∧ w.inFlight 0 = 1 ∧ w.now = 0 := by
  decide +kernel

end World

end TaskRelay
