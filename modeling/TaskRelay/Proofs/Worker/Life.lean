import Mathlib.Data.List.Induction
import Mathlib.Logic.Function.Basic
import TaskRelay.Proofs.Fitting
import TaskRelay.World.Basic

/-!
# The life of a worker

A worker as the calls on it see it: its lifecycle, its consumer loop, whether its handoff
and its store are closed, and how far each call has come. A step of this machine is what
one call does to a worker in one go, or what befalls the worker from elsewhere.

Every event of a life fits the events before it: a loop is spawned once and never after a
shutdown was tried, the first shutdown to be tried succeeds and all others are refused, and
whatever begins after the shutdown returned is refused.
-/

set_option autoImplicit false

namespace TaskRelay

inductive Event
  | began (call : Nat)
  | tried (call : Nat)
  | spawned
  | looped
  | returned (call : Nat) (o : Outcome)

def Event.wins : Event → Bool
  | .returned _ (.shutDown (.ok ())) => true
  | _ => false

inductive Visit
  | publishing (p : Publish)
  | requesting (r : Request)
  | shutting (s : Shutdown)

def Visit.isFresh : Visit → Bool
  | .publishing (.fresh _) | .requesting .fresh | .shutting .fresh => true
  | _ => false

structure Phase where
  settings : StreamSettings
  lifecycle : Lifecycle
  loop : LoopState
  closed : Bool

def Worker.phase (k : Worker) : Phase :=
  ⟨k.settings, k.lifecycle, k.consumer, k.handoff.closed⟩

structure Post where
  phase : Option Phase
  shut : Bool
  now : Nat
  nextCall : Nat
  calls : Nat → Option Visit

namespace Post

def justSpawned (p : Post) : Bool := p.phase.any fun f => f.loop = .active .spawned

def put (p : Post) (id : Nat) (e : Visit) : Post :=
  { p with calls := Function.update p.calls id (some e) }

def forget (p : Post) (id : Nat) : Post := { p with calls := Function.update p.calls id none }

def enter (p : Post) (f : Phase) : Post := { p with phase := some f }

inductive Step (p : Post) : List Event → Post → Prop
  | wait (millis : Nat) : Step p [] { p with now := p.now + millis }
  | shut : Step p [] { p with shut := true }
  | count : Step p [] { p with nextCall := p.nextCall + 1 }
  | created (settings : StreamSettings) (none : p.phase = none) :
      Step p [] (p.enter ⟨settings, .notStarted, .absent, false⟩)
  | ended {f : Phase} {l : LoopState} (phase : p.phase = some f)
      (active : f.loop.isActive = true) (how : l = .panicked ∨ l = .aborted) :
      Step p [] (p.enter { f with loop := l })
  | began {e : Visit} (fresh : e.isFresh = true) :
      Step p [.began p.nextCall] { p.put p.nextCall e with nextCall := p.nextCall + 1 }
  | dropped {id : Nat} {e : Visit} (call : p.calls id = some e)
      (other : ∀ s, e ≠ .shutting s) : Step p [] (p.forget id)
  | lost {id : Nat} {e : Visit} (none : p.phase = none) (call : p.calls id = some e) :
      Step p [.returned id .panicked] (p.forget id)
  | spawned {f : Phase} (phase : p.phase = some f) (first : f.lifecycle = .notStarted) :
      Step p [.spawned] (p.enter { f with lifecycle := .running, loop := .active .spawned })
  | looped {f : Phase} {l : LoopState} (phase : p.phase = some f)
      (active : f.loop.isActive = true) (goes : l ≠ .active .spawned) :
      Step p [.looped] (p.enter { f with loop := l })
  | publishes {f : Phase} {id : Nat} {b b' : Publish} (phase : p.phase = some f)
      (call : p.calls id = some (.publishing b))
      (allowed : (∃ t, b = .fresh t) → f.lifecycle.isOver = false) :
      Step p [] (p.put id (.publishing b'))
  | published {f : Phase} {id : Nat} {b : Publish} {r : Except WorkerError String}
      (phase : p.phase = some f) (call : p.calls id = some (.publishing b))
      (refused : (∃ t, b = .fresh t) → r = .error .queueShutdown) :
      Step p [.returned id (.published r)] (p.forget id)
  | requests {f : Phase} {id : Nat} {r r' : Request} (phase : p.phase = some f)
      (call : p.calls id = some (.requesting r))
      (only : f.closed = true → r = .fresh ∧ r' = .between 0) :
      Step p [] (p.put id (.requesting r'))
  | requested {f : Phase} {id : Nat} {r : Request} {x : Except WorkerError Entry}
      (phase : p.phase = some f) (call : p.calls id = some (.requesting r))
      (reason : x = .error .queueHasBeenClosed → f.closed = true)
      (refused : f.closed = true → r = .fresh ∨ r = .between 0 → x = .error .queueHasBeenClosed) :
      Step p [.returned id (.requested x)] (p.forget id)
  | refused {f : Phase} {id : Nat} (phase : p.phase = some f)
      (call : p.calls id = some (.shutting .fresh)) (late : f.lifecycle.isOver = true) :
      Step p [.tried id, .returned id (.shutDown (.error .queueShutdown))] (p.forget id)
  | tried {f : Phase} {id : Nat} (phase : p.phase = some f)
      (call : p.calls id = some (.shutting .fresh)) (first : f.lifecycle.isOver = false) :
      Step p [.tried id]
        ((p.enter { f with lifecycle := .stopping }).put id (.shutting
          (if f.loop = .absent then .closing else .joining (p.now + Shutdown.grace))))
  | joined {f : Phase} {id d : Nat} (phase : p.phase = some f)
      (call : p.calls id = some (.shutting (.joining d))) (idle : f.loop.isActive = false) :
      Step p [] (p.put id (.shutting .closing))
  | stopped {f : Phase} {id : Nat} (phase : p.phase = some f)
      (call : p.calls id = some (.shutting .closing)) :
      Step p [.returned id (.shutDown (.ok ()))]
        { (p.enter { f with lifecycle := .stopped, closed := true }).forget id with shut := true }

inductive Run : Post → List Event → Post → Prop
  | nil (p : Post) : Run p [] p
  | cons {p q r : Post} {es es' : List Event} : p.Step es q → Run q es' r → Run p (es ++ es') r

theorem Step.run {p q : Post} {es : List Event} (h : p.Step es q) : Run p es q := by
  have hr := Run.cons h (.nil q)
  rwa [List.append_nil] at hr

theorem Run.trans {p q r : Post} {es es' : List Event} (h : Run p es q) (h' : Run q es' r) :
    Run p (es ++ es') r := by
  induction h with
  | nil => exact h'
  | cons hs _ ih =>
    rw [List.append_assoc]
    exact .cons hs (ih h')

/-- What the steps of a life keep holds after every life. -/
theorem Run.keeps {P : List Event → Post → Prop}
    (hstep : ∀ h p es q, P h p → p.Step es q → P (h ++ es) q) {p q : Post} {es h : List Event}
    (hr : Run p es q) (hp : P h p) : P (h ++ es) q := by
  induction hr generalizing h with
  | nil => rwa [List.append_nil]
  | cons hs _ ih =>
    rw [← List.append_assoc]
    exact ih (hstep _ _ _ _ hp hs)

theorem Step.unspawned {p q : Post} {es : List Event} (h : p.Step es q) (hs : .spawned ∉ es)
    (hq : q.justSpawned = true) : p.justSpawned = true := by
  cases h with
  | created => simp [justSpawned, enter] at hq
  | @ended f l phase active how =>
    have hl : l = .active .spawned := of_decide_eq_true hq
    simp [hl] at how
  | spawned => simp at hs
  | looped phase active goes => exact absurd (of_decide_eq_true hq) goes
  | tried phase => simpa [justSpawned, phase, enter, put] using hq
  | stopped phase => simpa [justSpawned, phase, enter, forget] using hq
  | _ => exact hq

theorem Run.unspawned {p q : Post} {es : List Event} (h : Run p es q) (hs : .spawned ∉ es)
    (hq : q.justSpawned = true) : p.justSpawned = true := by
  induction h with
  | nil => exact hq
  | cons hstep _ ih =>
    rw [List.mem_append, not_or] at hs
    exact hstep.unspawned hs.1 (ih hs.2 hq)

end Post

namespace Chronicle

def first? (h : List Event) : Option Nat :=
  h.findSome? fun
    | .tried id => some id
    | _ => none

def Over (h : List Event) : Prop := ∃ id, .tried id ∈ h

def Won (h : List Event) : Prop := ∃ id, .returned id (.shutDown (.ok ())) ∈ h

def Late (h : List Event) (id : Nat) : Prop :=
  ∃ a j b, h = a ++ .returned j (.shutDown (.ok ())) :: b ∧ .began id ∈ b

def Refusal : Outcome → Prop
  | .published r => r = .error .queueShutdown
  | .requested r => r = .error .queueHasBeenClosed
  | .shutDown r => r = .error .queueShutdown
  | _ => False

def Fits (a : List Event) : Event → Prop
  | .began id => .began id ∉ a
  | .tried id => .tried id ∉ a
  | .spawned => .spawned ∉ a ∧ ¬Over a
  | .looped => ¬Won a
  | .returned id o => .began id ∈ a ∧ (Late a id → Refusal o) ∧
    match o with
    | .shutDown r => (r = .ok () ∧ first? a = some id) ∨
        (r = .error .queueShutdown ∧ ∃ a', a = a' ++ [.tried id] ∧ Over a')
    | .requested r => r = .error .queueHasBeenClosed → Over a
    | _ => True

section
variable {h : List Event}

@[simp]
theorem over_append {es : List Event} : Over (h ++ es) ↔ Over h ∨ Over es := by
  simp [Over, exists_or]

@[simp]
theorem won_append {es : List Event} : Won (h ++ es) ↔ Won h ∨ Won es := by
  simp [Won, exists_or]

@[simp]
theorem over_nil : ¬Over [] := by simp [Over]

@[simp]
theorem won_nil : ¬Won [] := by simp [Won]

@[simp]
theorem over_cons {x : Event} : Over (x :: h) ↔ (∃ id, x = .tried id) ∨ Over h := by
  simp [Over, exists_or, eq_comm]

@[simp]
theorem won_cons {x : Event} :
    Won (x :: h) ↔ (∃ id, x = .returned id (.shutDown (.ok ()))) ∨ Won h := by
  simp [Won, exists_or, eq_comm]

instance (h : List Event) : Decidable (Won h) :=
  decidable_of_iff (h.any Event.wins = true) (by
    rw [List.any_eq_true]
    constructor
    · rintro ⟨e, he, hw⟩
      unfold Event.wins at hw
      split at hw
      · exact ⟨_, he⟩
      · cases hw
    · rintro ⟨id, he⟩
      exact ⟨_, he, rfl⟩)

theorem over_iff_first : Over h ↔ ∃ id, first? h = some id := by
  constructor
  · rintro ⟨id, hm⟩
    have hs : (first? h).isSome = true := List.findSome?_isSome_iff.mpr ⟨_, hm, rfl⟩
    exact Option.isSome_iff_exists.mp hs
  · rintro ⟨id, hf⟩
    obtain ⟨x, hx, he⟩ := List.exists_of_findSome?_eq_some hf
    cases x with
    | tried j => exact ⟨j, hx⟩
    | _ => cases he

theorem first_append {id : Nat} (hf : first? h = some id) (es : List Event) :
    first? (h ++ es) = some id := by
  rw [first?, List.findSome?_append, ← first?, hf]
  rfl

theorem first_calm {es : List Event} (ho : ¬Over es) : first? (h ++ es) = first? h := by
  have hn : first? es = none := by
    cases hf : first? es with
    | none => rfl
    | some j => exact absurd (over_iff_first.mpr ⟨j, hf⟩) ho
  rw [first?, List.findSome?_append, ← first?, ← first?, hn, Option.or_none]

theorem first_tried (ho : ¬Over h) (id : Nat) : first? (h ++ [.tried id]) = some id := by
  have hn : first? h = none := by
    cases hf : first? h with
    | none => rfl
    | some j => exact absurd (over_iff_first.mpr ⟨j, hf⟩) ho
  rw [first?, List.findSome?_append, ← first?, hn]
  rfl

theorem late_won {id : Nat} (hl : Late h id) : Won h ∧ .began id ∈ h := by
  obtain ⟨a, j, b, rfl, hb⟩ := hl
  exact ⟨⟨j, by simp⟩, by simp [hb]⟩

theorem late_snoc {x : Event} {id : Nat} (hl : Late (h ++ [x]) id) :
    Late h id ∨ (x = .began id ∧ Won h) := by
  obtain ⟨a, j, b, he, hb⟩ := hl
  rcases split_snoc he with ⟨rfl, -, -⟩ | ⟨b', rfl, rfl⟩
  · cases hb
  · rcases List.mem_append.mp hb with hb | hb
    · exact Or.inl ⟨a, j, b', rfl, hb⟩
    · exact Or.inr ⟨(List.mem_singleton.mp hb).symm, ⟨j, by simp⟩⟩

theorem late_append {es : List Event} {id : Nat} (hb : .began id ∉ es) (hl : Late (h ++ es) id) :
    Late h id := by
  induction es using List.reverseRecOn with
  | nil => rwa [List.append_nil] at hl
  | append_singleton es x ih =>
    rw [← List.append_assoc] at hl
    rcases late_snoc hl with hl | ⟨rfl, -⟩
    · exact ih (fun hm => hb (by simp [hm])) hl
    · exact absurd (by simp) hb

/-- A shutdown that returned was tried before. -/
theorem over_of_won (hf : Fitting Fits h) (hw : Won h) : Over h := by
  obtain ⟨id, hm⟩ := hw
  obtain ⟨a, b, rfl⟩ := List.append_of_mem hm
  rcases (hf a _ b rfl).2.2 with ⟨-, hfirst⟩ | ⟨he, -⟩
  · exact over_append.mpr (Or.inl (over_iff_first.mpr ⟨id, hfirst⟩))
  · cases he

end

end Chronicle

open Chronicle

namespace Post

def Winner (p : Post) (h : List Event) (id : Nat) : Prop :=
  first? h = some id ∧ ∃ f, p.phase = some f ∧ f.lifecycle = .stopping

def Idle (p : Post) : Prop := ∀ f, p.phase = some f → f.loop.isActive = false

end Post

def Visit.Ok (h : List Event) (p : Post) (id : Nat) : Visit → Prop
  | .publishing b => Late h id → ∃ t, b = .fresh t
  | .requesting r => Late h id → r = .fresh ∨ r = .between 0
  | .shutting .fresh => .tried id ∉ h
  | .shutting (.joining d) => p.Winner h id ∧ d ≤ p.now + Shutdown.grace
  | .shutting .closing => p.Winner h id ∧ p.Idle

structure Phase.Reached (f : Phase) (h : List Event) (shut : Bool) : Prop where
  fresh : f.lifecycle = .notStarted ↔ .spawned ∉ h ∧ ¬Over h
  tried : f.lifecycle.isOver = true ↔ Over h
  stopped : f.lifecycle = .stopped ↔ Won h
  unspawned : f.lifecycle = .notStarted → f.loop = .absent
  closed : f.closed = true ↔ f.lifecycle = .stopped
  quiet : f.lifecycle = .stopped → shut = true ∧ f.loop.isActive = false

/-- Events that bring a worker to no other phase. -/
theorem Phase.Reached.quiet_events {f : Phase} {h es : List Event} {shut : Bool}
    (hr : f.Reached h shut) (hs : .spawned ∉ es) (ho : ¬Over es) (hw : ¬Won es) :
    f.Reached (h ++ es) shut where
  fresh := by simp [hr.fresh, hs, ho]
  tried := by simp [hr.tried, ho]
  stopped := by simp [hr.stopped, hw]
  unspawned := hr.unspawned
  closed := hr.closed
  quiet := hr.quiet

structure Post.Lived (h : List Event) (p : Post) : Prop where
  fits : Fitting Fits h
  unborn : p.phase = none → .spawned ∉ h ∧ ¬Over h
  reached : ∀ f, p.phase = some f → f.Reached h p.shut
  calls : ∀ id e, p.calls id = some e → .began id ∈ h ∧ e.Ok h p id
  known : ∀ id, .began id ∈ h ∨ .tried id ∈ h → id < p.nextCall
  winner : ∀ id, first? h = some id →
    (∃ s, s ≠ .fresh ∧ p.calls id = some (.shutting s)) ∨
      .returned id (.shutDown (.ok ())) ∈ h

namespace Post.Lived

variable {h es : List Event} {p q : Post}

theorem fits_step (hl : p.Lived h) (hs : p.Step es q) : Fitting Fits (h ++ es) := by
  cases hs with
  | wait | shut | count | created | ended | dropped | publishes | requests | joined =>
    rw [List.append_nil]
    exact hl.fits
  | began fresh =>
    exact hl.fits.snoc fun hm => Nat.lt_irrefl _ (hl.known _ (Or.inl hm))
  | lost none call =>
    refine hl.fits.snoc ⟨(hl.calls _ _ call).1, fun hlate => ?_, trivial⟩
    exact absurd (over_of_won hl.fits (late_won hlate).1) (hl.unborn none).2
  | spawned phase first => exact hl.fits.snoc ((hl.reached _ phase).fresh.mp first)
  | looped phase active goes =>
    refine hl.fits.snoc fun hw => ?_
    have hr := hl.reached _ phase
    have hq := (hr.quiet (hr.stopped.mpr hw)).2
    rw [active] at hq
    cases hq
  | published phase call refused =>
    obtain ⟨hb, hok⟩ := hl.calls _ _ call
    exact hl.fits.snoc ⟨hb, fun hlate => refused (hok hlate), trivial⟩
  | requested phase call reason refused =>
    have hr := hl.reached _ phase
    refine hl.fits.snoc ⟨(hl.calls _ _ call).1, fun hlate => ?_, fun hx => ?_⟩
    · refine refused ?_ ((hl.calls _ _ call).2 hlate)
      exact hr.closed.mpr (hr.stopped.mpr (late_won hlate).1)
    · exact over_of_won hl.fits (hr.stopped.mp (hr.closed.mp (reason hx)))
  | @refused f id phase call late =>
    have htried : Fitting Fits (h ++ [.tried id]) := hl.fits.snoc (hl.calls _ _ call).2
    have hx : Fits (h ++ [.tried id]) (.returned id (.shutDown (.error .queueShutdown))) :=
      ⟨by simp [(hl.calls _ _ call).1], fun _ => rfl,
        Or.inr ⟨rfl, h, rfl, (hl.reached _ phase).tried.mp late⟩⟩
    have hfits := htried.snoc hx
    rwa [List.append_assoc] at hfits
  | tried phase call first => exact hl.fits.snoc (hl.calls _ _ call).2
  | stopped phase call =>
    obtain ⟨hb, ⟨hfirst, f, hf, hst⟩, -⟩ := hl.calls _ _ call
    refine hl.fits.snoc ⟨hb, fun hlate => ?_, Or.inl ⟨rfl, hfirst⟩⟩
    have hst' := (hl.reached f hf).stopped.mpr (late_won hlate).1
    rw [hst] at hst'
    cases hst'

theorem unborn_step (hl : p.Lived h) (hs : p.Step es q) :
    q.phase = none → .spawned ∉ h ++ es ∧ ¬Over (h ++ es) := by
  have still (hn : q.phase = none) (hp : q.phase = p.phase) : .spawned ∉ h ∧ ¬Over h :=
    hl.unborn (hp ▸ hn)
  cases hs with
  | wait | shut | count | dropped | publishes | requests | joined =>
    rw [List.append_nil]
    exact fun hn => still hn rfl
  | began | lost =>
    intro hn
    obtain ⟨h₁, h₂⟩ := still hn rfl
    exact ⟨by simp [h₁], by simp [h₂]⟩
  | published phase | requested phase | refused phase =>
    intro hn
    rw [show p.phase = none from hn] at phase
    cases phase
  | created | ended | spawned | looped | tried | stopped => exact nofun

theorem reached_step (hl : p.Lived h) (hs : p.Step es q) :
    ∀ f, q.phase = some f → f.Reached (h ++ es) q.shut := by
  cases hs with
  | wait | count | dropped | publishes | requests | joined =>
    rw [List.append_nil]
    exact hl.reached
  | shut =>
    rw [List.append_nil]
    intro f hf
    have hr := hl.reached f hf
    exact { hr with quiet := fun hst => ⟨rfl, (hr.quiet hst).2⟩ }
  | began | published | requested =>
    exact fun f hf => (hl.reached f hf).quiet_events (by simp) (by simp) (by simp)
  | lost none =>
    intro f hf
    rw [show p.phase = some f from hf] at none
    cases none
  | created settings none =>
    rw [List.append_nil]
    rintro f ⟨⟩
    obtain ⟨hs, ho⟩ := hl.unborn none
    exact {
      fresh := by simp [hs, ho]
      tried := by simp [ho, Lifecycle.isOver, Lifecycle.rank]
      stopped := by simp [mt (over_of_won hl.fits) ho]
      unspawned := fun _ => rfl
      closed := by simp
      quiet := by simp }
  | ended phase active how =>
    rw [List.append_nil]
    rintro f ⟨⟩
    have hr := hl.reached _ phase
    refine { hr with unspawned := fun hn => ?_, quiet := fun hst => ⟨(hr.quiet hst).1, ?_⟩ }
    · rw [hr.unspawned hn] at active
      cases active
    · rcases how with rfl | rfl <;> rfl
  | @looped f₀ _ phase active goes =>
    rintro f ⟨⟩
    have hr : f₀.Reached (h ++ [.looped]) p.shut :=
      (hl.reached _ phase).quiet_events (by simp) (by simp) (by simp)
    refine { hr with unspawned := fun hn => ?_, quiet := fun hst => ?_ }
    · rw [hr.unspawned hn] at active
      cases active
    · have hq := (hr.quiet hst).2
      rw [active] at hq
      cases hq
  | spawned phase first =>
    rintro f ⟨⟩
    have hr := hl.reached _ phase
    obtain ⟨hs, ho⟩ := hr.fresh.mp first
    have hc := hr.closed
    rw [first] at hc
    exact {
      fresh := by simp
      tried := by simp [ho, Lifecycle.isOver, Lifecycle.rank]
      stopped := by simp [mt (over_of_won hl.fits) ho]
      unspawned := nofun
      closed := by simpa using hc
      quiet := nofun }
  | @refused f id phase call late =>
    intro f' hf'
    obtain rfl : f' = f := by
      rw [show p.phase = some f' from hf'] at phase
      exact Option.some.inj phase
    have hr := hl.reached _ phase
    have ho := hr.tried.mp late
    refine { hr with
      fresh := ?_
      tried := by simp [hr.tried, ho]
      stopped := by simp [hr.stopped] }
    rw [hr.fresh]
    simp [ho]
  | tried phase call first =>
    rintro f ⟨⟩
    have hr := hl.reached _ phase
    have ho : ¬Over h := fun ho => by
      rw [hr.tried.mpr ho] at first
      cases first
    have hc : _ = false := Bool.eq_false_iff.mpr fun hc => ho <|
      over_of_won hl.fits (hr.stopped.mp (hr.closed.mp hc))
    exact {
      fresh := by simp
      tried := by simp [Lifecycle.isOver, Lifecycle.rank]
      stopped := by simp [mt (over_of_won hl.fits) ho]
      unspawned := nofun
      closed := by simpa using hc
      quiet := nofun }
  | @stopped f₀ id phase call =>
    rintro f ⟨⟩
    obtain ⟨⟨hfirst, -⟩, hidle⟩ := (hl.calls _ _ call).2
    have ho : Over h := over_iff_first.mpr ⟨id, hfirst⟩
    exact {
      fresh := by simp [ho]
      tried := by simp [ho, Lifecycle.isOver, Lifecycle.rank]
      stopped := by simp
      unspawned := nofun
      closed := by simp
      quiet := fun _ => ⟨rfl, hidle f₀ phase⟩ }

theorem known_step (hl : p.Lived h) (hs : p.Step es q) :
    ∀ id, .began id ∈ h ++ es ∨ .tried id ∈ h ++ es → id < q.nextCall := by
  cases hs with
  | count =>
    rw [List.append_nil]
    exact fun id hm => Nat.lt_succ_of_lt (hl.known id hm)
  | wait | shut | created | ended | dropped | publishes | requests | joined =>
    rw [List.append_nil]
    exact hl.known
  | began =>
    intro id hm
    have hm' : (.began id ∈ h ∨ .tried id ∈ h) ∨ id = p.nextCall := by
      simpa [or_right_comm] using hm
    rcases hm' with hm' | rfl
    · exact Nat.lt_succ_of_lt (hl.known id hm')
    · exact Nat.lt_succ_self _
  | lost | spawned | looped | published | requested | stopped =>
    exact fun id hm => hl.known id (by simpa using hm)
  | @refused _ j phase call | @tried _ j phase call =>
    intro id hm
    have hm' : (.began id ∈ h ∨ .tried id ∈ h) ∨ id = j := by
      simpa [or_assoc] using hm
    rcases hm' with hm' | rfl
    · exact hl.known id hm'
    · exact hl.known id (Or.inl (hl.calls _ _ call).1)

structure Carries (h : List Event) (p : Post) (h' : List Event) (p' : Post) (id : Nat) : Prop where
  late : Late h' id → Late h id
  tried : .tried id ∈ h' → .tried id ∈ h
  winner : p.Winner h id → p'.Winner h' id
  idle : p.Winner h id → p.Idle → p'.Idle
  now : p.now ≤ p'.now

theorem Carries.ok {h' : List Event} {p' : Post} {id : Nat} (hc : Carries h p h' p' id)
    {e : Visit} (he : e.Ok h p id) : e.Ok h' p' id := by
  cases e with
  | publishing b => exact fun hl => he (hc.late hl)
  | requesting r => exact fun hl => he (hc.late hl)
  | shutting s =>
    cases s with
    | fresh => exact fun ht => he (hc.tried ht)
    | joining d => exact ⟨hc.winner he.1, Nat.le_trans he.2 (Nat.add_le_add_right hc.now _)⟩
    | closing => exact ⟨hc.winner he.1, hc.idle he.1 he.2⟩

/-- A step that does not concern the call leaves the winner in its phase. -/
theorem carries {id : Nat} (hb : .began id ∉ es) (ht : .tried id ∉ es) (hn : p.now ≤ q.now)
    (hp : ∀ f, p.phase = some f → first? h = some id → f.lifecycle = .stopping →
      ∃ f', q.phase = some f' ∧ f'.lifecycle = .stopping ∧
        (f.loop.isActive = false → f'.loop.isActive = false)) :
    Carries h p (h ++ es) q id where
  late := late_append hb
  tried := fun hm => (List.mem_append.mp hm).resolve_right ht
  winner := by
    rintro ⟨hf, f, hf', hst⟩
    obtain ⟨f', hq, hst', -⟩ := hp f hf' hf hst
    exact ⟨first_append hf es, f', hq, hst'⟩
  idle := by
    rintro ⟨hf, f, hf', hst⟩ hidle f₁ hf₁
    obtain ⟨f', hq, -, hl⟩ := hp f hf' hf hst
    obtain rfl : f' = f₁ := Option.some.inj (hq.symm.trans hf₁)
    exact hl (hidle f hf')
  now := hn

theorem carries_calm {id : Nat} (hb : .began id ∉ es) (ht : .tried id ∉ es) (hn : p.now ≤ q.now)
    (hp : q.phase = p.phase) : Carries h p (h ++ es) q id :=
  carries hb ht hn fun f hf _ hst => ⟨f, hp.trans hf, hst, fun hl => hl⟩

theorem calls_step (hl : p.Lived h) (hs : p.Step es q) :
    ∀ id e, q.calls id = some e → .began id ∈ h ++ es ∧ e.Ok (h ++ es) q id := by
  have others {j : Nat} {c : Option Visit} (hq : q.calls = Function.update p.calls j c)
      (hc : ∀ id, id ≠ j → Carries h p (h ++ es) q id)
      (hj : ∀ e, c = some e → .began j ∈ h ++ es ∧ e.Ok (h ++ es) q j) :
      ∀ id e, q.calls id = some e → .began id ∈ h ++ es ∧ e.Ok (h ++ es) q id := by
    intro id e he
    rw [hq] at he
    by_cases hid : id = j
    · subst hid
      rw [Function.update_self] at he
      exact hj e he
    · rw [Function.update_of_ne hid] at he
      obtain ⟨hb, hok⟩ := hl.calls id e he
      exact ⟨List.mem_append_left _ hb, (hc id hid).ok hok⟩
  have all (hq : q.calls = p.calls) (hc : ∀ id, Carries h p (h ++ es) q id) :
      ∀ id e, q.calls id = some e → .began id ∈ h ++ es ∧ e.Ok (h ++ es) q id := by
    intro id e he
    obtain ⟨hb, hok⟩ := hl.calls id e (hq ▸ he)
    exact ⟨List.mem_append_left _ hb, (hc id).ok hok⟩
  cases hs with
  | wait millis =>
    exact all rfl fun id =>
      carries_calm (by simp) (by simp) (Nat.le_add_right _ _) rfl
  | shut =>
    exact all rfl fun id => carries_calm (by simp) (by simp) (Nat.le_refl _) rfl
  | count =>
    exact all rfl fun id => carries_calm (by simp) (by simp) (Nat.le_refl _) rfl
  | created settings none =>
    refine all rfl fun id => carries (by simp) (by simp) (Nat.le_refl _) ?_
    intro f hf
    rw [none] at hf
    cases hf
  | ended phase active how =>
    refine all rfl fun id => carries (by simp) (by simp) (Nat.le_refl _) ?_
    intro f hf _ hst
    obtain rfl := Option.some.inj (hf.symm.trans phase)
    exact ⟨_, rfl, hst, fun _ => by rcases how with rfl | rfl <;> rfl⟩
  | looped phase active goes =>
    refine all rfl fun id => carries (by simp) (by simp) (Nat.le_refl _) ?_
    intro f hf _ hst
    obtain rfl := Option.some.inj (hf.symm.trans phase)
    refine ⟨_, rfl, hst, fun hi => ?_⟩
    rw [active] at hi
    cases hi
  | spawned phase first =>
    refine all rfl fun id => carries (by simp) (by simp) (Nat.le_refl _) ?_
    intro f hf _ hst
    obtain rfl := Option.some.inj (hf.symm.trans phase)
    rw [first] at hst
    cases hst
  | @began e fresh =>
    refine others rfl (fun id hid => carries_calm (by simpa using hid) (by simp)
      (Nat.le_refl _) rfl) ?_
    rintro e' ⟨⟩
    refine ⟨by simp, ?_⟩
    have hnew : .tried p.nextCall ∉ h := fun hm => Nat.lt_irrefl _ (hl.known _ (Or.inr hm))
    unfold Visit.isFresh at fresh
    split at fresh
    · exact fun _ => ⟨_, rfl⟩
    · exact fun _ => Or.inl rfl
    · exact fun hm => hnew (by simpa using hm)
    · cases fresh
  | dropped call other =>
    exact others rfl (fun id _ => carries_calm (by simp) (by simp)
      (Nat.le_refl _) rfl) nofun
  | lost none call =>
    exact others rfl (fun id _ => carries_calm (by simp) (by simp)
      (Nat.le_refl _) rfl) nofun
  | published phase call refused =>
    exact others rfl (fun id _ => carries_calm (by simp) (by simp)
      (Nat.le_refl _) rfl) nofun
  | requested phase call reason refused =>
    exact others rfl (fun id _ => carries_calm (by simp) (by simp)
      (Nat.le_refl _) rfl) nofun
  | refused phase call late =>
    exact others rfl (fun id hid => carries_calm (by simp) (by simpa using hid)
      (Nat.le_refl _) rfl) nofun
  | publishes phase call allowed =>
    refine others rfl (fun id _ => carries_calm (by simp) (by simp)
      (Nat.le_refl _) rfl) ?_
    rintro e' ⟨⟩
    refine ⟨List.mem_append_left _ (hl.calls _ _ call).1, fun hlate => ?_⟩
    rw [List.append_nil] at hlate
    have hover := (hl.reached _ phase).tried.mpr (over_of_won hl.fits (late_won hlate).1)
    rw [allowed ((hl.calls _ _ call).2 hlate)] at hover
    cases hover
  | requests phase call only =>
    refine others rfl (fun id _ => carries_calm (by simp) (by simp)
      (Nat.le_refl _) rfl) ?_
    rintro e' ⟨⟩
    refine ⟨List.mem_append_left _ (hl.calls _ _ call).1, fun hlate => ?_⟩
    rw [List.append_nil] at hlate
    have hr := hl.reached _ phase
    exact Or.inr (only (hr.closed.mpr (hr.stopped.mpr (late_won hlate).1))).2
  | @tried f j phase call first =>
    have ho : ¬Over h := fun ho => by
      rw [(hl.reached _ phase).tried.mpr ho] at first
      cases first
    refine others rfl (fun id hid => carries (by simp) (by simpa using hid)
      (Nat.le_refl _) ?_) ?_
    · exact fun f hf hfirst => absurd (over_iff_first.mpr ⟨id, hfirst⟩) ho
    · rintro e' ⟨⟩
      refine ⟨List.mem_append_left _ (hl.calls _ _ call).1, ?_⟩
      have hwin : Post.Winner ((p.enter { f with lifecycle := .stopping }).put j (.shutting
          (if f.loop = .absent then .closing else .joining (p.now + Shutdown.grace))))
          (h ++ [.tried j]) j := ⟨first_tried ho j, _, rfl, rfl⟩
      by_cases ha : f.loop = .absent
      · rw [if_pos ha] at hwin ⊢
        refine ⟨hwin, ?_⟩
        rintro f' ⟨⟩
        exact congrArg LoopState.isActive ha
      · rw [if_neg ha] at hwin ⊢
        exact ⟨hwin, Nat.le_refl _⟩
  | joined phase call idle =>
    refine others rfl (fun id _ => carries_calm (by simp) (by simp)
      (Nat.le_refl _) rfl) ?_
    rintro e' ⟨⟩
    obtain ⟨hb, hwin, -⟩ := hl.calls _ _ call
    rw [List.append_nil]
    refine ⟨hb, hwin, fun f hf => ?_⟩
    obtain rfl := Option.some.inj (phase.symm.trans hf)
    exact idle
  | @stopped f j phase call =>
    obtain ⟨⟨hfirst, -⟩, -⟩ := (hl.calls _ _ call).2
    refine others rfl (fun id hid => carries (by simp) (by simp)
      (Nat.le_refl _) ?_) nofun
    intro f' hf' hfirst'
    exact absurd (Option.some.inj (hfirst'.symm.trans hfirst)) hid

theorem winner_step (hl : p.Lived h) (hs : p.Step es q) :
    ∀ id, first? (h ++ es) = some id →
      (∃ s, s ≠ .fresh ∧ q.calls id = some (.shutting s)) ∨
        .returned id (.shutDown (.ok ())) ∈ h ++ es := by
  have keep (ho : first? (h ++ es) = first? h)
      (hq : ∀ id s, s ≠ .fresh → p.calls id = some (.shutting s) →
        (∃ s, s ≠ .fresh ∧ q.calls id = some (.shutting s)) ∨
          .returned id (.shutDown (.ok ())) ∈ h ++ es) :
      ∀ id, first? (h ++ es) = some id →
        (∃ s, s ≠ .fresh ∧ q.calls id = some (.shutting s)) ∨
          .returned id (.shutDown (.ok ())) ∈ h ++ es := by
    intro id hid
    rw [ho] at hid
    rcases hl.winner id hid with ⟨s, hs, hc⟩ | hw
    · exact hq id s hs hc
    · exact Or.inr (List.mem_append_left _ hw)
  have all (hq : q.calls = p.calls) (id : Nat) (s : Shutdown) (hs : s ≠ .fresh)
      (hc : p.calls id = some (.shutting s)) :
      (∃ s, s ≠ .fresh ∧ q.calls id = some (.shutting s)) ∨
        .returned id (.shutDown (.ok ())) ∈ h ++ es :=
    Or.inl ⟨s, hs, hq ▸ hc⟩
  have others {j : Nat} {c : Option Visit} (hq : q.calls = Function.update p.calls j c)
      (hj : ∀ s, s ≠ .fresh → p.calls j = some (.shutting s) →
        (∃ s, s ≠ .fresh ∧ c = some (.shutting s)) ∨
          .returned j (.shutDown (.ok ())) ∈ h ++ es)
      (id : Nat) (s : Shutdown) (hs : s ≠ .fresh) (hc : p.calls id = some (.shutting s)) :
      (∃ s, s ≠ .fresh ∧ q.calls id = some (.shutting s)) ∨
        .returned id (.shutDown (.ok ())) ∈ h ++ es := by
    by_cases hid : id = j
    · subst hid
      rw [hq, Function.update_self]
      exact hj s hs hc
    · exact Or.inl ⟨s, hs, by rw [hq, Function.update_of_ne hid, hc]⟩
  cases hs with
  | wait | shut | count | created | ended | spawned | looped =>
    exact keep (first_calm (by simp)) (all rfl)
  | began =>
    refine keep (first_calm (by simp)) (others rfl fun s _ hc => ?_)
    exact absurd (hl.known _ (Or.inl (hl.calls _ _ hc).1)) (Nat.lt_irrefl _)
  | dropped call other =>
    exact keep (first_calm (by simp)) (others rfl fun s _ hc =>
      absurd (Option.some.inj (call.symm.trans hc)) (other s))
  | lost none call =>
    refine keep (first_calm (by simp)) (others rfl fun s hs hc => ?_)
    obtain ⟨-, hok⟩ := hl.calls _ _ hc
    cases s with
    | fresh => exact absurd rfl hs
    | joining d =>
      obtain ⟨⟨-, f, hf, -⟩, -⟩ := hok
      rw [none] at hf
      cases hf
    | closing =>
      obtain ⟨⟨-, f, hf, -⟩, -⟩ := hok
      rw [none] at hf
      cases hf
  | publishes phase call | published phase call | requests phase call | requested phase call =>
    refine keep (first_calm (by simp)) (others rfl fun s _ hc => ?_)
    cases call.symm.trans hc
  | refused phase call late =>
    obtain ⟨id, hid⟩ := over_iff_first.mp ((hl.reached _ phase).tried.mp late)
    refine keep ((first_append hid _).trans hid.symm) (others rfl fun s hs hc => ?_)
    obtain rfl : Shutdown.fresh = s := by simpa using call.symm.trans hc
    exact absurd rfl hs
  | @tried f j phase call first =>
    have ho : ¬Over h := fun ho => by
      rw [(hl.reached _ phase).tried.mpr ho] at first
      cases first
    intro id hid
    obtain rfl : j = id := Option.some.inj ((first_tried ho j).symm.trans hid)
    refine Or.inl ⟨_, ?_, Function.update_self ..⟩
    split <;> simp
  | joined phase call idle =>
    exact keep (first_calm (by simp)) (others rfl fun _ _ _ => Or.inl ⟨_, by simp, rfl⟩)
  | stopped phase call =>
    exact keep (first_calm (by simp)) (others rfl fun _ _ _ => Or.inr (by simp))

theorem step (hl : p.Lived h) (hs : p.Step es q) : q.Lived (h ++ es) :=
  ⟨hl.fits_step hs, hl.unborn_step hs, hl.reached_step hs, hl.calls_step hs, hl.known_step hs,
    hl.winner_step hs⟩

theorem run (hl : p.Lived h) (hr : Run p es q) : q.Lived (h ++ es) :=
  hr.keeps (fun _ _ _ _ hl hs => hl.step hs) hl

end Post.Lived

/-- The lifecycle only goes forward. -/
theorem Post.Step.forward {es : List Event} {p q : Post} (hs : p.Step es q)
    {f : Phase} (hf : p.phase = some f) :
    ∃ f', q.phase = some f' ∧ f.lifecycle.rank ≤ f'.lifecycle.rank := by
  cases hs with
  | created settings none =>
    rw [none] at hf
    cases hf
  | ended phase | looped phase =>
    obtain rfl := Option.some.inj (hf.symm.trans phase)
    exact ⟨_, rfl, Nat.le_refl _⟩
  | spawned phase first =>
    obtain rfl := Option.some.inj (hf.symm.trans phase)
    exact ⟨_, rfl, by simp [first, Lifecycle.rank]⟩
  | tried phase call first =>
    obtain rfl := Option.some.inj (hf.symm.trans phase)
    refine ⟨_, rfl, ?_⟩
    simp only [Lifecycle.isOver, decide_eq_false_iff_not] at first
    exact Nat.le_of_lt (Nat.lt_of_not_le first)
  | stopped phase call =>
    refine ⟨_, rfl, ?_⟩
    cases f.lifecycle <;> simp [Lifecycle.rank]
  | _ => exact ⟨f, hf, Nat.le_refl _⟩

theorem Post.Run.forward {es : List Event} {p q : Post} (hr : Run p es q) {f : Phase}
    (hf : p.phase = some f) : ∃ f', q.phase = some f' ∧ f.lifecycle.rank ≤ f'.lifecycle.rank := by
  induction hr generalizing f with
  | nil => exact ⟨f, hf, Nat.le_refl _⟩
  | cons hs _ ih =>
    obtain ⟨f₁, hf₁, h₁⟩ := hs.forward hf
    obtain ⟨f₂, hf₂, h₂⟩ := ih hf₁
    exact ⟨f₂, hf₂, Nat.le_trans h₁ h₂⟩

end TaskRelay
