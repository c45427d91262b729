import TaskRelay.Proofs.Settings.Padding
import TaskRelay.Proofs.World.Bystanders

/-!
# Admission

A runner has a permit for each task it may have in flight, at least one and at most
`Runner.maxPermits`. Too few are made one. Too many are found out by the first step of the
runner, which panics with them. That is the only panic of a runner: once it has begun it
returns, if it ends at all, and no more permits are free than it began with.
-/

set_option autoImplicit false

namespace TaskRelay

namespace World

section
variable (w : World)

theorem ask_ended (r : Runner) (a : Asking) : (w.ask r a).1.ended = w.ended := by
  cases a with
  | fresh =>
    simp only [ask]
    split <;> rfl
  | worker q =>
    simp only [ask]
    split
    · rfl
    · split
      · rfl
      · split <;> simp [setWorker]
  | supply x due =>
    simp only [ask]
    split <;> rfl

theorem dropAsking_ended (r : Runner) (a : Asking) : (w.dropAsking r a).ended = w.ended := by
  unfold dropAsking
  split
  · split
    · split <;> rfl
    · rfl
  · rfl

theorem dispatch_ended (d : Nat) (r : Runner) (task : Task) :
    (w.dispatch d r task).ended = w.ended := by
  unfold dispatch
  cases r.source <;> rfl

theorem note_ended (n : Note) : (w.note n).ended = w.ended := w.notes_ended [n]

theorem stepRunner_ended (d : Nat) (r : Runner) : (w.stepRunner d r).1.ended = w.ended := by
  cases hst : r.stage with
  | asking a =>
    have ha := w.ask_ended r a
    simp only [stepRunner, hst]
    split
    · exact w.dropAsking_ended r a
    · generalize w.ask r a = t at ha
      obtain ⟨w₁, ⟨r', a'⟩ | ⟨r', a'⟩ | ⟨r', answer⟩⟩ := t
      · exact ha
      · exact ha
      · simp only
        split
        · exact (w₁.dispatch_ended d r' _).trans ha
        · exact ha
        · exact (w₁.note_ended _).trans ha
        · exact (w₁.note_ended _).trans ha
  | fresh | acquiring | pausing | winding | draining =>
    simp only [stepRunner, hst]
    repeat' split
    all_goals simp [drives, endRunner, release, setFree, cancel, note_ended]

theorem stepRun_ended (i : Nat) (r : Run) : (w.stepRun i r).1.ended = w.ended := by
  unfold stepRun
  split
  · rfl
  · exact notes_ended _ _

/-- No call is put on record before it has taken its step. -/
theorem any_stepCall_ended (n : Nat) (c : Call) : (w.stepCall n c).1.ended = w.ended := by
  cases c with
  | driving r => exact w.stepRunner_ended n r
  | running i r => exact w.stepRun_ended i r
  | dispatched d i task r =>
    have h := w.stepRun_ended i r
    simp only [stepCall]
    split <;> next hs => simpa [hs, release, setFree] using h
  | adding | read | reading | executing => simp [stepCall]
  | publishing | requesting | shutting | loose | offer | offering | take | taking | sleeping =>
    simp only [stepCall]
    repeat' split
    all_goals simp [setWorker, setHandoff, release, setFree]

def Concludes (e : Ended) : Prop :=
  ∃ c, w.call? e.call = some c ∧ (w.stepCall e.call c).2 = .done e.outcome

theorem call_ended (n : Nat) : ∃ es, (w.step (.call n)).1.ended = w.ended ++ es ∧
    ∀ e ∈ es, w.Concludes e := by
  cases hc : w.call? n with
  | none => exact ⟨[], by rw [step_gone hc, List.append_nil], by simp⟩
  | some c =>
    rw [step_call hc, conclude_ended, w.any_stepCall_ended]
    refine ⟨_, rfl, fun e he => ⟨c, ?_⟩⟩
    cases hp : (w.stepCall n c).2 with
    | done o =>
      rw [hp] at he
      cases List.mem_singleton.mp he
      exact ⟨hc, hp⟩
    | running c' | waiting c' =>
      rw [hp] at he
      cases he

/-- What is new on record in what happens is the end of a call with its step. -/
theorem happen_ended (x : Happening) : ∃ es, (w.happen x).ended = w.ended ++ es ∧
    ∀ e ∈ es, w.Concludes e := by
  have same (h : (w.happen x).ended = w.ended) : ∃ es, (w.happen x).ended = w.ended ++ es ∧
      ∀ e ∈ es, w.Concludes e := ⟨[], by rw [h, List.append_nil], by simp⟩
  cases x with
  | enter c opens => exact same rfl
  | act a =>
    cases a with
    | drive | cancel => exact same rfl
    | move m =>
      cases m with
      | step a =>
        cases a with
        | loop i => exact same (loop_ended i)
        | call n => exact w.call_ended n
      | _ => exact same (move_touches (by simp)).ends_nothing

theorem happen_keeps {e : Ended} (he : e ∈ w.ended) (x : Happening) : e ∈ (w.happen x).ended := by
  obtain ⟨es, hes, -⟩ := w.happen_ended x
  exact hes ▸ List.mem_append_left es he

theorem of_happen_ended {x : Happening} {e : Ended} (he : e ∈ (w.happen x).ended) :
    e ∈ w.ended ∨ w.Concludes e := by
  obtain ⟨es, hes, new⟩ := w.happen_ended x
  rw [hes] at he
  exact (List.mem_append.mp he).imp_right (new e)

end

end World

inductive Runner.Ends (capacity : Nat) : Outcome → Prop
  | panics (many : maxPermits < capacity) : Ends capacity .panicked
  | returns (dispatched : Nat) (few : capacity ≤ maxPermits) : Ends capacity (.drove dispatched)

namespace World

structure Admits (w : World) (d capacity : Nat) : Prop where
  filed : w.Filed
  known : d < w.nextCall
  balanced : w.Balanced d capacity
  begun : ∀ r, w.call? d = some (.driving r) → r.stage ≠ .fresh → capacity ≤ Runner.maxPermits
  ended : ∀ e ∈ w.ended, e.call = d → Runner.Ends capacity e.outcome
  recorded : w.call? d = none → ∃ e ∈ w.ended, e.call = d

namespace Admits

variable {w : World} {d capacity : Nat} (h : w.Admits d capacity)
include h

theorem driver {c : Call} (hc : w.call? d = some c) : ∃ r, c = .driving r ∧ r.capacity = capacity :=
  h.balanced.driving hc

/-- How a step of the runner may end it. -/
theorem outcome {r : Runner} (hc : w.call? d = some (.driving r)) {w₁ : World} {o : Outcome}
    (step : w.Manages d r (w₁, .done o)) : Runner.Ends capacity o := by
  cases step with
  | refuses fresh many => exact .panics ((h.balanced.idle hc fresh).2 ▸ many)
  | goes _ _ _ _ _ on => rcases on with on | on <;> cases on
  | ends _ how =>
    refine .returns _ (h.begun r hc ?_)
    rcases how with ⟨hst, -⟩ | ⟨t, hst, -⟩ <;> simp [hst]

/-- A runner that goes on after a step of its own has as many permits as it asked for. -/
theorem begins {r r' : Runner} (hc : w.call? d = some (.driving r)) {w₁ : World}
    {p : Progress Runner Outcome} (step : w.Manages d r (w₁, p))
    (left : p = .running r' ∨ p = .waiting r') : capacity ≤ Runner.maxPermits := by
  have past (hs : r.stage ≠ .fresh) : capacity ≤ Runner.maxPermits := h.begun r hc hs
  cases step with
  | refuses | ends => rcases left with left | left <;> cases left
  | «opens» fresh few => exact (h.balanced.idle hc fresh).2 ▸ few
  | goes loops | dispatches loops =>
    refine past fun hs => ?_
    simp [Runner.Loops, hs] at loops
  | winds winding => exact past (by simp [winding])
  | waits draining => exact past (by simp [draining])

theorem concerns (x : Happening) : w.Concerns d x (w.happen x) :=
  happen_concerns h.filed h.known (fun _ hc => (h.driver hc).imp fun _ hr => hr.1) x

theorem begun_happen {x : Happening} {r : Runner} (hc : (w.happen x).call? d = some (.driving r))
    (hs : r.stage ≠ .fresh) : capacity ≤ Runner.maxPermits := by
  cases h.concerns x with
  | waits millis wait after => exact h.begun r (by rwa [after] at hc) hs
  | apart apart => exact h.begun r (apart.call ▸ hc) hs
  | @drives r₀ w₁ p call step after =>
    rw [after, conclude_same] at hc
    cases p with
    | running s =>
      cases hc
      exact h.begins call step (Or.inl rfl)
    | waiting s =>
      cases hc
      exact h.begins call step (Or.inr rfl)
    | done o => cases hc

/-- Nobody ends a runner but the runner itself. -/
theorem ended_happen {x : Happening} {e : Ended} (he : e ∈ (w.happen x).ended) (hd : e.call = d) :
    Runner.Ends capacity e.outcome := by
  rcases w.of_happen_ended he with he | ⟨c, hc, hp⟩
  · exact h.ended e he hd
  · subst hd
    obtain ⟨r, rfl, -⟩ := h.driver hc
    have step := runner_manages w e.call r
    simp only [stepCall] at hp
    generalize w.stepRunner e.call r = t at step hp
    obtain ⟨w₁, s | s | o⟩ := t <;> cases hp
    exact h.outcome hc step

theorem recorded_happen {x : Happening} (gone : (w.happen x).call? d = none) :
    ∃ e ∈ (w.happen x).ended, e.call = d := by
  have kept (hc : w.call? d = none) : ∃ e ∈ (w.happen x).ended, e.call = d :=
    (h.recorded hc).imp fun e he => ⟨w.happen_keeps he.1 x, he.2⟩
  cases h.concerns x with
  | waits millis wait after => exact kept (by rwa [after] at gone)
  | apart apart => exact kept (apart.call ▸ gone)
  | @drives r w₁ p call step after =>
    rw [after] at gone ⊢
    rw [conclude_same] at gone
    cases p with
    | running s | waiting s => cases gone
    | done o =>
      refine ⟨⟨d, w₁.now, o⟩, ?_, rfl⟩
      rw [conclude_ended]
      exact List.mem_append_right _ (List.mem_singleton_self _)

theorem happen (x : Happening) : (w.happen x).Admits d capacity where
  filed := h.filed.happen x
  known := Nat.lt_of_lt_of_le h.known (w.happen_next x)
  balanced := Balanced.happen h.filed h.known h.balanced x
  begun _ hc hs := h.begun_happen hc hs
  ended _ he hd := h.ended_happen he hd
  recorded gone := h.recorded_happen gone

theorem occur (xs : List Happening) : (occur xs w).Admits d capacity := by
  induction xs generalizing w with
  | nil => exact h
  | cons x xs ih => exact ih (h.happen x)

/-- Once a runner has begun, there are never more permits free than it began with. -/
theorem free_le {r : Runner} (hc : w.call? d = some (.driving r)) (hs : r.stage ≠ .fresh) :
    w.free d ≤ capacity := by
  have sum := (h.balanced.sum hc hs).1
  omega

/-- The first step of a runner takes all of its permits, or none and ends it. -/
theorem first_step {r : Runner} (hc : w.call? d = some (.driving r)) (hs : r.stage = .fresh) :
    (Runner.maxPermits < capacity →
      (w.step (.call d)).1.ended = w.ended ++ [⟨d, w.now, .panicked⟩]) ∧
    (capacity ≤ Runner.maxPermits →
      (w.step (.call d)).1.call? d = some (.driving { r with stage := .acquiring }) ∧
        (w.step (.call d)).1.free d = capacity) := by
  have same : r.capacity = capacity := (h.balanced.idle hc hs).2
  have after : (w.step (.call d)).1 = _ := step_call hc
  rw [after]
  constructor
  · intro many
    have step : w.stepCall d (.driving r) = (w.note r.startingNote, .done .panicked) := by
      simp only [stepCall, stepRunner, hs, same, if_pos many]
      rfl
    rw [step, conclude_ended, note_ended]
    rfl
  · intro few
    have step : w.stepCall d (.driving r) = ((w.note r.startingNote).setFree d capacity,
        .running (.driving { r with stage := .acquiring })) := by
      simp only [stepCall, stepRunner, hs, same, if_neg (Nat.not_lt.mpr few)]
      rfl
    rw [step, conclude_same, conclude_free, setFree_same]
    exact ⟨rfl, rfl⟩

end Admits

theorem started_admits {w : World} (hw : w.Filed) (past : ∀ e ∈ w.ended, e.call < w.nextCall)
    (source : Source) (settings : RunnerSettings) (shutdown : Token) :
    (w.happen (started source settings shutdown)).Admits w.nextCall (max settings.maxTasks 1) := by
  have call := begin_same w (.driving ⟨source, settings, shutdown, 0, .fresh⟩)
  refine ⟨hw.happen _, Nat.lt_succ_self _, started_balanced hw source settings shutdown, ?_, ?_, ?_⟩
  · intro r hr hs
    cases call.symm.trans hr
    exact absurd rfl hs
  · exact fun e he hd => absurd hd (Nat.ne_of_lt (past e he))
  · exact fun gone => absurd (call.symm.trans gone) (by simp)

/-- Only calls that have been made are on record. -/
theorem ended_known {w : World} (hw : w.Filed) (past : ∀ e ∈ w.ended, e.call < w.nextCall)
    (xs : List Happening) : ∀ e ∈ (occur xs w).ended, e.call < (occur xs w).nextCall := by
  induction xs generalizing w with
  | nil => exact past
  | cons x xs ih =>
    refine ih (hw.happen x) fun e he => Nat.lt_of_lt_of_le ?_ (w.happen_next x)
    rcases w.of_happen_ended he with he | ⟨c, hc, -⟩
    · exact past e he
    · exact hw.known _ c hc

end World

/-- The numbers of tasks that can be set are those of 64 bits, as they are written. -/
theorem RunnerSettings.ofEnvironment_ok_iff {env : Environment} {s : String}
    {settings : RunnerSettings} :
    ofEnvironment (env.set "WORKER_CONCURRENCY" s) = .ok settings ↔
      ∃ n ≤ Text.maxU64, Text.Writes s.toList n ∧
        settings = { default with maxTasks := max n 1 } := by
  rw [← toOption_some_iff, ofEnvironment_set, Option.map_eq_some_iff]
  simp only [readUnsigned_some_iff]
  constructor
  · rintro ⟨n, ⟨hw, hn⟩, rfl⟩
    exact ⟨n, hn, hw, rfl⟩
  · rintro ⟨n, hn, hw, rfl⟩
    exact ⟨n, ⟨hw, hn⟩, rfl⟩

namespace World

/-- Whatever happens to a runner, its capacity is at least one, and it panics exactly if that
is more than there can be permits. It does so with its first step. With any other capacity it
takes as many permits with that step, has no more of them free from then on, and returns if it
ends at all. Any number of 64 bits is accepted as a number of tasks, and from 2⁶¹ on it is too
many. -/
theorem runner_panics_iff (view : StoreView) (before after : List Happening) (source : Source)
    (settings : RunnerSettings) (shutdown : Token) :
    let capacity := max settings.maxTasks 1
    let w₀ := occur before (start view)
    let d := w₀.nextCall
    let w := occur after (w₀.happen (started source settings shutdown))
    1 ≤ capacity ∧
    (w.call? d = none → ∃ e ∈ w.ended, e.call = d) ∧
    (∀ e ∈ w.ended, e.call = d → Runner.Ends capacity e.outcome) ∧
    (∀ r, w.call? d = some (.driving r) → r.capacity = capacity ∧
      (r.stage ≠ .fresh → capacity ≤ Runner.maxPermits ∧ w.free d ≤ capacity) ∧
      (r.stage = .fresh → let w' := (w.step (.call d)).1
        (Runner.maxPermits < capacity → w'.ended = w.ended ++ [⟨d, w.now, .panicked⟩]) ∧
        (capacity ≤ Runner.maxPermits →
          w'.call? d = some (.driving { r with stage := .acquiring }) ∧ w'.free d = capacity))) ∧
    ∀ env text, RunnerSettings.ofEnvironment (Environment.set env "WORKER_CONCURRENCY" text) =
        .ok settings ↔
      ∃ n ≤ Text.maxU64, Text.Writes text.toList n ∧
        settings = { RunnerSettings.default with maxTasks := max n 1 } := by
  intro capacity w₀ d w
  have hw₀ : w₀.Filed := (start_filed view).occur before
  have past : ∀ e ∈ w₀.ended, e.call < w₀.nextCall :=
    ended_known (start_filed view) (fun e he => by cases he) before
  have h : w.Admits d capacity := (started_admits hw₀ past source settings shutdown).occur after
  refine ⟨Nat.le_max_right _ _, h.recorded, h.ended, fun r hc => ⟨?_, fun hs => ?_, ?_⟩, ?_⟩
  · obtain ⟨r', hr, same⟩ := h.driver hc
    cases hr
    exact same
  · exact ⟨h.begun r hc hs, h.free_le hc hs⟩
  · exact h.first_step hc
  · exact fun env text => RunnerSettings.ofEnvironment_ok_iff

/-- A runner with as many permits as there can be finds its source closed, and returns. -/
theorem largest_runner_returns :
    let settings : RunnerSettings := { RunnerSettings.default with maxTasks := Runner.maxPermits }
    let step : Happening := .act (.move (.step (.call 0)))
    let xs := [step, step, step, step, .act (.move (.wait 3)), step, step]
    let w := occur xs ((start ⟨2, false⟩).happen (started (.supplies []) settings ⟨9, []⟩))
    RunnerSettings.ofEnvironment
        (Environment.set [] "WORKER_CONCURRENCY" "+2305843009213693951") = .ok settings ∧
      w.now = 3 ∧ w.free 0 = 2305843009213693951 ∧
      ∃ e ∈ w.ended, e.call = 0 ∧ ∃ n, e.outcome = .drove n := by
  intro settings step xs w
  obtain ⟨-, recorded, ended, -⟩ :=
    runner_panics_iff ⟨2, false⟩ [] xs (.supplies []) settings ⟨9, []⟩
  have gone : w.call? 0 = none := Option.isNone_iff_eq_none.mp (by decide +kernel)
  obtain ⟨⟨n, time, o⟩, he, hd⟩ := recorded gone
  refine ⟨by decide +kernel, by decide +kernel, by decide +kernel, _, he, hd, ?_⟩
  cases ended _ he hd with
  | panics many => exact absurd many (by decide)
  | returns n => exact ⟨n, rfl⟩

/-- One task more is a setting that is accepted, and the runner panics with it. -/
theorem larger_runner_panics :
    let settings : RunnerSettings :=
      { RunnerSettings.default with maxTasks := 2305843009213693952 }
    let w := occur [started (.supplies []) settings ⟨9, []⟩, .act (.move (.step (.call 0)))]
      (start ⟨2, false⟩)
    RunnerSettings.ofEnvironment
        (Environment.set [] "WORKER_CONCURRENCY" "2305843009213693952") = .ok settings ∧
      w.ended = [⟨0, 0, .panicked⟩] :=
  ⟨by decide +kernel, rfl⟩

end World

end TaskRelay
