import TaskRelay.Proofs.Runner.Annals

/-!
# Acts, seen from one runner

To a runner an act is one of three things. The runner takes an entry and dispatches its task,
a call that it dispatched begins to execute, or nothing happens that is told of it, and then
the runner has at most gone on or ended.
-/

set_option autoImplicit false

namespace TaskRelay.World

def Unmoved (w : World) (d n : Nat) (w' : World) : Prop :=
  w'.call? n = w.call? n ∨
    (w.call? n).bind (Call.ordered? d) = none ∧ (w'.call? n).bind (Call.ordered? d) = none

inductive Turn (w : World) (d i : Nat) (a : Act) (w' : World) : Prop
  | rests (untold : w.actDoings d a = []) (next : w.nextCall ≤ w'.nextCall)
      (own : ∀ c', w'.call? d = some c' → ∃ r r', w.call? d = some (.driving r) ∧
        c' = .driving r' ∧ r'.Mans i ∧ r'.settings = r.settings ∧ r'.dispatched = r.dispatched)
      (ended : ∀ e ∈ w'.ended, e.call = d → e ∈ w.ended ∨ w'.call? d = none ∧
        ∃ r, w.call? d = some (.driving r) ∧
          (e.outcome = .drove r.dispatched ∨
            e.outcome = .panicked ∧ Runner.maxPermits < r.capacity))
      (orders : ∀ n, w.Unmoved d n w') : Turn w d i a w'
  | takes {r r' : Runner} {e : Entry} {token : Token}
      (told : w.actDoings d a = [.returned e, .dispatched w.nextCall e.task])
      (next : w'.nextCall = w.nextCall + 1)
      (call : w.call? d = some (.driving r)) (call' : w'.call? d = some (.driving r'))
      (mans : r'.Mans i) (same : r'.settings = r.settings)
      (count : r'.dispatched = r.dispatched + 1)
      (ended : w'.ended = w.ended)
      (new : w'.call? w.nextCall = some (.dispatched d i e.task.id (.fresh token e.task)))
      (orders : ∀ n, n ≠ w.nextCall → w.Unmoved d n w') : Turn w d i a w'
  | begins {n j : Nat} {task : Uuid} {token : Token} {t : Task}
      (call : w.call? n = some (.dispatched d j task (.fresh token t)))
      (told : w.actDoings d a =
        (w.workers[j]?.map fun k => .begun n (.start k.handler t)).toList)
      (left : (w'.call? n).bind (Call.ordered? d) = none) (others : w.Alters n w') :
      Turn w d i a w'

theorem newcomer_nothing {d : Nat} {w w' : World}
    (h : (w'.call? w.nextCall).bind (Call.ordered? d) = none) : newcomer d w w' = [] := by
  simp [newcomer, h]

theorem debut_nothing {d n : Nat} {w : World} (h : (w.call? n).bind (Call.ordered? d) = none)
    (w' : World) : debut d n w w' = [] := by
  simp [debut, h]

section
variable {w : World} {d i : Nat} {a : Act} {w' : World}

theorem driving_unordered {n : Nat} {r : Runner} (h : w.call? n = some (.driving r)) :
    (w.call? n).bind (Call.ordered? d) = none := by
  rw [h]
  rfl

theorem Alters.unmoved {n : Nat} (h : w.Alters n w')
    (before : (w.call? n).bind (Call.ordered? d) = none)
    (after : (w'.call? n).bind (Call.ordered? d) = none) (m : Nat) : w.Unmoved d m w' := by
  by_cases hm : m = n
  · subst hm
    exact Or.inr ⟨before, after⟩
  · exact Or.inl (h.calls m hm)

variable (own : ∀ c, w.call? d = some c → ∃ r, c = .driving r ∧ r.Mans i)
include own

/-- The runner does not notice the act. -/
theorem turn_apart (untold : w.actDoings d a = []) (next : w.nextCall ≤ w'.nextCall)
    (same : w'.call? d = w.call? d) (ended : ∀ e ∈ w'.ended, e ∈ w.ended ∨ e.call ≠ d)
    (orders : ∀ n, w.Unmoved d n w') : w.Turn d i a w' := by
  refine .rests untold next (fun c' hc' => ?_) (fun e he hd => ?_) orders
  · rw [same] at hc'
    obtain ⟨r, rfl, hr⟩ := own c' hc'
    exact ⟨r, r, hc', rfl, hr, rfl, rfl⟩
  · exact Or.inl ((ended e he).resolve_right fun hn => hn hd)

/-- An act that alters a call other than the runner, which waits for no execution before or
after. -/
theorem turn_alters {n : Nat} (untold : w.actDoings d a = []) (h : w.Alters n w') (hn : n ≠ d)
    (before : (w.call? n).bind (Call.ordered? d) = none)
    (after : (w'.call? n).bind (Call.ordered? d) = none) : w.Turn d i a w' :=
  turn_apart own untold (Nat.le_of_eq h.next.symm) (h.calls d hn.symm)
    (fun e he => (h.ended e he).imp_right fun hc => by rwa [hc]) (h.unmoved before after)

end

section
variable {w : World} (hw : w.Staffed) {d i : Nat}
  (own : ∀ c, w.call? d = some c → ∃ r, c = .driving r ∧ r.Mans i)
include hw own

/-- A step of a runner, of `d` or of another one. -/
theorem drives_turn (hd : d < w.nextCall) {n j : Nat} {r : Runner} {w' : World}
    (call : w.call? n = some (.driving r)) (mans : r.Mans j) (step : w.Drove n j r w')
    (hact : w.act (.move (.step (.call n))) = w') : w.Turn d i (.move (.step (.call n))) w' := by
  have hn : n < w.nextCall := (hw.calls n _ call).2
  have before := driving_unordered (d := d) call
  have untold (nothing : w.answer? r = none) (h : w.Alters n w') :
      w.actDoings d (.move (.step (.call n))) = [] := by
    have hnew : w'.call? w.nextCall = none := by
      rw [h.calls _ (Nat.ne_of_gt hn), hw.unborn (Nat.le_refl _)]
    simp only [actDoings, hact, newcomer_nothing (by rw [hnew]; rfl), debut_nothing before,
      answered, call, nothing]
    simp
  have here (h : n = d) : j = i := by
    subst h
    obtain ⟨r', hr, hm⟩ := own _ call
    obtain rfl := Call.driving.inj hr
    exact Source.worker.inj (mans.source.symm.trans hm.source)
  cases step with
  | @goes r' mans' same count call' alters ended nothing =>
    have after := driving_unordered (d := d) call'
    by_cases hnd : n = d
    · obtain rfl := here hnd
      subst hnd
      refine .rests (untold nothing alters) (Nat.le_of_eq alters.next.symm) (fun c' hc' => ?_)
        (fun e he _ => Or.inl (ended ▸ he)) (alters.unmoved before after)
      exact ⟨r, r', call, Option.some.inj (hc'.symm.trans call'), mans', same, count⟩
    · exact turn_alters own (untold nothing alters) alters hnd before after
  | @takes r' e token mans' same count call' new calls next ended answer =>
    have told : w.actDoings d (.move (.step (.call n))) =
        (if n = d then [.returned e] else []) ++
          if n = d then [.dispatched w.nextCall e.task] else [] := by
      simp only [actDoings, hact, debut_nothing before, answered, call, answer, newcomer, new]
      by_cases hnd : n = d <;> simp [Call.ordered?, hnd]
    have orders (m : Nat) (hm : m ≠ w.nextCall) : w.Unmoved d m w' := by
      by_cases hmn : m = n
      · subst hmn
        exact Or.inr ⟨before, driving_unordered call'⟩
      · exact Or.inl (calls m hmn hm)
    by_cases hnd : n = d
    · obtain rfl := here hnd
      subst hnd
      rw [if_pos rfl, if_pos rfl] at told
      exact .takes told next call call' mans' same count ended new orders
    · rw [if_neg hnd, if_neg hnd] at told
      refine turn_apart own told (by omega) (calls d (Ne.symm hnd) (Nat.ne_of_lt hd))
        (fun e he => Or.inl (ended ▸ he)) fun m => ?_
      by_cases hm : m = w.nextCall
      · subst hm
        exact Or.inr ⟨by rw [hw.unborn (Nat.le_refl _)]; rfl, by rw [new]; exact if_neg hnd⟩
      · exact orders m hm
  | @ends o how call' alters ended nothing =>
    have after : (w'.call? n).bind (Call.ordered? d) = none := by
      rw [call']
      rfl
    by_cases hnd : n = d
    · subst hnd
      obtain ⟨now, ended⟩ := ended
      refine .rests (untold nothing alters) (Nat.le_of_eq alters.next.symm) (fun c' hc' => ?_)
        (fun e he hd => ?_) (alters.unmoved before after)
      · rw [call'] at hc'
        cases hc'
      · rw [ended] at he
        rcases List.mem_append.mp he with he | he
        · exact Or.inl he
        · rw [List.mem_singleton.mp he]
          exact Or.inr ⟨call', r, call, how⟩
    · exact turn_alters own (untold nothing alters) alters hnd before after

/-- A step of a call that a runner dispatched, `d` or another one. -/
theorem executes_turn {n owner j : Nat} {task : Uuid} {r : Run} {w' : World}
    (call : w.call? n = some (.dispatched owner j task r))
    (step : w.Executes owner j task r (w'.call? n)) (others : w.Alters n w')
    (hact : w.act (.move (.step (.call n))) = w') : w.Turn d i (.move (.step (.call n))) w' := by
  have hn : n < w.nextCall := (hw.calls n _ call).2
  have hnd : n ≠ d := by
    rintro rfl
    obtain ⟨r, hr, -⟩ := own _ call
    cases hr
  have hnew : w'.call? w.nextCall = none := by
    rw [others.calls _ (Nat.ne_of_gt hn), hw.unborn (Nat.le_refl _)]
  have told : w.actDoings d (.move (.step (.call n))) = debut d n w w' := by
    simp only [actDoings, hact, newcomer_nothing (by rw [hnew]; rfl), if_neg hnd]
    simp
  have after : (w'.call? n).bind (Call.ordered? d) = none := by
    generalize w'.call? n = c at step
    cases step <;> rfl
  by_cases before : (w.call? n).bind (Call.ordered? d) = none
  · exact turn_alters own (told.trans (debut_nothing before _)) others hnd before after
  · rw [call] at before
    cases r with
    | under e => exact absurd rfl before
    | fresh token t =>
      have ho : owner = d := by
        by_contra h
        exact before (if_neg h)
      subst ho
      refine .begins call (told.trans ?_) after others
      have hd : (w.call? n).bind (Call.ordered? owner) = some t := by
        rw [call]
        exact if_pos rfl
      simp only [debut, hd, Option.isSome_some, if_true]
      generalize w'.call? n = c at step
      cases step with
      | begins worker work => simp [worker, Call.handling?, work]
      | lost r nobody => simp [nobody]

/-- What an act is to a runner. -/
theorem act_turn (hd : d < w.nextCall) (a : Act) : w.Turn d i a (w.act a) := by
  have unborn := hw.unborn (Nat.le_refl w.nextCall)
  have h := act_acts hw a
  generalize hact : w.act a = w' at h
  cases h with
  | aside untold calls next ended =>
    exact turn_apart own (untold d) (Nat.le_of_eq next.symm) (calls d)
      (fun e he => Or.inl (ended ▸ he)) fun n => Or.inl (calls n)
  | begins c untold served unordered asks after =>
    subst after
    refine turn_apart own (untold d) (Nat.le_succ _) (begin_other w c (Nat.ne_of_lt hd))
      (fun e he => Or.inl he) fun n => ?_
    by_cases hn : n = w.nextCall
    · subst hn
      refine Or.inr ⟨by rw [unborn]; rfl, ?_⟩
      rw [begin_same]
      exact unordered d
    · exact Or.inl (begin_other w c hn)
  | alters n c untold call plain on others =>
    have hn : n ≠ d := by
      rintro rfl
      obtain ⟨r, rfl, -⟩ := own c call
      exact plain
    refine turn_alters own (untold d) others hn ?_ ?_
    · rw [call]
      exact plain.unordered d
    · cases hc : w'.call? n with
      | none => rfl
      | some c' => exact (on c' hc).1.unordered d
  | drives act call mans step =>
    subst act
    exact drives_turn hw own hd call mans step hact
  | executes act call step others =>
    subst act
    exact executes_turn hw own call step others hact

end

end TaskRelay.World
