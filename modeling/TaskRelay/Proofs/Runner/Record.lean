import TaskRelay.Proofs.Runner.Passes

/-!
# The record of the calls

An act begins a call, or alters one that is under way, or leaves the record as it is. A call
of a worker or a producer stays one, and goes on with the same worker. Calls are numbered in
the order in which they began, and a number is never used again.
-/

set_option autoImplicit false

namespace TaskRelay

def World.Act.starts? : World.Act → Option Nat
  | .move (.request i) => some i
  | .drive i _ _ => some i
  | _ => none

def World.Act.Leaves (i : Nat) (a : World.Act) : Prop := a.starts? ≠ some i

instance (i : Nat) (a : World.Act) : Decidable (a.Leaves i) :=
  inferInstanceAs (Decidable (a.starts? ≠ some i))

theorem Call.Plain.served {c : Call} (hc : c.Plain) : c.Served := by
  cases c with
  | adding | publishing | requesting | shutting => trivial
  | _ => exact False.elim hc

theorem Call.Plain.unordered {c : Call} (hc : c.Plain) (d : Nat) : c.ordered? d = none := by
  cases c with
  | dispatched => exact False.elim hc
  | _ => rfl

theorem Call.asked_driving {r : Runner} {i : Nat} (hr : r.Mans i) :
    (Call.driving r).asked? = some i := by
  simp only [Call.asked?, hr.source]

namespace World

section
variable (w : World) (n : Nat) (p : Progress Call Outcome)

theorem conclude_same : (w.conclude n p).call? n = left? p := by
  cases p with
  | running c | waiting c => exact Table.get?_insert_self n c w.calls
  | done o => exact Table.get?_erase_self n w.calls

theorem conclude_other {m : Nat} (hm : m ≠ n) : (w.conclude n p).call? m = w.call? m := by
  cases p with
  | running c | waiting c => exact Table.get?_insert_of_ne hm c w.calls
  | done o => exact Table.get?_erase_of_ne hm w.calls

theorem conclude_nextCall : (w.conclude n p).nextCall = w.nextCall := by
  cases p <;> rfl

variable {n p} in
/-- Only the call that took the step may end. -/
theorem of_conclude_ended {e : Ended} (he : e ∈ (w.conclude n p).ended) :
    e ∈ w.ended ∨ e.call = n := by
  rw [conclude_ended] at he
  refine (List.mem_append.mp he).imp_right fun he => ?_
  cases p with
  | done o => exact congrArg Ended.call (List.mem_singleton.mp he)
  | _ => cases he

theorem begin_same (c : Call) : (w.begin c).1.call? w.nextCall = some c :=
  Table.get?_insert_self _ _ _

theorem begin_other (c : Call) {m : Nat} (hm : m ≠ w.nextCall) :
    (w.begin c).1.call? m = w.call? m :=
  Table.get?_insert_of_ne hm _ _

end

theorem step_gone {w : World} {n : Nat} (call : w.call? n = none) :
    (w.step (.call n)).1 = w := by
  have call' : Table.get? n w.calls = none := call
  simp only [step, call']

structure Alters (w : World) (n : Nat) (w' : World) : Prop where
  calls : ∀ m, m ≠ n → w'.call? m = w.call? m
  next : w'.nextCall = w.nextCall
  ended : ∀ e ∈ w'.ended, e ∈ w.ended ∨ e.call = n

theorem Alters.concluded {w w₁ : World} (calls : w₁.calls = w.calls)
    (next : w₁.nextCall = w.nextCall) (ended : w₁.ended = w.ended) (n : Nat)
    (p : Progress Call Outcome) : w.Alters n (w₁.conclude n p) := by
  refine ⟨fun m hm => ?_, (conclude_nextCall w₁ n p).trans next, fun e he => ?_⟩
  · rw [conclude_other w₁ n p hm, call?, calls, call?]
  · rw [← ended]
    exact of_conclude_ended w₁ he

inductive Drove (w : World) (n i : Nat) (r : Runner) (w' : World) : Prop
  | goes {r' : Runner} (mans : r'.Mans i) (same : r'.settings = r.settings)
      (count : r'.dispatched = r.dispatched) (call : w'.call? n = some (.driving r'))
      (alters : w.Alters n w') (ended : w'.ended = w.ended)
      (nothing : w.answer? r = none) : Drove w n i r w'
  | takes {r' : Runner} {e : Entry} {token : Token} (mans : r'.Mans i)
      (same : r'.settings = r.settings) (count : r'.dispatched = r.dispatched + 1)
      (call : w'.call? n = some (.driving r'))
      (new : w'.call? w.nextCall = some (.dispatched n i e.task.id (.fresh token e.task)))
      (calls : ∀ m, m ≠ n → m ≠ w.nextCall → w'.call? m = w.call? m)
      (next : w'.nextCall = w.nextCall + 1) (ended : w'.ended = w.ended)
      (answer : w.answer? r = some e) : Drove w n i r w'
  | ends {o : Outcome}
      (how : o = .drove r.dispatched ∨ o = .panicked ∧ Runner.maxPermits < r.capacity)
      (call : w'.call? n = none) (alters : w.Alters n w')
      (ended : ∃ now, w'.ended = w.ended ++ [⟨n, now, o⟩]) (nothing : w.answer? r = none) :
      Drove w n i r w'

theorem Tends.record {w w₁ : World} {i : Nat} (h : w.Tends i w₁) :
    w₁.calls = w.calls ∧ w₁.nextCall = w.nextCall ∧ w₁.ended = w.ended := by
  rcases h with h | ⟨k, k', -, -, h⟩ <;> exact ⟨h.calls, h.nextCall, h.ended⟩

theorem Drives.drove {w : World} {n i : Nat} {r : Runner} {t : World × Progress Runner Outcome}
    (hn : n < w.nextCall) (h : w.Drives n i r t) :
    w.Drove n i r (t.1.conclude n (t.2.within .driving fun o => o)) := by
  cases h with
  | @goes w₁ r' p tends mans same count on nothing =>
    obtain ⟨hc, hn, he⟩ := tends.record
    have alters := Alters.concluded hc hn he n (p.within .driving fun o => o)
    rcases on with rfl | rfl
    · exact .goes mans same count (conclude_same w₁ n _) alters he nothing
    · exact .goes mans same count (conclude_same w₁ n _) alters he nothing
  | @takes w₁ r' k k' e token mans same count worker work answer dispatched =>
    have calls (m : Nat) (hm : m ≠ n) : (w₁.conclude n (.running (.driving r'))).call? m =
        ((w.setWorker i k').begin (.dispatched n i e.task.id (.fresh token e.task))).1.call? m := by
      rw [conclude_other w₁ n _ hm, call?, dispatched.calls, call?]
    have new := (calls _ (Nat.ne_of_gt hn)).trans (begin_same (w.setWorker i k') _)
    exact .takes mans same count (conclude_same w₁ n _) new
      (fun m hm hm' => (calls m hm).trans (begin_other _ _ hm')) dispatched.nextCall
      dispatched.ended answer
  | @ends w₁ same nothing =>
    exact .ends (Or.inl rfl) (conclude_same w₁ n _)
      (.concluded same.calls same.nextCall same.ended n _)
      ⟨w₁.now, (conclude_ended w₁ n _).trans (congrArg (· ++ _) same.ended)⟩ nothing
  | @panics w₁ many same nothing =>
    exact .ends (Or.inr ⟨rfl, many⟩) (conclude_same w₁ n _)
      (.concluded same.calls same.nextCall same.ended n _)
      ⟨w₁.now, (conclude_ended w₁ n _).trans (congrArg (· ++ _) same.ended)⟩ nothing

inductive Acts (w : World) (a : Act) (w' : World) : Prop
  | aside (untold : ∀ d, w.actDoings d a = []) (calls : ∀ m, w'.call? m = w.call? m)
      (next : w'.nextCall = w.nextCall) (ended : w'.ended = w.ended) : Acts w a w'
  | begins (c : Call) (untold : ∀ d, w.actDoings d a = []) (served : c.Served)
      (unordered : ∀ d, c.ordered? d = none) (asks : ∀ i, c.asked? = some i → ¬a.Leaves i)
      (after : w' = (w.begin c).1) : Acts w a w'
  | alters (n : Nat) (c : Call) (untold : ∀ d, w.actDoings d a = [])
      (call : w.call? n = some c) (plain : c.Plain)
      (on : ∀ c', w'.call? n = some c' → c'.Plain ∧ c'.asked? = c.asked?)
      (others : w.Alters n w') : Acts w a w'
  | drives {n i : Nat} {r : Runner} (act : a = .move (.step (.call n)))
      (call : w.call? n = some (.driving r)) (mans : r.Mans i) (step : w.Drove n i r w') :
      Acts w a w'
  | executes {n owner i : Nat} {task : Uuid} {r : Run} (act : a = .move (.step (.call n)))
      (call : w.call? n = some (.dispatched owner i task r))
      (step : w.Executes owner i task r (w'.call? n)) (others : w.Alters n w') : Acts w a w'

section
variable {w : World}

theorem Staffed.unborn (hw : w.Staffed) {n : Nat} (hn : w.nextCall ≤ n) : w.call? n = none := by
  cases hc : w.call? n with
  | none => rfl
  | some c => exact absurd (hw.calls n c hc).2 (Nat.not_lt.mpr hn)

/-- Nothing is told of a step of somebody who is neither a runner nor dispatched by one. -/
theorem untold_step {n : Nat} (hc : ∀ c, w.call? n = some c → c.Plain)
    (hn : (w.act (.move (.step (.call n)))).call? w.nextCall = none) (d : Nat) :
    w.actDoings d (.move (.step (.call n))) = [] := by
  simp only [actDoings, answered, newcomer, debut, hn]
  cases h : w.call? n with
  | none => simp
  | some c =>
    have hp := hc c h
    cases c with
    | driving | dispatched => exact False.elim hp
    | _ => simp [Call.ordered?]

variable (hw : w.Staffed)
include hw

theorem call_acts (n : Nat) :
    w.Acts (.move (.step (.call n))) (w.act (.move (.step (.call n)))) := by
  have unborn := hw.unborn (Nat.le_refl w.nextCall)
  cases hc : w.call? n with
  | none =>
    have hc' : Table.get? n w.calls = none := hc
    have hm : w.act (.move (.step (.call n))) = w := by simp [act, move, step, hc']
    have hd := untold_step (w := w) (n := n) (by simp [hc]) (by rw [hm]; exact unborn)
    rw [hm]
    exact .aside hd (fun _ => rfl) rfl rfl
  | some c =>
    have hm : w.act (.move (.step (.call n))) = _ := step_call hc
    have hne : n ≠ w.nextCall := Nat.ne_of_lt (hw.calls n c hc).2
    have plain (hp : c.Plain) :
        w.Acts (.move (.step (.call n))) (w.act (.move (.step (.call n)))) := by
      have h := plain_step hw hc hp
      have others : w.Alters n (w.act (.move (.step (.call n)))) := by
        rw [hm]
        exact .concluded h.calls h.nextCall h.ended n _
      refine .alters n c (untold_step ?_ ?_) hc hp ?_ others
      · intro c' hc'
        obtain rfl : c = c' := Option.some.inj (hc.symm.trans hc')
        exact hp
      · rw [others.calls _ hne.symm]
        exact unborn
      · intro c' hc'
        rw [hm, conclude_same] at hc'
        apply h.on
        generalize (w.stepCall n c).2 = p at hc'
        cases p with
        | running c₁ => exact Or.inl (congrArg _ (Option.some.inj hc'))
        | waiting c₁ => exact Or.inr (congrArg _ (Option.some.inj hc'))
        | done o => cases hc'
    cases c with
    | driving r =>
      obtain ⟨i, hr⟩ := (hw.calls n _ hc).1
      exact .drives rfl hc hr (hm ▸ (runner_step hr hw.workers).drove (hw.calls n _ hc).2)
    | dispatched owner i task r =>
      obtain ⟨h, hs⟩ := w.dispatched_step n owner i task r
      rw [hm]
      exact .executes rfl hc (by rwa [conclude_same])
        (.concluded h.calls h.nextCall h.ended n _)
    | adding | publishing | requesting | shutting => exact plain trivial
    | _ => exact False.elim (hw.calls n _ hc).1

omit hw in
/-- What drops a call erases it, and may drop its worker. -/
theorem drop_acts (n : Nat) : w.Acts (.move (.drop n)) (w.act (.move (.drop n))) := by
  have erases {c : Call} (hc : w.call? n = some c) (hp : c.Plain) {w' : World}
      (calls : w'.calls = Table.erase n w.calls) (next : w'.nextCall = w.nextCall)
      (ended : w'.ended = w.ended) : w.Acts (.move (.drop n)) w' := by
    refine .alters n c (fun _ => rfl) hc hp ?_ ⟨?_, next, fun e he => Or.inl (ended ▸ he)⟩
    · intro c' hc'
      rw [call?, calls, Table.get?_erase_self] at hc'
      cases hc'
    · intro m hm
      rw [call?, calls, Table.get?_erase_of_ne hm, call?]
  simp only [act, move, dropCall]
  split
  · next i r hc =>
    split
    · exact erases hc trivial rfl rfl rfl
    · exact erases hc trivial rfl rfl rfl
  · next hc => exact erases hc trivial rfl rfl rfl
  · next hc => exact erases hc trivial rfl rfl rfl
  · exact .aside (fun _ => rfl) (fun _ => rfl) rfl rfl

theorem act_acts (a : Act) : w.Acts a (w.act a) := by
  have aside {a : Act} (untold : ∀ d, w.actDoings d a = []) {w' : World}
      (calls : w'.calls = w.calls) (next : w'.nextCall = w.nextCall)
      (ended : w'.ended = w.ended) : w.Acts a w' :=
    .aside untold (fun m => by rw [call?, calls, call?]) next ended
  cases a with
  | move m =>
    cases m with
    | step a =>
      cases a with
      | call n => exact call_acts hw n
      | loop i =>
        simp only [act, move, step]
        cases hk : w.workers[i]? with
        | none =>
          simp only [stepLoop, hk]
          exact aside (fun _ => rfl) rfl rfl rfl
        | some k =>
          cases hc : k.consumer with
          | active c =>
            obtain ⟨s, hs⟩ : ∃ s, c.step k.settings w.view w.now (w.isCancelled k.stop) w.store
                k.handoff = s := ⟨_, rfl⟩
            rw [stepLoop_active hk hc hs]
            have h := Matches.notes { w with store := s.store } s.notes
            exact aside (fun _ => rfl) h.calls h.nextCall h.ended
          | _ =>
            simp only [stepLoop, hk, hc]
            exact aside (fun _ => rfl) rfl rfl rfl
    | create settings handler =>
      simp only [act, move, createWorker]
      cases w.store.createGroup settings.stream settings.group <;>
        exact aside (fun _ => rfl) rfl rfl rfl
    | spawn i | createGroup q =>
      simp only [act, move]
      split <;> exact aside (fun _ => rfl) rfl rfl rfl
    | panic i =>
      simp only [act, move]
      split
      · split <;> exact aside (fun _ => rfl) rfl rfl rfl
      · exact aside (fun _ => rfl) rfl rfl rfl
    | letGo i =>
      simp only [act, move, letGo]
      split <;> exact aside (fun _ => rfl) rfl rfl rfl
    | publish i task =>
      exact .begins (.publishing i (.fresh task)) (fun _ => rfl) trivial (fun _ => rfl)
        (by simp [Call.asked?]) rfl
    | request i =>
      exact .begins (.requesting i .fresh) (fun _ => rfl) trivial (fun _ => rfl)
        (by simp [Call.asked?, Act.Leaves, Act.starts?]) rfl
    | shutdown i =>
      exact .begins (.shutting i .fresh) (fun _ => rfl) trivial (fun _ => rfl)
        (by simp [Call.asked?]) rfl
    | add stream fields maxLen =>
      exact .begins (.adding (w.store.beginAdd w.now stream fields maxLen)) (fun _ => rfl) trivial
        (fun _ => rfl) (by simp [Call.asked?]) rfl
    | drop n => exact drop_acts n
    | _ => exact aside (fun _ => rfl) rfl rfl rfl
  | drive i settings t =>
    exact .begins (.driving ⟨.worker i, settings, t, 0, .fresh⟩) (fun _ => rfl)
      ⟨i, rfl, by simp⟩ (fun _ => rfl) (by simp [Call.asked?, Act.Leaves, Act.starts?]) rfl
  | cancel t => exact aside (fun _ => rfl) rfl rfl rfl

end

section
variable {w w' : World} {a : Act}

theorem Acts.next (h : w.Acts a w') :
    w'.nextCall = w.nextCall ∨ w'.nextCall = w.nextCall + 1 := by
  cases h with
  | aside untold calls next ended => exact Or.inl next
  | begins c untold served unordered asks after => exact Or.inr (congrArg World.nextCall after)
  | alters n c untold call plain on others => exact Or.inl others.next
  | drives act call mans step =>
    cases step with
    | goes mans same count call alters => exact Or.inl alters.next
    | takes mans same count call new calls next => exact Or.inr next
    | ends how call alters => exact Or.inl alters.next
  | executes act call step others => exact Or.inl others.next

inductive Origin (w : World) (a : Act) (w' : World) (n : Nat) (c' : Call) : Prop
  | old {c : Call} (call : w.call? n = some c) (asked : c'.asked? = c.asked?)
      (ordered : ∀ d, c'.ordered? d ≠ none → c.ordered? d ≠ none) : Origin w a w' n c'
  | new (number : n = w.nextCall) (next : w'.nextCall = w.nextCall + 1)
      (asks : ∀ i, c'.asked? = some i → ¬a.Leaves i)
      (ordered : ∀ d, c'.ordered? d ≠ none → d < w.nextCall) : Origin w a w' n c'

theorem Acts.origin (h : w.Acts a w') (hw : w.Staffed) {n : Nat} {c' : Call}
    (hc : w'.call? n = some c') : c'.Served ∧ Origin w a w' n c' := by
  have old (hc : w.call? n = some c') : c'.Served ∧ Origin w a w' n c' :=
    ⟨(hw.calls n c' hc).1, .old hc rfl fun _ => id⟩
  cases h with
  | aside untold calls next ended => exact old ((calls n).symm.trans hc)
  | begins c untold served unordered asks after =>
    subst after
    by_cases hn : n = w.nextCall
    · subst hn
      obtain rfl : c = c' := Option.some.inj ((begin_same w c).symm.trans hc)
      exact ⟨served, .new rfl rfl asks fun d hd => absurd (unordered d) hd⟩
    · exact old ((begin_other w c hn).symm.trans hc)
  | alters m c untold call plain on others =>
    by_cases hn : n = m
    · subst hn
      obtain ⟨hp, ha⟩ := on c' hc
      exact ⟨hp.served, .old call ha fun d hd => absurd (hp.unordered d) hd⟩
    · exact old ((others.calls n hn).symm.trans hc)
  | @drives m i r act call mans step =>
    by_cases hn : n = m
    · subst hn
      have still {r' : Runner} (hr : r'.Mans i) (hc' : w'.call? n = some (.driving r')) :
          c'.Served ∧ Origin w a w' n c' := by
        obtain rfl : .driving r' = c' := Option.some.inj (hc'.symm.trans hc)
        exact ⟨⟨i, hr⟩, .old call
          ((Call.asked_driving hr).trans (Call.asked_driving mans).symm) fun _ => id⟩
      cases step with
      | goes mans' same count call' => exact still mans' call'
      | takes mans' same count call' => exact still mans' call'
      | ends how call' =>
        rw [call'] at hc
        cases hc
    · cases step with
      | goes mans' same count call' alters => exact old ((alters.calls n hn).symm.trans hc)
      | takes mans' same count call' new calls next =>
        by_cases hn' : n = w.nextCall
        · subst hn'
          obtain rfl := Option.some.inj (new.symm.trans hc)
          refine ⟨trivial, .new rfl next (by simp [Call.asked?]) fun d hd => ?_⟩
          have hm : m = d := by simpa [Call.ordered?] using hd
          exact hm ▸ (hw.calls m _ call).2
        · exact old ((calls n hn hn').symm.trans hc)
      | ends how call' alters => exact old ((alters.calls n hn).symm.trans hc)
  | @executes m owner i task r act call step others =>
    by_cases hn : n = m
    · subst hn
      rw [hc] at step
      cases step <;> exact ⟨trivial, .old call rfl fun _ hd => absurd rfl hd⟩
    · exact old ((others.calls n hn).symm.trans hc)

theorem Acts.past (h : w.Acts a w') (hw : w.Staffed) : ∀ e ∈ w'.ended, e.call < w.nextCall := by
  intro e he
  have of_alters {n : Nat} {c : Call} (hc : w.call? n = some c) (h : w.Alters n w') :
      e.call < w.nextCall := by
    rcases h.ended e he with hm | rfl
    · exact hw.past e hm
    · exact (hw.calls _ c hc).2
  cases h with
  | aside untold calls next ended => exact hw.past e (ended ▸ he)
  | begins c untold served unordered asks after =>
    subst after
    exact hw.past e he
  | alters n c untold call plain on others => exact of_alters call others
  | drives act call mans step =>
    cases step with
    | goes mans' same count call' alters => exact of_alters call alters
    | takes mans' same count call' new calls next ended => exact hw.past e (ended ▸ he)
    | ends how call' alters => exact of_alters call alters
  | executes act call step others => exact of_alters call others

end

theorem act_staffed {w : World} (hw : w.Staffed) (a : Act) : (w.act a).Staffed := by
  have hp := act_passes hw a
  have ha := act_acts hw a
  have hle : w.nextCall ≤ (w.act a).nextCall := by
    rcases ha.next with h | h <;> omega
  refine ⟨hp.workers, fun n c hc => ?_, fun n c d hc hd => ?_, fun e he => ?_,
    hp.shelves hw.shelves, hp.fits hw.fits⟩
  · obtain ⟨hs, ho⟩ := ha.origin hw hc
    cases ho with
    | old call => exact ⟨hs, Nat.lt_of_lt_of_le (hw.calls n _ call).2 hle⟩
    | new number next => exact ⟨hs, by omega⟩
  · obtain ⟨-, ho⟩ := ha.origin hw hc
    cases ho with
    | old call asked ordered => exact hw.younger n _ d call (ordered d hd)
    | new number next asks ordered => exact number ▸ ordered d hd
  · exact Nat.lt_of_lt_of_le (ha.past hw e he) hle

theorem play_staffed (as : List Act) {w : World} (hw : w.Staffed) : (play as w).Staffed := by
  induction as generalizing w with
  | nil => exact hw
  | cons a as ih => exact ih (act_staffed hw a)

theorem onStore_staffed (view : StoreView) (ops : List Store.Op) :
    (onStore view ops).Staffed := by
  refine ⟨?_, ?_, ?_, ?_, Store.after_sound ops, ?_⟩
  · simp [onStore, start]
  · simp [onStore, start, call?, Table.get?]
  · simp [onStore, start, call?, Table.get?]
  · simp [onStore, start]
  · simp [onStore, start, flow, Flow.Fit]

def Asked (w : World) (i : Nat) (o : Option Nat) : Prop :=
  ∀ n c, w.call? n = some c → c.asked? = some i → o = some n

theorem Asked.act {w : World} {i : Nat} {o : Option Nat} {a : Act} (h : w.Asked i o)
    (hw : w.Staffed) (ha : a.Leaves i) : (w.act a).Asked i o := by
  intro n c' hc' hi
  obtain ⟨-, ho⟩ := (act_acts hw a).origin hw hc'
  cases ho with
  | old call asked => exact h n _ call (asked.symm.trans hi)
  | new number next asks => exact absurd ha (asks i hi)

theorem Asked.play {i : Nat} {o : Option Nat} {as : List Act} (ha : ∀ a ∈ as, a.Leaves i)
    {w : World} (h : w.Asked i o) (hw : w.Staffed) : (play as w).Asked i o := by
  induction as generalizing w with
  | nil => exact h
  | cons a as ih =>
    rw [List.forall_mem_cons] at ha
    exact ih ha.2 (h.act hw ha.1) (act_staffed hw a)

end World

end TaskRelay
