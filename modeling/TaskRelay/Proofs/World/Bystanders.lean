import TaskRelay.Proofs.Runner.Permits
import TaskRelay.Proofs.World.Loops

/-!
# What a move leaves alone

A call stays as it is until it takes a step or is dropped, and only a call that takes a step
ends. How long an addition to the store takes is set by a move of its own and by nobody else.
-/

set_option autoImplicit false

namespace TaskRelay

section
variable (s : Store)

namespace Store

theorem deliver_addDelay {stream group consumer : String} {count : Nat} {s' : Store}
    {es : List Entry} (h : s.deliver stream group consumer count = .ok (some (s', es))) :
    s'.addDelay = s.addDelay := by
  unfold deliver at h
  split at h
  · cases h
  · split at h
    · cases h
    · split at h
      · cases h
      · cases h
        rfl

theorem look_addDelay (now : Nat) (r : GroupRead) : (s.look now r).1.addDelay = s.addDelay := by
  unfold look
  split
  · rfl
  · next h => exact deliver_addDelay s h
  · split <;> rfl

theorem beginRead_addDelay (now : Nat) (stream group consumer : String) (count block : Nat) :
    (s.beginRead now stream group consumer count block).1.addDelay = s.addDelay := by
  unfold beginRead
  split
  · rfl
  · exact look_addDelay s now _

theorem ack_addDelay (stream group id : String) :
    (s.ack stream group id).1.addDelay = s.addDelay := by
  unfold ack
  split
  · rfl
  · split
    · rfl
    · split <;> rfl

theorem createGroup_addDelay {stream group : String} {s' : Store}
    (h : s.createGroup stream group = .ok s') : s'.addDelay = s.addDelay := by
  unfold createGroup at h
  split at h
  · cases h
  · split at h <;>
      · cases h
        rfl

end Store

theorem GroupRead.resume_addDelay (r : GroupRead) (now : Nat) :
    (r.resume now s).1.addDelay = s.addDelay := by
  unfold resume
  split
  · exact s.look_addDelay now r
  · split <;> rfl

theorem Addition.resume_addDelay (a : Addition) (now : Nat) :
    (a.resume now s).1.addDelay = s.addDelay := by
  unfold resume
  split
  · rfl
  · split
    · next h =>
      unfold Store.append at h
      split at h
      · cases h
      · cases h
        rfl
    · rfl

theorem Publish.step_addDelay (p : Publish) (now : Nat) (k : Worker) :
    (p.step now k s).1.addDelay = s.addDelay := by
  cases p with
  | fresh task =>
    simp only [step]
    split <;> rfl
  | adding task a =>
    have h := a.resume_addDelay s now
    simp only [step]
    split <;> next he => rw [he] at h; exact h

theorem Consumer.afterRead_store (cfg : StreamSettings) (now : Nat) (handoff : Handoff Entry)
    (p : Progress GroupRead ReadResult) : (afterRead cfg now s handoff p).store = s := by
  rcases p with r | r | ⟨e | ⟨_ | ⟨e, es⟩⟩⟩ <;> rfl

theorem Consumer.afterOffer_store (handoff : Handoff Entry) (id : String) (rest : List Entry)
    (p : Progress Offer (Offered Entry)) : (afterOffer s handoff id rest p).store = s := by
  rcases p with o | o | ⟨_ | e⟩ <;> rfl

theorem Consumer.step_addDelay (cfg : StreamSettings) (view : StoreView) (now : Nat)
    (stopped : Bool) (handoff : Handoff Entry) (c : Consumer) :
    (c.step cfg view now stopped s handoff).store.addDelay = s.addDelay := by
  cases c with
  | spawned => rfl
  | top =>
    simp only [step]
    split
    · rfl
    · split
      · rfl
      · rw [afterRead_store]
        exact s.beginRead_addDelay ..
  | reading r =>
    simp only [step]
    split
    · rfl
    · rw [afterRead_store]
      exact r.resume_addDelay s now
  | pausing d =>
    simp only [step]
    split
    · rfl
    · split <;> rfl
  | holding batch =>
    cases batch with
    | nil => rfl
    | cons e rest => exact congrArg Store.addDelay (afterOffer_store ..)
  | offering o id rest => exact congrArg Store.addDelay (afterOffer_store ..)
  | acking id rest => exact s.ack_addDelay ..
  | requeueing batch => cases batch <;> rfl
  | adding a id rest =>
    have ha := a.resume_addDelay s now
    simp only [step]
    generalize a.resume now s = r at ha ⊢
    obtain ⟨s', a' | a' | x⟩ := r <;> exact ha

end

namespace World

def EndedIn (w : World) (n first last : Nat) (o : Outcome) : Prop :=
  ∃ time, first ≤ time ∧ time ≤ last ∧ w.ended? n = some ⟨n, time, o⟩

def EndsBy (w : World) (n first last : Nat) (o : Outcome) : Prop :=
  w.EndedIn n first last o ∨ (w.call? n ≠ none ∧ first ≤ w.now ∧ w.now ≤ last)

theorem EndedIn.ne_none {w : World} {n first last : Nat} {o : Outcome}
    (h : w.EndedIn n first last o) : w.ended? n ≠ none := by
  obtain ⟨time, -, -, he⟩ := h
  simp [he]

section
variable {w : World} (hw : w.Proper)
include hw

theorem move_addDelay {m : Move} (hm : ∀ millis, m ≠ .delayAdds millis) :
    (w.move m).store.addDelay = w.store.addDelay := by
  cases m with
  | delayAdds millis => exact absurd rfl (hm millis)
  | step a =>
    cases a with
    | loop i =>
      rcases w.move_cases i (.step (.loop i)) with ⟨k, c, -, hk, hc⟩ | h
      · rw [(move_loop hk hc).1]
        exact c.step_addDelay w.store ..
      · rw [move_idle (h rfl)]
    | call n =>
      cases hc : w.call? n with
      | none => rw [move, step_gone hc]
      | some c =>
        have hm : w.move (.step (.call n)) = _ := step_call hc
        rw [hm, conclude_store]
        cases c with
        | adding a => exact a.resume_addDelay w.store w.now
        | publishing i p =>
          cases hk : w.workers[i]? with
          | none => simp only [stepCall, hk]
          | some k =>
            simp only [stepCall, hk, notes_store]
            exact p.step_addDelay w.store w.now k
        | requesting i r =>
          cases hk : w.workers[i]? with
          | none => simp only [stepCall, hk]
          | some k => rw [(request_call hw hk n r).1]
        | shutting i s =>
          cases hk : w.workers[i]? with
          | none => simp only [stepCall, hk]
          | some k =>
            simp only [stepCall, hk, notes_store, setWorker]
            rcases shutdown_store w.now w.tokens w.store k s with hs | hs <;> rw [hs]
            rfl
        | _ => exact False.elim (hw.calls n _ hc)
  | create settings handler =>
    simp only [move, createWorker]
    cases hg : w.store.createGroup settings.stream settings.group with
    | error e => rfl
    | ok store => exact Store.createGroup_addDelay w.store hg
  | createGroup q =>
    simp only [move]
    cases hg : w.store.createGroup q.stream q.group with
    | error e => rfl
    | ok store => exact Store.createGroup_addDelay w.store hg
  | drop n => exact congrArg Store.addDelay (drop_store w n)
  | letGo i => exact congrArg Store.addDelay (letGo_store w i)
  | spawn i =>
    simp only [move]
    split <;> rfl
  | panic i =>
    simp only [move]
    split
    · split <;> rfl
    · rfl
  | _ => rfl

/-- Only waiting takes time. -/
theorem move_now (m : Move) : (∃ millis, m = .wait millis) ∨ (w.move m).now = w.now := by
  have unplain {n : Nat} {c : Call} (hc : w.call? n = some c) (h : ¬c.Plain) : False :=
    h (hw.calls n c hc)
  cases w.happen_occurs (.act (.move m)) with
  | rests steady => exact Or.inr steady.now
  | waits millis wait after =>
    cases wait
    exact Or.inl ⟨millis, rfl⟩
  | enters c opens after =>
    have hn : (w.move m).now = (w.begin c).1.now := congrArg World.now after
    exact Or.inr hn
  | aside left call aside stays onward => exact Or.inr onward.now
  | @runs n d c t w₁ p call owner =>
    refine (unplain call ?_).elim
    cases c with
    | dispatched | loose => exact fun h => h
    | _ => cases owner
  | drives call => exact (unplain call fun h => h).elim

theorem plain_aside {n : Nat} {c : Call} (hc : w.call? n = some c) : c.Aside := by
  have hp := hw.calls n c hc
  cases c with
  | driving | dispatched | loose => exact False.elim hp
  | _ => trivial

theorem stepCall_ended {n : Nat} {c : Call} (hc : w.call? n = some c) :
    (w.stepCall n c).1.ended = w.ended := by
  cases c with
  | adding a => exact (add_call hw n a).ended
  | publishing i p => exact (publish_call hw n i p).ended
  | shutting i s => exact (shutdown_call hw n i s).1.ended
  | requesting i r =>
    cases hk : w.workers[i]? with
    | none => simp only [stepCall, hk]
    | some k =>
      obtain ⟨-, ds, h, -⟩ := request_call hw hk n r
      exact h.ended
  | _ => exact False.elim (hw.calls n _ hc)

/-- What a step makes of the call that takes it. -/
theorem step_own {n : Nat} {c : Call} (hc : w.call? n = some c) :
    (w.move (.step (.call n))).call? n = left? (w.stepCall n c).2 ∧
      (w.move (.step (.call n))).ended = w.ended ++ endings n w.now (w.stepCall n c).2 := by
  have hm : w.move (.step (.call n)) = _ := step_call hc
  rw [hm, conclude_same, conclude_ended, stepCall_ended hw hc,
    (aside_step w n (plain_aside hw hc)).1.now]
  exact ⟨rfl, rfl⟩

theorem step_other {n m : Nat} (hn : n ≠ m) :
    (w.move (.step (.call m))).call? n = w.call? n := by
  cases hc : w.call? m with
  | none => rw [move, step_gone hc]
  | some c =>
    have hm : w.move (.step (.call m)) = _ := step_call hc
    rw [hm, conclude_other _ _ _ hn, call?, (aside_step w m (plain_aside hw hc)).1.calls, call?]

inductive Touches (w : World) (m : Move) (w' : World) : Prop
  | nothing (calls : w'.calls = w.calls) (ended : w'.ended = w.ended)
  | begins (c : Call) (after : w' = (w.begin c).1) (fresh : ∀ i r, c = .requesting i r → r = .fresh)
  | drops {n : Nat} {c : Call} (move : m = .drop n) (call : w.call? n = some c)
      (other : ∀ i s, c ≠ .shutting i s) (calls : w'.calls = Table.erase n w.calls)
      (ended : w'.ended = w.ended)

omit hw in
theorem move_touches {m : Move} (hm : ∀ a, m ≠ .step a) : w.Touches m (w.move m) := by
  cases m with
  | step a => exact absurd rfl (hm a)
  | publish i task => exact .begins _ rfl (by simp)
  | request i => exact .begins _ rfl (by simp)
  | shutdown i => exact .begins _ rfl (by simp)
  | add stream fields maxLen => exact .begins _ rfl (by simp)
  | drop n =>
    simp only [move, dropCall]
    split
    · next hc => split <;> exact .drops rfl hc (by simp) rfl rfl
    · next hc => exact .drops rfl hc (by simp) rfl rfl
    · next hc => exact .drops rfl hc (by simp) rfl rfl
    · exact .nothing rfl rfl
  | create settings handler =>
    simp only [move, createWorker]
    cases w.store.createGroup settings.stream settings.group with
    | error e => exact .nothing rfl rfl
    | ok store => exact .nothing rfl rfl
  | spawn i | createGroup q | letGo i =>
    simp only [move, letGo]
    split <;> exact .nothing rfl rfl
  | panic i =>
    simp only [move]
    split
    · split <;> exact .nothing rfl rfl
    · exact .nothing rfl rfl
  | _ => exact .nothing rfl rfl

inductive Leaves (w : World) (n : Nat) (m : Move) (w' : World) : Prop
  | stays (call : w'.call? n = w.call? n)
  | drops (move : m = .drop n) (gone : w'.call? n = none)
      (other : ∀ i s, w.call? n ≠ some (.shutting i s))
  | begins {c : Call} (new : n = w.nextCall) (call : w'.call? n = some c)
      (fresh : ∀ i r, c = .requesting i r → r = .fresh)

omit hw in
theorem Touches.leaves {m : Move} {w' : World} (h : w.Touches m w') (n : Nat) :
    w.Leaves n m w' := by
  cases h with
  | nothing calls => exact .stays (by rw [call?, calls, call?])
  | begins c after fresh =>
    subst after
    by_cases hn : n = w.nextCall
    · subst hn
      exact .begins rfl (begin_same w c) fresh
    · exact .stays (begin_other w c hn)
  | @drops m' c move call other calls =>
    by_cases hn : n = m'
    · subst hn
      refine .drops move ?_ fun i s h => ?_
      · rw [call?, calls, Table.get?_erase_self]
      · exact other i s (Option.some.inj (call.symm.trans h))
    · exact .stays (by rw [call?, calls, Table.get?_erase_of_ne hn, call?])

omit hw in
theorem Touches.ends_nothing {m : Move} {w' : World} (h : w.Touches m w') :
    w'.ended = w.ended := by
  cases h with
  | nothing calls ended => exact ended
  | begins c after => rw [after, begin]
  | drops move call other calls ended => exact ended

theorem move_leaves {n : Nat} {m : Move} (hm : m ≠ .step (.call n)) : w.Leaves n m (w.move m) := by
  cases m with
  | step a =>
    cases a with
    | call m => exact .stays (step_other hw fun h => hm (by rw [h]))
    | loop i => exact .stays (by rw [call?, move, step, (loop_steady w i).calls, call?])
  | _ => exact (move_touches (by simp)).leaves n

def begins? (w : World) : Move → Option Call
  | .publish i task => some (.publishing i (.fresh task))
  | .request i => some (.requesting i .fresh)
  | .shutdown i => some (.shutting i .fresh)
  | .add stream fields maxLen => some (.adding (w.store.beginAdd w.now stream fields maxLen))
  | _ => none

/-- How the calls of a world came to it. -/
theorem move_called {n : Nat} {c : Call} {m : Move} (hm : m ≠ .step (.call n))
    (hc : (w.move m).call? n = some c) :
    w.call? n = some c ∨ n = w.nextCall ∧ w.begins? m = some c := by
  have same (h : (w.move m).calls = w.calls) : w.call? n = some c := by
    rwa [call?, h] at hc
  have begun {c' : Call} (h : w.move m = (w.begin c').1) :
      w.call? n = some c ∨ n = w.nextCall ∧ some c' = some c := by
    rw [h] at hc
    by_cases hn : n = w.nextCall
    · subst hn
      exact Or.inr ⟨rfl, (begin_same w c').symm.trans hc⟩
    · exact Or.inl ((begin_other w c' hn).symm.trans hc)
  cases m with
  | step a =>
    cases a with
    | call m =>
      rw [step_other hw fun h => hm (by rw [h])] at hc
      exact Or.inl hc
    | loop i => exact Or.inl (same (loop_steady w i).calls)
  | publish | request | shutdown | add => exact begun rfl
  | drop id =>
    have hd : (w.move (.drop id)).calls = w.calls ∨
        (w.move (.drop id)).calls = Table.erase id w.calls := by
      simp only [move, dropCall]
      split
      · split <;> exact Or.inr rfl
      · exact Or.inr rfl
      · exact Or.inr rfl
      · exact Or.inl rfl
    rcases hd with hd | hd
    · exact Or.inl (same hd)
    · rw [call?, hd] at hc
      by_cases hn : n = id
      · rw [hn, Table.get?_erase_self] at hc
        cases hc
      · rw [Table.get?_erase_of_ne hn] at hc
        exact Or.inl hc
  | create settings handler =>
    refine Or.inl (same ?_)
    simp only [move, createWorker]
    cases w.store.createGroup settings.stream settings.group <;> rfl
  | spawn i | createGroup q | letGo i =>
    refine Or.inl (same ?_)
    simp only [move, letGo]
    split <;> rfl
  | panic i =>
    refine Or.inl (same ?_)
    simp only [move]
    split
    · split <;> rfl
    · rfl
  | _ => exact Or.inl (same rfl)

omit hw in
theorem loop_ended (i : Nat) : (w.move (.step (.loop i))).ended = w.ended := by
  rcases w.move_cases i (.step (.loop i)) with ⟨k, c, -, hk, hc⟩ | h
  · have hm : w.move (.step (.loop i)) = _ := stepLoop_active hk hc rfl
    rw [hm]
    exact notes_ended _ _
  · rw [move_idle (h rfl)]

/-- Only a call that takes a step ends. -/
theorem move_ended (m : Move) : ∃ es, (w.move m).ended = w.ended ++ es ∧
    ∀ e ∈ es, m = .step (.call e.call) ∧ w.call? e.call ≠ none ∧
      (w.move m).call? e.call = none := by
  have same (h : (w.move m).ended = w.ended) : ∃ es, (w.move m).ended = w.ended ++ es ∧
      ∀ e ∈ es, m = .step (.call e.call) ∧ w.call? e.call ≠ none ∧
        (w.move m).call? e.call = none :=
    ⟨[], by rw [h, List.append_nil], by simp⟩
  cases m with
  | step a =>
    cases a with
    | loop i => exact same (loop_ended i)
    | call n =>
      cases hc : w.call? n with
      | none => exact same (by rw [move, step_gone hc])
      | some c =>
        obtain ⟨hcall, hended⟩ := step_own hw hc
        refine ⟨_, hended, fun e he => ?_⟩
        cases hp : (w.stepCall n c).2 with
        | done o =>
          rw [hp] at he hcall
          obtain rfl : n = e.call := (congrArg Ended.call (List.mem_singleton.mp he)).symm
          exact ⟨rfl, by simp [hc], hcall⟩
        | running c' | waiting c' =>
          rw [hp] at he
          cases he
  | _ => exact same (move_touches (by simp)).ends_nothing

/-- The end of a call stays on record. -/
theorem ended?_move {n : Nat} {e : Ended} (h : w.ended? n = some e) (m : Move) :
    (w.move m).ended? n = some e := by
  obtain ⟨es, he, -⟩ := move_ended hw m
  rw [ended?, he, List.find?_append, ← ended?, h, Option.some_or]

/-- A call that ends in a step is on record with the time and its outcome. -/
theorem ended?_own {n : Nat} {c : Call} (hc : w.call? n = some c) (fore : w.ended? n = none)
    {o : Outcome} (h : (w.stepCall n c).2 = .done o) :
    (w.move (.step (.call n))).ended? n = some ⟨n, w.now, o⟩ := by
  rw [ended?, (step_own hw hc).2, h, List.find?_append, ← ended?, fore]
  simp [endings]

theorem step_now (a : Agent) : (w.move (.step a)).now = w.now :=
  (move_now hw (.step a)).resolve_left (by simp)

/-- A move that is not its step leaves a call alone, unless it is dropped. -/
theorem call_kept (hf : w.Filed) {n : Nat} {c : Call} (hc : w.call? n = some c) {m : Move}
    (hs : m ≠ .step (.call n)) (hd : m = .drop n → ∃ i s, c = .shutting i s) :
    (w.move m).call? n = some c := by
  cases move_leaves hw hs with
  | stays call => exact call.trans hc
  | drops move gone other =>
    obtain ⟨i, s, rfl⟩ := hd move
    exact absurd hc (other i s)
  | begins new call =>
    exact absurd (hf.known n c hc) (Nat.not_lt.mpr (Nat.le_of_eq new.symm))

theorem endedIn_move {n first last : Nat} {o : Outcome} (h : w.EndedIn n first last o) (m : Move) :
    (w.move m).EndedIn n first last o := by
  obtain ⟨time, hf, hl, he⟩ := h
  exact ⟨time, hf, hl, ended?_move hw he m⟩

end

end World

end TaskRelay
