import TaskRelay.Proofs.World.Agents

/-!
# Moves of the world are steps of the flow

Seen from any queue a move of the world is one step of its flow with the deeds of
the move, after which some loops may have ended. So whatever is kept by the steps of a
flow holds after every run.
-/

set_option autoImplicit false

namespace TaskRelay.World
open scoped List

section
variable {w : World} (hw : w.Proper)
include hw

theorem worker_follows {i : Nat} {k k' : Worker} (hk : w.workers[i]? = some k)
    (h : WorkerStep i k [] k') : w.Goes (fun _ => []) (w.setWorker i k') := by
  simpa only [ite_self] using worker_goes hk hw h

theorem create_follows (settings : StreamSettings) (handler : Handler) :
    w.Follows (fun _ => []) (w.move (.create settings handler)) ∧
      ∀ q, ((w.move (.create settings handler)).store.shelf q).entries =
        (w.store.shelf q).entries := by
  cases hg : w.store.createGroup settings.stream settings.group with
  | error e =>
    have hm : w.move (.create settings handler) = w := by simp [move, createWorker, hg]
    rw [hm]
    exact ⟨(goes_nowhere hw).follows, fun _ => rfl⟩
  | ok store =>
    have hsh := Store.createGroup_shelf
      (show w.store.createGroup settings.queue.stream settings.queue.group = .ok store from hg)
    have hst : (w.move (.create settings handler)).store = store := by
      simp [move, createWorker, hg]
    have hks : (w.move (.create settings handler)).workers =
        w.workers ++ [Worker.create settings handler w.tokens.fresh.2] := by
      simp [move, createWorker, hg, note, Worker.createdNote, Note.info]
    have hcs : (w.move (.create settings handler)).calls = w.calls := by
      simp [move, createWorker, hg, note, Worker.createdNote, Note.info]
    have hor : ∀ q, store.shelf q = w.store.shelf q ∨ store.shelf q = (w.store.shelf q).found := by
      intro q
      rw [hsh]
      split
      · exact Or.inr rfl
      · exact Or.inl rfl
    refine ⟨Goes.follows ⟨?_, hcs ▸ hw.calls, fun q => ?_⟩, fun q => ?_⟩
    · intro k hk
      rw [hks] at hk
      rcases List.mem_append.mp hk with hk | hk
      · exact hw.workers k hk
      · rw [List.mem_singleton.mp hk]
        exact ⟨fun _ => rfl, trivial⟩
    · have hj : (w.move (.create settings handler)).flow q = ⟨store.shelf q,
          (w.flow q).stations ++
            [(Worker.create settings handler w.tokens.fresh.2).station q]⟩ := by
        simp [flow, hst, hks]
      rw [hj]
      by_cases hq : (Worker.create settings handler w.tokens.fresh.2).queue = q
      · rw [Worker.station_own hq]
        exact .join (w.flow q) (hor q) (Or.inl rfl)
      · rw [Worker.station_other hq]
        exact .join (w.flow q) (hor q) (Or.inr rfl)
    · rw [hst]
      rcases hor q with h | h <;> rw [h]
      rfl

theorem createGroup_follows (q' : Queue) :
    w.Follows (fun _ => []) (w.move (.createGroup q')) ∧
      ∀ q, ((w.move (.createGroup q')).store.shelf q).entries = (w.store.shelf q).entries := by
  cases hg : w.store.createGroup q'.stream q'.group with
  | error e =>
    have hm : w.move (.createGroup q') = w := by simp [move, hg]
    rw [hm]
    exact ⟨(goes_nowhere hw).follows, fun _ => rfl⟩
  | ok store =>
    have hm : w.move (.createGroup q') = { w with store := store } := by simp [move, hg]
    rw [hm]
    have hsh := Store.createGroup_shelf hg
    refine ⟨Goes.follows ⟨hw.workers, hw.calls, fun q => ?_⟩, fun q => ?_⟩
    · change (w.flow q).Step [] ⟨store.shelf q, (w.flow q).stations⟩
      rw [hsh]
      split
      · exact .found (w.flow q)
      · exact .rest (w.flow q)
    · change (store.shelf q).entries = _
      rw [hsh]
      split <;> rfl

theorem drop_follows (id : Nat) :
    w.Follows (fun _ => []) (w.dropCall id) ∧ (w.dropCall id).store = w.store := by
  have hg : w.Goes (fun _ => []) { w with calls := Table.erase id w.calls } :=
    (goes_nowhere hw).recall rfl rfl (erase_plain hw id)
  have hw' : Proper { w with calls := Table.erase id w.calls } :=
    ⟨hw.workers, erase_plain hw id, hw.shelves⟩
  unfold dropCall
  split
  · next i r hc =>
    cases hk : w.workers[i]? with
    | none => exact ⟨by simpa only [hk] using hg.follows, by simp only [hk]⟩
    | some k =>
      have hs := abandon_step (i := i) (hw.workers k (List.mem_of_getElem? hk)) r
      have hd := (worker_follows hw' hk hs).of_flow (v := w) fun _ => rfl
      exact ⟨by simpa only [hk] using hd.swept, by simp only [hk]; rfl⟩
  · exact ⟨hg.swept, rfl⟩
  · exact ⟨hg.swept, rfl⟩
  · exact ⟨(goes_nowhere hw).follows, rfl⟩

theorem letGo_follows (i : Nat) :
    w.Follows (fun _ => []) (w.letGo i) ∧ (w.letGo i).store = w.store := by
  unfold letGo
  split
  · next k hk =>
    have hp := hw.workers k (List.mem_of_getElem? hk)
    have hs : WorkerStep i k [] { k with held := false } :=
      ⟨⟨hp.unspawned, hp.own⟩, rfl, fun sh => .rest _ _⟩
    exact ⟨(worker_follows hw hk hs).swept, rfl⟩
  · exact ⟨(goes_nowhere hw).follows, rfl⟩

/-- A move from outside that appends nothing has no deeds. -/
theorem outside_follows {m : Move} (hm : ∀ a, m ≠ .step a) {w' : World} (hw' : w.move m = w')
    (h : w.Follows (fun _ => []) w')
    (he : ∀ q, (w'.store.shelf q).entries = (w.store.shelf q).entries) :
    w.Follows (fun q => w.deeds q m) (w.move m) := by
  have hd : ∀ q, w.deeds q m = [] := by
    intro q
    unfold deeds
    rw [hw', (hw.shelves q).additions_nothing (he q)]
    cases m with
    | step a => exact False.elim (hm a rfl)
    | _ => rfl
  simpa only [hd, hw'] using h

/-- Seen from any queue, a move is one step of its flow with the deeds of the move, and
then some loops end. -/
theorem move_follows (m : Move) : w.Follows (fun q => w.deeds q m) (w.move m) := by
  have begun {c : Call} (hc : c.Plain) := (begin_goes hw hc).follows
  have still := (goes_nowhere hw).follows
  cases m with
  | step a =>
    cases a with
    | call id => exact call_follows hw id
    | loop i => exact loop_follows hw i
  | create settings handler =>
    obtain ⟨h, he⟩ := create_follows hw settings handler
    exact outside_follows hw (by simp) rfl h he
  | spawn i =>
    cases hk : w.workers[i]? with
    | none => exact outside_follows hw (by simp) (by simp [move, hk]) still fun _ => rfl
    | some k =>
      have hs := spawn_step (i := i) (hw.workers k (List.mem_of_getElem? hk))
      exact outside_follows hw (by simp) (by simp [move, hk]) (worker_follows hw hk hs).follows
        fun _ => rfl
  | publish | request | shutdown | add =>
    exact outside_follows hw (by simp) rfl (begun trivial) fun _ => rfl
  | drop id =>
    obtain ⟨h, he⟩ := drop_follows hw id
    exact outside_follows hw (by simp) rfl h fun _ => by rw [move, he]
  | letGo i =>
    obtain ⟨h, he⟩ := letGo_follows hw i
    exact outside_follows hw (by simp) rfl h fun _ => by rw [move, he]
  | panic i =>
    cases hk : w.workers[i]? with
    | none => exact outside_follows hw (by simp) (by simp [move, hk]) still fun _ => rfl
    | some k =>
      by_cases ha : k.consumer.isActive = true
      · have hs := ending_step (i := i) (hw.workers k (List.mem_of_getElem? hk)) (Or.inl rfl) ha
        exact outside_follows hw (by simp) (by simp [move, hk, ha])
          (worker_follows hw hk hs).follows fun _ => rfl
      · exact outside_follows hw (by simp) (by simp [move, hk, ha]) still fun _ => rfl
  | createGroup q' =>
    obtain ⟨h, he⟩ := createGroup_follows hw q'
    exact outside_follows hw (by simp) rfl h he
  | closeStore | delayAdds | failReads | failAcks =>
    exact outside_follows hw (by simp) rfl (Goes.follows (knob_goes hw fun _ => rfl)) fun _ => rfl
  | wait | look =>
    exact outside_follows hw (by simp) rfl
      (Goes.follows ((goes_nowhere hw).recall rfl rfl hw.calls)) fun _ => rfl

end

theorem onStore_proper (view : StoreView) (ops : List Store.Op) : (onStore view ops).Proper :=
  ⟨by simp [onStore, start], by simp [onStore, start, Table.get?], Store.after_sound ops⟩

theorem run_proper (ms : List Move) {w : World} (hw : w.Proper) : (run ms w).Proper := by
  induction ms generalizing w with
  | nil => exact hw
  | cons m ms ih => exact ih ((move_follows hw m).proper hw)

/-- What the steps of a flow keep holds after a run. The states of the run may be known
to be of some kind `C`. -/
theorem run_keeps {q : Queue} {C : Flow → Prop} {P : List Deed → Flow → Prop}
    (hstep : ∀ h f ds f₁ f', f.shelf.Sound → C f → C f' → P h f → f.Step ds f₁ →
      f₁.Stops f' → P (h ++ ds) f')
    (ms : List Move) {w : World} (hw : w.Proper)
    (hC : ∀ pre, pre <+: ms → C ((run pre w).flow q)) {h : List Deed} (hP : P h (w.flow q)) :
    P (h ++ history q ms w) ((run ms w).flow q) := by
  induction ms generalizing w h with
  | nil => simpa [history, run] using hP
  | cons m ms ih =>
    obtain ⟨f₁, hf, hs⟩ := (move_follows hw m).flow q
    have h₀ : C (w.flow q) := hC [] List.nil_prefix
    have h₁ : C ((w.move m).flow q) := hC [m] (by simp)
    have hP' := hstep h _ _ _ _ (hw.shelves q) h₀ h₁ hP hf hs
    rw [history, ← List.append_assoc]
    refine ih ((move_follows hw m).proper hw) ?_ hP'
    intro pre hpre
    exact hC (m :: pre) (by simpa using hpre)

end TaskRelay.World
