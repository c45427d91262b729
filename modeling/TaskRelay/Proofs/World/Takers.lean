import TaskRelay.Proofs.Worker.Attention
import TaskRelay.Proofs.Worker.Stopping

/-!
# The takers of a worker

What a move does to the handoff of a worker and to the requests that wait at it. Every request
that waits has a place of its own at the bell, and while an entry lies in the open handoff one
of them was called, however many came, left or were dropped before. An entry in the slot stays
there until a request takes it or a shutdown begins.
-/

set_option autoImplicit false

namespace TaskRelay

def Call.take? (i : Nat) : Call → Option Take
  | .requesting j r => if j = i then r.take? else none
  | _ => none

namespace World

def handoffOf (w : World) (i : Nat) : Handoff Entry :=
  (w.workers[i]?.map Worker.handoff).getD .empty

def take? (w : World) (i id : Nat) : Option Take := (w.call? id).bind (Call.take? i)

inductive Handles (w : World) (i : Nat) (m : Move) (w' : World) : Prop
  | rests (handoff : w'.handoffOf i = w.handoffOf i) (takes : ∀ id, w'.take? i id = w.take? i id)
  | loops {k : Worker} {c : Consumer} (worker : w.workers[i]? = some k)
      (active : k.consumer = .active c)
      (lays : c.Lays k.handoff (w.isCancelled k.stop) (w'.handoffOf i))
      (takes : ∀ id, w'.take? i id = w.take? i id)
  | requests {id : Nat} {k : Worker} {r : Request} (move : m = .step (.call id))
      (call : w.call? id = some (.requesting i r)) (worker : w.workers[i]? = some k)
      (handoff : w'.handoffOf i = (r.step w.now k).1.handoff)
      (own : w'.take? i id = Request.ahead (r.step w.now k).2.2)
      (others : ∀ id', id' ≠ id → w'.take? i id' = w.take? i id')
  | leaves {id : Nat} {r : Request} (call : w.call? id = some (.requesting i r))
      (reason : m = .drop id ∨ w.workers[i]? = none)
      (handoff : w'.handoffOf i = r.leave (w.handoffOf i)) (own : w'.take? i id = none)
      (others : ∀ id', id' ≠ id → w'.take? i id' = w.take? i id')
  | closes (isOver : w'.Over i) (handoff : w'.handoffOf i = (w.handoffOf i).close)
      (takes : ∀ id, w'.take? i id = w.take? i id)

section
variable {w w' : World} {i : Nat}

theorem handoffOf_some {k : Worker} (hk : w.workers[i]? = some k) :
    w.handoffOf i = k.handoff := by
  simp [handoffOf, hk]

theorem handoffOf_none (hk : w.workers[i]? = none) : w.handoffOf i = .empty := by
  simp [handoffOf, hk]

theorem handoffOf_workers (h : w'.workers = w.workers) : w'.handoffOf i = w.handoffOf i := by
  rw [handoffOf, h, handoffOf]

theorem handoffOf_sweep (w : World) (i : Nat) : w.sweep.handoffOf i = w.handoffOf i := by
  simp only [handoffOf, sweep, List.getElem?_mapIdx]
  cases w.workers[i]? with
  | none => rfl
  | some k =>
    simp only [Option.map_some]
    split <;> rfl

theorem handoffOf_conclude (w : World) (id : Nat) (p : Progress Call Outcome) (i : Nat) :
    (w.conclude id p).handoffOf i = w.handoffOf i := by
  cases p with
  | done o => exact handoffOf_sweep _ i
  | _ => rfl

theorem handoffOf_setWorker {k : Worker} (hk : w.workers[i]? = some k) (k' : Worker) :
    (w.setWorker i k').handoffOf i = k'.handoff := by
  have hi : i < w.workers.length := (List.getElem?_eq_some_iff.mp hk).1
  simp [handoffOf, setWorker, hi]

theorem handoffOf_setWorker_ne {j : Nat} (hj : j ≠ i) (k : Worker) :
    (w.setWorker j k).handoffOf i = w.handoffOf i := by
  simp [handoffOf, setWorker, List.getElem?_set_ne hj]

/-- A worker that changes, but not in its handoff. -/
theorem handoffOf_set {j : Nat} {k : Worker} (hk : w.workers[j]? = some k) {k' : Worker}
    (h : k'.handoff = k.handoff) : (w.setWorker j k').handoffOf i = w.handoffOf i := by
  by_cases hj : j = i
  · subst hj
    rw [handoffOf_setWorker hk, h, handoffOf_some hk]
  · exact handoffOf_setWorker_ne hj k'

theorem take?_calls (h : w'.calls = w.calls) (id : Nat) : w'.take? i id = w.take? i id := by
  rw [take?, call?, h, take?, call?]

theorem take?_call (i : Nat) {id : Nat} {c : Call} (hc : w.call? id = some c) :
    w.take? i id = c.take? i := by
  simp [take?, hc]

end

section
variable {w : World} (hw : w.Regular) (i : Nat)
include hw

/-- A step of a call changes no take but its own. -/
theorem step_takes {id : Nat} {c : Call} (hc : w.call? id = some c) :
    (w.move (.step (.call id))).take? i id =
        (left? (w.stepCall id c).2).bind (Call.take? i) ∧
      ∀ id', id' ≠ id → (w.move (.step (.call id))).take? i id' = w.take? i id' := by
  refine ⟨?_, fun id' hne => ?_⟩
  · rw [take?, (step_own hw.proper hc).1]
  · rw [take?, step_other hw.proper hne, take?]

/-- A step of a call that is not a request on worker `i`. -/
theorem untaking_handles {id : Nat} {c : Call} (hc : w.call? id = some c)
    (before : c.take? i = none)
    (after : ∀ c', left? (w.stepCall id c).2 = some c' → c'.take? i = none) (id' : Nat) :
    (w.move (.step (.call id))).take? i id' = w.take? i id' := by
  obtain ⟨own, others⟩ := step_takes hw i hc
  by_cases hid : id' = id
  · subst hid
    rw [own, take?_call i hc, before]
    cases hl : left? (w.stepCall id' c).2 with
    | none => rfl
    | some c' => exact after c' hl
  · exact others id' hid

theorem shutting_handles {id j : Nat} {s : Shutdown} (hc : w.call? id = some (.shutting j s)) :
    w.Handles i (.step (.call id)) (w.move (.step (.call id))) := by
  have hm : w.move (.step (.call id)) = _ := step_call hc
  have takes : ∀ id', (w.move (.step (.call id))).take? i id' = w.take? i id' := by
    refine untaking_handles hw i hc rfl ?_
    simp only [stepCall]
    split
    · simp [left?]
    · exact left?_within (P := (Call.take? i · = none)) (fun _ => rfl) _ _
  have hh : (w.move (.step (.call id))).handoffOf i =
      (w.stepCall id (.shutting j s)).1.handoffOf i := by rw [hm, handoffOf_conclude]
  cases hk : w.workers[j]? with
  | none =>
    simp only [stepCall, hk] at hh
    exact .rests hh takes
  | some k =>
    simp only [stepCall, hk] at hh
    rw [handoffOf_workers (notes_workers _ _)] at hh
    have hk' (tokens : Cancellations) (store : Store) :
        ({ w with tokens := tokens, store := store } : World).workers[j]? = some k := hk
    cases s with
    | closing =>
      by_cases hj : j = i
      · subst hj
        rw [handoffOf_setWorker (hk' _ _)] at hh
        refine .closes ?_ (hh.trans (congrArg Handoff.close (handoffOf_some hk).symm)) takes
        exact Over.move hw ⟨k, hk, hw.closesLate id j k hc hk⟩ _
      · exact .rests (hh.trans (handoffOf_setWorker_ne hj _)) takes
    | fresh =>
      refine .rests (hh.trans (handoffOf_set (hk' _ _) ?_)) takes
      simp only [Shutdown.step]
      split <;> rfl
    | joining d =>
      refine .rests (hh.trans (handoffOf_set (hk' _ _) ?_)) takes
      simp only [Shutdown.step]
      split
      case h_5 => split <;> rfl
      all_goals rfl

omit hw in
theorem requesting_handoff {j : Nat} {k : Worker} (hk : w.workers[j]? = some k) (id : Nat)
    (r : Request) : (w.stepCall id (.requesting j r)).1.handoffOf i =
      (w.setWorker j (r.step w.now k).1).handoffOf i := by
  simp only [stepCall, hk]
  generalize r.step w.now k = t
  obtain ⟨k', ns, r' | r' | e | e⟩ := t <;> simp only [handoffOf_workers (notes_workers _ _)]

omit hw in
/-- What a step of a request does to the handoff of its worker. -/
theorem request_handoff {k : Worker} (hk : w.workers[i]? = some k) {id : Nat} {r : Request}
    (hc : w.call? id = some (.requesting i r)) :
    (w.move (.step (.call id))).handoffOf i = (r.step w.now k).1.handoff := by
  have hm : w.move (.step (.call id)) = _ := step_call hc
  rw [hm, handoffOf_conclude, requesting_handoff i hk, handoffOf_setWorker hk]

theorem requesting_handles {id j : Nat} {r : Request} (hc : w.call? id = some (.requesting j r)) :
    w.Handles i (.step (.call id)) (w.move (.step (.call id))) := by
  have hm : w.move (.step (.call id)) = _ := step_call hc
  have hh : (w.move (.step (.call id))).handoffOf i =
      (w.stepCall id (.requesting j r)).1.handoffOf i := by rw [hm, handoffOf_conclude]
  by_cases hj : j = i
  · subst hj
    obtain ⟨own, others⟩ := step_takes hw j hc
    cases hk : w.workers[j]? with
    | none =>
      simp only [stepCall, hk] at hh own
      refine .leaves hc (Or.inr hk) ?_ own others
      rw [hh, handoffOf_none hk, r.leave_empty]
    | some k =>
      have hahead : (left? (w.stepCall id (.requesting j r)).2).bind (Call.take? j) =
          Request.ahead (r.step w.now k).2.2 := by
        simp only [stepCall, hk]
        generalize r.step w.now k = t
        obtain ⟨k', ns, r' | r' | e | e⟩ := t
        · exact if_pos rfl
        · exact if_pos rfl
        · rfl
        · rfl
      exact .requests rfl hc hk (request_handoff j hk hc) (own.trans hahead) others
  · have away (r : Request) : (Call.requesting j r).take? i = none := if_neg hj
    cases hk : w.workers[j]? with
    | none =>
      refine .rests (hh.trans ?_) (untaking_handles hw i hc (away r) ?_) <;>
        simp [stepCall, hk, left?]
    | some k =>
      have hset := (requesting_handoff i hk id r).trans (handoffOf_setWorker_ne hj _)
      refine .rests (hh.trans hset) (untaking_handles hw i hc (away r) ?_)
      simp only [stepCall, hk]
      generalize r.step w.now k = t
      obtain ⟨k', ns, r' | r' | e | e⟩ := t
      · rintro _ ⟨⟩
        exact away r'
      · rintro _ ⟨⟩
        exact away r'
      · simp [left?]
      · simp [left?]

theorem call_handles (id : Nat) :
    w.Handles i (.step (.call id)) (w.move (.step (.call id))) := by
  cases hc : w.call? id with
  | none =>
    rw [move, step_gone hc]
    exact .rests rfl fun _ => rfl
  | some c =>
    have hm : w.move (.step (.call id)) = _ := step_call hc
    have aside (hworkers : (w.stepCall id c).1.workers = w.workers) (before : c.take? i = none)
        (after : ∀ c', left? (w.stepCall id c).2 = some c' → c'.take? i = none) :
        w.Handles i (.step (.call id)) (w.move (.step (.call id))) := by
      refine .rests ?_ (untaking_handles hw i hc before after)
      rw [hm, handoffOf_conclude, handoffOf_workers hworkers]
    cases c with
    | adding a =>
      exact aside rfl rfl (left?_within (P := (Call.take? i · = none)) (fun _ => rfl) _ _)
    | publishing j p =>
      cases hk : w.workers[j]? with
      | none =>
        refine aside ?_ rfl ?_ <;> simp only [stepCall, hk]
        simp [left?]
      | some k =>
        refine aside ?_ rfl ?_ <;> simp only [stepCall, hk]
        · exact notes_workers _ _
        · exact left?_within (P := (Call.take? i · = none)) (fun _ => rfl) _ _
    | shutting j s => exact shutting_handles hw i hc
    | requesting j r => exact requesting_handles hw i hc
    | _ => exact False.elim (hw.proper.calls id _ hc)

omit hw in
theorem loop_handles (j : Nat) :
    w.Handles i (.step (.loop j)) (w.move (.step (.loop j))) := by
  have takes : ∀ id, (w.move (.step (.loop j))).take? i id = w.take? i id :=
    take?_calls (loop_steady w j).calls
  rcases w.move_cases j (.step (.loop j)) with ⟨k, c, -, hk, hc⟩ | hs
  · by_cases hj : j = i
    · subst hj
      refine .loops hk hc ?_ takes
      rw [handoffOf_some (move_loop hk hc).2]
      exact c.step_lays k.settings w.view w.now _ w.store k.handoff
    · refine .rests ?_ takes
      have hm : w.move (.step (.loop j)) = _ := stepLoop_active hk hc rfl
      rw [hm, handoffOf_setWorker_ne hj, handoffOf_workers (notes_workers _ _)]
      rfl
  · rw [move_idle (hs rfl)]
    exact .rests rfl fun _ => rfl

omit hw in
/-- A request that is dropped gives up its place. -/
theorem dropped_request {id j : Nat} {r : Request} (hc : w.call? id = some (.requesting j r)) :
    (w.dropCall id).calls = Table.erase id w.calls ∧
      (w.dropCall id).handoffOf i = if j = i then r.leave (w.handoffOf i) else w.handoffOf i := by
  have hc' : Table.get? id w.calls = some (.requesting j r) := hc
  have herased : handoffOf { w with calls := Table.erase id w.calls } i = w.handoffOf i := rfl
  simp only [dropCall, hc']
  cases hk : w.workers[j]? with
  | none =>
    refine ⟨rfl, herased.trans ?_⟩
    split
    · next hj =>
      rw [← hj, handoffOf_none hk, r.leave_empty]
    · rfl
  | some k =>
    have hk' : ({ w with calls := Table.erase id w.calls } : World).workers[j]? = some k := hk
    refine ⟨rfl, (handoffOf_sweep _ i).trans ?_⟩
    split
    · next hj =>
      rw [← hj, handoffOf_setWorker hk', handoffOf_some hk, r.abandon_handoff]
    · next hj => exact (handoffOf_setWorker_ne hj _).trans herased

omit hw in
theorem drop_handles (id : Nat) : w.Handles i (.drop id) (w.move (.drop id)) := by
  have others {w' : World} (hcalls : w'.calls = Table.erase id w.calls) (id' : Nat)
      (hne : id' ≠ id) : w'.take? i id' = w.take? i id' := by
    rw [take?, call?, hcalls, Table.get?_erase_of_ne hne, take?, call?]
  have own {w' : World} (hcalls : w'.calls = Table.erase id w.calls) : w'.take? i id = none := by
    rw [take?, call?, hcalls, Table.get?_erase_self]
    rfl
  have untaken {w' : World} {c : Call} (hc : w.call? id = some c) (hn : c.take? i = none)
      (hcalls : w'.calls = Table.erase id w.calls) (id' : Nat) :
      w'.take? i id' = w.take? i id' := by
    by_cases hid : id' = id
    · subst hid
      rw [own hcalls, take?_call i hc, hn]
    · exact others hcalls id' hid
  cases hc : w.call? id with
  | none =>
    have hc' : Table.get? id w.calls = none := hc
    simp only [move, dropCall, hc']
    exact .rests rfl fun _ => rfl
  | some c =>
    have hc' : Table.get? id w.calls = some c := hc
    cases c with
    | requesting j r =>
      obtain ⟨hcalls, hh⟩ := dropped_request i hc
      by_cases hj : j = i
      · subst hj
        rw [if_pos rfl] at hh
        exact .leaves hc (Or.inl rfl) hh (own hcalls) (others hcalls)
      · rw [if_neg hj] at hh
        exact .rests hh (untaken hc (if_neg hj) hcalls)
    | publishing | adding =>
      simp only [move, dropCall, hc']
      exact .rests (handoffOf_sweep _ i) (untaken hc rfl rfl)
    | _ =>
      simp only [move, dropCall, hc']
      exact .rests rfl fun _ => rfl

theorem begin_handles {m : Move} {c : Call} (hm : w.move m = (w.begin c).1)
    (hc : c.take? i = none) : w.Handles i m (w.move m) := by
  rw [hm]
  refine .rests rfl fun id => ?_
  by_cases hid : id = w.nextCall
  · subst hid
    rw [take?_call i (begin_same w c), hc, take?, hw.filed.unborn]
    rfl
  · rw [take?, begin_other w c hid, take?]

theorem move_handles (m : Move) : w.Handles i m (w.move m) := by
  have put {m : Move} {j : Nat} {k k' : Worker} (hk : w.workers[j]? = some k)
      (h : k'.handoff = k.handoff) : w.Handles i m (w.setWorker j k') :=
    .rests (handoffOf_set hk h) (take?_calls rfl)
  cases m with
  | step a =>
    cases a with
    | call id => exact call_handles hw i id
    | loop j => exact loop_handles i j
  | create settings handler =>
    simp only [move, createWorker]
    cases w.store.createGroup settings.stream settings.group with
    | error e => exact .rests rfl fun _ => rfl
    | ok store =>
      refine .rests ?_ (take?_calls rfl)
      simp only [handoffOf, note, Worker.createdNote, Note.info]
      rcases Nat.lt_trichotomy i w.workers.length with hi | hi | hi
      · rw [List.getElem?_append_left hi]
      · subst hi
        rw [List.getElem?_concat_length, List.getElem?_eq_none (Nat.le_refl _)]
        rfl
      · rw [List.getElem?_eq_none (by simpa using Nat.succ_le_of_lt hi),
          List.getElem?_eq_none (Nat.le_of_lt hi)]
  | spawn j =>
    simp only [move]
    split
    · next k hk =>
      refine put hk ?_
      unfold Worker.spawn
      split <;> rfl
    · exact .rests rfl fun _ => rfl
  | publish j task => exact begin_handles hw i rfl rfl
  | request j => exact begin_handles hw i rfl (ite_self none)
  | shutdown j => exact begin_handles hw i rfl rfl
  | add stream fields maxLen => exact begin_handles hw i rfl rfl
  | drop id => exact drop_handles i id
  | letGo j =>
    simp only [move, letGo]
    split
    · next k hk =>
      refine .rests ((handoffOf_sweep _ i).trans (handoffOf_set hk rfl)) (take?_calls rfl)
    · exact .rests rfl fun _ => rfl
  | panic j =>
    simp only [move]
    split
    · next k hk =>
      split
      · exact put hk rfl
      · exact .rests rfl fun _ => rfl
    · exact .rests rfl fun _ => rfl
  | createGroup q =>
    simp only [move]
    split <;> exact .rests rfl fun _ => rfl
  | _ => exact .rests rfl fun _ => rfl

end

def Attended (w : World) (i : Nat) : Prop :=
  ∃ ts, (∀ id, Table.get? id ts = w.take? i id) ∧ (w.handoffOf i).Attends ts

section
variable {w w' : World} {i id : Nat}

theorem take?_requesting {r : Request} (hc : w.call? id = some (.requesting i r)) :
    w.take? i id = r.take? :=
  (take?_call i hc).trans (if_pos rfl)

theorem Handles.attended {m : Move} (h : w.Handles i m w') (ha : w.Attended i) : w'.Attended i := by
  obtain ⟨ts, hts, ha⟩ := ha
  cases h with
  | rests handoff takes => exact ⟨ts, fun id => (hts id).trans (takes id).symm, handoff ▸ ha⟩
  | loops worker active lays takes =>
    rw [handoffOf_some worker] at ha
    exact ⟨ts, fun id => (hts id).trans (takes id).symm, lays.attends ha⟩
  | @requests id k r move call worker handoff own others =>
    rw [handoffOf_some worker] at ha
    obtain ⟨ts', hothers, hown, ha'⟩ :=
      Request.step_attends ha ((hts id).trans (take?_requesting call)) w.now
    refine ⟨ts', fun id' => ?_, handoff ▸ ha'⟩
    by_cases hid : id' = id
    · subst hid
      exact hown.trans own.symm
    · exact (hothers id' hid).trans ((hts id').trans (others id' hid).symm)
  | @leaves id r call reason handoff own others =>
    refine ⟨Table.erase id ts, fun id' => ?_, handoff ▸
      Request.leave_attends ha ((hts id).trans (take?_requesting call))⟩
    by_cases hid : id' = id
    · subst hid
      exact (Table.get?_erase_self id' ts).trans own.symm
    · exact (Table.get?_erase_of_ne hid ts).trans ((hts id').trans (others id' hid).symm)
  | closes isOver handoff takes =>
    refine ⟨ts, fun id => (hts id).trans (takes id).symm, ha.calm ?_ ?_ ?_⟩ <;> rw [handoff]
    · rfl
    · intro hc
      cases hc
    · exact fun hs => hs

/-- If nobody else requests an entry of worker `i`, the request that waits was called. -/
theorem Attended.called (ha : w.Attended i) (opened : (w.handoffOf i).closed = false) {e : Entry}
    (slot : (w.handoffOf i).slot = some e) {n : Nat} {t : Take}
    (call : w.call? id = some (.requesting i (.taking n t)))
    (alone : ∀ j r, w.call? j = some (.requesting i r) → j = id) :
    (w.handoffOf i).offered.isCalled t.ticket = true := by
  obtain ⟨ts, hts, ha⟩ := ha
  have hown : Table.get? id ts = some t := (hts id).trans (take?_requesting call)
  obtain ⟨j, t', hj, hcalled⟩ := ha.called opened (by simp [slot]) hown
  have hj' : w.take? i j = some t' := (hts j).symm.trans hj
  obtain ⟨c, hc, ht⟩ := Option.bind_eq_some_iff.mp hj'
  cases c with
  | requesting j' r =>
    by_cases hi : j' = i
    · subst hi
      obtain rfl := alone j r hc
      rwa [Option.some.inj (hown.symm.trans hj)]
    · rw [Call.take?, if_neg hi] at ht
      cases ht
  | _ => cases ht

end

section
variable {w : World} (hw : w.Regular) {i : Nat}
include hw

/-- The handoff of a worker is open until its shutdown returns. -/
theorem Regular.opened (calm : ¬w.Over i) : (w.handoffOf i).closed = false := by
  cases hk : w.workers[i]? with
  | none =>
    rw [handoffOf_none hk]
    rfl
  | some k =>
    rw [handoffOf_some hk]
    refine Bool.eq_false_iff.mpr fun hc => calm ⟨k, hk, ?_⟩
    obtain ⟨es, hl⟩ := hw.lived i
    rw [show k.lifecycle = .stopped from (hl.reached _ (post_phase i w hk)).closed.mp hc]
    rfl

/-- An entry stays in the slot in a move that is not the step of the only request. -/
theorem Regular.slot_kept {id : Nat} {m : Move} (calm : ¬(w.move m).Over i)
    (fit : ∀ k, w.workers[i]? = some k → Station.Fit ⟨k.consumer.stage, k.handoff.slot⟩)
    (alone : ∀ j r, w.call? j = some (.requesting i r) → j = id) (hm : m ≠ .step (.call id))
    {e : Entry} (hs : (w.handoffOf i).slot = some e) :
    ((w.move m).handoffOf i).slot = some e := by
  cases move_handles hw i m with
  | rests handoff => exact handoff ▸ hs
  | @loops k c worker active lays =>
    have hstop : w.isCancelled k.stop = false := by
      rw [hw.stop_heard worker]
      refine Bool.eq_false_iff.mpr fun ho => calm ?_
      exact Over.move hw ⟨k, worker, ho⟩ m
    have hfit := fit k worker
    rw [active] at hfit
    rw [hstop] at lays
    rw [handoffOf_some worker] at hs
    exact lays.slot hfit hs
  | requests move call =>
    obtain rfl := alone _ _ call
    exact absurd move hm
  | leaves call reason handoff =>
    rw [handoff, Request.leave_slot]
    exact hs
  | closes isOver => exact absurd isOver calm

end

end World

end TaskRelay
