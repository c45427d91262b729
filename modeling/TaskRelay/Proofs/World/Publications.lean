import TaskRelay.Proofs.Worker.Stopping
import TaskRelay.Proofs.World.Lifecycle
import TaskRelay.Proofs.World.Postings

/-!
# Publications come out even

However publications, requests, additions, shutdowns and a close of the store interleave, each
publication that answers with an identifier has appended one entry, its task under that
identifier, and each one that fails, is dropped or is still under way has appended nothing. One
that begins when the worker is to stop is refused.
-/

set_option autoImplicit false

namespace TaskRelay
open scoped List

namespace Poster

def isPublication : Poster → Bool
  | .publication _ => true
  | _ => false

def isAddition : Poster → Bool
  | .addition _ => true
  | _ => false

def isRequeue : Poster → Bool
  | .requeue _ => true
  | _ => false

end Poster

namespace Posting

def landed (stream : String) (kind : Poster → Bool) (p : Posting) : Bool :=
  decide (p.stream = stream) && p.id?.isSome && kind p.poster

def told? (p : Posting) : Option (Poster × Option String) :=
  match p.poster with
  | .requeue _ => none
  | poster => some (poster, p.id?)

theorem landed_total (stream : String) (ps : List Posting) :
    (ps.filterMap (entryOn? stream)).length = ps.countP (landed stream Poster.isPublication) +
      ps.countP (landed stream Poster.isAddition) + ps.countP (landed stream Poster.isRequeue) := by
  induction ps with
  | nil => rfl
  | cons p ps ih =>
    obtain ⟨poster, name, fields, id?⟩ := p
    simp only [List.countP_cons, landed]
    by_cases hn : name = stream
    · cases id? with
      | none => simpa [List.filterMap_cons, entryOn?, hn] using ih
      | some x =>
        have he : entryOn? stream ⟨poster, name, fields, some x⟩ = some ⟨x, fields⟩ := by
          simp [entryOn?, hn]
        rw [List.filterMap_cons_some he, List.length_cons, ih]
        cases poster <;> simp [hn, Poster.isPublication, Poster.isAddition, Poster.isRequeue] <;>
          omega
    · have he : entryOn? stream ⟨poster, name, fields, id?⟩ = none := by simp [entryOn?, hn]
      rw [List.filterMap_cons_none he, ih]
      simp [hn]

end Posting

def Ended.told? (e : Ended) : Option (Poster × Option String) :=
  match e.outcome with
  | .published r => some (.publication e.call, r.toOption)
  | .added r => some (.addition e.call, r.toOption)
  | _ => none

namespace World

section
variable {w : World} (hw : w.Posted)
include hw

/-- What a call is on record for is what it attempted. -/
theorem posting_told (now : Nat) {id : Nat} {c : Call} (hc : w.call? id = some c) {o : Outcome}
    (ho : (w.stepCall id c).2 = .done o) :
    (w.posting? id c o).bind Posting.told? = Ended.told? ⟨id, now, o⟩ := by
  cases c with
  | adding a =>
    simp only [stepCall] at ho
    generalize a.resume w.now w.store = r at ho
    obtain ⟨s, a' | a' | x⟩ := r <;> cases ho
    rfl
  | publishing i p =>
    cases hk : w.workers[i]? with
    | none =>
      simp only [stepCall, hk] at ho
      cases ho
      rfl
    | some k =>
      simp only [stepCall, hk] at ho
      generalize p.step w.now k w.store = r at ho
      obtain ⟨s, ns, p' | p' | x⟩ := r <;> cases ho
      simp [posting?, hk, Posting.told?, Ended.told?]
  | requesting i r =>
    cases hk : w.workers[i]? with
    | none =>
      simp only [stepCall, hk] at ho
      cases ho
      rfl
    | some k =>
      simp only [stepCall, hk] at ho
      generalize r.step w.now k = t at ho
      obtain ⟨k', ns, r' | r' | e | e⟩ := t <;> cases ho <;> rfl
  | shutting i s =>
    cases hk : w.workers[i]? with
    | none =>
      simp only [stepCall, hk] at ho
      cases ho
      rfl
    | some k =>
      simp only [stepCall, hk] at ho
      generalize (s.step w.now w.tokens w.store k).progress = p at ho
      obtain s' | s' | r := p <;> cases ho
      rfl
  | _ => exact False.elim (hw.regular.proper.calls id _ hc)

/-- The attempts of calls are those on record. -/
theorem move_told (m : Move) : ∃ es, (w.move m).ended = w.ended ++ es ∧
    (w.postings m).filterMap Posting.told? = es.filterMap Ended.told? := by
  cases m with
  | step a =>
    cases a with
    | loop i =>
      refine ⟨[], by rw [loop_ended, List.append_nil], ?_⟩
      rw [List.filterMap_nil, List.filterMap_eq_nil_iff]
      intro p hp
      simp only [postings] at hp
      split at hp
      · next a _ _ _ =>
        unfold Addition.posted at hp
        split at hp
        · rw [List.mem_singleton.mp hp]
          rfl
        · cases hp
      · cases hp
    | call id =>
      cases hc : w.call? id with
      | none =>
        refine ⟨[], by rw [World.move, step_gone hc, List.append_nil], ?_⟩
        simp [postings, hc]
      | some c =>
        refine ⟨_, (step_own hw.regular.proper hc).2, ?_⟩
        rw [postings_call hw hc]
        cases ho : (w.stepCall id c).2 with
        | running | waiting => rfl
        | done o =>
          have ht := posting_told hw w.now hc ho
          simp only [endings]
          cases hp : w.posting? id c o with
          | none => simp [← ht, hp]
          | some p =>
            rw [hp, Option.bind_some] at ht
            cases hp' : p.told? <;> simp [← ht, hp']
  | _ => exact ⟨[], by rw [List.append_nil]; exact (move_touches (by simp)).ends_nothing, rfl⟩

end

theorem run_told (ms : List Move) {w : World} (hw : w.Posted) :
    ∃ es, (run ms w).ended = w.ended ++ es ∧
      (attempted ms w).filterMap Posting.told? = es.filterMap Ended.told? := by
  induction ms generalizing w with
  | nil => exact ⟨[], (List.append_nil _).symm, rfl⟩
  | cons m ms ih =>
    obtain ⟨es, he, ht⟩ := move_told hw m
    obtain ⟨es', he', ht'⟩ := ih (hw.move m)
    refine ⟨es ++ es', ?_, ?_⟩
    · rw [run, he', he, List.append_assoc]
    · rw [attempted, List.filterMap_append, List.filterMap_append, ht, ht']

def appendedBy (id : Nat) (stream : String) : List Move → World → List Entry
  | [], _ => []
  | m :: ms, w =>
    (if m.isStepOf (.call id) then w.appends stream m else []) ++ appendedBy id stream ms (w.move m)

theorem appendedBy_append (id : Nat) (stream : String) (ms ms' : List Move) (w : World) :
    appendedBy id stream (ms ++ ms') w =
      appendedBy id stream ms w ++ appendedBy id stream ms' (run ms w) := by
  induction ms generalizing w with
  | nil => rfl
  | cons m ms ih => simp [appendedBy, run, ih]

theorem appendedBy_sublist (id : Nat) (stream : String) (ms : List Move) (w : World) :
    appendedBy id stream ms w <+ appended stream ms w := by
  induction ms generalizing w with
  | nil => exact .slnil
  | cons m ms ih =>
    refine List.Sublist.append ?_ (ih (w.move m))
    split
    · exact .refl _
    · exact List.nil_sublist _

/-- Different calls add different entries. -/
theorem appendedBy_apart {id id' : Nat} (hne : id ≠ id') (stream : String) (ms : List Move)
    {w : World} (hn : ((appended stream ms w).map Entry.id).Nodup) :
    ∀ e ∈ appendedBy id stream ms w, ∀ e' ∈ appendedBy id' stream ms w, e.id ≠ e'.id := by
  induction ms generalizing w with
  | nil => rintro e ⟨⟩
  | cons m ms ih =>
    rw [appended, List.map_append] at hn
    obtain ⟨-, hrest, hapart⟩ := List.nodup_append.mp hn
    have now {n : Nat} {e : Entry}
        (he : e ∈ if m.isStepOf (.call n) then w.appends stream m else []) :
        m.isStepOf (.call n) = true ∧ e ∈ w.appends stream m := by
      split at he
      · next h => exact ⟨h, he⟩
      · cases he
    have later {n : Nat} {e : Entry} (he : e ∈ appendedBy n stream ms (w.move m)) :
        e.id ∈ (appended stream ms (w.move m)).map Entry.id :=
      List.mem_map_of_mem ((appendedBy_sublist n stream ms (w.move m)).subset he)
    intro e he e' he'
    rcases List.mem_append.mp he with he | he <;> rcases List.mem_append.mp he' with he' | he'
    · have hm := Move.eq_step (now he).1
      have hm' := Move.eq_step (now he').1
      rw [hm] at hm'
      cases hm'
      exact absurd rfl hne
    · exact hapart _ (List.mem_map_of_mem (now he).2) _ (later he')
    · exact fun h => hapart _ (List.mem_map_of_mem (now he').2) _ (later he) h.symm
    · exact ih hrest e he e' he'

def yield (home : String) (task : Task) (record : Option Ended) (stream : String) : List Entry :=
  match record.map Ended.outcome with
  | some (.published (.ok x)) => if home = stream then [⟨x, task.encodeFields⟩] else []
  | _ => []

/-- The call `id` is to publish a task on worker `i`, and has added some entries so far. -/
structure Publication (id i : Nat) (cfg : StreamSettings) (task : Task)
    (added : String → List Entry) (w : World) : Prop where
  known : id < w.nextCall
  worker : ∃ k, w.workers[i]? = some k ∧ k.settings = cfg
  call : ∀ c, w.call? id = some c → ∃ p, c = .publishing i p ∧ p.task = task
  yields : ∀ stream, added stream = yield cfg.stream task (w.ended? id) stream

section
variable {w : World} (hw : w.Posted)
include hw

omit hw in
theorem move_next (m : Move) : w.nextCall ≤ (w.move m).nextCall := w.happen_next (.act (.move m))

omit hw in
theorem run_next (ms : List Move) : w.nextCall ≤ (run ms w).nextCall := by
  induction ms generalizing w with
  | nil => exact Nat.le_refl _
  | cons m ms ih => exact Nat.le_trans (move_next m) ih

/-- A call that has begun is left alone by the steps of others. -/
theorem known_call {id : Nat} {c : Call} {m : Move} (hid : id < w.nextCall)
    (hm : m ≠ .step (.call id)) (hc : (w.move m).call? id = some c) : w.call? id = some c := by
  rcases move_called hw.regular.proper hm hc with hc | ⟨hn, -⟩
  · exact hc
  · exact absurd hid (Nat.not_lt.mpr (Nat.le_of_eq hn.symm))

/-- A record appears with a step of its call only. -/
theorem record_other {id : Nat} {m : Move} (hm : m ≠ .step (.call id)) :
    (w.move m).ended? id = w.ended? id := by
  obtain ⟨es, he, hown⟩ := move_ended hw.regular.proper m
  have hn : es.find? (·.call == id) = none := by
    refine List.find?_eq_none.mpr fun e hm' hid => hm ?_
    rw [(hown e hm').1, beq_iff_eq.mp hid]
  rw [ended?, he, List.find?_append, hn, Option.or_none, ended?]

/-- What a step of a call that publishes adds is what its record tells afterwards. -/
theorem publishing_step {id i : Nat} {p : Publish} {k : Worker}
    (hc : w.call? id = some (.publishing i p)) (hk : w.workers[i]? = some k) :
    (∀ c, (w.move (.step (.call id))).call? id = some c →
      ∃ p', c = .publishing i p' ∧ p'.task = p.task) ∧
    ∀ stream, w.appends stream (.step (.call id)) =
      yield k.settings.stream p.task ((w.move (.step (.call id))).ended? id) stream := by
  have hproper := hw.regular.proper
  have hfore : w.ended? id = none := hw.regular.under_way (by simp [hc])
  have hs : (w.stepCall id (.publishing i p)).2 =
      (p.step w.now k w.store).2.2.within (.publishing i) .published := by
    simp only [stepCall, hk]
  have hpost := postings_call hw hc
  obtain ⟨hleft, hended⟩ := step_own hproper hc
  rw [hleft]
  cases hr : (p.step w.now k w.store).2.2 with
  | running p' | waiting p' =>
    rw [hr] at hs
    refine ⟨fun c' hc' => ?_, fun stream => ?_⟩
    · rw [hs] at hc'
      cases hc'
      exact ⟨p', rfl, (publish_goes_on (by rw [hr]; simp)).1⟩
    · have he : (w.move (.step (.call id))).ended? id = none := by
        rw [ended?, hended, hs]
        exact (congrArg (List.find? _) (List.append_nil _)).trans hfore
      rw [move_appends hw, hpost, hs, he]
      rfl
  | done r =>
    rw [hr] at hs
    refine ⟨fun c' hc' => ?_, fun stream => ?_⟩
    · rw [hs] at hc'
      cases hc'
    · rw [move_appends hw, hpost, hs, ended?_own hproper hc hfore hs]
      cases r with
      | error e => simp [Progress.within, posting?, hk, Posting.entryOn?, Except.toOption, yield]
      | ok x =>
        by_cases hh : k.settings.stream = stream <;>
          simp [Progress.within, posting?, hk, Posting.entryOn?, Except.toOption, yield, hh]

theorem Publication.move {id i : Nat} {cfg : StreamSettings} {task : Task}
    {added : String → List Entry} (h : w.Publication id i cfg task added) (m : Move) :
    (w.move m).Publication id i cfg task fun stream =>
      added stream ++ if m.isStepOf (.call id) then w.appends stream m else [] := by
  have hknown := Nat.lt_of_lt_of_le h.known (move_next m)
  obtain ⟨k, hk, hs⟩ := h.worker
  have hworker : ∃ k', (w.move m).workers[i]? = some k' ∧ k'.settings = cfg := by
    obtain ⟨k', hk', hs'⟩ := hw.regular.worker_move hk m
    exact ⟨k', hk', hs'.trans hs⟩
  by_cases hm : m.isStepOf (.call id) = true
  · simp only [hm, if_true]
    obtain rfl := Move.eq_step hm
    cases hc : w.call? id with
    | none =>
      have hmove : w.move (.step (.call id)) = w := by rw [World.move, step_gone hc]
      refine ⟨hknown, hworker, by rw [hmove]; exact h.call, fun stream => ?_⟩
      rw [move_appends hw, hmove, h.yields]
      simp [postings, hc]
    | some c =>
      obtain ⟨p, rfl, ht⟩ := h.call c hc
      obtain ⟨hcall, hyield⟩ := publishing_step hw hc hk
      refine ⟨hknown, hworker, fun c' hc' => ?_, fun stream => ?_⟩
      · obtain ⟨p', hp', ht'⟩ := hcall c' hc'
        exact ⟨p', hp', ht'.trans ht⟩
      · rw [hyield, hs, ht, h.yields, hw.regular.under_way (by simp [hc])]
        rfl
  · have hne : m ≠ .step (.call id) := by
      rintro rfl
      exact hm (Move.isStepOf_step _)
    simp only [hm, Bool.false_eq_true, if_false, List.append_nil]
    refine ⟨hknown, hworker, fun c hc => h.call c (known_call hw h.known hne hc), fun stream => ?_⟩
    rw [record_other hw hne]
    exact h.yields stream

structure Late (id i : Nat) (task : Task) (w : World) : Prop where
  known : id < w.nextCall
  stopping : ∃ k, w.workers[i]? = some k ∧ k.lifecycle.isOver = true
  call : ∀ c, w.call? id = some c → c = .publishing i (.fresh task)
  refused : ∀ e, w.ended? id = some e → e.outcome = .published (.error .queueShutdown)

omit hw in
theorem Late.refuses {id i : Nat} {task : Task} (h : w.Late id i task)
    (hc : w.call? id ≠ none) : w.step (.call id) =
      (w.finish id (.published (.error .queueShutdown)), .gone) := by
  obtain ⟨c, hc⟩ := Option.ne_none_iff_exists'.mp hc
  obtain ⟨k, hk, ho⟩ := h.stopping
  rw [h.call c hc] at hc
  exact publish_refused hk ho hc

theorem Late.move {id i : Nat} {task : Task} (h : w.Late id i task) (m : Move) :
    (w.move m).Late id i task := by
  have hknown := Nat.lt_of_lt_of_le h.known (move_next m)
  obtain ⟨k, hk, ho⟩ := h.stopping
  have hover := hw.regular.isOver hk ho m
  by_cases hm : m = .step (.call id)
  · subst hm
    cases hc : w.call? id with
    | none =>
      have hmove : w.move (.step (.call id)) = w := by rw [World.move, step_gone hc]
      rw [hmove]
      exact h
    | some c =>
      have hmove : w.move (.step (.call id)) =
          w.finish id (.published (.error .queueShutdown)) := by
        rw [World.move, h.refuses (by simp [hc])]
      refine ⟨hknown, hover, fun c' hc' => ?_, fun e he => ?_⟩
      · have hnone : (w.finish id (.published (.error .queueShutdown))).call? id = none :=
          Table.get?_erase_self id w.calls
        rw [hmove, hnone] at hc'
        cases hc'
      · have hfore : w.ended? id = none := hw.regular.under_way (by simp [hc])
        have hrec : (w.finish id (.published (.error .queueShutdown))).ended? id =
            some ⟨id, w.now, .published (.error .queueShutdown)⟩ := by
          change (w.ended ++ [_]).find? _ = _
          rw [List.find?_append, ← ended?, hfore]
          simp
        rw [hmove, hrec] at he
        cases he
        rfl
  · refine ⟨hknown, hover, fun c hc => h.call c (known_call hw h.known hm hc), fun e he => ?_⟩
    rw [record_other hw hm] at he
    exact h.refused e he

end

section
variable {w : World} (hw : w.Posted)
include hw

theorem Posted.run (ms : List Move) : (World.run ms w).Posted := by
  induction ms generalizing w with
  | nil => exact hw
  | cons m ms ih => exact ih (hw.move m)

theorem Publication.run {id i : Nat} {cfg : StreamSettings} {task : Task}
    {added : String → List Entry} (h : w.Publication id i cfg task added) (ms : List Move) :
    (World.run ms w).Publication id i cfg task fun stream =>
      added stream ++ appendedBy id stream ms w := by
  induction ms generalizing w added with
  | nil => simpa [appendedBy, World.run] using h
  | cons m ms ih =>
    have hm := ih (hw.move m) (h.move hw m)
    simpa only [appendedBy, World.run, List.append_assoc] using hm

theorem Late.run {id i : Nat} {task : Task} (h : w.Late id i task) (ms : List Move) :
    (World.run ms w).Late id i task := by
  induction ms generalizing w with
  | nil => exact h
  | cons m ms ih => exact ih (hw.move m) (h.move hw m)

/-- A call adds nothing before it has begun. -/
theorem unborn_appends {id : Nat} (ms : List Move) (hid : (World.run ms w).nextCall ≤ id)
    (stream : String) : appendedBy id stream ms w = [] := by
  induction ms generalizing w with
  | nil => rfl
  | cons m ms ih =>
    rw [appendedBy, ih (hw.move m) hid, List.append_nil]
    split
    · next hm =>
      obtain rfl := Move.eq_step hm
      have hnone : w.call? id = none := by
        cases hc : w.call? id with
        | none => rfl
        | some c =>
          have hlt := hw.regular.filed.known id c hc
          have hn := run_next (w := w) (.step (.call id) :: ms)
          omega
      rw [move_appends hw]
      simp [postings, hnone]
    · rfl

/-- A publication that has just begun. -/
theorem publish_begins {i : Nat} {k : Worker} (hk : w.workers[i]? = some k) (task : Task) :
    (w.move (.publish i task)).Publication w.nextCall i k.settings task (fun _ => []) ∧
      (k.lifecycle.isOver = true → (w.move (.publish i task)).Late w.nextCall i task) := by
  have hrec : (w.move (.publish i task)).ended? w.nextCall = none :=
    (hw.move (.publish i task)).regular.under_way
      (by rw [World.move, begin_same]; simp)
  have hcall (c : Call) (hc : (w.move (.publish i task)).call? w.nextCall = some c) :
      c = .publishing i (.fresh task) := by
    rw [World.move, begin_same] at hc
    exact (Option.some.inj hc).symm
  refine ⟨⟨Nat.lt_succ_self _, ⟨k, hk, rfl⟩, fun c hc => ⟨_, hcall c hc, rfl⟩, fun stream => ?_⟩,
    fun ho => ⟨Nat.lt_succ_self _, ⟨k, hk, ho⟩, hcall, fun e he => ?_⟩⟩
  · rw [hrec]
    rfl
  · rw [hrec] at he
    cases he

end

/-- However a run goes, the entries of a stream are those of the attempts that succeeded on it,
in order and under different identifiers, so as many as the publications, additions and
requeuings that did, and of these the attempts of calls are those on record. What the steps of
a publication added is its task, under the identifier that it returned, if it has returned one,
and nothing else; no two calls added the same entry. A publication that begins when its worker
is to stop is refused. -/
theorem publications_accounted (view : StoreView) (ops : List Store.Op) (ms : List Move) :
    let w := onStore view ops
    let v := run ms w
    (∀ stream,
      appended stream ms w = (attempted ms w).filterMap (Posting.entryOn? stream) ∧
      ((appended stream ms w).map Entry.id).Nodup ∧
      (appended stream ms w).length =
        (attempted ms w).countP (Posting.landed stream Poster.isPublication) +
        (attempted ms w).countP (Posting.landed stream Poster.isAddition) +
        (attempted ms w).countP (Posting.landed stream Poster.isRequeue)) ∧
    (attempted ms w).filterMap Posting.told? = v.ended.filterMap Ended.told? ∧
    (∀ id id' stream, id ≠ id' → ∀ e ∈ appendedBy id stream ms w,
      ∀ e' ∈ appendedBy id' stream ms w, e.id ≠ e'.id) ∧
    ∀ pre i k task post, ms = pre ++ .publish i task :: post →
      (run pre w).workers[i]? = some k →
      (∀ stream, appendedBy (run pre w).nextCall stream ms w =
        yield k.settings.stream task (v.ended? (run pre w).nextCall) stream) ∧
      (k.lifecycle.isOver = true →
        (∀ e, v.ended? (run pre w).nextCall = some e →
          e.outcome = .published (.error .queueShutdown)) ∧
        (v.call? (run pre w).nextCall ≠ none → v.step (.call (run pre w).nextCall) =
          (v.finish (run pre w).nextCall (.published (.error .queueShutdown)), .gone))) := by
  intro w v
  have hw : w.Posted := ⟨onStore_regular view ops, onStore_addressed view ops⟩
  have hn (stream : String) := run_ids_nodup hw ms stream
  refine ⟨fun stream => ⟨run_appended hw ms stream, hn stream, ?_⟩, ?_,
    fun id id' stream hne => appendedBy_apart hne stream ms (hn stream), ?_⟩
  · rw [run_appended hw, Posting.landed_total]
  · obtain ⟨es, he, ht⟩ := run_told ms hw
    rw [ht, he, show w.ended = [] from rfl, List.nil_append]
  · rintro pre i k task post rfl hk
    have hpre := hw.run pre
    obtain ⟨hpub, hlate⟩ := publish_begins hpre hk task
    have hv : v = run post ((run pre w).move (.publish i task)) := run_append pre _ w
    refine ⟨fun stream => ?_, fun ho => ?_⟩
    · have hy := (hpub.run (hpre.move _) post).yields stream
      rw [List.nil_append] at hy
      have hb : appendedBy (run pre w).nextCall stream (.publish i task :: post) (run pre w) =
          appendedBy (run pre w).nextCall stream post ((run pre w).move (.publish i task)) := rfl
      rw [appendedBy_append, unborn_appends hw pre (Nat.le_refl _), List.nil_append, hb, hy, hv]
    · have hl := (hlate ho).run (hpre.move _) post
      rw [hv]
      exact ⟨hl.refused, hl.refuses⟩

def bustle : List Move := [
  .create (.named "tasks" "crew" "first") (.scripted "none"), .delayAdds 10,
  .publish 0 .empty, .step (.call 0), .publish 0 .empty, .step (.call 1),
  .publish 0 .empty, .step (.call 2), .drop 2,
  .delayAdds 0, .add "tasks" [("body", "plain")] 0, .step (.call 3), .wait 10, .step (.call 0),
  .shutdown 0, .step (.call 4), .publish 0 .empty, .step (.call 5), .closeStore, .step (.call 1)]

theorem bustle_accounted :
    (run bustle (onStore ⟨1, false⟩ [])).ended.filterMap Ended.told? =
      [(.addition 3, some "1-0"), (.publication 0, some "2-0"), (.publication 5, none),
        (.publication 1, none)] ∧
    appendedBy 0 "tasks" bustle (onStore ⟨1, false⟩ []) = [⟨"2-0", Task.empty.encodeFields⟩] ∧
    appendedBy 1 "tasks" bustle (onStore ⟨1, false⟩ []) = [] ∧
    (appended "tasks" bustle (onStore ⟨1, false⟩ [])).length = 2 ∧
    ∀ e, (run bustle (onStore ⟨1, false⟩ [])).ended? 5 = some e →
      e.outcome = .published (.error .queueShutdown) := by
  obtain ⟨streams, told, -, each⟩ := publications_accounted ⟨1, false⟩ [] bustle
  obtain ⟨first, -⟩ := each (bustle.take 2) 0 _ .empty (bustle.drop 3) rfl rfl
  obtain ⟨second, -⟩ := each (bustle.take 4) 0 _ .empty (bustle.drop 5) rfl rfl
  obtain ⟨-, late⟩ := each (bustle.take 16) 0 _ .empty (bustle.drop 17) rfl rfl
  refine ⟨by decide +kernel, (first "tasks").trans rfl, (second "tasks").trans rfl, ?_,
    (late rfl).1⟩
  rw [(streams "tasks").2.2]
  decide +kernel

end World

end TaskRelay
