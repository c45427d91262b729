import TaskRelay.Proofs.World.Signals

/-!
# Who appended what

An entry is appended by a call that publishes a task, by an addition, or by a consumer loop
that adds an entry again. Such an attempt ends in one step, and if it succeeds that step
appends one entry, under the identifier that was answered; nothing else that can be done to a
world adds to a stream. So the entries of a stream are, one by one and in order, the attempts
that succeeded.
-/

set_option autoImplicit false

namespace TaskRelay
open scoped List

def Store.SameLogs (s s' : Store) : Prop :=
  ∀ q : Queue, (s'.shelf q).entries = (s.shelf q).entries ∧ (s'.shelf q).last = (s.shelf q).last

section
variable {s s' : Store}

theorem Store.SameLogs.of_shelf (h : ∀ q, s'.shelf q = s.shelf q) : s.SameLogs s' :=
  fun q => by rw [h q]; exact ⟨rfl, rfl⟩

theorem ReadStep.same_logs {q : Queue} {r : Store × Progress GroupRead ReadResult}
    (h : ReadStep q s r) : s.SameLogs r.1 := by
  cases h with
  | waiting same | empty same | failed same => exact .of_shelf same
  | handed hands others =>
    intro q'
    by_cases hq : q' = q
    · subst hq
      obtain ⟨g, -, he⟩ := hands.after
      rw [he]
      exact ⟨rfl, rfl⟩
    · rw [others q' hq]
      exact ⟨rfl, rfl⟩

theorem ack_logs (s : Store) (q : Queue) (id : String) :
    s.SameLogs (s.ack q.stream q.group id).1 := by
  intro q'
  rcases s.ack_shelf q id q' with h | ⟨-, n, -, h⟩ <;> rw [h]
  · exact ⟨rfl, rfl⟩
  · exact ⟨rfl, rfl⟩

theorem createGroup_logs {q : Queue} (h : s.createGroup q.stream q.group = .ok s') :
    s.SameLogs s' := by
  intro q'
  rw [Store.createGroup_shelf h]
  split <;> exact ⟨rfl, rfl⟩

/-- A loop adds to its stream by adding an entry again. -/
theorem Consumer.step_logs (cfg : StreamSettings) (view : StoreView) (now : Nat) (stopped : Bool)
    (s : Store) (handoff : Handoff Entry) {c : Consumer} (hc : ∀ a id rest, c ≠ .adding a id rest) :
    s.SameLogs (c.step cfg view now stopped s handoff).store := by
  have same : s.SameLogs s := .of_shelf fun _ => rfl
  cases c with
  | spawned => exact same
  | top =>
    simp only [step]
    split
    · exact same
    · split
      · exact same
      · rw [afterRead_store]
        exact (beginRead_step s now cfg.queue cfg.consumer _ _).same_logs
  | reading r =>
    simp only [step]
    split
    · exact same
    · rw [afterRead_store]
      exact (read_resume_step r now s).same_logs
  | pausing d =>
    simp only [step]
    split
    · exact same
    · split <;> exact same
  | holding batch =>
    cases batch with
    | nil => exact same
    | cons e rest =>
      simp only [step]
      rw [afterOffer_store]
      exact same
  | offering o id rest =>
    simp only [step]
    rw [afterOffer_store]
    exact same
  | acking id rest => exact ack_logs s cfg.queue id
  | requeueing batch => cases batch <;> exact same
  | adding a id rest => exact absurd rfl (hc a id rest)

end

namespace Shelf

inductive Grows (sh : Shelf) : List Entry → Shelf → Prop
  | still {sh' : Shelf} (entries : sh'.entries = sh.entries) (last : sh'.last = sh.last) :
      Grows sh [] sh'
  | one (fields : Fields) (maxLen : Nat) :
      Grows sh [⟨entryId (sh.last + 1), fields⟩] (sh.append fields maxLen)

section
variable {sh sh' : Shelf} {es : List Entry}

theorem Grows.gained (h : sh.Grows es sh') (hs : sh.Sound) :
    (sh.gained sh').map numbered = es := by
  cases h with
  | still entries last => rw [hs.gained_nothing entries, List.map_nil]
  | one fields maxLen =>
    rw [hs.gained_append]
    rfl

theorem Grows.last (h : sh.Grows es sh') : sh'.last = sh.last + es.length := by
  cases h with
  | still entries last => exact last
  | one fields maxLen => rfl

theorem Grows.ids (h : sh.Grows es sh') :
    es.map Entry.id = (List.range' (sh.last + 1) es.length).map entryId := by
  cases h <;> rfl

end

end Shelf

inductive Poster
  | publication (call : Nat)
  | addition (call : Nat)
  | requeue (worker : Nat)
  deriving DecidableEq, Repr

structure Posting where
  poster : Poster
  stream : String
  fields : Fields
  id? : Option String
  deriving DecidableEq, Repr

def Posting.entryOn? (stream : String) (p : Posting) : Option Entry :=
  if p.stream = stream then p.id?.map (⟨·, p.fields⟩) else none

def Addition.posted (a : Addition) (poster : Poster) : Progress Addition AddResult → List Posting
  | .done r => [⟨poster, a.stream, a.fields, r.toOption⟩]
  | _ => []

def Publish.task : Publish → Task
  | .fresh task => task
  | .adding task _ => task

theorem Addition.grows (a : Addition) (poster : Poster) (now : Nat) (s : Store) (q : Queue) :
    (s.shelf q).Grows
      ((a.posted poster (a.resume now s).2).filterMap (Posting.entryOn? q.stream))
      ((a.resume now s).1.shelf q) := by
  have h := add_resume_step a now s
  generalize a.resume now s = r at h ⊢
  cases h with
  | waiting => exact .still rfl rfl
  | failed =>
    have hn : ∀ e : StoreError, (a.posted poster (.done (.error e))).filterMap
        (Posting.entryOn? q.stream) = [] := by simp [posted, Posting.entryOn?, Except.toOption]
    rw [hn]
    exact .still rfl rfl
  | added appended =>
    rw [appended]
    by_cases hq : q.stream = a.stream
    · have he : (a.posted poster (.done (.ok (entryId ((s.stream a.stream).last + 1))))).filterMap
          (Posting.entryOn? q.stream) = [⟨entryId ((s.shelf q).last + 1), a.fields⟩] := by
        simp [posted, Posting.entryOn?, Except.toOption, hq, Store.shelf]
      rw [he, if_pos hq]
      exact .one a.fields a.maxLen
    · have he : (a.posted poster (.done (.ok (entryId ((s.stream a.stream).last + 1))))).filterMap
          (Posting.entryOn? q.stream) = [] := by
        simp [posted, Posting.entryOn?, Ne.symm hq]
      rw [he, if_neg hq]
      exact .still rfl rfl

namespace World

def posting? (w : World) (id : Nat) : Call → Outcome → Option Posting
  | .publishing i p, .published r => w.workers[i]?.map fun k =>
    ⟨.publication id, k.settings.stream, p.task.encodeFields, r.toOption⟩
  | .adding a, .added r => some ⟨.addition id, a.stream, a.fields, r.toOption⟩
  | _, _ => none

def postings (w : World) : Move → List Posting
  | .step (.call id) =>
    match w.call? id with
    | some c => ((w.move (.step (.call id))).ended.drop w.ended.length).filterMap
        fun e => w.posting? id c e.outcome
    | none => []
  | .step (.loop i) =>
    match w.workers[i]?.map Worker.consumer with
    | some (.active (.adding a _ _)) => a.posted (.requeue i) (a.resume w.now w.store).2
    | _ => []
  | _ => []

def attempted : List Move → World → List Posting
  | [], _ => []
  | m :: ms, w => w.postings m ++ attempted ms (w.move m)

def appends (stream : String) (w : World) (m : Move) : List Entry :=
  ((w.store.shelf ⟨stream, ""⟩).gained ((w.move m).store.shelf ⟨stream, ""⟩)).map numbered

def appended (stream : String) : List Move → World → List Entry
  | [], _ => []
  | m :: ms, w => w.appends stream m ++ appended stream ms (w.move m)

def Addressed (w : World) : Prop :=
  ∀ id i task a, w.call? id = some (.publishing i (.adding task a)) →
    ∃ k, w.workers[i]? = some k ∧ a.stream = k.settings.stream ∧ a.fields = task.encodeFields

/-- A call that publishes goes on with the same task. -/
theorem publish_goes_on {now : Nat} {k : Worker} {s : Store} {p p' : Publish}
    (h : (p.step now k s).2.2 = .running p' ∨ (p.step now k s).2.2 = .waiting p') :
    p'.task = p.task ∧ (∃ a, p' = .adding p.task a ∧
      (p = .adding p.task a ∨ a.stream = k.settings.stream ∧ a.fields = p.task.encodeFields)) := by
  cases p with
  | fresh task =>
    simp only [Publish.step] at h
    split at h
    · rcases h with h | h <;> cases h
    · rcases h with h | h
      · cases h
        exact ⟨rfl, _, rfl, Or.inr ⟨rfl, rfl⟩⟩
      · cases h
  | adding task a =>
    have ha := add_resume_step a now s
    simp only [Publish.step] at h
    generalize a.resume now s = r at ha h
    cases ha with
    | waiting =>
      rcases h with h | h
      · cases h
      · cases h
        exact ⟨rfl, a, rfl, Or.inl rfl⟩
    | added | failed => rcases h with h | h <;> cases h

section
variable {w : World} (hw : w.Regular)
include hw

/-- A call that publishes has published before, or has just begun to. -/
theorem publishing_left {id i : Nat} {c : Call} {p' : Publish} (hc : w.call? id = some c)
    (hl : left? (w.stepCall id c).2 = some (.publishing i p')) :
    ∃ k p, c = .publishing i p ∧ w.workers[i]? = some k ∧
      ((p.step w.now k w.store).2.2 = .running p' ∨
        (p.step w.now k w.store).2.2 = .waiting p') := by
  cases c with
  | publishing j p =>
    cases hk : w.workers[j]? with
    | none =>
      simp only [stepCall, hk] at hl
      cases hl
    | some k =>
      simp only [stepCall, hk] at hl
      generalize hr : p.step w.now k w.store = r at hl
      obtain ⟨s, ns, q | q | x⟩ := r
      · cases hl
        exact ⟨k, p, rfl, hk, Or.inl (by rw [hr])⟩
      · cases hl
        exact ⟨k, p, rfl, hk, Or.inr (by rw [hr])⟩
      · cases hl
  | adding a =>
    obtain ⟨a', he⟩ := left?_within (P := fun c => ∃ a', c = Call.adding a') (fun a' => ⟨a', rfl⟩)
      _ _ _ hl
    cases he
  | shutting j s =>
    cases hk : w.workers[j]? with
    | none =>
      simp only [stepCall, hk] at hl
      cases hl
    | some k =>
      simp only [stepCall, hk] at hl
      obtain ⟨s', he⟩ := left?_within (P := fun c => ∃ s', c = Call.shutting j s')
        (fun s' => ⟨s', rfl⟩) _ _ _ hl
      cases he
  | requesting j r =>
    cases hk : w.workers[j]? with
    | none =>
      simp only [stepCall, hk] at hl
      cases hl
    | some k =>
      simp only [stepCall, hk] at hl
      generalize r.step w.now k = t at hl
      obtain ⟨k', ns, r' | r' | e | e⟩ := t <;> cases hl
  | _ => exact False.elim (hw.proper.calls id _ hc)

theorem Addressed.move (ha : w.Addressed) (m : Move) : (w.move m).Addressed := by
  intro id i task a hc
  have here {k : Worker} (hk : w.workers[i]? = some k) (hs : a.stream = k.settings.stream)
      (hf : a.fields = task.encodeFields) : ∃ k', (w.move m).workers[i]? = some k' ∧
        a.stream = k'.settings.stream ∧ a.fields = task.encodeFields := by
    obtain ⟨k', hk', he⟩ := hw.worker_move hk m
    exact ⟨k', hk', by rw [he, hs], hf⟩
  by_cases hm : m = .step (.call id)
  · subst hm
    cases hc₀ : w.call? id with
    | none =>
      rw [World.move, step_gone hc₀, hc₀] at hc
      cases hc
    | some c₀ =>
      rw [(step_own hw.proper hc₀).1] at hc
      obtain ⟨k, p, rfl, hk, hr⟩ := publishing_left hw hc₀ hc
      obtain ⟨-, a', hp', how⟩ := publish_goes_on hr
      cases hp'
      rcases how with he | ⟨hs, hf⟩
      · rw [he] at hc₀
        obtain ⟨k', hk', hs, hf⟩ := ha id i p.task a hc₀
        exact here hk' hs hf
      · exact here hk hs hf
  · rcases move_called hw.proper hm hc with h | ⟨-, h⟩
    · obtain ⟨k, hk, hs, hf⟩ := ha id i task a h
      exact here hk hs hf
    · cases m <;> cases h

end

theorem onStore_addressed (view : StoreView) (ops : List Store.Op) :
    (onStore view ops).Addressed := by
  rintro id i task a ⟨⟩

structure Posted (w : World) : Prop where
  regular : w.Regular
  addressed : w.Addressed

section
variable {w : World} (hw : w.Posted)
include hw

theorem Posted.move (m : Move) : (w.move m).Posted :=
  ⟨hw.regular.move m, hw.addressed.move hw.regular m⟩

theorem Posted.sound (q : Queue) : (w.store.shelf q).Sound := hw.regular.proper.shelves q

theorem postings_call {id : Nat} {c : Call} (hc : w.call? id = some c) :
    w.postings (.step (.call id)) =
      match (w.stepCall id c).2 with
      | .done o => (w.posting? id c o).toList
      | _ => [] := by
  simp only [postings, hc]
  rw [(step_own hw.regular.proper hc).2, List.drop_left]
  cases (w.stepCall id c).2 with
  | running | waiting => rfl
  | done o => cases hp : w.posting? id c o <;> simp [endings, hp]

/-- A step of a call that publishes. -/
theorem publish_grows {id i : Nat} {p : Publish} (hc : w.call? id = some (.publishing i p))
    (q : Queue) : (w.store.shelf q).Grows
      ((w.postings (.step (.call id))).filterMap (Posting.entryOn? q.stream))
      ((w.move (.step (.call id))).store.shelf q) := by
  have hm : w.move (.step (.call id)) = _ := step_call hc
  rw [postings_call hw hc, hm, conclude_store]
  cases hk : w.workers[i]? with
  | none =>
    simp only [stepCall, hk]
    exact .still rfl rfl
  | some k =>
    cases p with
    | fresh task =>
      by_cases ho : k.lifecycle.isOver = true
      · simp [stepCall, hk, Publish.step, ho, Progress.within, posting?, Posting.entryOn?,
          Except.toOption]
        exact .still rfl rfl
      · simp [stepCall, hk, Publish.step, ho, Progress.within]
        exact .still rfl rfl
    | adding task a =>
      obtain ⟨k', hk', hs, hf⟩ := hw.addressed id i task a hc
      obtain rfl := Option.some.inj (hk.symm.trans hk')
      have hg := a.grows (.publication id) w.now w.store q
      simp only [stepCall, hk, Publish.step]
      generalize a.resume w.now w.store = r at hg ⊢
      obtain ⟨s, a' | a' | x⟩ := r
      · exact hg
      · exact hg
      · cases x <;> simpa [Progress.within, posting?, hk, Addition.posted, hs, hf, Publish.task,
          Posting.entryOn?, Except.toOption] using hg

/-- A step of a call that only adds. -/
theorem addition_grows {id : Nat} {a : Addition} (hc : w.call? id = some (.adding a))
    (q : Queue) : (w.store.shelf q).Grows
      ((w.postings (.step (.call id))).filterMap (Posting.entryOn? q.stream))
      ((w.move (.step (.call id))).store.shelf q) := by
  have hm : w.move (.step (.call id)) = _ := step_call hc
  rw [postings_call hw hc, hm, conclude_store]
  have hg := a.grows (.addition id) w.now w.store q
  simp only [stepCall]
  generalize a.resume w.now w.store = r at hg ⊢
  obtain ⟨s, a' | a' | x⟩ := r <;> exact hg

omit hw in
/-- A step of a loop adds to a stream if the loop adds an entry again. -/
theorem loop_grows (i : Nat) (q : Queue) : (w.store.shelf q).Grows
    ((w.postings (.step (.loop i))).filterMap (Posting.entryOn? q.stream))
    ((w.move (.step (.loop i))).store.shelf q) := by
  rcases w.move_cases i (.step (.loop i)) with ⟨k, c, -, hk, hc⟩ | h
  · rw [(move_loop hk hc).1]
    by_cases ha : ∃ a id rest, c = .adding a id rest
    · obtain ⟨a, id, rest, rfl⟩ := ha
      have hs : w.postings (.step (.loop i)) =
          a.posted (.requeue i) (a.resume w.now w.store).2 := by
        simp only [postings, hk, Option.map_some, hc]
      have hg := a.grows (.requeue i) w.now w.store q
      rw [hs]
      simp only [loopStep, Consumer.step]
      generalize a.resume w.now w.store = r at hg ⊢
      obtain ⟨s, a' | a' | x⟩ := r <;> exact hg
    · have hn : ∀ a id rest, c ≠ .adding a id rest := fun a id rest h => ha ⟨a, id, rest, h⟩
      have hs : w.postings (.step (.loop i)) = [] := by
        simp only [postings, hk, Option.map_some, hc]
        cases c with
        | adding a id rest => exact absurd rfl (hn a id rest)
        | _ => rfl
      obtain ⟨he, hl⟩ := c.step_logs k.settings w.view w.now (w.isCancelled k.stop) w.store
        k.handoff hn q
      rw [hs]
      exact .still he hl
  · rw [move_idle (h rfl)]
    have hidle := h rfl
    have hp : w.postings (.step (.loop i)) = [] := by
      simp only [postings]
      split
      · next a id rest hc =>
        obtain ⟨k, hk, hc⟩ := Option.map_eq_some_iff.mp hc
        rw [post_loop hk, hc] at hidle
        cases hidle
      · rfl
    rw [hp]
    exact .still rfl rfl

/-- With a move a stream gains the entries of the attempts that succeed with it. -/
theorem move_grows (m : Move) (q : Queue) : (w.store.shelf q).Grows
    ((w.postings m).filterMap (Posting.entryOn? q.stream)) ((w.move m).store.shelf q) := by
  have same {s : Store} (h : w.store.SameLogs s) : (w.store.shelf q).Grows [] (s.shelf q) :=
    .still (h q).1 (h q).2
  cases m with
  | step a =>
    cases a with
    | loop i => exact loop_grows i q
    | call id =>
      cases hc : w.call? id with
      | none =>
        rw [World.move, step_gone hc]
        simp only [postings, hc]
        exact .still rfl rfl
      | some c =>
        have quiet (hs : w.store.SameLogs (w.stepCall id c).1.store)
            (hp : ∀ o, w.posting? id c o = none) : (w.store.shelf q).Grows
              ((w.postings (.step (.call id))).filterMap (Posting.entryOn? q.stream))
              ((w.move (.step (.call id))).store.shelf q) := by
          have hm : w.move (.step (.call id)) = _ := step_call hc
          have hn : w.postings (.step (.call id)) = [] := by
            rw [postings_call hw hc]
            split
            · rw [hp, Option.toList_none]
            · rfl
          rw [hn, hm, conclude_store]
          exact same hs
        cases c with
        | publishing i p => exact publish_grows hw hc q
        | adding a => exact addition_grows hw hc q
        | requesting i r =>
          refine quiet (.of_shelf fun q' => ?_) fun _ => rfl
          cases hk : w.workers[i]? with
          | none => simp only [stepCall, hk]
          | some k => rw [(request_call hw.regular.proper hk id r).1]
        | shutting i s =>
          exact quiet (.of_shelf (shutdown_call hw.regular.proper id i s).2) fun _ => rfl
        | _ => exact False.elim (hw.regular.proper.calls id _ hc)
  | create settings handler =>
    refine same ?_
    simp only [World.move, createWorker]
    cases hg : w.store.createGroup settings.stream settings.group with
    | error e => exact .of_shelf fun _ => rfl
    | ok store => exact createGroup_logs (q := settings.queue) hg
  | createGroup q' =>
    refine same ?_
    simp only [World.move]
    cases hg : w.store.createGroup q'.stream q'.group with
    | error e => exact .of_shelf fun _ => rfl
    | ok store => exact createGroup_logs hg
  | drop id =>
    refine same ?_
    rw [World.move, (drop_follows hw.regular.proper id).2]
    exact .of_shelf fun _ => rfl
  | letGo i =>
    refine same ?_
    rw [World.move, (letGo_follows hw.regular.proper i).2]
    exact .of_shelf fun _ => rfl
  | spawn i =>
    refine same ?_
    simp only [World.move]
    split <;> exact .of_shelf fun _ => rfl
  | panic i =>
    refine same ?_
    simp only [World.move]
    split
    · split <;> exact .of_shelf fun _ => rfl
    · exact .of_shelf fun _ => rfl
  | _ => exact same (.of_shelf fun _ => rfl)

/-- What a move adds to a stream are the attempts that succeed with it. -/
theorem move_appends (m : Move) (stream : String) :
    w.appends stream m = (w.postings m).filterMap (Posting.entryOn? stream) :=
  (move_grows hw m ⟨stream, ""⟩).gained (hw.sound _)

end

section
variable {w : World} (hw : w.Posted)
include hw

theorem run_appended (ms : List Move) (stream : String) :
    appended stream ms w = (attempted ms w).filterMap (Posting.entryOn? stream) := by
  induction ms generalizing w with
  | nil => rfl
  | cons m ms ih =>
    rw [appended, attempted, List.filterMap_append, ih (hw.move m), move_appends hw]

/-- The entries added to a stream are numbered on from its last one. -/
theorem run_numbered (ms : List Move) (stream : String) :
    (appended stream ms w).map Entry.id =
      (List.range' ((w.store.stream stream).last + 1) (appended stream ms w).length).map
        entryId := by
  induction ms generalizing w with
  | nil => rfl
  | cons m ms ih =>
    have hg := move_grows hw m ⟨stream, ""⟩
    rw [← move_appends hw m stream] at hg
    have hl : ((w.move m).store.stream stream).last =
        (w.store.stream stream).last + (w.appends stream m).length := hg.last
    have hi : (w.appends stream m).map Entry.id = (List.range' ((w.store.stream stream).last + 1)
        (w.appends stream m).length).map entryId := hg.ids
    rw [appended, List.map_append, List.length_append, ih (hw.move m), hi, hl,
      ← List.range'_append_1, List.map_append]
    congr 3
    omega

theorem run_ids_nodup (ms : List Move) (stream : String) :
    ((appended stream ms w).map Entry.id).Nodup := by
  rw [run_numbered hw]
  exact List.Nodup.map (fun a b h => entryId_injective h) List.nodup_range'

end

end World

end TaskRelay
