import Mathlib.Data.List.Infix
import TaskRelay.Proofs.Delivery.Ledger
import TaskRelay.World.Scenario

/-!
# A sole worker delivers in order

What a stream supplies to a group is handed out or still waiting, in order, as long as
no entry is trimmed before it was handed out. A loop offers what it was handed in order,
and once it has stopped it offers nothing any more. So the requests on the only worker of
a queue return the first entries beyond the cursor, without gaps.
-/

set_option autoImplicit false

namespace TaskRelay
open scoped List

def Entry.task (e : Entry) : Task := (Task.decodeFields e.fields).toOption.getD Task.empty

theorem taskOf_task (k : Worker) (e : Entry) : (k.taskOf e).2 = e.task := by
  unfold Worker.taskOf Entry.task
  cases Task.decodeFields e.fields <;> rfl

namespace Shelf

def Untrimmed (sh : Shelf) : Prop :=
  ∀ n ≤ sh.last, sh.cursor < n → n ∈ sh.entries.map Prod.fst

instance (sh : Shelf) : Decidable sh.Untrimmed :=
  inferInstanceAs (Decidable (∀ n ≤ sh.last, sh.cursor < n → n ∈ sh.entries.map Prod.fst))

variable {sh : Shelf}

/-- An addition that trims nothing too early comes after everything that waits. -/
theorem waiting_append (hs : sh.Sound) (hg : sh.group.isSome = true) (fields : Fields)
    (maxLen : Nat) (hu : (sh.append fields maxLen).Untrimmed) :
    (sh.append fields maxLen).waiting = sh.waiting ++ [(sh.last + 1, fields)] := by
  obtain ⟨kept, ⟨gone, hk⟩, he⟩ := sh.append_entries fields maxLen
  have hcur : (sh.append fields maxLen).cursor = sh.cursor := rfl
  have hc := hs.cursor_le
  have ho := hs.ordered
  rw [← hk, List.pairwise_append] at ho
  have hgone : gone.filter (fun p => sh.cursor < p.1) = [] := by
    rw [List.filter_eq_nil_iff]
    intro p hp hlt
    have hlast : p.1 ≤ sh.last := hs.bounded p (by simp [← hk, hp])
    have hm := hu p.1 (Nat.le_succ_of_le hlast) (by simpa [hcur] using hlt)
    rw [he, List.map_append, List.mem_append] at hm
    rcases hm with hm | hm
    · obtain ⟨p', hp', heq⟩ := List.mem_map.mp hm
      have hlt' := ho.2.2 p hp p' hp'
      omega
    · have heq : p.1 = sh.last + 1 := by simpa using hm
      omega
  have hnew : [(sh.last + 1, fields)].filter (fun p => sh.cursor < p.1) =
      [(sh.last + 1, fields)] := by
    rw [List.filter_eq_self]
    intro p hp
    rw [List.mem_singleton.mp hp]
    simpa using Nat.lt_succ_of_le hc
  have hg' : (sh.append fields maxLen).group.isSome = true := hg
  rw [waiting_of_group hg, waiting_of_group hg', hcur, he, ← hk, List.filter_append,
    List.filter_append, hgone, hnew, List.nil_append]

theorem waiting_ack (n : Nat) : (sh.ack n).waiting = sh.waiting :=
  waiting_regroup sh fun _ => rfl

end Shelf

structure Supplies (sh : Shelf) (ds : List Deed) (sh' : Shelf) : Prop where
  grouped : sh'.group.isSome = true
  supply : (sh.waiting ++ Ledger.added ds).map numbered =
    Ledger.handedOut ds ++ sh'.waiting.map numbered

section
variable {f f' : Flow} {ds : List Deed}

theorem Supplies.same {sh sh' : Shelf} (hg : sh'.group.isSome = true)
    (hw : sh'.waiting = sh.waiting) : Supplies sh [] sh' :=
  ⟨hg, by simp [hw]⟩

theorem Supplies.append {sh : Shelf} (hs : sh.Sound) (hg : sh.group.isSome = true)
    (fields : Fields) (maxLen : Nat) (hu : (sh.append fields maxLen).Untrimmed)
    (ha : Ledger.added ds = [(sh.last + 1, fields)]) (hd : Ledger.handedOut ds = []) :
    Supplies sh ds (sh.append fields maxLen) :=
  ⟨hg, by rw [Shelf.waiting_append hs hg fields maxLen hu, ha, hd, List.nil_append]⟩

theorem step_supplies (h : f.Step ds f') (hs : f.shelf.Sound)
    (hg : f.shelf.group.isSome = true) (hu : f'.shelf.Untrimmed) :
    Supplies f.shelf ds f'.shelf := by
  cases h with
  | rest => exact .same hg rfl
  | add fields maxLen => exact .append hs hg fields maxLen hu rfl rfl
  | found =>
    change Supplies f.shelf [] f.shelf.found
    rw [Shelf.found_of_group hg]
    exact .same hg rfl
  | join hsh hp =>
    rcases hsh with rfl | rfl
    · exact .same hg rfl
    · change Supplies f.shelf [] f.shelf.found
      rw [Shelf.found_of_group hg]
      exact .same hg rfl
  | work hp h =>
    cases h with
    | @hand sh' consumer bs slot h =>
      constructor
      · obtain ⟨g, -, rfl⟩ := h.after
        rfl
      · simp [h.waiting_after hs]
    | ack rest slot h =>
      rcases h with rfl | ⟨n, -, rfl⟩
      · exact ⟨hg, by simp⟩
      · refine ⟨?_, by simp [Shelf.waiting_ack]⟩
        simpa [Shelf.ack] using hg
    | readd e rest slot maxLen => exact .append hs hg e.fields maxLen hu rfl rfl
    | take stage e => exact ⟨hg, by simp⟩
    | _ => exact .same hg rfl

end

namespace Station

def line (p : Station) : List Entry :=
  p.slot.toList ++
    match p.stage with
    | .holding es => es
    | .offering _ rest | .acking _ rest => rest
    | _ => []

def Continues (p : Station) (back out : List Entry) : Prop :=
  match p.stage with
  | .requeueing _ | .adding _ _ | .out => back ++ p.slot.toList <+: out
  | _ => back ++ p.line = out

theorem Continues.slot {p : Station} {back out : List Entry} (h : p.Continues back out) :
    back ++ p.slot.toList <+: out := by
  obtain ⟨stage, slot⟩ := p
  cases stage with
  | requeueing | adding | out => exact h
  | _ =>
    rw [← show back ++ (slot.toList ++ _) = out from h, ← List.append_assoc]
    exact List.prefix_append _ _

end Station

theorem Work.continues {i : Nat} {sh sh' : Shelf} {p p' : Station} {ds : List Deed}
    (h : Work i sh p ds sh' p') (hf : p.Fit) {back out : List Entry}
    (hc : p.Continues back out) :
    p'.Continues (back ++ Ledger.taken ds) (out ++ Ledger.handedOut ds) := by
  cases h with
  | rest => simpa using hc
  | @hand _ consumer bs slot h =>
    obtain rfl : slot = none := hf
    have hb : back = out := by simpa [Station.Continues, Station.line] using hc
    simp [Station.Continues, Station.line, hb]
  | finish slot => simpa [Station.Continues, Station.line] using hc
  | offer e rest slot =>
    obtain rfl : slot = none := hf
    simpa [Station.Continues, Station.line] using hc
  | stop => simpa [Station.Continues] using hc.slot
  | take stage e =>
    cases stage <;> simpa [Station.Continues, Station.line] using hc
  | refuse e rest slot =>
    obtain rfl : slot = none := hf
    simpa [Station.Continues] using hc.slot
  | reclaim id e rest =>
    have hb := (List.prefix_append back [e]).trans hc.slot
    simpa [Station.Continues] using hb
  | accept | ack => simpa [Station.Continues, Station.line] using hc
  | pick | readd | skip => simpa [Station.Continues] using hc

def Flow.Sole (i : Nat) (f : Flow) : Prop :=
  ∀ j p, j ≠ i → f.stations[j]? = some p → p = ⟨.out, none⟩

theorem Work.idle_out {i : Nat} {sh sh' : Shelf} {p' : Station} {ds : List Deed}
    (h : Work i sh ⟨.out, none⟩ ds sh' p') : ds = [] := by
  cases h <;> rfl

section
variable {f f' : Flow} {ds : List Deed} {i : Nat} {p : Station} {back out : List Entry}

theorem step_continues (h : f.Step ds f') (hf : f.Fit) (hsole : f.Sole i)
    (hp : f.stations[i]? = some p) (hc : p.Continues back out) :
    ∃ p', f'.stations[i]? = some p' ∧
      p'.Continues (back ++ Ledger.taken ds) (out ++ Ledger.handedOut ds) := by
  cases h with
  | rest | add | found => exact ⟨p, hp, by simpa using hc⟩
  | join hsh hst =>
    refine ⟨p, ?_, by simpa using hc⟩
    rw [List.getElem?_append_left (List.getElem?_eq_some_iff.mp hp).1]
    exact hp
  | @work j q q' _ sh' hq h =>
    by_cases hj : j = i
    · subst hj
      obtain rfl : q = p := Option.some.inj (hq.symm.trans hp)
      have hi := (List.getElem?_eq_some_iff.mp hp).1
      exact ⟨q', List.getElem?_set_self hi, h.continues (hf q (List.mem_of_getElem? hp)) hc⟩
    · obtain rfl := hsole j q hj hq
      rw [h.idle_out]
      refine ⟨p, ?_, by simpa using hc⟩
      rw [List.getElem?_set_ne hj]
      exact hp

theorem stops_continues (h : f.Stops f') (hp : f.stations[i]? = some p)
    (hc : p.Continues back out) : ∃ p', f'.stations[i]? = some p' ∧ p'.Continues back out := by
  rcases h.turn i with he | ⟨p₁, hp₁, he⟩
  · exact ⟨p, he.trans hp, hc⟩
  · obtain rfl := Option.some.inj (hp.symm.trans hp₁)
    exact ⟨_, he, hc.slot⟩

end

structure Orderly (i : Nat) (first : List (Nat × Fields)) (h : List Deed) (f : Flow) : Prop where
  fit : f.Fit
  station : ∃ p, f.stations[i]? = some p ∧ p.Continues (Ledger.taken h) (Ledger.handedOut h)
  grouped : f.shelf.group.isSome = true
  supply : (first ++ Ledger.added h).map numbered =
    Ledger.handedOut h ++ f.shelf.waiting.map numbered

theorem orderly_step {i : Nat} {first : List (Nat × Fields)} {h ds : List Deed} {f f₁ f' : Flow}
    (hs : f.shelf.Sound) (ho : Orderly i first h f) (hsole : f.Sole i) (hu : f'.shelf.Untrimmed)
    (hstep : f.Step ds f₁) (hstop : f₁.Stops f') : Orderly i first (h ++ ds) f' := by
  obtain ⟨p, hp, hc⟩ := ho.station
  obtain ⟨p₁, hp₁, hc₁⟩ := step_continues hstep ho.fit hsole hp hc
  have hsup := step_supplies hstep hs ho.grouped (hstop.shelf ▸ hu)
  refine ⟨hstop.fit (hstep.fit ho.fit), ?_, ?_, ?_⟩
  · rw [Ledger.taken_append, Ledger.handedOut_append]
    exact stops_continues hstop hp₁ hc₁
  · rw [hstop.shelf]
    exact hsup.grouped
  · have h₀ := ho.supply
    have h₁ := hsup.supply
    rw [hstop.shelf, Ledger.added_append, Ledger.handedOut_append, ← List.append_assoc,
      List.map_append, h₀, List.append_assoc, List.append_assoc, ← h₁, List.map_append]

/-- Worker `i` is the only one of a queue, and no entry was trimmed before it was handed
out. -/
structure World.Sole (w : World) (q : Queue) (i : Nat) : Prop where
  only : ∀ j < w.workers.length, w.serves q j = true → j = i
  untrimmed : (w.store.shelf q).Untrimmed

instance (w : World) (q : Queue) (i : Nat) : Decidable (w.Sole q i) :=
  decidable_of_iff ((∀ j < w.workers.length, w.serves q j = true → j = i) ∧
    (w.store.shelf q).Untrimmed) ⟨fun h => ⟨h.1, h.2⟩, fun h => ⟨h.only, h.untrimmed⟩⟩

theorem sole_flow {w : World} {q : Queue} {i : Nat} (h : w.Sole q i) : (w.flow q).Sole i := by
  intro j p hj hp
  obtain ⟨k, hk, rfl⟩ : ∃ k, w.workers[j]? = some k ∧ k.station q = p := by
    simpa [World.flow] using hp
  apply Worker.station_other
  intro hq
  apply hj
  exact h.only j (List.getElem?_eq_some_iff.mp hk).1 (by simp [World.serves, hk, hq])

theorem create_ok {w w' : World} {settings : StreamSettings} {handler : Handler} {i : Nat}
    (h : w.createWorker settings handler = .ok (w', i)) :
    w.move (.create settings handler) = w' ∧
      (w'.flow settings.queue).stations[i]? = some ⟨.idle, none⟩ ∧
      (w'.flow settings.queue).shelf.group.isSome = true := by
  refine ⟨by simp [World.move, h], ?_⟩
  unfold World.createWorker at h
  cases hg : w.store.createGroup settings.stream settings.group with
  | error e => simp [hg] at h
  | ok store =>
    have hsh := Store.createGroup_shelf
      (show w.store.createGroup settings.queue.stream settings.queue.group = .ok store from hg)
      settings.queue
    rw [if_pos rfl] at hsh
    simp only [hg, Except.ok.injEq, Prod.mk.injEq] at h
    obtain ⟨rfl, rfl⟩ := h
    constructor
    · have hk : (Worker.create settings handler w.tokens.fresh.2).queue = settings.queue := rfl
      simp [World.flow, World.note, Worker.createdNote, Note.info, Worker.station_own hk]
      exact ⟨rfl, rfl⟩
    · change (store.shelf settings.queue).group.isSome = true
      rw [hsh]
      rfl

/-- On a store with any history, other workers may have run before and may go on. Once a
worker is created that stays the only one of its queue, and as long as trimming spares what
was not handed out, the tasks made of what its requests take, and the replies to them, are
those of the first entries beyond the cursor of its group at that time, in the order of the
stream. -/
theorem tasks_in_order (view : StoreView) (ops : List Store.Op) (pre post : List World.Move)
    (settings : StreamSettings) (handler : Handler) {w : World} {i : Nat}
    (created : (World.run pre (World.onStore view ops)).createWorker settings handler = .ok (w, i))
    (sole : ∀ ms, ms <+: post → (World.run ms w).Sole settings.queue i) :
    let h := World.history settings.queue post w
    ∃ n, let first := ((w.store.shelf settings.queue).waiting ++ Ledger.added h).take n
      (∀ k : Worker, (Ledger.taken h).map (fun e => (k.taskOf e).2) =
        first.map fun p => (Task.decodeFields p.2).toOption.getD Task.empty) ∧
      ∀ name, (Ledger.taken h).map
          (fun e => Scenario.replyOf (.request name) (.requested (.ok e))) =
        first.map fun p => .task ((Task.decodeFields p.2).toOption.getD Task.empty) := by
  intro h
  have hw₀ := World.run_proper pre (World.onStore_proper view ops)
  obtain ⟨hm, hst, hg⟩ := create_ok created
  have hw : w.Proper := hm ▸ (World.move_follows hw₀ _).proper hw₀
  have hfit : (w.flow settings.queue).Fit := by
    have ha := run_account view ops (pre ++ [.create settings handler]) settings.queue
    rw [World.run_append] at ha
    exact hm ▸ ha.fit
  have h₀ : Orderly i (w.store.shelf settings.queue).waiting [] (w.flow settings.queue) :=
    ⟨hfit, ⟨_, hst, rfl⟩, hg, by simp [World.flow]⟩
  have ho := World.run_keeps (q := settings.queue)
    (C := fun f => f.Sole i ∧ f.shelf.Untrimmed)
    (P := Orderly i (w.store.shelf settings.queue).waiting)
    (fun _ _ _ _ _ hs hc hc' ho hstep hstop =>
      orderly_step hs ho hc.1 hc'.2 hstep hstop) post hw
    (fun ms hms => ⟨sole_flow (sole ms hms), (sole ms hms).untrimmed⟩) h₀
  rw [List.nil_append] at ho
  obtain ⟨p, -, hc⟩ := ho.station
  have hpre : Ledger.taken h <+: Ledger.handedOut h :=
    (List.prefix_append _ _).trans hc.slot
  have hall : Ledger.taken h <+:
      ((w.store.shelf settings.queue).waiting ++ Ledger.added h).map numbered := by
    rw [ho.supply]
    exact hpre.trans (List.prefix_append _ _)
  have htake : Ledger.taken h = (((w.store.shelf settings.queue).waiting ++
      Ledger.added h).take (Ledger.taken h).length).map numbered := by
    rw [List.map_take]
    exact List.prefix_iff_eq_take.mp hall
  refine ⟨(Ledger.taken h).length, fun k => ?_, fun name => ?_⟩
  · simp only [taskOf_task]
    exact (congrArg (List.map Entry.task) htake).trans List.map_map
  · exact (congrArg (List.map fun e => Reply.task e.task) htake).trans List.map_map

def boundless : StreamSettings := (StreamSettings.named "tasks" "crew" "first").withMaxLength 0

def twoRequests : List World.Move := [
  .add "tasks" [("body", "first")] 0, .step (.call 0),
  .add "tasks" [("body", "second")] 0, .step (.call 1),
  .spawn 0, .step (.loop 0), .step (.loop 0), .step (.loop 0), .failAcks 1,
  .request 0, .step (.call 2), .step (.call 2),
  .step (.loop 0), .step (.loop 0), .step (.loop 0),
  .request 0, .step (.call 3), .step (.call 3)]

theorem two_tasks_in_order :
    let w := (World.onStore ⟨2, false⟩ []).move (.create boundless (.scripted "none"))
    let h := World.history boundless.queue twoRequests w
    (∀ ms, ms <+: twoRequests → (World.run ms w).Sole boundless.queue 0) ∧
    (Ledger.taken h).length = 2 ∧
    ∃ n, let first := ((w.store.shelf boundless.queue).waiting ++ Ledger.added h).take n
      (∀ k : Worker, (Ledger.taken h).map (fun e => (k.taskOf e).2) =
        first.map fun p => (Task.decodeFields p.2).toOption.getD Task.empty) ∧
      ∀ name, (Ledger.taken h).map
          (fun e => Scenario.replyOf (.request name) (.requested (.ok e))) =
        first.map fun p => .task ((Task.decodeFields p.2).toOption.getD Task.empty) := by
  intro w h
  have hall : ∀ ms ∈ twoRequests.inits, (World.run ms w).Sole boundless.queue 0 := by
    decide +kernel
  have hsole : ∀ ms, ms <+: twoRequests → (World.run ms w).Sole boundless.queue 0 :=
    fun ms hms => hall ms ((List.mem_inits ms _).mpr hms)
  exact ⟨hsole, by decide +kernel,
    tasks_in_order ⟨2, false⟩ [] [] twoRequests boundless (.scripted "none") rfl hsole⟩

end TaskRelay
