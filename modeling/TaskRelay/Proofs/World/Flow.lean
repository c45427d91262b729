import Mathlib.Data.List.Forall2
import TaskRelay.Proofs.World.Moves

/-!
# The flow of the entries of one queue

Of a world, its queue only needs the shelf and, for each worker, which entries the
consumer loop holds and what is in the slot. Of that, a move does one of the steps
below and then perhaps ends some loops. A worker of another queue counts as one
that has ended with nothing in its slot.
-/

set_option autoImplicit false

namespace TaskRelay

inductive Stage
  | idle
  | holding (es : List Entry)
  | offering (id : String) (rest : List Entry)
  | acking (id : String) (rest : List Entry)
  | requeueing (es : List Entry)
  | adding (e : Entry) (rest : List Entry)
  | out

structure Station where
  stage : Stage
  slot : Option Entry

structure Flow where
  shelf : Shelf
  stations : List Station

def Consumer.stage : Consumer → Stage
  | .holding es => .holding es
  | .offering _ id rest => .offering id rest
  | .acking id rest => .acking id rest
  | .requeueing es => .requeueing es
  | .adding a id rest => .adding ⟨id, a.fields⟩ rest
  | _ => .idle

def LoopState.stage : LoopState → Stage
  | .absent => .idle
  | .active c => c.stage
  | _ => .out

def Worker.station (q : Queue) (k : Worker) : Station :=
  if k.queue = q then ⟨k.consumer.stage, k.handoff.slot⟩ else ⟨.out, none⟩

theorem Worker.station_own {q : Queue} {k : Worker} (h : k.queue = q) :
    k.station q = ⟨k.consumer.stage, k.handoff.slot⟩ :=
  if_pos h

theorem Worker.station_other {q : Queue} {k : Worker} (h : k.queue ≠ q) :
    k.station q = ⟨.out, none⟩ :=
  if_neg h

theorem Worker.station_aborted (q : Queue) (k : Worker) :
    station q { k with consumer := .aborted } = k.station q ∨
      station q { k with consumer := .aborted } = ⟨.out, (k.station q).slot⟩ := by
  by_cases h : k.queue = q
  · rw [station_own h]
    exact Or.inr (station_own h)
  · rw [station_other h]
    exact Or.inl (station_other h)

def World.flow (q : Queue) (w : World) : Flow :=
  ⟨w.store.shelf q, w.workers.map (Worker.station q)⟩

inductive Work (i : Nat) : Shelf → Station → List Deed → Shelf → Station → Prop
  | rest (sh : Shelf) (p : Station) : Work i sh p [] sh p
  | hand {sh sh' : Shelf} {consumer : String} {bs : List (Nat × Fields)} (slot : Option Entry)
      (h : sh.Hands consumer bs sh') :
      Work i sh ⟨.idle, slot⟩ [.handed i (bs.map numbered)] sh' ⟨.holding (bs.map numbered), slot⟩
  | finish (sh : Shelf) (slot : Option Entry) : Work i sh ⟨.holding [], slot⟩ [] sh ⟨.idle, slot⟩
  | offer (sh : Shelf) (e : Entry) (rest : List Entry) (slot : Option Entry) :
      Work i sh ⟨.holding (e :: rest), slot⟩ [] sh ⟨.offering e.id rest, some e⟩
  | refuse (sh : Shelf) (e : Entry) (rest : List Entry) (slot : Option Entry) :
      Work i sh ⟨.holding (e :: rest), slot⟩ [] sh ⟨.requeueing (e :: rest), none⟩
  | accept (sh : Shelf) (id : String) (rest : List Entry) :
      Work i sh ⟨.offering id rest, none⟩ [] sh ⟨.acking id rest, none⟩
  | reclaim (sh : Shelf) (id : String) (e : Entry) (rest : List Entry) :
      Work i sh ⟨.offering id rest, some e⟩ [] sh ⟨.requeueing (e :: rest), none⟩
  | ack {sh sh' : Shelf} {id : String} (rest : List Entry) (slot : Option Entry)
      (h : sh' = sh ∨ ∃ n, entryNumber? id = some n ∧ sh' = sh.ack n) :
      Work i sh ⟨.acking id rest, slot⟩ [.acked i id] sh' ⟨.holding rest, slot⟩
  | pick (sh : Shelf) (e : Entry) (rest : List Entry) (slot : Option Entry) :
      Work i sh ⟨.requeueing (e :: rest), slot⟩ [] sh ⟨.adding e rest, slot⟩
  | readd (sh : Shelf) (e : Entry) (rest : List Entry) (slot : Option Entry) (maxLen : Nat) :
      Work i sh ⟨.adding e rest, slot⟩
        [.added (sh.last + 1) e.fields, .readded i e.id (entryId (sh.last + 1))]
        (sh.append e.fields maxLen) ⟨.requeueing rest, slot⟩
  | skip (sh : Shelf) (e : Entry) (rest : List Entry) (slot : Option Entry) :
      Work i sh ⟨.adding e rest, slot⟩ [] sh ⟨.requeueing rest, slot⟩
  | stop (sh : Shelf) (p : Station) : Work i sh p [] sh ⟨.out, p.slot⟩
  | take (sh : Shelf) (stage : Stage) (e : Entry) :
      Work i sh ⟨stage, some e⟩ [.returned i e] sh ⟨stage, none⟩

namespace Flow

inductive Step : Flow → List Deed → Flow → Prop
  | rest (f : Flow) : Step f [] f
  | add (f : Flow) (fields : Fields) (maxLen : Nat) :
      Step f [.added (f.shelf.last + 1) fields] ⟨f.shelf.append fields maxLen, f.stations⟩
  | found (f : Flow) : Step f [] ⟨f.shelf.found, f.stations⟩
  | join (f : Flow) {sh : Shelf} {stage : Stage} (hsh : sh = f.shelf ∨ sh = f.shelf.found)
      (hp : stage = .idle ∨ stage = .out) : Step f [] ⟨sh, f.stations ++ [⟨stage, none⟩]⟩
  | work {f : Flow} {i : Nat} {p p' : Station} {ds : List Deed} {sh' : Shelf}
      (hp : f.stations[i]? = some p) (h : Work i f.shelf p ds sh' p') :
      Step f ds ⟨sh', f.stations.set i p'⟩

structure Stops (f f' : Flow) : Prop where
  shelf : f'.shelf = f.shelf
  stations : List.Forall₂ (fun p p' => p' = p ∨ p' = ⟨.out, p.slot⟩) f.stations f'.stations

theorem Stops.refl (f : Flow) : f.Stops f :=
  ⟨rfl, List.forall₂_same.mpr fun _ _ => Or.inl rfl⟩

theorem Stops.turn {f f' : Flow} (h : f.Stops f') (i : Nat) :
    f'.stations[i]? = f.stations[i]? ∨
      ∃ p, f.stations[i]? = some p ∧ f'.stations[i]? = some ⟨.out, p.slot⟩ := by
  obtain ⟨hl, hr⟩ := List.forall₂_iff_get.mp h.stations
  by_cases hi : i < f.stations.length
  · have hi' : i < f'.stations.length := hl ▸ hi
    rw [List.getElem?_eq_getElem hi, List.getElem?_eq_getElem hi']
    rcases hr i hi hi' with he | he
    · exact Or.inl (congrArg some he)
    · exact Or.inr ⟨_, rfl, congrArg some he⟩
  · have hi' : ¬i < f'.stations.length := hl ▸ hi
    rw [List.getElem?_eq_none (Nat.le_of_not_lt hi), List.getElem?_eq_none (Nat.le_of_not_lt hi')]
    exact Or.inl rfl

end Flow

theorem Work.sound {i : Nat} {sh sh' : Shelf} {p p' : Station} {ds : List Deed}
    (h : Work i sh p ds sh' p') (hs : sh.Sound) : sh'.Sound := by
  cases h with
  | hand slot h => exact h.sound hs
  | ack rest slot h =>
    rcases h with rfl | ⟨n, -, rfl⟩
    · exact hs
    · exact hs.ack n
  | readd e rest slot maxLen => exact hs.append e.fields maxLen
  | _ => exact hs

theorem Flow.Step.sound {f f' : Flow} {ds : List Deed} (h : f.Step ds f') (hs : f.shelf.Sound) :
    f'.shelf.Sound := by
  cases h with
  | rest => exact hs
  | add fields maxLen => exact hs.append fields maxLen
  | found => exact hs.found
  | join hsh hp =>
    rcases hsh with rfl | rfl
    · exact hs
    · exact hs.found
  | work hp h => exact h.sound hs

end TaskRelay
