import TaskRelay.Proofs.Fitting
import TaskRelay.Proofs.World.Signals

/-!
# A loop on any store

One consumer loop as somebody with a clock sees it who keeps a log. The loop knows its store
only by what the store says when it is asked, so a store of any behaviour is a list of
answers. Between the steps of the loop the handoff changes in any way, the loop is told to
stop or ended from outside, and time passes.

The clock stands still while the loop can go on, and passes no end of a pause.
-/

set_option autoImplicit false

namespace TaskRelay
open scoped List

structure Said where
  panics : Bool
  read : Progress GroupRead ReadResult
  acked : Except StoreError Unit
  added : Progress Addition AddResult
  delay : Nat

namespace Consumer

structure Turn where
  handoff : Handoff Entry
  notes : List Note
  progress : Progress Consumer LoopEnd

def Turn.of (s : ConsumerStep) : Turn := ⟨s.handoff, s.notes, s.progress⟩

def Turn.state (t : Turn) : LoopState := ConsumerStep.state ⟨.empty, t.handoff, t.notes, t.progress⟩

variable (cfg : StreamSettings)

def hears (now : Nat) (stopped : Bool) (handoff : Handoff Entry) (said : Said) : Consumer → Turn
  | .top =>
    if stopped then .of (exit cfg .empty handoff)
    else if said.panics then ⟨handoff, [], .done .panicked⟩
    else .of (afterRead cfg now .empty handoff said.read)
  | .reading _ =>
    if stopped then .of (exit cfg .empty handoff)
    else .of (afterRead cfg now .empty handoff said.read)
  | .acking id rest => ⟨handoff, ackNotes cfg id said.acked, .running (.holding rest)⟩
  | .adding _ id rest =>
    match said.added with
    | .running a | .waiting a => ⟨handoff, [], .waiting (.adding a id rest)⟩
    | .done r => ⟨handoff, [requeueNote cfg id r], .running (.requeueing rest)⟩
  | c => .of (c.step cfg ⟨0, false⟩ now stopped { Store.empty with addDelay := said.delay } handoff)

def learns (view : StoreView) (now : Nat) (store : Store) (c : Consumer) : Said where
  panics := view.readsPanic
  read :=
    match c with
    | .reading r => (r.resume now store).2
    | _ => (store.beginRead now cfg.stream cfg.group cfg.consumer (max 1 view.batch)
        cfg.blockTime.timerMillis).2
  acked :=
    match c with
    | .acking id _ => (store.ack cfg.stream cfg.group id).2
    | _ => .ok ()
  added :=
    match c with
    | .adding a _ _ => (a.resume now store).2
    | _ => .done (.error .closed)
  delay := store.addDelay

/-- The loop takes its steps on what its store says. -/
theorem step_hears (view : StoreView) (now : Nat) (stopped : Bool) (store : Store)
    (handoff : Handoff Entry) (c : Consumer) :
    Turn.of (c.step cfg view now stopped store handoff) =
      c.hears cfg now stopped handoff (c.learns cfg view now store) := by
  have read (s : Store) (p : Progress GroupRead ReadResult) :
      Turn.of (afterRead cfg now s handoff p) = .of (afterRead cfg now .empty handoff p) := by
    rcases p with r | r | ⟨e | ⟨_ | ⟨e, es⟩⟩⟩ <;> rfl
  have offer (s s' : Store) (h : Handoff Entry) (id : String) (rest : List Entry)
      (p : Progress Offer (Offered Entry)) :
      Turn.of (afterOffer s h id rest p) = .of (afterOffer s' h id rest p) := by
    rcases p with o | o | ⟨_ | e⟩ <;> rfl
  cases c with
  | spawned => rfl
  | top =>
    cases stopped with
    | true => rfl
    | false =>
      obtain ⟨batch, _ | _⟩ := view
      · exact read _ _
      · rfl
  | reading r =>
    simp only [step, hears, learns]
    split
    · rfl
    · exact read _ _
  | pausing d =>
    simp only [step, hears]
    split
    · rfl
    · split <;> rfl
  | holding batch =>
    cases batch with
    | nil => rfl
    | cons e rest => exact offer _ _ _ _ _ _
  | offering o id rest => exact offer _ _ _ _ _ _
  | acking id rest => rfl
  | requeueing batch => cases batch <;> rfl
  | adding a id rest =>
    simp only [step, hears, learns]
    generalize a.resume now store = p
    obtain ⟨s, r | r | r⟩ := p <;> rfl

end Consumer

inductive Feat
  | told
  | cut
  | exits
  | reads
  | got (r : ReadResult)
  | offers (e : Entry)
  | acks (id : String) (r : Except StoreError Unit)

abbrev Feats := List (Nat × Feat)

namespace Consumer

def gets : Progress GroupRead ReadResult → List Feat
  | .done r => [.got r]
  | _ => []

def asks (stopped : Bool) (said : Said) : Consumer → List Feat
  | .top => if stopped then [] else .reads :: if said.panics then [] else gets said.read
  | .reading _ => if stopped then [] else gets said.read
  | .holding (e :: _) => [.offers e]
  | .acking id _ => [.acks id said.acked]
  | _ => []

def ends : Progress Consumer LoopEnd → List Feat
  | .done .finished => [.exits]
  | .done .panicked => [.cut]
  | _ => []

def does (cfg : StreamSettings) (view : StoreView) (now : Nat) (stopped : Bool) (store : Store) :
    Consumer → List Feat
  | .top =>
    if stopped then []
    else .reads :: if view.readsPanic then [] else
      gets (store.beginRead now cfg.stream cfg.group cfg.consumer (max 1 view.batch)
        cfg.blockTime.timerMillis).2
  | .reading r => if stopped then [] else gets (r.resume now store).2
  | .holding (e :: _) => [.offers e]
  | .acking id _ => [.acks id (store.ack cfg.stream cfg.group id).2]
  | _ => []

theorem asks_learns (cfg : StreamSettings) (view : StoreView) (now : Nat) (stopped : Bool)
    (store : Store) (c : Consumer) :
    c.asks stopped (c.learns cfg view now store) = c.does cfg view now stopped store := by
  cases c with
  | holding batch => cases batch <;> rfl
  | _ => rfl

end Consumer

structure Intake where
  now : Nat
  stopped : Bool
  handoff : Handoff Entry
  loop : LoopState
  log : Feats

namespace Intake

inductive Move
  | step (said : Said)
  | stop
  | panic
  | abort
  | use (h : Handoff Entry)
  | wait (millis : Nat)

def start (now : Nat) (h : Handoff Entry) : Intake := ⟨now, false, h, .active .spawned, []⟩

def noted (o : Intake) (xs : List Feat) : Feats := o.log ++ xs.map (o.now, ·)

def cutTo (o : Intake) (l : LoopState) : Intake :=
  if o.loop.isActive then { o with loop := l, log := o.noted [.cut] } else o

def move (cfg : StreamSettings) (o : Intake) : Move → Intake
  | .step said =>
    match o.loop with
    | .active c =>
      let t := c.hears cfg o.now o.stopped o.handoff said
      { o with
        handoff := t.handoff
        loop := t.state
        log := o.noted (c.asks o.stopped said ++ Consumer.ends t.progress) }
    | _ => o
  | .stop => { o with stopped := true, log := o.noted [.told] }
  | .panic => o.cutTo .panicked
  | .abort => o.cutTo .aborted
  | .use h => { o with handoff := h }
  | .wait n => { o with now := o.now + n }

def run (cfg : StreamSettings) : List Move → Intake → Intake
  | [], o => o
  | m :: ms, o => run cfg ms (o.move cfg m)

def awake (o : Intake) : Bool :=
  match o.loop with
  | .active (.reading _) => o.stopped
  | .active (.adding _ _ _) => false
  | .active c => c.woken o.now o.stopped .empty o.handoff
  | _ => false

def TimelyMove (o : Intake) : Move → Prop
  | .wait n =>
    match o.loop with
    | .active (.pausing d) => o.stopped = false ∧ o.now + n ≤ d
    | _ => o.awake = false
  | _ => True

instance (o : Intake) (m : Move) : Decidable (o.TimelyMove m) := by
  unfold TimelyMove
  split
  · split <;> infer_instance
  · infer_instance

def Timely (cfg : StreamSettings) : List Move → Intake → Prop
  | [], _ => True
  | m :: ms, o => o.TimelyMove m ∧ Timely cfg ms (o.move cfg m)

instance decidableTimely (cfg : StreamSettings) :
    (ms : List Move) → (o : Intake) → Decidable (Timely cfg ms o)
  | [], _ => .isTrue trivial
  | m :: ms, o =>
    @instDecidableAnd _ _ inferInstance (decidableTimely cfg ms (o.move cfg m))

end Intake
end TaskRelay
