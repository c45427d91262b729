import TaskRelay.Proofs.Runner.Record
import TaskRelay.Proofs.Worker.Watch

/-!
# Runs with any calls

Besides the acts anybody may begin a call of any kind, runners with a source of their own
included. Only what a runner dispatches is begun by nobody else.

What happens in a world is one of a few things, as far as the calls and the permits tell:
somebody who has to do with no runner goes on, a call is begun, a dispatched run goes on, or
a runner does.
-/

set_option autoImplicit false

namespace TaskRelay

def Call.Opens : Call → Prop
  | .driving r => r.stage = .fresh
  | .dispatched _ _ _ _ | .loose _ _ _ => False
  | _ => True

def Call.Aside : Call → Prop
  | .driving _ | .dispatched _ _ _ _ | .loose _ _ _ => False
  | _ => True

def Call.owner? : Call → Option Nat
  | .dispatched owner _ _ _ | .loose owner _ _ => some owner
  | _ => none

def Run.token : Run → Token
  | .fresh token _ => token
  | .under e => e.token

def Call.runToken? : Call → Option Token
  | .dispatched _ _ _ r => some r.token
  | .loose _ token _ => some token
  | _ => none

def Token.marks (t : Token) : List Nat := t.mark :: t.ancestors

def Table.put {β : Type} (k : Nat) (b : Option β) (t : Table Nat β) : Table Nat β :=
  match b with
  | some b => t.insert k b
  | none => t.erase k

theorem Execution.step_onward (now : Nat) (tokens : Cancellations) (e : Execution) :
    tokens.cancelled ⊆ (e.step now tokens).tokens.cancelled := by
  rw [Execution.step_hears]
  rcases Execution.hears_tokens now tokens e _ with h | h <;> rw [h]
  · exact List.Subset.refl _
  · exact List.subset_cons_self _ _

theorem Run.step_onward (now : Nat) (tokens : Cancellations) (handler : Handler) (r : Run) :
    tokens.cancelled ⊆ (r.step now tokens handler).tokens.cancelled := by
  cases r with
  | fresh token task => exact List.Subset.refl _
  | under e =>
    simp only [Run.step, Run.after_tokens]
    exact Execution.step_onward now tokens e

theorem Shutdown.step_onward (now : Nat) (tokens : Cancellations) (store : Store) (k : Worker)
    (s : Shutdown) : tokens.cancelled ⊆ (s.step now tokens store k).tokens.cancelled := by
  cases s with
  | fresh =>
    simp only [Shutdown.step]
    split
    · exact List.Subset.refl _
    · exact List.subset_cons_self _ _
  | joining d =>
    simp only [Shutdown.step]
    split
    case h_5 => split <;> exact List.Subset.refl _
    all_goals exact List.Subset.refl _
  | closing => exact List.Subset.refl _

theorem Run.step_token {now : Nat} {tokens : Cancellations} {handler : Handler} {r r' : Run}
    (h : (r.step now tokens handler).progress = .running r' ∨
      (r.step now tokens handler).progress = .waiting r') : r.token.marks ⊆ r'.token.marks := by
  have kept (e : Execution) : ∀ e', (e.step now tokens).progress = .running e' ∨
      (e.step now tokens).progress = .waiting e' → e'.token = e.token := by
    intro e' he
    unfold Execution.step at he
    simp only at he
    split at he <;> simp at he <;> rw [← he]
  cases r with
  | fresh token task =>
    rcases h with h | h
    · cases h
      exact List.subset_cons_self _ _
    · cases h
  | under e =>
    have hk := kept e
    simp only [Run.step, Run.after] at h
    generalize (e.step now tokens).progress = p at h hk
    rcases p with e' | e' | (_ | ⟨⟨⟩⟩) | _ | _ <;> simp at h <;> subst h
    · rw [Run.token, Run.token, hk e' (Or.inl rfl)]
      exact List.Subset.refl _
    · rw [Run.token, Run.token, hk e' (Or.inr rfl)]
      exact List.Subset.refl _

namespace Runner

def Loops (r : Runner) : Prop :=
  match r.stage with
  | .acquiring | .asking _ | .pausing _ => True
  | _ => False

def held (r : Runner) : Nat :=
  match r.stage with
  | .asking _ | .pausing _ => 1
  | _ => 0

structure Follows (r r' : Runner) : Prop where
  settings : r'.settings = r.settings
  shutdown : r'.shutdown = r.shutdown

end Runner

namespace World

inductive Happening
  | act (a : Act)
  | enter (c : Call) (opens : c.Opens)

def happen (w : World) : Happening → World
  | .act a => w.act a
  | .enter c _ => (w.begin c).1

def occur : List Happening → World → World
  | [], w => w
  | h :: hs, w => occur hs (w.happen h)

theorem occur_append (hs hs' : List Happening) (w : World) :
    occur (hs ++ hs') w = occur hs' (occur hs w) := by
  induction hs generalizing w with
  | nil => rfl
  | cons h hs ih => exact ih (w.happen h)

structure Onward (w w' : World) : Prop where
  now : w'.now = w.now
  tokens : w.tokens.cancelled ⊆ w'.tokens.cancelled

theorem conclude_calls (w : World) (n : Nat) (p : Progress Call Outcome) :
    (w.conclude n p).calls = Table.put n (left? p) w.calls := by
  cases p <;> rfl

theorem conclude_permits (w : World) (n : Nat) (p : Progress Call Outcome) :
    (w.conclude n p).permits = w.permits := by
  cases p <;> rfl

structure Steady (w w' : World) : Prop extends Onward w w' where
  calls : w'.calls = w.calls
  next : w'.nextCall = w.nextCall
  permits : w'.permits = w.permits

namespace Steady

variable {w w' w'' : World}

theorem refl (w : World) : w.Steady w := ⟨⟨rfl, List.Subset.refl _⟩, rfl, rfl, rfl⟩

theorem trans (h : w.Steady w') (h' : w'.Steady w'') : w.Steady w'' :=
  ⟨⟨h'.now.trans h.now, List.Subset.trans h.tokens h'.tokens⟩, h'.calls.trans h.calls,
    h'.next.trans h.next, h'.permits.trans h.permits⟩

theorem notes (w : World) (ns : List Note) : w.Steady (w.notes ns) := by
  refine ⟨⟨?_, ?_⟩, ?_, ?_, ?_⟩ <;> simp

theorem noted (h : w.Steady w') (ns : List Note) : w.Steady (w'.notes ns) := h.trans (.notes w' ns)

theorem remarked (h : w.Steady w') (n : Note) : w.Steady (w'.note n) := h.noted [n]

theorem cancelled (h : w.Steady w') (t : Token) : w.Steady (w'.cancel t) :=
  h.trans ⟨⟨rfl, List.subset_cons_self _ _⟩, rfl, rfl, rfl⟩

theorem worker (w : World) (i : Nat) (k : Worker) : w.Steady (w.setWorker i k) :=
  ⟨⟨rfl, List.Subset.refl _⟩, rfl, rfl, rfl⟩

end Steady

structure Frees (w : World) (d : Nat) (w' : World) : Prop extends Onward w w' where
  calls : w'.calls = w.calls
  next : w'.nextCall = w.nextCall
  others : ∀ e, e ≠ d → w'.free e = w.free e

@[simp]
theorem setFree_same (w : World) (d m : Nat) : (w.setFree d m).free d = m := by
  simp [free, setFree, Table.get?_insert_self]

theorem setFree_other (w : World) {d e : Nat} (h : e ≠ d) (m : Nat) :
    (w.setFree d m).free e = w.free e := by
  simp [free, setFree, Table.get?_insert_of_ne h]

theorem Steady.free {w w' : World} (h : w.Steady w') (d : Nat) : w'.free d = w.free d := by
  rw [World.free, World.free, h.permits]

theorem Steady.frees {w w' : World} (h : w.Steady w') (d : Nat) : w.Frees d w' :=
  ⟨h.toOnward, h.calls, h.next, fun e _ => h.free e⟩

theorem Steady.setFree {w w' : World} (h : w.Steady w') (d m : Nat) :
    w.Frees d (w'.setFree d m) :=
  ⟨⟨h.now, h.tokens⟩, h.calls, h.next, fun e he => (setFree_other w' he m).trans (h.free e)⟩

theorem left?_within {σ α : Type} {f : σ → Call} {P : Call → Prop} (hf : ∀ s, P (f s))
    (g : α → Outcome) (p : Progress σ α) : ∀ c, left? (p.within f g) = some c → P c := by
  intro c hc
  cases p with
  | running s | waiting s =>
    cases hc
    exact hf s
  | done a => cases hc

theorem stepRun_steady (w : World) (i : Nat) (r : Run) : w.Steady (w.stepRun i r).1 := by
  unfold stepRun
  cases w.workers[i]? with
  | none => exact .refl w
  | some k =>
    have h := Run.step_onward w.now w.tokens k.handler r
    have hs : w.Steady { w with tokens := (r.step w.now w.tokens k.handler).tokens } :=
      ⟨⟨rfl, h⟩, rfl, rfl, rfl⟩
    exact hs.noted _

theorem aside_step (w : World) (n : Nat) {c : Call} (hc : c.Aside) :
    w.Steady (w.stepCall n c).1 ∧ ∀ c', left? (w.stepCall n c).2 = some c' → c'.Aside := by
  have none_left {o : Outcome} : ∀ c', left? (.done o) = some c' → c'.Aside := by
    intro c' h
    cases h
  cases c with
  | adding a | read s g co ct b | reading r =>
    refine ⟨⟨⟨rfl, List.Subset.refl _⟩, rfl, rfl, rfl⟩, left?_within (fun _ => trivial) _ _⟩
  | publishing i p =>
    simp only [stepCall]
    cases w.workers[i]? with
    | none => exact ⟨.refl w, none_left⟩
    | some k =>
      have hs (store : Store) : w.Steady { w with store := store } :=
        ⟨⟨rfl, List.Subset.refl _⟩, rfl, rfl, rfl⟩
      exact ⟨(hs _).noted _, left?_within (fun _ => trivial) _ _⟩
  | requesting i r =>
    simp only [stepCall]
    cases w.workers[i]? with
    | none => exact ⟨.refl w, none_left⟩
    | some k =>
      have h (k' : Worker) (ns : List Note) : w.Steady ((w.setWorker i k').notes ns) :=
        (Steady.worker w i k').noted ns
      simp only
      split
      case h_1 | h_2 =>
        refine ⟨h _ _, fun c' hc' => ?_⟩
        cases hc'
        trivial
      case h_3 => exact ⟨(h _ _).noted _, none_left⟩
      case h_4 => exact ⟨h _ _, none_left⟩
  | shutting i s =>
    simp only [stepCall]
    cases w.workers[i]? with
    | none => exact ⟨.refl w, none_left⟩
    | some k =>
      have h := Shutdown.step_onward w.now w.tokens w.store k s
      have hs (store : Store) (k' : Worker) : w.Steady
          (World.setWorker { w with tokens := (s.step w.now w.tokens w.store k).tokens, store := store } i k') :=
        ⟨⟨rfl, h⟩, rfl, rfl, rfl⟩
      exact ⟨(hs _ _).noted _, left?_within (fun _ => trivial) _ _⟩
  | running i r => exact ⟨stepRun_steady w i r, left?_within (fun _ => trivial) _ _⟩
  | executing e =>
    have h := Execution.step_onward w.now w.tokens e
    have hs : w.Steady { w with tokens := (e.step w.now w.tokens).tokens } :=
      ⟨⟨rfl, h⟩, rfl, rfl, rfl⟩
    exact ⟨hs.noted _, left?_within (fun _ => trivial) _ _⟩
  | offer i _ _ | offering i _ _ | take i _ | taking i _ =>
    simp only [stepCall]
    cases w.handoffs[i]? with
    | none => exact ⟨.refl w, none_left⟩
    | some h =>
      exact ⟨⟨⟨rfl, List.Subset.refl _⟩, rfl, rfl, rfl⟩, left?_within (fun _ => trivial) _ _⟩
  | sleeping d =>
    simp only [stepCall]
    split
    · exact ⟨.refl w, none_left⟩
    · refine ⟨.refl w, fun c' hc' => ?_⟩
      cases hc'
      trivial
  | driving | dispatched | loose => exact False.elim hc

inductive Runs (w : World) (d : Nat) (t : Token) : World × Progress Call Outcome → Prop
  | goes {w₁ : World} {p : Progress Call Outcome} {c : Call} {t' : Token}
      (steady : w.Steady w₁) (left : left? p = some c) (owner : c.owner? = some d)
      (token : c.runToken? = some t') (derived : t.marks ⊆ t'.marks) : Runs w d t (w₁, p)
  | ends {w₁ : World} {o : Outcome} (frees : w.Frees d w₁) (back : w₁.free d = w.free d + 1) :
      Runs w d t (w₁, .done o)

theorem Runs.released {w w₁ : World} {t : Token} (h : w.Steady w₁) (d : Nat) (o : Outcome) :
    w.Runs d t (w₁.release d, .done o) := by
  refine .ends (h.setFree d _) ?_
  rw [release, setFree_same, h.free]

theorem dispatched_runs (w : World) (n d i : Nat) (task : Uuid) (r : Run) :
    w.Runs d r.token (w.stepCall n (.dispatched d i task r)) := by
  have hs := stepRun_steady w i r
  have ht : ∀ r', (w.stepRun i r).2 = .running r' ∨ (w.stepRun i r).2 = .waiting r' →
      r.token.marks ⊆ r'.token.marks := by
    unfold stepRun
    cases w.workers[i]? with
    | none => simp
    | some k => exact fun r' => Run.step_token
  simp only [stepCall]
  generalize w.stepRun i r = t at hs ht
  obtain ⟨w₁, r' | r' | res⟩ := t
  · exact .goes hs rfl rfl rfl (ht r' (Or.inl rfl))
  · exact .goes hs rfl rfl rfl (ht r' (Or.inr rfl))
  · exact .released (hs.noted _) d _

theorem loose_runs (w : World) (n d : Nat) (token : Token) (h : Handling) :
    w.Runs d token (w.stepCall n (.loose d token h)) := by
  simp only [stepCall]
  generalize h.step w.now (w.isCancelled token) = t
  obtain ⟨ns, h' | h' | r | _⟩ := t
  · exact .goes (.notes w ns) rfl rfl rfl (List.Subset.refl _)
  · exact .goes (.notes w ns) rfl rfl rfl (List.Subset.refl _)
  · exact .released ((Steady.notes w ns).noted _) d _
  · exact .released (.notes w ns) d _

theorem owned_runs (w : World) (n : Nat) {c : Call} {d : Nat} (hc : c.owner? = some d) :
    ∃ t, c.runToken? = some t ∧ w.Runs d t (w.stepCall n c) := by
  cases c with
  | dispatched owner i task r =>
    cases hc
    exact ⟨_, rfl, dispatched_runs w n d i task r⟩
  | loose owner token h =>
    cases hc
    exact ⟨_, rfl, loose_runs w n d token h⟩
  | _ => cases hc

inductive Manages (w : World) (d : Nat) (r : Runner) :
    World × Progress Runner Outcome → Prop
  | refuses {w₁ : World} (fresh : r.stage = .fresh) (many : Runner.maxPermits < r.capacity)
      (steady : w.Steady w₁) : Manages w d r (w₁, .done .panicked)
  | opens {w₁ : World} (fresh : r.stage = .fresh) (few : r.capacity ≤ Runner.maxPermits)
      (frees : w.Frees d w₁) (full : w₁.free d = r.capacity) :
      Manages w d r (w₁, .running { r with stage := .acquiring })
  | goes {w₁ : World} {s : Runner} {p : Progress Runner Outcome} (loops : r.Loops)
      (next : s.Loops ∨ s.stage = .winding) (follows : r.Follows s) (frees : w.Frees d w₁)
      (balance : w₁.free d + s.held = w.free d + r.held)
      (on : p = .running s ∨ p = .waiting s) : Manages w d r (w₁, p)
  | dispatches {w₁ : World} {s : Runner} {c : Call} {t : Token} (loops : r.Loops)
      (next : s.Loops) (follows : r.Follows s) (holds : r.held = 1) (spends : s.held = 0)
      (steady : w.Steady w₁) (owner : c.owner? = some d) (token : c.runToken? = some t)
      (derived : r.shutdown.marks ⊆ t.marks) :
      Manages w d r ((w₁.begin c).1, .running s)
  | winds {w₁ : World} (winding : r.stage = .winding) (active : w.free d < r.capacity)
      (steady : w.Steady w₁) (cancelled : r.shutdown.mark ∈ w₁.tokens.cancelled) :
      Manages w d r
        (w₁, .running { r with stage := .draining (w.now + r.settings.drain) })
  | waits {t : Nat} (draining : r.stage = .draining t) (short : w.free d < r.drainGoal)
      (early : w.now < t) : Manages w d r (w, .waiting r)
  | ends {w₁ : World} (steady : w.Steady w₁)
      (how : (r.stage = .winding ∧ r.capacity ≤ w.free d) ∨
        ∃ t, r.stage = .draining t ∧ (r.drainGoal ≤ w.free d ∨ t ≤ w.now)) :
      Manages w d r (w₁, .done (.drove r.dispatched))

def asker : Progress (Runner × Asking) (Runner × Except WorkerError Task) → Runner
  | .running (r, _) | .waiting (r, _) | .done (r, _) => r

theorem ask_steady (w : World) (r : Runner) (a : Asking) :
    w.Steady (w.ask r a).1 ∧ r.Follows (asker (w.ask r a).2) := by
  have here : w.Steady w ∧ r.Follows r := ⟨.refl w, rfl, rfl⟩
  cases a with
  | fresh =>
    simp only [ask]
    split
    · exact here
    · exact ⟨.refl w, rfl, rfl⟩
    · exact here
  | worker q =>
    simp only [ask]
    split
    · exact here
    · split
      · exact here
      · have hs (i : Nat) (k : Worker) (ns : List Note) := (Steady.worker w i k).noted ns
        split
        · exact ⟨hs _ _ _, rfl, rfl⟩
        · exact ⟨hs _ _ _, rfl, rfl⟩
        · exact ⟨hs _ _ _, rfl, rfl⟩
        · exact ⟨(hs _ _ _).noted _, rfl, rfl⟩
  | supply x due =>
    simp only [ask]
    split
    · exact here
    · exact here

theorem dropAsking_steady (w : World) (r : Runner) (a : Asking) :
    w.Steady (w.dropAsking r a) := by
  unfold dropAsking
  split
  · split
    · split
      · exact .worker w _ _
      · exact .refl w
    · exact .refl w
  · exact .refl w

theorem dispatch_begins (w : World) (d : Nat) (r : Runner) (task : Task) :
    ∃ (w₁ : World) (c : Call) (t : Token), w.Steady w₁ ∧ w.dispatch d r task = (w₁.begin c).1 ∧
      c.owner? = some d ∧ c.runToken? = some t ∧ r.shutdown.marks ⊆ t.marks := by
  unfold dispatch
  have hs : w.Steady { w with tokens := (w.tokens.child r.shutdown).1 } :=
    ⟨⟨rfl, List.Subset.refl _⟩, rfl, rfl, rfl⟩
  cases r.source with
  | worker i => exact ⟨_, _, _, hs, rfl, rfl, rfl, List.subset_cons_self _ _⟩
  | supplies l => exact ⟨_, _, _, hs, rfl, rfl, rfl, List.subset_cons_self _ _⟩

/-- A request that is dropped, or ends without a task, gives its permit back, unless the
runner pauses with it. -/
theorem asking_manages {w : World} {d : Nat} {r : Runner} {a : Asking}
    (hst : r.stage = .asking a) : w.Manages d r (w.stepRunner d r) := by
  have loops : r.Loops := by simp [Runner.Loops, hst]
  have holds : r.held = 1 := by simp [Runner.held, hst]
  have back {w₁ : World} (hs : w.Steady w₁) {s : Runner} (hf : r.Follows s)
      (next : s.Loops ∨ s.stage = .winding) (hh : s.held = 0) :
      w.Manages d r (w₁.release d, .running s) := by
    refine .goes loops next hf (hs.setFree d _) ?_ (Or.inl rfl)
    rw [release, setFree_same, hs.free, hh, holds]
  have keeps {w₁ : World} (hs : w.Steady w₁) {s : Runner} (hf : r.Follows s) (next : s.Loops)
      (hh : s.held = 1) {p : Progress Runner Outcome} (on : p = .running s ∨ p = .waiting s) :
      w.Manages d r (w₁, p) := by
    refine .goes loops (Or.inl next) hf (hs.frees d) ?_ on
    rw [hs.free, hh, holds]
  simp only [stepRunner, hst]
  split
  · exact back (s := { r with stage := .winding }) (dropAsking_steady w r a) ⟨rfl, rfl⟩
      (Or.inr rfl) rfl
  · obtain ⟨hs, hf⟩ := ask_steady w r a
    generalize w.ask r a = t at hs hf
    obtain ⟨w₁, ⟨r', a'⟩ | ⟨r', a'⟩ | ⟨r', answer⟩⟩ := t
    · exact keeps (s := { r' with stage := .asking a' }) hs ⟨hf.settings, hf.shutdown⟩ trivial
        rfl (Or.inl rfl)
    · exact keeps (s := { r' with stage := .asking a' }) hs ⟨hf.settings, hf.shutdown⟩ trivial
        rfl (Or.inr rfl)
    · simp only
      split
      · next task ht =>
        obtain ⟨w₂, c, t, hs', hd, owner, token, derived⟩ := dispatch_begins w₁ d r' task
        rw [hd]
        refine .dispatches
          (s := { r' with stage := .acquiring, dispatched := r'.dispatched + 1 }) loops trivial
          ⟨hf.settings, hf.shutdown⟩ holds rfl (hs.trans hs') owner token ?_
        rw [← hf.shutdown]
        exact derived
      · exact back (s := { r' with stage := .acquiring }) hs ⟨hf.settings, hf.shutdown⟩
          (Or.inl trivial) rfl
      · exact back (s := { r' with stage := .winding }) (hs.remarked _)
          ⟨hf.settings, hf.shutdown⟩ (Or.inr rfl) rfl
      · exact keeps (s := { r' with stage := .pausing (w₁.now + r'.settings.backoff) })
          (hs.remarked _) ⟨hf.settings, hf.shutdown⟩ trivial rfl (Or.inl rfl)

theorem runner_manages (w : World) (d : Nat) (r : Runner) :
    w.Manages d r (w.stepRunner d r) := by
  cases hst : r.stage with
  | fresh =>
    simp only [stepRunner, hst]
    split
    · next many => exact .refuses hst many ((Steady.refl w).remarked _)
    · next few =>
      refine .opens hst (Nat.not_lt.mp few) (((Steady.refl w).remarked _).setFree _ _) ?_
      exact setFree_same _ _ _
  | acquiring =>
    have loops : r.Loops := by simp [Runner.Loops, hst]
    simp only [stepRunner, hst]
    split
    · exact .goes (s := { r with stage := .winding }) loops (Or.inr rfl) ⟨rfl, rfl⟩
        ((Steady.refl w).frees d) (by simp [Runner.held, hst]) (Or.inl rfl)
    · split
      · next hf =>
        refine .goes (s := { r with stage := .asking .fresh }) loops (Or.inl trivial) ⟨rfl, rfl⟩
          ((Steady.refl w).setFree d _) ?_ (Or.inl rfl)
        simp only [setFree_same, Runner.held, hst]
        omega
      · exact .goes loops (Or.inl loops) ⟨rfl, rfl⟩ ((Steady.refl w).frees d) rfl (Or.inr rfl)
  | asking a => exact asking_manages hst
  | pausing t =>
    have loops : r.Loops := by simp [Runner.Loops, hst]
    simp only [stepRunner, hst]
    split
    · refine .goes (s := { r with stage := .acquiring }) loops (Or.inl trivial) ⟨rfl, rfl⟩
        ((Steady.refl w).setFree d _) ?_ (Or.inl rfl)
      simp [release, Runner.held, hst]
    · exact .goes loops (Or.inl loops) ⟨rfl, rfl⟩ ((Steady.refl w).frees d) rfl (Or.inr rfl)
  | winding =>
    simp only [stepRunner, hst]
    split
    · next active =>
      refine .winds hst (by omega) (((Steady.refl w).remarked _).cancelled _) ?_
      exact List.mem_cons_self
    · next idle =>
      exact .ends ((Steady.refl w).remarked _) (Or.inl ⟨hst, by omega⟩)
  | draining t =>
    simp only [stepRunner, hst]
    split
    · next enough => exact .ends ((Steady.refl w).remarked _) (Or.inr ⟨t, hst, Or.inl enough⟩)
    · split
      · next late =>
        exact .ends (((Steady.refl w).remarked _).remarked _) (Or.inr ⟨t, hst, Or.inr late⟩)
      · exact .waits hst (by omega) (by omega)

theorem conclude_now (w : World) (n : Nat) (p : Progress Call Outcome) :
    (w.conclude n p).now = w.now := by
  cases p <;> rfl

theorem conclude_tokens (w : World) (n : Nat) (p : Progress Call Outcome) :
    (w.conclude n p).tokens = w.tokens := by
  cases p <;> rfl

theorem conclude_free (w : World) (n : Nat) (p : Progress Call Outcome) (d : Nat) :
    (w.conclude n p).free d = w.free d := by
  rw [free, free, conclude_permits]

inductive Occurs (w : World) (h : Happening) (w' : World) : Prop
  | rests (steady : w.Steady w')
  | waits (millis : Nat) (wait : h = .act (.move (.wait millis)))
      (after : w' = { w with now := w.now + millis })
  | enters (c : Call) (opens : c.Opens) (after : w' = (w.begin c).1)
  | aside {n : Nat} {c : Call} (left : Option Call) (call : w.call? n = some c)
      (aside : c.Aside) (stays : ∀ c', left = some c' → c'.Aside) (onward : w.Onward w')
      (calls : w'.calls = Table.put n left w.calls) (next : w'.nextCall = w.nextCall)
      (permits : w'.permits = w.permits)
  | runs {n d : Nat} {c : Call} {t : Token} {w₁ : World} {p : Progress Call Outcome}
      (call : w.call? n = some c) (owner : c.owner? = some d) (token : c.runToken? = some t)
      (step : w.Runs d t (w₁, p)) (after : w' = w₁.conclude n p)
  | drives {n : Nat} {r : Runner} {w₁ : World} {p : Progress Runner Outcome}
      (call : w.call? n = some (.driving r)) (step : w.Manages n r (w₁, p))
      (after : w' = w₁.conclude n (p.within .driving fun o => o))

theorem call_occurs (w : World) (n : Nat) :
    w.Occurs (.act (.move (.step (.call n)))) (w.step (.call n)).1 := by
  cases hc : w.call? n with
  | none =>
    have hc' : Table.get? n w.calls = none := hc
    simp only [step, hc']
    exact .rests (.refl w)
  | some c =>
    rw [step_call hc]
    have aside (ha : c.Aside) : w.Occurs (.act (.move (.step (.call n))))
        ((w.stepCall n c).1.conclude n (w.stepCall n c).2) := by
      obtain ⟨hs, hl⟩ := aside_step w n ha
      refine .aside (left? (w.stepCall n c).2) hc ha hl ⟨?_, ?_⟩ ?_ ?_ ?_
      · rw [conclude_now, hs.now]
      · rw [conclude_tokens]
        exact hs.tokens
      · rw [conclude_calls, hs.calls]
      · rw [conclude_nextCall, hs.next]
      · rw [conclude_permits, hs.permits]
    have runs {d : Nat} (ho : c.owner? = some d) : w.Occurs (.act (.move (.step (.call n))))
        ((w.stepCall n c).1.conclude n (w.stepCall n c).2) := by
      obtain ⟨t, ht, hr⟩ := owned_runs w n ho
      exact .runs hc ho ht hr rfl
    cases c with
    | driving r => exact .drives hc (runner_manages w n r) rfl
    | dispatched | loose => exact runs rfl
    | _ => exact aside trivial

theorem loop_steady (w : World) (i : Nat) : w.Steady (w.stepLoop i).1 := by
  unfold stepLoop
  split
  · exact .refl w
  · next k hk =>
    split
    · next c hc =>
      have hs (store : Store) (ns : List Note) (k : Worker) :
          w.Steady (World.setWorker (World.notes { w with store := store } ns) i k) :=
        have h : w.Steady { w with store := store } := ⟨⟨rfl, List.Subset.refl _⟩, rfl, rfl, rfl⟩
        (h.noted ns).trans (.worker _ i k)
      simp only
      split <;> exact hs _ _ _
    · exact .refl w

theorem drop_occurs (w : World) (h : Happening) (n : Nat) : w.Occurs h (w.dropCall n) := by
  unfold dropCall
  split
  · next i r hc =>
    dsimp only
    split
    · exact .aside none hc trivial (by simp) ⟨rfl, List.Subset.refl _⟩ rfl rfl rfl
    · exact .aside none hc trivial (by simp) ⟨rfl, List.Subset.refl _⟩ rfl rfl rfl
  · next hc => exact .aside none hc trivial (by simp) ⟨rfl, List.Subset.refl _⟩ rfl rfl rfl
  · next hc => exact .aside none hc trivial (by simp) ⟨rfl, List.Subset.refl _⟩ rfl rfl rfl
  · exact .rests (.refl w)

theorem happen_occurs (w : World) (h : Happening) : w.Occurs h (w.happen h) := by
  cases h with
  | enter c opens => exact .enters c opens rfl
  | act a =>
    cases a with
    | drive i settings t => exact .enters (.driving ⟨.worker i, settings, t, 0, .fresh⟩) rfl rfl
    | cancel t => exact .rests ((Steady.refl w).cancelled t)
    | move m =>
      cases m with
      | step a =>
        cases a with
        | call n => exact call_occurs w n
        | loop i => exact .rests (loop_steady w i)
      | wait millis => exact .waits millis rfl rfl
      | create settings handler =>
        simp only [happen, act, move, createWorker]
        cases w.store.createGroup settings.stream settings.group with
        | error e => exact .rests (.refl w)
        | ok store => exact .rests ⟨⟨rfl, List.Subset.refl _⟩, rfl, rfl, rfl⟩
      | publish i task => exact .enters (.publishing i (.fresh task)) trivial rfl
      | request i => exact .enters (.requesting i .fresh) trivial rfl
      | shutdown i => exact .enters (.shutting i .fresh) trivial rfl
      | add stream fields maxLen =>
        exact .enters (.adding (w.store.beginAdd w.now stream fields maxLen)) trivial rfl
      | drop n => exact drop_occurs w _ n
      | spawn i | createGroup q | letGo i =>
        simp only [happen, act, move, letGo]
        split <;> exact .rests ⟨⟨rfl, List.Subset.refl _⟩, rfl, rfl, rfl⟩
      | panic i =>
        simp only [happen, act, move]
        split
        · split <;> exact .rests ⟨⟨rfl, List.Subset.refl _⟩, rfl, rfl, rfl⟩
        · exact .rests ⟨⟨rfl, List.Subset.refl _⟩, rfl, rfl, rfl⟩
      | closeStore | delayAdds | failReads | failAcks | look =>
        exact .rests ⟨⟨rfl, List.Subset.refl _⟩, rfl, rfl, rfl⟩

end World

end TaskRelay
