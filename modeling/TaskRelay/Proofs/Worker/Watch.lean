import TaskRelay.Proofs.World.Goes

/-!
# Runs under a clock

One execution of a task by a worker as somebody with a clock sees it. The run knows its
handler only by what the handler reports when it is polled, so a handler of any behaviour
is a list of reports; the handlers that follow a script report what the script says.
Between the polls time passes, and others issue tokens and cancel any they like, the
caller's and the handler's included.

The clock moves only while the handler is suspended, and passes no deadline of the run.
-/

set_option autoImplicit false

namespace TaskRelay

abbrev Report := List Note × Progress Handling Handled

namespace Execution

def hears (now : Nat) (tokens : Cancellations) (e : Execution) (r : Report) :
    ExecutionStep Execution ExecutionEnd :=
  match e.work.judge now r.2 with
  | .continues w => ⟨tokens, r.1, .running { e with work := w }⟩
  | .waits w => ⟨tokens, r.1, .waiting { e with work := w }⟩
  | .inTime a => ⟨tokens, r.1, .done (endInTime a)⟩
  | .late a => ⟨tokens, r.1, .done (endLate a)⟩
  | .cancels w =>
    ⟨tokens.cancel e.token, r.1 ++ [Limited.timeoutNote e.task e.work.limit],
      .running { e with work := w }⟩
  | .dropped h => ⟨tokens, r.1 ++ Limited.droppedNote e.task :: h.abandon, .done .timedOut⟩

theorem step_hears (now : Nat) (tokens : Cancellations) (e : Execution) :
    e.step now tokens =
      e.hears now tokens (e.work.work.step now (tokens.isCancelled e.token)) :=
  rfl

/-- Of all tokens an execution cancels its own at most. -/
theorem hears_tokens (now : Nat) (tokens : Cancellations) (e : Execution) (r : Report) :
    (e.hears now tokens r).tokens = tokens ∨
      (e.hears now tokens r).tokens = tokens.cancel e.token := by
  unfold hears
  split <;> simp

end Execution

theorem Run.after_tokens (e : Execution) (s : ExecutionStep Execution ExecutionEnd) :
    (Run.after e s).tokens = s.tokens := by
  unfold Run.after
  split <;> rfl

structure Watch where
  now : Nat
  tokens : Cancellations
  progress : Progress Run RunResult
  answered : Option (Nat × Handled)
  ended : Option (Nat × RunResult)
  cuts : List (Nat × Nat)
  others : List Nat

namespace Watch

inductive Move
  | wait (millis : Nat)
  | issue
  | cancel (t : Token)
  | poll
  | hear (r : Report)

def call (now : Nat) (tokens : Cancellations) (handler : Handler) (caller : Token)
    (task : Task) : Watch :=
  let s := (Run.fresh caller task).step now tokens handler
  ⟨now, s.tokens, s.progress, none, none, [], tokens.cancelled⟩

def execution? (o : Watch) : Option Execution :=
  match o.progress with
  | .running (.under e) | .waiting (.under e) => some e
  | _ => none

def fresh (c d : Cancellations) : List Nat :=
  d.cancelled.take (d.cancelled.length - c.cancelled.length)

def answer? (now : Nat) : Progress Handling Handled → Option (Nat × Handled)
  | .done a => some (now, a)
  | _ => none

def result? (now : Nat) : Progress Run RunResult → Option (Nat × RunResult)
  | .done r => some (now, r)
  | _ => none

def after (o : Watch) (r : Report) (s : ExecutionStep Run RunResult) : Watch :=
  { o with
    tokens := s.tokens
    progress := s.progress
    answered := answer? o.now r.2
    ended := result? o.now s.progress
    cuts := o.cuts ++ (fresh o.tokens s.tokens).map (o.now, ·) }

def hear (o : Watch) (r : Report) : Watch :=
  match o.execution? with
  | some e => o.after r (Run.after e (e.hears o.now o.tokens r))
  | none => o

def poll (handler : Handler) (o : Watch) : Watch :=
  match o.execution? with
  | some e =>
    o.after (e.work.work.step o.now (o.tokens.isCancelled e.token))
      ((Run.under e).step o.now o.tokens handler)
  | none => o

def move (handler : Handler) (o : Watch) : Move → Watch
  | .wait n => { o with now := o.now + n }
  | .issue => { o with tokens := { o.tokens with next := o.tokens.next + 1 } }
  | .cancel t => { o with tokens := o.tokens.cancel t, others := t.mark :: o.others }
  | .poll => o.poll handler
  | .hear r => o.hear r

def run (handler : Handler) : List Move → Watch → Watch
  | [], o => o
  | m :: ms, o => run handler ms (o.move handler m)

/-- Whether a virtual clock may move so: nobody is in the middle of a poll, and no
deadline of the run is passed. -/
def TimelyMove (o : Watch) : Move → Prop
  | .wait n =>
    match o.progress with
    | .running _ => n = 0
    | .waiting (.under e) => o.now + n ≤ e.work.stage.deadline
    | _ => True
  | _ => True

instance (o : Watch) (m : Move) : Decidable (o.TimelyMove m) := by
  unfold TimelyMove
  split
  · split <;> infer_instance
  · infer_instance

def Timely (handler : Handler) : List Move → Watch → Prop
  | [], _ => True
  | m :: ms, o => o.TimelyMove m ∧ Timely handler ms (o.move handler m)

instance decidableTimely (handler : Handler) :
    (ms : List Move) → (o : Watch) → Decidable (Timely handler ms o)
  | [], _ => .isTrue trivial
  | m :: ms, o =>
    @instDecidableAnd _ _ inferInstance (decidableTimely handler ms (o.move handler m))

/-- A handler that follows a script is one of those that report anything. -/
theorem poll_hear (handler : Handler) (o : Watch) : ∃ r, o.poll handler = o.hear r := by
  cases he : o.execution? with
  | none => exact ⟨([], .done .panicked), by simp only [poll, hear, he]⟩
  | some e =>
    refine ⟨e.work.work.step o.now (o.tokens.isCancelled e.token), ?_⟩
    simp only [poll, hear, he, Run.step, Execution.step_hears]

/-- The steps of a call of `run` in a world are those of a watched run. -/
theorem stepCall_polls {w : World} {o : Watch} {e : Execution} {i : Nat} {k : Worker}
    (hk : w.workers[i]? = some k) (he : o.execution? = some e) (hn : o.now = w.now)
    (ht : o.tokens = w.tokens) (id : Nat) :
    (w.stepCall id (.running i (.under e))).1.tokens = (o.poll k.handler).tokens ∧
      (w.stepCall id (.running i (.under e))).2 =
        (o.poll k.handler).progress.within (.running i) World.runOutcome := by
  simp only [World.stepCall, World.stepRun, hk, poll, he, after, hn, ht, World.notes_tokens]
  exact ⟨trivial, trivial⟩

def endOf : Handled → RunResult
  | .returned (.ok ()) => some (.ok ())
  | .returned (.error x) => some (.error (.handler x))
  | .panicked => none

def lateEndOf (timeout : Span) : Handled → RunResult
  | .returned _ => some (.error (.timeout timeout))
  | .panicked => none

inductive Course (limit : Limit) (due : Nat) (own : Token) (o : Watch) : Prop
  | allowed (e : Execution) (he : o.execution? = some e) (hw : e.token = own)
      (hl : e.work.limit = limit) (hs : e.work.stage = .allowed due)
      (hn : o.now ≤ due) (hc : o.cuts = []) (ha : o.answered = none) (hf : o.ended = none)
  | winding (e : Execution) (he : o.execution? = some e) (hw : e.token = own)
      (hl : e.work.limit = limit)
      (hs : e.work.stage = .winding (due + limit.grace.timerMillis))
      (hd : due ≤ o.now) (hn : o.now ≤ due + limit.grace.timerMillis)
      (hc : o.cuts = [(due, own.mark)]) (ha : o.answered = none) (hf : o.ended = none)
  | inTime (t : Nat) (h : Handled) (he : o.execution? = none) (ht : t ≤ due)
      (ha : o.answered = some (t, h)) (hf : o.ended = some (t, endOf h)) (hc : o.cuts = [])
  | late (t : Nat) (h : Handled) (he : o.execution? = none) (hd : due ≤ t)
      (ht : t ≤ due + limit.grace.timerMillis) (ha : o.answered = some (t, h))
      (hf : o.ended = some (t, lateEndOf limit.timeout h)) (hc : o.cuts = [(due, own.mark)])
  | abandoned (he : o.execution? = none) (ha : o.answered = none)
      (hf : o.ended =
        some (due + limit.grace.timerMillis, some (.error (.timeout limit.timeout))))
      (hc : o.cuts = [(due, own.mark)])

section
variable {limit : Limit} {due : Nat} {own : Token} {o : Watch}

@[simp] theorem fresh_self (c : Cancellations) : fresh c c = [] := by simp [fresh]

@[simp] theorem fresh_cancel (c : Cancellations) (t : Token) :
    fresh c (c.cancel t) = [t.mark] := by
  simp [fresh, Cancellations.cancel]

theorem after_endInTime (e : Execution) (tokens : Cancellations) (ns : List Note) (h : Handled) :
    (Run.after e ⟨tokens, ns, .done (Execution.endInTime h)⟩).progress = .done (endOf h) ∧
      (Run.after e ⟨tokens, ns, .done (Execution.endInTime h)⟩).tokens = tokens := by
  rcases h with (_ | ⟨⟨⟩⟩) | _ <;> exact ⟨rfl, rfl⟩

theorem after_endLate (e : Execution) (tokens : Cancellations) (ns : List Note) (h : Handled) :
    (Run.after e ⟨tokens, ns, .done (Execution.endLate h)⟩).progress =
        .done (lateEndOf e.work.limit.timeout h) ∧
      (Run.after e ⟨tokens, ns, .done (Execution.endLate h)⟩).tokens = tokens := by
  rcases h with _ | _ <;> exact ⟨rfl, rfl⟩

theorem hear_eq {e : Execution} (he : o.execution? = some e) (r : Report) :
    o.hear r = o.after r (Run.after e (e.hears o.now o.tokens r)) := by
  simp only [hear, he]

theorem hear_ended (he : o.execution? = none) (r : Report) : o.hear r = o := by
  simp only [hear, he]

theorem hear_allowed {e : Execution} (he : o.execution? = some e) (hw : e.token = own)
    (hl : e.work.limit = limit) (hs : e.work.stage = .allowed due) (hn : o.now ≤ due)
    (hc : o.cuts = []) (r : Report) : Course limit due own (o.hear r) := by
  rw [hear_eq he]
  obtain ⟨ns, w | w | h⟩ := r
  · refine .allowed { e with work := { e.work with work := w } } ?_ hw hl hs ?_ ?_ ?_ ?_ <;>
      simp [Execution.hears, Limited.judge, hs, Run.after, after, execution?, answer?,
        result?, hc, hn]
  · by_cases hd : due ≤ o.now
    · have hnow : o.now = due := Nat.le_antisymm hn hd
      refine .winding
        { e with
          work := { e.work with
            work := w, stage := .winding (o.now + e.work.limit.grace.timerMillis) } }
        ?_ hw hl ?_ ?_ ?_ ?_ ?_ ?_ <;>
        simp [Execution.hears, Limited.judge, hs, hl, hw, Run.after, after,
          execution?, answer?, result?, hc, hnow]
    · refine .allowed { e with work := { e.work with work := w } } ?_ hw hl hs ?_ ?_ ?_ ?_ <;>
        simp [Execution.hears, Limited.judge, hs, hd, Run.after, after, execution?,
          answer?, result?, hc, hn]
  · obtain ⟨hp, ht⟩ := after_endInTime e o.tokens ns h
    refine .inTime o.now h ?_ hn ?_ ?_ ?_ <;>
      simp [Execution.hears, Limited.judge, hs, after, execution?, answer?,
        result?, hc, hp, ht]

theorem hear_winding {e : Execution} (he : o.execution? = some e) (hw : e.token = own)
    (hl : e.work.limit = limit)
    (hs : e.work.stage = .winding (due + limit.grace.timerMillis)) (hd : due ≤ o.now)
    (hn : o.now ≤ due + limit.grace.timerMillis) (hc : o.cuts = [(due, own.mark)])
    (r : Report) : Course limit due own (o.hear r) := by
  rw [hear_eq he]
  obtain ⟨ns, w | w | h⟩ := r
  · refine .winding { e with work := { e.work with work := w } } ?_ hw hl hs ?_ ?_ ?_ ?_ ?_ <;>
      simp [Execution.hears, Limited.judge, hs, Run.after, after, execution?, answer?,
        result?, hc, hn, hd]
  · by_cases hx : due + limit.grace.timerMillis ≤ o.now
    · have hnow : o.now = due + limit.grace.timerMillis := Nat.le_antisymm hn hx
      refine .abandoned ?_ ?_ ?_ ?_ <;>
        simp [Execution.hears, Limited.judge, hs, hl, Run.after, after,
          execution?, answer?, result?, hc, hnow]
    · refine .winding { e with work := { e.work with work := w } } ?_ hw hl hs ?_ ?_ ?_ ?_ ?_ <;>
        simp [Execution.hears, Limited.judge, hs, hx, Run.after, after, execution?,
          answer?, result?, hc, hn, hd]
  · obtain ⟨hp, ht⟩ := after_endLate e o.tokens ns h
    refine .late o.now h ?_ hd hn ?_ ?_ ?_ <;>
      simp [Execution.hears, Limited.judge, hs, hl, after, execution?, answer?,
        result?, hc, hp, ht]

theorem Course.hear (h : Course limit due own o) (r : Report) :
    Course limit due own (o.hear r) := by
  cases h with
  | allowed e he hw hl hs hn hc => exact hear_allowed he hw hl hs hn hc r
  | winding e he hw hl hs hd hn hc => exact hear_winding he hw hl hs hd hn hc r
  | inTime t h he ht ha hf hc =>
    rw [hear_ended he]
    exact .inTime t h he ht ha hf hc
  | late t h he hd ht ha hf hc =>
    rw [hear_ended he]
    exact .late t h he hd ht ha hf hc
  | abandoned he ha hf hc =>
    rw [hear_ended he]
    exact .abandoned he ha hf hc

theorem wait_le {e : Execution} (he : o.execution? = some e) {n : Nat}
    (ht : o.TimelyMove (.wait n)) (hn : o.now ≤ e.work.stage.deadline) :
    o.now + n ≤ e.work.stage.deadline := by
  unfold TimelyMove at ht
  unfold execution? at he
  cases hp : o.progress with
  | running r =>
    simp only [hp] at ht
    omega
  | waiting r =>
    cases r with
    | fresh c t => simp [hp] at he
    | under e' =>
      simp only [hp, Option.some.injEq] at he ht
      rw [← he]
      exact ht
  | done r => simp [hp] at he

theorem Course.wait (h : Course limit due own o) {n : Nat} (ht : o.TimelyMove (.wait n)) :
    Course limit due own { o with now := o.now + n } := by
  cases h with
  | allowed e he hw hl hs hn hc ha hf =>
    have hle := wait_le he ht (by simpa only [hs, LimitStage.deadline] using hn)
    simp only [hs, LimitStage.deadline] at hle
    exact .allowed e he hw hl hs hle hc ha hf
  | winding e he hw hl hs hd hn hc ha hf =>
    have hle := wait_le he ht (by simpa only [hs, LimitStage.deadline] using hn)
    simp only [hs, LimitStage.deadline] at hle
    exact .winding e he hw hl hs (Nat.le_trans hd (Nat.le_add_right _ _)) hle hc ha hf
  | inTime t h he ht ha hf hc => exact .inTime t h he ht ha hf hc
  | late t h he hd ht ha hf hc => exact .late t h he hd ht ha hf hc
  | abandoned he ha hf hc => exact .abandoned he ha hf hc

/-- What others do to the tokens does not change the course of a run. -/
theorem Course.amid (h : Course limit due own o) (tokens : Cancellations) (others : List Nat) :
    Course limit due own { o with tokens := tokens, others := others } := by
  cases h with
  | allowed e he hw hl hs hn hc ha hf => exact .allowed e he hw hl hs hn hc ha hf
  | winding e he hw hl hs hd hn hc ha hf => exact .winding e he hw hl hs hd hn hc ha hf
  | inTime t h he ht ha hf hc => exact .inTime t h he ht ha hf hc
  | late t h he hd ht ha hf hc => exact .late t h he hd ht ha hf hc
  | abandoned he ha hf hc => exact .abandoned he ha hf hc

theorem Course.move {handler : Handler} (h : Course limit due own o) {m : Move}
    (ht : o.TimelyMove m) : Course limit due own (o.move handler m) := by
  cases m with
  | wait n => exact h.wait ht
  | issue => exact h.amid _ o.others
  | cancel t => exact h.amid _ _
  | poll =>
    obtain ⟨r, hr⟩ := poll_hear handler o
    show Course limit due own (o.poll handler)
    rw [hr]
    exact h.hear r
  | hear r => exact h.hear r

theorem Course.run {handler : Handler} {ms : List Move} (h : Course limit due own o)
    (ht : Timely handler ms o) : Course limit due own (run handler ms o) := by
  induction ms generalizing o with
  | nil => exact h
  | cons m ms ih => exact ih (h.move ht.1) ht.2

/-- A run hears of a handler that ended, and one that is suspended at a deadline of the run
makes it go on. -/
theorem Course.pressed (h : Course limit due own o) (hf : o.ended = none) {r : Report}
    (hr : ∀ w, r.2 ≠ .running w) :
    (due ≤ o.now → (o.hear r).ended ≠ none ∨ (o.hear r).cuts = [(due, own.mark)]) ∧
      (due + limit.grace.timerMillis ≤ o.now → due < o.now → (o.hear r).ended ≠ none) := by
  obtain ⟨ns, w | w | a⟩ := r
  · exact absurd rfl (hr w)
  · cases h with
    | allowed e he hw hl hs hn hc =>
      rw [hear_eq he]
      refine ⟨fun hd => Or.inr ?_, fun _ hd => absurd hd (Nat.not_lt.mpr hn)⟩
      have hnow : o.now = due := Nat.le_antisymm hn hd
      simp [Execution.hears, Limited.judge, hs, hw, Run.after, after, hc, hnow]
    | winding e he hw hl hs hd hn hc =>
      rw [hear_eq he]
      refine ⟨fun _ => Or.inr ?_, fun hx _ => ?_⟩
      · by_cases hx : due + limit.grace.timerMillis ≤ o.now <;>
          simp [Execution.hears, Limited.judge, hs, hx, Run.after, after, hc]
      · simp [Execution.hears, Limited.judge, hs, hx, Run.after, after, result?]
    | inTime t h he ht ha hf' | late t h he hd ht ha hf' | abandoned he ha hf' =>
      rw [hf] at hf'
      cases hf'
  · have hend : (o.hear ⟨ns, .done a⟩).ended ≠ none := by
      cases h with
      | allowed e he hw hl hs =>
        rw [hear_eq he]
        simp [Execution.hears, Limited.judge, hs, after, (after_endInTime e o.tokens ns a).1,
          result?]
      | winding e he hw hl hs =>
        rw [hear_eq he]
        simp [Execution.hears, Limited.judge, hs, after, (after_endLate e o.tokens ns a).1,
          result?]
      | inTime t h he ht ha hf' | late t h he hd ht ha hf' | abandoned he ha hf' =>
        rw [hf] at hf'
        cases hf'
    exact ⟨fun _ => Or.inl hend, fun _ _ => hend⟩

def byOthers (o : Watch) (t : Token) : Bool :=
  Cancellations.isCancelled ⟨o.tokens.next, o.others⟩ t

def Keeps (own : Token) (o : Watch) : Prop :=
  ∀ m, m ∈ o.tokens.cancelled ↔ m ∈ o.others ∨ (o.cuts ≠ [] ∧ m = own.mark)

theorem Keeps.hear (h : Keeps own o) (hw : ∀ e, o.execution? = some e → e.token = own)
    (r : Report) : Keeps own (o.hear r) := by
  cases he : o.execution? with
  | none =>
    rw [hear_ended he]
    exact h
  | some e =>
    rw [hear_eq he]
    rcases e.hears_tokens o.now o.tokens r with ht | ht
    · intro m
      simpa [after, Run.after_tokens, ht] using h m
    · have hc : (o.after r (Run.after e (e.hears o.now o.tokens r))).cuts =
          o.cuts ++ [(o.now, e.token.mark)] := by
        simp [after, Run.after_tokens, ht]
      intro m
      rw [hc]
      simp only [after, Run.after_tokens, ht, Cancellations.cancel, List.mem_cons, hw e he, h m]
      constructor
      · rintro (rfl | hm | ⟨-, rfl⟩)
        · exact Or.inr ⟨by simp, rfl⟩
        · exact Or.inl hm
        · exact Or.inr ⟨by simp, rfl⟩
      · rintro (hm | ⟨-, rfl⟩)
        · exact Or.inr (Or.inl hm)
        · exact Or.inl rfl

theorem Course.token (h : Course limit due own o) {e : Execution}
    (he : o.execution? = some e) : e.token = own := by
  cases h with
  | allowed e' he' hw | winding e' he' hw =>
    rw [he] at he'
    cases he'
    exact hw
  | inTime _ _ he' | late _ _ he' | abandoned he' =>
    rw [he] at he'
    cases he'

theorem Keeps.move {handler : Handler} (h : Keeps own o) (hc : Course limit due own o)
    (m : Move) : Keeps own (o.move handler m) := by
  cases m with
  | wait n => exact h
  | issue => exact h
  | cancel t =>
    intro m
    have hm := h m
    show m ∈ t.mark :: o.tokens.cancelled ↔ m ∈ t.mark :: o.others ∨ _
    rw [List.mem_cons, List.mem_cons, hm, or_assoc]
    exact Iff.rfl
  | poll =>
    obtain ⟨r, hr⟩ := poll_hear handler o
    show Keeps own (o.poll handler)
    rw [hr]
    exact h.hear (fun _ => hc.token) r
  | hear r => exact h.hear (fun _ => hc.token) r

theorem Keeps.run {handler : Handler} {ms : List Move} (h : Keeps own o)
    (hc : Course limit due own o) (ht : Timely handler ms o) :
    Keeps own (run handler ms o) := by
  induction ms generalizing o with
  | nil => exact h
  | cons m ms ih => exact ih (h.move hc m) (hc.move ht.1) ht.2

/-- A token that is not derived from the handler's is cancelled only by others. -/
theorem Keeps.foreign (h : Keeps own o) {t : Token} (ht : own.mark ∉ t.mark :: t.ancestors) :
    o.tokens.isCancelled t = o.byOthers t := by
  rw [Bool.eq_iff_iff]
  simp only [byOthers, Cancellations.isCancelled, List.any_eq_true, List.contains_iff_mem, h _]
  constructor
  · rintro ⟨m, hm, hc | ⟨-, rfl⟩⟩
    · exact ⟨m, hm, hc⟩
    · exact absurd hm ht
  · rintro ⟨m, hm, hc⟩
    exact ⟨m, hm, Or.inl hc⟩

theorem Keeps.itself (h : Keeps own o) :
    o.tokens.isCancelled own = (o.byOthers own || !o.cuts.isEmpty) := by
  rw [Bool.eq_iff_iff]
  simp only [byOthers, Cancellations.isCancelled, List.any_eq_true, List.contains_iff_mem, h _,
    Bool.or_eq_true, Bool.not_eq_true', List.isEmpty_eq_false_iff]
  constructor
  · rintro ⟨m, hm, hc | ⟨hc, rfl⟩⟩
    · exact Or.inl ⟨m, hm, hc⟩
    · exact Or.inr hc
  · rintro (⟨m, hm, hc⟩ | hc)
    · exact ⟨m, hm, Or.inl hc⟩
    · exact ⟨own.mark, List.mem_cons_self, Or.inr ⟨hc, rfl⟩⟩

end

def allowance : Option UInt64 → Nat
  | none => 3600
  | some n => min (max n.toNat 1) 86400

theorem ofTask_nanos (seconds : Option UInt64) :
    (Limit.ofTask seconds).timeout.nanos = allowance seconds * nanosPerSecond := by
  cases seconds with
  | none => decide
  | some n =>
    have hmin : Limit.minTimeout.nanos = 1 * nanosPerSecond := by decide
    have hmax : Limit.maxTimeout.nanos = 86400 * nanosPerSecond := by decide
    simp only [Limit.ofTask, Limit.ofTimeout, Span.clamp, Span.min, Span.max, allowance,
      nanosPerSecond] at *
    split <;> split <;> simp_all [Span.ofSeconds, nanosPerSecond] <;> omega

theorem ofTask_millis (seconds : Option UInt64) :
    (Limit.ofTask seconds).timeout.timerMillis = 1000 * allowance seconds := by
  simp only [Span.timerMillis, ofTask_nanos, nanosPerSecond, nanosPerMilli]
  omega

theorem ofTask_grace (seconds : Option UInt64) :
    (Limit.ofTask seconds).grace.timerMillis = 30000 := by
  have h : Limit.gracePeriod.timerMillis = 30000 := by decide
  cases seconds <;> exact h

/-- What a run with a limit at `due` and the end of its grace period at `over` owes to its
caller, when `own` is the token of its handler. -/
structure OnTime (due last : Nat) (timeout : Span) (own : Token) (o : Watch) : Prop where
  early : ∀ t h, o.answered = some (t, h) → t < due →
    o.ended = some (t, endOf h) ∧ o.cuts = []
  atLimit : ∀ h, o.answered = some (due, h) →
    (o.ended = some (due, endOf h) ∧ o.cuts = []) ∨
      (o.ended = some (due, lateEndOf timeout h) ∧ o.cuts = [(due, own.mark)])
  late : ∀ t h, o.answered = some (t, h) → due < t →
    t ≤ last ∧ o.ended = some (t, lateEndOf timeout h) ∧ o.cuts = [(due, own.mark)]
  abandoned : o.answered = none → ∀ t r, o.ended = some (t, r) →
    t = last ∧ r = some (.error (.timeout timeout)) ∧ o.cuts = [(due, own.mark)]
  underWay : o.ended = none → o.answered = none ∧
    ((o.now ≤ due ∧ o.cuts = []) ∨ (due ≤ o.now ∧ o.now ≤ last ∧ o.cuts = [(due, own.mark)]))
  pressed : o.ended = none → ∀ r : Report, (∀ w, r.2 ≠ .running w) →
    (due ≤ o.now → (o.hear r).ended ≠ none ∨ (o.hear r).cuts = [(due, own.mark)]) ∧
      (last ≤ o.now → (o.hear r).ended ≠ none)
  ownToken : o.tokens.isCancelled own = (o.byOthers own || !o.cuts.isEmpty)
  otherTokens : ∀ t : Token, own.mark ∉ t.mark :: t.ancestors →
    o.tokens.isCancelled t = o.byOthers t

section
variable {limit : Limit} {due : Nat} {own : Token} {o : Watch}

theorem Course.of_answered (h : Course limit due own o) {t : Nat} {x : Handled}
    (ha : o.answered = some (t, x)) :
    (t ≤ due ∧ o.ended = some (t, endOf x) ∧ o.cuts = []) ∨
      (due ≤ t ∧ t ≤ due + limit.grace.timerMillis ∧
        o.ended = some (t, lateEndOf limit.timeout x) ∧ o.cuts = [(due, own.mark)]) := by
  cases h with
  | allowed _ _ _ _ _ _ _ ha' | winding _ _ _ _ _ _ _ _ ha' | abandoned _ ha' =>
    rw [ha] at ha'
    cases ha'
  | inTime _ _ _ ht ha' hf hc =>
    rw [ha] at ha'
    cases ha'
    exact Or.inl ⟨ht, hf, hc⟩
  | late _ _ _ hd ht ha' hf hc =>
    rw [ha] at ha'
    cases ha'
    exact Or.inr ⟨hd, ht, hf, hc⟩

theorem Course.of_unanswered (h : Course limit due own o) (ha : o.answered = none) {t : Nat}
    {r : RunResult} (hr : o.ended = some (t, r)) :
    t = due + limit.grace.timerMillis ∧ r = some (.error (.timeout limit.timeout)) ∧
      o.cuts = [(due, own.mark)] := by
  cases h with
  | allowed _ _ _ _ _ _ _ _ hf | winding _ _ _ _ _ _ _ _ _ hf =>
    rw [hr] at hf
    cases hf
  | inTime _ _ _ _ ha' | late _ _ _ _ _ ha' =>
    rw [ha] at ha'
    cases ha'
  | abandoned _ _ hf hc =>
    rw [hr] at hf
    cases hf
    exact ⟨rfl, rfl, hc⟩

theorem Course.of_underWay (h : Course limit due own o) (hf : o.ended = none) :
    o.answered = none ∧ ((o.now ≤ due ∧ o.cuts = []) ∨
      (due ≤ o.now ∧ o.now ≤ due + limit.grace.timerMillis ∧ o.cuts = [(due, own.mark)])) := by
  cases h with
  | allowed _ _ _ _ _ hn hc ha => exact ⟨ha, Or.inl ⟨hn, hc⟩⟩
  | winding _ _ _ _ _ hd hn hc ha => exact ⟨ha, Or.inr ⟨hd, hn, hc⟩⟩
  | inTime _ _ _ _ _ hf' | late _ _ _ _ _ _ hf' | abandoned _ _ hf' =>
    rw [hf] at hf'
    cases hf'

theorem Course.onTime (h : Course limit due own o) (hk : Keeps own o)
    (hg : 0 < limit.grace.timerMillis) :
    OnTime due (due + limit.grace.timerMillis) limit.timeout own o where
  early t x ha ht := by
    rcases h.of_answered ha with ⟨-, hf, hc⟩ | ⟨hd, -⟩
    · exact ⟨hf, hc⟩
    · omega
  atLimit x ha := by
    rcases h.of_answered ha with ⟨-, hend⟩ | ⟨-, -, hend⟩
    · exact Or.inl hend
    · exact Or.inr hend
  late t x ha ht := by
    rcases h.of_answered ha with ⟨hd, -⟩ | ⟨-, hend⟩
    · omega
    · exact hend
  abandoned ha _ _ hr := h.of_unanswered ha hr
  underWay := h.of_underWay
  pressed hf r hr := by
    obtain ⟨hd, ho⟩ := h.pressed hf hr
    exact ⟨hd, fun hx => ho hx (by omega)⟩
  ownToken := hk.itself
  otherTokens _ := hk.foreign

end

theorem call_course (now : Nat) (tokens : Cancellations) (handler : Handler) (caller : Token)
    (task : Task) :
    Course (.ofTask task.timeoutSeconds) (now + 1000 * allowance task.timeoutSeconds)
      (tokens.child caller).2 (call now tokens handler caller task) := by
  refine .allowed (.start (.ofTask task.timeoutSeconds) now (tokens.child caller).2 handler task)
    rfl rfl rfl ?_ (Nat.le_add_right _ _) rfl rfl rfl
  rw [← ofTask_millis]
  rfl

theorem call_keeps (now : Nat) (tokens : Cancellations) (handler : Handler) (caller : Token)
    (task : Task) :
    Keeps (tokens.child caller).2 (call now tokens handler caller task) := by
  intro m
  simp [call, Run.step, Cancellations.child]

/-- However the handler behaves and whenever others cancel tokens, a run keeps to the limit
of its task: a handler that ends before it decides how the run ends, and its token is left
alone; otherwise the token is cancelled right at the limit and the run ends with the
handler, or when the grace period does, as timed out. The caller's token and those derived
from it for other runs are as others left them. -/
theorem run_on_time (now : Nat) (tokens : Cancellations) (handler : Handler) (caller : Token)
    (task : Task) (ms : List Move) (hc : ∀ m ∈ caller.mark :: caller.ancestors, m < tokens.next)
    (ht : Timely handler ms (call now tokens handler caller task)) :
    ∃ (timeout : Span) (own : Token),
      timeout.nanos = allowance task.timeoutSeconds * nanosPerSecond ∧
      own = (tokens.child caller).2 ∧
      let o := run handler ms (call now tokens handler caller task)
      let due := now + 1000 * allowance task.timeoutSeconds
      OnTime due (due + 30000) timeout own o ∧
      o.tokens.isCancelled caller = o.byOthers caller ∧
      ∀ m ≠ own.mark, o.tokens.isCancelled ⟨m, caller.mark :: caller.ancestors⟩ =
        o.byOthers ⟨m, caller.mark :: caller.ancestors⟩ := by
  have hcourse := call_course now tokens handler caller task
  have hkeeps := (call_keeps now tokens handler caller task).run hcourse ht
  have hgrace := ofTask_grace task.timeoutSeconds
  have htime := (hcourse.run ht).onTime hkeeps (by omega)
  rw [hgrace] at htime
  have hown : (tokens.child caller).2.mark ∉ caller.mark :: caller.ancestors :=
    fun hm => Nat.lt_irrefl _ (hc _ hm)
  refine ⟨_, _, ofTask_nanos _, rfl, htime, htime.otherTokens _ hown, fun m hm => ?_⟩
  refine htime.otherTokens _ fun h => ?_
  rcases List.mem_cons.mp h with h | h
  · exact hm h.symm
  · exact hown h

def ignoring : List Move :=
  let still : Report := ([], .waiting (.start .plain .empty))
  [.hear still, .wait 500, .cancel ⟨0, []⟩, .hear still, .wait 500, .hear still, .hear still,
    .wait 30000, .hear still]

theorem ignoring_on_time :
    let task : Task := { Task.empty with timeoutSeconds := some 0 }
    let o := run .plain ignoring (call 7 ⟨1, []⟩ .plain ⟨0, []⟩ task)
    Timely .plain ignoring (call 7 ⟨1, []⟩ .plain ⟨0, []⟩ task) ∧
      o.cuts = [(1007, 1)] ∧ (o.ended.map Prod.fst = some 31007) ∧
      ∃ (timeout : Span) (own : Token),
        timeout.nanos = allowance task.timeoutSeconds * nanosPerSecond ∧
        own = (Cancellations.child ⟨1, []⟩ ⟨0, []⟩).2 ∧
        OnTime 1007 31007 timeout own o ∧
        o.tokens.isCancelled ⟨0, []⟩ = o.byOthers ⟨0, []⟩ ∧
        ∀ m ≠ own.mark, o.tokens.isCancelled ⟨m, [0]⟩ = o.byOthers ⟨m, [0]⟩ := by
  intro task o
  have ht : Timely .plain ignoring (call 7 ⟨1, []⟩ .plain ⟨0, []⟩ task) := by decide +kernel
  have hone : allowance task.timeoutSeconds = 1 := by decide
  have h := run_on_time 7 ⟨1, []⟩ .plain ⟨0, []⟩ task ignoring (by decide) ht
  simp only [hone] at h ⊢
  exact ⟨ht, by decide +kernel, by decide +kernel, h⟩

end Watch

end TaskRelay
