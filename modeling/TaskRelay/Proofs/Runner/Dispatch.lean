import TaskRelay.Proofs.Runner.Turns

/-!
# A runner dispatches every task once

What is told of a runner is kept as a log of it: what its requests returned, which calls it
dispatched, and what these handed to the handler. An act adds to the log only if the runner
takes an entry or one of its calls begins. So the log stays in order at any moment, whatever
is cancelled, and no entry that left the slot of the worker for the runner is lost or
dispatched twice.
-/

set_option autoImplicit false

namespace TaskRelay.World

inductive Fate (w : World) (d i : Nat) (handler : Handler) (b : List Doing)
    (p : Nat × Task) : Prop
  | waits {token : Token}
      (call : w.call? p.1 = some (.dispatched d i p.2.id (.fresh token p.2)))
      (begun : Book.begun p.1 b = []) : Fate w d i handler b p
  | began (call : (w.call? p.1).bind (Call.ordered? d) = none)
      (begun : Book.begun p.1 b = [.start handler p.2]) : Fate w d i handler b p

structure Log (w : World) (d i : Nat) (settings : RunnerSettings) (handler : Handler)
    (b : List Doing) : Prop where
  born : d < w.nextCall
  own : ∀ c, w.call? d = some c → ∃ r, c = .driving r ∧ r.Mans i ∧ r.settings = settings ∧
    r.dispatched = (Book.dispatched b).length
  ended : ∀ e ∈ w.ended, e.call = d → w.call? d = none ∧
    (e.outcome = .drove (Book.dispatched b).length ∨
      e.outcome = .panicked ∧ Runner.maxPermits < max settings.maxTasks 1)
  tasks : (Book.dispatched b).map Prod.snd = (Book.returned b).map Entry.task
  numbers : ((Book.dispatched b).map Prod.fst).Pairwise (· < ·)
  known : ∀ n ∈ (Book.dispatched b).map Prod.fst, n < w.nextCall
  fates : ∀ p ∈ Book.dispatched b, w.Fate d i handler b p
  orders : ∀ n t, (w.call? n).bind (Call.ordered? d) = some t →
    n ∈ (Book.dispatched b).map Prod.fst
  begun : ∀ n, n ∉ (Book.dispatched b).map Prod.fst → Book.begun n b = []

section
variable {w w' : World} {d i : Nat} {settings : RunnerSettings} {handler : Handler}
  {b bs : List Doing}

theorem Fate.unmoved {p : Nat × Task} (hf : w.Fate d i handler b p) (hn : w.Unmoved d p.1 w')
    (hb : Book.begun p.1 bs = []) : w'.Fate d i handler (b ++ bs) p := by
  have hbegun : Book.begun p.1 (b ++ bs) = Book.begun p.1 b := by
    rw [Book.begun_append, hb, List.append_nil]
  cases hf with
  | waits call begun =>
    rcases hn with hn | ⟨hn, -⟩
    · exact .waits (hn.trans call) (hbegun.trans begun)
    · rw [call] at hn
      exact absurd ((if_pos rfl).symm.trans hn) (by simp)
  | began call begun =>
    refine .began ?_ (hbegun.trans begun)
    rcases hn with hn | ⟨-, hn⟩
    · rw [hn]
      exact call
    · exact hn

theorem Unmoved.ordered {n : Nat} (hn : w.Unmoved d n w') {t : Task}
    (ht : (w'.call? n).bind (Call.ordered? d) = some t) :
    (w.call? n).bind (Call.ordered? d) = some t := by
  rcases hn with hn | ⟨-, hn⟩
  · rwa [← hn]
  · rw [hn] at ht
    cases ht

namespace Log

theorem manned (hl : w.Log d i settings handler b) :
    ∀ c, w.call? d = some c → ∃ r, c = .driving r ∧ r.Mans i := by
  intro c hc
  obtain ⟨r, hr, hm, -⟩ := hl.own c hc
  exact ⟨r, hr, hm⟩

/-- The runner takes an entry and dispatches its task. -/
theorem takes (hl : w.Log d i settings handler b) {r r' : Runner} {e : Entry} {token : Token}
    (next : w'.nextCall = w.nextCall + 1) (call : w.call? d = some (.driving r))
    (call' : w'.call? d = some (.driving r')) (mans : r'.Mans i) (same : r'.settings = r.settings)
    (count : r'.dispatched = r.dispatched + 1) (ended : w'.ended = w.ended)
    (new : w'.call? w.nextCall = some (.dispatched d i e.task.id (.fresh token e.task)))
    (orders : ∀ n, n ≠ w.nextCall → w.Unmoved d n w') :
    w'.Log d i settings handler (b ++ [.returned e, .dispatched w.nextCall e.task]) := by
  have hd : Book.dispatched (b ++ [.returned e, .dispatched w.nextCall e.task]) =
      Book.dispatched b ++ [(w.nextCall, e.task)] := Book.dispatched_append b _
  have hb (n : Nat) : Book.begun n [.returned e, .dispatched w.nextCall e.task] = [] := rfl
  have fresh : w.nextCall ∉ (Book.dispatched b).map Prod.fst :=
    fun h => Nat.lt_irrefl _ (hl.known _ h)
  obtain ⟨r₀, hr, -, hs, hc⟩ := hl.own _ call
  obtain rfl := Call.driving.inj hr
  refine ⟨?born, ?own, ?ended, ?tasks, ?numbers, ?known, ?fates, ?orders, ?begun⟩
  case born =>
    have := hl.born
    omega
  case own =>
    intro c hc'
    refine ⟨r', Option.some.inj (hc'.symm.trans call'), mans, same.trans hs, ?_⟩
    rw [hd, List.length_append, count, hc]
    rfl
  case ended =>
    intro x hx hcall
    rw [ended] at hx
    have hn := (hl.ended x hx hcall).1
    rw [call] at hn
    cases hn
  case tasks =>
    rw [hd, Book.returned_append, List.map_append, List.map_append, hl.tasks]
    rfl
  case numbers =>
    rw [hd, List.map_append, List.pairwise_append]
    refine ⟨hl.numbers, List.pairwise_singleton _ _, fun n hn m hm => ?_⟩
    rw [List.mem_singleton.mp hm]
    exact hl.known n hn
  case known =>
    intro n hn
    rw [hd, List.map_append, List.mem_append] at hn
    rw [next]
    rcases hn with hn | hn
    · exact Nat.lt_succ_of_lt (hl.known n hn)
    · rw [List.mem_singleton.mp hn]
      exact Nat.lt_succ_self _
  case fates =>
    intro p hp
    rw [hd, List.mem_append] at hp
    rcases hp with hp | hp
    · have hn : p.1 ≠ w.nextCall := Nat.ne_of_lt (hl.known _ (List.mem_map_of_mem hp))
      exact (hl.fates p hp).unmoved (orders _ hn) (hb _)
    · obtain rfl := List.mem_singleton.mp hp
      refine .waits new ?_
      rw [Book.begun_append, hl.begun _ fresh, hb, List.append_nil]
  case orders =>
    intro n t ht
    rw [hd, List.map_append, List.mem_append]
    by_cases hn : n = w.nextCall
    · exact Or.inr (List.mem_singleton.mpr hn)
    · exact Or.inl (hl.orders n t ((orders n hn).ordered ht))
  case begun =>
    intro n hn
    rw [hd, List.map_append, List.mem_append, not_or] at hn
    rw [Book.begun_append, hl.begun n hn.1, hb, List.append_nil]

/-- A call that the runner dispatched hands its task to the handler of the worker. -/
theorem begins (hl : w.Log d i settings handler b) {k : Worker} (hk : w.workers[i]? = some k)
    (hh : k.handler = handler) {n j : Nat} {task : Uuid} {token : Token} {t : Task}
    (call : w.call? n = some (.dispatched d j task (.fresh token t)))
    (left : (w'.call? n).bind (Call.ordered? d) = none) (others : w.Alters n w') :
    w'.Log d i settings handler
      (b ++ (w.workers[j]?.map fun k => .begun n (.start k.handler t)).toList) := by
  have ordered : (w.call? n).bind (Call.ordered? d) = some t := by
    rw [call]
    exact if_pos rfl
  have hn := hl.orders n t ordered
  have waits {p : Nat × Task} (hp : p ∈ Book.dispatched b) (hpn : p.1 = n) :
      i = j ∧ p.2 = t ∧ Book.begun n b = [] := by
    subst hpn
    cases hl.fates p hp with
    | waits hc hb =>
      obtain ⟨-, hi, -, hr⟩ := Call.dispatched.inj (Option.some.inj (hc.symm.trans call))
      exact ⟨hi, (Run.fresh.inj hr).2, hb⟩
    | began hc hb =>
      rw [ordered] at hc
      cases hc
  obtain ⟨p, hp, hpn⟩ := List.mem_map.mp hn
  obtain ⟨rfl, hpt, hnone⟩ := waits hp hpn
  have hnd : n ≠ d := by
    rintro rfl
    obtain ⟨r, hr, -⟩ := hl.own _ call
    cases hr
  have hb (m : Nat) : Book.begun m [.begun n (.start handler t)] =
      if n = m then [.start handler t] else [] := by
    by_cases hm : n = m <;> simp [Book.begun, hm]
  rw [hk, Option.map_some, hh]
  have hdis : Book.dispatched (b ++ (some (.begun n (.start handler t))).toList) =
      Book.dispatched b := (Book.dispatched_append b _).trans (List.append_nil _)
  have hret : Book.returned (b ++ (some (.begun n (.start handler t))).toList) =
      Book.returned b := (Book.returned_append b _).trans (List.append_nil _)
  refine ⟨?born, ?own, ?ended, ?tasks, ?numbers, ?known, ?fates, ?orders, ?begun⟩
  case born =>
    rw [others.next]
    exact hl.born
  case own =>
    rw [others.calls d hnd.symm, hdis]
    exact hl.own
  case ended =>
    intro e he hcall
    rw [others.calls d hnd.symm, hdis]
    refine hl.ended e ((others.ended e he).resolve_right ?_) hcall
    rw [hcall]
    exact hnd.symm
  case tasks =>
    rw [hdis, hret]
    exact hl.tasks
  case numbers =>
    rw [hdis]
    exact hl.numbers
  case known =>
    rw [hdis, others.next]
    exact hl.known
  case fates =>
    intro x hx
    rw [hdis] at hx
    by_cases hxn : x.1 = n
    · obtain ⟨-, rfl, -⟩ := waits hx hxn
      subst hxn
      refine .began left ?_
      rw [Book.begun_append, hnone]
      exact (hb _).trans (if_pos rfl)
    · refine (hl.fates x hx).unmoved (Or.inl (others.calls _ hxn)) ?_
      exact (hb _).trans (if_neg (Ne.symm hxn))
  case orders =>
    intro m s hs
    rw [hdis]
    by_cases hm : m = n
    · exact hm ▸ hn
    · rw [others.calls m hm] at hs
      exact hl.orders m s hs
  case begun =>
    intro m hm
    rw [hdis] at hm
    rw [Book.begun_append, hl.begun m hm]
    exact (hb m).trans (if_neg fun h : n = m => hm (h ▸ hn))

theorem turn (hl : w.Log d i settings handler b) {k : Worker} (hk : w.workers[i]? = some k)
    (hh : k.handler = handler) {a : Act} (ht : w.Turn d i a w') :
    w'.Log d i settings handler (b ++ w.actDoings d a) := by
  cases ht with
  | rests untold next own ended orders =>
    rw [untold, List.append_nil]
    refine ⟨Nat.lt_of_lt_of_le hl.born next, ?own, ?ended, hl.tasks, hl.numbers,
      fun n hn => Nat.lt_of_lt_of_le (hl.known n hn) next, ?fates, ?orders, hl.begun⟩
    case own =>
      intro c' hc'
      obtain ⟨r, r', hr, rfl, hm, hsame, hcount⟩ := own c' hc'
      obtain ⟨r₀, hr₀, -, hs, hc⟩ := hl.own _ hr
      obtain rfl := Call.driving.inj hr₀
      exact ⟨r', rfl, hm, hsame.trans hs, hcount.trans hc⟩
    case ended =>
      intro e he hcall
      rcases ended e he hcall with he | ⟨hnone, r, hr, ho⟩
      · obtain ⟨hn, ho⟩ := hl.ended e he hcall
        refine ⟨?_, ho⟩
        cases hc : w'.call? d with
        | none => rfl
        | some c' =>
          obtain ⟨r, r', hr, -⟩ := own c' hc
          rw [hn] at hr
          cases hr
      · obtain ⟨r₀, hr₀, -, rfl, hc⟩ := hl.own _ hr
        obtain rfl := Call.driving.inj hr₀
        exact ⟨hnone, hc ▸ ho⟩
    case fates =>
      intro p hp
      have hf : w'.Fate d i handler (b ++ []) p := (hl.fates p hp).unmoved (orders p.1) rfl
      rwa [List.append_nil] at hf
    case orders =>
      intro n t hn
      exact hl.orders n t ((orders n).ordered hn)
  | takes told next call call' mans same count ended new orders =>
    rw [told]
    exact hl.takes next call call' mans same count ended new orders
  | begins call told left others =>
    rw [told]
    exact hl.begins hk hh call left others

end Log

end

/-- Of a worker that nobody requests from nothing is returned. -/
theorem play_untaken {i : Nat} (q : Queue) {as : List Act} (ha : ∀ a ∈ as, a.Leaves i)
    {w : World} (hw : w.Staffed) (ho : w.Asked i none) :
    Ledger.taken (Ledger.of i (annals q as w)) = [] := by
  induction as generalizing w with
  | nil => rfl
  | cons a as ih =>
    rw [List.forall_mem_cons] at ha
    have hn : Ledger.taken (Ledger.of i (w.actDeeds q a)) = [] := by
      refine taken_nothing fun e he => ?_
      obtain ⟨n, c, -, hc, hi⟩ := returned_asked he
      cases ho n c hc hi
    rw [annals, Ledger.of_append, Ledger.taken_append, hn,
      ih ha.2 (act_staffed hw a) (ho.act hw ha.1)]
    rfl

structure Kept (w : World) (d i : Nat) (settings : RunnerSettings) (k : Worker)
    (b : List Doing) : Prop where
  staffed : w.Staffed
  asked : w.Asked i (some d)
  worker : ∃ k', w.workers[i]? = some k' ∧ k'.settings = k.settings ∧ k'.handler = k.handler
  log : w.Log d i settings k.handler b

section
variable {w : World} {d i : Nat} {settings : RunnerSettings} {k : Worker} {b : List Doing}
  (h : w.Kept d i settings k b)
include h

theorem Kept.act {a : Act} (ha : a.Leaves i) :
    (w.act a).Kept d i settings k (b ++ w.actDoings d a) := by
  obtain ⟨k', hk', hs, hh⟩ := h.worker
  obtain ⟨k₁, hk₁, hl⟩ := (act_passes h.staffed a).keeps i k' hk'
  exact ⟨act_staffed h.staffed a, h.asked.act h.staffed ha,
    ⟨k₁, hk₁, hl.settings.trans hs, hl.handler.trans hh⟩,
    h.log.turn hk' hh (act_turn h.staffed h.log.manned h.log.born a)⟩

theorem Kept.told (a : Act) : Ledger.taken (Ledger.of i (w.actDeeds k.queue a)) =
    Book.returned (w.actDoings d a) := by
  obtain ⟨k', hk', hs, -⟩ := h.worker
  have hq : w.serves k.queue i = true := by
    simp only [serves, hk', Option.map_some, beq_iff_eq]
    exact congrArg (some ∘ StreamSettings.queue) hs
  exact World.told h.staffed h.asked hq h.log.manned a

theorem Kept.play {as : List Act} (ha : ∀ a ∈ as, a.Leaves i) :
    (play as w).Kept d i settings k (b ++ doings d as w) ∧
      Ledger.taken (Ledger.of i (annals k.queue as w)) = Book.returned (doings d as w) := by
  induction as generalizing w b with
  | nil => exact ⟨by simpa [doings, World.play] using h, rfl⟩
  | cons a as ih =>
    rw [List.forall_mem_cons] at ha
    obtain ⟨hk, ht⟩ := ih (h.act ha.1) ha.2
    refine ⟨?_, ?_⟩
    · rw [doings, ← List.append_assoc]
      exact hk
    · rw [annals, doings, Ledger.of_append, Ledger.taken_append, Book.returned_append, ht,
        h.told]

/-- What leaves the slot of the worker is returned to the runner, or taken back by the loop. -/
theorem Kept.slot (a : Act) {k₁ : Worker} (hk₁ : w.workers[i]? = some k₁) {e : Entry}
    (he : k₁.handoff.slot = some e) : ∃ k₂, (w.act a).workers[i]? = some k₂ ∧
      (k₂.handoff.slot = some e ∨ e ∈ Book.returned (w.actDoings d a) ∨
        ∃ rest, k₂.consumer.stage = .requeueing (e :: rest)) := by
  obtain ⟨k₂, hk₂, hl⟩ := (act_passes h.staffed a).keeps i k₁ hk₁
  refine ⟨k₂, hk₂, (hl.slot e he).imp_right (Or.imp_left fun hr => ?_)⟩
  obtain ⟨k', hk', hs, -⟩ := h.worker
  obtain rfl : k₁ = k' := Option.some.inj (hk₁.symm.trans hk')
  have hq : k₁.queue = k.queue := congrArg StreamSettings.queue hs
  rw [← h.told a, ← hq]
  exact (Ledger.taken_of i _).mpr hr

end

/-- A runner that begins has an empty log. -/
theorem drive_kept {w : World} (hw : w.Staffed) {i : Nat} (ho : w.Asked i none) {k : Worker}
    (hk : w.workers[i]? = some k) (settings : RunnerSettings) (t : Token) :
    (w.act (.drive i settings t)).Kept w.nextCall i settings k [] := by
  have same : (w.act (.drive i settings t)).call? w.nextCall =
      some (.driving ⟨.worker i, settings, t, 0, .fresh⟩) := begin_same w _
  have other {n : Nat} (hn : n ≠ w.nextCall) :
      (w.act (.drive i settings t)).call? n = w.call? n := begin_other w _ hn
  refine ⟨act_staffed hw _, ?asked, ⟨k, hk, rfl, rfl⟩, Nat.lt_succ_self _, ?own, ?ended, rfl,
    List.Pairwise.nil, by simp [Book.dispatched], by simp [Book.dispatched], ?orders,
    fun _ _ => rfl⟩
  case asked =>
    intro n c hc hi
    by_cases hn : n = w.nextCall
    · rw [hn]
    · rw [other hn] at hc
      cases ho n c hc hi
  case own =>
    intro c hc
    exact ⟨_, Option.some.inj (hc.symm.trans same), ⟨rfl, by simp⟩, rfl, rfl⟩
  case ended =>
    intro e he hcall
    have hlt : e.call < w.nextCall := hw.past e he
    omega
  case orders =>
    intro n s hs
    by_cases hn : n = w.nextCall
    · subst hn
      rw [same] at hs
      cases hs
    · rw [other hn] at hs
      obtain ⟨c, hc, hcs⟩ := Option.bind_eq_some_iff.mp hs
      have hlt := (hw.calls n c hc).2
      have hgt := hw.younger n c w.nextCall hc (by simp [hcs])
      omega

end TaskRelay.World

namespace TaskRelay
open World

/-- A runner that is the only requester of its worker, whoever else is at work on the store and
whatever is cancelled, shut down or dropped at whatever moment. What requests returned of the
worker is what the runner got, no entry twice. Their tasks were dispatched, in order and each in
a call of its own, which either still waits for its first step or has handed its task to the
handler of the worker, once. A runner that has ended names the number of tasks it dispatched,
unless it panicked for asking for more permits than there can be. The loop of the worker
acknowledges only what was dispatched, and nothing that was dispatched is added again by
anybody. At any moment of the run an entry leaves the slot of the worker only if the runner
gets it, or if the loop takes it back to add it again. -/
theorem runner_dispatches_once (view : StoreView) (ops : List Store.Op) (i : Nat)
    (before after : List Act) (settings : RunnerSettings) (shutdown : Token) (k : Worker)
    (manned : (play before (onStore view ops)).workers[i]? = some k)
    (sole : ∀ a ∈ before ++ after, a.Leaves i) :
    let d := (play before (onStore view ops)).nextCall
    let w := (play before (onStore view ops)).act (.drive i settings shutdown)
    let h := annals k.queue (before ++ .drive i settings shutdown :: after) (onStore view ops)
    let b := doings d after w
    Ledger.taken (Ledger.of i h) = Book.returned b ∧
    ((Book.returned b).map Entry.id).Nodup ∧
    (Book.dispatched b).map Prod.snd = (Book.returned b).map Entry.task ∧
    ((Book.dispatched b).map Prod.fst).Nodup ∧
    (∀ p ∈ Book.dispatched b, (play after w).Fate d i k.handler b p) ∧
    (∀ n, n ∉ (Book.dispatched b).map Prod.fst → Book.begun n b = []) ∧
    (∀ e ∈ (play after w).ended, e.call = d →
      e.outcome = .drove (Book.dispatched b).length ∨
        e.outcome = .panicked ∧ Runner.maxPermits < max settings.maxTasks 1) ∧
    (∀ x ∈ Ledger.acked (Ledger.of i h), x ∈ (Book.returned b).map Entry.id) ∧
    (∀ e ∈ Book.returned b, e.id ∉ Ledger.requeued h) ∧
    ∀ pre a post, after = pre ++ a :: post → ∀ k₁ e, (play pre w).workers[i]? = some k₁ →
      k₁.handoff.slot = some e → ∃ k₂, ((play pre w).act a).workers[i]? = some k₂ ∧
        (k₂.handoff.slot = some e ∨ e ∈ Book.returned ((play pre w).actDoings d a) ∨
          ∃ rest, k₂.consumer.stage = .requeueing (e :: rest)) := by
  intro d w h b
  have hs₀ := onStore_staffed view ops
  have hbefore : ∀ a ∈ before, a.Leaves i := fun a ha => sole a (List.mem_append_left _ ha)
  have hafter : ∀ a ∈ after, a.Leaves i := fun a ha => sole a (List.mem_append_right _ ha)
  have hnone : (onStore view ops).Asked i none := by simp [Asked, onStore, start, call?, Table.get?]
  have hkept := drive_kept (play_staffed before hs₀) (hnone.play hbefore hs₀) manned settings
    shutdown
  obtain ⟨hplayed, htaken⟩ := hkept.play hafter
  have htaken : Ledger.taken (Ledger.of i h) = Book.returned b := by
    have hsplit : h = annals k.queue before (onStore view ops) ++ annals k.queue after w := by
      change annals _ (before ++ _ :: after) _ = _
      rw [annals_append]
      rfl
    rw [hsplit, Ledger.of_append, Ledger.taken_append, play_untaken _ hbefore hs₀ hnone]
    exact htaken
  have hids : Ledger.returned (Ledger.of i h) = (Book.returned b).map Entry.id :=
    congrArg (List.map Entry.id) htaken
  have haccount : Account h _ :=
    play_account view ops (before ++ .drive i settings shutdown :: after) k.queue
  have howing : Owing i h _ :=
    play_owing view ops (before ++ .drive i settings shutdown :: after) k.queue i
  have hlog := hplayed.log
  rw [List.nil_append] at hlog
  refine ⟨htaken, ?_, hlog.tasks, hlog.numbers.imp Nat.ne_of_lt, hlog.fates, hlog.begun,
    fun e he hcall => (hlog.ended e he hcall).2, fun x hx => ?_, fun e he => ?_, ?_⟩
  · rw [← hids]
    exact (returned_nodup haccount).sublist (((List.filter_sublist).filterMap _).map _)
  · rw [← hids, ← List.count_pos_iff]
    have hle := howing.owed x
    have hpos := List.count_pos_iff.mpr hx
    omega
  · intro hrequeued
    refine returned_not_requeued haccount hrequeued ?_
    rw [← htaken] at he
    exact List.mem_map_of_mem (((List.filter_sublist).filterMap _).subset he)
  · rintro pre a post rfl k₁ e hk₁ he
    have hpre : ∀ x ∈ pre, x.Leaves i := fun x hx => hafter x (List.mem_append_left _ hx)
    exact (hkept.play hpre).1.slot a hk₁ he

def twoWaiting : List Act := [
  .move (.create boundless (.scripted "none")),
  .move (.add "tasks" [("body", "first")] 0), .move (.step (.call 0)),
  .move (.add "tasks" [("body", "second")] 0), .move (.step (.call 1))]

def runnerToken : Token := ⟨100, []⟩

def stoppedWhileAsking : List Act := [
  .move (.step (.call 2)), .move (.step (.call 2)), .move (.step (.call 2)),
  .move (.step (.call 2)), .move (.step (.call 2)),
  .move (.step (.loop 0)), .move (.step (.loop 0)), .move (.step (.loop 0)),
  .move (.step (.call 2)), .move (.step (.call 3)),
  .move (.step (.call 2)), .move (.step (.call 2)), .move (.step (.call 2)),
  .move (.step (.call 2)),
  .move (.step (.loop 0)), .move (.step (.loop 0)), .move (.step (.loop 0)),
  .cancel runnerToken,
  .move (.step (.call 2)), .move (.step (.call 2)),
  .move (.step (.call 3)), .move (.step (.call 3)), .move (.step (.call 2)),
  .move (.shutdown 0), .move (.step (.call 4)),
  .move (.step (.loop 0)), .move (.step (.loop 0)), .move (.step (.loop 0)),
  .move (.step (.loop 0)), .move (.step (.call 4)), .move (.step (.call 4))]

theorem stopped_while_asking :
    let settings : RunnerSettings := ⟨2, 1000, 1000⟩
    let k := Worker.create boundless (.scripted "none") ⟨0, []⟩
    let w := (play twoWaiting (onStore ⟨2, false⟩ [])).act (.drive 0 settings runnerToken)
    let h := annals k.queue (twoWaiting ++ .drive 0 settings runnerToken :: stoppedWhileAsking)
      (onStore ⟨2, false⟩ [])
    let b := doings 2 stoppedWhileAsking w
    (play twoWaiting (onStore ⟨2, false⟩ [])).workers[0]? = some k ∧
    (∀ a ∈ twoWaiting ++ stoppedWhileAsking, a.Leaves 0) ∧
    (Book.returned b).map Entry.id = ["1-0"] ∧ Ledger.requeued h = ["2-0"] ∧
    (play stoppedWhileAsking w).ended.map Ended.call = [0, 1, 3, 2, 4] ∧
    (Book.dispatched b).map Prod.snd = (Book.returned b).map Entry.task ∧
    ∀ x ∈ Ledger.acked (Ledger.of 0 h), x ∈ (Book.returned b).map Entry.id := by
  intro settings k w h b
  have manned : (play twoWaiting (onStore ⟨2, false⟩ [])).workers[0]? = some k := rfl
  have sole : ∀ a ∈ twoWaiting ++ stoppedWhileAsking, a.Leaves 0 := by decide
  obtain ⟨-, -, tasks, -, -, -, -, acked, -⟩ := runner_dispatches_once ⟨2, false⟩ [] 0 twoWaiting
    stoppedWhileAsking settings runnerToken k manned sole
  exact ⟨manned, sole, by decide +kernel, by decide +kernel, by decide +kernel, tasks, acked⟩

end TaskRelay
