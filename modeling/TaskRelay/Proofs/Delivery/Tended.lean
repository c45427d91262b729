import TaskRelay.Proofs.Delivery.Again
import TaskRelay.Proofs.Delivery.Pending
import TaskRelay.Proofs.Worker.Owner
import TaskRelay.Proofs.World.Loops

/-!
# What is known of one loop

As long as nobody else closes the store, the tally of a worker holds after every move: an
addition of its loop succeeds in the end, and a loop that comes to its end had nothing left.
What the loop was handed stays pending in the name of its consumer until it is acknowledged.
Once the shutdown of the worker has returned, the worker does nothing any more.
-/

set_option autoImplicit false

namespace TaskRelay
open World
open scoped List

section
variable {k : Worker} {store : Store} (view : StoreView) (now : Nat) (stopped : Bool)

/-- On an open store an addition takes its time and succeeds. -/
theorem adding_open {a : Addition} (hopen : store.closed = false)
    (own : a.stream = k.settings.stream) (id : String) (rest : List Entry) :
    let s := Consumer.step k.settings view now stopped store k.handoff (.adding a id rest)
    s.state = .active (.adding a id rest) ∨
      s.store.shelf k.queue = (store.shelf k.queue).append a.fields a.maxLen := by
  have h := add_resume_step a now store
  have hfails : ∀ e, (a.resume now store).2 ≠ .done (.error e) := by
    intro e he
    unfold Addition.resume Store.append at he
    rw [hopen] at he
    split at he <;> cases he
  simp only [Consumer.step]
  generalize a.resume now store = r at h hfails ⊢
  cases h with
  | waiting => exact Or.inl rfl
  | failed => exact absurd rfl (hfails _)
  | @added s' appended => exact Or.inr ((appended k.queue).trans (if_pos own.symm))

theorem afterRead_goes (cfg : StreamSettings) (handoff : Handoff Entry)
    (p : Progress GroupRead ReadResult) :
    (Consumer.afterRead cfg now store handoff p).state ≠ .finished := by
  rcases p with r | r | ⟨e | ⟨_ | ⟨e, es⟩⟩⟩ <;> exact nofun

theorem afterOffer_goes (handoff : Handoff Entry) (id : String) (rest : List Entry)
    (p : Progress Offer (Offered Entry)) :
    (Consumer.afterOffer store handoff id rest p).state ≠ .finished := by
  rcases p with o | o | ⟨_ | e⟩ <;> exact nofun

theorem loopDeeds_ended (i : Nat) {c : Consumer} (hc : c.stage = .idle ∨ c.stage = .requeueing []) :
    loopDeeds i [] (.active c) .finished = [] := by
  cases c with
  | acking id rest => rcases hc with hc | hc <;> cases hc
  | _ => rfl

/-- A loop comes to its end when it has nothing left, and does nothing in that step. -/
theorem step_finished {c : Consumer}
    (h : (c.step k.settings view now stopped store k.handoff).state = .finished) :
    (c.step k.settings view now stopped store k.handoff).store = store ∧
      (c.stage = .idle ∨ c.stage = .requeueing []) := by
  cases c with
  | spawned => cases h
  | top =>
    simp only [Consumer.step] at h ⊢
    split at h
    · next hs => exact ⟨by rw [if_pos hs]; rfl, Or.inl rfl⟩
    · split at h
      · cases h
      · exact absurd h (afterRead_goes now _ _ _)
  | reading r =>
    simp only [Consumer.step] at h ⊢
    split at h
    · next hs => exact ⟨by rw [if_pos hs]; rfl, Or.inl rfl⟩
    · exact absurd h (afterRead_goes now _ _ _)
  | pausing d =>
    simp only [Consumer.step] at h ⊢
    split at h
    · next hs => exact ⟨by rw [if_pos hs]; rfl, Or.inl rfl⟩
    · split at h <;> cases h
  | holding es =>
    cases es with
    | nil => cases h
    | cons e rest => exact absurd h (afterOffer_goes _ _ _ _)
  | offering o id rest => exact absurd h (afterOffer_goes _ _ _ _)
  | acking id rest => cases h
  | requeueing es =>
    cases es with
    | nil => exact ⟨rfl, Or.inr rfl⟩
    | cons e rest => cases h
  | adding a id rest =>
    simp only [Consumer.step] at h
    split at h <;> cases h

end

namespace World

section
variable {q : Queue} {i : Nat} {w : World} {es : List Event}
variable (hw : w.Proper) (hl : (w.post i).Lived es) (m : Move)
include hw

theorem unborn_silent (hn : w.workers[i]? = none) : Ledger.of i (w.deeds q m) = [] := by
  obtain ⟨f, hf, -⟩ := (move_follows hw m).flow q
  have hp := hf.turn i
  have hs : (w.flow q).stations[i]? = none := by simp [flow, hn]
  rw [hs] at hp
  generalize f.stations[i]? = p at hp
  cases hp with
  | rest _ silent => exact silent
  | join silent fresh => rw [silent]; rfl

include hl

theorem unborn_before (hn : (w.move m).workers[i]? = none) : w.workers[i]? = none := by
  cases hk : w.workers[i]? with
  | none => rfl
  | some k =>
    obtain ⟨k', hk', -⟩ := move_worker hw hl hk m
    rw [hn] at hk'
    cases hk'

/-- A worker keeps its settings. -/
theorem settings_move {k k' : Worker} (hk : w.workers[i]? = some k)
    (hk' : (w.move m).workers[i]? = some k') : k'.settings = k.settings := by
  obtain ⟨k₁, hk₁, hs⟩ := move_worker hw hl hk m
  rw [hk'] at hk₁
  rw [Option.some.inj hk₁]
  exact hs

theorem queue_move {k k' : Worker} (hk : w.workers[i]? = some k)
    (hk' : (w.move m).workers[i]? = some k') : k'.queue = k.queue :=
  congrArg StreamSettings.queue (settings_move hw hl m hk hk')

variable (named : ∀ k, w.workers[i]? = some k → k.consumer.Named k.settings)
include named

theorem named_move {k' : Worker} (hk' : (w.move m).workers[i]? = some k') :
    k'.consumer.Named k'.settings := by
  rcases move_cases w i m with ⟨k, c, rfl, hk, hc⟩ | hm
  · obtain ⟨-, h₁⟩ := move_loop hk hc
    rw [hk'] at h₁
    rw [Option.some.inj h₁]
    have hown := (hw.workers k (List.mem_of_getElem? hk)).own
    have hnamed := named k hk
    rw [hc] at hown hnamed
    exact step_named hown hnamed _ _ _ _ _
  · have hf := hm.fades hw hl
    rw [post_loop hk'] at hf
    cases hk : w.workers[i]? with
    | none =>
      have hn : (w.post i).loop = .absent := by simp [Post.loop, post, hk]
      rw [hn] at hf
      rcases hf with he | he | he | he <;> rw [he] <;> trivial
    | some k =>
      rw [post_loop hk] at hf
      rw [settings_move hw hl m hk hk']
      rcases hf with he | he | he | he <;> rw [he]
      · exact named k hk
      all_goals trivial

/-- What is handed to a loop is pending in the name of its consumer. -/
theorem handed_owed {k' : Worker} (hk' : (w.move m).workers[i]? = some k') (hq : k'.queue = q)
    {n : Nat} (hn : entryId n ∈ Ledger.handed (Ledger.of i (w.deeds q m))) :
    Table.get? n ((w.move m).store.shelf q).pending = some ⟨k'.settings.consumer, 1⟩ := by
  rcases move_cases w i m with ⟨k, c, rfl, hk, hc⟩ | hm
  · have hq₀ : k.queue = q := (queue_move hw hl _ hk hk').symm.trans hq
    obtain ⟨hst, -⟩ := move_loop hk hc
    rw [settings_move hw hl _ hk hk', hst]
    rw [deeds_loop hk hc, if_pos hq₀, Ledger.of_append, of_additions, List.nil_append] at hn
    obtain ⟨hc', es', hes, hn⟩ := handed_loopDeeds hn
    have hown := (hw.workers k (List.mem_of_getElem? hk)).own
    have hnamed := named k hk
    rw [hc] at hown hnamed hc'
    have hread := step_read hown hnamed w.view w.now (w.isCancelled k.stop) w.store k.handoff
      (by simpa using hc')
    rw [← hq₀]
    exact hread.owes es' hes n hn
  · exfalso
    obtain ⟨e, he, hid⟩ := List.mem_map.mp hn
    obtain ⟨d, hd, hde⟩ := List.mem_flatMap.mp he
    obtain ⟨id, r, e, -, -, rfl, -⟩ := hm.deeds q d hd
    cases hde

end

end World

namespace World

structure Tended (q : Queue) (i : Nat) (h : List Deed) (w : World) : Prop where
  proper : w.Proper
  kept : Kept h (w.flow q)
  unborn : w.workers[i]? = none → Ledger.of i h = []
  named : ∀ k, w.workers[i]? = some k → k.consumer.Named k.settings
  tally : ∀ k, w.workers[i]? = some k → k.queue = q → ∃ rs, Tally i h (k.station q) rs
  settled : ∀ k, w.workers[i]? = some k → k.queue = q → k.consumer = .finished →
    Ledger.Settled i h
  owed : ∀ k, w.workers[i]? = some k → k.queue = q → ∀ n,
    entryId n ∈ Ledger.handed (Ledger.of i h) →
      Table.get? n (w.store.shelf q).pending = some ⟨k.settings.consumer, 1⟩ ∨
        entryId n ∈ Ledger.acked h

namespace Tended

variable {q : Queue} {i : Nat} {h : List Deed} {w : World} {es : List Event}
variable (ht : w.Tended q i h) (hl : (w.post i).Lived es) (m : Move)
include ht

/-- What a move is to the station of a worker, after which its loop may be ended from outside. -/
theorem turn {k' : Worker} (hk' : (w.move m).workers[i]? = some k') :
    ∃ p, Station.Turn i (w.deeds q m) (w.flow q).stations[i]? (some p) ∧
      (k'.station q = p ∨ k'.station q = ⟨.out, p.slot⟩) := by
  obtain ⟨f, hf, hs⟩ := (move_follows ht.proper m).flow q
  have hst := flow_station hk' q
  rcases hs.turn i with he | ⟨p, hp, he⟩
  · rw [hst] at he
    exact ⟨_, he ▸ hf.turn i, Or.inl rfl⟩
  · rw [hst] at he
    exact ⟨p, hp ▸ hf.turn i, Or.inr (Option.some.inj he)⟩

include hl

theorem unborn_move (hn : (w.move m).workers[i]? = none) :
    Ledger.of i (h ++ w.deeds q m) = [] := by
  have hn := unborn_before ht.proper hl m hn
  rw [Ledger.of_append, ht.unborn hn, unborn_silent ht.proper m hn]
  rfl

omit hl in
theorem fit {k : Worker} (hk : w.workers[i]? = some k) : (k.station q).Fit :=
  ht.kept.account.fit _ (List.mem_of_getElem? (flow_station hk q))

/-- While the store is open a loop skips no entry. -/
theorem never_skips (hopen : (w.post i).loop.isActive = true → w.store.closed = false)
    {k k' : Worker} (hk : w.workers[i]? = some k) (hk' : (w.move m).workers[i]? = some k')
    (hq : k.queue = q) (hs : (k.station q).Skips (k'.station q)) (hd : w.deeds q m = []) :
    False := by
  have hq' : k'.queue = q := (queue_move ht.proper hl m hk hk').trans hq
  obtain ⟨e, rest, slot, hp, hp'⟩ := hs
  rw [Worker.station_own hq] at hp
  rw [Worker.station_own hq'] at hp'
  have hst : k.consumer.stage = .adding e rest := congrArg Station.stage hp
  have hst' : k'.consumer.stage = .requeueing rest := congrArg Station.stage hp'
  rcases move_cases w i m with ⟨k₁, c, rfl, hk₁, hc⟩ | hm
  · obtain rfl := Option.some.inj (hk.symm.trans hk₁)
    obtain ⟨-, h₁⟩ := move_loop hk hc
    rw [hk'] at h₁
    obtain rfl := Option.some.inj h₁
    rw [hc] at hst
    cases c with
    | adding a id rest' =>
      have hown := (ht.proper.workers k (List.mem_of_getElem? hk)).own
      rw [hc] at hown
      have ho := hopen (by rw [post_loop hk, hc]; rfl)
      rcases adding_open (k := k) w.view w.now (w.isCancelled k.stop) ho hown id rest' with hs | hs
      · change (w.loopStep k _).state = _ at hs
        rw [hs] at hst'
        cases hst'
      · change (w.loopStep k _).store.shelf _ = _ at hs
        rw [deeds_loop hk hc, ← hq, hs, additions, (ht.proper.shelves _).gained_append] at hd
        cases hd
    | _ => cases hst
  · have hf := hm.fades ht.proper hl
    rw [post_loop hk, post_loop hk'] at hf
    rcases hf with he | he | he | he <;> rw [he] at hst'
    · rw [hst] at hst'
      cases hst'
    all_goals cases hst'

theorem tally_move (hopen : (w.post i).loop.isActive = true → w.store.closed = false)
    {k' : Worker} (hk' : (w.move m).workers[i]? = some k') (hq : k'.queue = q) :
    ∃ rs, Tally i (h ++ w.deeds q m) (k'.station q) rs := by
  obtain ⟨p, hp, hlast⟩ := ht.turn m hk'
  cases hk : w.workers[i]? with
  | none =>
    have hs : (w.flow q).stations[i]? = none := by simp [flow, hk]
    have hnew : Ledger.of i (h ++ w.deeds q m) = [] := by
      rw [Ledger.of_append, ht.unborn hk, unborn_silent ht.proper m hk]
      rfl
    rw [hs] at hp
    cases hp with
    | join silent fresh =>
      refine ⟨[], (Tally.new hnew fresh).last ?_ hlast⟩
      rcases fresh with rfl | rfl
      · rfl
      · trivial
  | some k =>
    have hq₀ : k.queue = q := (queue_move ht.proper hl m hk hk').symm.trans hq
    obtain ⟨rs, hrs⟩ := ht.tally k hk hq₀
    have hfit := ht.fit hk
    rw [flow_station hk q] at hp
    cases hp with
    | rest _ silent => exact ⟨rs, (hrs.silent silent).last hfit hlast⟩
    | work hw =>
      rcases hrs.work hfit hw with ⟨rs', hrs'⟩ | ⟨hskip, hd⟩
      · exact ⟨rs', hrs'.last (hw.fit hfit) hlast⟩
      · rcases hlast with he | he
        · rw [← he] at hskip
          exact (ht.never_skips hl m hopen hk hk' hq₀ hskip hd).elim
        · obtain ⟨e, rest, slot, h₀, rfl⟩ := hskip
          have hstop := hrs.stop hfit
          rw [h₀] at hstop
          rw [he, hd, List.append_nil]
          exact ⟨rs, hstop⟩

omit hl in
/-- A loop that comes to its end does nothing in that step. -/
theorem finished_silent {k : Worker} {c : Consumer} (hk : w.workers[i]? = some k)
    (hc : k.consumer = .active c) (hfin : (w.loopStep k c).state = .finished) :
    w.deeds q (.step (.loop i)) = [] ∧ (c.stage = .idle ∨ c.stage = .requeueing []) := by
  obtain ⟨hstore, hlast⟩ := step_finished (k := k) _ _ _ hfin
  have hst : (w.loopStep k c).store = w.store := hstore
  refine ⟨?_, hlast⟩
  rw [deeds_loop hk hc, hst, hfin, hc, (ht.proper.shelves q).additions_nothing rfl,
    (ht.proper.shelves q).gained_nothing rfl, loopDeeds_ended i hlast, ite_self]
  rfl

omit hl in
/-- An ended loop is handed nothing. -/
theorem ended_unhanded {k k' : Worker} (hk : w.workers[i]? = some k)
    (hk' : (w.move m).workers[i]? = some k') (hq : k.queue = q) (hend : k.consumer = .finished) :
    Ledger.handedOut (Ledger.of i (w.deeds q m)) = [] := by
  obtain ⟨p, hp, -⟩ := ht.turn m hk'
  rw [flow_station hk q, Worker.station_own hq, hend] at hp
  cases hp with
  | rest _ silent => rw [silent]; rfl
  | work hw => rw [hw.own.1, hw.out_hands]

/-- A loop that has come to its end had nothing left. -/
theorem settled_move (hopen : (w.post i).loop.isActive = true → w.store.closed = false)
    {k' : Worker} (hk' : (w.move m).workers[i]? = some k') (hq : k'.queue = q)
    (hend : k'.consumer = .finished) : Ledger.Settled i (h ++ w.deeds q m) := by
  rcases move_cases w i m with ⟨k, c, rfl, hk, hc⟩ | hm
  · have hq₀ : k.queue = q := (queue_move ht.proper hl _ hk hk').symm.trans hq
    have hfin : (w.loopStep k c).state = .finished := by
      obtain ⟨-, h₁⟩ := move_loop hk hc
      rw [hk'] at h₁
      rwa [Option.some.inj h₁] at hend
    obtain ⟨hd, hlast⟩ := ht.finished_silent hk hc hfin
    obtain ⟨rs, hrs⟩ := ht.tally k hk hq₀
    rw [hd, List.append_nil]
    refine hrs.settled (ht.fit hk) ?_
    rw [Worker.station_own hq₀, hc]
    exact hlast
  · obtain ⟨rs, hrs⟩ := ht.tally_move hl m hopen hk' hq
    have hle := hrs.length_le
    have hf := hm.fades ht.proper hl
    rw [post_loop hk', hend] at hf
    have hbefore : (w.post i).loop = .finished := by
      rcases hf with he | he | he | he
      · exact he.symm
      all_goals cases he
    cases hk : w.workers[i]? with
    | none => simp [Post.loop, post, hk] at hbefore
    | some k =>
      rw [post_loop hk] at hbefore
      have hq₀ : k.queue = q := (queue_move ht.proper hl _ hk hk').symm.trans hq
      have hs := ht.settled k hk hq₀ hbefore
      have hh := ht.ended_unhanded m hk hk' hq₀ hbefore
      unfold Ledger.Settled at hs ⊢
      simp only [Ledger.of_append, Ledger.taken_append, Ledger.readded_append,
        Ledger.handedOut_append, hh, List.length_append, List.append_nil] at hle ⊢
      omega

omit hl in
/-- What was handed out does not lie beyond the cursor. -/
theorem handed_le {n : Nat} (hn : entryId n ∈ Ledger.handed (Ledger.of i h)) :
    n ≤ (w.store.shelf q).cursor := by
  obtain ⟨ns, hns, -, hc⟩ := ht.kept.account.numbers
  have hm : entryId n ∈ Ledger.handed h :=
    ((Ledger.handedOut_of i h).map Entry.id).subset hn
  rw [hns, List.mem_map_of_injective entryId_injective] at hm
  exact hc n hm

/-- An entry stays pending in the same name until it is acknowledged. -/
theorem owed_still {k k' : Worker} (hk : w.workers[i]? = some k)
    (hk' : (w.move m).workers[i]? = some k') (hq : k.queue = q) {n : Nat}
    (hn : entryId n ∈ Ledger.handed (Ledger.of i h)) :
    Table.get? n ((w.move m).store.shelf q).pending = some ⟨k'.settings.consumer, 1⟩ ∨
      entryId n ∈ Ledger.acked (h ++ w.deeds q m) := by
  rw [Ledger.acked_append, List.mem_append, settings_move ht.proper hl m hk hk']
  rcases ht.owed k hk hq n hn with hp | ha
  · obtain ⟨f, hf, hs⟩ := (move_follows ht.proper m).flow q
    rcases hf.pending (ht.proper.shelves q) n with he | ⟨hlt, -⟩ | ⟨j, id, hd, ho, hid⟩
    · refine Or.inl ?_
      change Table.get? n ((w.move m).flow q).shelf.pending = _
      rw [hs.shelf, he]
      exact hp
    · have hle := ht.handed_le hn
      change (w.store.shelf q).cursor < n at hlt
      omega
    · rw [hd, ← owed_number ht.kept.account ho hid]
      exact Or.inr (Or.inr (by simp))
  · exact Or.inr (Or.inl ha)

theorem owed_move {k' : Worker} (hk' : (w.move m).workers[i]? = some k') (hq : k'.queue = q)
    {n : Nat} (hn : entryId n ∈ Ledger.handed (Ledger.of i (h ++ w.deeds q m))) :
    Table.get? n ((w.move m).store.shelf q).pending = some ⟨k'.settings.consumer, 1⟩ ∨
      entryId n ∈ Ledger.acked (h ++ w.deeds q m) := by
  rw [Ledger.of_append, Ledger.handed_append, List.mem_append] at hn
  rcases hn with hn | hn
  · cases hk : w.workers[i]? with
    | none =>
      rw [ht.unborn hk] at hn
      cases hn
    | some k =>
      have hq₀ : k.queue = q := (queue_move ht.proper hl m hk hk').symm.trans hq
      exact ht.owed_still hl m hk hk' hq₀ hn
  · exact Or.inl (handed_owed ht.proper hl m ht.named hk' hq hn)

theorem move (hopen : (w.post i).loop.isActive = true → w.store.closed = false) :
    (w.move m).Tended q i (h ++ w.deeds q m) where
  proper := (move_follows ht.proper m).proper ht.proper
  kept := by
    obtain ⟨f, hf, hs⟩ := (move_follows ht.proper m).flow q
    exact kept_step (ht.proper.shelves q) ht.kept hf hs
  unborn := ht.unborn_move hl m
  named := fun _ hk => named_move ht.proper hl m ht.named hk
  tally := fun _ hk hq => ht.tally_move hl m hopen hk hq
  settled := fun _ hk hq he => ht.settled_move hl m hopen hk hq he
  owed := fun _ hk hq _ hn => ht.owed_move hl m hk hq hn

end Tended

def ClosedOnlyBy (w : World) (i : Nat) : Prop :=
  w.store.closed = true → w.workers[i]?.map Worker.lifecycle = some .stopped

instance (w : World) (i : Nat) : Decidable (w.ClosedOnlyBy i) :=
  inferInstanceAs (Decidable (_ → _))

section
variable {i : Nat} {w : World} {es : List Event} (hw : w.Proper) (hl : (w.post i).Lived es)
include hl

/-- As long as a loop is active only others could have closed the store. -/
theorem ClosedOnlyBy.opened (hc : w.ClosedOnlyBy i) (ha : (w.post i).loop.isActive = true) :
    w.store.closed = false := by
  refine Bool.eq_false_iff.mpr fun hclosed => ?_
  obtain ⟨k, hk, hs⟩ := Option.map_eq_some_iff.mp (hc hclosed)
  have hidle := ((hl.reached _ (post_phase i w hk)).quiet hs).2
  rw [post_loop hk] at ha
  rw [show k.consumer.isActive = false from hidle] at ha
  cases ha

include hw

theorem Tended.run {q : Queue} {h : List Deed} (ms : List Move) (ht : w.Tended q i h)
    (alone : ∀ pre, pre <+: ms → (World.run pre w).ClosedOnlyBy i) :
    (World.run ms w).Tended q i (h ++ history q ms w) := by
  induction ms generalizing w h es with
  | nil => simpa [history, World.run] using ht
  | cons m ms ih =>
    have hopen : w.ClosedOnlyBy i := alone [] List.nil_prefix
    have ht' := ht.move hl m (hopen.opened hl)
    rw [history, ← List.append_assoc]
    refine ih ht'.proper (hl.run (move_run hw hl m)) ht' ?_
    intro pre hpre
    exact alone (m :: pre) (by simpa using hpre)

/-- Once its shutdown has returned a worker does nothing, whatever is done. -/
theorem run_stopped (hwon : Chronicle.Won es) (q : Queue) (ms : List Move) :
    Ledger.of i (history q ms w) = [] ∧
      (World.run ms w).step (.loop i) = (World.run ms w, .gone) := by
  induction ms generalizing w es with
  | nil =>
    obtain ⟨k, hk, -, -, -, hidle⟩ := won_stopped hl hwon
    have hi : (w.post i).loop.isActive = false := by rwa [post_loop hk]
    exact ⟨rfl, step_idle hi⟩
  | cons m ms ih =>
    obtain ⟨k, hk, -, -, hcl, hidle⟩ := won_stopped hl hwon
    obtain ⟨hrest, hgone⟩ := ih ((move_follows hw m).proper hw) (hl.run (move_run hw hl m))
      (Chronicle.won_append.mpr (Or.inl hwon))
    refine ⟨?_, hgone⟩
    rw [history, Ledger.of_append, deeds_stopped hw hk hcl hidle, hrest]
    rfl

end

theorem onStore_tended (view : StoreView) (ops : List Store.Op) (q : Queue) (i : Nat) :
    (onStore view ops).Tended q i [] where
  proper := onStore_proper view ops
  kept := by simpa [history, run] using run_kept view ops [] q
  unborn := fun _ => rfl
  named := by simp [onStore, start]
  tally := by simp [onStore, start]
  settled := by simp [onStore, start]
  owed := by simp [onStore, start]

end World

end TaskRelay
