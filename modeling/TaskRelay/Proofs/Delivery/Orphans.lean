import TaskRelay.Proofs.Delivery.Requeue
import TaskRelay.Proofs.World.Drops

/-!
# What a dropped worker leaves behind

Wherever a consumer loop is when its worker is dropped, each entry that was handed to it and
that the store did not take its acknowledgement for stays pending in the name of the worker's
consumer. No read hands it out again, but whoever claims it gets it, until it is trimmed.
-/

set_option autoImplicit false

namespace TaskRelay
open scoped List

theorem Shelf.Notices.pending {sh sh' : Shelf} {x : Option Notice} (h : sh.Notices x sh')
    (hs : sh.Sound) (n : Nat) :
    Table.get? n sh'.pending = Table.get? n sh.pending ∨ sh.cursor < n ∨ x = some (.acked n) ∨
      (∃ consumer ns es, x = some (.claimed consumer ns es) ∧ n ∈ ns) ∧
        (Table.get? n sh'.pending).isSome = (Table.get? n sh.pending).isSome := by
  cases h with
  | idle | missed | added => exact Or.inl rfl
  | created => exact Or.inl (by rw [pending_found])
  | handed count next hands =>
    rw [hands.pending_after]
    split
    · next hm =>
      obtain ⟨b, hb, rfl⟩ := List.mem_map.mp hm
      exact Or.inr (Or.inl (hands.between hs hb).1)
    · exact Or.inl rfl
  | acked m =>
    by_cases hn : n = m
    · exact Or.inr (Or.inr (Or.inl (by rw [hn])))
    · exact Or.inl (by rw [pending_ack, Table.get?_erase_of_ne hn])
  | claimed consumer ns =>
    rw [claim_get]
    by_cases hn : n ∈ ns
    · exact Or.inr (Or.inr (Or.inr ⟨⟨_, _, _, rfl, hn⟩, Option.isSome_map⟩))
    · refine Or.inl ?_
      simp [hn, List.count_eq_zero_of_not_mem hn]

/-- Whose step it is that acknowledges. -/
theorem Flow.Step.acker {f f' : Flow} {ds : List Deed} (h : f.Step ds f') {i : Nat} {id : String}
    (hd : ds = [.acked i id]) : ∃ p, f.stations[i]? = some p ∧ id ∈ p.owed := by
  cases h with
  | work hp h =>
    cases h <;> cases hd
    exact ⟨_, hp, List.mem_singleton_self id⟩
  | _ => cases hd

namespace Store

/-- An acknowledgement that is not taken changes no shelf. -/
theorem ack_refused (s : Store) (q' : Queue) (id : String)
    (h : (s.ack q'.stream q'.group id).2.isOk = false) (q : Queue) :
    (s.ack q'.stream q'.group id).1.shelf q = s.shelf q := by
  unfold ack at h ⊢
  cases hf : s.failingAcks with
  | succ m => rfl
  | zero =>
    simp only [hf] at h
    by_cases hc : s.closed = true
    · simp only [if_pos hc]
    · rw [if_neg hc] at h
      split at h <;> cases h

namespace Op

def acks (q : Queue) (n : Nat) : Op → Bool
  | .ack q' id => q' == q && entryNumber? id == some n
  | _ => false

def claims (q : Queue) (n : Nat) : Op → Bool
  | .claim q' _ ids => q' == q && (ids.filterMap entryNumber?).contains n
  | _ => false

def settles : Op → Bool
  | .ack _ _ | .claim _ _ _ => true
  | _ => false

theorem unsettled {op : Op} (h : op.settles = false) (q : Queue) (n : Nat) :
    op.acks q n = false ∧ op.claims q n = false := by
  cases op with
  | ack | claim => cases h
  | _ => exact ⟨rfl, rfl⟩

end Op

end Store

def Notice.From (q : Queue) (op : Store.Op) : Notice → Prop
  | .acked n => op.acks q n = true
  | .claimed _ ns _ => ∀ n ∈ ns, op.claims q n = true
  | _ => True

theorem Store.notice_from {s : Store} {q : Queue} {op : Op} {x : Notice}
    (h : s.notice? q op = some x) : x.From q op := by
  cases op with
  | ack q' id =>
    simp only [notice?] at h
    split at h
    · split at h
      · next hq =>
        obtain ⟨n, hn, rfl⟩ := Option.map_eq_some_iff.mp h
        simp [Notice.From, Op.acks, hq, hn]
      · cases h
    · cases h
  | claim q' consumer ids =>
    simp only [notice?] at h
    split at h
    · next hq =>
      cases h
      intro n hn
      simpa [Op.claims, hq] using hn
    · cases h
  | read q' consumer count =>
    simp only [notice?] at h
    split at h
    · split at h <;> cases h
      trivial
    · cases h
  | createGroup q' =>
    simp only [notice?] at h
    split at h
    · split at h <;> cases h
      trivial
    · cases h
  | add stream fields maxLen =>
    simp only [notice?] at h
    split at h
    · split at h <;> cases h
      trivial
    · cases h
  | _ => cases h

namespace World

def confirms (i : Nat) (w : World) : Incident → List String
  | .move (.step (.loop j)) =>
    match w.workers[j]? with
    | some k =>
      match k.consumer with
      | .active (.acking id _) =>
        if j = i && (w.store.ack k.settings.stream k.settings.group id).2.isOk then [id] else []
      | _ => []
    | none => []
  | _ => []

def confirmed (i : Nat) : List Incident → World → List String
  | [], _ => []
  | x :: xs, w => w.confirms i x ++ confirmed i xs (w.meet x)

def visitorReads (q : Queue) (w : World) : Incident → List Entry
  | .visit op =>
    match w.store.notice? q op with
    | some (.handed _ _ es) => es
    | _ => []
  | .move _ => []

def visitorsRead (q : Queue) : List Incident → World → List Entry
  | [], _ => []
  | x :: xs, w => w.visitorReads q x ++ visitorsRead q xs (w.meet x)

/-- After `xs` an entry that was handed to a consumer is pending in its name, unless a visitor
acknowledged or claimed it. -/
def Due (w : World) (q : Queue) (xs : List Incident) (consumer : String) (n : Nat) : Prop :=
  (∃ op, .visit op ∈ xs ∧ op.acks q n = true) ∨
    ∃ p, Table.get? n (w.store.shelf q).pending = some p ∧
      ((∃ op, .visit op ∈ xs ∧ op.claims q n = true) ∨ p = ⟨consumer, 1⟩)

structure Dues (q : Queue) (i : Nat) (h : List Deed) (cs : List String) (xs : List Incident)
    (w : World) : Prop where
  fair : Fair h (w.flow q)
  named : ∀ k, w.workers[i]? = some k → k.consumer.Named k.settings
  unborn : w.workers[i]? = none → Ledger.of i h = []
  due : ∀ k, w.workers[i]? = some k → k.queue = q → ∀ n,
    entryId n ∈ Ledger.handed (Ledger.of i h) →
      entryId n ∈ cs ∨ w.Due q xs k.settings.consumer n

section
variable {w : World} {q : Queue} {xs : List Incident} {consumer : String} {n : Nat}

theorem Due.still (h : w.Due q xs consumer n) {w' : World}
    (hp : Table.get? n (w'.store.shelf q).pending = Table.get? n (w.store.shelf q).pending)
    (x : Incident) : w'.Due q (xs ++ [x]) consumer n := by
  rcases h with ⟨op, hop, ha⟩ | ⟨p, hp', hc⟩
  · exact Or.inl ⟨op, List.mem_append_left _ hop, ha⟩
  · refine Or.inr ⟨p, hp.trans hp', hc.imp_left ?_⟩
    rintro ⟨op, hop, ha⟩
    exact ⟨op, List.mem_append_left _ hop, ha⟩

theorem Due.visit (h : w.Due q xs consumer n) (hs : (w.store.shelf q).Sound)
    (hn : n ≤ (w.store.shelf q).cursor) (op : Store.Op) :
    (w.meet (.visit op)).Due q (xs ++ [.visit op]) consumer n := by
  have hx := Store.obey_notices q w.store op
  have hlast : .visit op ∈ xs ++ [.visit op] := List.mem_append_right _ List.mem_cons_self
  rcases hx.pending hs n with hp | hlt | ha | ⟨⟨c, ns, es, hc, hm⟩, hsome⟩
  · exact h.still hp _
  · exact absurd hlt (Nat.not_lt.mpr hn)
  · exact Or.inl ⟨op, hlast, Store.notice_from ha⟩
  · have hcl : op.claims q n = true := Store.notice_from hc n hm
    rcases h with ⟨op', hop, ha⟩ | ⟨p, hp, -⟩
    · exact Or.inl ⟨op', List.mem_append_left _ hop, ha⟩
    · rw [hp] at hsome
      obtain ⟨p', hp'⟩ := Option.isSome_iff_exists.mp hsome
      exact Or.inr ⟨p', hp', Or.inl ⟨op, hlast, hcl⟩⟩

end

section
variable {w : World} {q : Queue} {i : Nat} {h : List Deed}

theorem acked_loopDeeds {j : Nat} {id : String} {gained : List (Nat × Fields)} {l l' : LoopState}
    (h : .acked j id ∈ loopDeeds i gained l l') : ∃ rest, l = .active (.acking id rest) := by
  unfold loopDeeds at h
  split at h
  · simp at h
  · simp at h
  · next rest =>
    cases List.mem_singleton.mp h
    exact ⟨rest, rfl⟩
  · simp at h
  · cases h

/-- When the loop of a worker acknowledges, the store takes it, or nothing changes. -/
theorem acked_move {m : Move} {k : Worker} (hk : w.workers[i]? = some k)
    (hq : k.queue = q) {id : String} (hd : .acked i id ∈ w.deeds q m) :
    id ∈ w.confirms i (.move m) ∨ (w.move m).store.shelf q = w.store.shelf q := by
  have hof : .acked i id ∈ Ledger.of i (w.deeds q m) :=
    List.mem_filter.mpr ⟨hd, decide_eq_true rfl⟩
  rcases w.move_cases i m with ⟨k₁, c, rfl, hk₁, hc⟩ | hs
  · obtain rfl := Option.some.inj (hk.symm.trans hk₁)
    obtain ⟨hst, -⟩ := move_loop hk hc
    rw [deeds_loop hk hc, if_pos hq, Ledger.of_append, of_additions, List.nil_append] at hof
    have hloop := (List.mem_filter.mp hof).1
    obtain ⟨rest, hl⟩ := acked_loopDeeds hloop
    obtain rfl : c = .acking id rest := LoopState.active.inj (hc.symm.trans hl)
    simp only [confirms, hk, hc, hst, loopStep, Consumer.step]
    cases ha : (w.store.ack k.settings.stream k.settings.group id).2.isOk with
    | true => exact Or.inl (by simp)
    | false => exact Or.inr (w.store.ack_refused k.queue id ha q)
  · obtain ⟨n, r, e, -, -, he, -⟩ := hs.deeds q _ hof
    cases he

variable {cs : List String} {xs : List Incident}

theorem Dues.due_move (hd : w.Dues q i h cs xs) (hw : w.Regular) (m : Move) {k' : Worker}
    (hk' : (w.move m).workers[i]? = some k') (hq : k'.queue = q) {n : Nat}
    (hn : entryId n ∈ Ledger.handed (Ledger.of i (h ++ w.deeds q m))) :
    entryId n ∈ cs ++ w.confirms i (.move m) ∨
      (w.move m).Due q (xs ++ [.move m]) k'.settings.consumer n := by
  obtain ⟨es, hl⟩ := hw.lived i
  rw [Ledger.of_append, Ledger.handed_append, List.mem_append] at hn
  rw [List.mem_append]
  rcases hn with hn | hn
  · cases hk : w.workers[i]? with
    | none =>
      rw [hd.unborn hk] at hn
      cases hn
    | some k =>
      have hq₀ : k.queue = q := (queue_move hw.proper hl m hk hk').symm.trans hq
      rw [settings_move hw.proper hl m hk hk']
      rcases hd.due k hk hq₀ n hn with hc | hdue
      · exact Or.inl (Or.inl hc)
      · obtain ⟨f, hf, hs⟩ := (move_follows hw.proper m).flow q
        have hsh : (w.move m).store.shelf q = f.shelf := hs.shelf
        have hle : n ≤ (w.flow q).shelf.cursor := hd.fair.own_le hn
        rcases hf.pending (hw.proper.shelves q) n with he | ⟨hlt, -⟩ | ⟨j, id, hds, howed, hid⟩
        · exact Or.inr (hdue.still (by rw [hsh]; exact he) _)
        · exact absurd hlt (Nat.not_lt.mpr hle)
        · obtain rfl := owed_number hd.fair.account howed hid
          obtain ⟨p, hp, ho⟩ := hf.acker hds
          obtain rfl := hd.fair.alone (hd.fair.owed_handed hp ho) hn
          have hm : .acked j (entryId n) ∈ w.deeds q m := hds ▸ List.mem_singleton_self _
          rcases acked_move hk hq₀ hm with hc | hsame
          · exact Or.inl (Or.inr hc)
          · exact Or.inr (hdue.still (by rw [hsame]) _)
  · exact Or.inr (Or.inr ⟨_, handed_owed hw.proper hl m hd.named hk' hq hn, Or.inr rfl⟩)

theorem Dues.meet (hd : w.Dues q i h cs xs) (hw : w.Regular) (x : Incident) :
    (w.meet x).Dues q i (h ++ w.incidentDeeds q x) (cs ++ w.confirms i x) (xs ++ [x]) := by
  have fair := hd.fair.meets (hw.proper.shelves q) (meet_flow hw q x)
  obtain ⟨es, hl⟩ := hw.lived i
  cases x with
  | move m =>
    refine ⟨fair, fun k hk => named_move hw.proper hl m hd.named hk, fun hn => ?_,
      fun k hk hq n hn => hd.due_move hw m hk hq hn⟩
    have hn := unborn_before hw.proper hl m hn
    rw [Ledger.of_append, hd.unborn hn, incidentDeeds, unborn_silent hw.proper m hn]
    rfl
  | visit op =>
    refine ⟨fair, hd.named, fun hn => ?_, fun k hk hq n hn => ?_⟩
    · rw [incidentDeeds, List.append_nil]
      exact hd.unborn hn
    · rw [incidentDeeds, List.append_nil] at hn
      have hle : n ≤ (w.flow q).shelf.cursor := hd.fair.own_le hn
      exact (hd.due k hk hq n hn).imp (List.mem_append_left _)
        fun hdue => hdue.visit (hw.proper.shelves q) hle op

theorem Dues.through (hd : w.Dues q i h cs xs) (hw : w.Regular) (ys : List Incident) :
    (World.through ys w).Dues q i (h ++ tale q ys w) (cs ++ confirmed i ys w) (xs ++ ys) := by
  induction ys generalizing w h cs xs with
  | nil => simpa [tale, confirmed, World.through] using hd
  | cons y ys ih =>
    have hd' := ih (hd.meet hw y) (hw.meet y)
    simpa only [tale, confirmed, World.through, List.append_assoc, List.singleton_append] using hd'

end

theorem onStore_dues (view : StoreView) (ops : List Store.Op) (q : Queue) (i : Nat) :
    (onStore view ops).Dues q i [] [] [] where
  fair := onStore_fair view ops q
  named := by simp [onStore, start]
  unborn := fun _ => rfl
  due := by simp [onStore, start]

section
variable {w : World} {i : Nat}

theorem Gone.unconfirmed (hg : w.Gone i) (x : Incident) : w.confirms i x = [] := by
  unfold confirms
  split
  · next j =>
    split
    · next k hk =>
      split
      · next id rest hc => simp [hg.apart hk hc]
      · rfl
    · rfl
  · rfl

theorem Gone.confirmed (hg : w.Gone i) (hw : w.Regular) {xs : List Incident}
    (hx : ∀ x ∈ xs, x.callee? ≠ some i) : World.confirmed i xs w = [] := by
  induction xs generalizing w with
  | nil => rfl
  | cons x xs ih =>
    obtain ⟨hx, hxs⟩ := List.forall_mem_cons.mp hx
    rw [World.confirmed, hg.unconfirmed x, ih (hg.meet hw hx) (hw.meet x) hxs]
    rfl

end

section
variable {w : World} {q : Queue}

theorem visitorReads_beyond (hs : (w.store.shelf q).Sound) {x : Incident} {e : Entry}
    (he : e ∈ w.visitorReads q x) : ∃ n, e.id = entryId n ∧ (w.store.shelf q).cursor < n := by
  cases x with
  | move m => cases he
  | visit op =>
    have hx := Store.obey_notices q w.store op
    simp only [visitorReads] at he
    split at he
    · next consumer count es hn =>
      rw [hn] at hx
      generalize (w.store.obey op).shelf q = sh at hx
      cases hx with
      | handed count next hands =>
        obtain ⟨b, hb, rfl⟩ := List.mem_map.mp he
        exact ⟨b.1, rfl, (hands.between hs hb).1⟩
      | missed => cases he
    · cases he

/-- What was handed to a loop is not read by a visitor. -/
theorem handed_unread (hw : w.Regular) {h : List Deed} (hf : Fair h (w.flow q)) {id : String}
    (hid : id ∈ Ledger.handed h) (xs : List Incident) :
    id ∉ (visitorsRead q xs w).map Entry.id := by
  induction xs generalizing w h with
  | nil => exact List.not_mem_nil
  | cons x xs ih =>
    intro hm
    rw [visitorsRead, List.map_append, List.mem_append] at hm
    rcases hm with hm | hm
    · obtain ⟨e, he, rfl⟩ := List.mem_map.mp hm
      obtain ⟨n, hn, hlt⟩ := visitorReads_beyond (hw.proper.shelves q) he
      rw [hn] at hid
      exact absurd hlt (Nat.not_lt.mpr (hf.handed_le hid))
    · refine ih (hw.meet x) (hf.meets (hw.proper.shelves q) (meet_flow hw q x)) ?_ hm
      rw [Ledger.handed_append]
      exact List.mem_append_left _ hid

/-- A claim that names a pending entry returns it, unless it was trimmed. -/
theorem claim_returns {p : Nat × Fields} (hp : p ∈ (w.store.shelf q).entries)
    (hn : (Table.get? p.1 (w.store.shelf q).pending).isSome = true) (consumer : String)
    {ids : List String} (hid : p.1 ∈ ids.filterMap entryNumber?) :
    numbered p ∈ (w.store.claim q.stream q.group consumer ids).2 := by
  rw [(w.store.claim_gives q consumer ids).2]
  refine List.mem_flatMap.mpr ⟨p.1, hid, ?_⟩
  rw [if_pos hn]
  exact List.mem_map_of_mem (List.mem_filter.mpr ⟨hp, beq_self_eq_true p.1⟩)

end

structure Orphaned (v : World) (k : Worker) (xs : List Incident) (e : Entry) (n : Nat) : Prop where
  id : e.id = entryId n
  pending : (∀ op, .visit op ∈ xs → op.acks k.queue n = false ∧ op.claims k.queue n = false) →
    Table.get? n (v.store.pending k.settings.stream k.settings.group) =
      some ⟨k.settings.consumer, 1⟩
  claimed : (∀ op, .visit op ∈ xs → op.acks k.queue n = false) →
    e.id ∈ (v.store.entries k.settings.stream).map Entry.id →
    ∀ consumer ids, n ∈ ids.filterMap entryNumber? →
      e ∈ (v.store.claim k.settings.stream k.settings.group consumer ids).2

/-- What matters are the visitors that settle. -/
theorem Orphaned.of_settling {v : World} {k : Worker} {xs ys : List Incident} {e : Entry} {n : Nat}
    (ho : v.Orphaned k xs e n)
    (hx : ∀ op, .visit op ∈ xs → .visit op ∈ ys ∨ op.settles = false) : v.Orphaned k ys e n where
  id := ho.id
  pending hy := ho.pending fun op hop =>
    (hx op hop).elim (hy op) fun h => Store.Op.unsettled h k.queue n
  claimed hy := ho.claimed fun op hop =>
    (hx op hop).elim (hy op) fun h => (Store.Op.unsettled h k.queue n).1

theorem Dues.orphaned {w : World} {i : Nat} {k k' : Worker} {h : List Deed} {cs : List String}
    {xs : List Incident} (hd : w.Dues k.queue i h cs xs) (hk' : w.workers[i]? = some k')
    (hs : k'.settings = k.settings) {e : Entry} (he : e ∈ Ledger.handedOut (Ledger.of i h))
    (hc : e.id ∉ cs) : ∃ n, w.Orphaned k xs e n := by
  have hall : e ∈ Ledger.handedOut h := (Ledger.handedOut_of i h).subset he
  obtain ⟨n, hn⟩ := hd.fair.identified hall
  have hq : k'.queue = k.queue := congrArg StreamSettings.queue hs
  have hdue := (hd.due k' hk' hq n (hn ▸ List.mem_map_of_mem he)).resolve_left (hn ▸ hc)
  rw [hs] at hdue
  refine ⟨n, hn, fun hx => ?_, fun hx hstands consumer ids hid => ?_⟩
  · rcases hdue with ⟨op, hop, ha⟩ | ⟨p, hp, ⟨op, hop, ha⟩ | rfl⟩
    · cases ha.symm.trans (hx op hop).1
    · cases ha.symm.trans (hx op hop).2
    · exact hp
  · obtain ⟨x, hx', hxid⟩ := List.mem_map.mp hstands
    obtain ⟨p, hp, rfl⟩ := List.mem_map.mp hx'
    obtain rfl := hd.fair.unaltered e hall p hp hxid
    obtain rfl := entryId_injective hn
    rcases hdue with ⟨op, hop, ha⟩ | ⟨_, hpend, -⟩
    · cases ha.symm.trans (hx op hop)
    · exact claim_returns (q := k.queue) hp (by rw [hpend]; rfl) consumer hid

/-- In every run of workers on a store with any history, visitors included that neither
acknowledged nor claimed anything: once a worker is dropped that nobody shut down, after which
nobody can call it, its loop does nothing, as if it were left out, and whoever closes the store
is somebody else. No read returns again what the loop was handed. Each entry that it was handed
and the store did not take its acknowledgement for stays pending in the name of its consumer,
delivered once, and whoever claims it gets it until it is trimmed. -/
theorem dropped_orphans (view : StoreView) (ops : List Store.Op) (before after : List Incident)
    (m : Move) (i : Nat) {k : Worker}
    (unsettled : ∀ op, .visit op ∈ before → op.settles = false)
    (unshut : .move (.shutdown i) ∉ before)
    (drops : (through before (onStore view ops)).Drops i m)
    (worker : ((through before (onStore view ops)).move m).workers[i]? = some k)
    (uncalled : ∀ x ∈ after, x.callee? ≠ some i) :
    let w := through before (onStore view ops)
    let v := through after (w.move m)
    let h := tale k.queue (before ++ [.move m]) (onStore view ops)
    let later := tale k.queue after (w.move m)
    v = through (after.filter fun x => !x.loops i) (w.move m) ∧
    v.step (.loop i) = (v, .gone) ∧ v.inUse i = false ∧ Ledger.of i later = [] ∧
    (∀ pre x post, .move m :: after = pre ++ x :: post →
      ((through pre w).meet x).store.closed ≠ (through pre w).store.closed →
        (through pre w).ClosesBeside i x) ∧
    ∀ e ∈ Ledger.handedOut (Ledger.of i h),
      (∀ j, j ≠ i → e.id ∉ Ledger.handed (Ledger.of j (h ++ later))) ∧
      e.id ∉ Ledger.handed later ∧
      e.id ∉ (visitorsRead k.queue after (w.move m)).map Entry.id ∧
      (e.id ∉ confirmed i (before ++ [.move m]) (onStore view ops) →
        ∃ n, v.Orphaned k after e n) := by
  intro w v h later
  have hw₀ := onStore_regular view ops
  have hw : w.Regular := hw₀.through before
  have hw' : (w.move m).Regular := hw.move m
  have hgone : (w.move m).Gone i := drops.gone hw
  have hv : v.Gone i := hgone.through hw' uncalled
  have hto : through (before ++ [.move m]) (onStore view ops) = w.move m := through_append ..
  have hdues := (onStore_dues view ops k.queue i).through hw₀ (before ++ [.move m])
  rw [hto] at hdues
  simp only [List.nil_append] at hdues
  have hlast := hdues.through hw' after
  rw [hgone.confirmed hw' uncalled, List.append_nil] at hlast
  obtain ⟨k', hk', hs⟩ := hw'.worker_through after worker
  have hu : w.Unshut i := Unshut.through (fun n c hc => by cases hc) hw₀ unshut
  refine ⟨(hgone.without hw' uncalled).symm, step_idle hv.idle, hv.inUse (hw'.through after),
    hgone.untold hw' k.queue uncalled,
    fun pre x post hsplit hc => drops.closes hw hu uncalled hsplit hc, fun e he => ?_⟩
  have hid : e.id ∈ Ledger.handed h :=
    List.mem_map_of_mem ((Ledger.handedOut_of i h).subset he)
  have hown : e ∈ Ledger.handedOut (Ledger.of i (h ++ later)) := by
    rw [Ledger.of_append, Ledger.handedOut_append]
    exact List.mem_append_left _ he
  have hunread := handed_unread hw' hdues.fair hid after
  refine ⟨fun j hj hm => hj ?_, hlast.fair.once hid, hunread, fun hc => ?_⟩
  · exact (hlast.fair.alone (List.mem_map_of_mem hown) hm).symm
  · obtain ⟨n, ho⟩ := hlast.orphaned hk' hs hown hc
    refine ⟨n, ho.of_settling fun op hop => ?_⟩
    rcases List.mem_append.mp hop with hop | hop
    · rcases List.mem_append.mp hop with hop | hop
      · exact Or.inr (unsettled op hop)
      · cases List.mem_singleton.mp hop
    · exact Or.inl hop

def midBatch : List Incident := [
  .move (.create boundless (.scripted "none")),
  .move (.create { boundless with consumer := "second" } (.scripted "none")),
  .visit (.add "tasks" [("body", "first")] 0),
  .visit (.add "tasks" [("body", "second")] 0),
  .visit (.add "tasks" [("body", "third")] 0),
  .move (.request 0), .move (.step (.call 0)), .move (.step (.call 0)),
  .move (.step (.loop 0)), .move (.step (.loop 0)), .move (.step (.loop 0)),
  .move (.step (.call 0)), .move (.step (.loop 0)), .move (.step (.loop 0)),
  .move (.step (.loop 0)), .move (.failAcks 1),
  .move (.request 0), .move (.step (.call 1)), .move (.step (.call 1)), .move (.step (.call 1)),
  .move (.step (.loop 0)), .move (.step (.loop 0)), .move (.step (.loop 0))]

def takenOver : List Incident := [
  .visit (.add "tasks" [("body", "fourth")] 0), .move (.step (.loop 0)),
  .move (.request 1), .move (.step (.call 2)), .move (.step (.call 2)),
  .move (.step (.loop 1)), .move (.step (.loop 1)), .move (.step (.loop 1)),
  .move (.step (.call 2)), .move (.step (.loop 1)),
  .visit (.claim boundless.queue "third" ["2-0"])]

theorem mid_batch_orphans :
    let w₀ := onStore ⟨3, false⟩ []
    let w := through midBatch w₀
    let v := through takenOver (w.move (.letGo 0))
    let h := tale boundless.queue (midBatch ++ [.move (.letGo 0)]) w₀
    let later := tale boundless.queue takenOver (w.move (.letGo 0))
    (∀ op, .visit op ∈ midBatch → op.settles = false) ∧ .move (.shutdown 0) ∉ midBatch ∧
    w.Drops 0 (.letGo 0) ∧ (∀ x ∈ takenOver, x.callee? ≠ some 0) ∧
    Ledger.handed (Ledger.of 1 later) = ["4-0"] ∧
    Ledger.handed (Ledger.of 0 h) = ["1-0", "2-0", "3-0"] ∧
    confirmed 0 (midBatch ++ [.move (.letGo 0)]) w₀ = ["1-0"] ∧
    v.step (.loop 0) = (v, .gone) ∧ Ledger.of 0 later = [] ∧
    ∃ k, (w.move (.letGo 0)).workers[0]? = some k ∧
      ∀ e ∈ Ledger.handedOut (Ledger.of 0 h), e.id ∉ Ledger.handed later ∧
        e.id ∉ (visitorsRead boundless.queue takenOver (w.move (.letGo 0))).map Entry.id ∧
        (e.id ∉ confirmed 0 (midBatch ++ [.move (.letGo 0)]) w₀ →
          ∃ n, v.Orphaned k takenOver e n) := by
  intro w₀ w v h later
  have unsettled : ∀ op, .visit op ∈ midBatch → op.settles = false := by
    intro op hop
    simp only [midBatch, List.mem_cons, Incident.visit.injEq, reduceCtorEq, List.not_mem_nil,
      false_or, or_false] at hop
    rcases hop with rfl | rfl | rfl <;> rfl
  have unshut : .move (.shutdown 0) ∉ midBatch := by simp [midBatch]
  have drops : w.Drops 0 (.letGo 0) := by decide +kernel
  have uncalled : ∀ x ∈ takenOver, x.callee? ≠ some 0 := by decide
  have hq : (w.move (.letGo 0)).workers[0]?.map Worker.queue = some boundless.queue := by
    decide +kernel
  obtain ⟨k, hk, hkq⟩ := Option.map_eq_some_iff.mp hq
  obtain ⟨-, hgone, -, hsilent, -, hleft⟩ :=
    dropped_orphans ⟨3, false⟩ [] midBatch takenOver (.letGo 0) 0 unsettled unshut drops hk uncalled
  rw [hkq] at hsilent hleft
  exact ⟨unsettled, unshut, drops, uncalled, by decide +kernel, by decide +kernel,
    by decide +kernel, hgone, hsilent, k, hk, fun e he => (hleft e he).2⟩

end World

end TaskRelay
