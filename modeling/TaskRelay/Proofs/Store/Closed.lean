import TaskRelay.Proofs.Store.Hours

/-!
# A closed store

Nothing reopens a store. Once it is closed, every step that a call takes on it is a refusal, a
delayed addition's wait, or the report of a failure that the store was told of, and none of
them touches a stream: only claims do, and they change who holds what is pending, not what is
pending. A read that was suspended is told of the close and refused as soon as it goes on; an
addition is refused at the end of its delay. A second close is announced to nobody.
-/

set_option autoImplicit false

namespace TaskRelay

namespace Store

/-- A claim reads and changes the streams of a store and nothing else. -/
theorem claimOne_local (q : Queue) (consumer : String) (n : Nat) :
    ∃ (f : Table String StreamLog → Table String StreamLog)
      (g : Table String StreamLog → List Entry), ∀ s : Store,
        s.claimOne q.stream q.group consumer n =
          ({ s with streams := f s.streams }, g s.streams) := by
  refine ⟨fun t => (claimOne { empty with streams := t } q.stream q.group consumer n).1.streams,
    fun t => (claimOne { empty with streams := t } q.stream q.group consumer n).2, fun s => ?_⟩
  have hg : group? { empty with streams := s.streams } q.stream q.group =
    s.group? q.stream q.group := rfl
  simp only [claimOne, hg]
  cases s.group? q.stream q.group with
  | none => rfl
  | some g => cases hp : Table.get? n g.pending <;> simp only [hp, setGroup, setStream, stream]

theorem claim_local (q : Queue) (consumer : String) (ids : List String) :
    ∃ (f : Table String StreamLog → Table String StreamLog)
      (g : Table String StreamLog → List Entry), ∀ s : Store,
        s.claim q.stream q.group consumer ids =
          ({ s with streams := f s.streams }, g s.streams) := by
  have fold (ns : List Nat) :
      ∃ (f : Table String StreamLog → Table String StreamLog)
        (g : Table String StreamLog → List Entry), ∀ p : Store × List Entry,
          ns.foldl (claimNext q consumer) p =
            ({ p.1 with streams := f p.1.streams }, p.2 ++ g p.1.streams) := by
    induction ns with
    | nil => exact ⟨id, fun _ => [], fun p => by simp⟩
    | cons n ns ih =>
      obtain ⟨f, g, h⟩ := ih
      obtain ⟨f₁, g₁, h₁⟩ := claimOne_local q consumer n
      refine ⟨f ∘ f₁, fun t => g₁ t ++ g (f₁ t), fun p => ?_⟩
      rw [List.foldl_cons, claimNext, h₁, h]
      simp
  obtain ⟨f, g, h⟩ := fold (ids.filterMap entryNumber?)
  exact ⟨f, g, fun s => (h (s, [])).trans (by simp)⟩

end Store

structure Shelf.Frozen (sh sh' : Shelf) : Prop where
  entries : sh'.entries = sh.entries
  last : sh'.last = sh.last
  cursor : sh'.group.map Group.cursor = sh.group.map Group.cursor
  pending : ∀ n, (Table.get? n sh'.pending).isSome = (Table.get? n sh.pending).isSome

theorem Shelf.Frozen.refl (sh : Shelf) : sh.Frozen sh := ⟨rfl, rfl, rfl, fun _ => rfl⟩

theorem Shelf.Frozen.trans {sh sh' sh'' : Shelf} (h : sh.Frozen sh') (h' : sh'.Frozen sh'') :
    sh.Frozen sh'' :=
  ⟨h'.entries.trans h.entries, h'.last.trans h.last, h'.cursor.trans h.cursor,
    fun n => (h'.pending n).trans (h.pending n)⟩

theorem Shelf.give_frozen (consumer : String) (sh : Shelf) (n : Nat) :
    sh.Frozen (sh.give consumer n) := by
  refine ⟨rfl, rfl, ?_, fun m => by rw [give_pending, Option.isSome_map]⟩
  cases hg : sh.group with
  | none => simp [give, hg]
  | some g => cases hp : Table.get? n g.pending <;> simp [give, hg, Group.give, hp]

theorem Shelf.claim_frozen (consumer : String) (sh : Shelf) (ns : List Nat) :
    sh.Frozen (sh.claim consumer ns) := by
  induction ns generalizing sh with
  | nil => exact .refl sh
  | cons n ns ih => exact (sh.give_frozen consumer n).trans (ih _)

namespace Desk

def Move.claim? : Move → Option Store.Op
  | .chore (.claim q consumer ids) => some (.claim q consumer ids)
  | _ => none

/-- Claims alone leave every shelf frozen. -/
theorem claims_frozen (ms : List Move) (s : Store) (q : Queue) :
    (s.shelf q).Frozen ((Store.carryOut (ms.filterMap Move.claim?) s).shelf q) := by
  induction ms generalizing s with
  | nil => exact .refl _
  | cons m ms ih =>
    cases hm : m.claim? with
    | none =>
      rw [List.filterMap_cons_none hm]
      exact ih s
    | some op =>
      rw [List.filterMap_cons_some hm]
      refine Shelf.Frozen.trans ?_ (ih (s.obey op))
      cases m with
      | chore c =>
        cases c with
        | claim q' consumer ids =>
          cases hm
          have hc := (s.claim_gives q' consumer ids).1 q
          simp only [Store.obey]
          rw [hc]
          split
          · exact Shelf.claim_frozen consumer _ _
          · exact .refl _
        | close | delayAdds | failReads | failAcks => cases hm
      | ask | resume | drop | wait => cases hm

def Query.refusal : Query → Answer
  | .createGroup _ => .created (.error .closed)
  | .read .. => .read (.error .closed)
  | .ack .. => .acked (.error .closed)
  | .add .. => .added (.error .closed)

def Query.refused (now : Nat) (s : Store) (query : Query) : Store × Progress Rest Answer :=
  match query with
  | .createGroup _ => (s, .done query.refusal)
  | .read .. =>
    match s.failingReads with
    | n + 1 =>
      ({ s with failingReads := n }, .done (.read (.error (.connection "injected read failure"))))
    | 0 => (s, .done query.refusal)
  | .ack .. =>
    match s.failingAcks with
    | n + 1 =>
      ({ s with failingAcks := n }, .done (.acked (.error (.connection "injected ack failure"))))
    | 0 => (s, .done query.refusal)
  | .add stream fields maxLen =>
    (s, if 0 < s.addDelay then .waiting (.adding ⟨stream, fields, maxLen, now + s.addDelay⟩)
      else .done query.refusal)

def Rest.hour (t : Nat) : Rest → Nat
  | .reading _ => t
  | .adding a => a.due

section
variable {s : Store} {now : Nat}

theorem look_refused (hs : s.closed = true) (r : GroupRead) :
    s.look now r = (s, .done (.error .closed)) := by
  simp [Store.look, Store.deliver, hs]

theorem Addition.resume_refused (hs : s.closed = true) (a : Addition) :
    a.resume now s = (s, if now < a.due then .waiting a else .done (.error .closed)) := by
  unfold Addition.resume
  split
  · rfl
  · simp [Store.append, hs]

theorem Query.begin_closed (hs : s.closed = true) (query : Query) :
    query.begin now s = query.refused now s := by
  cases query with
  | createGroup q => simp [Query.begin, Query.refused, Query.refusal, Store.createGroup, hs]
  | read q consumer count block =>
    cases hf : s.failingReads with
    | zero =>
      simp [Query.begin, Query.refused, Query.refusal, Store.beginRead, hf, look_refused hs,
        Progress.within]
    | succ n => simp [Query.begin, Query.refused, Store.beginRead, hf, Progress.within]
  | ack q id =>
    cases hf : s.failingAcks <;>
      simp [Query.begin, Query.refused, Query.refusal, Store.ack, hf, hs]
  | add stream fields maxLen =>
    simp only [Query.begin, Query.refused, Query.refusal, Addition.resume_refused hs,
      Store.beginAdd, Nat.lt_add_right_iff_pos]
    split <;> rfl

/-- Going on with a call that waited when the store closed, or since. -/
theorem Rest.resume_closed (hs : s.closed = true) {query : Query} {rest : Rest}
    (hr : rest.Serves query) (hh : ∀ r, rest = .reading r → r.heard < s.announcements) {t : Nat}
    (ht : t ≤ now) :
    rest.resume now s =
      (s, if now < rest.hour t then .waiting rest else .done query.refusal) := by
  cases hr with
  | reading =>
    simp [Rest.resume, GroupRead.resume, hh _ rfl, look_refused hs, Progress.within, Rest.hour,
      Query.refusal, Nat.not_lt.mpr ht]
  | @adding stream fields maxLen due =>
    by_cases hd : now < due <;>
      simp [Rest.resume, Addition.resume_refused hs, Rest.hour, hd, Progress.within, Query.refusal]

end

inductive Act.Injected : Act → Prop
  | read {call : Nat} {q : Queue} {consumer : String} {count block n : Nat} {s : Store}
      (left : s.failingReads = n + 1) :
      Injected ⟨call, .read q consumer count block, s, { s with failingReads := n },
        some (.read (.error (.connection "injected read failure")))⟩
  | ack {call : Nat} {q : Queue} {id : String} {n : Nat} {s : Store}
      (left : s.failingAcks = n + 1) :
      Injected ⟨call, .ack q id, s, { s with failingAcks := n },
        some (.acked (.error (.connection "injected ack failure")))⟩

def Act.Declined (x : Act) : Prop :=
  x.after = x.before ∧ (∀ a ∈ x.answer, a = x.query.refusal) ∨ x.Injected

theorem Query.refused_declined (now call : Nat) (s : Store) (query : Query) :
    (⟨call, query, s, (query.refused now s).1,
      (query.refused now s).2.result?⟩ : Act).Declined := by
  cases query with
  | createGroup q => exact Or.inl ⟨rfl, by rintro a ⟨⟩; rfl⟩
  | read q consumer count block =>
    simp only [Query.refused]
    split
    · next n hn => exact Or.inr (.read hn)
    · exact Or.inl ⟨rfl, by rintro a ⟨⟩; rfl⟩
  | ack q id =>
    simp only [Query.refused]
    split
    · next n hn => exact Or.inr (.ack hn)
    · exact Or.inl ⟨rfl, by rintro a ⟨⟩; rfl⟩
  | add stream fields maxLen =>
    simp only [Query.refused]
    split
    · exact Or.inl ⟨rfl, by rintro a ⟨⟩⟩
    · exact Or.inl ⟨rfl, by rintro a ⟨⟩; rfl⟩

theorem Act.Declined.store {x : Act} (h : x.Declined) :
    x.after.streams = x.before.streams ∧ x.after.closed = x.before.closed := by
  rcases h with ⟨h, -⟩ | h
  · rw [h]
    exact ⟨rfl, rfl⟩
  · cases h <;> exact ⟨rfl, rfl⟩

structure Shut (t : Nat) (d : Desk) : Prop where
  orderly : d.Orderly
  closed : d.store.closed = true
  since : t ≤ d.now
  told : ∀ p ∈ d.waiting, ∀ r, p.2.2 = .reading r → r.heard < d.store.announcements

namespace Shut

variable {t : Nat} {d : Desk}

theorem begins (h : d.Shut t) (query : Query) :
    query.begin d.now d.store = query.refused d.now d.store := query.begin_closed h.closed

theorem resumes (h : d.Shut t) {id : Nat} {query : Query} {rest : Rest}
    (hw : Table.get? id d.waiting = some (query, rest)) :
    rest.resume d.now d.store =
      (d.store, if d.now < rest.hour t then .waiting rest else .done query.refusal) :=
  Rest.resume_closed h.closed (h.orderly.serves hw)
    (fun r hr => h.told _ (Table.mem_of_get? hw) r hr) h.since

/-- What a call has left when it has just taken a step is what it had left before, or an
addition. -/
theorem left (h : d.Shut t) {id : Nat} {query : Query} {rest rest' : Rest}
    (hw : Table.get? id d.waiting = some (query, rest))
    (hr : (rest.resume d.now d.store).2.rest? = some rest') : rest' = rest := by
  rw [h.resumes hw] at hr
  simp only at hr
  split at hr <;> cases hr
  rfl

/-- A read on a closed store does not fall asleep. -/
theorem asked (h : d.Shut t) {query : Query} {rest : Rest}
    (hr : (query.begin d.now d.store).2.rest? = some rest) : ∃ a, rest = .adding a := by
  rw [h.begins] at hr
  cases query with
  | createGroup q => cases hr
  | read | ack =>
    simp only [Query.refused] at hr
    split at hr <;> cases hr
  | add =>
    simp only [Query.refused] at hr
    split at hr <;> cases hr
    exact ⟨_, rfl⟩

theorem newest (h : d.Shut t) (m : Move) : ∀ x ∈ d.newest m, x.Declined ∧ x.before = d.store := by
  intro x hx
  cases m with
  | ask query =>
    rw [newest_ask, h.begins, List.mem_singleton] at hx
    rw [hx]
    exact ⟨query.refused_declined _ _ _, rfl⟩
  | resume id =>
    cases hw : Table.get? id d.waiting with
    | none =>
      rw [newest_resume_none hw] at hx
      cases hx
    | some p =>
      rw [newest_resume hw, h.resumes hw, List.mem_singleton] at hx
      rw [hx]
      refine ⟨Or.inl ⟨rfl, fun a ha => ?_⟩, rfl⟩
      simp only at ha
      split at ha <;> cases ha
      rfl
  | drop id | chore c | wait n =>
    rw [newest_silent d rfl] at hx
    cases hx

theorem move_store (h : d.Shut t) (m : Move) :
    (d.move m).store.closed = true ∧
      (d.move m).store.streams = (Store.carryOut m.claim?.toList d.store).streams := by
  cases m with
  | ask query =>
    have hd := (query.refused_declined d.now d.next d.store).store
    simp only [Desk.move, record_store, h.begins]
    exact ⟨hd.2.trans h.closed, hd.1⟩
  | resume id =>
    cases hw : Table.get? id d.waiting with
    | none =>
      simp only [Desk.move, hw]
      exact ⟨h.closed, rfl⟩
    | some p =>
      simp only [Desk.move, hw, record_store, h.resumes hw]
      exact ⟨h.closed, rfl⟩
  | drop id | wait n => exact ⟨h.closed, rfl⟩
  | chore c =>
    cases c with
    | claim q consumer ids =>
      obtain ⟨f, g, hc⟩ := Store.claim_local q consumer ids
      refine ⟨?_, rfl⟩
      change (d.store.claim q.stream q.group consumer ids).1.closed = true
      rw [hc]
      exact h.closed
    | close => exact ⟨rfl, rfl⟩
    | delayAdds | failReads | failAcks => exact ⟨h.closed, rfl⟩

theorem move (h : d.Shut t) (m : Move) : (d.move m).Shut t := by
  refine ⟨h.orderly.move m, (h.move_store m).1, ?_, fun p hp r hr => ?_⟩
  · have hs := h.since
    rcases d.move_now m with hm | ⟨n, -, hm⟩ <;> omega
  · refine Nat.lt_of_lt_of_le ?_ (h.orderly.counted m)
    cases move_stays hp with
    | still mem => exact h.told p mem r hr
    | asked eq waits =>
      subst eq
      obtain ⟨a, rfl⟩ := h.asked waits
      cases hr
    | resumed eq found waits =>
      subst eq
      rw [h.left found waits] at hr
      exact h.told _ (Table.mem_of_get? found) r hr

theorem run (h : d.Shut t) (ms : List Move) : (run ms d).Shut t := by
  induction ms generalizing d with
  | nil => exact h
  | cons m ms ih => exact ih (h.move m)

end Shut

/-- What claims make of the streams depends on the streams alone. -/
theorem claims_local (ms : List Move) {s s' : Store} (h : s.streams = s'.streams) :
    (Store.carryOut (ms.filterMap Move.claim?) s).streams =
      (Store.carryOut (ms.filterMap Move.claim?) s').streams := by
  induction ms generalizing s s' with
  | nil => exact h
  | cons m ms ih =>
    cases hm : m.claim? with
    | none =>
      rw [List.filterMap_cons_none hm]
      exact ih h
    | some op =>
      rw [List.filterMap_cons_some hm]
      refine ih ?_
      cases m with
      | chore c =>
        cases c with
        | claim q consumer ids =>
          cases hm
          obtain ⟨f, g, hc⟩ := Store.claim_local q consumer ids
          simp only [Store.obey, hc, h]
        | close | delayAdds | failReads | failAcks => cases hm
      | ask | resume | drop | wait => cases hm

/-- Every read that is suspended has the close still to hear of. -/
theorem close_shut (pre : List Move) :
    ((run pre start).move (.chore .close)).Shut (run pre start).now :=
  ⟨(run_orderly pre start_orderly).move _, rfl, Nat.le_refl _, fun p hm r hr =>
    Nat.lt_succ_of_le (run_attentive pre start_attentive start_orderly p hm r hr)⟩

section
variable {t : Nat} {d : Desk}

theorem Shut.run_streams (h : d.Shut t) (ms : List Move) : (Desk.run ms d).store.streams =
    (Store.carryOut (ms.filterMap Move.claim?) d.store).streams := by
  induction ms generalizing d with
  | nil => rfl
  | cons m ms ih =>
    rw [Desk.run, ih (h.move m), claims_local ms (h.move_store m).2]
    cases hm : m.claim? with
    | none =>
      rw [List.filterMap_cons_none hm]
      rfl
    | some op =>
      rw [List.filterMap_cons_some hm]
      rfl

theorem Shut.run_frozen (h : d.Shut t) (ms : List Move) (q : Queue) :
    (d.store.shelf q).Frozen ((Desk.run ms d).store.shelf q) := by
  have hq : (Desk.run ms d).store.shelf q =
      (Store.carryOut (ms.filterMap Move.claim?) d.store).shelf q := by
    simp only [Store.shelf, Store.group?, Store.stream, h.run_streams ms]
  rw [hq]
  exact claims_frozen ms d.store q

theorem Shut.timed_declined (h : d.Shut t) (ms : List Move) : ∀ p ∈ timed ms d, p.2.Declined := by
  induction ms generalizing d with
  | nil => rintro p ⟨⟩
  | cons m ms ih =>
    intro p hp
    rcases List.mem_append.mp hp with hp | hp
    · obtain ⟨x, hx, rfl⟩ := List.mem_map.mp hp
      exact (h.newest m x hx).1
    · exact ih (h.move m) p hp

def OnTime (t : Nat) (d : Desk) : Prop := ∀ p ∈ d.waiting, d.now ≤ p.2.2.hour t

theorem close_onTime {pre : List Move} (ht : Timely pre start) :
    ((run pre start).move (.chore .close)).OnTime (run pre start).now := by
  rintro ⟨i, query, r | a⟩ hm
  · exact Nat.le_refl _
  · exact run_punctual pre start_punctual ht _ hm a rfl

theorem OnTime.move (ho : d.OnTime t) (h : d.Shut t) {m : Move} (hm : d.TimelyMove m) :
    (d.move m).OnTime t := by
  intro p hp
  rcases d.move_now m with hn | ⟨n, rfl, hn⟩
  · rw [hn]
    cases move_stays hp with
    | still mem => exact ho p mem
    | asked eq waits =>
      subst eq
      obtain ⟨a, rfl⟩ := h.asked waits
      exact Nat.le_of_lt ((Query.begin_waits waits).2 a rfl)
    | resumed eq found waits =>
      subst eq
      rw [h.left found waits]
      exact ho _ (Table.mem_of_get? found)
  · obtain ⟨hw, hd⟩ := hm p hp
    obtain ⟨id, query, r | a⟩ := p
    · -- the read was told of the close, so time does not pass
      have hl := h.told _ hp r rfl
      simp [Rest.woken, GroupRead.woken, hl] at hw
    · exact hd

theorem Shut.appointed (h : d.Shut t) {id : Nat} {query : Query} {rest : Rest}
    (hw : Table.get? id d.waiting = some (query, rest)) : d.Appointed id query rest :=
  ⟨h.orderly.known hw, fun p hp => by rw [hw] at hp; cases hp; rfl⟩

theorem Shut.move_appointed (h : d.Shut t) {id : Nat} {query : Query} {rest : Rest}
    (ha : d.Appointed id query rest) (m : Move) : (d.move m).Appointed id query rest :=
  ha.move (fun hw _ hr => h.left hw hr) m

/-- A call that waits on a closed store is refused, and not before its hour. -/
theorem Shut.refuses (h : d.Shut t) {id : Nat} {query : Query} {rest : Rest}
    (ha : d.Appointed id query rest) (ms : List Move) :
    ∀ p ∈ timed ms d, p.2.call = id →
      ∀ a ∈ p.2.answer, a = query.refusal ∧ rest.hour t ≤ p.1 := by
  induction ms generalizing d with
  | nil => rintro p ⟨⟩
  | cons m ms ih =>
    intro p hp hc a hx
    rcases List.mem_append.mp hp with hp | hp
    · obtain ⟨x, hn, rfl⟩ := List.mem_map.mp hp
      obtain ⟨hw, he⟩ := ha.newest hn hc
      rw [he, h.resumes hw] at hx
      simp only at hx
      split at hx
      · cases hx
      · next hl =>
        cases hx
        exact ⟨rfl, Nat.le_of_not_lt hl⟩
    · exact ih (h.move m) (h.move_appointed ha m) p hp hc a hx

theorem Shut.run_timely (h : d.Shut t) (ho : d.OnTime t) (ms : List Move) (hm : Timely ms d) :
    (Desk.run ms d).OnTime t := by
  induction ms generalizing d with
  | nil => exact ho
  | cons m ms ih => exact ih (h.move m) (ho.move h hm.1) hm.2

theorem Shut.in_time (h : d.Shut t) (ho : d.OnTime t) {id : Nat} {query : Query} {rest : Rest}
    (ha : d.Appointed id query rest) (ms : List Move) (hm : Timely ms d) :
    ∀ p ∈ timed ms d, p.2.call = id → p.1 ≤ rest.hour t := by
  induction ms generalizing d with
  | nil => rintro p ⟨⟩
  | cons m ms ih =>
    intro p hp hc
    rcases List.mem_append.mp hp with hp | hp
    · obtain ⟨x, hn, rfl⟩ := List.mem_map.mp hp
      exact ho _ (Table.mem_of_get? (ha.newest hn hc).1)
    · exact ih (h.move m) (ho.move h hm.1) (h.move_appointed ha m) hm.2 p hp hc

end

def again (s : Store) : Store := { s with announcements := s.announcements + 1 }

def told (ms : List Move) (d : Desk) : List (Nat × Nat × Query × Option Answer) :=
  (timed ms d).map fun p => (p.1, p.2.call, p.2.query, p.2.answer)

structure Twin (d d' : Desk) : Prop where
  store : d'.store = again d.store
  now : d'.now = d.now
  waiting : d'.waiting = d.waiting
  next : d'.next = d.next

theorem Query.refused_again (now : Nat) (s : Store) (query : Query) :
    query.refused now (again s) =
      (again (query.refused now s).1, (query.refused now s).2) := by
  cases query with
  | createGroup q => rfl
  | read q consumer count block => cases hf : s.failingReads <;> simp [refused, again, hf]
  | ack q id => cases hf : s.failingAcks <;> simp [refused, again, hf]
  | add stream fields maxLen => rfl

theorem obey_again (s : Store) (c : Chore) : (again s).obey c.op = again (s.obey c.op) := by
  cases c with
  | claim q consumer ids =>
    obtain ⟨f, g, hc⟩ := Store.claim_local q consumer ids
    simp only [Chore.op, Store.obey, hc, again]
  | close | delayAdds | failReads | failAcks => rfl

theorem record_twin {d d' : Desk} (h : d.Twin d') (id : Nat) (query : Query)
    (r : Store × Progress Rest Answer) :
    (d.record id query r).Twin (d'.record id query (again r.1, r.2)) := by
  refine ⟨by rw [record_store, record_store], by rw [record_now, record_now]; exact h.now, ?_,
    by rw [record_next, record_next]; exact h.next⟩
  rw [record_waiting, record_waiting]
  simp only [h.waiting]

section
variable {t : Nat} {d d' : Desk}

theorem Twin.begins (h : d.Shut t) (ht : d.Twin d') (query : Query) :
    query.begin d'.now d'.store = (again (query.begin d.now d.store).1,
      (query.begin d.now d.store).2) := by
  have hc : d'.store.closed = true := by
    rw [ht.store]
    exact h.closed
  rw [query.begin_closed hc, h.begins, ht.store, ht.now, Query.refused_again]

theorem Twin.resumes (h : d.Shut t) (ht : d.Twin d') {id : Nat} {query : Query} {rest : Rest}
    (hw : Table.get? id d.waiting = some (query, rest)) :
    rest.resume d'.now d'.store = (again (rest.resume d.now d.store).1,
      (rest.resume d.now d.store).2) := by
  have hc : (again d.store).closed = true := h.closed
  rw [h.resumes hw, ht.store, ht.now]
  exact Rest.resume_closed hc (h.orderly.serves hw)
    (fun r hr => Nat.lt_succ_of_lt (h.told _ (Table.mem_of_get? hw) r hr)) h.since

theorem Twin.move (h : d.Shut t) (ht : d.Twin d') (m : Move) :
    (d.move m).Twin (d'.move m) ∧ told [m] d' = told [m] d := by
  cases m with
  | ask query =>
    have hb := ht.begins h query
    constructor
    · have hn : Twin { d with next := d.next + 1 } { d' with next := d.next + 1 } :=
        ⟨ht.store, ht.now, ht.waiting, rfl⟩
      simp only [Desk.move, hb, ht.next]
      exact record_twin hn _ _ _
    · simp only [told, timed, newest_ask, hb]
      simp [ht.next, ht.now]
  | resume id =>
    cases hw : Table.get? id d.waiting with
    | none =>
      have hw' : Table.get? id d'.waiting = none := by rw [ht.waiting, hw]
      simp only [Desk.move, hw, hw', told, timed, newest_resume_none hw, newest_resume_none hw']
      exact ⟨ht, rfl⟩
    | some p =>
      have hw' : Table.get? id d'.waiting = some p := by rw [ht.waiting, hw]
      have hr := ht.resumes h hw
      constructor
      · simp only [Desk.move, hw, hw', hr]
        exact record_twin ht _ _ _
      · simp only [told, timed, newest_resume hw, newest_resume hw', hr]
        simp [ht.now]
  | drop id =>
    exact ⟨⟨ht.store, ht.now, congrArg (Table.erase id) ht.waiting, ht.next⟩,
      by simp [told, timed, newest_silent _ (m := .drop id) rfl]⟩
  | chore c =>
    refine ⟨⟨?_, ht.now, ht.waiting, ht.next⟩,
      by simp [told, timed, newest_silent _ (m := .chore c) rfl]⟩
    change d'.store.obey c.op = again (d.store.obey c.op)
    rw [ht.store, obey_again]
  | wait n =>
    exact ⟨⟨ht.store, congrArg (· + n) ht.now, ht.waiting, ht.next⟩,
      by simp [told, timed, newest_silent _ (m := .wait n) rfl]⟩

/-- A second close is one more announcement. -/
theorem Shut.twin (h : d.Shut t) : d.Twin (d.move (.chore .close)) := by
  refine ⟨?_, rfl, rfl, rfl⟩
  change d.store.close = again d.store
  simp only [Store.close, again, ← h.closed]

theorem Twin.run (h : d.Shut t) (ht : d.Twin d') (ms : List Move) :
    (Desk.run ms d).Twin (Desk.run ms d') ∧ told ms d' = told ms d := by
  induction ms generalizing d d' with
  | nil => exact ⟨ht, rfl⟩
  | cons m ms ih =>
    obtain ⟨hm, hn⟩ := ht.move h m
    obtain ⟨hr, hs⟩ := ih (h.move m) hm
    refine ⟨hr, ?_⟩
    have split (e : Desk) : told (m :: ms) e = told [m] e ++ told ms (e.move m) := by
      simp [told, timed]
    rw [split, split, hn, hs]

end

/-- Once a store is closed it stays closed, and of all that is done to it only claims change its
streams, and no entry, counter, cursor or pending number by them. Every step of a call is
refused, or waits, or reports a failure that the store was told of. A call that waits, since
before the close or not, is refused when it goes on: a read from the close on, so at that very
time on a virtual clock, and an addition when its delay is over. A second close is one more
announcement, and no call can tell. -/
theorem closed_for_good (pre mid post : List Move) :
    let c := (run pre start).move (.chore .close)
    let d := run mid c
    d.store.closed = true ∧
    d.store.streams = (Store.carryOut (mid.filterMap Move.claim?) c.store).streams ∧
    (∀ q, (c.store.shelf q).Frozen (d.store.shelf q)) ∧
    (∀ p ∈ timed mid c, p.2.Declined) ∧
    (∀ query : Query, query.begin d.now d.store = query.refused d.now d.store) ∧
    (∀ id query rest, Table.get? id d.waiting = some (query, rest) →
      (d.newest (.resume id) = [⟨id, query, d.store, d.store,
        if d.now < rest.hour c.now then none else some query.refusal⟩]) ∧
      (∀ p ∈ timed post d, p.2.call = id →
        ∀ a ∈ p.2.answer, a = query.refusal ∧ rest.hour c.now ≤ p.1) ∧
      (Timely (pre ++ .chore .close :: (mid ++ post)) start →
        d.now ≤ rest.hour c.now ∧
        ∀ p ∈ timed post d, p.2.call = id → ∀ a ∈ p.2.answer, p.1 = rest.hour c.now)) ∧
    (∀ before later stream fields maxLen rest,
      pre ++ .chore .close :: mid = before ++ .ask (.add stream fields maxLen) :: later →
      Table.get? (run before start).next d.waiting = some (.add stream fields maxLen, rest) →
      rest = .adding ⟨stream, fields, maxLen,
        (run before start).now + (run before start).store.addDelay⟩) ∧
    (run post (d.move (.chore .close))).store = again (run post d).store ∧
    (run post (d.move (.chore .close))).waiting = (run post d).waiting ∧
    told post (d.move (.chore .close)) = told post d := by
  intro c d
  have hc : c.Shut c.now := close_shut pre
  have hd : d.Shut c.now := hc.run mid
  refine ⟨hd.closed, hc.run_streams mid, hc.run_frozen mid, hc.timed_declined mid, hd.begins,
    fun id query rest hw => ?_, ?_, ?_⟩
  · have ha := hd.appointed hw
    refine ⟨?_, hd.refuses ha post, fun ht => ?_⟩
    · rw [newest_resume hw, hd.resumes hw]
      simp only
      split <;> rfl
    · rw [timely_append] at ht
      obtain ⟨hpre, -, hlater⟩ := ht
      obtain ⟨hmid, hpost⟩ := (timely_append mid post c).mp hlater
      have hond : d.OnTime c.now := hc.run_timely (close_onTime hpre) mid hmid
      refine ⟨hond _ (Table.mem_of_get? hw), fun p hp hx a hpa => ?_⟩
      exact Nat.le_antisymm (hd.in_time hond ha post hpost p hp hx)
        (hd.refuses ha post p hp hx a hpa).2
  · rintro before later stream fields maxLen rest hms hw
    have hd' : run (pre ++ .chore .close :: mid) start = d := run_append pre _ start
    rw [hms, run_append] at hd'
    have ha := (asked_appointed (run before start) stream fields maxLen later).kept
    rw [← hd'] at hw
    cases ha _ hw
    rfl
  · obtain ⟨hr, hn⟩ := hd.twin.run hd post
    exact ⟨hr.store, hr.waiting, hn⟩

def interrupted : List Move :=
  [.ask (.createGroup ⟨"s", "g"⟩), .ask (.read ⟨"s", "g"⟩ "a" 1 100), .chore (.delayAdds 30),
    .ask (.add "s" [("body", "x")] 0), .chore (.failReads 1), .wait 10]

def closing : Desk := (run interrupted start).move (.chore .close)

def aftermath : List Move :=
  [.ask (.read ⟨"s", "g"⟩ "b" 1 100), .resume 1, .resume 2, .wait 20, .resume 2]

theorem interrupted_refused :
    Timely (interrupted ++ .chore .close :: ([] ++ aftermath)) start ∧
    (timed aftermath closing).map (fun p => (p.1, p.2.call, p.2.answer.isSome)) =
      [(10, 3, true), (10, 1, true), (10, 2, false), (30, 2, true)] ∧
    (∀ p ∈ timed aftermath closing, p.2.call = 1 → ∀ a ∈ p.2.answer, p.1 = 10) ∧
    ∀ p ∈ timed aftermath closing, p.2.call = 2 → ∀ a ∈ p.2.answer, p.1 = 30 := by
  have ht : Timely (interrupted ++ .chore .close :: ([] ++ aftermath)) start := by decide
  obtain ⟨-, -, -, -, -, waits, -⟩ := closed_for_good interrupted [] aftermath
  exact ⟨ht, rfl, ((waits 1 _ _ rfl).2.2 ht).2, ((waits 2 _ _ rfl).2.2 ht).2⟩

end Desk
end TaskRelay
