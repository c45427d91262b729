import TaskRelay.Proofs.Store.Atomic
import TaskRelay.Proofs.Store.Readers

/-!
# The hours of calls

A run tells each step of a call with its time. An addition waits until the delay is over that
was set when it was called, and a read has heard no announcement that was not made. On a
virtual clock, which stands still while a call can go on and passes no deadline of a call that
waits, no addition is overdue.
-/

set_option autoImplicit false

namespace TaskRelay

namespace Progress

variable {σ α : Type}

def rest? : Progress σ α → Option σ
  | .running s | .waiting s => some s
  | .done _ => none

def result? : Progress σ α → Option α
  | .running _ | .waiting _ => none
  | .done a => some a

end Progress

namespace Desk

def newest (d : Desk) (m : Move) : List Act := (d.move m).acts.drop d.acts.length

def timed : List Move → Desk → List (Nat × Act)
  | [], _ => []
  | m :: ms, d => (d.newest m).map (d.now, ·) ++ timed ms (d.move m)

def Rest.woken (now : Nat) (s : Store) : Rest → Bool
  | .reading r => r.woken now s
  | .adding a => a.woken now

def Rest.deadline : Rest → Nat
  | .reading r => r.deadline
  | .adding a => a.due

def TimelyMove (d : Desk) : Move → Prop
  | .wait n => ∀ p ∈ d.waiting,
    p.2.2.woken d.now d.store = false ∧ d.now + n ≤ p.2.2.deadline
  | _ => True

instance (d : Desk) (m : Move) : Decidable (d.TimelyMove m) := by
  cases m <;> unfold TimelyMove <;> infer_instance

def Timely : List Move → Desk → Prop
  | [], _ => True
  | m :: ms, d => d.TimelyMove m ∧ Timely ms (d.move m)

instance decidableTimely : (ms : List Move) → (d : Desk) → Decidable (Timely ms d)
  | [], _ => .isTrue trivial
  | m :: ms, d => @instDecidableAnd _ _ inferInstance (decidableTimely ms (d.move m))

theorem timely_append (ms ms' : List Move) (d : Desk) :
    Timely (ms ++ ms') d ↔ Timely ms d ∧ Timely ms' (run ms d) := by
  induction ms generalizing d with
  | nil => simp [Timely, run]
  | cons m ms ih => simp [Timely, run, ih, and_assoc]

section
variable (d : Desk) (id : Nat) (query : Query) (r : Store × Progress Rest Answer)

theorem record_store : (d.record id query r).store = r.1 := by
  obtain ⟨s, p | p | a⟩ := r <;> rfl

theorem record_now : (d.record id query r).now = d.now := by
  obtain ⟨s, p | p | a⟩ := r <;> rfl

theorem record_next : (d.record id query r).next = d.next := by
  obtain ⟨s, p | p | a⟩ := r <;> rfl

theorem record_acts : (d.record id query r).acts =
    d.acts ++ [⟨id, query, d.store, r.1, r.2.result?⟩] := by
  obtain ⟨s, p | p | a⟩ := r <;> rfl

theorem record_waiting : (d.record id query r).waiting =
    match r.2.rest? with
    | some rest => Table.insert id (query, rest) d.waiting
    | none => Table.erase id d.waiting := by
  obtain ⟨s, p | p | a⟩ := r <;> rfl

theorem get_record_self :
    Table.get? id (d.record id query r).waiting = r.2.rest?.map (query, ·) := by
  rw [record_waiting]
  cases r.2.rest? with
  | none => exact Table.get?_erase_self _ _
  | some rest => exact Table.get?_insert_self _ _ _

theorem get_record_of_ne {i : Nat} (h : i ≠ id) :
    Table.get? i (d.record id query r).waiting = Table.get? i d.waiting := by
  rw [record_waiting]
  cases r.2.rest? with
  | none => exact Table.get?_erase_of_ne h _
  | some rest => exact Table.get?_insert_of_ne h _ _

/-- Whoever waits after a step waited before, or took that step. -/
theorem mem_record {p : Nat × Query × Rest} (h : p ∈ (d.record id query r).waiting) :
    p ∈ d.waiting ∨ ∃ rest, r.2.rest? = some rest ∧ p = (id, query, rest) := by
  rw [record_waiting] at h
  cases hr : r.2.rest? with
  | none =>
    rw [hr] at h
    exact Or.inl ((Table.erase_sublist id _).subset h)
  | some rest =>
    rw [hr] at h
    rcases Table.mem_insert h with rfl | h
    · exact Or.inr ⟨rest, rfl, rfl⟩
    · exact Or.inl h

end

theorem newest_ask (d : Desk) (query : Query) : d.newest (.ask query) =
    [⟨d.next, query, d.store, (query.begin d.now d.store).1,
      (query.begin d.now d.store).2.result?⟩] := by
  simp [newest, move, record_acts]

theorem newest_resume {d : Desk} {id : Nat} {query : Query} {rest : Rest}
    (h : Table.get? id d.waiting = some (query, rest)) : d.newest (.resume id) =
      [⟨id, query, d.store, (rest.resume d.now d.store).1,
        (rest.resume d.now d.store).2.result?⟩] := by
  simp [newest, move, h, record_acts]

theorem newest_resume_none {d : Desk} {id : Nat} (h : Table.get? id d.waiting = none) :
    d.newest (.resume id) = [] := by
  simp [newest, move, h]

theorem newest_silent (d : Desk) {m : Move} (h : (d.move m).acts = d.acts) : d.newest m = [] := by
  simp [newest, h]

/-- Steps are taken by the call that is asked next and by those that wait. -/
theorem newest_called {d : Desk} {m : Move} {x : Act} (hx : x ∈ d.newest m) :
    x.call = d.next ∨ ∃ query rest, Table.get? x.call d.waiting = some (query, rest) ∧
      x = ⟨x.call, query, d.store, (rest.resume d.now d.store).1,
        (rest.resume d.now d.store).2.result?⟩ := by
  cases m with
  | ask query =>
    rw [newest_ask, List.mem_singleton] at hx
    rw [hx]
    exact Or.inl rfl
  | resume id =>
    cases hw : Table.get? id d.waiting with
    | none =>
      rw [newest_resume_none hw] at hx
      cases hx
    | some p =>
      rw [newest_resume hw, List.mem_singleton] at hx
      rw [hx]
      exact Or.inr ⟨_, _, hw, rfl⟩
  | drop id | chore c | wait n =>
    rw [newest_silent d rfl] at hx
    cases hx

/-- The record of a run is made of what its moves put there. -/
theorem run_acts (ms : List Move) (d : Desk) :
    (run ms d).acts = d.acts ++ (timed ms d).map Prod.snd := by
  induction ms generalizing d with
  | nil => simp [run, timed]
  | cons m ms ih =>
    have hm : (d.move m).acts = d.acts ++ d.newest m := by
      cases m with
      | ask query => simp [newest, move, record_acts]
      | resume id =>
        cases hw : Table.get? id d.waiting with
        | none => simp [newest, move, hw]
        | some p => simp [newest, move, hw, record_acts]
      | drop id | chore c | wait n => simp [newest, move]
    have ht : ((d.newest m).map (d.now, ·)).map Prod.snd = d.newest m := by simp
    rw [run, timed, ih, hm, List.map_append, ht, List.append_assoc]

section
variable {s : Store} {now : Nat} {a : Addition}

theorem Rest.resume_early (h : now < a.due) :
    (Rest.adding a).resume now s = (s, .waiting (.adding a)) := by
  simp [Rest.resume, Addition.resume, h, Progress.within]

theorem Rest.resume_due (h : a.due ≤ now) :
    ((Rest.adding a).resume now s).2.rest? = none := by
  simp only [Rest.resume, Addition.resume, Nat.not_lt.mpr h, if_false]
  split <;> rfl

/-- An addition that waits after a step is the same addition. -/
theorem Rest.resume_adding {rest : Rest}
    (h : ((Rest.adding a).resume now s).2.rest? = some rest) : rest = .adding a ∧ now < a.due := by
  by_cases hd : now < a.due
  · rw [resume_early hd] at h
    cases h
    exact ⟨rfl, hd⟩
  · rw [resume_due (Nat.le_of_not_lt hd)] at h
    cases h

theorem Query.begin_adding {stream : String} {fields : Fields} {maxLen : Nat} {rest : Rest}
    (h : ((Query.add stream fields maxLen).begin now s).2.rest? = some rest) :
    rest = .adding ⟨stream, fields, maxLen, now + s.addDelay⟩ ∧ now < now + s.addDelay :=
  Rest.resume_adding (a := ⟨stream, fields, maxLen, now + s.addDelay⟩) h

end

structure Appointed (id : Nat) (query : Query) (rest : Rest) (d : Desk) : Prop where
  known : id < d.next
  kept : ∀ p, Table.get? id d.waiting = some p → p = (query, rest)

theorem Appointed.move {id : Nat} {query : Query} {rest : Rest} {d : Desk}
    (h : d.Appointed id query rest)
    (hr : Table.get? id d.waiting = some (query, rest) →
      ∀ rest', (rest.resume d.now d.store).2.rest? = some rest' → rest' = rest) (m : Move) :
    (d.move m).Appointed id query rest := by
  have other {n i : Nat} (hi : id ≠ i) (hn : id < n) (query' : Query)
      (r : Store × Progress Rest Answer) :
      ({ d with next := n }.record i query' r).Appointed id query rest :=
    ⟨by rwa [record_next], fun p hp => h.kept p (by rwa [get_record_of_ne _ _ _ _ hi] at hp)⟩
  cases m with
  | ask query' => exact other (Nat.ne_of_lt h.known) (Nat.lt_succ_of_lt h.known) query' _
  | resume i =>
    cases hw : Table.get? i d.waiting with
    | none => simpa only [Desk.move, hw] using h
    | some p =>
      simp only [Desk.move, hw]
      by_cases hi : id = i
      · subst hi
        cases h.kept p hw
        refine ⟨by rw [record_next]; exact h.known, fun p hp => ?_⟩
        rw [get_record_self, Option.map_eq_some_iff] at hp
        obtain ⟨rest', hr', rfl⟩ := hp
        rw [hr hw rest' hr']
      · exact other (n := d.next) hi h.known p.1 _
  | drop i => exact ⟨h.known, fun p hp => h.kept p (Table.get?_of_erase hp)⟩
  | chore c => exact ⟨h.known, h.kept⟩
  | wait n => exact ⟨h.known, h.kept⟩

/-- A step of a call that has kept what is left of it. -/
theorem Appointed.newest {id : Nat} {query : Query} {rest : Rest} {d : Desk}
    (h : d.Appointed id query rest) {m : Move} {x : Act} (hx : x ∈ d.newest m) (hc : x.call = id) :
    Table.get? id d.waiting = some (query, rest) ∧
      x = ⟨id, query, d.store, (rest.resume d.now d.store).1,
        (rest.resume d.now d.store).2.result?⟩ := by
  rcases newest_called hx with hn | ⟨query', rest', hw, he⟩
  · exact absurd (hc.symm.trans hn) (Nat.ne_of_lt h.known)
  · rw [hc] at hw he
    cases h.kept _ hw
    exact ⟨hw, he⟩

/-- An addition is due when the delay is over that was set when it was called. -/
theorem asked_appointed (d : Desk) (stream : String) (fields : Fields) (maxLen : Nat)
    (ms : List Move) :
    (run ms (d.move (.ask (.add stream fields maxLen)))).Appointed d.next
      (.add stream fields maxLen) (.adding ⟨stream, fields, maxLen, d.now + d.store.addDelay⟩) := by
  have hd : (d.move (.ask (.add stream fields maxLen))).Appointed d.next
      (.add stream fields maxLen)
      (.adding ⟨stream, fields, maxLen, d.now + d.store.addDelay⟩) := by
    refine ⟨by rw [move, record_next]; exact Nat.lt_succ_self _, fun p hp => ?_⟩
    rw [move, get_record_self, Option.map_eq_some_iff] at hp
    obtain ⟨rest, hr, rfl⟩ := hp
    rw [(Query.begin_adding hr).1]
  generalize d.move (.ask (.add stream fields maxLen)) = d' at hd
  induction ms generalizing d' with
  | nil => exact hd
  | cons m ms ih => exact ih _ (hd.move (fun _ rest' hr => (Rest.resume_adding hr).1) m)

section
variable {s : Store} {now : Nat} {rest : Rest}

/-- A call that waits from its first step on has heard all announcements, and its addition is
not due. -/
theorem Query.begin_waits {query : Query} (h : (query.begin now s).2.rest? = some rest) :
    (∀ r, rest = .reading r → r.heard = s.announcements) ∧ ∀ a, rest = .adding a → now < a.due := by
  cases query with
  | createGroup q =>
    simp only [Query.begin] at h
    split at h <;> cases h
  | read q consumer count block =>
    have hb := GroupRead.begins s now q consumer count block
    simp only [Query.begin] at h
    generalize s.beginRead now q.stream q.group consumer count block = p at hb h
    cases hb with
    | sleeps quiet early =>
      cases h
      exact ⟨by rintro r ⟨⟩; rfl, by rintro a ⟨⟩⟩
    | givesUp | finds | fails => cases h
  | ack q id => cases h
  | add stream fields maxLen =>
    obtain ⟨rfl, hlt⟩ := Query.begin_adding h
    exact ⟨by rintro r ⟨⟩, by rintro a ⟨⟩; exact hlt⟩

theorem Rest.resume_waits {rest' : Rest} (h : (rest.resume now s).2.rest? = some rest') :
    (∀ r, rest' = .reading r → r.heard = s.announcements ∨ rest = rest') ∧
      ∀ a, rest' = .adding a → now < a.due := by
  cases rest with
  | reading r =>
    simp only [Rest.resume] at h
    rcases r.resumes now s with hl | ⟨-, he⟩
    · generalize r.resume now s = p at hl h
      cases hl with
      | sleeps quiet early =>
        cases h
        exact ⟨by rintro r ⟨⟩; exact Or.inl rfl, by rintro a ⟨⟩⟩
      | givesUp | finds | fails => cases h
    · rw [he] at h
      cases h
      exact ⟨fun _ _ => Or.inr rfl, by rintro a ⟨⟩⟩
  | adding a =>
    obtain ⟨rfl, hlt⟩ := Rest.resume_adding h
    exact ⟨fun _ _ => Or.inr rfl, by rintro a ⟨⟩; exact hlt⟩

end

inductive Stays (d : Desk) (p : Nat × Query × Rest) : Prop
  | still (mem : p ∈ d.waiting)
  | asked {query : Query} {rest : Rest} (eq : p = (d.next, query, rest))
      (waits : (query.begin d.now d.store).2.rest? = some rest)
  | resumed {id : Nat} {query : Query} {old rest : Rest} (eq : p = (id, query, rest))
      (found : Table.get? id d.waiting = some (query, old))
      (waits : (old.resume d.now d.store).2.rest? = some rest)

theorem move_stays {d : Desk} {m : Move} {p : Nat × Query × Rest} (h : p ∈ (d.move m).waiting) :
    d.Stays p := by
  cases m with
  | ask query =>
    rcases mem_record _ _ _ _ h with h | ⟨rest, hr, rfl⟩
    · exact .still h
    · exact .asked rfl hr
  | resume id =>
    cases hw : Table.get? id d.waiting with
    | none =>
      simp only [move, hw] at h
      exact .still h
    | some q =>
      simp only [move, hw] at h
      rcases mem_record _ _ _ _ h with h | ⟨rest, hr, rfl⟩
      · exact .still h
      · exact .resumed rfl hw hr
  | drop id => exact .still ((Table.erase_sublist id _).subset h)
  | chore c | wait n => exact .still h

theorem Effect.counted {s s' : Store} {query : Query} {a : Option Answer}
    (h : Effect s query s' a) : s.announcements ≤ s'.announcements := by
  cases h with
  | rests => exact Nat.le_refl _
  | vain nothing spends => cases spends <;> exact Nat.le_refl _
  | created creates => exact (Store.createGroup_announces creates).counted
  | handed delivers => exact (Store.deliver_announces delivers).1.counted
  | @acked q id s' acks =>
    have ha := (s.ack_announces q id).counted
    rwa [acks] at ha
  | added appends => exact (Store.append_announces appends).counted

theorem Orderly.counted {d : Desk} (h : d.Orderly) (m : Move) :
    d.store.announcements ≤ (d.move m).store.announcements := by
  have hm := h.makes m
  generalize (d.move m).store = s at hm ⊢
  generalize (d.move m).acts = acts at hm
  cases hm with
  | nothing => exact Nat.le_refl _
  | chore c => exact (d.store.obey_announces c.op).counted
  | act found effect => exact found ▸ effect.counted

def Attentive (d : Desk) : Prop :=
  ∀ p ∈ d.waiting, ∀ r, p.2.2 = .reading r → r.heard ≤ d.store.announcements

theorem Attentive.move {d : Desk} (h : d.Attentive) (ho : d.Orderly) (m : Move) :
    (d.move m).Attentive := by
  intro p hp r hr
  refine Nat.le_trans ?_ (ho.counted m)
  cases move_stays hp with
  | still mem => exact h p mem r hr
  | asked eq waits =>
    subst eq
    exact Nat.le_of_eq ((Query.begin_waits waits).1 r hr)
  | resumed eq found waits =>
    subst eq
    rcases (Rest.resume_waits waits).1 r hr with he | he
    · exact Nat.le_of_eq he
    · exact h _ (Table.mem_of_get? found) r (he.trans hr)

theorem run_attentive (ms : List Move) {d : Desk} (h : d.Attentive) (ho : d.Orderly) :
    (run ms d).Attentive := by
  induction ms generalizing d with
  | nil => exact h
  | cons m ms ih => exact ih (h.move ho m) (ho.move m)

def Punctual (d : Desk) : Prop := ∀ p ∈ d.waiting, ∀ a, p.2.2 = .adding a → d.now ≤ a.due

/-- The clock moves by waiting alone. -/
theorem move_now (d : Desk) (m : Move) :
    (d.move m).now = d.now ∨ ∃ n, m = .wait n ∧ (d.move m).now = d.now + n := by
  cases m with
  | ask query => exact Or.inl (record_now _ _ _ _)
  | resume id =>
    refine Or.inl ?_
    cases hw : Table.get? id d.waiting with
    | none => simp only [move, hw]
    | some p => simp only [move, hw, record_now]
  | drop id | chore c => exact Or.inl rfl
  | wait n => exact Or.inr ⟨n, rfl, rfl⟩

theorem Punctual.move {d : Desk} (h : d.Punctual) {m : Move} (ht : d.TimelyMove m) :
    (d.move m).Punctual := by
  intro p hp a ha
  rcases d.move_now m with hm | ⟨n, rfl, hm⟩
  · rw [hm]
    cases move_stays hp with
    | still mem => exact h p mem a ha
    | asked eq waits =>
      subst eq
      exact Nat.le_of_lt ((Query.begin_waits waits).2 a ha)
    | resumed eq found waits =>
      subst eq
      exact Nat.le_of_lt ((Rest.resume_waits waits).2 a ha)
  · have hd := (ht p hp).2
    rwa [ha] at hd

theorem run_punctual (ms : List Move) {d : Desk} (h : d.Punctual) (ht : Timely ms d) :
    (run ms d).Punctual := by
  induction ms generalizing d with
  | nil => exact h
  | cons m ms ih => exact ih (h.move ht.1) ht.2

theorem start_attentive : start.Attentive := by
  rintro p ⟨⟩

theorem start_punctual : start.Punctual := by
  rintro p ⟨⟩

end Desk
end TaskRelay
