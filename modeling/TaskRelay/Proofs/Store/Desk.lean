import TaskRelay.Proofs.Store.Notices

/-!
# Calls on a store

A store with any number of calls under way on it. A call takes its first step when it is
made, and others while it waits; it ends with an answer, or it is dropped. Every step of a
call goes on record with the store that it found and the store that it left, so a list of
moves is a run under one interleaving, told call by call.
-/

set_option autoImplicit false

namespace TaskRelay

theorem Table.get?_of_erase {κ β : Type} [DecidableEq κ] {i k : κ} {b : β} {t : Table κ β}
    (h : (t.erase k).get? i = some b) : t.get? i = some b := by
  by_cases hi : i = k
  · rw [hi, get?_erase_self] at h
    cases h
  · rwa [get?_erase_of_ne hi] at h

theorem Table.get?_erase_none {κ β : Type} [DecidableEq κ] {i : κ} {t : Table κ β}
    (h : t.get? i = none) (k : κ) : (t.erase k).get? i = none := by
  by_cases hi : i = k
  · rw [hi, get?_erase_self]
  · rw [get?_erase_of_ne hi, h]

namespace Desk

inductive Query
  | createGroup (q : Queue)
  | read (q : Queue) (consumer : String) (count block : Nat)
  | ack (q : Queue) (id : String)
  | add (stream : String) (fields : Fields) (maxLen : Nat)

inductive Answer
  | created (r : Except StoreError Unit)
  | read (r : ReadResult)
  | acked (r : Except StoreError Unit)
  | added (r : AddResult)

inductive Answer.Vain : Answer → Prop
  | created (e : StoreError) : Vain (.created (.error e))
  | read (e : StoreError) : Vain (.read (.error e))
  | empty : Vain (.read (.ok []))
  | acked (e : StoreError) : Vain (.acked (.error e))
  | added (e : StoreError) : Vain (.added (.error e))

inductive Rest
  | reading (r : GroupRead)
  | adding (a : Addition)

def Query.begin (now : Nat) (s : Store) : Query → Store × Progress Rest Answer
  | .createGroup q =>
    match s.createGroup q.stream q.group with
    | .ok s' => (s', .done (.created (.ok ())))
    | .error e => (s, .done (.created (.error e)))
  | .read q consumer count block =>
    let (s, p) := s.beginRead now q.stream q.group consumer count block
    (s, p.within .reading .read)
  | .ack q id =>
    let (s, r) := s.ack q.stream q.group id
    (s, .done (.acked r))
  | .add stream fields maxLen =>
    let (s, p) := (s.beginAdd now stream fields maxLen).resume now s
    (s, p.within .adding .added)

def Rest.resume (now : Nat) (s : Store) : Rest → Store × Progress Rest Answer
  | .reading r =>
    let (s, p) := r.resume now s
    (s, p.within .reading .read)
  | .adding a =>
    let (s, p) := a.resume now s
    (s, p.within .adding .added)

structure Act where
  call : Nat
  query : Query
  before : Store
  after : Store
  answer : Option Answer

inductive Chore
  | claim (q : Queue) (consumer : String) (ids : List String)
  | close
  | delayAdds (millis : Nat)
  | failReads (n : Nat)
  | failAcks (n : Nat)

def Chore.op : Chore → Store.Op
  | .claim q consumer ids => .claim q consumer ids
  | .close => .close
  | .delayAdds millis => .delayAdds millis
  | .failReads n => .failReads n
  | .failAcks n => .failAcks n

inductive Move
  | ask (query : Query)
  | resume (id : Nat)
  | drop (id : Nat)
  | chore (c : Chore)
  | wait (millis : Nat)

end Desk

open Desk in
structure Desk where
  store : Store
  now : Nat
  waiting : Table Nat (Query × Rest)
  next : Nat
  acts : List Act

namespace Desk

def start : Desk := ⟨.empty, 0, [], 0, []⟩

def record (d : Desk) (id : Nat) (query : Query) : Store × Progress Rest Answer → Desk
  | (store, .running r) | (store, .waiting r) =>
    { d with
      store := store
      waiting := Table.insert id (query, r) d.waiting
      acts := d.acts ++ [⟨id, query, d.store, store, none⟩] }
  | (store, .done a) =>
    { d with
      store := store
      waiting := Table.erase id d.waiting
      acts := d.acts ++ [⟨id, query, d.store, store, some a⟩] }

def move (d : Desk) : Move → Desk
  | .ask query => { d with next := d.next + 1 }.record d.next query (query.begin d.now d.store)
  | .resume id =>
    match Table.get? id d.waiting with
    | none => d
    | some (query, r) => d.record id query (r.resume d.now d.store)
  | .drop id => { d with waiting := Table.erase id d.waiting }
  | .chore c => { d with store := d.store.obey c.op }
  | .wait n => { d with now := d.now + n }

def run : List Move → Desk → Desk
  | [], d => d
  | m :: ms, d => run ms (d.move m)

theorem run_append (ms ms' : List Move) (d : Desk) : run (ms ++ ms') d = run ms' (run ms d) := by
  induction ms generalizing d with
  | nil => rfl
  | cons m ms ih => exact ih _

def actsOf (d : Desk) (id : Nat) : List Act := d.acts.filter (·.call == id)

end Desk

inductive Store.Spends (s : Store) : Store → Prop
  | nothing : Spends s s
  | read {n : Nat} (left : s.failingReads = n + 1) : Spends s { s with failingReads := n }
  | ack {n : Nat} (left : s.failingAcks = n + 1) : Spends s { s with failingAcks := n }

theorem Store.Spends.shelf {s s' : Store} (h : s.Spends s') (q : Queue) :
    s'.shelf q = s.shelf q := by
  cases h <;> rfl

namespace Desk

inductive Effect (s : Store) : Query → Store → Option Answer → Prop
  | rests {query : Query} : Effect s query s none
  | vain {query : Query} {s' : Store} {a : Answer} (nothing : a.Vain) (spends : s.Spends s') :
      Effect s query s' (some a)
  | created {q : Queue} {s' : Store} (creates : s.createGroup q.stream q.group = .ok s') :
      Effect s (.createGroup q) s' (some (.created (.ok ())))
  | handed {q : Queue} {consumer : String} {count block : Nat} {s' : Store} {es : List Entry}
      (delivers : s.deliver q.stream q.group consumer count = .ok (some (s', es))) :
      Effect s (.read q consumer count block) s' (some (.read (.ok es)))
  | acked {q : Queue} {id : String} {s' : Store} (acks : s.ack q.stream q.group id = (s', .ok ())) :
      Effect s (.ack q id) s' (some (.acked (.ok ())))
  | added {stream id : String} {fields : Fields} {maxLen : Nat} {s' : Store}
      (appends : s.append stream fields maxLen = .ok (s', id)) :
      Effect s (.add stream fields maxLen) s' (some (.added (.ok id)))

inductive Rest.Serves : Query → Rest → Prop
  | reading {q : Queue} {consumer : String} {count block deadline heard : Nat} :
      Serves (.read q consumer count block)
        (.reading ⟨q.stream, q.group, consumer, count, deadline, heard⟩)
  | adding {stream : String} {fields : Fields} {maxLen due : Nat} :
      Serves (.add stream fields maxLen) (.adding ⟨stream, fields, maxLen, due⟩)

inductive Steps (s : Store) (query : Query) : Store × Progress Rest Answer → Prop
  | waits {r : Rest} (serves : r.Serves query) : Steps s query (s, .waiting r)
  | ends {s' : Store} {a : Answer} (effect : Effect s query s' (some a)) :
      Steps s query (s', .done a)

section
variable (s : Store) (now : Nat)

theorem look_steps (q : Queue) (consumer : String) (count block deadline heard : Nat) :
    Steps s (.read q consumer count block)
      ((s.look now ⟨q.stream, q.group, consumer, count, deadline, heard⟩).1,
        (s.look now ⟨q.stream, q.group, consumer, count, deadline, heard⟩).2.within
          .reading .read) := by
  unfold Store.look
  split
  · exact .ends (.vain (.read _) .nothing)
  · next h => exact .ends (.handed h)
  · split
    · exact .ends (.vain .empty .nothing)
    · exact .waits .reading

theorem addition_steps (stream : String) (fields : Fields) (maxLen due : Nat) :
    Steps s (.add stream fields maxLen)
      (((⟨stream, fields, maxLen, due⟩ : Addition).resume now s).1,
        ((⟨stream, fields, maxLen, due⟩ : Addition).resume now s).2.within .adding .added) := by
  unfold Addition.resume
  split
  · exact .waits .adding
  · split
    · next h => exact .ends (.added h)
    · exact .ends (.vain (.added _) .nothing)

theorem ack_effect (q : Queue) (id : String) :
    Effect s (.ack q id) (s.ack q.stream q.group id).1
      (some (.acked (s.ack q.stream q.group id).2)) := by
  cases hf : s.failingAcks with
  | succ n =>
    have ha : s.ack q.stream q.group id =
        ({ s with failingAcks := n }, .error (.connection "injected ack failure")) := by
      simp only [Store.ack, hf]
    rw [ha]
    exact .vain (.acked _) (.ack hf)
  | zero =>
    by_cases hc : s.closed = true
    · have ha : s.ack q.stream q.group id = (s, .error .closed) := by
        simp only [Store.ack, hf, hc, if_true]
      rw [ha]
      exact .vain (.acked _) .nothing
    · have ha : (s.ack q.stream q.group id).2 = .ok () := by
        unfold Store.ack
        simp only [hf, hc, Bool.false_eq_true, if_false]
        split <;> rfl
      rw [ha]
      exact .acked (Prod.ext rfl ha)

theorem Query.begin_steps (query : Query) : Steps s query (query.begin now s) := by
  cases query with
  | createGroup q =>
    simp only [Query.begin]
    split
    · next h => exact .ends (.created h)
    · exact .ends (.vain (.created _) .nothing)
  | read q consumer count block =>
    simp only [Query.begin, Store.beginRead]
    split
    · next n hf => exact .ends (.vain (.read _) (.read hf))
    · exact look_steps s now q consumer count block _ _
  | ack q id => exact .ends (ack_effect s q id)
  | add stream fields maxLen => exact addition_steps s now stream fields maxLen _

theorem Rest.resume_steps {query : Query} {r : Rest} (hr : r.Serves query) :
    Steps s query (r.resume now s) := by
  cases hr with
  | @reading q consumer count block deadline heard =>
    simp only [Rest.resume, GroupRead.resume]
    split
    · exact look_steps s now q consumer count block deadline heard
    · split
      · exact .ends (.vain .empty .nothing)
      · exact .waits .reading
  | adding => exact addition_steps s now _ _ _ _

end

structure Orderly (d : Desk) : Prop where
  known : ∀ {id p}, Table.get? id d.waiting = some p → id < d.next
  serves : ∀ {id query r}, Table.get? id d.waiting = some (query, r) → r.Serves query
  acted : ∀ x ∈ d.acts, x.call < d.next
  lawful : ∀ x ∈ d.acts, Effect x.before x.query x.after x.answer
  gone : ∀ x ∈ d.acts, x.answer.isSome = true → Table.get? x.call d.waiting = none
  last : d.acts.Pairwise fun x y => x.call = y.call → x.answer = none

/-- What a recorded step leaves in order: a call that has not answered takes a step. -/
theorem Orderly.record {d : Desk} (h : d.Orderly) {id : Nat} {query : Query} (hid : id < d.next)
    (hq : ∀ x ∈ d.acts, x.call = id → x.answer = none) {r : Store × Progress Rest Answer}
    (hr : Steps d.store query r) : (d.record id query r).Orderly := by
  have acted {y : Act} (hy : y.call = id) : ∀ x ∈ d.acts ++ [y], x.call < d.next := by
    intro x hx
    rcases List.mem_append.mp hx with hx | hx
    · exact h.acted x hx
    · rw [List.mem_singleton.mp hx, hy]
      exact hid
  have lawful {y : Act} (hy : Effect y.before y.query y.after y.answer) :
      ∀ x ∈ d.acts ++ [y], Effect x.before x.query x.after x.answer := by
    intro x hx
    rcases List.mem_append.mp hx with hx | hx
    · exact h.lawful x hx
    · rw [List.mem_singleton.mp hx]
      exact hy
  have last {y : Act} (hy : y.call = id) :
      (d.acts ++ [y]).Pairwise fun x y => x.call = y.call → x.answer = none := by
    refine List.pairwise_append.mpr ⟨h.last, List.pairwise_singleton _ _, fun x hx z hz hc => ?_⟩
    rw [List.mem_singleton.mp hz, hy] at hc
    exact hq x hx hc
  cases hr with
  | @waits r serves =>
    refine ⟨fun {i p} hp => ?_, fun {i query' r'} hp => ?_, acted rfl, lawful .rests,
      fun x hx ha => ?_, last rfl⟩
    · by_cases hi : i = id
      · exact hi ▸ hid
      · exact h.known ((Table.get?_insert_of_ne hi _ _).symm.trans hp)
    · by_cases hi : i = id
      · subst hi
        cases (Table.get?_insert_self _ _ _).symm.trans hp
        exact serves
      · exact h.serves ((Table.get?_insert_of_ne hi _ _).symm.trans hp)
    · rcases List.mem_append.mp hx with hx | hx
      · have hi : x.call ≠ id := fun hi => by simp [hq x hx hi] at ha
        exact (Table.get?_insert_of_ne hi _ _).trans (h.gone x hx ha)
      · rw [List.mem_singleton.mp hx] at ha
        cases ha
  | @ends s' a effect =>
    refine ⟨fun hp => h.known (Table.get?_of_erase hp),
      fun hp => h.serves (Table.get?_of_erase hp), acted rfl, lawful effect,
      fun x hx ha => ?_, last rfl⟩
    · rcases List.mem_append.mp hx with hx | hx
      · exact Table.get?_erase_none (h.gone x hx ha) _
      · rw [List.mem_singleton.mp hx]
        exact Table.get?_erase_self _ _

theorem Orderly.move {d : Desk} (h : d.Orderly) (m : Move) : (d.move m).Orderly := by
  cases m with
  | ask query =>
    have hd : Orderly { d with next := d.next + 1 } :=
      ⟨fun hp => Nat.lt_succ_of_lt (h.known hp), h.serves,
        fun x hx => Nat.lt_succ_of_lt (h.acted x hx), h.lawful, h.gone, h.last⟩
    refine hd.record (Nat.lt_succ_self _) (fun x hx hc => ?_) (query.begin_steps d.store d.now)
    have := h.acted x hx
    omega
  | resume id =>
    cases hp : Table.get? id d.waiting with
    | none => simpa only [Desk.move, hp] using h
    | some p =>
      obtain ⟨query, r⟩ := p
      simp only [Desk.move, hp]
      refine h.record (h.known hp) (fun x hx hc => ?_)
        (Rest.resume_steps d.store d.now (h.serves hp))
      by_contra hne
      have hn := h.gone x hx (Option.isSome_iff_ne_none.mpr hne)
      rw [hc, hp] at hn
      cases hn
  | drop id =>
    exact ⟨fun hp => h.known (Table.get?_of_erase hp),
      fun hp => h.serves (Table.get?_of_erase hp), h.acted, h.lawful,
      fun x hx ha => Table.get?_erase_none (h.gone x hx ha) _, h.last⟩
  | chore c => exact ⟨h.known, h.serves, h.acted, h.lawful, h.gone, h.last⟩
  | wait n => exact ⟨h.known, h.serves, h.acted, h.lawful, h.gone, h.last⟩

theorem start_orderly : start.Orderly :=
  ⟨by rintro id p ⟨⟩, by rintro id query r ⟨⟩, by rintro x ⟨⟩, by rintro x ⟨⟩, by rintro x ⟨⟩,
    List.Pairwise.nil⟩

theorem run_orderly (ms : List Move) {d : Desk} (h : d.Orderly) : (run ms d).Orderly := by
  induction ms generalizing d with
  | nil => exact h
  | cons m ms ih => exact ih (h.move m)

inductive Makes (d : Desk) : Store → List Act → Prop
  | nothing : Makes d d.store d.acts
  | chore (c : Chore) : Makes d (d.store.obey c.op) d.acts
  | act {x : Act} (found : x.before = d.store)
      (effect : Effect x.before x.query x.after x.answer) : Makes d x.after (d.acts ++ [x])

theorem Orderly.makes {d : Desk} (h : d.Orderly) (m : Move) :
    Makes d (d.move m).store (d.move m).acts := by
  have steps (n id : Nat) {query : Query} {r : Store × Progress Rest Answer}
      (hr : Steps d.store query r) :
      Makes d ({ d with next := n }.record id query r).store
        ({ d with next := n }.record id query r).acts := by
    cases hr with
    | waits => exact .act (x := ⟨id, query, d.store, d.store, none⟩) rfl .rests
    | @ends s' a effect => exact .act (x := ⟨id, query, d.store, s', some a⟩) rfl effect
  cases m with
  | ask query => exact steps (d.next + 1) d.next (query.begin_steps d.store d.now)
  | resume id =>
    cases hp : Table.get? id d.waiting with
    | none =>
      simp only [Desk.move, hp]
      exact .nothing
    | some p =>
      simp only [Desk.move, hp]
      exact steps d.next id (Rest.resume_steps d.store d.now (h.serves hp))
  | chore c => exact .chore c
  | drop | wait => exact .nothing

end Desk
end TaskRelay
