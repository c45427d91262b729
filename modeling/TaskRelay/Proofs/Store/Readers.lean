import TaskRelay.Proofs.Store.Group
import TaskRelay.Proofs.Store.Quiet
import TaskRelay.World.Schedule

/-!
# Readers of one store

A store with any number of suspended group reads on any of its queues, and an account of
what the reads returned and when. A move starts, resumes or drops one read, does something
else to the store, or lets time pass, so a list of moves is a run under one interleaving.
A delayed addition does something to the store when its delay is over, not before.

A virtual clock stands still while a suspended read can go on, and passes no deadline of a
read that is suspended; on a `Timely` run all waiting is of that kind.
-/

set_option autoImplicit false

namespace TaskRelay

theorem Table.mem_of_get? {κ β : Type} [DecidableEq κ] {k : κ} {b : β} {t : Table κ β}
    (h : t.get? k = some b) : (k, b) ∈ t := by
  induction t with
  | nil => cases h
  | cons p t ih =>
    obtain ⟨j, c⟩ := p
    by_cases hk : k = j
    · rw [get?, if_pos hk] at h
      cases h
      rw [hk]
      exact List.mem_cons_self
    · rw [get?, if_neg hk] at h
      exact List.mem_cons_of_mem _ (ih h)

structure Suspended where
  read : GroupRead
  since : Nat
  block : Nat
  deriving DecidableEq

structure Returned where
  since : Nat
  block : Nat
  time : Nat
  result : ReadResult

structure Readers where
  store : Store
  now : Nat
  suspended : Table Nat Suspended
  next : Nat
  returned : List Returned

namespace Readers

inductive Move
  | read (q : Queue) (consumer : String) (count block : Nat)
  | resume (id : Nat)
  | drop (id : Nat)
  | obey (op : Store.Op)
  | wait (millis : Nat)

def start : Readers := ⟨.empty, 0, [], 0, []⟩

def afterRead (s : Readers) (id since block : Nat) :
    Store × Progress GroupRead ReadResult → Readers
  | (store, .running r) | (store, .waiting r) =>
    { s with store := store, suspended := Table.insert id ⟨r, since, block⟩ s.suspended }
  | (store, .done x) =>
    { s with
      store := store
      suspended := Table.erase id s.suspended
      returned := s.returned ++ [⟨since, block, s.now, x⟩] }

def move (s : Readers) : Move → Readers
  | .read q consumer count block =>
    { s with next := s.next + 1 }.afterRead s.next s.now block
      (s.store.beginRead s.now q.stream q.group consumer count block)
  | .resume id =>
    match Table.get? id s.suspended with
    | none => s
    | some b => s.afterRead id b.since b.block (b.read.resume s.now s.store)
  | .drop id => { s with suspended := Table.erase id s.suspended }
  | .obey op => { s with store := s.store.obey op }
  | .wait n => { s with now := s.now + n }

def run : List Move → Readers → Readers
  | [], s => s
  | m :: ms, s => run ms (s.move m)

def TimelyMove (s : Readers) : Move → Prop
  | .wait n => ∀ p ∈ s.suspended,
    p.2.read.woken s.now s.store = false ∧ s.now + n ≤ p.2.read.deadline
  | _ => True

instance (s : Readers) (m : Move) : Decidable (s.TimelyMove m) := by
  cases m <;> unfold TimelyMove <;> infer_instance

def Timely : List Move → Readers → Prop
  | [], _ => True
  | m :: ms, s => s.TimelyMove m ∧ Timely ms (s.move m)

instance decidableTimely : (ms : List Move) → (s : Readers) → Decidable (Timely ms s)
  | [], _ => .isTrue trivial
  | m :: ms, s => @instDecidableAnd _ _ inferInstance (decidableTimely ms (s.move m))

structure Attends (s : Store) (b : Suspended) : Prop where
  deadline : b.read.deadline = b.since + b.block
  heard : b.read.heard ≤ s.announcements
  quiet : b.read.heard = s.announcements → s.Quiet b.read.queue

theorem Attends.later {s s' : Store} {b : Suspended} (h : Attends s b) (ha : s.Announces s') :
    Attends s' b := by
  have hc := ha.counted
  have hh := h.heard
  refine ⟨h.deadline, Nat.le_trans hh hc, fun he => ?_⟩
  exact ha.quiet (by omega) _ (h.quiet (by omega))

def Attentive (s : Readers) : Prop := ∀ p ∈ s.suspended, Attends s.store p.2

theorem afterRead_attentive {s : Readers} (hs : s.Attentive) (id since block : Nat)
    {p : Store × Progress GroupRead ReadResult} (ha : s.store.Announces p.1)
    (hp : ∀ r, p.2 = .running r ∨ p.2 = .waiting r → Attends p.1 ⟨r, since, block⟩) :
    (s.afterRead id since block p).Attentive := by
  obtain ⟨store, r | r | x⟩ := p
  · intro b hb
    rcases Table.mem_insert hb with rfl | hb
    · exact hp r (Or.inl rfl)
    · exact (hs b hb).later ha
  · intro b hb
    rcases Table.mem_insert hb with rfl | hb
    · exact hp r (Or.inr rfl)
    · exact (hs b hb).later ha
  · exact fun b hb => (hs b ((Table.erase_sublist id _).subset hb)).later ha

/-- A read that falls asleep attends from then on. -/
theorem attends_look {r : GroupRead} {now since block : Nat} {s : Store}
    (hd : r.deadline = since + block) {p : Store × Progress GroupRead ReadResult}
    (hp : r.Looks now s p) (r' : GroupRead) (hr : p.2 = .running r' ∨ p.2 = .waiting r') :
    Attends p.1 ⟨r', since, block⟩ := by
  cases hp with
  | sleeps quiet early =>
    rcases hr with h | h
    · cases h
    · cases h
      exact ⟨hd, Nat.le_refl _, fun _ => quiet⟩
  | givesUp due => rcases hr with h | h <;> cases h
  | finds announces some_entry => rcases hr with h | h <;> cases h
  | fails announces => rcases hr with h | h <;> cases h

theorem move_attentive {s : Readers} (hs : s.Attentive) (m : Move) : (s.move m).Attentive := by
  cases m with
  | read q consumer count block =>
    have hb := GroupRead.begins s.store s.now q consumer count block
    exact afterRead_attentive (s := { s with next := s.next + 1 }) hs _ _ _ hb.announces
      (attends_look rfl hb)
  | resume id =>
    cases hb : Table.get? id s.suspended with
    | none => simpa only [move, hb] using hs
    | some b =>
      have hm := hs _ (Table.mem_of_get? hb)
      simp only [move, hb]
      rcases b.read.resumes s.now s.store with hl | ⟨-, he⟩
      · exact afterRead_attentive hs _ _ _ hl.announces (attends_look hm.deadline hl)
      · rw [he]
        apply afterRead_attentive hs _ _ _ (.refl s.store)
        intro r hr
        rcases hr with h | h
        · cases h
        · cases h
          exact hm
  | drop id => exact fun b hb => hs b ((Table.erase_sublist id _).subset hb)
  | obey op => exact fun b hb => (hs b hb).later (s.store.obey_announces op)
  | wait n => exact hs

theorem run_attentive (ms : List Move) {s : Readers} (hs : s.Attentive) :
    (run ms s).Attentive := by
  induction ms generalizing s with
  | nil => exact hs
  | cons m ms ih => exact ih (move_attentive hs m)

structure Punctual (s : Readers) : Prop where
  suspended : ∀ p ∈ s.suspended, s.now ≤ p.2.since + p.2.block
  returned : ∀ e ∈ s.returned, e.time ≤ e.since + e.block ∧
    (e.result = .ok [] → e.time = e.since + e.block)

theorem afterRead_punctual {s : Readers} (hs : s.Punctual) (id : Nat) {since block : Nat}
    {r : GroupRead} (hd : r.deadline = since + block) (hn : s.now ≤ since + block)
    {p : Store × Progress GroupRead ReadResult} (hp : r.Looks s.now s.store p) :
    (s.afterRead id since block p).Punctual := by
  have he : ∀ b ∈ Table.erase id s.suspended, s.now ≤ b.2.since + b.2.block := fun b hb =>
    hs.suspended b ((Table.erase_sublist id _).subset hb)
  have hr (x : ReadResult) (hx : x = .ok [] → r.deadline ≤ s.now) :
      ∀ e ∈ s.returned ++ [⟨since, block, s.now, x⟩], e.time ≤ e.since + e.block ∧
        (e.result = .ok [] → e.time = e.since + e.block) := by
    intro e h
    rcases List.mem_append.mp h with h | h
    · exact hs.returned e h
    · rw [List.mem_singleton.mp h]
      refine ⟨hn, fun hempty => ?_⟩
      have hdue := hx hempty
      change s.now = since + block
      omega
  cases hp with
  | sleeps quiet early =>
    refine ⟨fun b hb => ?_, hs.returned⟩
    rcases Table.mem_insert hb with rfl | hb
    · exact hn
    · exact hs.suspended b hb
  | givesUp due => exact ⟨he, hr _ fun _ => due⟩
  | finds announces some_entry =>
    refine ⟨he, hr _ fun hempty => ?_⟩
    cases hempty
    exact absurd rfl some_entry
  | fails announces => exact ⟨he, hr _ (by rintro ⟨⟩)⟩

theorem move_punctual {s : Readers} (ha : s.Attentive) (hs : s.Punctual) {m : Move}
    (ht : s.TimelyMove m) : (s.move m).Punctual := by
  cases m with
  | read q consumer count block =>
    exact afterRead_punctual (s := { s with next := s.next + 1 }) ⟨hs.suspended, hs.returned⟩ _
      rfl (Nat.le_add_right _ _) (GroupRead.begins s.store s.now q consumer count block)
  | resume id =>
    cases hb : Table.get? id s.suspended with
    | none => simpa only [move, hb] using hs
    | some b =>
      have hm := Table.mem_of_get? hb
      simp only [move, hb]
      rcases b.read.resumes s.now s.store with hl | ⟨-, he⟩
      · exact afterRead_punctual hs _ (ha _ hm).deadline (hs.suspended _ hm) hl
      · rw [he]
        refine ⟨fun b' hb' => ?_, hs.returned⟩
        rcases Table.mem_insert hb' with rfl | hb'
        · exact hs.suspended _ hm
        · exact hs.suspended b' hb'
  | drop id => exact ⟨fun b hb => hs.suspended b ((Table.erase_sublist id _).subset hb), hs.returned⟩
  | obey op => exact ⟨hs.suspended, hs.returned⟩
  | wait n =>
    refine ⟨fun b hb => ?_, hs.returned⟩
    rw [← (ha b hb).deadline]
    exact (ht b hb).2

theorem run_punctual (ms : List Move) {s : Readers} (ha : s.Attentive) (hs : s.Punctual)
    (ht : Timely ms s) : (run ms s).Punctual := by
  induction ms generalizing s with
  | nil => exact hs
  | cons m ms ih => exact ih (move_attentive ha m) (move_punctual ha hs ht.1) ht.2

theorem start_attentive : start.Attentive := by
  intro p hp
  cases hp

theorem start_punctual : start.Punctual := by
  constructor
  · intro p hp
    cases hp
  · intro e he
    cases he

/-- A read whose time has come ends when it goes on next. -/
theorem due_ends {r : GroupRead} {now : Nat} (hd : r.deadline ≤ now) (s : Store) :
    ∃ x, (r.resume now s).2 = .done x := by
  rcases r.resumes now s with hl | ⟨hw, -⟩
  · generalize r.resume now s = p at hl
    cases hl with
    | sleeps quiet early => exact absurd hd (Nat.not_le_of_lt early)
    | givesUp due => exact ⟨_, rfl⟩
    | finds announces some_entry => exact ⟨_, rfl⟩
    | fails announces => exact ⟨_, rfl⟩
  · simp [GroupRead.woken, hd] at hw

/-- A suspended read that nothing has woken has nothing to read: its store is open, and its
group is past every entry of the stream. -/
theorem Attends.caught_up {s : Store} {b : Suspended} (h : Attends s b) {now : Nat}
    (hw : b.read.woken now s = false) :
    s.closed = false ∧ ∃ g, s.group? b.read.stream b.read.group = some g ∧
      ∀ e ∈ (s.stream b.read.stream).entries, e.1 ≤ g.cursor := by
  have hh := h.heard
  have hn : ¬ b.read.heard < s.announcements := by
    intro hlt
    simp [GroupRead.woken, hlt] at hw
  obtain ⟨ho, hg, he⟩ := h.quiet (by omega)
  obtain ⟨g, hg⟩ := Option.isSome_iff_exists.mp hg
  refine ⟨ho, g, hg, fun e hm => ?_⟩
  simp only [Shelf.waiting, hg] at he
  have hf := List.filter_eq_nil_iff.mp he e hm
  simpa using hf

/-- The clock of a schedule is such a clock: it passes the deadline of no read that sleeps. -/
theorem schedule_timely {s s' : Schedule} (h : s.wait = some s') {id : Nat} {r : GroupRead}
    (hr : Table.get? id s.world.calls = some (.reading r))
    (hw : r.woken s.world.now s.world.store = false) : s'.world.now ≤ r.deadline := by
  have hlt : s.world.now < r.deadline := by
    simp only [GroupRead.woken, Bool.or_eq_false_iff, decide_eq_false_iff_not] at hw
    omega
  have hm : r.deadline ∈ s.world.deadlines.filter (s.world.now < ·) := by
    rw [List.mem_filter]
    refine ⟨List.mem_append_left _ (List.mem_flatMap.mpr ⟨_, Table.mem_of_get? hr, ?_⟩), by simpa⟩
    exact List.mem_singleton_self _
  unfold Schedule.wait at h
  cases hd : s.nextDeadline? with
  | none => simp [hd] at h
  | some d =>
    simp only [hd, Option.some.injEq] at h
    rw [← h]
    exact (List.min?_eq_some_iff.mp hd).2 _ hm

/-- In every run, a suspended read that nothing has woken has nothing to read. If time goes
by as on a virtual clock, a read called at `t` with a block of `b` returns by `t + b`,
empty-handed at that time only, and one that is suspended then ends when it goes on. -/
theorem idle_reads_miss_nothing (ms : List Move) :
    let s := run ms start
    (∀ p ∈ s.suspended, p.2.read.woken s.now s.store = false →
      s.store.closed = false ∧ ∃ g, s.store.group? p.2.read.stream p.2.read.group = some g ∧
        ∀ e ∈ (s.store.stream p.2.read.stream).entries, e.1 ≤ g.cursor) ∧
    (Timely ms start →
      (∀ e ∈ s.returned, e.time ≤ e.since + e.block ∧
        (e.result = .ok [] → e.time = e.since + e.block)) ∧
      ∀ p ∈ s.suspended, s.now ≤ p.2.since + p.2.block ∧
        (s.now = p.2.since + p.2.block → ∃ x, (p.2.read.resume s.now s.store).2 = .done x)) := by
  intro s
  have ha : s.Attentive := run_attentive ms start_attentive
  refine ⟨fun p hp hw => (ha p hp).caught_up hw, fun ht => ?_⟩
  have hs : s.Punctual := run_punctual ms start_attentive start_punctual ht
  refine ⟨hs.returned, fun p hp => ⟨hs.suspended p hp, fun hn => ?_⟩⟩
  have hd := (ha p hp).deadline
  exact due_ends (by omega) s.store

def contest : List Move :=
  [.obey (.createGroup ⟨"s", "g"⟩), .read ⟨"s", "g"⟩ "a" 1 100, .read ⟨"s", "g"⟩ "b" 1 70,
    .wait 40, .obey (.add "other" [] 0), .resume 0, .resume 1,
    .wait 10, .obey (.add "s" [("body", "x")] 0), .resume 1, .resume 0, .wait 50, .resume 0]

theorem contest_on_time :
    Timely contest start ∧ ((run contest start).returned.map Returned.time = [50, 100]) ∧
      ∀ e ∈ (run contest start).returned, e.time ≤ e.since + e.block ∧
        (e.result = .ok [] → e.time = e.since + e.block) := by
  have ht : Timely contest start := by decide
  exact ⟨ht, by decide, ((idle_reads_miss_nothing contest).2 ht).1⟩

end Readers

end TaskRelay
