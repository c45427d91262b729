import TaskRelay.Proofs.Runner.Annals
import TaskRelay.Proofs.Store.Closed
import TaskRelay.Proofs.Store.Group
import TaskRelay.Proofs.World.Signals

/-!
# Visitors at the store

While the workers are at work somebody from outside may ask the same store for anything. A
queue sees of that what its shelf notices, and the consumer loops hold what they held. So no
entry is handed to two loops, and a loop acknowledges only what itself was handed.
-/

set_option autoImplicit false

namespace TaskRelay
open scoped List

namespace Shelf

variable {sh sh' : Shelf} {x : Option Notice}

theorem Notices.cursor_le (h : sh.Notices x sh') (hs : sh.Sound) : sh.cursor ≤ sh'.cursor := by
  cases h with
  | idle | missed | added => exact Nat.le_refl _
  | created => exact sh.cursor_found
  | handed count next hands => exact Nat.le_of_lt (hands.advances hs)
  | acked n => exact Nat.le_of_eq (sh.cursor_ack n).symm
  | claimed consumer ns =>
    obtain ⟨f, hf, he⟩ := sh.claim_frame consumer ns
    rw [he, cursor, cursor, Option.map_map]
    refine Nat.le_of_eq (congrArg (Option.getD · 0) ?_)
    exact Option.map_congr fun g _ => (hf g).symm

def Ages (sh sh' : Shelf) : Prop := ∀ p ∈ sh'.entries, p ∈ sh.entries ∨ sh.last < p.1

theorem append_ages (sh : Shelf) (fields : Fields) (maxLen : Nat) :
    sh.Ages (sh.append fields maxLen) := by
  intro p hp
  obtain ⟨kept, hk, he⟩ := sh.append_entries fields maxLen
  rw [he] at hp
  rcases List.mem_append.mp hp with hp | hp
  · exact Or.inl (hk.subset hp)
  · rw [List.mem_singleton.mp hp]
    exact Or.inr (Nat.lt_succ_self _)

theorem Notices.ages (h : sh.Notices x sh') : sh.Ages sh' := by
  cases h with
  | added fields maxLen => exact sh.append_ages fields maxLen
  | handed count next hands =>
    obtain ⟨g, -, rfl⟩ := hands.after
    exact fun p hp => Or.inl hp
  | claimed consumer ns =>
    obtain ⟨f, -, he⟩ := sh.claim_frame consumer ns
    rw [he]
    exact fun p hp => Or.inl hp
  | _ => exact fun p hp => Or.inl hp

/-- Two entries do not share a number. -/
theorem Sound.unique (hs : sh.Sound) {p p' : Nat × Fields} (hp : p ∈ sh.entries)
    (hp' : p' ∈ sh.entries) (he : p.1 = p'.1) : p = p' := by
  have hn : (sh.entries.map Prod.fst).Nodup :=
    List.pairwise_map.mpr (hs.ordered.imp Nat.ne_of_lt)
  exact List.inj_on_of_nodup_map hn hp hp' he

end Shelf

namespace Flow

theorem Step.ages {f f' : Flow} {ds : List Deed} (h : f.Step ds f') : f.shelf.Ages f'.shelf := by
  have same {sh : Shelf} (he : sh.entries = f.shelf.entries) : f.shelf.Ages sh :=
    fun p hp => Or.inl (he ▸ hp)
  cases h with
  | rest | found => exact same rfl
  | add fields maxLen => exact f.shelf.append_ages fields maxLen
  | join hsh hst => rcases hsh with rfl | rfl <;> exact same rfl
  | work hst h =>
    cases h with
    | hand slot h =>
      obtain ⟨g, -, rfl⟩ := h.after
      exact same rfl
    | ack rest slot h => rcases h with rfl | ⟨n, -, rfl⟩ <;> exact same rfl
    | readd e rest slot maxLen => exact f.shelf.append_ages e.fields maxLen
    | _ => exact same rfl

/-- What a step hands out it takes from the shelf. -/
theorem Step.handedOut {f f' : Flow} {ds : List Deed} (h : f.Step ds f') {e : Entry}
    (he : e ∈ Ledger.handedOut ds) : ∃ consumer bs, f.shelf.Hands consumer bs f'.shelf ∧
      ∃ b ∈ bs, numbered b = e := by
  cases h with
  | rest | add | found | join => cases he
  | work hst h =>
    cases h with
    | hand slot h =>
      rw [Ledger.handedOut_cons, Ledger.handedOut_nil, List.append_nil] at he
      exact ⟨_, _, h, List.mem_map.mp he⟩
    | _ => cases he

inductive Meets (f : Flow) : List Deed → Flow → Prop
  | move {ds : List Deed} {f₁ f' : Flow} (step : f.Step ds f₁) (stops : f₁.Stops f') : Meets f ds f'
  | visit {x : Option Notice} {sh : Shelf} (notices : f.shelf.Notices x sh) :
      Meets f [] ⟨sh, f.stations⟩

end Flow

/-- Every entry is handed to one loop at most, and no other one acknowledges it. In the stream
it stays as it was handed out until it is trimmed. -/
structure Fair (h : List Deed) (f : Flow) : Prop where
  account : Account h f
  claimed : ∀ i, Claimed i h f.stations[i]?
  owing : ∀ i, Owing i h f.stations[i]?
  unaltered : ∀ e ∈ Ledger.handedOut h, ∀ p ∈ f.shelf.entries, entryId p.1 = e.id → numbered p = e

namespace Fair

variable {h ds : List Deed} {f f' : Flow} (hf : Fair h f)
include hf

theorem handed_le {n : Nat} (hn : entryId n ∈ Ledger.handed h) : n ≤ f.shelf.cursor := by
  obtain ⟨ns, hns, -, hc⟩ := hf.account.numbers
  rw [hns, List.mem_map_of_injective entryId_injective] at hn
  exact hc n hn

theorem own_le {i n : Nat} (hn : entryId n ∈ Ledger.handed (Ledger.of i h)) :
    n ≤ f.shelf.cursor :=
  hf.handed_le (((Ledger.handedOut_of i h).map Entry.id).subset hn)

theorem identified {e : Entry} (he : e ∈ Ledger.handedOut h) : ∃ n, e.id = entryId n := by
  obtain ⟨ns, hns, -, -⟩ := hf.account.numbers
  have hm : e.id ∈ Ledger.handed h := List.mem_map_of_mem he
  rw [hns] at hm
  obtain ⟨n, -, hn⟩ := List.mem_map.mp hm
  exact ⟨n, hn.symm⟩

theorem alone {i j : Nat} {x : String} (hi : x ∈ Ledger.handed (Ledger.of i h))
    (hj : x ∈ Ledger.handed (Ledger.of j h)) : i = j := by
  by_contra hij
  have hn := List.nodup_iff_count_le_one.mp (handed_nodup hf.account) x
  have ha := Ledger.handed_apart h hij x
  have hi := List.count_pos_iff.mpr hi
  have hj := List.count_pos_iff.mpr hj
  omega

omit hf in
theorem once (hf : Fair (h ++ ds) f) {x : String} (hx : x ∈ Ledger.handed h) :
    x ∉ Ledger.handed ds := by
  intro hx'
  have hn := handed_nodup hf.account
  rw [Ledger.handed_append] at hn
  exact (List.nodup_append.mp hn).2.2 x hx x hx' rfl

/-- Whoever owes an acknowledgement was handed the entry. -/
theorem owed_handed {j : Nat} {p : Station} (hp : f.stations[j]? = some p) {x : String}
    (hx : x ∈ p.owed) : x ∈ Ledger.handed (Ledger.of j h) := by
  have ho := (hf.owing j).owed x
  have hc := hf.claimed j x
  have hpos := List.count_pos_iff.mpr hx
  rw [hp] at ho hc
  simp only [Option.map_some, Option.getD_some] at ho hc
  exact List.count_pos_iff.mp (by omega)

theorem still (hc : ∀ e ∈ Ledger.handedOut h, ∀ n, e.id = entryId n → n ≤ f.shelf.last)
    {sh : Shelf} (ha : f.shelf.Ages sh) :
    ∀ e ∈ Ledger.handedOut h, ∀ p ∈ sh.entries, entryId p.1 = e.id → numbered p = e := by
  intro e he p hp hid
  rcases ha p hp with hp | hlt
  · exact hf.unaltered e he p hp hid
  · exact absurd hlt (Nat.not_lt.mpr (hc e he p.1 hid.symm))

variable (hs : f.shelf.Sound)
include hs

theorem bounded : ∀ e ∈ Ledger.handedOut h, ∀ n, e.id = entryId n → n ≤ f.shelf.last :=
  fun _ he _ hn => Nat.le_trans (hf.handed_le (hn ▸ List.mem_map_of_mem he)) hs.cursor_le

theorem move {f₁ : Flow} (step : f.Step ds f₁) (stops : f₁.Stops f') : Fair (h ++ ds) f' where
  account := account_step hs hf.account step stops
  claimed i := by
    have hc := (hf.claimed i).turn (step.turn i)
    rcases stops.turn i with he | ⟨p, hp, he⟩
    · rwa [he]
    · rw [hp] at hc
      rw [he]
      exact hc.stop
  owing i := by
    have ho := (hf.owing i).turn (step.turn i)
    rcases stops.turn i with he | ⟨p, hp, he⟩
    · rwa [he]
    · rw [hp] at ho
      rw [he]
      exact ho.stop
  unaltered e he p hp hid := by
    rw [stops.shelf] at hp
    rw [Ledger.handedOut_append, List.mem_append] at he
    rcases he with he | he
    · exact hf.still (hf.bounded hs) step.ages e he p hp hid
    · obtain ⟨consumer, bs, hb, b, hm, rfl⟩ := step.handedOut he
      have hold : b ∈ f.shelf.entries := (Shelf.waiting_beyond (hb.next.subset hm)).1
      obtain ⟨g, -, hsh⟩ := hb.after
      rw [hsh] at hp
      rw [hs.unique hp hold (entryId_injective hid)]

theorem visit {x : Option Notice} {sh : Shelf} (hx : f.shelf.Notices x sh) :
    Fair h ⟨sh, f.stations⟩ where
  account := by
    obtain ⟨ns, hns, ho, hc⟩ := hf.account.numbers
    exact ⟨hf.account.fit, hf.account.claims, hf.account.owed, ns, hns, ho,
      fun n hn => Nat.le_trans (hc n hn) (hx.cursor_le hs)⟩
  claimed := hf.claimed
  owing := hf.owing
  unaltered := hf.still (hf.bounded hs) hx.ages

theorem meets (hm : f.Meets ds f') : Fair (h ++ ds) f' := by
  cases hm with
  | move step stops => exact hf.move hs step stops
  | visit notices =>
    rw [List.append_nil]
    exact hf.visit hs notices

end Fair

/-- A store is closed when it is asked to be. -/
theorem Store.obey_closed (s : Store) {op : Op} (hop : op ≠ .close) :
    (s.obey op).closed = s.closed := by
  cases op with
  | close => exact absurd rfl hop
  | createGroup q =>
    simp only [obey]
    split
    · next h => exact createGroup_closed s h
    · rfl
  | add stream fields maxLen =>
    simp only [obey]
    split
    · next h =>
      unfold append at h
      split at h <;> cases h
      rfl
    · rfl
  | read q consumer count => exact s.beginRead_closed ..
  | ack q id => exact s.ack_closed ..
  | claim q consumer ids =>
    obtain ⟨f, g, h⟩ := claim_local q consumer ids
    simp only [obey, h]
  | _ => rfl

namespace World

inductive Incident
  | move (m : Move)
  | visit (op : Store.Op)

def meet (w : World) : Incident → World
  | .move m => w.move m
  | .visit op => { w with store := w.store.obey op }

def through : List Incident → World → World
  | [], w => w
  | x :: xs, w => through xs (w.meet x)

def incidentDeeds (q : Queue) (w : World) : Incident → List Deed
  | .move m => w.deeds q m
  | .visit _ => []

def tale (q : Queue) : List Incident → World → List Deed
  | [], _ => []
  | x :: xs, w => w.incidentDeeds q x ++ tale q xs (w.meet x)

theorem through_append (xs ys : List Incident) (w : World) :
    through (xs ++ ys) w = through ys (through xs w) := by
  induction xs generalizing w with
  | nil => rfl
  | cons x xs ih => exact ih (w.meet x)

section
variable {w : World} (hw : w.Regular)
include hw

theorem Regular.visit (op : Store.Op) : (w.meet (.visit op)).Regular where
  proper := ⟨hw.proper.workers, hw.proper.calls, Store.obey_sound hw.proper.shelves op⟩
  lived i := by
    obtain ⟨h, hl⟩ := hw.lived i
    by_cases hop : op = .close
    · subst hop
      exact ⟨_, hl.run (move_run hw.proper hl .closeStore)⟩
    · refine ⟨h, ?_⟩
      have hp : (w.meet (.visit op)).post i = w.post i := by
        simp only [post, meet, w.store.obey_closed hop]
      rwa [hp]
  filed := ⟨hw.filed.sorted, hw.filed.known, hw.filed.owners⟩
  past := hw.past
  signed := hw.signed
  tame := hw.tame

theorem Regular.meet (x : Incident) : (w.meet x).Regular := by
  cases x with
  | move m => exact hw.move m
  | visit op => exact hw.visit op

theorem Regular.through (xs : List Incident) : (through xs w).Regular := by
  induction xs generalizing w with
  | nil => exact hw
  | cons x xs ih => exact ih (hw.meet x)

/-- A worker keeps its settings. -/
theorem Regular.worker_through (xs : List Incident) {i : Nat} {k : Worker}
    (hk : w.workers[i]? = some k) :
    ∃ k', (World.through xs w).workers[i]? = some k' ∧ k'.settings = k.settings := by
  induction xs generalizing w k with
  | nil => exact ⟨k, hk, rfl⟩
  | cons x xs ih =>
    have step : ∃ k₁, (w.meet x).workers[i]? = some k₁ ∧ k₁.settings = k.settings := by
      cases x with
      | move m => exact hw.worker_move hk m
      | visit op => exact ⟨k, hk, rfl⟩
    obtain ⟨k₁, hk₁, hs₁⟩ := step
    obtain ⟨k', hk', hs'⟩ := ih (hw.meet x) hk₁
    exact ⟨k', hk', hs'.trans hs₁⟩

theorem meet_flow (q : Queue) (x : Incident) :
    (w.flow q).Meets (w.incidentDeeds q x) ((w.meet x).flow q) := by
  cases x with
  | move m =>
    obtain ⟨f, hf, hs⟩ := (move_follows hw.proper m).flow q
    exact .move hf hs
  | visit op => exact .visit (f := w.flow q) (Store.obey_notices q w.store op)

end

theorem onStore_fair (view : StoreView) (ops : List Store.Op) (q : Queue) :
    Fair [] ((onStore view ops).flow q) where
  account := onStore_account view ops q
  claimed i := by simpa [history, run] using run_claimed view ops [] q i
  owing i := by simpa [annals, play] using play_owing view ops [] q i
  unaltered := nofun

end World

end TaskRelay
