import TaskRelay.Proofs.Store.Group

/-!
# What an identifier cites

An entry has one identifier, and many texts are read as its number: an identifier counts up to
its first hyphen, and the number in front may have a plus sign and leading zeros.
Acknowledgements and claims go by the number. They do to the pending list of their group what
a comparison of the texts would, unless an entry is pending that one of the texts cites
without being its identifier. Other groups they leave alone.
-/

set_option autoImplicit false

namespace TaskRelay

def Cites (id : String) (n : Nat) : Prop :=
  Text.Writes (id.toList.takeWhile (· ≠ '-')) n ∧ n ≤ Text.maxU64

theorem entryNumber?_eq_some_iff {id : String} {n : Nat} :
    entryNumber? id = some n ↔ Cites id n := by
  have h : Text.natural Text.maxU64 (String.ofList (id.toList.takeWhile (· ≠ '-'))) = .ok n ↔
      Cites id n := by
    rw [Text.natural_ok_iff, String.toList_ofList, Cites]
  rw [← h, entryNumber?]
  cases Text.natural Text.maxU64 _ <;> simp [Except.toOption]

instance (id : String) (n : Nat) : Decidable (Cites id n) :=
  decidable_of_iff _ entryNumber?_eq_some_iff

/-- What an entry is printed with cites it and no other. -/
theorem cites_entryId {n : Nat} (hn : n ≤ Text.maxU64) (m : Nat) :
    Cites (entryId n) m ↔ m = n := by
  rw [← entryNumber?_eq_some_iff, entryNumber_entryId, if_pos hn, Option.some.injEq, eq_comm]

section
variable (ids : List String) (n : Nat)

theorem mem_numbers : n ∈ ids.filterMap entryNumber? ↔ ∃ id ∈ ids, Cites id n := by
  simp only [List.mem_filterMap, entryNumber?_eq_some_iff]

theorem count_numbers : (ids.filterMap entryNumber?).count n = ids.countP (Cites · n) := by
  induction ids with
  | nil => rfl
  | cons id ids ih =>
    have hid : entryNumber? id = some n ↔ Cites id n := entryNumber?_eq_some_iff
    rw [List.filterMap_cons, List.countP_cons, ← ih]
    cases hm : entryNumber? id with
    | none => simp [← hid, hm]
    | some m => simp [← hid, hm, List.count_cons]

end

theorem Table.erase_eq_filter {β : Type} (n : Nat) (t : Table Nat β) :
    t.erase n = t.filter fun x => x.1 ≠ n := by
  induction t with
  | nil => rfl
  | cons x t ih =>
    obtain ⟨m, b⟩ := x
    by_cases h : n = m
    · subst h
      simp [erase, ih]
    · simp [erase, h, Ne.symm h, ih]

namespace Store

variable (s : Store) (q : Queue)

theorem pending_eq_shelf : s.pending q.stream q.group = (s.shelf q).pending := rfl

theorem ack_ok_iff (id : String) :
    (s.ack q.stream q.group id).2 = .ok () ↔ s.failingAcks = 0 ∧ s.closed = false := by
  unfold ack
  cases s.failingAcks with
  | succ n => simp
  | zero =>
    cases s.closed with
    | true => simp
    | false =>
      simp only [Bool.false_eq_true, if_false, and_self, iff_true]
      split <;> rfl

/-- An acknowledgement that gets through takes the entry that is cited off its list. -/
theorem ack_pending (id : String) (q' : Queue) :
    (s.ack q.stream q.group id).1.pending q'.stream q'.group =
      if q' = q ∧ s.failingAcks = 0 ∧ s.closed = false then
        (s.pending q.stream q.group).filter fun p => ¬Cites id p.1
      else s.pending q'.stream q'.group := by
  unfold ack
  cases hf : s.failingAcks with
  | succ n => exact (if_neg (by simp)).symm
  | zero =>
    cases hc : s.closed with
    | true => simp
    | false =>
      simp only [Bool.false_eq_true, if_false, and_self, and_true]
      by_cases hq : q' = q
      · subst hq
        rw [if_pos rfl]
        cases hg : s.group? q'.stream q'.group with
        | none => simp [pending, hg]
        | some g =>
          have hp : s.pending q'.stream q'.group = g.pending := by simp [pending, hg]
          cases hn : entryNumber? id with
          | none => simp [hp, ← entryNumber?_eq_some_iff, hn]
          | some n =>
            rw [pending_eq_shelf, shelf_setGroup, if_pos rfl, hp]
            simp [Shelf.pending, Table.erase_eq_filter, ← entryNumber?_eq_some_iff, hn, eq_comm]
      · rw [if_neg hq]
        split
        · rw [pending_eq_shelf, shelf_setGroup, if_neg hq, pending_eq_shelf]
        · rfl

end Store

def Pending.afterClaim (consumer : String) (ids : List String) (n : Nat) (p : Pending) : Pending :=
  ⟨if ∃ id ∈ ids, Cites id n then consumer else p.consumer,
    p.deliveries + ids.countP (Cites · n)⟩

theorem Pending.afterClaim_eq_self_iff (consumer : String) (ids : List String) (n : Nat)
    (p : Pending) : p.afterClaim consumer ids n = p ↔ ¬∃ id ∈ ids, Cites id n := by
  constructor
  · rintro h ⟨id, hid, hc⟩
    have hd : p.deliveries + ids.countP (Cites · n) = p.deliveries := congrArg Pending.deliveries h
    have hpos : 0 < ids.countP (Cites · n) :=
      List.countP_pos_iff.mpr ⟨id, hid, decide_eq_true hc⟩
    omega
  · intro h
    have hcount : ids.countP (Cites · n) = 0 :=
      List.countP_eq_zero.mpr fun id hid hc => h ⟨id, hid, of_decide_eq_true hc⟩
    rw [afterClaim, if_neg h, hcount]
    rfl

namespace Store

theorem claim_pending_shelf (s : Store) (q : Queue) (consumer : String) (ids : List String) :
    (s.claim q.stream q.group consumer ids).1.pending q.stream q.group =
      ((s.shelf q).claim consumer (ids.filterMap entryNumber?)).pending := by
  rw [pending_eq_shelf, (s.claim_gives q consumer ids).1 q, if_pos rfl]

variable {s : Store} {q : Queue} (hs : (s.shelf q).pending.Sorted)
include hs

theorem mem_claim_pending (consumer : String) (ids : List String) (n : Nat) (p : Pending) :
    (n, p) ∈ (s.claim q.stream q.group consumer ids).1.pending q.stream q.group ↔
      ∃ p₀, (n, p₀) ∈ s.pending q.stream q.group ∧ p = p₀.afterClaim consumer ids n := by
  rw [claim_pending_shelf, (Shelf.claim_sorted hs consumer _).mem_iff, Shelf.claim_get,
    Option.map_eq_some_iff]
  refine exists_congr fun p₀ => and_congr (hs.mem_iff n p₀).symm ?_
  rw [Pending.afterClaim, ← count_numbers]
  simp only [mem_numbers, eq_comm]

/-- A claim alters the entries that are cited, each as often as it is. -/
theorem claim_pending (consumer : String) (ids : List String) :
    (s.claim q.stream q.group consumer ids).1.pending q.stream q.group =
      (s.pending q.stream q.group).map fun p => (p.1, p.2.afterClaim consumer ids p.1) := by
  have : Std.Irrefl fun x y : Nat × Pending => x.1 < y.1 := ⟨fun x => Nat.lt_irrefl x.1⟩
  have : Std.Antisymm fun x y : Nat × Pending => x.1 < y.1 :=
    ⟨fun x y h₁ h₂ => absurd h₁ (Nat.lt_asymm h₂)⟩
  have sorted : Table.Sorted
      ((s.claim q.stream q.group consumer ids).1.pending q.stream q.group) := by
    rw [claim_pending_shelf]
    exact Shelf.claim_sorted hs consumer _
  refine List.Pairwise.eq_of_mem_iff sorted (List.pairwise_map.mpr hs) fun ⟨n, p⟩ => ?_
  rw [mem_claim_pending hs, List.mem_map]
  constructor
  · rintro ⟨p₀, hp₀, rfl⟩
    exact ⟨(n, p₀), hp₀, rfl⟩
  · rintro ⟨⟨m, p₀⟩, hp₀, he⟩
    cases he
    exact ⟨p₀, hp₀, rfl⟩

/-- A claim leaves exactly the entries as they are that no identifier cites. -/
theorem claim_keeps (consumer : String) (ids : List String) {p : Nat × Pending}
    (hp : p ∈ s.pending q.stream q.group) :
    p ∈ (s.claim q.stream q.group consumer ids).1.pending q.stream q.group ↔
      ¬∃ id ∈ ids, Cites id p.1 := by
  obtain ⟨n, p⟩ := p
  rw [mem_claim_pending hs, ← Pending.afterClaim_eq_self_iff consumer ids n p]
  constructor
  · rintro ⟨p₀, hp₀, he⟩
    have same : p₀ = p := by
      have found := (hs.mem_iff n p).mp hp
      exact Option.some.inj (((hs.mem_iff n p₀).mp hp₀).symm.trans found)
    rw [same] at he
    exact he.symm
  · exact fun he => ⟨p, hp, he.symm⟩

end Store

theorem filter_eq_filter_iff {α : Type} {f g : α → Bool} {l : List α} :
    l.filter f = l.filter g ↔ ∀ a ∈ l, f a = g a := by
  constructor
  · intro h a ha
    have hm : a ∈ l.filter f ↔ a ∈ l.filter g := by rw [h]
    rw [List.mem_filter, List.mem_filter, and_iff_right ha, and_iff_right ha] at hm
    exact Bool.eq_iff_iff.mpr hm
  · exact fun h => List.filter_congr h

/-- Whatever was done to a store, an acknowledgement that gets through takes the entry off the
list of its group that its identifier cites, and one that fails changes no list. A claim gives
its consumer the entries that its identifiers cite. Each does what it would if it went by what
the entries are printed with exactly as long as no pending entry is cited otherwise. -/
theorem cited_entries (ops : List Store.Op) (q : Queue) (consumer id : String)
    (ids : List String) :
    let s := Store.after ops
    let old := s.pending q.stream q.group
    let acked := s.ack q.stream q.group id
    let claimed := (s.claim q.stream q.group consumer ids).1
    (∀ n ≤ Text.maxU64, ∀ m, Cites (entryId n) m ↔ m = n) ∧
    (acked.2 = .ok () ↔ s.failingAcks = 0 ∧ s.closed = false) ∧
    (∀ q', q' ≠ q ∨ acked.2 ≠ .ok () →
      acked.1.pending q'.stream q'.group = s.pending q'.stream q'.group) ∧
    (acked.2 = .ok () →
      acked.1.pending q.stream q.group = old.filter (fun p => ¬Cites id p.1) ∧
      (acked.1.pending q.stream q.group = old.filter (fun p => entryId p.1 ≠ id) ↔
        ∀ p ∈ old, Cites id p.1 ↔ entryId p.1 = id)) ∧
    (∀ q', q' ≠ q → claimed.pending q'.stream q'.group = s.pending q'.stream q'.group) ∧
    claimed.pending q.stream q.group =
      old.map (fun p => (p.1, p.2.afterClaim consumer ids p.1)) ∧
    ((∀ p ∈ old, p ∈ claimed.pending q.stream q.group ↔ entryId p.1 ∉ ids) ↔
      ∀ p ∈ old, (∃ id ∈ ids, Cites id p.1) ↔ entryId p.1 ∈ ids) := by
  intro s old acked claimed
  have hs : (s.shelf q).pending.Sorted := (after_recounts ops q).accounts.sorted
  refine ⟨fun n => cites_entryId, s.ack_ok_iff q id, fun q' h => ?_, fun h => ?_, fun q' h => ?_,
    Store.claim_pending hs consumer ids, ?_⟩
  · refine (s.ack_pending q id q').trans (if_neg fun h' => ?_)
    exact h.elim (absurd h'.1) (absurd ((s.ack_ok_iff q id).mpr h'.2))
  · have taken : acked.1.pending q.stream q.group = old.filter (fun p => ¬Cites id p.1) :=
      (s.ack_pending q id q).trans (if_pos ⟨rfl, (s.ack_ok_iff q id).mp h⟩)
    refine ⟨taken, ?_⟩
    rw [taken, filter_eq_filter_iff]
    simp
  · have after := (s.claim_gives q consumer ids).1 q'
    rw [if_neg h] at after
    rw [Store.pending_eq_shelf, after, Store.pending_eq_shelf]
  · refine forall₂_congr fun p hp => ?_
    rw [Store.claim_keeps hs consumer ids hp, not_iff_not]

def twoHeld : List Store.Op :=
  let q : Queue := ⟨"tasks", "workers"⟩
  [.createGroup q, .add "tasks" [("body", "x")] 0, .add "tasks" [("body", "y")] 0, .read q "c" 2]

/-- By what it is printed with, one of them is acknowledged, and the other claimed. -/
theorem printed_entries :
    let s := Store.after twoHeld
    let old := s.pending "tasks" "workers"
    let acked := s.ack "tasks" "workers" "2-0"
    let claimed := (s.claim "tasks" "workers" "d" ["1-0"]).1
    old = [(1, ⟨"c", 1⟩), (2, ⟨"c", 1⟩)] ∧
    acked.1.pending "tasks" "workers" = old.filter (fun p => entryId p.1 ≠ "2-0") ∧
    old.filter (fun p => entryId p.1 ≠ "2-0") = [(1, ⟨"c", 1⟩)] ∧
    (∀ p ∈ old, p ∈ claimed.pending "tasks" "workers" ↔ entryId p.1 ∉ ["1-0"]) ∧
    claimed.pending "tasks" "workers" = [(1, ⟨"d", 2⟩), (2, ⟨"c", 1⟩)] := by
  intro s old acked claimed
  obtain ⟨-, ok, -, ack, -, -, claim⟩ :=
    cited_entries twoHeld ⟨"tasks", "workers"⟩ "d" "2-0" ["1-0"]
  exact ⟨by decide +kernel, (ack (ok.mpr (by decide +kernel))).2.mpr (by decide +kernel),
    by decide +kernel, claim.mpr (by decide +kernel), by decide +kernel⟩

/-- With another part behind the hyphen, or a sign and a zero in front, an identifier that no
entry is printed with takes the first of them off the list, or to another consumer. -/
theorem unprinted_entries :
    let s := Store.after twoHeld
    let old := s.pending "tasks" "workers"
    old = [(1, ⟨"c", 1⟩), (2, ⟨"c", 1⟩)] ∧
    old.map (fun p => entryId p.1) = ["1-0", "2-0"] ∧
    (s.ack "tasks" "workers" "1-7").1.pending "tasks" "workers" = [(2, ⟨"c", 1⟩)] ∧
    (s.claim "tasks" "workers" "d" ["+01"]).1.pending "tasks" "workers" =
      [(1, ⟨"d", 2⟩), (2, ⟨"c", 1⟩)] := by
  decide +kernel

end TaskRelay
