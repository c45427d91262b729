import Mathlib.Data.List.Basic
import TaskRelay.Store.Call

/-!
# What a group sees of its stream

A queue is a group of a stream, and its shelf is the part of the store that
matters to it. Every operation of the store changes the shelf of a queue in one
of four ways: an entry is appended, the group is created, entries beyond the
cursor are handed out, or the pending list changes.
-/

set_option autoImplicit false

namespace TaskRelay
open scoped List

structure Queue where
  stream : String
  group : String
  deriving DecidableEq, Repr

structure Shelf where
  entries : List (Nat × Fields)
  last : Nat
  group : Option Group
  deriving DecidableEq, Repr

def Store.shelf (q : Queue) (s : Store) : Shelf :=
  ⟨(s.stream q.stream).entries, (s.stream q.stream).last, s.group? q.stream q.group⟩

namespace Shelf

def append (sh : Shelf) (fields : Fields) (maxLen : Nat) : Shelf :=
  { sh with
    entries := StreamLog.trim maxLen (sh.entries ++ [(sh.last + 1, fields)])
    last := sh.last + 1 }

def found (sh : Shelf) : Shelf :=
  { sh with group := some (sh.group.getD ⟨sh.last, []⟩) }

def ack (sh : Shelf) (n : Nat) : Shelf :=
  { sh with group := sh.group.map fun g => { g with pending := Table.erase n g.pending } }

def cursor (sh : Shelf) : Nat := (sh.group.map Group.cursor).getD 0

def waiting (sh : Shelf) : List (Nat × Fields) :=
  match sh.group with
  | some g => sh.entries.filter fun p => g.cursor < p.1
  | none => []

def pending (sh : Shelf) : Table Nat Pending :=
  match sh.group with
  | some g => g.pending
  | none => []

def gained (old new : Shelf) : List (Nat × Fields) :=
  new.entries.filter fun p => old.last < p.1

structure Hands (sh : Shelf) (consumer : String) (bs : List (Nat × Fields)) (sh' : Shelf) :
    Prop where
  some_entry : bs ≠ []
  next : bs <+: sh.waiting
  after : ∃ g, sh.group = some g ∧
    sh' = { sh with group := some (Store.Group.handOut g consumer bs) }

structure Sound (sh : Shelf) : Prop where
  ordered : sh.entries.Pairwise fun p p' => p.1 < p'.1
  bounded : ∀ p ∈ sh.entries, p.1 ≤ sh.last
  reached : ∀ g, sh.group = some g → g.cursor ≤ sh.last

end Shelf

namespace Store

theorem stream_setStream_self (s : Store) (name : String) (log : StreamLog) :
    (s.setStream name log).stream name = log := by
  simp [stream, setStream, Table.get?_insert_self]

theorem stream_setStream_of_ne (s : Store) {name other : String} (h : other ≠ name)
    (log : StreamLog) : (s.setStream name log).stream other = s.stream other := by
  simp [stream, setStream, Table.get?_insert_of_ne h]

theorem shelf_setGroup (s : Store) (q q' : Queue) (g : Group) :
    (s.setGroup q'.stream q'.group g).shelf q =
      if q = q' then { s.shelf q with group := some g } else s.shelf q := by
  obtain ⟨stream, group⟩ := q
  obtain ⟨stream', group'⟩ := q'
  by_cases hs : stream = stream'
  · subst hs
    by_cases hg : group = group'
    · subst hg
      simp [shelf, setGroup, group?, stream_setStream_self, Table.get?_insert_self]
    · simp [shelf, setGroup, group?, stream_setStream_self, Table.get?_insert_of_ne hg, hg]
  · simp [shelf, setGroup, group?, stream_setStream_of_ne _ hs, hs]

theorem append_shelf {s s' : Store} {stream id : String} {fields : Fields} {maxLen : Nat}
    (h : s.append stream fields maxLen = .ok (s', id)) (q : Queue) :
    s'.shelf q =
      if q.stream = stream then (s.shelf q).append fields maxLen else s.shelf q := by
  unfold append at h
  split at h
  · cases h
  · cases h
    by_cases hq : q.stream = stream
    · subst hq
      rw [if_pos rfl]
      have hl := stream_setStream_self s q.stream ((s.stream q.stream).append fields maxLen)
      change shelf q (s.setStream _ _) = _
      unfold shelf group?
      rw [hl]
      rfl
    · rw [if_neg hq]
      have hl := stream_setStream_of_ne s hq ((s.stream stream).append fields maxLen)
      change shelf q (s.setStream _ _) = _
      unfold shelf group?
      rw [hl]

theorem append_id {s s' : Store} {stream id : String} {fields : Fields} {maxLen : Nat}
    (h : s.append stream fields maxLen = .ok (s', id)) :
    id = entryId ((s.stream stream).last + 1) := by
  unfold append at h
  split at h <;> cases h
  rfl

theorem createGroup_shelf {s s' : Store} {q' : Queue}
    (h : s.createGroup q'.stream q'.group = .ok s') (q : Queue) :
    s'.shelf q = if q = q' then (s.shelf q).found else s.shelf q := by
  unfold createGroup at h
  split at h
  · cases h
  cases hg : s.group? q'.stream q'.group with
  | some g =>
    rw [hg] at h
    cases h
    by_cases hq : q = q'
    · subst hq
      simp [Shelf.found, shelf, hg]
    · rw [if_neg hq]
  | none =>
    rw [hg] at h
    cases h
    rw [shelf_setGroup]
    by_cases hq : q = q'
    · subst hq
      simp [Shelf.found, shelf, hg]
    · rw [if_neg hq, if_neg hq]

theorem deliver_shelf {s s' : Store} {q : Queue} {consumer : String} {count : Nat}
    {es : List Entry}
    (h : s.deliver q.stream q.group consumer count = .ok (some (s', es))) :
    (∃ bs, (s.shelf q).Hands consumer bs (s'.shelf q) ∧ es = bs.map numbered) ∧
      ∀ q', q' ≠ q → s'.shelf q' = s.shelf q' := by
  unfold deliver at h
  split at h
  · cases h
  cases hg : s.group? q.stream q.group with
  | none => simp [hg] at h
  | some g =>
    simp only [hg] at h
    split at h
    · cases h
    · next es' hne =>
      cases h
      refine ⟨⟨_, ⟨hne, ?_, g, hg, ?_⟩, rfl⟩, ?_⟩
      · have hw : (s.shelf q).waiting =
            (s.stream q.stream).entries.filter fun p => g.cursor < p.1 := by
          simp [Shelf.waiting, shelf, hg]
        rw [hw]
        exact List.take_prefix _ _
      · rw [shelf_setGroup, if_pos rfl]
      · intro q' hq
        rw [shelf_setGroup, if_neg hq]

theorem ack_shelf (s : Store) (q' : Queue) (id : String) (q : Queue) :
    (s.ack q'.stream q'.group id).1.shelf q = s.shelf q ∨
      q = q' ∧ ∃ n, entryNumber? id = some n ∧
        (s.ack q'.stream q'.group id).1.shelf q = (s.shelf q).ack n := by
  unfold ack
  cases s.failingAcks with
  | succ n => exact Or.inl rfl
  | zero =>
    by_cases hc : s.closed = true
    · exact Or.inl (by simp [hc])
    cases hg : s.group? q'.stream q'.group with
    | none => exact Or.inl (by simp [hc])
    | some g =>
      cases hn : entryNumber? id with
      | none => exact Or.inl (by simp [hc])
      | some n =>
        by_cases hq : q = q'
        · subst hq
          refine Or.inr ⟨rfl, n, rfl, ?_⟩
          simp only [hc, Bool.false_eq_true, if_false]
          rw [shelf_setGroup, if_pos rfl]
          simp [Shelf.ack, shelf, hg]
        · exact Or.inl (by simp [hc, shelf_setGroup, hq])

theorem claimOne_shelf (s : Store) (q' : Queue) (consumer : String) (n : Nat) (q : Queue) :
    ∃ f : Group → Group, (∀ g, (f g).cursor = g.cursor) ∧
      (s.claimOne q'.stream q'.group consumer n).1.shelf q =
        { s.shelf q with group := (s.shelf q).group.map f } := by
  have same : ∃ f : Group → Group, (∀ g, (f g).cursor = g.cursor) ∧
      s.shelf q = { s.shelf q with group := (s.shelf q).group.map f } :=
    ⟨id, fun _ => rfl, by simp⟩
  unfold claimOne
  cases hg : s.group? q'.stream q'.group with
  | none => exact same
  | some g =>
    cases hp : Table.get? n g.pending with
    | none => simpa only [hp] using same
    | some p =>
      simp only [hp, shelf_setGroup]
      by_cases hq : q = q'
      · subst hq
        exact ⟨fun g => { g with pending := Table.insert n ⟨consumer, p.deliveries + 1⟩ g.pending },
          fun _ => rfl, by simp [shelf, hg]⟩
      · rw [if_neg hq]
        exact same

end Store

end TaskRelay
