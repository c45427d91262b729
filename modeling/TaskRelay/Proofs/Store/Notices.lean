import TaskRelay.Proofs.Store.Calls
import TaskRelay.Proofs.Store.Number

/-!
# What operations mean to a group

Of the operations of a store a group only notices its own creation, the additions to
its stream, and the reads, acknowledgements and claims made in its name. Each of them
changes its shelf in a way that the notice determines, and whatever it does not
notice leaves its shelf alone.
-/

set_option autoImplicit false

namespace TaskRelay
open scoped List

inductive Notice
  | created
  | added (e : Entry) (maxLen : Nat)
  | handed (consumer : String) (count : Nat) (es : List Entry)
  | acked (n : Nat)
  | claimed (consumer : String) (ns : List Nat) (es : List Entry)

namespace Store

def notice? (q : Queue) (s : Store) : Op → Option Notice
  | .createGroup q' =>
    match s.createGroup q'.stream q'.group with
    | .ok _ => if q' = q then some .created else none
    | .error _ => none
  | .add stream fields maxLen =>
    match s.append stream fields maxLen with
    | .ok (_, id) => if stream = q.stream then some (.added ⟨id, fields⟩ maxLen) else none
    | .error _ => none
  | .read q' consumer count =>
    match (s.beginRead 0 q'.stream q'.group consumer count 0).2 with
    | .done (.ok es) =>
      if q' = q then some (.handed consumer count es) else none
    | _ => none
  | .ack q' id =>
    match (s.ack q'.stream q'.group id).2 with
    | .ok () => if q' = q then (entryNumber? id).map .acked else none
    | .error _ => none
  | .claim q' consumer ids =>
    if q' = q then
      some (.claimed consumer (ids.filterMap entryNumber?)
        (s.claim q.stream q.group consumer ids).2)
    else none
  | _ => none

def history (q : Queue) : List Op → Store → List Notice
  | [], _ => []
  | op :: ops, s => (s.notice? q op).toList ++ history q ops (s.obey op)

end Store

def Group.give (consumer : String) (g : Group) (n : Nat) : Group :=
  match Table.get? n g.pending with
  | some p => { g with pending := Table.insert n ⟨consumer, p.deliveries + 1⟩ g.pending }
  | none => g

namespace Shelf

def give (consumer : String) (sh : Shelf) (n : Nat) : Shelf :=
  { sh with group := sh.group.map (Group.give consumer · n) }

def claim (consumer : String) (ns : List Nat) (sh : Shelf) : Shelf := ns.foldl (give consumer) sh

def claimable (sh : Shelf) (ns : List Nat) : List Entry :=
  ns.flatMap fun n =>
    if (Table.get? n sh.pending).isSome then (sh.entries.filter (·.1 == n)).map numbered else []

theorem give_pending (consumer : String) (sh : Shelf) (n m : Nat) :
    Table.get? m (sh.give consumer n).pending =
      (Table.get? m sh.pending).map fun p => if m = n then ⟨consumer, p.deliveries + 1⟩ else p := by
  cases hg : sh.group with
  | none => simp [give, pending, hg, Table.get?]
  | some g =>
    have hp : (sh.give consumer n).pending = (g.give consumer n).pending := by
      simp [give, pending, hg]
    have hp' : sh.pending = g.pending := by simp [pending, hg]
    rw [hp, hp', Group.give]
    by_cases hm : m = n
    · subst hm
      cases ht : Table.get? m g.pending with
      | none => simp [ht]
      | some p => simp [Table.get?_insert_self]
    · cases ht : Table.get? n g.pending with
      | none => simp [hm]
      | some p => simp [Table.get?_insert_of_ne hm, hm]

theorem give_claimable (consumer : String) (sh : Shelf) (n : Nat) (ns : List Nat) :
    (sh.give consumer n).claimable ns = sh.claimable ns := by
  unfold claimable
  congr 1
  funext m
  rw [give_pending, Option.isSome_map]
  rfl

end Shelf

namespace Store

theorem claimOne_gives (s : Store) (q' : Queue) (consumer : String) (n : Nat) :
    (∀ q, (s.claimOne q'.stream q'.group consumer n).1.shelf q =
      if q = q' then (s.shelf q).give consumer n else s.shelf q) ∧
    (s.claimOne q'.stream q'.group consumer n).2 = (s.shelf q').claimable [n] := by
  have none_given (h : (s.shelf q').give consumer n = s.shelf q') (q : Queue) :
      s.shelf q = if q = q' then (s.shelf q).give consumer n else s.shelf q := by
    by_cases hq : q = q'
    · rw [if_pos hq, hq, h]
    · rw [if_neg hq]
  unfold claimOne
  cases hg : s.group? q'.stream q'.group with
  | none =>
    exact ⟨none_given (by simp [Shelf.give, shelf, hg]),
      by simp [Shelf.claimable, Shelf.pending, shelf, hg, Table.get?]⟩
  | some g =>
    cases hp : Table.get? n g.pending with
    | none =>
      simp only [hp]
      exact ⟨none_given (by simp [Shelf.give, shelf, hg, Group.give, hp]),
        by simp [Shelf.claimable, Shelf.pending, shelf, hg, hp]⟩
    | some p =>
      refine ⟨fun q => ?_, by simp [Shelf.claimable, Shelf.pending, shelf, hg, hp]⟩
      simp only [hp, shelf_setGroup]
      by_cases hq : q = q'
      · subst hq
        rw [if_pos rfl, if_pos rfl]
        simp [Shelf.give, shelf, hg, Group.give, hp]
      · rw [if_neg hq, if_neg hq]

def claimNext (q : Queue) (consumer : String) (p : Store × List Entry) (n : Nat) :
    Store × List Entry :=
  ((p.1.claimOne q.stream q.group consumer n).1,
    p.2 ++ (p.1.claimOne q.stream q.group consumer n).2)

theorem claimNext_gives (q' : Queue) (consumer : String) (ns : List Nat) (p : Store × List Entry) :
    (∀ q, (ns.foldl (claimNext q' consumer) p).1.shelf q =
      if q = q' then (p.1.shelf q).claim consumer ns else p.1.shelf q) ∧
    (ns.foldl (claimNext q' consumer) p).2 = p.2 ++ (p.1.shelf q').claimable ns := by
  induction ns generalizing p with
  | nil => exact ⟨fun q => by simp [Shelf.claim], by simp [Shelf.claimable]⟩
  | cons n ns ih =>
    obtain ⟨hsh, hes⟩ := claimOne_gives p.1 q' consumer n
    obtain ⟨ih₁, ih₂⟩ := ih (claimNext q' consumer p n)
    refine ⟨fun q => (ih₁ q).trans ?_, ih₂.trans ?_⟩
    · rw [claimNext, hsh]
      split
      · rfl
      · rfl
    · rw [claimNext, hsh, if_pos rfl, Shelf.give_claimable, hes, List.append_assoc]
      simp [Shelf.claimable]

/-- A claim is one gift after the other, and gifts do not change what can be claimed. -/
theorem claim_gives (s : Store) (q' : Queue) (consumer : String) (ids : List String) :
    (∀ q, (s.claim q'.stream q'.group consumer ids).1.shelf q =
      if q = q' then (s.shelf q).claim consumer (ids.filterMap entryNumber?) else s.shelf q) ∧
    (s.claim q'.stream q'.group consumer ids).2 =
      (s.shelf q').claimable (ids.filterMap entryNumber?) := by
  have h := claimNext_gives q' consumer (ids.filterMap entryNumber?) (s, [])
  exact ⟨h.1, h.2.trans (List.nil_append _)⟩

end Store

inductive Shelf.Notices (sh : Shelf) : Option Notice → Shelf → Prop
  | idle : Notices sh none sh
  | created : Notices sh (some .created) sh.found
  | added (fields : Fields) (maxLen : Nat) :
      Notices sh (some (.added ⟨entryId (sh.last + 1), fields⟩ maxLen)) (sh.append fields maxLen)
  | handed {consumer : String} {bs : List (Nat × Fields)} {sh' : Shelf} (count : Nat)
      (next : bs = sh.waiting.take (max count 1)) (hands : sh.Hands consumer bs sh') :
      Notices sh (some (.handed consumer count (bs.map numbered))) sh'
  | missed (consumer : String) (count : Nat) (none : sh.waiting = []) :
      Notices sh (some (.handed consumer count [])) sh
  | acked (n : Nat) : Notices sh (some (.acked n)) (sh.ack n)
  | claimed (consumer : String) (ns : List Nat) :
      Notices sh (some (.claimed consumer ns (sh.claimable ns))) (sh.claim consumer ns)

namespace Store

variable (q : Queue) (s : Store)

theorem createGroup_notices (q' : Queue) :
    (s.shelf q).Notices (s.notice? q (.createGroup q')) ((s.obey (.createGroup q')).shelf q) := by
  cases h : s.createGroup q'.stream q'.group with
  | ok s' =>
    simp only [notice?, obey, h]
    rw [createGroup_shelf h]
    by_cases hq : q' = q
    · rw [if_pos hq, if_pos hq.symm]
      exact .created
    · rw [if_neg hq, if_neg (Ne.symm hq)]
      exact .idle
  | error e =>
    simp only [notice?, obey, h]
    exact .idle

theorem add_notices (stream : String) (fields : Fields) (maxLen : Nat) :
    (s.shelf q).Notices (s.notice? q (.add stream fields maxLen))
      ((s.obey (.add stream fields maxLen)).shelf q) := by
  cases h : s.append stream fields maxLen with
  | ok r =>
    obtain ⟨s', id⟩ := r
    simp only [notice?, obey, h]
    rw [append_shelf h, append_id h]
    by_cases hq : stream = q.stream
    · subst hq
      rw [if_pos rfl, if_pos rfl]
      exact .added fields maxLen
    · rw [if_neg hq, if_neg (Ne.symm hq)]
      exact .idle
  | error e =>
    simp only [notice?, obey, h]
    exact .idle

theorem read_notices (q' : Queue) (consumer : String) (count : Nat) :
    (s.shelf q).Notices (s.notice? q (.read q' consumer count))
      ((s.obey (.read q' consumer count)).shelf q) := by
  simp only [notice?, obey]
  unfold beginRead
  cases s.failingReads with
  | succ n => exact .idle
  | zero =>
    simp only [look]
    unfold deliver
    by_cases hc : s.closed = true
    · simp only [hc, if_true]
      exact .idle
    cases hg : s.group? q'.stream q'.group with
    | none =>
      simp only [hc, Bool.false_eq_true, if_false]
      exact .idle
    | some g =>
      have hw : batch (s.stream q'.stream) g count =
          ((s.shelf q').waiting).take (max count 1) := by
        simp [Shelf.waiting, shelf, hg, batch]
      simp only [hc, Bool.false_eq_true, if_false, hw]
      cases hb : ((s.shelf q').waiting).take (max count 1) with
      | nil =>
        simp only [Nat.add_zero, Nat.le_refl, if_true]
        by_cases hq : q' = q
        · subst hq
          rw [if_pos rfl]
          refine .missed consumer count ?_
          rcases List.take_eq_nil_iff.mp hb with h | h
          · omega
          · exact h
        · rw [if_neg hq]
          exact .idle
      | cons b bs =>
        simp only
        rw [shelf_setGroup]
        by_cases hq : q' = q
        · subst hq
          rw [if_pos rfl, if_pos rfl, ← hb]
          exact .handed count rfl ⟨by simp [hb], List.take_prefix _ _, g, hg, rfl⟩
        · rw [if_neg hq, if_neg (Ne.symm hq)]
          exact .idle

theorem ack_notices (q' : Queue) (id : String) :
    (s.shelf q).Notices (s.notice? q (.ack q' id)) ((s.obey (.ack q' id)).shelf q) := by
  simp only [notice?, obey]
  unfold ack
  cases s.failingAcks with
  | succ n => exact .idle
  | zero =>
    by_cases hc : s.closed = true
    · simp only [hc, if_true]
      exact .idle
    simp only [hc, Bool.false_eq_true, if_false]
    cases hn : entryNumber? id with
    | none =>
      cases hg : s.group? q'.stream q'.group <;>
        · simp only [Option.map_none, ite_self]
          exact .idle
    | some n =>
      cases hg : s.group? q'.stream q'.group with
      | none =>
        by_cases hq : q' = q
        · subst hq
          have hs : s.shelf q' = (s.shelf q').ack n := by simp [Shelf.ack, shelf, hg]
          simp only [if_true, Option.map_some]
          nth_rewrite 2 [hs]
          exact .acked n
        · simp only [hq, if_false]
          exact .idle
      | some g =>
        simp only [Option.map_some, shelf_setGroup]
        by_cases hq : q' = q
        · subst hq
          rw [if_pos rfl, if_pos rfl]
          have hs : (s.shelf q').ack n =
              { s.shelf q' with group := some { g with pending := Table.erase n g.pending } } := by
            simp [Shelf.ack, shelf, hg]
          rw [← hs]
          exact .acked n
        · rw [if_neg hq, if_neg (Ne.symm hq)]
          exact .idle

theorem claim_notices (q' : Queue) (consumer : String) (ids : List String) :
    (s.shelf q).Notices (s.notice? q (.claim q' consumer ids))
      ((s.obey (.claim q' consumer ids)).shelf q) := by
  obtain ⟨hsh, hes⟩ := claim_gives s q' consumer ids
  simp only [notice?, obey]
  rw [hsh]
  by_cases hq : q' = q
  · subst hq
    rw [if_pos rfl, if_pos rfl, hes]
    exact .claimed consumer _
  · rw [if_neg hq, if_neg (Ne.symm hq)]
    exact .idle

/-- A group notices what an operation does to its shelf. -/
theorem obey_notices (op : Op) : (s.shelf q).Notices (s.notice? q op) ((s.obey op).shelf q) := by
  cases op with
  | createGroup q' => exact createGroup_notices q s q'
  | add stream fields maxLen => exact add_notices q s stream fields maxLen
  | read q' consumer count => exact read_notices q s q' consumer count
  | ack q' id => exact ack_notices q s q' id
  | claim q' consumer ids => exact claim_notices q s q' consumer ids
  | close | delayAdds | failReads | failAcks => exact .idle

end Store

end TaskRelay
