import Mathlib.Algebra.Ring.Nat
import TaskRelay.Proofs.Fitting
import TaskRelay.Proofs.Store.Notices

/-!
# Telling the state of a group from its history

The history of a group tells which entries were added to its stream since it was created,
which of them were handed out, and who holds an entry that was not acknowledged since.
-/

set_option autoImplicit false

namespace TaskRelay
open scoped List

namespace History

def handedOut (h : List Notice) : List Entry :=
  h.flatMap fun
    | .handed _ _ es => es
    | _ => []

def keepLast (maxLen : Nat) (es : List Entry) : List Entry :=
  if maxLen = 0 then es else es.drop (es.length - maxLen)

def additions (h : List Notice) : List Entry :=
  h.filterMap fun
    | .added e _ => some e
    | _ => none

def addedSince : List Notice → List Entry
  | [] => []
  | .created :: h => additions h
  | _ :: h => addedSince h

def restock (es : List Entry) : Notice → List Entry
  | .added e maxLen => keepLast maxLen (es ++ [e])
  | _ => es

def present (h : List Notice) : List Entry := h.foldl restock []

def namings (n : Nat) : Notice → Nat
  | .claimed _ ns _ => ns.count n
  | _ => 0

def claimer? (n : Nat) : Notice → Option String
  | .claimed consumer ns _ => if n ∈ ns then some consumer else none
  | _ => none

/-- An entry was handed out and not acknowledged since. It belongs to the last consumer that
claimed it, or else to the one that read it, and counts as delivered by the read and once
more whenever a claim named it. -/
def Held (h : List Notice) (n : Nat) (p : Pending) : Prop :=
  ∃ a consumer count es b, h = a ++ .handed consumer count es :: b ∧
    entryId n ∈ es.map Entry.id ∧ .acked n ∉ b ∧
    p.consumer = ((b.filterMap (claimer? n)).getLast?).getD consumer ∧
    p.deliveries = 1 + (b.map (namings n)).sum

/-- What a read or a claim returns, given the history before it. A read gets the next
entries added since the creation that are still in the stream and were not handed out; a
claim gets what it names if that is pending and still in the stream. -/
def Fits (a : List Notice) : Notice → Prop
  | .handed _ count es =>
    es = ((addedSince a).filter fun e => e ∈ present a ∧ e ∉ handedOut a).take (max 1 count)
  | .claimed _ ns es =>
    ∃ pending : Nat → Bool, (∀ n, pending n = true ↔ ∃ p, Held a n p) ∧
      es = ns.filterMap fun n =>
        if pending n then (present a).find? (·.id == entryId n) else none
  | _ => True

section
variable (h : List Notice) (x : Notice)

theorem handedOut_snoc : handedOut (h ++ [x]) = handedOut h ++ handedOut [x] :=
  List.flatMap_append

theorem addedSince_none (hc : .created ∉ h) : addedSince h = [] := by
  induction h with
  | nil => rfl
  | cons y h ih =>
    have hh := ih fun hm => hc (List.mem_cons_of_mem _ hm)
    cases y with
    | created => exact absurd List.mem_cons_self hc
    | _ => exact hh

theorem addedSince_created (hc : .created ∉ h) : addedSince (h ++ [.created]) = [] := by
  induction h with
  | nil => rfl
  | cons y h ih =>
    have hh := ih fun hm => hc (List.mem_cons_of_mem _ hm)
    cases y with
    | created => exact absurd List.mem_cons_self hc
    | _ => exact hh

theorem addedSince_snoc (hc : .created ∈ h) :
    addedSince (h ++ [x]) = addedSince h ++ additions [x] := by
  induction h with
  | nil => cases hc
  | cons y h ih =>
    cases y with
    | created => exact List.filterMap_append
    | _ => exact ih (by simpa using hc)

theorem present_snoc : present (h ++ [x]) = restock (present h) x := List.foldl_concat ..

end

def pass (n : Nat) (x : Notice) (p : Pending) : Pending :=
  ⟨(claimer? n x).getD p.consumer, p.deliveries + namings n x⟩

theorem held_snoc (h : List Notice) (x : Notice) (n : Nat) (p : Pending) :
    Held (h ++ [x]) n p ↔
      (∃ consumer count es, x = .handed consumer count es ∧
        entryId n ∈ es.map Entry.id ∧ p = ⟨consumer, 1⟩) ∨
      ∃ p₀, Held h n p₀ ∧ x ≠ .acked n ∧ p = pass n x p₀ := by
  constructor
  · rintro ⟨a, consumer, count, es, b, he, hes, hb, hc, hd⟩
    rcases split_snoc he with ⟨rfl, rfl, rfl⟩ | ⟨b', rfl, rfl⟩
    · exact Or.inl ⟨consumer, count, es, rfl, hes, by
        obtain ⟨c, d⟩ := p
        simpa using And.intro hc hd⟩
    · refine Or.inr ⟨⟨((b'.filterMap (claimer? n)).getLast?).getD consumer,
        1 + (b'.map (namings n)).sum⟩, ⟨a, consumer, count, es, b', rfl, hes,
          fun hm => hb (List.mem_append_left _ hm), rfl, rfl⟩, fun hx => hb (by simp [hx]), ?_⟩
      obtain ⟨c, d⟩ := p
      simp only [pass, Pending.mk.injEq]
      constructor
      · rw [show c = _ from hc, List.filterMap_append]
        cases hx : claimer? n x <;> simp [hx]
      · rw [show d = _ from hd]
        simp
        omega
  · rintro (⟨consumer, count, es, rfl, hes, rfl⟩ | ⟨p₀, hp₀, hx, rfl⟩)
    · exact ⟨h, consumer, count, es, [], rfl, hes, by simp, rfl, rfl⟩
    · obtain ⟨a, consumer, count, es, b, rfl, hes, hb, hc, hd⟩ := hp₀
      refine ⟨a, consumer, count, es, b ++ [x], by simp, hes, ?_, ?_, ?_⟩
      · intro hm
        rcases List.mem_append.mp hm with hm | hm
        · exact hb hm
        · exact hx (List.mem_singleton.mp hm).symm
      · rw [List.filterMap_append]
        cases hx : claimer? n x <;> simp [pass, hx, hc]
      · simp [pass, hd]
        omega

theorem held_handed {h : List Notice} {n : Nat} {p : Pending} (hp : Held h n p) :
    entryId n ∈ (handedOut h).map Entry.id := by
  obtain ⟨a, consumer, count, es, b, rfl, hes, -⟩ := hp
  simp only [handedOut, List.flatMap_append, List.flatMap_cons, List.map_append]
  exact List.mem_append_right _ (List.mem_append_left _ hes)

end History

end TaskRelay
