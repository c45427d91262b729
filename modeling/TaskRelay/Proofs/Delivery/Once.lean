import Mathlib.Data.List.Nodup
import Mathlib.Logic.Relation
import TaskRelay.Proofs.Delivery.Ledger

/-!
# Entries are delivered at most once

Over all workers of a queue no entry is returned by two requests, none is added again
twice, and none is added again that a request returned. So of an entry, its copy, the
copy of that and so on at most one is ever returned.
-/

set_option autoImplicit false

namespace TaskRelay
open Relation

def Ledger.Copied (h : List Deed) (id copy : String) : Prop := (id, copy) ∈ Ledger.readded h

section
variable {h : List Deed} {f : Flow} (ha : Account h f)
include ha

theorem handed_nodup : (Ledger.handed h).Nodup := by
  obtain ⟨ns, hn, ho, -⟩ := ha.numbers
  rw [hn]
  exact List.Nodup.map entryId_injective (ho.imp Nat.ne_of_lt)

theorem returned_or_requeued (x : String) :
    (Ledger.returned h).count x + (Ledger.requeued h).count x ≤ 1 := by
  have hc := ha.claims x
  have hn := List.nodup_iff_count_le_one.mp (handed_nodup ha) x
  omega

theorem returned_nodup : (Ledger.returned h).Nodup := by
  rw [List.nodup_iff_count_le_one]
  intro x
  have hc := returned_or_requeued ha x
  omega

theorem requeued_nodup : (Ledger.requeued h).Nodup := by
  rw [List.nodup_iff_count_le_one]
  intro x
  have hc := returned_or_requeued ha x
  omega

theorem returned_not_requeued {x : String} (hx : x ∈ Ledger.requeued h) :
    x ∉ Ledger.returned h := by
  intro hr
  have hc := returned_or_requeued ha x
  have h₁ := List.count_pos_iff.mpr hx
  have h₂ := List.count_pos_iff.mpr hr
  omega

/-- Only entries handed to a consumer loop are returned or added again. -/
theorem claimed_handed {x : String} (hx : x ∈ Ledger.returned h ∨ x ∈ Ledger.requeued h) :
    x ∈ Ledger.handed h := by
  have hc := ha.claims x
  rw [← List.count_pos_iff] at hx ⊢
  rw [← List.count_pos_iff] at hx
  omega

theorem copied_unique : Relator.RightUnique (Ledger.Copied h) := by
  intro x y z hy hz
  have hn : ((Ledger.readded h).map Prod.fst).Nodup := requeued_nodup ha
  exact (Prod.ext_iff.mp (List.inj_on_of_nodup_map hn hy hz rfl)).2

theorem returned_last {x y : String} (hx : x ∈ Ledger.returned h)
    (hxy : ReflTransGen (Ledger.Copied h) x y) : x = y := by
  rcases hxy.cases_head with rfl | ⟨z, hz, -⟩
  · rfl
  · have hm : x ∈ Ledger.requeued h := List.mem_map_of_mem hz
    exact absurd hx (returned_not_requeued ha hm)

theorem chain_returned_once {x y z : String} (hx : x ∈ Ledger.returned h)
    (hy : y ∈ Ledger.returned h) (hzx : ReflTransGen (Ledger.Copied h) z x)
    (hzy : ReflTransGen (Ledger.Copied h) z y) : x = y := by
  rcases hzx.total_of_right_unique (copied_unique ha) hzy with hxy | hyx
  · exact returned_last ha hx hxy
  · exact (returned_last ha hy hyx).symm

end

/-- In every run of workers on a store with any history, and for every queue: no two
requests return the same entry, no entry is added again twice and none that a request
returned, all of these are entries handed to a consumer loop, and of the entries that
come from one by being added again and again at most one is returned. -/
theorem entries_delivered_once (view : StoreView) (ops : List Store.Op) (ms : List World.Move)
    (q : Queue) :
    let h := World.history q ms (World.onStore view ops)
    (Ledger.returned h).Nodup ∧
    (Ledger.requeued h).Nodup ∧
    (∀ x ∈ Ledger.requeued h, x ∉ Ledger.returned h) ∧
    (∀ x, x ∈ Ledger.returned h ∨ x ∈ Ledger.requeued h → x ∈ Ledger.handed h) ∧
    ∀ x y z, ReflTransGen (Ledger.Copied h) z x → ReflTransGen (Ledger.Copied h) z y →
      x ∈ Ledger.returned h → y ∈ Ledger.returned h → x = y := by
  intro h
  have ha := run_account view ops ms q
  refine ⟨returned_nodup ha, requeued_nodup ha, fun x => returned_not_requeued ha,
    fun x => claimed_handed ha, ?_⟩
  intro x y z hzx hzy hx hy
  exact chain_returned_once ha hx hy hzx hzy

end TaskRelay
