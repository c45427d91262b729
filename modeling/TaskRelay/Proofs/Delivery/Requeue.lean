import TaskRelay.Proofs.Delivery.InOrder
import TaskRelay.Proofs.Delivery.Tended

/-!
# A shutdown gives back what was not delivered

A loop that was told to stop takes the entry on offer back and adds it again, and the rest of
its batch after it. However slow the additions are and wherever they are cut off, the entries
added again are the first ones that no request returned, and all of them if the loop came to
its end.
-/

set_option autoImplicit false

namespace TaskRelay
open scoped List

theorem Shelf.append_suffix {sh : Shelf} {es : List (Nat × Fields)} (hp : sh.entries <:+ es)
    (fields : Fields) (maxLen : Nat) :
    (sh.append fields maxLen).entries <:+ es ++ [(sh.last + 1, fields)] := by
  obtain ⟨kept, hk, he⟩ := sh.append_entries fields maxLen
  obtain ⟨gone, rfl⟩ := hk.trans hp
  exact ⟨gone, by rw [he, List.append_assoc]⟩

/-- A step appends what it added, and may trim. -/
theorem Flow.Step.entries_suffix {f f' : Flow} {ds : List Deed} (h : f.Step ds f')
    {es : List (Nat × Fields)} (hp : f.shelf.entries <:+ es) :
    f'.shelf.entries <:+ es ++ Ledger.added ds := by
  have same (he : f'.shelf.entries = f.shelf.entries) (ha : Ledger.added ds = []) :
      f'.shelf.entries <:+ es ++ Ledger.added ds := by
    rw [he, ha, List.append_nil]
    exact hp
  cases h with
  | rest | found => exact same rfl rfl
  | add fields maxLen => exact Shelf.append_suffix hp fields maxLen
  | join hsh hst =>
    rcases hsh with rfl | rfl
    · exact same rfl rfl
    · exact same rfl rfl
  | work hst h =>
    cases h with
    | hand slot h =>
      obtain ⟨g, -, rfl⟩ := h.after
      exact same rfl rfl
    | ack rest slot h =>
      rcases h with rfl | ⟨n, -, rfl⟩
      · exact same rfl rfl
      · exact same rfl rfl
    | readd e rest slot maxLen => exact Shelf.append_suffix hp e.fields maxLen
    | _ => exact same rfl rfl

namespace World

/-- A stream holds what it held before and what was added, but for what was trimmed. -/
theorem entries_follow {q : Queue} (ms : List Move) {w : World} (hw : w.Proper) :
    ((run ms w).store.shelf q).entries <:+
      (w.store.shelf q).entries ++ Ledger.added (history q ms w) := by
  have h := run_keeps (q := q) (C := fun _ => True)
    (P := fun h f => f.shelf.entries <:+ (w.store.shelf q).entries ++ Ledger.added h)
    (fun h f ds f₁ f' _ _ _ hp hstep hstop => by
      rw [hstop.shelf, Ledger.added_append, ← List.append_assoc]
      exact hstep.entries_suffix hp) ms hw (fun _ _ => trivial) (h := [])
    (by rw [Ledger.added_nil, List.append_nil]; exact List.suffix_rfl)
  rwa [List.nil_append] at h

/-- What becomes of the entries that the loop of worker `i` was handed and no request returned,
after a run with the deeds `h` that ended in `w`. -/
structure GivesBack (w : World) (h : List Deed) (i : Nat) (k : Worker) : Prop where
  again : ∃ rs : List (Entry × Nat),
    Ledger.readded (Ledger.of i h) = rs.map (fun r => (r.1.id, entryId r.2)) ∧
    rs.map (fun r => (r.2, r.1.fields)) <+ Ledger.added h ∧
    rs.map Prod.fst <+: Ledger.unreturned i h ∧
    (k.consumer = .finished ∨ k.consumer = .absent → rs.map Prod.fst = Ledger.unreturned i h)
  owed : ∃ ns : List Nat, (Ledger.unreturned i h).map Entry.id = ns.map entryId ∧
    ns.Pairwise (· < ·) ∧
    ∀ n ∈ ns, Table.get? n (w.store.pending k.settings.stream k.settings.group) =
      some ⟨k.settings.consumer, 1⟩
  still : ∀ post,
    Ledger.unreturned i (h ++ history k.queue post w) = Ledger.unreturned i h ∧
    Ledger.of i (history k.queue post w) = [] ∧
    (run post w).step (.loop i) = (run post w, .gone)

end World

theorem filter_rest {α : Type} [DecidableEq α] {back rest : List α} (hn : (back ++ rest).Nodup) :
    (back ++ rest).filter (fun e => e ∉ back) = rest := by
  obtain ⟨-, -, hd⟩ := List.nodup_append.mp hn
  have hb : back.filter (fun e => e ∉ back) = [] := by
    rw [List.filter_eq_nil_iff]
    intro e he
    simpa using he
  have hr : rest.filter (fun e => e ∉ back) = rest := by
    rw [List.filter_eq_self]
    intro e he
    simpa using fun hm => hd e hm e he rfl
  rw [List.filter_append, hb, hr, List.nil_append]

section
variable (view : StoreView) (ops : List Store.Op) (ms : List World.Move) (i : Nat) {k : Worker}

theorem handedOut_nodup (q : Queue) :
    ((Ledger.handedOut (Ledger.of i (World.history q ms (World.onStore view ops)))).map
      Entry.id).Nodup :=
  (handed_nodup (run_account view ops ms q)).sublist ((Ledger.handedOut_of i _).map Entry.id)

theorem unreturned_rest {q : Queue} {rest : List Entry} :
    let h := World.history q ms (World.onStore view ops)
    Ledger.taken (Ledger.of i h) ++ rest = Ledger.handedOut (Ledger.of i h) →
      Ledger.unreturned i h = rest := by
  intro h he
  have hn := (handedOut_nodup view ops ms i q).of_map
  rw [unreturned_own view ops ms q i, ← he]
  rw [← he] at hn
  exact filter_rest hn

/-- A worker whose loop has ended has added the first of its undelivered entries again. -/
theorem requeued_again {q : Queue} :
    let h := World.history q ms (World.onStore view ops)
    let w := World.run ms (World.onStore view ops)
    w.Tended q i h → w.workers[i]? = some k → k.queue = q → k.consumer.isActive = false →
    ∃ rs : List (Entry × Nat),
      Ledger.readded (Ledger.of i h) = rs.map (fun r => (r.1.id, entryId r.2)) ∧
      rs.map (fun r => (r.2, r.1.fields)) <+ Ledger.added h ∧
      rs.map Prod.fst <+: Ledger.unreturned i h ∧
      (k.consumer = .finished ∨ k.consumer = .absent →
        rs.map Prod.fst = Ledger.unreturned i h) := by
  intro h w ht hk hq hidle
  obtain ⟨rs, hrs⟩ := ht.tally k hk hq
  have hst : (k.station q).stage = k.consumer.stage := by rw [Worker.station_own hq]
  have hlast : (k.station q).stage = .idle ∨ (k.station q).stage = .out := by
    rw [hst]
    cases hc : k.consumer with
    | absent => exact Or.inl rfl
    | active c =>
      rw [hc] at hidle
      cases hidle
    | _ => exact Or.inr rfl
  obtain ⟨rest, ho, hpre⟩ := hrs.splits.last hlast
  have hu : Ledger.unreturned i h = rest := unreturned_rest view ops ms i ho
  refine ⟨rs, hrs.readded, hrs.added, hu ▸ hpre, fun hend => ?_⟩
  have hs : Ledger.Settled i h := by
    rcases hend with hend | hend
    · exact ht.settled k hk hq hend
    · exact hrs.settled (ht.fit hk) (Or.inl (by rw [hst, hend]; rfl))
  rw [hu]
  refine hpre.eq_of_length ?_
  have hlen := congrArg List.length ho
  unfold Ledger.Settled at hs
  rw [hrs.readded, List.length_map] at hs
  rw [List.length_append] at hlen
  rw [List.length_map]
  omega

/-- What no request returned is pending, as only returned entries are acknowledged. -/
theorem unreturned_owed {q : Queue} :
    let h := World.history q ms (World.onStore view ops)
    let w := World.run ms (World.onStore view ops)
    w.Tended q i h → w.workers[i]? = some k → k.queue = q →
    ∃ ns : List Nat, (Ledger.unreturned i h).map Entry.id = ns.map entryId ∧
      ns.Pairwise (· < ·) ∧
      ∀ n ∈ ns, Table.get? n (w.store.shelf q).pending = some ⟨k.settings.consumer, 1⟩ := by
  intro h w ht hk hq
  have hsub : Ledger.unreturned i h <+ Ledger.handedOut (Ledger.of i h) := List.filter_sublist
  obtain ⟨ns, hns, ho, -⟩ := ht.kept.account.numbers
  have hall : (Ledger.unreturned i h).map Entry.id <+ ns.map entryId := by
    rw [← hns]
    exact (hsub.trans (Ledger.handedOut_of i h)).map Entry.id
  obtain ⟨us, hus, he⟩ := List.sublist_map_iff.mp hall
  refine ⟨us, he, ho.sublist hus, fun n hn => ?_⟩
  have hm : entryId n ∈ (Ledger.unreturned i h).map Entry.id := he ▸ List.mem_map_of_mem hn
  obtain ⟨e, heu, hid⟩ := List.mem_map.mp hm
  have hh : entryId n ∈ Ledger.handed (Ledger.of i h) := (hsub.map Entry.id).subset hm
  rcases ht.owed k hk hq n hh with hp | ha
  · exact hp
  · exfalso
    have hr : entryId n ∈ Ledger.returned h := by
      have hc := ht.kept.order h List.prefix_rfl (entryId n)
      have hpos := List.count_pos_iff.mpr ha
      exact List.count_pos_iff.mp (by omega)
    obtain ⟨e', ht', hid'⟩ := List.mem_map.mp hr
    obtain ⟨j, hj⟩ := (Ledger.mem_taken h).mp ht'
    obtain rfl := returned_worker view ops ms q ((Ledger.taken_of j h).mp hj) (hid' ▸ hh)
    obtain ⟨rs, hrs⟩ := ht.tally k hk hq
    obtain rfl : e' = e := List.inj_on_of_nodup_map (handedOut_nodup view ops ms j q)
      (hrs.splits.back_prefix.subset hj) (hsub.subset heu) (hid'.trans hid.symm)
    exact of_decide_eq_true (List.mem_filter.mp heu).2 ht'

end

/-- Worker `i` on a store that nobody else closes, in any interleaving with other workers and
producers, on any view of the store and with additions that take any time. Once its shutdown
has returned, also in the very moment it does, the entries that its loop was handed and that
no request returned are given back: the loop added them again one after the other, all of
them if it came to its end, and a first part of them if it was cut off. -/
theorem undelivered_requeued (view : StoreView) (ops : List Store.Op) (ms : List World.Move)
    (i : Nat)
    (alone : ∀ pre, pre <+: ms → (World.run pre (World.onStore view ops)).ClosedOnlyBy i)
    (returned : Chronicle.Won (World.chronicle i ms (World.onStore view ops))) :
    let w₀ := World.onStore view ops
    let w := World.run ms w₀
    ∃ k, w.workers[i]? = some k ∧
      w.GivesBack (World.history k.queue ms w₀) i k ∧
      (w.store.shelf k.queue).entries <:+
        (w₀.store.shelf k.queue).entries ++ Ledger.added (World.history k.queue ms w₀) := by
  intro w₀ w
  have hw₀ := World.onStore_proper view ops
  have hl₀ := World.onStore_lived view ops i
  have hl : (w.post i).Lived (World.chronicle i ms w₀) := hl₀.run (World.run_lives ms hw₀ hl₀)
  obtain ⟨k, hk, -, -, -, hidle⟩ := World.won_stopped hl returned
  have ht : w.Tended k.queue i (World.history k.queue ms w₀) :=
    (World.onStore_tended view ops k.queue i).run hw₀ hl₀ ms alone
  refine ⟨k, hk, ⟨requeued_again view ops ms i ht hk rfl hidle,
    unreturned_owed view ops ms i ht hk rfl, fun post => ?_⟩, World.entries_follow ms hw₀⟩
  obtain ⟨hd, hgone⟩ := World.run_stopped (World.run_proper ms hw₀) hl returned k.queue post
  refine ⟨?_, hd, hgone⟩
  rw [← World.history_append, unreturned_own, unreturned_own, World.history_append,
    Ledger.of_append, hd, List.append_nil]

def cutOff : List World.Move := [
  .create boundless (.scripted "none"),
  .add "tasks" [("body", "first")] 0, .step (.call 0),
  .add "tasks" [("body", "second")] 0, .step (.call 1),
  .add "tasks" [("body", "third")] 0, .step (.call 2),
  .request 0, .step (.call 3), .step (.call 3),
  .step (.loop 0), .step (.loop 0), .step (.loop 0), .step (.call 3),
  .step (.loop 0), .step (.loop 0), .step (.loop 0),
  .delayAdds 150, .shutdown 0, .step (.call 4),
  .step (.loop 0), .step (.loop 0), .wait 150, .step (.loop 0), .step (.loop 0),
  .wait 50, .step (.call 4), .step (.call 4)]

theorem cut_off_gives_back :
    let w₀ := World.onStore ⟨3, false⟩ []
    let w := World.run cutOff w₀
    let h := World.history boundless.queue cutOff w₀
    (∀ pre, pre <+: cutOff → (World.run pre w₀).ClosedOnlyBy 0) ∧
    Chronicle.Won (World.chronicle 0 cutOff w₀) ∧
    (Ledger.unreturned 0 h).length = 2 ∧ (Ledger.readded (Ledger.of 0 h)).length = 1 ∧
    ∃ k, w.workers[0]? = some k ∧
      w.GivesBack (World.history k.queue cutOff w₀) 0 k ∧
      (w.store.shelf k.queue).entries <:+
        (w₀.store.shelf k.queue).entries ++ Ledger.added (World.history k.queue cutOff w₀) := by
  intro w₀ w h
  have hall : ∀ pre ∈ cutOff.inits, (World.run pre w₀).ClosedOnlyBy 0 := by
    decide +kernel
  have alone : ∀ pre, pre <+: cutOff → (World.run pre w₀).ClosedOnlyBy 0 :=
    fun pre hpre => hall pre ((List.mem_inits pre _).mpr hpre)
  have returned : Chronicle.Won (World.chronicle 0 cutOff w₀) := by decide +kernel
  exact ⟨alone, returned, by decide +kernel, by decide +kernel,
    undelivered_requeued ⟨3, false⟩ [] cutOff 0 alone returned⟩

end TaskRelay
