import TaskRelay.Proofs.Delivery.Once

/-!
# No entry gets lost

An entry leaves the pending list of its group only by an acknowledgement, and a
consumer loop acknowledges what a request has returned. So whatever ends a loop, each
entry handed to it is still pending or was returned.
-/

set_option autoImplicit false

namespace TaskRelay
open scoped List

theorem Ledger.acked_prefix {h₀ h : List Deed} (hp : h₀ <+: h) (ha : acked h = []) :
    acked h₀ = [] := by
  obtain ⟨rest, rfl⟩ := hp
  rw [acked_append] at ha
  exact (List.append_eq_nil_iff.mp ha).1

namespace Flow

variable {f f' : Flow} {ds : List Deed}

/-- An acknowledgement is the only deed of its step, and was owed before. -/
theorem Step.acked_alone (h : f.Step ds f') :
    Ledger.acked ds = [] ∨ ∃ i id, ds = [.acked i id] ∧ id ∈ f.owed := by
  cases h with
  | rest | add | found | join => exact Or.inl rfl
  | @work i p _ _ _ hp h =>
    cases h with
    | @ack _ id rest slot h =>
      refine Or.inr ⟨i, id, rfl, ?_⟩
      exact List.mem_flatMap.mpr ⟨_, List.mem_of_getElem? hp, List.mem_singleton_self id⟩
    | _ => exact Or.inl rfl

/-- The pending list tells the same of an entry, unless the entry is handed out or its
identifier is acknowledged. -/
theorem Step.pending (h : f.Step ds f') (hs : f.shelf.Sound) (n : Nat) :
    Table.get? n f'.shelf.pending = Table.get? n f.shelf.pending ∨
      (f.shelf.cursor < n ∧ (Table.get? n f'.shelf.pending).isSome = true) ∨
      ∃ i id, ds = [.acked i id] ∧ id ∈ f.owed ∧ entryNumber? id = some n := by
  cases h with
  | rest | add => exact Or.inl rfl
  | found => exact Or.inl (by rw [Shelf.pending_found])
  | join hsh hp =>
    rcases hsh with rfl | rfl
    · exact Or.inl rfl
    · exact Or.inl (by rw [Shelf.pending_found])
  | @work i p _ _ _ hp h =>
    cases h with
    | hand slot h =>
      rw [h.pending_after]
      split
      · next hm =>
        obtain ⟨b, hb, rfl⟩ := List.mem_map.mp hm
        exact Or.inr (Or.inl ⟨(h.between hs hb).1, rfl⟩)
      · exact Or.inl rfl
    | @ack _ id rest slot h =>
      rcases h with rfl | ⟨m, hm, rfl⟩
      · exact Or.inl rfl
      · by_cases he : n = m
        · subst he
          refine Or.inr (Or.inr ⟨i, id, rfl, ?_, hm⟩)
          exact List.mem_flatMap.mpr ⟨_, List.mem_of_getElem? hp, List.mem_singleton_self id⟩
        · apply Or.inl
          change Table.get? n (f.shelf.ack m).pending = _
          rw [Shelf.pending_ack, Table.get?_erase_of_ne he]
    | _ => exact Or.inl rfl

end Flow

structure Kept (h : List Deed) (f : Flow) : Prop where
  account : Account h f
  pending : ∀ n, entryId n ∈ Ledger.handed h →
    (Table.get? n f.shelf.pending).isSome = true ∨ entryId n ∈ Ledger.acked h
  order : ∀ h₀, h₀ <+: h → ∀ x, (Ledger.acked h₀).count x ≤ (Ledger.returned h₀).count x

theorem owed_handed {h : List Deed} {f : Flow} (ha : Account h f) {x : String}
    (hx : x ∈ f.owed) : x ∈ Ledger.handed h := by
  have ho := ha.owed x
  have hc := List.count_pos_iff.mpr hx
  have hr : x ∈ Ledger.returned h := List.count_pos_iff.mp (by omega)
  exact claimed_handed ha (Or.inl hr)

theorem owed_number {h : List Deed} {f : Flow} (ha : Account h f) {x : String}
    (hx : x ∈ f.owed) {n : Nat} (hn : entryNumber? x = some n) : x = entryId n := by
  obtain ⟨ns, hns, -, -⟩ := ha.numbers
  have hm := owed_handed ha hx
  rw [hns] at hm
  obtain ⟨m, -, rfl⟩ := List.mem_map.mp hm
  rw [entryNumber_entryId] at hn
  split at hn
  · rw [Option.some.inj hn]
  · cases hn

theorem kept_pending {h ds : List Deed} {f f' : Flow} (hs : f.shelf.Sound) (hk : Kept h f)
    (hstep : f.Step ds f') {n : Nat} (hn : entryId n ∈ Ledger.handed (h ++ ds)) :
    (Table.get? n f'.shelf.pending).isSome = true ∨ entryId n ∈ Ledger.acked (h ++ ds) := by
  rw [Ledger.handed_append, List.mem_append] at hn
  rw [Ledger.acked_append, List.mem_append]
  rcases hn with hn | hn
  · rcases hk.pending n hn with hp | hp
    · rcases hstep.pending hs n with he | ⟨-, hp⟩ | ⟨i, id, rfl, ho, hid⟩
      · exact Or.inl (he ▸ hp)
      · exact Or.inl hp
      · rw [← owed_number hk.account ho hid]
        exact Or.inr (Or.inr (by simp))
    · exact Or.inr (Or.inl hp)
  · rcases hstep.hands with ⟨hd, -⟩ | ⟨consumer, bs, hh, hd⟩
    · rw [hd] at hn
      cases hn
    · rw [hd] at hn
      obtain ⟨p, hp, he⟩ := List.mem_map.mp hn
      obtain rfl := entryId_injective he
      exact Or.inl (by rw [hh.pending_after, if_pos (List.mem_map_of_mem hp)]; rfl)

theorem kept_order {h ds : List Deed} {f f' : Flow} (hk : Kept h f) (hstep : f.Step ds f')
    {h₀ : List Deed} (hp : h₀ <+: h ++ ds) (x : String) :
    (Ledger.acked h₀).count x ≤ (Ledger.returned h₀).count x := by
  rcases List.prefix_or_prefix_of_prefix hp (List.prefix_append h ds) with hp₀ | ⟨rest, rfl⟩
  · exact hk.order h₀ hp₀ x
  · -- The prefix ends within the step, which acknowledges at most one owed identifier
    -- and then returns nothing.
    have hr : rest <+: ds := (List.prefix_append_right_inj h).mp hp
    have ho := hk.account.owed x
    rw [Ledger.acked_append, Ledger.returned_append, List.count_append, List.count_append]
    rcases hstep.acked_alone with hd | ⟨i, id, rfl, hid⟩
    · rw [Ledger.acked_prefix hr hd, List.count_nil]
      omega
    · have hle : (Ledger.acked rest).count x ≤ f.owed.count x := by
        obtain ⟨tail, ht⟩ := hr
        have hc := congrArg (fun ds => (Ledger.acked ds).count x) ht
        simp only [Ledger.acked_append, List.count_append, Ledger.acked_cons,
          Ledger.acked_nil, List.append_nil] at hc
        by_cases he : id = x
        · subst he
          have hpos := List.count_pos_iff.mpr hid
          rw [List.count_singleton_self] at hc
          omega
        · rw [List.count_singleton] at hc
          simp only [beq_iff_eq, he, if_false] at hc
          omega
      omega

theorem kept_step {h ds : List Deed} {f f₁ f' : Flow} (hs : f.shelf.Sound) (hk : Kept h f)
    (hstep : f.Step ds f₁) (hstop : f₁.Stops f') : Kept (h ++ ds) f' := by
  refine ⟨account_step hs hk.account hstep hstop, fun n hn => ?_, fun h₀ hp => ?_⟩
  · rw [hstop.shelf]
    exact kept_pending hs hk hstep hn
  · exact kept_order hk hstep hp

theorem run_kept (view : StoreView) (ops : List Store.Op) (ms : List World.Move) (q : Queue) :
    Kept (World.history q ms (World.onStore view ops))
      ((World.run ms (World.onStore view ops)).flow q) := by
  have h₀ : Kept [] ((World.onStore view ops).flow q) := by
    refine ⟨onStore_account view ops q, by simp [Ledger.handed], fun h₀ hp x => ?_⟩
    rw [List.prefix_nil.mp hp]
    exact Nat.le_refl _
  have h := World.run_keeps (q := q) (C := fun _ => True) (P := Kept)
    (fun _ _ _ _ _ hs _ _ hk hstep hstop => kept_step hs hk hstep hstop) ms
    (World.onStore_proper view ops) (fun _ _ => trivial) h₀
  simpa using h

/-- In every run of workers on a store with any history, and for every queue: an entry
that a group read handed to a consumer loop is still pending or exactly one request has
returned it, and an acknowledgement is only sent for an entry that a request returned
before, and only once. -/
theorem handed_pending_or_returned (view : StoreView) (ops : List Store.Op)
    (ms : List World.Move) (q : Queue) :
    let w := World.run ms (World.onStore view ops)
    let h := World.history q ms (World.onStore view ops)
    (∀ x ∈ Ledger.handed h,
      (∃ n p, x = entryId n ∧ Table.get? n (w.store.pending q.stream q.group) = some p) ∨
      (Ledger.returned h).count x = 1) ∧
    ∀ before after i x, h = before ++ .acked i x :: after →
      x ∈ Ledger.returned before ∧ x ∉ Ledger.acked before := by
  intro w h
  have hk : Kept h (w.flow q) := run_kept view ops ms q
  have once (x : String) : (Ledger.returned h).count x ≤ 1 :=
    Nat.le_trans (Nat.le_add_right _ _) (returned_or_requeued hk.account x)
  refine ⟨fun x hx => ?_, fun before after i x he => ?_⟩
  · obtain ⟨ns, hns, -, -⟩ := hk.account.numbers
    obtain ⟨n, -, rfl⟩ : ∃ n ∈ ns, entryId n = x := by simpa [hns] using hx
    rcases hk.pending n hx with hp | ha
    · obtain ⟨p, hp⟩ := Option.isSome_iff_exists.mp hp
      exact Or.inl ⟨n, p, rfl, hp⟩
    · have hc := hk.order h List.prefix_rfl (entryId n)
      have hpos := List.count_pos_iff.mpr ha
      have hone := once (entryId n)
      exact Or.inr (by omega)
  · have hp : before ++ [.acked i x] <+: h := ⟨after, by simp [he]⟩
    have hc := hk.order _ hp x
    have hone := once x
    rw [he] at hone
    have hnone : Ledger.returned [.acked i x] = [] := rfl
    have hself : Ledger.acked [.acked i x] = [x] := rfl
    rw [Ledger.acked_append, Ledger.returned_append, hnone, hself, List.append_nil,
      List.count_append, List.count_singleton_self] at hc
    rw [Ledger.returned_append, List.count_append] at hone
    have hr : x ∈ Ledger.returned before := List.count_pos_iff.mp (by omega)
    have hn : (Ledger.acked before).count x = 0 := by omega
    exact ⟨hr, List.count_eq_zero.mp hn⟩

end TaskRelay
