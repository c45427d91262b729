import Mathlib.Data.List.Sort
import TaskRelay.Proofs.Store.Handing

/-!
# A group follows from its history

What is handed out in the name of a group, what is pending, and what a claim returns is
told by the history of that group: which entries were added since it was created, and
which reads, acknowledgements and claims were made. Nothing that other groups do matters
to it.
-/

set_option autoImplicit false

namespace TaskRelay
open scoped List

namespace Table

variable {β : Type}

def Sorted (t : Table Nat β) : Prop := t.Pairwise fun x y => x.1 < y.1

theorem mem_insert {n : Nat} {b : β} {t : Table Nat β} {x : Nat × β} (hx : x ∈ t.insert n b) :
    x = (n, b) ∨ x ∈ t := by
  induction t with
  | nil => exact Or.inl (by simpa [insert] using hx)
  | cons y t ih =>
    obtain ⟨m, c⟩ := y
    unfold insert at hx
    split at hx
    · rcases List.mem_cons.mp hx with hx | hx
      · exact Or.inl hx
      · exact Or.inr (List.mem_cons_of_mem _ hx)
    · split at hx
      · rcases List.mem_cons.mp hx with hx | hx
        · exact Or.inl hx
        · exact Or.inr hx
      · rcases List.mem_cons.mp hx with rfl | hx
        · exact Or.inr List.mem_cons_self
        · exact (ih hx).imp_right (List.mem_cons_of_mem _)

theorem Sorted.insert {t : Table Nat β} (ht : t.Sorted) (n : Nat) (b : β) :
    (t.insert n b).Sorted := by
  induction t with
  | nil => exact List.pairwise_singleton _ _
  | cons y t ih =>
    obtain ⟨m, c⟩ := y
    obtain ⟨hy, ht'⟩ := List.pairwise_cons.mp ht
    unfold Table.insert
    split
    · next h =>
      subst h
      exact List.pairwise_cons.mpr ⟨hy, ht'⟩
    · split
      · next hlt =>
        refine List.pairwise_cons.mpr ⟨fun x hx => ?_, ht⟩
        rcases List.mem_cons.mp hx with rfl | hx
        · exact hlt
        · exact Nat.lt_trans hlt (hy x hx)
      · refine List.pairwise_cons.mpr ⟨fun x hx => ?_, ih ht'⟩
        rcases mem_insert hx with rfl | hx
        · change m < n
          omega
        · exact hy x hx

theorem erase_sublist (n : Nat) (t : Table Nat β) : t.erase n <+ t := by
  induction t with
  | nil => exact List.Sublist.slnil
  | cons y t ih =>
    unfold erase
    split
    · exact ih.cons _
    · exact ih.cons_cons _

theorem Sorted.mem_iff {t : Table Nat β} (ht : t.Sorted) (n : Nat) (b : β) :
    (n, b) ∈ t ↔ t.get? n = some b := by
  induction t with
  | nil => simp [get?]
  | cons y t ih =>
    obtain ⟨m, c⟩ := y
    obtain ⟨hy, ht'⟩ := List.pairwise_cons.mp ht
    by_cases hn : n = m
    · subst hn
      have hnot : (n, b) ∉ t := fun hm => Nat.lt_irrefl n (hy _ hm)
      simp [get?, hnot, eq_comm]
    · simp [get?, hn, ih ht']

end Table

namespace Shelf

theorem handOut_sorted {g : Group} (hg : g.pending.Sorted) (consumer : String)
    (bs : List (Nat × Fields)) : (Store.Group.handOut g consumer bs).pending.Sorted := by
  induction bs generalizing g with
  | nil => exact hg
  | cons p bs ih => exact ih (g := ⟨p.1, Table.insert p.1 ⟨consumer, 1⟩ g.pending⟩) (hg.insert _ _)

theorem claim_get (consumer : String) (ns : List Nat) (sh : Shelf) (n : Nat) :
    Table.get? n (sh.claim consumer ns).pending = (Table.get? n sh.pending).map fun p =>
      ⟨if n ∈ ns then consumer else p.consumer, p.deliveries + ns.count n⟩ := by
  induction ns generalizing sh with
  | nil => simp [claim]
  | cons m ns ih =>
    rw [claim, List.foldl_cons, ← claim, ih, give_pending, Option.map_map]
    congr 1
    funext p
    by_cases hn : n = m
    · subst hn
      simp
      omega
    · simp [hn, Ne.symm hn]

theorem claim_sorted {sh : Shelf} (hs : sh.pending.Sorted) (consumer : String) (ns : List Nat) :
    (sh.claim consumer ns).pending.Sorted := by
  induction ns generalizing sh with
  | nil => exact hs
  | cons n ns ih =>
    suffices h : (sh.give consumer n).pending.Sorted from ih h
    cases hg : sh.group with
    | none => simp [give, pending, hg, Table.Sorted]
    | some g =>
      have hp : (sh.give consumer n).pending = (g.give consumer n).pending := by
        simp [give, pending, hg]
      have hs' : g.pending.Sorted := by simpa [pending, hg] using hs
      rw [hp, Group.give]
      split
      · exact hs'.insert _ _
      · exact hs'

end Shelf

structure Accounts (h : List Notice) (sh : Shelf) : Prop where
  sorted : sh.pending.Sorted
  held : ∀ n p, Table.get? n sh.pending = some p ↔ History.Held h n p

namespace History

/-- A notice that hands out nothing and names nothing leaves everything held as it is. -/
theorem held_quiet (h : List Notice) {x : Notice} (hh : handedOut [x] = [])
    (ha : ∀ n, x ≠ .acked n) (hc : ∀ n, claimer? n x = none) (hn : ∀ n, namings n x = 0)
    (n : Nat) (p : Pending) : Held (h ++ [x]) n p ↔ Held h n p := by
  rw [held_snoc]
  have hpass (p : Pending) : pass n x p = p := by simp [pass, hc, hn]
  constructor
  · rintro (⟨consumer, count, es, rfl, hes, -⟩ | ⟨p₀, hp₀, -, rfl⟩)
    · obtain rfl : es = [] := by simpa [handedOut] using hh
      cases hes
    · rwa [hpass]
  · exact fun hp => Or.inr ⟨p, hp, ha n, (hpass p).symm⟩

end History

theorem accounts_step {h : List Notice} {sh sh' : Shelf} {x : Option Notice} (hs : sh.Sound)
    (ht : Told h sh) (ha : Accounts h sh) (hx : sh.Notices x sh') :
    Accounts (h ++ x.toList) sh' := by
  have quiet {x : Notice} {sh' : Shelf} (hp : sh'.pending = sh.pending)
      (hh : History.handedOut [x] = []) (hk : ∀ n, x ≠ .acked n)
      (hc : ∀ n, History.claimer? n x = none) (hn : ∀ n, History.namings n x = 0) :
      Accounts (h ++ [x]) sh' :=
    ⟨hp ▸ ha.sorted, fun n p => by rw [hp, History.held_quiet h hh hk hc hn, ha.held]⟩
  cases hx with
  | idle => simpa using ha
  | created =>
    exact quiet sh.pending_found rfl (by simp) (fun _ => rfl) (fun _ => rfl)
  | added fields maxLen => exact quiet rfl rfl (by simp) (fun _ => rfl) (fun _ => rfl)
  | missed consumer count hw => exact quiet rfl rfl (by simp) (fun _ => rfl) (fun _ => rfl)
  | @handed consumer bs _ count next hands =>
    obtain ⟨g, hg, rfl⟩ := hands.after
    have hp : sh.pending = g.pending := by simp [Shelf.pending, hg]
    refine ⟨Shelf.handOut_sorted (hp ▸ ha.sorted) consumer bs, fun n p => ?_⟩
    change Table.get? n (Store.Group.handOut g consumer bs).pending = some p ↔ _
    rw [Shelf.handOut_get, ← hp]
    change _ ↔ History.Held (h ++ [_]) n p
    rw [History.held_snoc]
    by_cases hn : n ∈ bs.map Prod.fst
    · rw [if_pos hn]
      constructor
      · intro he
        exact Or.inl ⟨consumer, count, _, rfl, entryId_mem.mpr hn, (Option.some.inj he).symm⟩
      · rintro (⟨c, k, es, he, -, rfl⟩ | ⟨p₀, hp₀, -, -⟩)
        · cases he
          rfl
        · have hm := History.held_handed hp₀
          rcases ht with ⟨-, -, hout⟩ | ⟨start, es, hs', ht⟩
          · rw [hout] at hm
            cases hm
          · rw [ht.handed, entryId_mem] at hm
            obtain ⟨p₁, hp₁, rfl⟩ := List.mem_map.mp hm
            obtain ⟨p₂, hp₂, he⟩ := List.mem_map.mp hn
            have h₁ := (ht.known p₁ hp₁).2
            have h₂ := (hands.between hs hp₂).1
            omega
    · rw [if_neg hn, ha.held]
      constructor
      · exact fun hp => Or.inr ⟨p, hp, by simp, rfl⟩
      · rintro (⟨c, k, es, he, hes, -⟩ | ⟨p₀, hp₀, -, rfl⟩)
        · cases he
          exact absurd (entryId_mem.mp hes) hn
        · exact hp₀
  | acked m =>
    refine ⟨?_, fun n p => ?_⟩
    · rw [Shelf.pending_ack]
      exact ha.sorted.sublist (Table.erase_sublist m _)
    · rw [Shelf.pending_ack]
      change _ ↔ History.Held (h ++ [_]) n p
      rw [History.held_snoc]
      by_cases hn : n = m
      · subst hn
        rw [Table.get?_erase_self]
        constructor
        · intro he
          cases he
        · rintro (⟨c, k, es, he, -, -⟩ | ⟨p₀, hp₀, hne, -⟩)
          · cases he
          · exact absurd rfl hne
      · rw [Table.get?_erase_of_ne hn, ha.held]
        constructor
        · exact fun hp => Or.inr ⟨p, hp, by simp [Ne.symm hn], rfl⟩
        · rintro (⟨c, k, es, he, -, -⟩ | ⟨p₀, hp₀, -, rfl⟩)
          · cases he
          · exact hp₀
  | claimed consumer ns =>
    refine ⟨Shelf.claim_sorted ha.sorted consumer ns, fun n p => ?_⟩
    rw [Shelf.claim_get]
    change _ ↔ History.Held (h ++ [_]) n p
    rw [History.held_snoc]
    have hpass (p₀ : Pending) : History.pass n (.claimed consumer ns (sh.claimable ns)) p₀ =
          ⟨if n ∈ ns then consumer else p₀.consumer, p₀.deliveries + ns.count n⟩ := by
      by_cases hm : n ∈ ns <;> simp [History.pass, History.claimer?, History.namings, hm]
    constructor
    · intro he
      obtain ⟨p₀, hp₀, rfl⟩ := Option.map_eq_some_iff.mp he
      exact Or.inr ⟨p₀, (ha.held n p₀).mp hp₀, by simp, (hpass p₀).symm⟩
    · rintro (⟨c, k, es, he, -, -⟩ | ⟨p₀, hp₀, -, rfl⟩)
      · cases he
      · rw [(ha.held n p₀).mpr hp₀, hpass]
        rfl

theorem filter_number {es : List (Nat × Fields)} (ho : es.Pairwise fun p p' => p.1 < p'.1)
    (n : Nat) : es.filter (·.1 == n) = (es.find? (·.1 == n)).toList := by
  induction es with
  | nil => rfl
  | cons p es ih =>
    obtain ⟨hlt, ho'⟩ := List.pairwise_cons.mp ho
    by_cases hn : p.1 = n
    · have hnone : es.filter (·.1 == n) = [] := by
        rw [List.filter_eq_nil_iff]
        intro p' hp'
        have h := hlt p' hp'
        simp only [beq_iff_eq]
        omega
      simp [hn, hnone]
    · simp [hn, ih ho']

theorem claimable_eq {sh : Shelf} (hs : sh.Sound) (ns : List Nat) :
    sh.claimable ns = ns.filterMap fun n =>
      if (Table.get? n sh.pending).isSome then
        (sh.entries.map numbered).find? (·.id == entryId n)
      else none := by
  have find (n : Nat) : (sh.entries.filter (·.1 == n)).map numbered =
      ((sh.entries.map numbered).find? (·.id == entryId n)).toList := by
    have hp : (fun p : Nat × Fields => (numbered p).id == entryId n) = (·.1 == n) := by
      funext p
      rw [Bool.eq_iff_iff, beq_iff_eq, beq_iff_eq]
      exact entryId_injective.eq_iff
    rw [List.find?_map, Function.comp_def, hp, filter_number hs.ordered]
    cases sh.entries.find? (·.1 == n) <;> rfl
  rw [List.filterMap_eq_flatMap_toList]
  unfold Shelf.claimable
  congr 1
  funext n
  split
  · exact find n
  · rfl

theorem present_step {h : List Notice} {sh sh' : Shelf} {x : Option Notice}
    (hp : sh.entries.map numbered = History.present h) (hx : sh.Notices x sh') :
    sh'.entries.map numbered = History.present (h ++ x.toList) := by
  have quiet {x : Notice} (hx : History.restock (History.present h) x = History.present h) :
      sh.entries.map numbered = History.present (h ++ [x]) := by
    rw [History.present_snoc, hx, hp]
  cases hx with
  | idle => simpa using hp
  | created => exact quiet rfl
  | added fields maxLen =>
    refine Eq.trans ?_ (History.present_snoc h _).symm
    rw [← hp]
    by_cases hm : maxLen = 0
    · simp [Shelf.append, StreamLog.trim, History.restock, History.keepLast, hm, numbered]
    · simp [Shelf.append, StreamLog.trim, History.restock, History.keepLast, hm, numbered,
        List.map_drop]
  | handed count next hands =>
    obtain ⟨g, -, rfl⟩ := hands.after
    exact quiet rfl
  | missed consumer count hw => exact quiet rfl
  | acked n => exact quiet rfl
  | claimed consumer ns =>
    obtain ⟨f, -, he⟩ := sh.claim_frame consumer ns
    rw [he]
    exact quiet rfl

theorem fits_step {h : List Notice} {sh sh' : Shelf} {x : Notice} (hs : sh.Sound)
    (ht : Told h sh) (ha : Accounts h sh) (hp : sh.entries.map numbered = History.present h)
    (hx : sh.Notices (some x) sh') : History.Fits h x := by
  have hw := told_waiting hs ht
  simp only [hp] at hw
  cases hx with
  | created | added | acked => trivial
  | handed count next hands =>
    change _ = List.take _ _
    rw [← hw, Nat.max_comm, ← List.map_take, ← next]
  | missed consumer count hnone =>
    change _ = List.take _ _
    rw [← hw, hnone, List.map_nil, List.take_nil]
  | claimed consumer ns =>
    refine ⟨fun n => (Table.get? n sh.pending).isSome, fun n => ?_, hp ▸ claimable_eq hs ns⟩
    rw [Option.isSome_iff_exists]
    exact exists_congr fun p => ha.held n p

structure Recounts (h : List Notice) (sh : Shelf) : Prop where
  told : Told h sh
  accounts : Accounts h sh
  stocked : sh.entries.map numbered = History.present h
  fits : Fitting History.Fits h

theorem recounts_step {h : List Notice} {sh sh' : Shelf} {x : Option Notice} (hs : sh.Sound)
    (hr : Recounts h sh) (hx : sh.Notices x sh') : Recounts (h ++ x.toList) sh' := by
  refine ⟨told_step hs hr.told hx, accounts_step hs hr.told hr.accounts hx,
    present_step hr.stocked hx, ?_⟩
  cases x with
  | none => simpa using hr.fits
  | some x => exact hr.fits.snoc (fits_step hs hr.told hr.accounts hr.stocked hx)

theorem carryOut_recounts (q : Queue) (ops : List Store.Op) {s : Store}
    (hs : ∀ q, (s.shelf q).Sound) {h : List Notice} (hr : Recounts h (s.shelf q)) :
    Recounts (h ++ Store.history q ops s) ((Store.carryOut ops s).shelf q) := by
  induction ops generalizing s h with
  | nil => simpa [Store.history, Store.carryOut] using hr
  | cons op ops ih =>
    have hr' := recounts_step (hs q) hr (Store.obey_notices q s op)
    have hrest := ih (Store.obey_sound hs op) hr'
    rw [Store.history, ← List.append_assoc]
    exact hrest

theorem after_recounts (ops : List Store.Op) (q : Queue) :
    Recounts (Store.history q ops .empty) ((Store.after ops).shelf q) := by
  have h₀ : Recounts [] (Store.empty.shelf q) := {
    told := Or.inl ⟨by simp, rfl, rfl⟩
    accounts := by
      refine ⟨List.Pairwise.nil, fun n p => ⟨nofun, fun hp => ?_⟩⟩
      have hm := History.held_handed hp
      cases hm
    stocked := rfl
    fits := .nil }
  exact carryOut_recounts q ops (Store.after_sound []) h₀

theorem Told.handed_sublist {h : List Notice} {sh : Shelf} (ht : Told h sh) :
    History.handedOut h <+ History.addedSince h := by
  rcases ht with ⟨-, -, hout⟩ | ⟨start, es, hs, ht⟩
  · rw [hout]
    exact List.nil_sublist _
  · have irrefl : ∀ p p' : Nat × Fields, p.1 < p'.1 → p ≠ p' := fun p p' hlt he => by
      simp [he] at hlt
    have hsub := List.subperm_of_subset (ht.taken.imp (irrefl _ _)) fun p hp => (ht.known p hp).1
    rw [ht.handed, ht.added]
    apply List.Sublist.map
    have : Std.Antisymm fun p p' : Nat × Fields => p.1 < p'.1 :=
      ⟨fun p p' h₁ h₂ => absurd h₁ (Nat.lt_asymm h₂)⟩
    exact List.sublist_of_subperm_of_pairwise hsub ht.taken ht.ordered

theorem Told.added_ordered {h : List Notice} {sh : Shelf} (ht : Told h sh) :
    ∃ ns : List Nat, (History.addedSince h).map Entry.id = ns.map entryId ∧
      ns.Pairwise (· < ·) := by
  rcases ht with ⟨hn, -, -⟩ | ⟨start, es, hs, ht⟩
  · exact ⟨[], by rw [History.addedSince_none h hn]; rfl, List.Pairwise.nil⟩
  · refine ⟨es.map Prod.fst, ?_, List.pairwise_map.mpr ht.ordered⟩
    rw [ht.added]
    simp [numbered]

theorem Told.created_iff {h : List Notice} {sh : Shelf} (ht : Told h sh) :
    sh.group.isSome = true ↔ .created ∈ h := by
  rcases ht with ⟨hn, hg, -⟩ | ⟨start, es, hs, ht⟩
  · simp [hn, hg]
  · simp [ht.created, ht.grouped]

/-- Creating a group that exists changes nothing. -/
theorem createGroup_again {s : Store} {q : Queue} (hg : (s.shelf q).group.isSome = true) :
    s.obey (.createGroup q) = s := by
  obtain ⟨g, hg⟩ := Option.isSome_iff_exists.mp hg
  have hg' : s.group? q.stream q.group = some g := hg
  simp only [Store.obey, Store.createGroup, hg']
  by_cases hc : s.closed = true <;> simp [hc]

/-- The first entries of a list are all that come before one of them. -/
theorem take_before {l : List Entry} (hl : l.Nodup) {m : Nat} {e e' : Entry}
    (hb : [e, e'] <+ l) (he' : e' ∈ l.take m) : e ∈ l.take m := by
  rw [← List.take_append_drop m l] at hb hl
  obtain ⟨l₁, l₂, he, h₁, h₂⟩ := List.sublist_append_iff.mp hb
  cases l₁ with
  | nil =>
    have hm : e' ∈ l.drop m := h₂.subset (by simp [← show [e, e'] = l₂ from he])
    exact absurd rfl ((List.nodup_append.mp hl).2.2 e' he' e' hm)
  | cons x l₁ =>
    obtain rfl : e = x := (List.cons.inj he).1
    exact h₁.subset List.mem_cons_self

theorem addedSince_nodup {h : List Notice} {sh : Shelf} (ht : Told h sh) :
    (History.addedSince h).Nodup := by
  obtain ⟨ns, hn, ho⟩ := ht.added_ordered
  have hid : ((History.addedSince h).map Entry.id).Nodup := by
    rw [hn]
    exact List.Nodup.map entryId_injective (ho.imp Nat.ne_of_lt)
  exact hid.of_map

theorem History.addedSince_prefix (a b : List Notice) :
    History.addedSince a <+: History.addedSince (a ++ b) := by
  induction a with
  | nil => exact List.nil_prefix
  | cons x a ih =>
    cases x with
    | created =>
      rw [List.cons_append]
      change History.additions a <+: History.additions (a ++ b)
      exact ⟨History.additions b, List.filterMap_append.symm⟩
    | _ => exact ih

/-- A read hands out at most what it asks for, or one entry, and passes over no entry that
is in the stream and was not handed out before. -/
theorem Recounts.read {h : List Notice} {sh : Shelf} (hr : Recounts h sh) {a b : List Notice}
    {consumer : String} {count : Nat} {es : List Entry}
    (he : h = a ++ .handed consumer count es :: b) :
    es.length ≤ max 1 count ∧ ∀ e e' : Entry, [e, e'] <+ History.addedSince a → e' ∈ es →
      e ∉ es → e ∉ History.handedOut a → e ∉ History.present a := by
  have hes : es = _ := hr.fits _ _ _ he
  refine ⟨?_, fun e e' hb he' hne hout hpres => hne ?_⟩
  · rw [hes, List.length_take]
    exact Nat.min_le_left _ _
  · have hnd : (History.addedSince a).Nodup := by
      refine (addedSince_nodup hr.told).sublist ?_
      rw [he]
      exact (History.addedSince_prefix a _).sublist
    have hm' := (List.mem_filter.mp (List.mem_of_mem_take (hes ▸ he'))).2
    rw [hes]
    refine take_before (hnd.filter _) ?_ (hes ▸ he')
    have hb' := hb.filter fun e => decide (e ∈ History.present a ∧ e ∉ History.handedOut a)
    rwa [List.filter_eq_self.mpr (by simp [hpres, hout, of_decide_eq_true hm'])] at hb'

/-- Whatever operations a store obeys, the state of a group is told by its own history. What
its reads hand out is added after its creation, in that order, each entry once, and skips
only what was trimmed. Pending is what was handed out and not acknowledged since. Creating
the group again changes nothing. -/
theorem group_follows_history (ops : List Store.Op) (q : Queue) :
    (History.handedOut (Store.history q ops .empty) <+
        History.addedSince (Store.history q ops .empty) ∧
      ∃ ns : List Nat, (History.addedSince (Store.history q ops .empty)).map Entry.id =
        ns.map entryId ∧ ns.Pairwise (· < ·)) ∧
    (∀ a x b, Store.history q ops .empty = a ++ x :: b → History.Fits a x) ∧
    (∀ a b consumer count es,
      Store.history q ops .empty = a ++ .handed consumer count es :: b →
      es.length ≤ max 1 count ∧ ∀ e e' : Entry, [e, e'] <+ History.addedSince a → e' ∈ es →
        e ∉ es → e ∉ History.handedOut a → e ∉ History.present a) ∧
    ((Store.after ops).pending q.stream q.group).Pairwise (fun x y => x.1 < y.1) ∧
    (∀ n p, (n, p) ∈ (Store.after ops).pending q.stream q.group ↔
      History.Held (Store.history q ops .empty) n p) ∧
    (Store.after ops).entries q.stream = History.present (Store.history q ops .empty) ∧
    (((Store.after ops).group? q.stream q.group).isSome = true ↔
      .created ∈ Store.history q ops .empty) ∧
    (.created ∈ Store.history q ops .empty →
      (Store.after ops).obey (.createGroup q) = Store.after ops) ∧
    ∀ n ≤ Text.maxU64, entryNumber? (entryId n) = some n := by
  have hr := after_recounts ops q
  have hpending : (Store.after ops).pending q.stream q.group =
      ((Store.after ops).shelf q).pending := by
    unfold Store.pending Shelf.pending Store.shelf
    cases (Store.after ops).group? q.stream q.group <;> rfl
  refine ⟨⟨hr.told.handed_sublist, hr.told.added_ordered⟩, hr.fits, fun a b consumer count es he =>
    hr.read he, ?_, fun n p => ?_, hr.stocked, hr.told.created_iff, fun hc => ?_, fun n hn => ?_⟩
  · rw [hpending]
    exact hr.accounts.sorted
  · rw [hpending, hr.accounts.sorted.mem_iff]
    exact hr.accounts.held n p
  · exact createGroup_again (hr.told.created_iff.mpr hc)
  · rw [entryNumber_entryId, if_pos hn]

end TaskRelay
