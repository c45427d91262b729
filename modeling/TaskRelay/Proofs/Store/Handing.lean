import Mathlib.Data.List.Perm.Basic
import TaskRelay.Proofs.Store.History
import TaskRelay.Proofs.Store.Sound

/-!
# What is handed out in the name of a group

The entries added since the creation of a group fall in two at the cursor. Those before
it were handed out or trimmed, those after it wait. So the next entries for a read can be
told from the history and from what is still in the stream.
-/

set_option autoImplicit false

namespace TaskRelay
open scoped List

structure Tracks (h : List Notice) (sh : Shelf) (start : Nat) (es hs : List (Nat × Fields)) :
    Prop where
  created : .created ∈ h
  grouped : sh.group.isSome = true
  begun : start ≤ sh.cursor
  added : History.addedSince h = es.map numbered
  ordered : es.Pairwise fun p p' => p.1 < p'.1
  between : ∀ p ∈ es, start < p.1 ∧ p.1 ≤ sh.last
  kept : ∀ p ∈ sh.entries, start < p.1 → p ∈ es
  handed : History.handedOut h = hs.map numbered
  taken : hs.Pairwise fun p p' => p.1 < p'.1
  known : ∀ p ∈ hs, p ∈ es ∧ p.1 ≤ sh.cursor
  passed : ∀ p ∈ sh.entries, start < p.1 → p.1 ≤ sh.cursor → p ∈ hs

def Told (h : List Notice) (sh : Shelf) : Prop :=
  (.created ∉ h ∧ sh.group = none ∧ History.handedOut h = []) ∨
    ∃ start es hs, Tracks h sh start es hs

namespace Shelf

theorem claim_frame (consumer : String) (ns : List Nat) (sh : Shelf) :
    ∃ f : Group → Group, (∀ g, (f g).cursor = g.cursor) ∧
      sh.claim consumer ns = { sh with group := sh.group.map f } := by
  induction ns generalizing sh with
  | nil => exact ⟨id, fun _ => rfl, by simp [claim]⟩
  | cons n ns ih =>
    obtain ⟨f, hf, he⟩ := ih (sh.give consumer n)
    refine ⟨fun g => f (g.give consumer n), fun g => ?_, ?_⟩
    · rw [hf, Group.give]
      split <;> rfl
    · rw [claim, List.foldl_cons, ← claim, he]
      simp [give, Function.comp_def]

end Shelf

namespace Tracks

variable {h : List Notice} {sh sh' : Shelf} {start : Nat} {es hs : List (Nat × Fields)}

/-- Notices of acknowledgements and claims. -/
theorem regroup (ht : Tracks h sh start es hs) {f : Group → Group}
    (hf : ∀ g, (f g).cursor = g.cursor) {x : Notice} (ha : History.additions [x] = [])
    (hh : History.handedOut [x] = []) :
    Tracks (h ++ [x]) { sh with group := sh.group.map f } start es hs := by
  have hc : Shelf.cursor { sh with group := sh.group.map f } = sh.cursor := by
    obtain ⟨g, hg⟩ := Option.isSome_iff_exists.mp ht.grouped
    simp [Shelf.cursor, hg, hf]
  exact {
    created := List.mem_append_left _ ht.created
    grouped := by simpa using ht.grouped
    begun := hc ▸ ht.begun
    added := by rw [History.addedSince_snoc h x ht.created, ha, List.append_nil, ht.added]
    ordered := ht.ordered
    between := ht.between
    kept := ht.kept
    handed := by rw [History.handedOut_snoc, hh, List.append_nil, ht.handed]
    taken := ht.taken
    known := fun p hp => hc.symm ▸ ht.known p hp
    passed := fun p hp hs' hle => ht.passed p hp hs' (hc ▸ hle) }

theorem add (ht : Tracks h sh start es hs) (hsound : sh.Sound) (fields : Fields) (maxLen : Nat) :
    Tracks (h ++ [.added ⟨entryId (sh.last + 1), fields⟩ maxLen]) (sh.append fields maxLen) start
      (es ++ [(sh.last + 1, fields)]) hs := by
  obtain ⟨kept, hkept, he⟩ := sh.append_entries fields maxLen
  have hcur := hsound.cursor_le
  have hbegun := ht.begun
  have mem {p : Nat × Fields} (hp : p ∈ (sh.append fields maxLen).entries) :
      p ∈ sh.entries ∨ p = (sh.last + 1, fields) := by
    rw [he, List.mem_append] at hp
    exact hp.imp (fun hp => hkept.subset hp) List.mem_singleton.mp
  exact {
    created := List.mem_append_left _ ht.created
    grouped := ht.grouped
    begun := ht.begun
    added := by
      rw [History.addedSince_snoc h _ ht.created, ht.added, List.map_append]
      rfl
    ordered := by
      rw [List.pairwise_append]
      refine ⟨ht.ordered, List.pairwise_singleton _ _, fun p hp p' hp' => ?_⟩
      rw [List.mem_singleton.mp hp']
      exact Nat.lt_succ_of_le (ht.between p hp).2
    between := by
      intro p hp
      change start < p.1 ∧ p.1 ≤ sh.last + 1
      rcases List.mem_append.mp hp with hp | hp
      · exact ⟨(ht.between p hp).1, Nat.le_succ_of_le (ht.between p hp).2⟩
      · rw [List.mem_singleton.mp hp]
        exact ⟨by omega, Nat.le_refl _⟩
    kept := by
      intro p hp hlt
      rcases mem hp with hp | rfl
      · exact List.mem_append_left _ (ht.kept p hp hlt)
      · simp
    handed := by rw [History.handedOut_snoc, ht.handed]; simp [History.handedOut]
    taken := ht.taken
    known := fun p hp => ⟨List.mem_append_left _ (ht.known p hp).1, (ht.known p hp).2⟩
    passed := by
      intro p hp hlt hle
      rcases mem hp with hp | rfl
      · exact ht.passed p hp hlt hle
      · change sh.last + 1 ≤ sh.cursor at hle
        omega }

theorem hand (ht : Tracks h sh start es hs) (hsound : sh.Sound) {consumer : String}
    {bs : List (Nat × Fields)} (hands : sh.Hands consumer bs sh') (count : Nat) :
    Tracks (h ++ [.handed consumer count (bs.map numbered)]) sh' start
      es (hs ++ bs) := by
  have hadv := hands.advances hsound
  have hwait := hands.waiting_after hsound
  have hbetween {p : Nat × Fields} (hp : p ∈ bs) := hands.between hsound hp
  obtain ⟨g, hg, hsh'⟩ := hands.after
  have he : sh'.entries = sh.entries := by rw [hsh']
  have hl : sh'.last = sh.last := by rw [hsh']
  have mem {p : Nat × Fields} (hp : p ∈ bs) : p ∈ sh.entries :=
    (Shelf.waiting_beyond (hands.next.subset hp)).1
  have hbegun := ht.begun
  exact {
    created := List.mem_append_left _ ht.created
    grouped := by rw [hsh']; rfl
    begun := by omega
    added := by
      rw [History.addedSince_snoc h _ ht.created, ht.added]
      simp [History.additions]
    ordered := ht.ordered
    between := hl ▸ ht.between
    kept := he ▸ ht.kept
    handed := by rw [History.handedOut_snoc, ht.handed]; simp [History.handedOut]
    taken := by
      rw [List.pairwise_append]
      refine ⟨ht.taken, hands.ordered hsound, fun p hp p' hp' => ?_⟩
      exact Nat.lt_of_le_of_lt (ht.known p hp).2 (hbetween hp').1
    known := by
      intro p hp
      rcases List.mem_append.mp hp with hp | hp
      · have hk := ht.known p hp
        exact ⟨hk.1, by omega⟩
      · have hb := hbetween hp
        exact ⟨ht.kept p (mem hp) (by omega), hb.2⟩
    passed := by
      intro p hp hlt hle
      rw [he] at hp
      by_cases hc : p.1 ≤ sh.cursor
      · exact List.mem_append_left _ (ht.passed p hp hlt hc)
      · apply List.mem_append_right
        have hw : p ∈ sh.waiting := by
          rw [Shelf.waiting_of_group ht.grouped, List.mem_filter]
          exact ⟨hp, by simpa using hc⟩
        rw [hwait, List.mem_append] at hw
        rcases hw with hw | hw
        · exact hw
        · have hgt := (Shelf.waiting_beyond hw).2
          omega }

/-- The next entries for the group, told from its history. -/
theorem waiting_eq (ht : Tracks h sh start es hs) (hsound : sh.Sound) :
    sh.waiting.map numbered = (History.addedSince h).filter fun e =>
      e ∈ sh.entries.map numbered ∧ e ∉ History.handedOut h := by
  have hinj : Function.Injective numbered := by
    rintro ⟨n, f⟩ ⟨m, g⟩ hn
    simp only [numbered, Entry.mk.injEq] at hn
    rw [entryId_injective hn.1, hn.2]
  have hbegun := ht.begun
  have hmem (p : Nat × Fields) : p ∈ sh.waiting ↔
      p ∈ es.filter fun p => p ∈ sh.entries ∧ p ∉ hs := by
    rw [Shelf.waiting_of_group ht.grouped]
    simp only [List.mem_filter, decide_eq_true_eq]
    constructor
    · rintro ⟨hp, hc⟩
      refine ⟨ht.kept p hp (by omega), hp, fun hm => ?_⟩
      have hle := (ht.known p hm).2
      omega
    · rintro ⟨hes, hp, hn⟩
      refine ⟨hp, ?_⟩
      by_contra hle
      exact hn (ht.passed p hp (ht.between p hes).1 (by omega))
  have hw : sh.waiting = es.filter fun p => p ∈ sh.entries ∧ p ∉ hs := by
    have hnodup {l : List (Nat × Fields)} (hl : l.Pairwise fun p p' => p.1 < p'.1) : l.Nodup :=
      hl.imp fun hlt he => by simp [he] at hlt
    have ho := ht.ordered.filter fun p => decide (p ∈ sh.entries ∧ p ∉ hs)
    exact ((List.perm_ext_iff_of_nodup (hnodup hsound.waiting_ordered) (hnodup ho)).mpr
      hmem).eq_of_pairwise (fun p p' _ _ h₁ h₂ => absurd h₁ (Nat.lt_asymm h₂))
        hsound.waiting_ordered ho
  rw [hw, ht.added, ht.handed, List.filter_map]
  congr 1
  apply List.filter_congr
  intro p _
  simp [List.mem_map_of_injective hinj]

end Tracks

theorem told_step {h : List Notice} {sh sh' : Shelf} {x : Option Notice} (hs : sh.Sound)
    (ht : Told h sh) (hx : sh.Notices x sh') : Told (h ++ x.toList) sh' := by
  have quiet {x : Notice} {f : Group → Group} (hf : ∀ g, (f g).cursor = g.cursor)
      (hc : x ≠ .created) (ha : History.additions [x] = []) (hh : History.handedOut [x] = []) :
      Told (h ++ [x]) { sh with group := sh.group.map f } := by
    rcases ht with ⟨hn, hg, hout⟩ | ⟨start, es, hs', ht⟩
    · refine Or.inl ⟨by simp [hn, Ne.symm hc], by simp [hg], ?_⟩
      rw [History.handedOut_snoc, hout, hh, List.append_nil]
    · exact Or.inr ⟨start, es, hs', ht.regroup hf ha hh⟩
  cases hx with
  | idle => simpa using ht
  | created =>
    rcases ht with ⟨hn, hg, hout⟩ | ⟨start, es, hs', ht⟩
    · have hlast {p : Nat × Fields} (hp : p ∈ sh.entries) (hlt : sh.last < p.1) : False := by
        have hle := hs.bounded p hp
        omega
      exact Or.inr ⟨sh.last, [], [], {
        created := by simp
        grouped := rfl
        begun := by simp [Shelf.found, Shelf.cursor, hg]
        added := History.addedSince_created h hn
        ordered := List.Pairwise.nil
        between := by simp
        kept := fun p hp hlt => (hlast hp hlt).elim
        handed := (History.handedOut_snoc h .created).trans (by rw [hout]; rfl)
        taken := List.Pairwise.nil
        known := by simp
        passed := fun p hp hlt _ => (hlast hp hlt).elim }⟩
    · have hk := ht.regroup (f := id) (fun _ => rfl) (x := .created) rfl rfl
      rw [Option.map_id, id] at hk
      rw [Shelf.found_of_group ht.grouped]
      exact Or.inr ⟨start, es, hs', hk⟩
  | added fields maxLen =>
    rcases ht with ⟨hn, hg, hout⟩ | ⟨start, es, hs', ht⟩
    · refine Or.inl ⟨by simp [hn], hg, ?_⟩
      exact (History.handedOut_snoc h _).trans (by rw [hout]; rfl)
    · exact Or.inr ⟨start, _, hs', ht.add hs fields maxLen⟩
  | handed count next hands =>
    rcases ht with ⟨hn, hg, hout⟩ | ⟨start, es, hs', ht⟩
    · obtain ⟨g, hg', -⟩ := hands.after
      rw [hg] at hg'
      cases hg'
    · exact Or.inr ⟨start, es, _, ht.hand hs hands count⟩
  | missed consumer count hw =>
    have hk := quiet (f := id) (fun _ => rfl) (x := .handed consumer count []) (by simp) rfl rfl
    rwa [Option.map_id, id] at hk
  | acked n => exact quiet (fun _ => rfl) (by simp) rfl rfl
  | claimed consumer ns =>
    obtain ⟨f, hf, he⟩ := sh.claim_frame consumer ns
    rw [he]
    exact quiet hf (by simp) rfl rfl

theorem told_waiting {h : List Notice} {sh : Shelf} (hs : sh.Sound) (ht : Told h sh) :
    sh.waiting.map numbered = (History.addedSince h).filter fun e =>
      e ∈ sh.entries.map numbered ∧ e ∉ History.handedOut h := by
  rcases ht with ⟨hn, hg, hout⟩ | ⟨start, es, hs', ht⟩
  · rw [History.addedSince_none h hn]
    simp [Shelf.waiting, hg]
  · exact ht.waiting_eq hs

end TaskRelay
