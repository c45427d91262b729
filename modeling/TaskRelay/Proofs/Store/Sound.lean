import TaskRelay.Proofs.Store.Shelf

/-!
# Sound shelves

Numbers on a shelf only grow, and the cursor stays behind the last one. Every
operation keeps it so. What is handed out therefore lies beyond everything that was
handed out before.
-/

set_option autoImplicit false

namespace TaskRelay.Shelf
open scoped List

/-- Trimming after an addition keeps the new entry. -/
theorem trim_append (maxLen : Nat) (es : List (Nat × Fields)) (p : Nat × Fields) :
    ∃ kept, kept <:+ es ∧ StreamLog.trim maxLen (es ++ [p]) = kept ++ [p] := by
  unfold StreamLog.trim
  split
  · exact ⟨es, List.suffix_rfl, rfl⟩
  · next h =>
    refine ⟨es.drop ((es ++ [p]).length - maxLen), List.drop_suffix _ _, ?_⟩
    rw [List.drop_append_of_le_length]
    simp only [List.length_append, List.length_singleton]
    omega

theorem append_entries (sh : Shelf) (fields : Fields) (maxLen : Nat) :
    ∃ kept, kept <:+ sh.entries ∧
      (sh.append fields maxLen).entries = kept ++ [(sh.last + 1, fields)] :=
  trim_append maxLen sh.entries (sh.last + 1, fields)

theorem Sound.append {sh : Shelf} (hs : sh.Sound) (fields : Fields) (maxLen : Nat) :
    (sh.append fields maxLen).Sound := by
  obtain ⟨kept, hk, he⟩ := sh.append_entries fields maxLen
  constructor
  · rw [he, List.pairwise_append]
    refine ⟨hs.ordered.sublist hk.sublist, List.pairwise_singleton _ _, ?_⟩
    intro p hp p' hp'
    rw [List.mem_singleton.mp hp']
    exact Nat.lt_succ_of_le (hs.bounded p (hk.subset hp))
  · intro p hp
    rw [he] at hp
    rcases List.mem_append.mp hp with hp | hp
    · exact Nat.le_succ_of_le (hs.bounded p (hk.subset hp))
    · rw [List.mem_singleton.mp hp]
      exact Nat.le_refl _
  · intro g hg
    exact Nat.le_succ_of_le (hs.reached g hg)

theorem Sound.found {sh : Shelf} (hs : sh.Sound) : sh.found.Sound := by
  refine ⟨hs.ordered, hs.bounded, ?_⟩
  intro g hg
  cases h : sh.group with
  | none =>
    obtain rfl : (⟨sh.last, []⟩ : Group) = g := by simpa [Shelf.found, h] using hg
    exact Nat.le_refl _
  | some g' =>
    obtain rfl : g' = g := by simpa [Shelf.found, h] using hg
    exact hs.reached g' h

/-- A change of the group that keeps its cursor. -/
theorem Sound.regroup {sh : Shelf} (hs : sh.Sound) {f : Group → Group}
    (hf : ∀ g, (f g).cursor = g.cursor) : Sound { sh with group := sh.group.map f } := by
  refine ⟨hs.ordered, hs.bounded, ?_⟩
  intro g hg
  obtain ⟨g', hg', rfl⟩ := Option.map_eq_some_iff.mp hg
  rw [hf]
  exact hs.reached g' hg'

theorem Sound.ack {sh : Shelf} (hs : sh.Sound) (n : Nat) : (sh.ack n).Sound :=
  hs.regroup (f := fun g => { g with pending := Table.erase n g.pending }) fun _ => rfl

theorem Sound.gained_append {sh : Shelf} (hs : sh.Sound) (fields : Fields) (maxLen : Nat) :
    sh.gained (sh.append fields maxLen) = [(sh.last + 1, fields)] := by
  obtain ⟨kept, hk, he⟩ := sh.append_entries fields maxLen
  have hn : kept.filter (fun p => sh.last < p.1) = [] := by
    rw [List.filter_eq_nil_iff]
    intro p hp
    have := hs.bounded p (hk.subset hp)
    simpa using this
  rw [gained, he, List.filter_append, hn]
  simp

theorem Sound.gained_nothing {sh sh' : Shelf} (hs : sh.Sound) (he : sh'.entries = sh.entries) :
    sh.gained sh' = [] := by
  rw [gained, he, List.filter_eq_nil_iff]
  intro p hp
  simpa using hs.bounded p hp

theorem waiting_of_group {sh : Shelf} (hg : sh.group.isSome = true) :
    sh.waiting = sh.entries.filter fun p => sh.cursor < p.1 := by
  obtain ⟨g, hg⟩ := Option.isSome_iff_exists.mp hg
  simp [waiting, cursor, hg]

theorem Sound.cursor_le {sh : Shelf} (hs : sh.Sound) : sh.cursor ≤ sh.last := by
  unfold cursor
  cases hg : sh.group with
  | none => exact Nat.zero_le _
  | some g => exact hs.reached g hg

theorem waiting_regroup (sh : Shelf) {f : Group → Group} (hf : ∀ g, (f g).cursor = g.cursor) :
    waiting { sh with group := sh.group.map f } = sh.waiting := by
  cases hg : sh.group with
  | none => simp [waiting, hg]
  | some g => simp [waiting, hg, hf]

theorem found_of_group {sh : Shelf} (hg : sh.group.isSome = true) : sh.found = sh := by
  obtain ⟨entries, last, group⟩ := sh
  obtain ⟨g, rfl⟩ := Option.isSome_iff_exists.mp hg
  rfl

theorem cursor_found (sh : Shelf) : sh.cursor ≤ sh.found.cursor := by
  cases h : sh.group <;> simp [cursor, found, h]

theorem cursor_ack (sh : Shelf) (n : Nat) : (sh.ack n).cursor = sh.cursor := by
  cases h : sh.group <;> simp [cursor, ack, h]

theorem pending_found (sh : Shelf) : sh.found.pending = sh.pending := by
  cases h : sh.group <;> simp [pending, found, h]

theorem pending_ack (sh : Shelf) (n : Nat) :
    (sh.ack n).pending = Table.erase n sh.pending := by
  cases h : sh.group <;> simp [pending, ack, h, Table.erase]

theorem handOut_cursor (g : Group) (consumer : String) (bs : List (Nat × Fields))
    (p : Nat × Fields) : (Store.Group.handOut g consumer (bs ++ [p])).cursor = p.1 := by
  simp [Store.Group.handOut]

theorem handOut_get (g : Group) (consumer : String) (bs : List (Nat × Fields)) (n : Nat) :
    Table.get? n (Store.Group.handOut g consumer bs).pending =
      if n ∈ bs.map Prod.fst then some ⟨consumer, 1⟩ else Table.get? n g.pending := by
  induction bs generalizing g with
  | nil => simp [Store.Group.handOut]
  | cons p bs ih =>
    have h := ih ⟨p.1, Table.insert p.1 ⟨consumer, 1⟩ g.pending⟩
    change Table.get? n (Store.Group.handOut _ consumer bs).pending = _
    rw [h]
    by_cases hm : n ∈ bs.map Prod.fst
    · rw [if_pos hm, if_pos (by simpa using Or.inr (by simpa using hm))]
    · by_cases hn : n = p.1
      · rw [if_neg hm, hn, if_pos (by simp), Table.get?_insert_self]
      · rw [if_neg hm, Table.get?_insert_of_ne hn, if_neg]
        simpa [hn] using hm

section
variable {sh sh' : Shelf} {consumer : String} {bs : List (Nat × Fields)}

theorem Sound.waiting_ordered (hs : sh.Sound) : sh.waiting.Pairwise fun p p' => p.1 < p'.1 := by
  unfold waiting
  split
  · exact hs.ordered.filter _
  · exact List.Pairwise.nil

theorem waiting_beyond {p : Nat × Fields} (hp : p ∈ sh.waiting) :
    p ∈ sh.entries ∧ sh.cursor < p.1 := by
  unfold waiting at hp
  split at hp
  · next g hg => simpa [cursor, hg] using hp
  · cases hp

theorem Hands.ordered (h : sh.Hands consumer bs sh') (hs : sh.Sound) :
    bs.Pairwise fun p p' => p.1 < p'.1 :=
  hs.waiting_ordered.sublist h.next.sublist

/-- The cursor moves to the last entry handed out. -/
theorem Hands.cursor_last (h : sh.Hands consumer bs sh') :
    ∃ as p, bs = as ++ [p] ∧ sh'.cursor = p.1 := by
  obtain ⟨g, -, rfl⟩ := h.after
  refine ⟨_, _, (List.dropLast_append_getLast h.some_entry).symm, ?_⟩
  have hc := handOut_cursor g consumer bs.dropLast (bs.getLast h.some_entry)
  rw [List.dropLast_append_getLast] at hc
  simpa [cursor] using hc

theorem Hands.between (h : sh.Hands consumer bs sh') (hs : sh.Sound) {p : Nat × Fields}
    (hp : p ∈ bs) : sh.cursor < p.1 ∧ p.1 ≤ sh'.cursor := by
  refine ⟨(waiting_beyond (h.next.subset hp)).2, ?_⟩
  obtain ⟨as, l, rfl, hl⟩ := h.cursor_last
  have ho := h.ordered hs
  rw [List.pairwise_append] at ho
  rw [hl]
  rcases List.mem_append.mp hp with hp | hp
  · exact Nat.le_of_lt (ho.2.2 p hp l (by simp))
  · exact Nat.le_of_eq (congrArg Prod.fst (List.mem_singleton.mp hp))

theorem Hands.advances (h : sh.Hands consumer bs sh') (hs : sh.Sound) :
    sh.cursor < sh'.cursor := by
  obtain ⟨as, l, rfl, hl⟩ := h.cursor_last
  rw [hl]
  exact (h.between hs (by simp)).1

theorem Hands.sound (h : sh.Hands consumer bs sh') (hs : sh.Sound) : sh'.Sound := by
  obtain ⟨as, l, hb, hl⟩ := h.cursor_last
  have hm : l ∈ sh.entries := (waiting_beyond (h.next.subset (by simp [hb]))).1
  obtain ⟨g, -, rfl⟩ := h.after
  refine ⟨hs.ordered, hs.bounded, ?_⟩
  intro g' hg'
  obtain rfl := Option.some.inj hg'
  have hc : (Store.Group.handOut g consumer bs).cursor = l.1 := hl
  rw [hc]
  exact hs.bounded l hm

/-- What was to be handed out is handed out now or still to be. -/
theorem Hands.waiting_after (h : sh.Hands consumer bs sh') (hs : sh.Sound) :
    sh.waiting = bs ++ sh'.waiting := by
  obtain ⟨as, l, hb, hl⟩ := h.cursor_last
  obtain ⟨rest, hr⟩ := h.next
  have ho := hs.waiting_ordered
  rw [← hr, List.pairwise_append] at ho
  have hadv := h.advances hs
  obtain ⟨g, hg, hsh⟩ := h.after
  have hw' : sh'.waiting = sh.entries.filter fun p => sh'.cursor < p.1 := by
    rw [hsh]
    rfl
  have hw : sh.waiting = sh.entries.filter fun p => sh.cursor < p.1 := by
    simp [waiting, cursor, hg]
  have hn : sh'.waiting = sh.waiting.filter fun p => sh'.cursor < p.1 := by
    rw [hw', hw, List.filter_filter]
    apply List.filter_congr
    intro p _
    have : sh'.cursor < p.1 → sh.cursor < p.1 := fun hp => Nat.lt_trans hadv hp
    by_cases hp : sh'.cursor < p.1 <;> simp [hp, this]
  have hb' : bs.filter (fun p => sh'.cursor < p.1) = [] := by
    rw [List.filter_eq_nil_iff]
    intro p hp
    simpa using (h.between hs hp).2
  have hr' : rest.filter (fun p => sh'.cursor < p.1) = rest := by
    rw [List.filter_eq_self]
    intro p hp
    have hlt := ho.2.2 l (by simp [hb]) p hp
    simpa [hl] using hlt
  rw [hn, ← hr, List.filter_append, hb', hr', List.nil_append]

theorem Hands.pending_after (h : sh.Hands consumer bs sh') (n : Nat) :
    Table.get? n sh'.pending =
      if n ∈ bs.map Prod.fst then some ⟨consumer, 1⟩ else Table.get? n sh.pending := by
  obtain ⟨g, hg, rfl⟩ := h.after
  simpa [pending, hg] using handOut_get g consumer bs n

end

end TaskRelay.Shelf
