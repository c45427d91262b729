import TaskRelay.Proofs.Store.Calls

/-!
# Quiet queues

A queue is quiet while its store is open and its group has been handed every entry there is.
Only an addition or a close ends that, and both are announced to the suspended reads. A read
falls asleep on a quiet queue only, with the last announcement heard.
-/

set_option autoImplicit false

namespace TaskRelay

structure Shelf.Quiet (sh : Shelf) : Prop where
  grouped : sh.group.isSome = true
  empty : sh.waiting = []

theorem Shelf.Quiet.found {sh : Shelf} (h : sh.Quiet) : sh.found.Quiet := by
  rw [found_of_group h.grouped]
  exact h

theorem Shelf.Quiet.regroup {sh : Shelf} (h : sh.Quiet) {f : Group → Group}
    (hf : ∀ g, (f g).cursor = g.cursor) : Quiet { sh with group := sh.group.map f } :=
  ⟨by simpa using h.grouped, by rw [waiting_regroup sh hf, h.empty]⟩

/-- Nothing is handed out of a quiet queue. -/
theorem Shelf.Quiet.not_hands {sh sh' : Shelf} (h : sh.Quiet) {consumer : String}
    {bs : List (Nat × Fields)} : ¬ sh.Hands consumer bs sh' := by
  intro hb
  have hn := hb.next
  rw [h.empty] at hn
  exact hb.some_entry (List.prefix_nil.mp hn)

namespace Store

structure Quiet (s : Store) (q : Queue) : Prop where
  opened : s.closed = false
  read : (s.shelf q).Quiet

structure Announces (s s' : Store) : Prop where
  counted : s.announcements ≤ s'.announcements
  quiet : s'.announcements = s.announcements → ∀ q, s.Quiet q → s'.Quiet q

namespace Announces

variable {s s' s'' : Store}

theorem refl (s : Store) : s.Announces s := ⟨Nat.le_refl _, fun _ _ h => h⟩

theorem trans (h : s.Announces s') (h' : s'.Announces s'') : s.Announces s'' := by
  refine ⟨Nat.le_trans h.counted h'.counted, fun he q hq => ?_⟩
  have h₁ := h.counted
  have h₂ := h'.counted
  exact h'.quiet (by omega) q (h.quiet (by omega) q hq)

theorem silent (hc : s'.closed = s.closed) (ha : s'.announcements = s.announcements)
    (hs : ∀ q, (s.shelf q).Quiet → (s'.shelf q).Quiet) : s.Announces s' :=
  ⟨Nat.le_of_eq ha.symm, fun _ q hq => ⟨hc ▸ hq.opened, hs q hq.read⟩⟩

theorem aloud (ha : s.announcements < s'.announcements) : s.Announces s' :=
  ⟨Nat.le_of_lt ha, fun he => absurd he (Nat.ne_of_gt ha)⟩

end Announces

theorem createGroup_announces {s s' : Store} {q' : Queue}
    (h : s.createGroup q'.stream q'.group = .ok s') : s.Announces s' := by
  have hs := createGroup_shelf h
  unfold createGroup at h
  split at h
  · cases h
  · refine .silent ?_ ?_ fun q hq => ?_
    · split at h <;> cases h <;> rfl
    · split at h <;> cases h <;> rfl
    · rw [hs]
      split
      · exact hq.found
      · exact hq

theorem append_announces {s s' : Store} {stream id : String} {fields : Fields} {maxLen : Nat}
    (h : s.append stream fields maxLen = .ok (s', id)) : s.Announces s' := by
  unfold append at h
  split at h
  · cases h
  · cases h
    exact .aloud (Nat.lt_succ_self _)

theorem ack_announces (s : Store) (q' : Queue) (id : String) :
    s.Announces (s.ack q'.stream q'.group id).1 := by
  refine .silent ?_ ?_ fun q hq => ?_
  · unfold ack
    split
    · rfl
    · split
      · rfl
      · split <;> rfl
  · unfold ack
    split
    · rfl
    · split
      · rfl
      · split <;> rfl
  · rcases ack_shelf s q' id q with h | ⟨-, n, -, h⟩
    · exact h ▸ hq
    · rw [h]
      exact hq.regroup fun _ => rfl

theorem claimOne_announces (s : Store) (q' : Queue) (consumer : String) (n : Nat) :
    s.Announces (s.claimOne q'.stream q'.group consumer n).1 := by
  refine .silent ?_ ?_ fun q hq => ?_
  · unfold claimOne
    split
    · rfl
    · split <;> rfl
  · unfold claimOne
    split
    · rfl
    · split <;> rfl
  · obtain ⟨f, hf, h⟩ := claimOne_shelf s q' consumer n q
    rw [h]
    exact hq.regroup hf

theorem claim_announces (s : Store) (q' : Queue) (consumer : String) (ids : List String) :
    s.Announces (s.claim q'.stream q'.group consumer ids).1 := by
  unfold claim
  generalize ([] : List Entry) = es
  induction ids.filterMap entryNumber? generalizing s es with
  | nil => exact .refl s
  | cons n ns ih => exact (s.claimOne_announces q' consumer n).trans (ih _ _)

theorem deliver_announces {s s' : Store} {q : Queue} {consumer : String} {count : Nat}
    {es : List Entry}
    (h : s.deliver q.stream q.group consumer count = .ok (some (s', es))) :
    s.Announces s' ∧ es ≠ [] := by
  obtain ⟨⟨bs, hb, he⟩, ho⟩ := deliver_shelf h
  refine ⟨?_, by simpa [he] using hb.some_entry⟩
  unfold deliver at h
  split at h
  · cases h
  · split at h
    · cases h
    · split at h
      · cases h
      · cases h
        refine .silent rfl rfl fun q' hq => ?_
        by_cases hne : q' = q
        · subst hne
          exact absurd hb hq.not_hands
        · exact ho q' hne ▸ hq

/-- A read that finds nothing has looked at a quiet queue. -/
theorem deliver_quiet {s : Store} {q : Queue} {consumer : String} {count : Nat}
    (h : s.deliver q.stream q.group consumer count = .ok none) : s.Quiet q := by
  unfold deliver at h
  split at h
  · cases h
  · next hc =>
    refine ⟨Bool.eq_false_iff.mpr hc, ?_⟩
    cases hg : s.group? q.stream q.group with
    | none => simp [hg] at h
    | some g =>
      simp only [hg] at h
      split at h
      · next hb =>
        have ht : (s.shelf q).waiting.take (max count 1) = [] := by
          simpa [Shelf.waiting, shelf, hg, batch] using hb
        refine ⟨by simp [shelf, hg], ?_⟩
        rcases List.take_eq_nil_iff.mp ht with h0 | h0
        · omega
        · exact h0
      · cases h

end Store

inductive GroupRead.Looks (r : GroupRead) (now : Nat) (s : Store) :
    Store × Progress GroupRead ReadResult → Prop
  | sleeps (quiet : s.Quiet r.queue) (early : now < r.deadline) :
      Looks r now s (s, .waiting { r with heard := s.announcements })
  | givesUp (due : r.deadline ≤ now) : Looks r now s (s, .done (.ok []))
  | finds {s' : Store} {es : List Entry} (announces : s.Announces s') (some_entry : es ≠ []) :
      Looks r now s (s', .done (.ok es))
  | fails {s' : Store} {e : StoreError} (announces : s.Announces s') :
      Looks r now s (s', .done (.error e))

theorem GroupRead.Looks.announces {r : GroupRead} {now : Nat} {s : Store}
    {p : Store × Progress GroupRead ReadResult} (h : r.Looks now s p) : s.Announces p.1 := by
  cases h with
  | sleeps quiet early => exact .refl s
  | givesUp due => exact .refl s
  | finds announces some_entry => exact announces
  | fails announces => exact announces

theorem GroupRead.looks (r : GroupRead) (now : Nat) (s : Store) :
    r.Looks now s (s.look now r) := by
  unfold Store.look
  split
  · exact .fails (.refl s)
  · next h =>
    have hd := Store.deliver_announces (q := r.queue) h
    exact .finds hd.1 hd.2
  · next h =>
    split
    · next hd => exact .givesUp hd
    · next hd => exact .sleeps (Store.deliver_quiet (q := r.queue) h) (Nat.lt_of_not_le hd)

theorem GroupRead.begins (s : Store) (now : Nat) (q : Queue) (consumer : String)
    (count block : Nat) :
    Looks ⟨q.stream, q.group, consumer, count, now + block, s.announcements⟩ now s
      (s.beginRead now q.stream q.group consumer count block) := by
  unfold Store.beginRead
  split
  · exact .fails (.silent rfl rfl fun _ h => h)
  · exact looks _ now s

/-- A suspended read goes on sleeping unless it was woken. -/
theorem GroupRead.resumes (r : GroupRead) (now : Nat) (s : Store) :
    r.Looks now s (r.resume now s) ∨
      r.woken now s = false ∧ r.resume now s = (s, .waiting r) := by
  unfold resume
  by_cases ha : r.heard < s.announcements
  · rw [if_pos ha]
    exact Or.inl (r.looks now s)
  · rw [if_neg ha]
    by_cases hd : r.deadline ≤ now
    · rw [if_pos hd]
      exact Or.inl (.givesUp hd)
    · rw [if_neg hd]
      exact Or.inr ⟨by simp [woken, ha, hd], rfl⟩

theorem Store.obey_announces (s : Store) (op : Op) : s.Announces (s.obey op) := by
  cases op with
  | createGroup q' =>
    simp only [obey]
    split
    · next h => exact createGroup_announces h
    · exact .refl s
  | add stream fields maxLen =>
    simp only [obey]
    split
    · next h => exact append_announces h
    · exact .refl s
  | read q' consumer count => exact (GroupRead.begins s 0 q' consumer count 0).announces
  | ack q' id => exact s.ack_announces q' id
  | claim q' consumer ids => exact s.claim_announces q' consumer ids
  | close => exact .aloud (Nat.lt_succ_self _)
  | delayAdds millis => exact .silent rfl rfl fun _ h => h
  | failReads n => exact .silent rfl rfl fun _ h => h
  | failAcks n => exact .silent rfl rfl fun _ h => h

end TaskRelay
