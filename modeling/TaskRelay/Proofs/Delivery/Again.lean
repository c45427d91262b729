import TaskRelay.Proofs.Delivery.Own

/-!
# What a loop adds again

Of the entries that a loop was handed, requests return the first ones, in order. Once it was
told to stop it adds those that are left again, one after the other and in order too, unless
an addition fails. So at any moment what it has added again comes right after what was
returned, and when it is ended early only the last entries are missing.
-/

set_option autoImplicit false

namespace TaskRelay
open scoped List

def Station.Splits (p : Station) (back again out : List Entry) : Prop :=
  match p.stage with
  | .idle => again = [] ∧ back ++ p.slot.toList = out
  | .holding es | .offering _ es | .acking _ es =>
    again = [] ∧ back ++ (p.slot.toList ++ es) = out
  | .requeueing es => back ++ (again ++ es) = out
  | .adding e rest => back ++ (again ++ e :: rest) = out
  | .out => (p.slot = none ∨ again = []) ∧
      ∃ lost, back ++ (p.slot.toList ++ (again ++ lost)) = out

structure Tally (i : Nat) (h : List Deed) (p : Station) (rs : List (Entry × Nat)) : Prop where
  readded : Ledger.readded (Ledger.of i h) = rs.map fun r => (r.1.id, entryId r.2)
  added : rs.map (fun r => (r.2, r.1.fields)) <+ Ledger.added h
  splits : p.Splits (Ledger.taken (Ledger.of i h)) (rs.map Prod.fst)
    (Ledger.handedOut (Ledger.of i h))

theorem Station.Splits.back_prefix {p : Station} {back again out : List Entry}
    (hs : p.Splits back again out) : back <+: out := by
  obtain ⟨stage, slot⟩ := p
  cases stage with
  | requeueing | adding => exact ⟨_, hs⟩
  | out =>
    obtain ⟨-, lost, ho⟩ := hs
    exact ⟨_, ho⟩
  | _ => exact ⟨_, hs.2⟩

/-- What no request returned begins with what was added again, once the loop holds nothing. -/
theorem Station.Splits.last {p : Station} {back again out : List Entry}
    (hs : p.Splits back again out) (hp : p.stage = .idle ∨ p.stage = .out) :
    ∃ rest, back ++ rest = out ∧ again <+: rest := by
  obtain ⟨stage, slot⟩ := p
  rcases hp with rfl | rfl
  · exact ⟨slot.toList, hs.2, hs.1 ▸ List.nil_prefix⟩
  · obtain ⟨hn, lost, ho⟩ := hs
    refine ⟨_, ho, ?_⟩
    rcases hn with rfl | rfl
    · exact List.prefix_append _ _
    · exact List.nil_prefix

def Ledger.Settled (i : Nat) (h : List Deed) : Prop :=
  (taken (of i h)).length + (readded (of i h)).length = (handedOut (of i h)).length

section
variable {i : Nat} {sh sh' : Shelf} {p p' : Station} {ds : List Deed} {back again out : List Entry}

theorem Station.Splits.stop (hs : p.Splits back again out) (hf : p.Fit) :
    Station.Splits ⟨.out, p.slot⟩ back again out := by
  obtain ⟨stage, slot⟩ := p
  cases stage with
  | idle =>
    obtain ⟨rfl, ho⟩ := hs
    exact ⟨Or.inr rfl, [], by simpa using ho⟩
  | holding es | offering id es | acking id es =>
    obtain ⟨rfl, ho⟩ := hs
    exact ⟨Or.inr rfl, es, ho⟩
  | requeueing es =>
    obtain rfl : slot = none := hf
    exact ⟨Or.inl rfl, es, hs⟩
  | adding e rest =>
    obtain rfl : slot = none := hf
    exact ⟨Or.inl rfl, e :: rest, hs⟩
  | out => exact hs

def Station.Skips (p p' : Station) : Prop :=
  ∃ e rest slot, p = ⟨.adding e rest, slot⟩ ∧ p' = ⟨.requeueing rest, slot⟩

theorem Work.splits (h : Work i sh p ds sh' p') (hf : p.Fit) (hs : p.Splits back again out) :
    (∃ new : List (Entry × Nat),
      Ledger.readded ds = new.map (fun r => (r.1.id, entryId r.2)) ∧
      new.map (fun r => (r.2, r.1.fields)) <+ Ledger.added ds ∧
      p'.Splits (back ++ Ledger.taken ds) (again ++ new.map Prod.fst)
        (out ++ Ledger.handedOut ds)) ∨ (p.Skips p' ∧ ds = []) := by
  have none (hr : Ledger.readded ds = [])
      (hs' : p'.Splits (back ++ Ledger.taken ds) again (out ++ Ledger.handedOut ds)) :
      ∃ new : List (Entry × Nat),
        Ledger.readded ds = new.map (fun r => (r.1.id, entryId r.2)) ∧
        new.map (fun r => (r.2, r.1.fields)) <+ Ledger.added ds ∧
        p'.Splits (back ++ Ledger.taken ds) (again ++ new.map Prod.fst)
          (out ++ Ledger.handedOut ds) :=
    ⟨[], hr, List.nil_sublist _, by simpa using hs'⟩
  cases h with
  | rest => exact Or.inl (none rfl (by simpa using hs))
  | @hand _ consumer bs slot h =>
    obtain rfl : slot = .none := hf
    obtain ⟨rfl, ho⟩ := hs
    exact Or.inl (none rfl ⟨rfl, by simp [← ho]⟩)
  | finish slot => exact Or.inl (none rfl (by simpa [Station.Splits] using hs))
  | offer e rest slot =>
    obtain rfl : slot = .none := hf
    exact Or.inl (none rfl (by simpa [Station.Splits] using hs))
  | refuse e rest slot =>
    obtain rfl : slot = .none := hf
    obtain ⟨rfl, ho⟩ := hs
    exact Or.inl (none rfl (by simpa [Station.Splits] using ho))
  | accept id rest | ack rest slot h =>
    exact Or.inl (none rfl (by simpa [Station.Splits] using hs))
  | reclaim id e rest =>
    obtain ⟨rfl, ho⟩ := hs
    exact Or.inl (none rfl (by simpa [Station.Splits] using ho))
  | pick e rest slot => exact Or.inl (none rfl (by simpa [Station.Splits] using hs))
  | readd e rest slot maxLen =>
    refine Or.inl ⟨[(e, sh.last + 1)], rfl, List.Sublist.refl _, ?_⟩
    simpa [Station.Splits] using hs
  | skip e rest slot => exact Or.inr ⟨⟨e, rest, slot, rfl, rfl⟩, rfl⟩
  | stop => exact Or.inl (none rfl (by simpa using hs.stop hf))
  | take stage e =>
    cases stage with
    | offering id rest => exact Or.inl (none rfl (by simpa [Station.Splits] using hs))
    | out =>
      obtain ⟨hn, lost, ho⟩ := hs
      obtain rfl : again = [] := hn.resolve_left nofun
      exact Or.inl (none rfl ⟨Or.inr rfl, lost, by simpa using ho⟩)
    | _ => cases hf

end

theorem Work.out_hands {i : Nat} {sh sh' : Shelf} {p' : Station} {ds : List Deed}
    {slot : Option Entry} (h : Work i sh ⟨.out, slot⟩ ds sh' p') : Ledger.handedOut ds = [] := by
  cases h <;> rfl

section
variable {i : Nat} {h ds : List Deed} {p p' : Station} {rs : List (Entry × Nat)}

theorem Tally.new (hd : Ledger.of i h = []) {stage : Stage} (fresh : stage = .idle ∨ stage = .out) :
    Tally i h ⟨stage, none⟩ [] := by
  refine ⟨by rw [hd]; rfl, List.nil_sublist _, ?_⟩
  rw [hd]
  rcases fresh with rfl | rfl
  · exact ⟨rfl, rfl⟩
  · exact ⟨Or.inl rfl, [], rfl⟩

theorem Tally.stop (ht : Tally i h p rs) (hf : p.Fit) : Tally i h ⟨.out, p.slot⟩ rs :=
  ⟨ht.readded, ht.added, ht.splits.stop hf⟩

/-- The same, when the loop may have been ended from outside. -/
theorem Tally.last (ht : Tally i h p rs) (hf : p.Fit) (hp : p' = p ∨ p' = ⟨.out, p.slot⟩) :
    Tally i h p' rs := by
  rcases hp with rfl | rfl
  · exact ht
  · exact ht.stop hf

/-- What others do leaves the tally as it is. -/
theorem Tally.silent (ht : Tally i h p rs) (hd : Ledger.of i ds = []) : Tally i (h ++ ds) p rs := by
  refine ⟨?_, ?_, ?_⟩
  · rw [Ledger.of_append, hd, List.append_nil]
    exact ht.readded
  · rw [Ledger.added_append]
    exact ht.added.trans (List.sublist_append_left _ _)
  · rw [Ledger.of_append, hd, List.append_nil]
    exact ht.splits

/-- A loop that holds nothing has settled everything. -/
theorem Tally.settled (ht : Tally i h p rs) (hf : p.Fit)
    (hp : p.stage = .idle ∨ p.stage = .requeueing []) : Ledger.Settled i h := by
  obtain ⟨hr, -, hs⟩ := ht
  have hlen : (Ledger.readded (Ledger.of i h)).length = (rs.map Prod.fst).length := by simp [hr]
  unfold Ledger.Settled
  rw [hlen]
  obtain ⟨stage, slot⟩ := p
  rcases hp with rfl | rfl
  · obtain rfl : slot = none := hf
    rw [hs.1, ← hs.2]
    simp
  · rw [← show _ = Ledger.handedOut (Ledger.of i h) from hs]
    simp

/-- Requests returned some of what a loop was handed, and the loop added some again. -/
theorem Tally.length_le (ht : Tally i h p rs) :
    (Ledger.taken (Ledger.of i h)).length + (Ledger.readded (Ledger.of i h)).length ≤
      (Ledger.handedOut (Ledger.of i h)).length := by
  obtain ⟨hr, -, hs⟩ := ht
  have hlen : (Ledger.readded (Ledger.of i h)).length = (rs.map Prod.fst).length := by simp [hr]
  rw [hlen]
  obtain ⟨stage, slot⟩ := p
  cases stage with
  | requeueing | adding =>
    rw [← show _ = Ledger.handedOut (Ledger.of i h) from hs]
    simp
  | out =>
    obtain ⟨-, lost, ho⟩ := hs
    rw [← ho]
    simp
    omega
  | _ =>
    rw [hs.1, ← hs.2]
    simp

theorem Tally.work {sh sh' : Shelf} (ht : Tally i h p rs) (hf : p.Fit)
    (hw : Work i sh p ds sh' p') :
    (∃ rs', Tally i (h ++ ds) p' rs') ∨ (p.Skips p' ∧ ds = []) := by
  obtain ⟨hh, htk, hre⟩ := hw.own
  rcases hw.splits hf ht.splits with ⟨new, hr, ha, hs⟩ | hskip
  · refine Or.inl ⟨rs ++ new, ?_, ?_, ?_⟩
    · rw [Ledger.of_append, Ledger.readded_append, hre, ht.readded, hr, List.map_append]
    · rw [Ledger.added_append, List.map_append]
      exact ht.added.append ha
    · rw [Ledger.of_append, Ledger.taken_append, Ledger.handedOut_append, htk, hh,
        List.map_append]
      exact hs
  · exact Or.inr hskip

end

end TaskRelay
