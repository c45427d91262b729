import TaskRelay.Proofs.Delivery.Once

/-!
# The deeds of one worker

A worker has its own part in the account of a queue. The requests on it return only what its
own loop was handed, so which of these entries no request returned can be told from its part
alone.
-/

set_option autoImplicit false

namespace TaskRelay
open scoped List

def Deed.worker? : Deed → Option Nat
  | .added _ _ => none
  | .handed i _ | .returned i _ | .acked i _ | .readded i _ _ => some i

namespace Ledger

def of (i : Nat) (h : List Deed) : List Deed := h.filter fun d => d.worker? = some i

def unreturned (i : Nat) (h : List Deed) : List Entry :=
  (handedOut (of i h)).filter fun e => e ∉ taken h

section
variable (i : Nat) (d : Deed) (h ds : List Deed)

@[simp]
theorem of_nil : of i [] = [] := rfl

@[simp]
theorem of_cons : of i (d :: ds) = if d.worker? = some i then d :: of i ds else of i ds := by
  simp [of, List.filter_cons]

@[simp]
theorem of_append : of i (h ++ ds) = of i h ++ of i ds := List.filter_append ..

theorem taken_of {e : Entry} : e ∈ taken (of i h) ↔ .returned i e ∈ h := by
  simp only [taken, of, List.mem_filterMap, List.mem_filter, decide_eq_true_eq]
  constructor
  · rintro ⟨d, ⟨hd, hw⟩, he⟩
    cases d with
    | returned j e' =>
      obtain rfl : e' = e := by simpa using he
      obtain rfl : j = i := by simpa [Deed.worker?] using hw
      exact hd
    | _ => simp at he
  · exact fun hm => ⟨_, ⟨hm, rfl⟩, rfl⟩

theorem mem_taken {e : Entry} : e ∈ taken h ↔ ∃ j, e ∈ taken (of j h) := by
  simp only [taken_of]
  constructor
  · intro hm
    obtain ⟨d, hd, he⟩ := List.mem_filterMap.mp hm
    cases d with
    | returned j e' =>
      obtain rfl : e' = e := by simpa using he
      exact ⟨j, hd⟩
    | _ => simp at he
  · exact fun ⟨j, hd⟩ => List.mem_filterMap.mpr ⟨_, hd, rfl⟩

theorem handedOut_of : handedOut (of i h) <+ handedOut h := by
  induction h with
  | nil => exact List.Sublist.refl _
  | cons d h ih =>
    rw [of_cons, handedOut_cons]
    split
    · rw [handedOut_cons]
      exact ih.append_left _
    · exact ih.trans (List.sublist_append_right _ _)

/-- Nothing is handed to two workers in one reading. -/
theorem handed_apart {i j : Nat} (hij : i ≠ j) (x : String) :
    (handed (of i h)).count x + (handed (of j h)).count x ≤ (handed h).count x := by
  unfold handed
  induction h with
  | nil => exact Nat.le_refl 0
  | cons d h ih =>
    by_cases hi : d.worker? = some i
    · have hj : d.worker? ≠ some j := fun hj => hij (Option.some.inj (hi.symm.trans hj))
      rw [of_cons, of_cons, if_pos hi, if_neg hj]
      simp only [handedOut_cons, List.map_append, List.count_append]
      omega
    · rw [of_cons, of_cons, if_neg hi]
      split <;> simp only [handedOut_cons, List.map_append, List.count_append] <;> omega

end

end Ledger

/-- What the deeds of a worker's work tell is all its own. -/
theorem Work.own {i : Nat} {sh sh' : Shelf} {p p' : Station} {ds : List Deed}
    (h : Work i sh p ds sh' p') :
    Ledger.handedOut (Ledger.of i ds) = Ledger.handedOut ds ∧
      Ledger.taken (Ledger.of i ds) = Ledger.taken ds ∧
      Ledger.readded (Ledger.of i ds) = Ledger.readded ds := by
  cases h <;> simp [Deed.worker?]

theorem Work.foreign {i j : Nat} (hij : i ≠ j) {sh sh' : Shelf} {p p' : Station}
    {ds : List Deed} (h : Work i sh p ds sh' p') : Ledger.of j ds = [] := by
  cases h <;> simp [Deed.worker?, hij]

inductive Station.Turn (i : Nat) (ds : List Deed) : Option Station → Option Station → Prop
  | rest (p : Option Station) (silent : Ledger.of i ds = []) : Turn i ds p p
  | join {stage : Stage} (silent : ds = []) (fresh : stage = .idle ∨ stage = .out) :
      Turn i ds none (some ⟨stage, none⟩)
  | work {sh sh' : Shelf} {p p' : Station} (h : Work i sh p ds sh' p') :
      Turn i ds (some p) (some p')

namespace Flow

variable {f f' : Flow} {ds : List Deed}

theorem Step.turn (h : f.Step ds f') (i : Nat) :
    Station.Turn i ds f.stations[i]? f'.stations[i]? := by
  cases h with
  | rest | found => exact .rest _ rfl
  | add fields maxLen => exact .rest _ (by simp [Deed.worker?])
  | join hsh hp =>
    rcases Nat.lt_trichotomy i f.stations.length with hi | hi | hi
    · rw [List.getElem?_append_left hi]
      exact .rest _ rfl
    · subst hi
      rw [List.getElem?_concat_length, List.getElem?_eq_none (Nat.le_refl _)]
      exact .join rfl hp
    · rw [List.getElem?_eq_none (Nat.le_of_lt hi),
        List.getElem?_eq_none (by simpa using Nat.succ_le_of_lt hi)]
      exact .rest _ rfl
  | @work j p p' _ sh' hp h =>
    by_cases hi : j = i
    · subst hi
      rw [hp, List.getElem?_set_self (List.getElem?_eq_some_iff.mp hp).1]
      exact .work h
    · rw [List.getElem?_set_ne hi]
      exact .rest _ (h.foreign hi)

end Flow

def Claimed (i : Nat) (h : List Deed) (p : Option Station) : Prop :=
  ∀ x, (Ledger.returned (Ledger.of i h)).count x + ((p.map Station.claims).getD []).count x ≤
    (Ledger.handed (Ledger.of i h)).count x

theorem Claimed.turn {i : Nat} {h ds : List Deed} {p p' : Option Station} (hc : Claimed i h p)
    (ht : Station.Turn i ds p p') : Claimed i (h ++ ds) p' := by
  intro x
  have hx := hc x
  rw [Ledger.of_append, Ledger.returned_append, Ledger.handed_append, List.count_append,
    List.count_append]
  cases ht with
  | rest p silent =>
    rw [silent]
    exact hx
  | join silent fresh =>
    subst silent
    rcases fresh with rfl | rfl <;> exact hx
  | work hw =>
    have hle := hw.claims_le x
    obtain ⟨hh, ht, -⟩ := hw.own
    have hr : Ledger.returned (Ledger.of i ds) = Ledger.returned ds :=
      congrArg (List.map Entry.id) ht
    have hd : Ledger.handed (Ledger.of i ds) = Ledger.handed ds :=
      congrArg (List.map Entry.id) hh
    rw [hr, hd]
    simp only [Option.map_some, Option.getD_some] at hx ⊢
    omega

theorem Claimed.stop {i : Nat} {h : List Deed} {p : Station} (hc : Claimed i h (some p)) :
    Claimed i h (some ⟨.out, p.slot⟩) := by
  intro x
  have hx := hc x
  have hle : (Station.claims ⟨.out, p.slot⟩).count x ≤ p.claims.count x := by
    simp [Station.claims, Stage.claims]
  simp only [Option.map_some, Option.getD_some] at hx ⊢
  omega

theorem run_claimed (view : StoreView) (ops : List Store.Op) (ms : List World.Move) (q : Queue)
    (i : Nat) : Claimed i (World.history q ms (World.onStore view ops))
      ((World.run ms (World.onStore view ops)).flow q).stations[i]? := by
  have h₀ : Claimed i [] ((World.onStore view ops).flow q).stations[i]? := by
    intro x
    simp [World.flow, World.onStore, World.start, Ledger.returned, Ledger.handed]
  have h := World.run_keeps (q := q) (C := fun _ => True)
    (P := fun h f => Claimed i h f.stations[i]?)
    (fun h f ds f₁ f' _ _ _ hc hstep hstop => by
      have hc₁ := hc.turn (hstep.turn i)
      rcases hstop.turn i with he | ⟨p, hp, he⟩
      · rwa [he]
      · rw [hp] at hc₁
        rw [he]
        exact hc₁.stop) ms (World.onStore_proper view ops) (fun _ _ => trivial) h₀
  simpa using h

section
variable (view : StoreView) (ops : List Store.Op) (ms : List World.Move) (q : Queue)

/-- A request that returned what a loop was handed was one on the worker of that loop. -/
theorem returned_worker {i j : Nat} {e : Entry}
    (hr : .returned j e ∈ World.history q ms (World.onStore view ops))
    (he : e.id ∈ Ledger.handed (Ledger.of i (World.history q ms (World.onStore view ops)))) :
    j = i := by
  by_contra hij
  have hn := List.nodup_iff_count_le_one.mp (handed_nodup (run_account view ops ms q)) e.id
  have hc := run_claimed view ops ms q j e.id
  generalize World.history q ms (World.onStore view ops) = h at hr he hn hc
  have ha := Ledger.handed_apart h hij e.id
  have hi := List.count_pos_iff.mpr he
  have hr : 0 < (Ledger.returned (Ledger.of j h)).count e.id :=
    List.count_pos_iff.mpr (List.mem_map_of_mem ((Ledger.taken_of j h).mpr hr))
  omega

theorem unreturned_own (i : Nat) :
    let h := World.history q ms (World.onStore view ops)
    Ledger.unreturned i h =
      (Ledger.handedOut (Ledger.of i h)).filter fun e => e ∉ Ledger.taken (Ledger.of i h) := by
  intro h
  refine List.filter_congr fun e he => ?_
  rw [decide_eq_decide, not_iff_not, Ledger.mem_taken]
  refine ⟨?_, fun hm => ⟨i, hm⟩⟩
  rintro ⟨j, hj⟩
  have hr := (Ledger.taken_of j h).mp hj
  rwa [returned_worker view ops ms q hr (List.mem_map_of_mem he)] at hj

end

end TaskRelay
