import TaskRelay.Proofs.Store.Number
import TaskRelay.Proofs.World.Refinement

/-!
# The account of every entry

An entry handed to a consumer loop is claimed by it, or by the slot of its worker,
until a request returns it, the loop adds it again, or the loop ends and forgets it.
No entry is handed out twice, so none of these happens twice either. An
acknowledgement is owed from the moment a request has the entry.
-/

set_option autoImplicit false

namespace TaskRelay
open scoped List

namespace Ledger

def handedOut (h : List Deed) : List Entry :=
  h.flatMap fun
    | .handed _ es => es
    | _ => []

def taken (h : List Deed) : List Entry :=
  h.filterMap fun
    | .returned _ e => some e
    | _ => none

def added (h : List Deed) : List (Nat × Fields) :=
  h.filterMap fun
    | .added n fields => some (n, fields)
    | _ => none

def acked (h : List Deed) : List String :=
  h.filterMap fun
    | .acked _ id => some id
    | _ => none

def readded (h : List Deed) : List (String × String) :=
  h.filterMap fun
    | .readded _ id copy => some (id, copy)
    | _ => none

def handed (h : List Deed) : List String := (handedOut h).map Entry.id

def returned (h : List Deed) : List String := (taken h).map Entry.id

def requeued (h : List Deed) : List String := (readded h).map Prod.fst

section
variable (d : Deed) (h ds : List Deed)

@[simp]
theorem handedOut_nil : handedOut [] = [] := rfl

@[simp]
theorem taken_nil : taken [] = [] := rfl

@[simp]
theorem added_nil : added [] = [] := rfl

@[simp]
theorem acked_nil : acked [] = [] := rfl

@[simp]
theorem readded_nil : readded [] = [] := rfl

@[simp]
theorem handedOut_cons : handedOut (d :: ds) =
    (match d with | .handed _ es => es | _ => []) ++ handedOut ds := by
  cases d <;> rfl

@[simp]
theorem taken_cons : taken (d :: ds) =
    (match d with | .returned _ e => [e] | _ => []) ++ taken ds := by
  cases d <;> rfl

@[simp]
theorem added_cons : added (d :: ds) =
    (match d with | .added n fields => [(n, fields)] | _ => []) ++ added ds := by
  cases d <;> rfl

@[simp]
theorem acked_cons : acked (d :: ds) =
    (match d with | .acked _ id => [id] | _ => []) ++ acked ds := by
  cases d <;> rfl

@[simp]
theorem readded_cons : readded (d :: ds) =
    (match d with | .readded _ id copy => [(id, copy)] | _ => []) ++ readded ds := by
  cases d <;> rfl

@[simp]
theorem handedOut_append : handedOut (h ++ ds) = handedOut h ++ handedOut ds :=
  List.flatMap_append

@[simp]
theorem taken_append : taken (h ++ ds) = taken h ++ taken ds :=
  List.filterMap_append

@[simp]
theorem added_append : added (h ++ ds) = added h ++ added ds :=
  List.filterMap_append

@[simp]
theorem acked_append : acked (h ++ ds) = acked h ++ acked ds :=
  List.filterMap_append

@[simp]
theorem readded_append : readded (h ++ ds) = readded h ++ readded ds :=
  List.filterMap_append

theorem handed_append : handed (h ++ ds) = handed h ++ handed ds := by simp [handed]

theorem returned_append : returned (h ++ ds) = returned h ++ returned ds := by simp [returned]

theorem requeued_append : requeued (h ++ ds) = requeued h ++ requeued ds := by simp [requeued]

end

end Ledger

def Stage.claims : Stage → List String
  | .holding es | .requeueing es => es.map Entry.id
  | .offering _ rest | .acking _ rest => rest.map Entry.id
  | .adding e rest => e.id :: rest.map Entry.id
  | .idle | .out => []

namespace Station

def claims (p : Station) : List String := (p.slot.map Entry.id).toList ++ p.stage.claims

def owed (p : Station) : List String :=
  match p.stage with
  | .acking id _ => [id]
  | .offering id _ => if p.slot.isNone then [id] else []
  | _ => []

def Fit (p : Station) : Prop :=
  match p.stage with
  | .offering id _ => ∀ e, p.slot = some e → e.id = id
  | .out => True
  | _ => p.slot = none

end Station

theorem Work.fit {i : Nat} {sh sh' : Shelf} {p p' : Station} {ds : List Deed}
    (h : Work i sh p ds sh' p') (hp : p.Fit) : p'.Fit := by
  cases h with
  | rest => exact hp
  | offer e rest slot =>
    intro e' he
    rw [← Option.some.inj he]
  | stop => trivial
  | take stage e =>
    cases stage with
    | offering id rest =>
      intro e' he
      cases he
    | out => trivial
    | _ => rfl
  | accept | reclaim | refuse => rfl
  | hand | finish | ack | pick | readd | skip => exact hp

theorem Work.claims_le {i : Nat} {sh sh' : Shelf} {p p' : Station} {ds : List Deed}
    (h : Work i sh p ds sh' p') (x : String) :
    (Ledger.returned ds).count x + (Ledger.requeued ds).count x + p'.claims.count x ≤
      (Ledger.handed ds).count x + p.claims.count x := by
  unfold Ledger.returned Ledger.requeued Ledger.handed
  cases h with
  | hand | take | readd =>
    simp [Station.claims, Stage.claims, List.count_cons]
    omega
  | skip =>
    simp [Station.claims, Stage.claims, List.count_cons]
  | _ => simp [Station.claims, Stage.claims]

theorem Work.owed_le {i : Nat} {sh sh' : Shelf} {p p' : Station} {ds : List Deed}
    (h : Work i sh p ds sh' p') (hp : p.Fit) (x : String) :
    (Ledger.acked ds).count x + p'.owed.count x ≤
      (Ledger.returned ds).count x + p.owed.count x := by
  unfold Ledger.returned
  cases h with
  | take stage e =>
    cases stage with
    | offering id rest =>
      obtain rfl : e.id = id := hp e rfl
      simp [Station.owed]
    | out => simp [Station.owed]
    | _ => cases hp
  | _ => simp [Station.owed]

theorem forall₂_mem_right {α β : Type} {R : α → β → Prop} {l : List α} {l' : List β}
    (h : List.Forall₂ R l l') {b : β} (hb : b ∈ l') : ∃ a ∈ l, R a b := by
  induction h with
  | nil => cases hb
  | cons hab _ ih =>
    rcases List.mem_cons.mp hb with rfl | hb
    · exact ⟨_, List.mem_cons_self, hab⟩
    · obtain ⟨a, ha, hr⟩ := ih hb
      exact ⟨a, List.mem_cons_of_mem _ ha, hr⟩

section
variable {α β : Type} [DecidableEq β] {f : α → List β}

theorem count_flatMap_set {l : List α} {i : Nat} {a : α} (h : l[i]? = some a) (b : α) (x : β) :
    ((l.set i b).flatMap f).count x + (f a).count x =
      (l.flatMap f).count x + (f b).count x := by
  induction l generalizing i with
  | nil => simp at h
  | cons c l ih =>
    cases i with
    | zero =>
      obtain rfl : c = a := by simpa using h
      simp only [List.set_cons_zero, List.flatMap_cons, List.count_append]
      omega
    | succ i =>
      have hi := ih (i := i) (by simpa using h)
      simp only [List.set_cons_succ, List.flatMap_cons, List.count_append]
      omega

theorem count_flatMap_le {R : α → α → Prop} {x : β}
    (hR : ∀ a b, R a b → (f b).count x ≤ (f a).count x) {l l' : List α}
    (h : List.Forall₂ R l l') : (l'.flatMap f).count x ≤ (l.flatMap f).count x := by
  induction h with
  | nil => exact Nat.le_refl _
  | cons hab _ ih =>
    simp only [List.flatMap_cons, List.count_append]
    exact Nat.add_le_add (hR _ _ hab) ih

end

namespace Flow

def claims (f : Flow) : List String := f.stations.flatMap Station.claims

def owed (f : Flow) : List String := f.stations.flatMap Station.owed

def Fit (f : Flow) : Prop := ∀ p ∈ f.stations, p.Fit

section
variable {f f₁ f' : Flow} {ds : List Deed}

/-- A step hands out the next entries of the shelf, or nothing. -/
theorem Step.hands (h : f.Step ds f') :
    (Ledger.handed ds = [] ∧ f.shelf.cursor ≤ f'.shelf.cursor) ∨
      ∃ consumer bs, f.shelf.Hands consumer bs f'.shelf ∧
        Ledger.handed ds = bs.map fun p => entryId p.1 := by
  cases h with
  | rest => exact Or.inl ⟨rfl, Nat.le_refl _⟩
  | add => exact Or.inl ⟨rfl, Nat.le_refl _⟩
  | found => exact Or.inl ⟨rfl, f.shelf.cursor_found⟩
  | join hsh hp =>
    rcases hsh with rfl | rfl
    · exact Or.inl ⟨rfl, Nat.le_refl _⟩
    · exact Or.inl ⟨rfl, f.shelf.cursor_found⟩
  | work hp h =>
    cases h with
    | @hand _ consumer bs slot h =>
      exact Or.inr ⟨consumer, bs, h, by
        simp [Ledger.handed, numbered, Function.comp_def]⟩
    | ack rest slot h =>
      rcases h with rfl | ⟨n, -, rfl⟩
      · exact Or.inl ⟨rfl, Nat.le_refl _⟩
      · exact Or.inl ⟨rfl, Nat.le_of_eq (f.shelf.cursor_ack n).symm⟩
    | _ => exact Or.inl ⟨rfl, Nat.le_refl _⟩

theorem Step.fit (h : f.Step ds f') (hf : f.Fit) : f'.Fit := by
  cases h with
  | rest | add | found => exact hf
  | join hsh hp =>
    intro p hm
    rcases List.mem_append.mp hm with hm | hm
    · exact hf p hm
    · rw [List.mem_singleton.mp hm]
      rcases hp with rfl | rfl
      · rfl
      · trivial
  | work hp h =>
    intro p hm
    rcases List.mem_or_eq_of_mem_set hm with hm | rfl
    · exact hf p hm
    · exact h.fit (hf _ (List.mem_of_getElem? hp))

theorem Step.claims_le (h : f.Step ds f') (x : String) :
    (Ledger.returned ds).count x + (Ledger.requeued ds).count x + f'.claims.count x ≤
      (Ledger.handed ds).count x + f.claims.count x := by
  cases h with
  | rest | add | found => simp [Ledger.returned, Ledger.requeued, claims]
  | join hsh hp =>
    rcases hp with rfl | rfl <;>
      simp [Ledger.returned, Ledger.requeued, claims, Station.claims, Stage.claims]
  | @work i p p' _ sh' hp h =>
    have hw := h.claims_le x
    have hc := count_flatMap_set (f := Station.claims) hp p' x
    simp only [claims]
    omega

theorem Step.owed_le (h : f.Step ds f') (hf : f.Fit) (x : String) :
    (Ledger.acked ds).count x + f'.owed.count x ≤
      (Ledger.returned ds).count x + f.owed.count x := by
  cases h with
  | rest | add | found => simp [owed]
  | join hsh hp => rcases hp with rfl | rfl <;> simp [owed, Station.owed]
  | @work i p p' _ sh' hp h =>
    have hw := h.owed_le (hf p (List.mem_of_getElem? hp)) x
    have hc := count_flatMap_set (f := Station.owed) hp p' x
    simp only [owed]
    omega

theorem Stops.fit (h : f.Stops f') (hf : f.Fit) : f'.Fit := by
  intro p' hm
  obtain ⟨p, hp, hpp⟩ := forall₂_mem_right h.stations hm
  rcases hpp with rfl | rfl
  · exact hf _ hp
  · trivial

theorem Stops.claims_le (h : f.Stops f') (x : String) : f'.claims.count x ≤ f.claims.count x := by
  refine count_flatMap_le ?_ h.stations
  rintro p p' (rfl | rfl)
  · exact Nat.le_refl _
  · simp [Station.claims, Stage.claims]

theorem Stops.owed_le (h : f.Stops f') (x : String) : f'.owed.count x ≤ f.owed.count x := by
  refine count_flatMap_le ?_ h.stations
  rintro p p' (rfl | rfl)
  · exact Nat.le_refl _
  · simp [Station.owed]

end

end Flow

structure Account (h : List Deed) (f : Flow) : Prop where
  fit : f.Fit
  claims : ∀ x, (Ledger.returned h).count x + (Ledger.requeued h).count x + f.claims.count x ≤
    (Ledger.handed h).count x
  owed : ∀ x, (Ledger.acked h).count x + f.owed.count x ≤ (Ledger.returned h).count x
  numbers : ∃ ns : List Nat, Ledger.handed h = ns.map entryId ∧ ns.Pairwise (· < ·) ∧
    ∀ n ∈ ns, n ≤ f.shelf.cursor

theorem account_step {h ds : List Deed} {f f₁ f' : Flow} (hs : f.shelf.Sound)
    (ha : Account h f) (hstep : f.Step ds f₁) (hstop : f₁.Stops f') : Account (h ++ ds) f' := by
  refine ⟨hstop.fit (hstep.fit ha.fit), fun x => ?_, fun x => ?_, ?_⟩
  · have h₀ := ha.claims x
    have h₁ := hstep.claims_le x
    have h₂ := hstop.claims_le x
    simp only [Ledger.returned_append, Ledger.requeued_append, Ledger.handed_append,
      List.count_append]
    omega
  · have h₀ := ha.owed x
    have h₁ := hstep.owed_le ha.fit x
    have h₂ := hstop.owed_le x
    simp only [Ledger.acked_append, Ledger.returned_append, List.count_append]
    omega
  · obtain ⟨ns, hn, ho, hc⟩ := ha.numbers
    rw [hstop.shelf]
    rcases hstep.hands with ⟨hd, hcur⟩ | ⟨consumer, bs, hh, hd⟩
    · exact ⟨ns, by simp [Ledger.handed_append, hn, hd], ho,
        fun n hm => Nat.le_trans (hc n hm) hcur⟩
    · refine ⟨ns ++ bs.map Prod.fst, by
        simp [Ledger.handed_append, hn, hd, Function.comp_def], ?_, ?_⟩
      · rw [List.pairwise_append, List.pairwise_map]
        refine ⟨ho, hh.ordered hs, ?_⟩
        intro n hm m hm'
        obtain ⟨p, hp, rfl⟩ := List.mem_map.mp hm'
        exact Nat.lt_of_le_of_lt (hc n hm) (hh.between hs hp).1
      · intro n hm
        rcases List.mem_append.mp hm with hm | hm
        · exact Nat.le_trans (hc n hm) (Nat.le_of_lt (hh.advances hs))
        · obtain ⟨p, hp, rfl⟩ := List.mem_map.mp hm
          exact (hh.between hs hp).2

theorem onStore_account (view : StoreView) (ops : List Store.Op) (q : Queue) :
    Account [] ((World.onStore view ops).flow q) := by
  refine ⟨?_, ?_, ?_, [], rfl, List.Pairwise.nil, by simp⟩
  · intro p hp
    simp [World.flow, World.onStore, World.start] at hp
  · intro x
    simp [Flow.claims, Ledger.returned, Ledger.requeued, World.flow, World.onStore, World.start]
  · intro x
    simp [Flow.owed, World.flow, World.onStore, World.start]

theorem run_account (view : StoreView) (ops : List Store.Op) (ms : List World.Move) (q : Queue) :
    Account (World.history q ms (World.onStore view ops))
      ((World.run ms (World.onStore view ops)).flow q) := by
  have h := World.run_keeps (q := q) (C := fun _ => True) (P := Account)
    (fun _ _ _ _ _ hs _ _ ha hstep hstop => account_step hs ha hstep hstop) ms
    (World.onStore_proper view ops) (fun _ _ => trivial) (onStore_account view ops q)
  simpa using h

end TaskRelay
