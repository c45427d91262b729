import TaskRelay.Proofs.Runner.Record
import TaskRelay.Proofs.World.Loops

/-!
# The account of a run with runners

What the steps of a flow keep holds after every run, with runners or without. So no entry is
returned twice, and none that was added again. The loop of a worker acknowledges only what was
returned of this worker, and what is returned of a worker whose tasks a single runner requests
is what this runner got.
-/

set_option autoImplicit false

namespace TaskRelay

namespace World

/-- What the steps of a flow keep holds after a run. -/
theorem play_keeps {q : Queue} {P : List Deed → Flow → Prop}
    (hstep : ∀ h f ds f₁ f', f.shelf.Sound → P h f → f.Step ds f₁ → f₁.Stops f' → P (h ++ ds) f')
    (as : List Act) {w : World} (hw : w.Staffed) {h : List Deed} (hP : P h (w.flow q)) :
    P (h ++ annals q as w) ((play as w).flow q) := by
  induction as generalizing w h with
  | nil => simpa [annals, play] using hP
  | cons a as ih =>
    obtain ⟨f₁, hf, hs⟩ := (act_passes hw a).flow q
    rw [annals, ← List.append_assoc]
    exact ih (act_staffed hw a) (hstep h _ _ _ _ (hw.shelves q) hP hf hs)

theorem play_account (view : StoreView) (ops : List Store.Op) (as : List Act) (q : Queue) :
    Account (annals q as (onStore view ops)) ((play as (onStore view ops)).flow q) := by
  have h := play_keeps (q := q) (P := Account)
    (fun _ _ _ _ _ hs ha hstep hstop => account_step hs ha hstep hstop) as
    (onStore_staffed view ops) (onStore_account view ops q)
  simpa using h

end World

theorem Work.own_acked {i : Nat} {sh sh' : Shelf} {p p' : Station} {ds : List Deed}
    (h : Work i sh p ds sh' p') : Ledger.acked (Ledger.of i ds) = Ledger.acked ds := by
  cases h <;> simp [Deed.worker?]

structure Owing (i : Nat) (h : List Deed) (p : Option Station) : Prop where
  fit : ∀ s, p = some s → s.Fit
  owed : ∀ x, (Ledger.acked (Ledger.of i h)).count x + ((p.map Station.owed).getD []).count x ≤
    (Ledger.returned (Ledger.of i h)).count x

theorem Owing.turn {i : Nat} {h ds : List Deed} {p p' : Option Station} (ho : Owing i h p)
    (ht : Station.Turn i ds p p') : Owing i (h ++ ds) p' := by
  have owed : ∀ x, (Ledger.acked (Ledger.of i (h ++ ds))).count x = _ := fun x => by
    rw [Ledger.of_append, Ledger.acked_append, List.count_append]
  have paid : ∀ x, (Ledger.returned (Ledger.of i (h ++ ds))).count x = _ := fun x => by
    rw [Ledger.of_append, Ledger.returned_append, List.count_append]
  cases ht with
  | rest p silent =>
    refine ⟨ho.fit, fun x => ?_⟩
    rw [owed, paid, silent]
    exact ho.owed x
  | join silent fresh =>
    subst silent
    refine ⟨?_, fun x => ?_⟩
    · rintro s hs
      obtain rfl := Option.some.inj hs
      rcases fresh with rfl | rfl
      · rfl
      · trivial
    · rw [owed, paid]
      rcases fresh with rfl | rfl <;> exact ho.owed x
  | @work sh sh' p p' hw =>
    have hf : p.Fit := ho.fit p rfl
    refine ⟨?_, fun x => ?_⟩
    · rintro s hs
      obtain rfl := Option.some.inj hs
      exact hw.fit hf
    · have hx := ho.owed x
      have hle := hw.owed_le hf x
      have hr : Ledger.returned (Ledger.of i ds) = Ledger.returned ds :=
        congrArg (List.map Entry.id) hw.own.2.1
      rw [owed, paid, hw.own_acked, hr]
      simp only [Option.map_some, Option.getD_some] at hx ⊢
      omega

theorem Owing.stop {i : Nat} {h : List Deed} {p : Station} (ho : Owing i h (some p)) :
    Owing i h (some ⟨.out, p.slot⟩) := by
  refine ⟨?_, fun x => ?_⟩
  · rintro s hs
    obtain rfl := Option.some.inj hs
    trivial
  · have hx := ho.owed x
    have hn : (Station.owed ⟨.out, p.slot⟩).count x = 0 := rfl
    simp only [Option.map_some, Option.getD_some] at hx ⊢
    omega

namespace World

theorem play_owing (view : StoreView) (ops : List Store.Op) (as : List Act) (q : Queue)
    (i : Nat) : Owing i (annals q as (onStore view ops))
      ((play as (onStore view ops)).flow q).stations[i]? := by
  have h₀ : Owing i [] ((onStore view ops).flow q).stations[i]? := by
    refine ⟨?_, ?_⟩ <;> simp [flow, onStore, start]
  have h := play_keeps (q := q) (P := fun h f => Owing i h f.stations[i]?)
    (fun h f ds f₁ f' _ ho hstep hstop => by
      have ho₁ := ho.turn (hstep.turn i)
      rcases hstop.turn i with he | ⟨p, hp, he⟩
      · rwa [he]
      · rw [hp] at ho₁
        rw [he]
        exact ho₁.stop) as (onStore_staffed view ops) h₀
  simpa using h

section
variable {w : World} {q : Queue} {i : Nat} {a : Act}

/-- What is returned of a worker is returned to a call that requests from it. -/
theorem returned_asked {e : Entry} (h : .returned i e ∈ w.actDeeds q a) : ∃ n c,
    a = .move (.step (.call n)) ∧ w.call? n = some c ∧ c.asked? = some i := by
  cases a with
  | drive | cancel => cases h
  | move m =>
    rcases List.mem_append.mp h with hd | hd
    · rcases List.mem_append.mp hd with hd | hd
      · exact absurd hd (not_returned_added i e _ _)
      · cases m with
        | step a =>
          cases a with
          | loop j =>
            simp only [agentDeeds] at hd
            split at hd
            · split at hd
              · exact absurd hd (not_returned_loop i e _ _ _ _)
              · cases hd
            · cases hd
          | call n =>
            simp only [agentDeeds] at hd
            split at hd
            · next j r hc =>
              split at hd
              · obtain ⟨-, -, x, -, hx⟩ := mem_callDeeds hd
                obtain ⟨rfl, -⟩ := Deed.returned.inj hx
                exact ⟨n, _, rfl, hc, rfl⟩
              · cases hd
            · cases hd
        | _ => cases hd
    · split at hd
      · next n =>
        simp only [runnerDeeds] at hd
        split at hd
        · next r hc =>
          split at hd
          · next j hr =>
            split at hd
            · obtain ⟨x, -, hx⟩ := List.mem_map.mp hd
              obtain ⟨rfl, -⟩ := Deed.returned.inj hx
              exact ⟨n, _, rfl, hc, by simp only [Call.asked?, hr]⟩
            · cases hd
          · cases hd
        · cases hd
      · cases hd

theorem taken_nothing {ds : List Deed} (h : ∀ e, .returned i e ∉ ds) :
    Ledger.taken (Ledger.of i ds) = [] :=
  List.eq_nil_iff_forall_not_mem.mpr fun e he => h e ((Ledger.taken_of i ds).mp he)

theorem returned_doings (w : World) (d n : Nat) :
    Book.returned (w.actDoings d (.move (.step (.call n)))) =
      if n = d then w.answered n else [] := by
  have newcomer (w' : World) : Book.returned (newcomer d w w') = [] := by
    unfold World.newcomer
    cases (w'.call? w.nextCall).bind (Call.ordered? d) <;> rfl
  have debut (w' : World) : Book.returned (debut d n w w') = [] := by
    unfold World.debut
    split
    · cases (w'.call? n).bind (Call.handling? d) <;> rfl
    · rfl
  have answered (es : List Entry) : Book.returned (es.map .returned) = es := by
    induction es with
    | nil => rfl
    | cons e es ih => exact congrArg (e :: ·) ih
  simp only [actDoings, Book.returned_append, newcomer, debut, List.append_nil]
  split
  · exact answered _
  · rfl

theorem told (hw : w.Staffed) {d : Nat} (ho : w.Asked i (some d)) (hq : w.serves q i = true)
    (own : ∀ c, w.call? d = some c → ∃ r, c = .driving r ∧ r.Mans i) (a : Act) :
    Ledger.taken (Ledger.of i (w.actDeeds q a)) = Book.returned (w.actDoings d a) := by
  by_cases hd : ∃ c, a = .move (.step (.call d)) ∧ w.call? d = some c
  · obtain ⟨c, rfl, hc⟩ := hd
    obtain ⟨r, rfl, hr⟩ := own c hc
    have hs := silent_deeds hw hc (runner_step (d := d) hr hw.workers).store (by simp) q
    have back (es : List Entry) :
        Ledger.taken (Ledger.of i (es.map (.returned i))) = es := by
      induction es with
      | nil => rfl
      | cons e es ih => simp [Deed.worker?, ih]
    rw [returned_doings, if_pos rfl]
    simp only [actDeeds, hs, List.nil_append, runnerDeeds, hc, hr.source, hq, if_true]
    exact back _
  · have hn : Ledger.taken (Ledger.of i (w.actDeeds q a)) = [] := by
      refine taken_nothing fun e he => ?_
      obtain ⟨n, c, rfl, hc, hi⟩ := returned_asked he
      obtain rfl := Option.some.inj (ho n c hc hi)
      exact hd ⟨c, rfl, hc⟩
    rw [hn]
    cases a with
    | drive | cancel => rfl
    | move m =>
      cases m with
      | step a =>
        cases a with
        | loop j => rfl
        | call n =>
          rw [returned_doings]
          split
          · next h =>
            subst h
            cases hc : w.call? n with
            | none => simp only [answered, hc]
            | some c => exact absurd ⟨c, rfl, hc⟩ hd
          · rfl
      | _ => rfl

end

end World

end TaskRelay
