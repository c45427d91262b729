import TaskRelay.Proofs.Delivery.Own
import TaskRelay.Proofs.World.Lives

/-!
# What becomes of one consumer loop

A loop goes on by its own steps only. Any other move leaves it as it is, spawns it or ends it
early. Once its worker has stopped nothing happens to it any more, and what was in the slot
stays there.
-/

set_option autoImplicit false

namespace TaskRelay

def LoopState.Fades (l l' : LoopState) : Prop :=
  l' = l ∨ l' = .panicked ∨ l' = .aborted ∨ l' = .active .spawned

theorem LoopState.Fades.refl (l : LoopState) : l.Fades l := Or.inl rfl

theorem LoopState.Fades.trans {l l' l'' : LoopState} (h : l.Fades l') (h' : l'.Fades l'') :
    l.Fades l'' := by
  rcases h' with rfl | h'
  · exact h
  · exact Or.inr h'

namespace Post

def loop (p : Post) : LoopState := (p.phase.map Phase.loop).getD .absent

section
variable {p q : Post} {es : List Event}

theorem loop_some {f : Phase} (hf : p.phase = some f) : p.loop = f.loop := by
  simp [loop, hf]

theorem justSpawned_iff : p.justSpawned = true ↔ p.loop = .active .spawned := by
  cases hp : p.phase <;> simp [justSpawned, loop, hp]

theorem Step.fades (hs : p.Step es q) (hn : .looped ∉ es) : p.loop.Fades q.loop := by
  cases hs with
  | created settings none =>
    have hp : p.loop = .absent := by simp [loop, none]
    rw [hp]
    exact .refl _
  | ended phase active how =>
    rcases how with rfl | rfl
    · exact Or.inr (Or.inl rfl)
    · exact Or.inr (Or.inr (Or.inl rfl))
  | spawned => exact Or.inr (Or.inr (Or.inr rfl))
  | looped => simp at hn
  | tried phase | stopped phase =>
    rw [loop_some phase]
    exact .refl _
  | _ => exact .refl _

theorem Run.fades (hr : Run p es q) (hn : .looped ∉ es) : p.loop.Fades q.loop := by
  induction hr with
  | nil => exact .refl _
  | cons hs _ ih =>
    rw [List.mem_append, not_or] at hn
    exact (hs.fades hn.1).trans (ih hn.2)

theorem Step.settings (hs : p.Step es q) {f : Phase} (hf : p.phase = some f) :
    ∃ f', q.phase = some f' ∧ f'.settings = f.settings := by
  cases hs with
  | created settings none =>
    rw [none] at hf
    cases hf
  | ended phase | spawned phase | looped phase | tried phase | stopped phase =>
    obtain rfl := Option.some.inj (hf.symm.trans phase)
    exact ⟨_, rfl, rfl⟩
  | _ => exact ⟨f, hf, rfl⟩

theorem Run.settings (hr : Run p es q) {f : Phase} (hf : p.phase = some f) :
    ∃ f', q.phase = some f' ∧ f'.settings = f.settings := by
  induction hr generalizing f with
  | nil => exact ⟨f, hf, rfl⟩
  | cons hs _ ih =>
    obtain ⟨f₁, hf₁, h₁⟩ := hs.settings hf
    obtain ⟨f₂, hf₂, h₂⟩ := ih hf₁
    exact ⟨f₂, hf₂, h₂.trans h₁⟩

end

end Post

namespace World

section
variable {i : Nat} {w : World}

theorem post_loop {k : Worker} (hk : w.workers[i]? = some k) : (w.post i).loop = k.consumer :=
  Post.loop_some (post_phase i w hk)

theorem events_unlooped {m : Move} (hm : m ≠ .step (.loop i)) : .looped ∉ w.events i m := by
  have ha : .looped ∉ w.attempts i m := by
    unfold attempts
    split
    · split <;> simp
    · split <;> simp
    · split <;> simp
    · next j =>
      have hj : j ≠ i := fun h => hm (by rw [h])
      simp [hj]
    · split
      · split <;> simp
      · simp
    · simp
  have hs : .looped ∉ w.spawnings i (w.move m) := by
    unfold spawnings
    split <;> simp
  have hr : .looped ∉ w.returns i (w.move m) m := by
    unfold returns
    split
    · split
      · rw [List.mem_map]
        rintro ⟨e, -, h⟩
        cases h
      · simp
    · simp
  simp [events, ha, hs, hr]

end

def loopStep (w : World) (k : Worker) (c : Consumer) : ConsumerStep :=
  c.step k.settings w.view w.now (w.isCancelled k.stop) w.store k.handoff

def Spares (w : World) (i : Nat) (m : Move) : Prop :=
  m = .step (.loop i) → (w.post i).loop.isActive = false

section
variable {i : Nat} {w : World}

theorem move_loop {k : Worker} {c : Consumer} (hk : w.workers[i]? = some k)
    (hc : k.consumer = .active c) :
    (w.move (.step (.loop i))).store = (w.loopStep k c).store ∧
      (w.move (.step (.loop i))).workers[i]? = some { k with
        handoff := (w.loopStep k c).handoff
        consumer := (w.loopStep k c).state } := by
  have hm : w.move (.step (.loop i)) = _ := stepLoop_active hk hc rfl
  have hi : i < w.workers.length := (List.getElem?_eq_some_iff.mp hk).1
  rw [hm]
  exact ⟨by simp [setWorker, loopStep], by simp [setWorker, hi, loopStep]⟩

/-- A loop that is not active takes no step. -/
theorem step_idle (hl : (w.post i).loop.isActive = false) : w.step (.loop i) = (w, .gone) := by
  simp only [step, stepLoop]
  split
  · rfl
  · next k hk =>
    rw [post_loop hk] at hl
    split
    · next c hc =>
      rw [hc] at hl
      cases hl
    · rfl

theorem move_idle (hl : (w.post i).loop.isActive = false) : w.move (.step (.loop i)) = w := by
  rw [move, step_idle hl]

theorem move_cases (w : World) (i : Nat) (m : Move) :
    (∃ k c, m = .step (.loop i) ∧ w.workers[i]? = some k ∧ k.consumer = .active c) ∨
      w.Spares i m := by
  cases hk : w.workers[i]? with
  | none => exact Or.inr fun _ => by simp [Post.loop, post, hk, LoopState.isActive]
  | some k =>
    cases hc : k.consumer with
    | active c =>
      by_cases hm : m = .step (.loop i)
      · exact Or.inl ⟨k, c, hm, rfl, hc⟩
      · exact Or.inr fun h => absurd h hm
    | _ => exact Or.inr fun _ => by rw [post_loop hk, hc]; rfl

end

section
variable {i : Nat} {w : World} (hw : w.Proper) {es : List Event} (hl : (w.post i).Lived es)
include hw hl

theorem move_run (m : Move) : Post.Run (w.post i) (w.events i m) ((w.move m).post i) := by
  have hr := run_lives [m] hw hl
  rwa [chronicle, chronicle, List.append_nil] at hr

theorem Spares.fades {m : Move} (hm : w.Spares i m) :
    (w.post i).loop.Fades ((w.move m).post i).loop := by
  by_cases h : m = .step (.loop i)
  · have hidle := hm h
    subst h
    rw [move_idle hidle]
    exact .refl _
  · exact (move_run hw hl m).fades (events_unlooped h)

omit hw in
/-- Where a worker is once its shutdown has returned. -/
theorem won_stopped (hwon : Chronicle.Won es) : ∃ k, w.workers[i]? = some k ∧
    k.lifecycle = .stopped ∧ w.store.closed = true ∧ k.handoff.closed = true ∧
    k.consumer.isActive = false := by
  cases hk : w.workers[i]? with
  | none =>
    have hover := Chronicle.over_of_won hl.fits hwon
    exact absurd hover (hl.unborn (by simp [post, hk])).2
  | some k =>
    have hr := hl.reached _ (post_phase i w hk)
    have hs : k.lifecycle = .stopped := hr.stopped.mpr hwon
    obtain ⟨hshut, hidle⟩ := hr.quiet hs
    exact ⟨k, rfl, hs, hshut, hr.closed.mpr hs, hidle⟩

theorem move_worker {k : Worker} (hk : w.workers[i]? = some k) (m : Move) :
    ∃ k', (w.move m).workers[i]? = some k' ∧ k'.settings = k.settings := by
  obtain ⟨f, hf, hs⟩ := (move_run hw hl m).settings (post_phase i w hk)
  obtain ⟨k', hk', rfl⟩ := Option.map_eq_some_iff.mp hf
  exact ⟨k', hk', hs⟩

end

theorem of_additions (i : Nat) (sh sh' : Shelf) : Ledger.of i (additions sh sh') = [] := by
  rw [Ledger.of, List.filter_eq_nil_iff]
  intro d hd
  obtain ⟨p, -, rfl⟩ := List.mem_map.mp hd
  simp [Deed.worker?]

theorem of_loopDeeds {i j : Nat} (hij : j ≠ i) (gained : List (Nat × Fields)) (l l' : LoopState) :
    Ledger.of i (loopDeeds j gained l l') = [] := by
  rw [Ledger.of, List.filter_eq_nil_iff]
  intro d hd
  unfold loopDeeds at hd
  split at hd
  · rw [List.mem_singleton.mp hd]
    simpa [Deed.worker?] using hij
  · rw [List.mem_singleton.mp hd]
    simpa [Deed.worker?] using hij
  · rw [List.mem_singleton.mp hd]
    simpa [Deed.worker?] using hij
  · obtain ⟨p, -, rfl⟩ := List.mem_map.mp hd
    simpa [Deed.worker?] using hij
  · cases hd

theorem loopDeeds_idle (i : Nat) (gained : List (Nat × Fields)) {l : LoopState}
    (hl : l.isActive = false) (l' : LoopState) : loopDeeds i gained l l' = [] := by
  cases l with
  | active c => cases hl
  | _ => rfl

/-- A loop is handed entries when it reads. -/
theorem handed_loopDeeds {i j : Nat} {gained : List (Nat × Fields)} {l l' : LoopState} {x : String}
    (hx : x ∈ Ledger.handed (Ledger.of j (loopDeeds i gained l l'))) :
    (l = .active .top ∨ ∃ r, l = .active (.reading r)) ∧
      ∃ es, l' = .active (.holding es) ∧ x ∈ es.map Entry.id := by
  have hx : x ∈ Ledger.handed (loopDeeds i gained l l') :=
    ((Ledger.handedOut_of j _).map Entry.id).subset hx
  unfold Ledger.handed loopDeeds at hx
  split at hx
  · exact ⟨Or.inl rfl, _, rfl, by simpa using hx⟩
  · exact ⟨Or.inr ⟨_, rfl⟩, _, rfl, by simpa using hx⟩
  · cases hx
  · simp [Ledger.handedOut] at hx
  · cases hx

theorem mem_callDeeds {i : Nat} {ended : List Ended} {d : Deed} (hd : d ∈ callDeeds i ended) :
    ∃ e ∈ ended, ∃ x, e.outcome = .requested (.ok x) ∧ d = .returned i x := by
  obtain ⟨e, he, hd⟩ := List.mem_filterMap.mp hd
  split at hd
  · next x hx => exact ⟨e, he, x, hx, (Option.some.inj hd).symm⟩
  · cases hd

section
variable {i : Nat} {w : World}

theorem deeds_loop {k : Worker} {c : Consumer} (hk : w.workers[i]? = some k)
    (hc : k.consumer = .active c) (q : Queue) :
    w.deeds q (.step (.loop i)) =
      additions (w.store.shelf q) ((w.loopStep k c).store.shelf q) ++
        if k.queue = q then
          loopDeeds i ((w.store.shelf q).gained ((w.loopStep k c).store.shelf q)) k.consumer
            (w.loopStep k c).state
        else [] := by
  obtain ⟨hs, hk'⟩ := move_loop hk hc
  rw [deeds, agentDeeds, hs, hk, hk']

theorem of_deeds_step (q : Queue) (a : Agent) :
    Ledger.of i (w.deeds q (.step a)) = Ledger.of i (agentDeeds q w (w.move (.step a)) a) := by
  rw [deeds, Ledger.of_append, of_additions, List.nil_append]

theorem of_deeds_outside (q : Queue) {m : Move} (hm : ∀ a, m ≠ .step a) :
    Ledger.of i (w.deeds q m) = [] := by
  unfold deeds
  rw [Ledger.of_append, of_additions, List.nil_append]
  cases m with
  | step a => exact absurd rfl (hm a)
  | _ => rfl

/-- Whoever is not the loop of a worker does nothing but return entries on it. -/
theorem Spares.deeds {m : Move} (hm : w.Spares i m) (q : Queue) :
    ∀ d ∈ Ledger.of i (w.deeds q m), ∃ id r e, m = .step (.call id) ∧
      Table.get? id w.calls = some (.requesting i r) ∧ d = .returned i e ∧
      ∃ x ∈ (w.move m).ended.drop w.ended.length, x.outcome = .requested (.ok e) := by
  intro d hd
  have hi : d.worker? = some i := of_decide_eq_true (List.mem_filter.mp hd).2
  cases m with
  | step a =>
    rw [of_deeds_step] at hd
    replace hd := (List.mem_filter.mp hd).1
    cases a with
    | loop j =>
      simp only [agentDeeds] at hd
      split at hd
      · next k k' hk _ =>
        split at hd
        · by_cases hj : j = i
          · subst hj
            have hidle := hm rfl
            rw [post_loop hk] at hidle
            rw [loopDeeds_idle j _ hidle] at hd
            cases hd
          · have hn := List.filter_eq_nil_iff.mp (of_loopDeeds hj _ _ _) d hd
            exact absurd (decide_eq_true hi) hn
        · cases hd
      · cases hd
    | call id =>
      simp only [agentDeeds] at hd
      split at hd
      · next j r hc =>
        split at hd
        · obtain ⟨x, hx, e, he, rfl⟩ := mem_callDeeds hd
          obtain rfl : j = i := Option.some.inj hi
          exact ⟨id, r, e, rfl, hc, rfl, x, hx, he⟩
        · cases hd
      · cases hd
  | _ =>
    rw [of_deeds_outside q (by simp)] at hd
    cases hd

/-- A stopped worker does nothing any more. -/
theorem deeds_stopped (hw : w.Proper) {k : Worker} (hk : w.workers[i]? = some k)
    (hcl : k.handoff.closed = true) (hidle : k.consumer.isActive = false) (q : Queue) (m : Move) :
    Ledger.of i (w.deeds q m) = [] := by
  have hm : w.Spares i m := fun _ => by rwa [post_loop hk]
  rw [List.eq_nil_iff_forall_not_mem]
  intro d hd
  obtain ⟨id, r, e, rfl, hc, rfl, x, hx, he⟩ := hm.deeds q d hd
  obtain ⟨-, ds, hcall, -⟩ := request_call hw hk id r
  have hstep : w.move (.step (.call id)) = _ := step_call hc
  rw [hstep, conclude_ended, hcall.ended, List.drop_left] at hx
  have hp : (w.stepCall id (.requesting i r)).2 = .done (.requested (.ok e)) := by
    cases hp : (w.stepCall id (.requesting i r)).2 with
    | done o =>
      rw [hp] at hx
      obtain rfl := List.mem_singleton.mp hx
      rw [show o = _ from he]
    | running | waiting =>
      rw [hp] at hx
      cases hx
  have hsees := Request.step_sees w.now k r
  simp only [stepCall, hk] at hp
  generalize r.step w.now k = t at hsees hp
  obtain ⟨k', ns, p⟩ := t
  cases hsees with
  | spawns => cases hp
  | goes same started opened on =>
    rw [opened] at hcl
    cases hcl
  | @ends _ _ y same started reason refused nothing =>
    cases y with
    | error err => cases hp
    | ok e' => exact nothing hcl e' rfl

end

end World

end TaskRelay
