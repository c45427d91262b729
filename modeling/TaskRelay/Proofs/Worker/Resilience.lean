import TaskRelay.Proofs.Worker.Intake

/-!
# A loop outlasts failures

A loop ends by itself only after it was told to stop, and from then on it starts no read.
After a failed read it pauses for a second and reads again. Whatever becomes of an
acknowledgement, the loop goes on to the next entry at once, so it offers the entries that it
received in their order, each once, and acknowledges those that were taken in their order,
each once.
-/

set_option autoImplicit false

namespace TaskRelay
open scoped List

namespace Feat

def isOwn : Feat → Bool
  | .told => false
  | _ => true

def received : Feat → List Entry
  | .got (.ok es) => es
  | _ => []

def offered? : Feat → Option Entry
  | .offers e => some e
  | _ => none

def acked? : Feat → Option String
  | .acks id _ => some id
  | _ => none

end Feat

namespace Feats

def Told (h : Feats) : Prop := ∃ t, (t, Feat.told) ∈ h

def last? (h : Feats) : Option (Nat × Feat) := (h.filter (·.2.isOwn)).getLast?

def received (h : Feats) : List Entry := h.flatMap (·.2.received)

def offered (h : Feats) : List Entry := h.filterMap (·.2.offered?)

def acked (h : Feats) : List String := h.filterMap (·.2.acked?)

def next? (h : Feats) : Option Entry := h.received[h.offered.length]?

structure Fits (h : Feats) (p : Nat × Feat) : Prop where
  reads : p.2 = .reads → ¬ h.Told
  exits : p.2 = .exits → h.Told
  offers : ∀ e, p.2 = .offers e → h.next? = some e
  acks : ∀ id r, p.2 = .acks id r → (h.offered.map Entry.id)[h.acked.length]? = some id
  retries : ∀ t e, h.last? = some (t, .got (.error e)) →
    p.2 = .told ∨ p.2 = .cut ∨ p.2 = .exits ∨ p = (t + 1000, .reads)
  goesOn : ∀ t id r, h.last? = some (t, .acks id r) →
    p.2 = .told ∨ p.2 = .cut ∨ p.1 = t ∧
      match h.next? with
      | some e => p.2 = .offers e
      | none => p.2 = .exits ∨ p.2 = .reads

section
variable (h : Feats) (t : Nat) (x : Feat)

theorem last?_own (hx : x.isOwn = true) : Feats.last? (h ++ [(t, x)]) = some (t, x) := by
  simp [last?, hx]

theorem last?_told : Feats.last? (h ++ [(t, .told)]) = h.last? := by
  simp [last?, Feat.isOwn]

theorem received_snoc : Feats.received (h ++ [(t, x)]) = h.received ++ x.received := by
  simp [received]

theorem offered_snoc : Feats.offered (h ++ [(t, x)]) = h.offered ++ x.offered?.toList := by
  cases hx : x.offered? <;> simp [offered, hx]

theorem acked_snoc : Feats.acked (h ++ [(t, x)]) = h.acked ++ x.acked?.toList := by
  cases hx : x.acked? <;> simp [acked, hx]

theorem told_snoc (hx : x.isOwn = true) : Feats.Told (h ++ [(t, x)]) ↔ h.Told := by
  have hne : x ≠ .told := by
    rintro rfl
    cases hx
  constructor
  · rintro ⟨t', ht'⟩
    rcases List.mem_append.mp ht' with hm | hm
    · exact ⟨t', hm⟩
    · exact absurd (congrArg Prod.snd (List.mem_singleton.mp hm)).symm hne
  · rintro ⟨t', ht'⟩
    exact ⟨t', List.mem_append_left _ ht'⟩

end

theorem prefix_snoc {α : Type} {as bs : List α} {a : α} (h : as <+: bs)
    (ha : bs[as.length]? = some a) : as ++ [a] <+: bs := by
  obtain ⟨cs, rfl⟩ := h
  cases cs with
  | nil => simp at ha
  | cons c cs =>
    obtain rfl : c = a := by simpa using ha
    exact ⟨cs, by simp⟩

/-- Entries are offered in the order in which they were received, each once, and
acknowledged in the order in which they were offered, each once. -/
theorem inOrder {h : Feats} (hf : Fitting Fits h) :
    h.offered <+: h.received ∧ h.acked <+: h.offered.map Entry.id := by
  induction h using List.reverseRecOn with
  | nil => exact ⟨List.prefix_rfl, List.prefix_rfl⟩
  | append_singleton h p ih =>
    obtain ⟨ho, ha⟩ := ih hf.before
    have hp : Fits h p := hf h p [] rfl
    obtain ⟨t, x⟩ := p
    rw [received_snoc, offered_snoc, acked_snoc]
    cases x with
    | offers e =>
      refine ⟨?_, ?_⟩
      · simpa [Feat.received, Feat.offered?] using prefix_snoc ho (hp.offers e rfl)
      · simpa [Feat.acked?, Feat.offered?] using ha.trans (List.prefix_append _ _)
    | acks id r =>
      refine ⟨?_, ?_⟩
      · simpa [Feat.received, Feat.offered?] using ho
      · simpa [Feat.acked?, Feat.offered?] using prefix_snoc ha (hp.acks id r rfl)
    | got r =>
      refine ⟨?_, ?_⟩
      · simpa [Feat.offered?] using ho.trans (List.prefix_append _ _)
      · simpa [Feat.acked?, Feat.offered?] using ha
    | told | cut | exits | reads =>
      exact ⟨by simpa [Feat.received, Feat.offered?] using ho,
        by simpa [Feat.acked?, Feat.offered?] using ha⟩

end Feats

namespace Consumer

def batch : Consumer → List Entry
  | .holding rest | .offering _ _ rest | .acking _ rest => rest
  | _ => []

def unacked : Consumer → List String
  | .offering _ id _ | .acking id _ => [id]
  | _ => []

end Consumer

namespace Intake

def due : Nat × Feat → Nat
  | (t, .got (.error _)) => t + Consumer.readErrorBackoff
  | (t, _) => t

def Since (now : Nat) (last : Option (Nat × Feat)) : LoopState → Prop
  | .active .spawned => last = none
  | .active .top => ∀ p, last = some p → now = due p
  | .active (.reading _) => ∃ t, last = some (t, .reads)
  | .active (.pausing d) => ∃ t e, last = some (t, .got (.error e)) ∧
      d = t + Consumer.readErrorBackoff ∧ now ≤ d
  | .active (.holding _) => ∃ x, last = some (now, x) ∧ ∀ e, x ≠ .got (.error e)
  | .active _ => ∃ t e, last = some (t, .offers e)
  | .finished => ∃ t, last = some (t, .exits)
  | .absent => False
  | _ => ∃ t, last = some (t, .cut)

structure Accounts (h : Feats) (batch : List Entry) (unacked : List String) : Prop where
  left : h.received = h.offered ++ batch
  owed : h.offered.map Entry.id = h.acked ++ unacked

namespace Accounts

variable {h : Feats} {batch : List Entry} {unacked : List String}

theorem next_none (ha : Accounts h [] unacked) : h.next? = none := by
  simp [Feats.next?, ha.left]

theorem next_some {e : Entry} (ha : Accounts h (e :: batch) unacked) : h.next? = some e := by
  simp [Feats.next?, ha.left]

theorem acked_next {id : String} (ha : Accounts h batch [id]) :
    (h.offered.map Entry.id)[h.acked.length]? = some id := by
  simp [ha.owed]

theorem same (ha : Accounts h batch unacked) (t : Nat) {x : Feat} (hr : x.received = [])
    (ho : x.offered? = none) (hk : x.acked? = none) :
    Accounts (h ++ [(t, x)]) batch unacked where
  left := by simp [Feats.received_snoc, Feats.offered_snoc, hr, ho, ha.left]
  owed := by simp [Feats.acked_snoc, Feats.offered_snoc, hk, ho, ha.owed]

theorem got (ha : Accounts h [] unacked) (t : Nat) (es : List Entry) :
    Accounts (h ++ [(t, .got (.ok es))]) es unacked where
  left := by
    simp [Feats.received_snoc, Feats.offered_snoc, Feat.received, Feat.offered?, ha.left]
  owed := by simp [Feats.acked_snoc, Feats.offered_snoc, Feat.acked?, Feat.offered?, ha.owed]

theorem offers {e : Entry} (ha : Accounts h (e :: batch) []) (t : Nat) :
    Accounts (h ++ [(t, .offers e)]) batch [e.id] where
  left := by
    simp [Feats.received_snoc, Feats.offered_snoc, Feat.received, Feat.offered?, ha.left]
  owed := by simp [Feats.acked_snoc, Feats.offered_snoc, Feat.acked?, Feat.offered?, ha.owed]

theorem acks {id : String} (ha : Accounts h batch [id]) (t : Nat) (r : Except StoreError Unit) :
    Accounts (h ++ [(t, .acks id r)]) batch [] where
  left := by
    simp [Feats.received_snoc, Feats.offered_snoc, Feat.received, Feat.offered?, ha.left]
  owed := by simp [Feats.acked_snoc, Feats.offered_snoc, Feat.acked?, Feat.offered?, ha.owed]

theorem offers_fits {e : Entry} {now : Nat} {x : Feat} (ha : Accounts h (e :: batch) unacked)
    (hlast : h.last? = some (now, x)) (hx : ∀ e, x ≠ .got (.error e)) :
    Feats.Fits h (now, .offers e) where
  reads := nofun
  exits := nofun
  offers e' he := by
    cases he
    exact ha.next_some
  acks := nofun
  retries t e' hl := by
    cases hlast.symm.trans hl
    exact absurd rfl (hx e')
  goesOn t id r hl := by
    cases hlast.symm.trans hl
    refine .inr (.inr ⟨rfl, ?_⟩)
    rw [ha.next_some]

theorem acks_fits {id : String} {t : Nat} {e : Entry} (ha : Accounts h batch [id])
    (hlast : h.last? = some (t, .offers e)) (now : Nat) (r : Except StoreError Unit) :
    Feats.Fits h (now, .acks id r) where
  reads := nofun
  exits := nofun
  offers := nofun
  acks id' r' hk := by
    cases hk
    exact ha.acked_next
  retries t' e' hl := by cases hlast.symm.trans hl
  goesOn t' id' r' hl := by cases hlast.symm.trans hl

end Accounts

def Holds (stopped : Bool) (h : Feats) : LoopState → Prop
  | .active (.requeueing _) | .active (.adding _ _ _) => stopped = true
  | .active c => Accounts h c.batch c.unacked
  | _ => True

structure Stands (o : Intake) : Prop where
  heard : o.stopped = true ↔ o.log.Told
  fits : Fitting Feats.Fits o.log
  since : Since o.now o.log.last? o.loop
  holds : Holds o.stopped o.log o.loop

section
variable {o : Intake} (hs : o.Stands)
include hs

/-- A step in which nothing was seen. -/
theorem Stands.quiet (handoff : Handoff Entry) {l : LoopState}
    (hsince : Since o.now o.log.last? l) (hholds : Holds o.stopped o.log l) :
    Stands { o with handoff := handoff, loop := l, log := o.log ++ [] } := by
  rw [List.append_nil]
  exact ⟨hs.heard, hs.fits, hsince, hholds⟩

/-- A step in which the loop was seen to do something. -/
theorem Stands.does {x : Feat} (hx : x.isOwn = true) (hf : Feats.Fits o.log (o.now, x))
    (handoff : Handoff Entry) {l : LoopState} (hsince : Since o.now (some (o.now, x)) l)
    (hholds : Holds o.stopped (o.log ++ [(o.now, x)]) l) :
    Stands { o with handoff := handoff, loop := l, log := o.log ++ [(o.now, x)] } where
  heard := by
    rw [Feats.told_snoc _ _ _ hx]
    exact hs.heard
  fits := hs.fits.snoc hf
  since := by
    rw [Feats.last?_own _ _ _ hx]
    exact hsince
  holds := hholds

/-- A loop ends by itself if it was told to stop and has nothing left of what it read. -/
theorem Stands.exits (hst : o.stopped = true)
    (hlast : ∀ t id r, o.log.last? = some (t, .acks id r) → o.now = t ∧ o.log.next? = none)
    (handoff : Handoff Entry) :
    Stands { o with
      handoff := handoff, loop := .finished, log := o.log ++ [(o.now, .exits)] } := by
  refine hs.does rfl ?_ handoff ⟨_, rfl⟩ trivial
  exact
    { reads := nofun
      exits := fun _ => hs.heard.mp hst
      offers := nofun
      acks := nofun
      retries := fun _ _ _ => .inr (.inr (.inl rfl))
      goesOn := fun t id r hl => by
        obtain ⟨hn, hnone⟩ := hlast t id r hl
        refine .inr (.inr ⟨hn, ?_⟩)
        rw [hnone]
        exact .inl rfl }

/-- A loop may panic or be aborted at any time. -/
theorem Stands.cut (handoff : Handoff Entry) {l : LoopState}
    (hl : l = .panicked ∨ l = .aborted) :
    Stands { o with handoff := handoff, loop := l, log := o.log ++ [(o.now, .cut)] } := by
  refine hs.does rfl ?_ handoff ?_ ?_
  · exact ⟨nofun, nofun, nofun, nofun, fun _ _ _ => .inr (.inl rfl), fun _ _ _ _ => .inr (.inl rfl)⟩
  · rcases hl with rfl | rfl <;> exact ⟨_, rfl⟩
  · rcases hl with rfl | rfl <;> trivial

/-- A read starts. -/
theorem Stands.reads (hl : o.loop = .active .top) (hst : o.stopped = false) (r : GroupRead) :
    Stands { o with loop := .active (.reading r), log := o.log ++ [(o.now, .reads)] } := by
  have hsince := hs.since
  have hholds := hs.holds
  rw [hl] at hsince hholds
  have ha : Accounts o.log [] [] := hholds
  refine hs.does rfl ?_ o.handoff ⟨_, rfl⟩ (ha.same _ rfl rfl rfl)
  exact
    { reads := fun _ ht => by simp [hs.heard.mpr ht] at hst
      exits := nofun
      offers := nofun
      acks := nofun
      retries := fun t e hlast => .inr (.inr (.inr (congrArg (·, Feat.reads) (hsince _ hlast))))
      goesOn := fun t id r hlast => .inr (.inr ⟨hsince _ hlast, by
        rw [ha.next_none]
        exact .inr rfl⟩) }

/-- What a loop that reads does with what it gets. -/
theorem Stands.gets {r : GroupRead} (hl : o.loop = .active (.reading r)) (cfg : StreamSettings)
    (p : Progress GroupRead ReadResult) :
    Stands { o with
      handoff := (Consumer.afterRead cfg o.now .empty o.handoff p).handoff
      loop := (Consumer.afterRead cfg o.now .empty o.handoff p).state
      log := o.log ++ (Consumer.gets p ++
        Consumer.ends (Consumer.afterRead cfg o.now .empty o.handoff p).progress).map
          (o.now, ·) } := by
  have hsince := hs.since
  have hholds := hs.holds
  rw [hl] at hsince hholds
  obtain ⟨t, hlast⟩ := hsince
  have ha : Accounts o.log [] [] := hholds
  have waits (r' : GroupRead) :
      Stands { o with loop := .active (.reading r'), log := o.log ++ [] } :=
    hs.quiet o.handoff ⟨t, hlast⟩ ha
  have fits (x : ReadResult) : Feats.Fits o.log (o.now, .got x) :=
    ⟨nofun, nofun, nofun, nofun, fun t e h => by simp [hlast] at h,
      fun t id r h => by simp [hlast] at h⟩
  rcases p with r' | r' | ⟨e | ⟨_ | ⟨e, es⟩⟩⟩
  · exact waits r'
  · exact waits r'
  · exact hs.does rfl (fits _) o.handoff ⟨o.now, e, rfl, rfl, Nat.le_add_right _ _⟩
      (ha.same _ rfl rfl rfl)
  · refine hs.does rfl (fits _) o.handoff (fun p hp => ?_) (ha.got _ [])
    cases hp
    rfl
  · exact hs.does rfl (fits _) o.handoff ⟨_, rfl, nofun⟩ (ha.got _ _)

/-- What becomes of an offer, of which nothing is seen. -/
theorem Stands.offer {id : String} {rest : List Entry} {t : Nat} {e : Entry}
    (hlast : o.log.last? = some (t, .offers e)) (ha : Accounts o.log rest [id]) (store : Store)
    (h : Handoff Entry) {p : Progress Offer (Offered Entry)}
    (hp : ∀ e', p = .done (.stopped e') → o.stopped = true) :
    Stands { o with
      handoff := (Consumer.afterOffer store h id rest p).handoff
      loop := (Consumer.afterOffer store h id rest p).state
      log := o.log ++ (Consumer.ends (Consumer.afterOffer store h id rest p).progress).map
        (o.now, ·) } := by
  rcases p with o' | o' | ⟨_ | e'⟩
  · exact hs.quiet h ⟨t, e, hlast⟩ ha
  · exact hs.quiet h ⟨t, e, hlast⟩ ha
  · exact hs.quiet h ⟨t, e, hlast⟩ ha
  · exact hs.quiet h ⟨t, e, hlast⟩ (hp e' rfl)

end

theorem due_brief (t : Nat) {x : Feat} (hx : ∀ e, x ≠ .got (.error e)) : due (t, x) = t := by
  unfold due
  split
  · next e h => exact absurd (congrArg Prod.snd h) (hx e)
  · next h => exact (congrArg Prod.fst h).symm

theorem Stands.step_top {now : Nat} {stopped : Bool} {handoff : Handoff Entry} {log : Feats}
    (hs : Stands ⟨now, stopped, handoff, .active .top, log⟩) (cfg : StreamSettings) (said : Said) :
    (move cfg ⟨now, stopped, handoff, .active .top, log⟩ (.step said)).Stands := by
  have ha : Accounts log [] [] := hs.holds
  cases stopped with
  | true =>
    exact hs.exits rfl (fun t id r hlast => ⟨hs.since _ hlast, ha.next_none⟩) handoff
  | false =>
    have hr := hs.reads rfl rfl ⟨"", "", "", 0, 0, 0⟩
    obtain ⟨_ | _, read, acked, added, delay⟩ := said
    · have hg := hr.gets rfl cfg read
      rw [List.append_assoc] at hg
      exact hg
    · have hc := hr.cut handoff (.inl rfl)
      rw [List.append_assoc] at hc
      exact hc

theorem Stands.step {o : Intake} (hs : o.Stands) (cfg : StreamSettings) (said : Said) :
    (o.move cfg (.step said)).Stands := by
  obtain ⟨now, stopped, handoff, loop, log⟩ := o
  cases loop with
  | active c =>
    cases c with
    | spawned =>
      have hnone : log.last? = none := hs.since
      exact hs.quiet handoff (l := .active .top) (by simp [Since, hnone]) hs.holds
    | top => exact hs.step_top cfg said
    | reading r =>
      obtain ⟨t, hlast : log.last? = _⟩ := hs.since
      cases stopped with
      | true => exact hs.exits rfl (fun t id r h => by simp [hlast] at h) handoff
      | false => exact hs.gets rfl cfg said.read
    | pausing d =>
      obtain ⟨t, e, hlast, rfl, hn⟩ := hs.since
      dsimp only at hlast hn
      cases stopped with
      | true => exact hs.exits rfl (fun t id r h => by simp [hlast] at h) handoff
      | false =>
        simp only [move, Consumer.hears, Consumer.step, Bool.false_eq_true, if_false]
        split
        · next hd =>
          refine hs.quiet handoff (l := .active .top) (fun p hp => ?_) hs.holds
          cases hlast.symm.trans hp
          exact Nat.le_antisymm hn hd
        · exact hs.quiet handoff (l := .active (.pausing _)) ⟨t, e, hlast, rfl, hn⟩ hs.holds
    | holding batch =>
      obtain ⟨x, hlast, hx⟩ := hs.since
      have ha : Accounts log batch [] := hs.holds
      cases batch with
      | nil =>
        refine hs.quiet handoff (l := .active .top) (fun p hp => ?_) ha
        cases hlast.symm.trans hp
        exact (due_brief now hx).symm
      | cons e rest =>
        have ho := hs.does rfl (ha.offers_fits hlast hx) handoff
          (l := .active (.acking e.id rest)) ⟨now, e, rfl⟩ (ha.offers now)
        have hd := ho.offer (Feats.last?_own log now (.offers e) rfl) (ha.offers now)
          { Store.empty with addDelay := said.delay } (handoff.beginOffer e stopped).1
          (p := (handoff.beginOffer e stopped).2) (fun e' he => by
            by_contra hst
            rw [Bool.not_eq_true] at hst
            exact World.watchSlot_unstopped _ e' (by rw [← hst]; exact he))
        rw [List.append_assoc] at hd
        exact hd
    | offering o' id rest =>
      obtain ⟨t, e, hlast⟩ := hs.since
      have ha : Accounts log rest [id] := hs.holds
      exact hs.offer hlast ha _ _ fun e' he => by
        by_contra hst
        rw [Bool.not_eq_true] at hst
        exact World.resume_unstopped o' handoff e' (by rw [← hst]; exact he)
    | acking id rest =>
      obtain ⟨t, e, hlast⟩ := hs.since
      have ha : Accounts log rest [id] := hs.holds
      exact hs.does rfl (ha.acks_fits hlast now said.acked) handoff (l := .active (.holding rest))
        ⟨_, rfl, by rintro e ⟨⟩⟩ (ha.acks _ _)
    | requeueing batch =>
      obtain ⟨t, e, hlast⟩ := hs.since
      have hst : stopped = true := hs.holds
      cases batch with
      | nil => exact hs.exits hst (fun t id r h => by simp [hlast] at h) handoff
      | cons e' rest => exact hs.quiet handoff (l := .active (.adding _ _ _)) ⟨t, e, hlast⟩ hst
    | adding a id rest =>
      obtain ⟨t, e, hlast⟩ := hs.since
      have hst : stopped = true := hs.holds
      obtain ⟨_ , read, acked, (a' | a' | r), delay⟩ := said
      · exact hs.quiet handoff (l := .active (.adding _ _ _)) ⟨t, e, hlast⟩ hst
      · exact hs.quiet handoff (l := .active (.adding _ _ _)) ⟨t, e, hlast⟩ hst
      · exact hs.quiet handoff (l := .active (.requeueing _)) ⟨t, e, hlast⟩ hst
  | _ => exact hs

theorem Stands.stop {o : Intake} (hs : o.Stands) (cfg : StreamSettings) :
    (o.move cfg .stop).Stands where
  heard := by
    refine ⟨fun _ => ⟨o.now, ?_⟩, fun _ => rfl⟩
    exact List.mem_append_right _ (List.mem_singleton_self _)
  fits := hs.fits.snoc
    ⟨nofun, nofun, nofun, nofun, fun _ _ _ => .inl rfl, fun _ _ _ _ => .inl rfl⟩
  since := by
    have hsince := hs.since
    rwa [← Feats.last?_told o.log o.now] at hsince
  holds := by
    have hholds := hs.holds
    obtain ⟨now, stopped, handoff, loop, log⟩ := o
    cases loop with
    | active c =>
      cases c with
      | requeueing | adding => rfl
      | _ => exact hholds.same now rfl rfl rfl
    | _ => trivial

theorem Stands.cutTo {o : Intake} (hs : o.Stands) {l : LoopState}
    (hl : l = .panicked ∨ l = .aborted) : (o.cutTo l).Stands := by
  unfold Intake.cutTo
  split
  · exact hs.cut o.handoff hl
  · exact hs

/-- Time passes while the loop waits, until the end of its pause at most. -/
theorem Stands.wait {o : Intake} (hs : o.Stands) (cfg : StreamSettings) {n : Nat}
    (ht : o.TimelyMove (.wait n)) : (o.move cfg (.wait n)).Stands := by
  refine ⟨hs.heard, hs.fits, ?_, hs.holds⟩
  have hsince := hs.since
  obtain ⟨now, stopped, handoff, loop, log⟩ := o
  cases loop with
  | active c =>
    cases c with
    | pausing d =>
      obtain ⟨t, e, hlast, hd, -⟩ := hsince
      exact ⟨t, e, hlast, hd, ht.2⟩
    | top | holding => cases ht
    | _ => exact hsince
  | _ => exact hsince

theorem Stands.move {o : Intake} (hs : o.Stands) (cfg : StreamSettings) {m : Move}
    (ht : o.TimelyMove m) : (o.move cfg m).Stands := by
  cases m with
  | step said => exact hs.step cfg said
  | stop => exact hs.stop cfg
  | panic => exact hs.cutTo (.inl rfl)
  | abort => exact hs.cutTo (.inr rfl)
  | use h => exact ⟨hs.heard, hs.fits, hs.since, hs.holds⟩
  | wait n => exact hs.wait cfg ht

theorem start_stands (now : Nat) (h : Handoff Entry) : (start now h).Stands where
  heard := ⟨nofun, nofun⟩
  fits := Fitting.nil
  since := rfl
  holds := ⟨rfl, rfl⟩

theorem run_stands (cfg : StreamSettings) (ms : List Move) {o : Intake} (hs : o.Stands)
    (ht : Timely cfg ms o) : (run cfg ms o).Stands := by
  induction ms generalizing o with
  | nil => exact hs
  | cons m ms ih => exact ih (hs.move cfg ht.1) ht.2

section
variable {o : Intake} (hs : o.Stands)
include hs

theorem Stands.ended (hl : o.loop.isActive = false) :
    o.stopped = true ∨ o.loop = .panicked ∨ o.loop = .aborted := by
  have hsince := hs.since
  cases hloop : o.loop with
  | active c =>
    rw [hloop] at hl
    cases hl
  | finished =>
    rw [hloop] at hsince
    obtain ⟨t, hlast⟩ := hsince
    have hm : (t, Feat.exits) ∈ o.log := (List.mem_filter.mp (List.mem_of_getLast? hlast)).1
    obtain ⟨a, b, hab⟩ := List.append_of_mem hm
    obtain ⟨t', ht'⟩ := (hs.fits a _ b hab).exits rfl
    exact Or.inl (hs.heard.mpr ⟨t', by rw [hab]; exact List.mem_append_left _ ht'⟩)
  | absent =>
    rw [hloop] at hsince
    exact hsince.elim
  | panicked => exact Or.inr (Or.inl rfl)
  | aborted => exact Or.inr (Or.inr rfl)

/-- A loop whose last read failed pauses or is about to read again. -/
theorem Stands.failed {t : Nat} {e : StoreError} (hlast : o.log.last? = some (t, .got (.error e))) :
    (o.loop = .active .top ∧ o.now = t + Consumer.readErrorBackoff) ∨
      (o.loop = .active (.pausing (t + Consumer.readErrorBackoff)) ∧
        o.now ≤ t + Consumer.readErrorBackoff) := by
  have hsince := hs.since
  rw [hlast] at hsince
  cases hloop : o.loop with
  | active c =>
    rw [hloop] at hsince
    cases c with
    | top => exact Or.inl ⟨rfl, hsince _ rfl⟩
    | pausing d =>
      obtain ⟨t', e', he, rfl, hn⟩ := hsince
      cases he
      exact Or.inr ⟨rfl, hn⟩
    | spawned => cases hsince
    | reading r =>
      obtain ⟨t', ht'⟩ := hsince
      cases ht'
    | holding batch =>
      obtain ⟨x, hx, hne⟩ := hsince
      cases hx
      exact absurd rfl (hne e)
    | offering | acking | requeueing | adding =>
      obtain ⟨t', e', ht'⟩ := hsince
      cases ht'
  | absent =>
    rw [hloop] at hsince
    exact hsince.elim
  | finished | panicked | aborted =>
    rw [hloop] at hsince
    obtain ⟨t', ht'⟩ := hsince
    cases ht'

/-- A loop that has acknowledged an entry or tried to and has others is about to offer the
next one. -/
theorem Stands.acked {t : Nat} {id : String} {r : Except StoreError Unit} {e : Entry}
    (hlast : o.log.last? = some (t, .acks id r)) (hnext : o.log.next? = some e) :
    ∃ rest, o.loop = .active (.holding (e :: rest)) ∧ o.now = t := by
  have hsince := hs.since
  have hholds := hs.holds
  rw [hlast] at hsince
  cases hloop : o.loop with
  | active c =>
    rw [hloop] at hsince hholds
    cases c with
    | holding batch =>
      obtain ⟨x, hx, -⟩ := hsince
      cases hx
      cases batch with
      | nil => cases hnext.symm.trans hholds.next_none
      | cons e' rest =>
        cases hnext.symm.trans hholds.next_some
        exact ⟨rest, rfl, rfl⟩
    | top => cases hnext.symm.trans (Accounts.next_none hholds)
    | spawned => cases hsince
    | reading r =>
      obtain ⟨t', ht'⟩ := hsince
      cases ht'
    | pausing d =>
      obtain ⟨t', e', ht', -⟩ := hsince
      cases ht'
    | offering | acking | requeueing | adding =>
      obtain ⟨t', e', ht'⟩ := hsince
      cases ht'
  | absent =>
    rw [hloop] at hsince
    exact hsince.elim
  | finished | panicked | aborted =>
    rw [hloop] at hsince
    obtain ⟨t', ht'⟩ := hsince
    cases ht'

end

end Intake

end TaskRelay
