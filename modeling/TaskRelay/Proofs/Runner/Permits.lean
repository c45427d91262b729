import TaskRelay.Proofs.Runner.Happenings
import TaskRelay.Proofs.Store.Group

/-!
# Permits

The permits of a runner are free, or with a run in flight, or with the runner while it
requests a task or pauses after a failed request. Whatever a request answers and however a
run ends, their number is the capacity of the runner, from its first step on and after it
has returned. A runner that gathers permits at its end has not taken those that are free.
-/

set_option autoImplicit false

namespace TaskRelay

namespace Table

variable {β : Type}

def tally (p : β → Bool) (t : Table Nat β) : Nat := t.countP fun x => p x.2

def mark (p : β → Bool) : Option β → Nat
  | some b => if p b then 1 else 0
  | none => 0

theorem tally_insert (p : β → Bool) {t : Table Nat β} (ht : t.Sorted) (k : Nat) (b : β) :
    tally p (t.insert k b) + mark p (t.get? k) = tally p t + mark p (some b) := by
  induction t with
  | nil => simp [tally, Table.insert, get?, mark]
  | cons x t ih =>
    obtain ⟨j, c⟩ := x
    obtain ⟨hx, ht'⟩ := List.pairwise_cons.mp ht
    have ih := ih ht'
    unfold tally at ih ⊢
    by_cases hk : k = j
    · subst hk
      simp only [Table.insert, get?, if_pos, List.countP_cons, mark]
      omega
    · by_cases hlt : k < j
      · have hnone : Table.get? k t = none := by
          cases hg : Table.get? k t with
          | none => rfl
          | some b' =>
            have hm := hx _ ((Sorted.mem_iff ht' k b').mpr hg)
            exact absurd hm (by simp; omega)
        simp only [Table.insert, get?, if_neg hk, if_pos hlt, List.countP_cons, mark, hnone]
        omega
      · simp only [Table.insert, get?, if_neg hk, if_neg hlt, List.countP_cons]
        omega

theorem tally_erase (p : β → Bool) {t : Table Nat β} (ht : t.Sorted) (k : Nat) :
    tally p (t.erase k) + mark p (t.get? k) = tally p t := by
  induction t with
  | nil => rfl
  | cons x t ih =>
    obtain ⟨j, c⟩ := x
    obtain ⟨hx, ht'⟩ := List.pairwise_cons.mp ht
    have ih := ih ht'
    unfold tally at ih ⊢
    by_cases hk : k = j
    · subst hk
      have hnone : Table.get? k t = none := by
        cases hg : Table.get? k t with
        | none => rfl
        | some b' => exact absurd (hx _ ((Sorted.mem_iff ht' k b').mpr hg)) (Nat.lt_irrefl k)
      rw [hnone] at ih
      simp only [Table.erase, get?, if_pos, List.countP_cons, mark] at ih ⊢
      omega
    · simp only [Table.erase, get?, if_neg hk, List.countP_cons]
      omega

theorem tally_put (p : β → Bool) {t : Table Nat β} (ht : t.Sorted) (k : Nat) (b : Option β) :
    tally p (t.put k b) + mark p (t.get? k) = tally p t + mark p b := by
  cases b with
  | none => exact tally_erase p ht k
  | some b => exact tally_insert p ht k b

theorem Sorted.put {t : Table Nat β} (ht : t.Sorted) (k : Nat) (b : Option β) :
    (t.put k b).Sorted := by
  cases b with
  | none => exact ht.sublist (erase_sublist k t)
  | some b => exact ht.insert k b

theorem get?_put_self (t : Table Nat β) (k : Nat) (b : Option β) : (t.put k b).get? k = b := by
  cases b with
  | none => exact get?_erase_self k t
  | some b => exact get?_insert_self k b t

theorem get?_put_of_ne (t : Table Nat β) {k j : Nat} (h : j ≠ k) (b : Option β) :
    (t.put k b).get? j = t.get? j := by
  cases b with
  | none => exact get?_erase_of_ne h t
  | some b => exact get?_insert_of_ne h b t

end Table

def Call.ownedBy (d : Nat) (c : Call) : Bool := c.owner? == some d

theorem Call.Aside.unowned {c : Call} (h : c.Aside) : c.owner? = none := by
  cases c with
  | driving | dispatched | loose => exact False.elim h
  | _ => rfl

theorem Call.Opens.unowned {c : Call} (h : c.Opens) : c.owner? = none := by
  cases c with
  | dispatched | loose => exact False.elim h
  | _ => rfl

namespace World

def inFlight (w : World) (d : Nat) : Nat := Table.tally (Call.ownedBy d) w.calls

def heldBy (w : World) (d : Nat) : Nat :=
  match w.call? d with
  | some (.driving r) => r.held
  | _ => 0

structure Filed (w : World) : Prop where
  sorted : w.calls.Sorted
  known : ∀ n c, w.call? n = some c → n < w.nextCall
  owners : ∀ n c d, w.call? n = some c → c.owner? = some d → d < w.nextCall

theorem start_filed (view : StoreView) : (start view).Filed where
  sorted := List.Pairwise.nil
  known _ _ h := by cases h
  owners _ _ _ h := by cases h

section
variable {w w' : World} (hw : w.Filed)
include hw

theorem Filed.unborn : w.call? w.nextCall = none := by
  cases hc : w.call? w.nextCall with
  | none => rfl
  | some c => exact absurd (hw.known _ c hc) (Nat.lt_irrefl _)

theorem Filed.put {n : Nat} {c : Call} {left : Option Call} (hc : w.call? n = some c)
    (calls : w'.calls = Table.put n left w.calls) (next : w.nextCall ≤ w'.nextCall)
    (owner : ∀ c' d, left = some c' → c'.owner? = some d → d < w'.nextCall) : w'.Filed := by
  have same : w'.call? n = left := by rw [call?, calls, Table.get?_put_self]
  have other {m : Nat} (hm : m ≠ n) : w'.call? m = w.call? m := by
    rw [call?, calls, Table.get?_put_of_ne _ hm, call?]
  refine ⟨calls ▸ hw.sorted.put n left, fun m c' hc' => ?_, fun m c' d hc' ho => ?_⟩
  · by_cases hm : m = n
    · subst hm
      exact Nat.lt_of_lt_of_le (hw.known m c hc) next
    · exact Nat.lt_of_lt_of_le (hw.known m c' (other hm ▸ hc')) next
  · by_cases hm : m = n
    · subst hm
      exact owner c' d (same.symm.trans hc') ho
    · exact Nat.lt_of_lt_of_le (hw.owners m c' d (other hm ▸ hc') ho) next

theorem Filed.begin {c : Call} (owner : ∀ d, c.owner? = some d → d < w.nextCall) :
    (w.begin c).1.Filed := by
  refine ⟨hw.sorted.insert _ _, fun m c' hc' => ?_, fun m c' d hc' ho => ?_⟩
  · by_cases hm : m = w.nextCall
    · exact hm ▸ Nat.lt_succ_self _
    · rw [begin_other w c hm] at hc'
      exact Nat.lt_succ_of_lt (hw.known m c' hc')
  · by_cases hm : m = w.nextCall
    · subst hm
      rw [begin_same] at hc'
      cases hc'
      exact Nat.lt_succ_of_lt (owner d ho)
    · rw [begin_other w c hm] at hc'
      exact Nat.lt_succ_of_lt (hw.owners m c' d hc' ho)

/-- What a change of one call does to the number of runs in flight. -/
theorem inFlight_put {n : Nat} {left : Option Call} (calls : w'.calls = Table.put n left w.calls)
    (d : Nat) : w'.inFlight d + Table.mark (Call.ownedBy d) (w.call? n) =
      w.inFlight d + Table.mark (Call.ownedBy d) left := by
  rw [inFlight, calls]
  exact Table.tally_put _ hw.sorted n left

theorem inFlight_begin (c : Call) (d : Nat) :
    (w.begin c).1.inFlight d = w.inFlight d + Table.mark (Call.ownedBy d) (some c) := by
  have calls : (w.begin c).1.calls = Table.put w.nextCall (some c) w.calls := rfl
  have h := inFlight_put hw calls d
  rw [hw.unborn] at h
  exact h

theorem Filed.unowned {d : Nat} (hd : w.nextCall ≤ d) : w.inFlight d = 0 := by
  rw [inFlight, Table.tally, List.countP_eq_zero]
  intro x hx ho
  have hc := (Table.Sorted.mem_iff hw.sorted x.1 x.2).mp hx
  have hlt := hw.owners x.1 x.2 d hc (by simpa [Call.ownedBy] using ho)
  omega

end

theorem mark_aside {c : Call} (h : c.owner? = none) (d : Nat) :
    Table.mark (Call.ownedBy d) (some c) = 0 := by
  simp [Table.mark, Call.ownedBy, h]

theorem mark_owned {c : Call} {e : Nat} (h : c.owner? = some e) (d : Nat) :
    Table.mark (Call.ownedBy d) (some c) = if e = d then 1 else 0 := by
  simp [Table.mark, Call.ownedBy, h]

inductive Balanced (w : World) (d capacity : Nat) : Prop
  | fresh (r : Runner) (call : w.call? d = some (.driving r)) (fresh : r.stage = .fresh)
      (same : r.capacity = capacity) (idle : w.inFlight d = 0)
  | refused (call : w.call? d = none) (many : Runner.maxPermits < capacity)
      (idle : w.inFlight d = 0)
  | open (call : ∀ c, w.call? d = some c →
        ∃ r, c = .driving r ∧ r.stage ≠ .fresh ∧ r.capacity = capacity)
      (sum : w.free d + w.inFlight d + w.heldBy d = capacity)

/-- The permits of a runner count the same if its call, and how many of them are free or
in flight, do. -/
theorem Balanced.congr {w w' : World} {d capacity : Nat} (h : w.Balanced d capacity)
    (call : w'.call? d = w.call? d) (sum : w'.free d + w'.inFlight d = w.free d + w.inFlight d)
    (less : w'.inFlight d ≤ w.inFlight d) : w'.Balanced d capacity := by
  cases h with
  | fresh r hc hf hs hi => exact .fresh r (call.trans hc) hf hs (by omega)
  | refused hc hm hi => exact .refused (call.trans hc) hm (by omega)
  | «open» hc hsum =>
    refine .open (fun c h => hc c (call ▸ h)) ?_
    rw [heldBy, call, ← heldBy, sum]
    exact hsum

/-- A step of a runner alters its own permits only, unless it dispatches a task. -/
theorem Manages.frees {w w₁ : World} {n : Nat} {r : Runner} {p : Progress Runner Outcome}
    (h : w.Manages n r (w₁, p)) : w.Frees n w₁ ∨
      ∃ w₂ c, w.Steady w₂ ∧ c.owner? = some n ∧ w₁ = (w₂.begin c).1 := by
  cases h with
  | refuses _ _ steady | winds _ _ steady | ends steady => exact Or.inl (steady.frees n)
  | «opens» _ _ frees | goes _ _ _ frees => exact Or.inl frees
  | dispatches _ _ _ _ _ steady owner => exact Or.inr ⟨_, _, steady, owner, rfl⟩
  | waits => exact Or.inl ((Steady.refl w).frees n)

theorem left?_driving {p : Progress Runner Outcome} {c : Call}
    (h : left? (p.within .driving fun o => o) = some c) : ∃ r, c = .driving r :=
  left?_within (P := fun c => ∃ r, c = .driving r) (fun r => ⟨r, rfl⟩) _ p c h

section
variable {w : World} (hw : w.Filed)
include hw

theorem Filed.happen (x : Happening) : (w.happen x).Filed := by
  have put {w' : World} {n : Nat} {c : Call} {l : Option Call} (hc : w.call? n = some c)
      (calls : w'.calls = Table.put n l w.calls) (next : w'.nextCall = w.nextCall)
      (owner : ∀ c', l = some c' → c'.owner? = none ∨ c'.owner? = c.owner?) : w'.Filed := by
    refine hw.put hc calls (Nat.le_of_eq next.symm) fun c' d hl ho => ?_
    rw [next]
    rcases owner c' hl with h | h
    · rw [h] at ho
      cases ho
    · exact hw.owners n c d hc (h ▸ ho)
  cases w.happen_occurs x with
  | rests steady =>
    have same (m : Nat) : (w.happen x).call? m = w.call? m := by
      rw [call?, steady.calls, call?]
    refine ⟨steady.calls ▸ hw.sorted, ?_, ?_⟩
    · intro m c hc
      rw [steady.next]
      exact hw.known m c (same m ▸ hc)
    · intro m c d hc ho
      rw [steady.next]
      exact hw.owners m c d (same m ▸ hc) ho
  | waits millis wait after =>
    rw [after]
    exact ⟨hw.sorted, hw.known, hw.owners⟩
  | enters c opens after =>
    rw [after]
    refine hw.begin fun d ho => ?_
    rw [opens.unowned] at ho
    cases ho
  | aside left call aside stays onward calls next =>
    exact put call calls next fun c' hl => Or.inl (stays c' hl).unowned
  | @runs n d c t w₁ p call owner token step after =>
    rw [after]
    cases step with
    | @goes _ _ c' t' steady left owner' =>
      refine put (l := left? p) call ?_ ((conclude_nextCall _ _ _).trans steady.next) ?_
      · rw [conclude_calls, steady.calls]
      · intro c'' hl
        rw [left] at hl
        cases hl
        exact Or.inr (owner'.trans owner.symm)
    | ends frees back =>
      refine put (l := none) call ?_ ((conclude_nextCall _ _ _).trans frees.next) ?_
      · rw [conclude_calls, frees.calls]
        rfl
      · exact fun c' hl => by cases hl
  | @drives n r w₁ p call step after =>
    rw [after]
    have unowned (c' : Call) (h : left? (p.within .driving fun o => o) = some c') :
        c'.owner? = none := by
      obtain ⟨r', rfl⟩ := left?_driving h
      rfl
    rcases step.frees with frees | ⟨w₂, c, steady, owner, rfl⟩
    · refine put call ?_ ((conclude_nextCall _ _ _).trans frees.next) fun c' h =>
        Or.inl (unowned c' h)
      rw [conclude_calls, frees.calls]
    · have hn := hw.known n _ call
      have hb : (w.begin c).1.Filed := hw.begin fun d ho => by
        rw [owner] at ho
        cases ho
        exact hn
      have calls : (w₂.begin c).1.calls = (w.begin c).1.calls := by
        rw [World.begin, World.begin, steady.next, steady.calls]
      have hc : (w.begin c).1.call? n = some (.driving r) :=
        (begin_other w c (Nat.ne_of_lt hn)).trans call
      refine hb.put hc (by rw [conclude_calls, calls]) ?_ fun c' d h ho => ?_
      · rw [conclude_nextCall]
        exact Nat.le_of_eq (congrArg (· + 1) steady.next.symm)
      · rw [unowned c' h] at ho
        cases ho

omit hw in
theorem Balanced.driving {d capacity : Nat} (h : w.Balanced d capacity) {c : Call}
    (hc : w.call? d = some c) : ∃ r, c = .driving r ∧ r.capacity = capacity := by
  cases h with
  | fresh r call fresh same =>
    rw [call] at hc
    cases hc
    exact ⟨r, rfl, same⟩
  | refused call =>
    rw [call] at hc
    cases hc
  | «open» call =>
    obtain ⟨r, hr, -, same⟩ := call c hc
    exact ⟨r, hr, same⟩

/-- A runner is no run in flight, whether it goes on or ends. -/
theorem inFlight_drives {n : Nat} {r : Runner} {w₁ : World} (call : w.call? n = some (.driving r))
    (calls : w₁.calls = w.calls) (p : Progress Runner Outcome) (d : Nat) :
    (w₁.conclude n (p.within .driving fun o => o)).inFlight d = w.inFlight d := by
  have hcalls : (w₁.conclude n (p.within .driving fun o => o)).calls =
      Table.put n (left? (p.within .driving fun o => o)) w.calls := by
    rw [conclude_calls, calls]
  have hmark : Table.mark (Call.ownedBy d) (left? (p.within .driving fun o => o)) = 0 := by
    cases hl : left? (p.within .driving fun o => o) with
    | none => rfl
    | some c =>
      obtain ⟨r', rfl⟩ := left?_driving hl
      exact mark_aside rfl d
  have hcount := inFlight_put hw hcalls d
  rw [call, mark_aside rfl, hmark] at hcount
  exact hcount

theorem inFlight_dispatches {n : Nat} {r : Runner} {w₂ : World} {c : Call}
    (call : w.call? n = some (.driving r)) (steady : w.Steady w₂) (owner : c.owner? = some n)
    (p : Progress Runner Outcome) (d : Nat) :
    ((w₂.begin c).1.conclude n (p.within .driving fun o => o)).inFlight d =
      w.inFlight d + if n = d then 1 else 0 := by
  have hn := hw.known n _ call
  have hb : (w.begin c).1.Filed := hw.begin fun e ho => by
    rw [owner] at ho
    cases ho
    exact hn
  have calls : (w₂.begin c).1.calls = (w.begin c).1.calls := by
    rw [World.begin, World.begin, steady.next, steady.calls]
  have hc : (w.begin c).1.call? n = some (.driving r) :=
    (begin_other w c (Nat.ne_of_lt hn)).trans call
  rw [inFlight_drives hb hc calls, inFlight_begin hw, mark_owned owner]

omit hw in
theorem Balanced.sum {d capacity : Nat} {r : Runner} (h : w.Balanced d capacity)
    (call : w.call? d = some (.driving r)) (hs : r.stage ≠ .fresh) :
    w.free d + w.inFlight d + r.held = capacity ∧ r.capacity = capacity := by
  have held : w.heldBy d = r.held := by rw [heldBy, call]
  cases h with
  | fresh r' hc hf =>
    rw [call] at hc
    cases hc
    exact absurd hf hs
  | refused hc =>
    rw [call] at hc
    cases hc
  | «open» hc hsum =>
    obtain ⟨r', hr, -, hcap⟩ := hc _ call
    cases hr
    exact ⟨held ▸ hsum, hcap⟩

omit hw in
theorem Balanced.idle {d capacity : Nat} {r : Runner} (h : w.Balanced d capacity)
    (call : w.call? d = some (.driving r)) (hs : r.stage = .fresh) :
    w.inFlight d = 0 ∧ r.capacity = capacity := by
  cases h with
  | fresh r' hc hf hcap hi =>
    rw [call] at hc
    cases hc
    exact ⟨hi, hcap⟩
  | refused hc =>
    rw [call] at hc
    cases hc
  | «open» hc =>
    obtain ⟨r', hr, hf, -⟩ := hc _ call
    cases hr
    exact absurd hs hf

/-- What the step of a runner does to its own permits. -/
theorem Balanced.drives {d capacity : Nat} {r : Runner} (h : w.Balanced d capacity)
    (call : w.call? d = some (.driving r)) {w₁ : World} {p : Progress Runner Outcome}
    (step : w.Manages d r (w₁, p)) :
    (w₁.conclude d (p.within .driving fun o => o)).Balanced d capacity := by
  have on {w₁ : World} {p : Progress Runner Outcome} {r' : Runner}
      (hp : p = .running r' ∨ p = .waiting r') (hf : r'.stage ≠ .fresh)
      (hcap : r'.capacity = capacity)
      (hsum : w₁.free d + (w₁.conclude d (p.within .driving fun o => o)).inFlight d + r'.held =
        capacity) : (w₁.conclude d (p.within .driving fun o => o)).Balanced d capacity := by
    have hc : (w₁.conclude d (p.within .driving fun o => o)).call? d = some (.driving r') := by
      rw [conclude_same]
      rcases hp with rfl | rfl <;> rfl
    refine .open (fun c h => ⟨r', ?_, hf, hcap⟩) ?_
    · rw [hc] at h
      exact (Option.some.inj h).symm
    · rw [conclude_free, heldBy, hc]
      exact hsum
  have off {w₁ : World} {o : Outcome} :
      (w₁.conclude d (Progress.within Call.driving (fun o => o) (.done o))).call? d = none :=
    conclude_same _ _ _
  cases step with
  | refuses fresh many steady =>
    obtain ⟨hi, hcap⟩ := h.idle call fresh
    refine .refused off (hcap ▸ many) ?_
    rw [inFlight_drives hw call steady.calls, hi]
  | «opens» fresh few frees full =>
    obtain ⟨hi, hcap⟩ := h.idle call fresh
    refine on (Or.inl rfl) (by simp) hcap ?_
    rw [inFlight_drives hw call frees.calls, hi, full, hcap]
    rfl
  | @goes _ s _ loops next follows frees balance hp =>
    have hs : r.stage ≠ .fresh := fun h => by simp [Runner.Loops, h] at loops
    obtain ⟨hsum, hcap⟩ := h.sum call hs
    have hs' : s.stage ≠ .fresh := fun h => by simp [Runner.Loops, h] at next
    have hcap' : s.capacity = capacity := by
      rw [Runner.capacity, follows.settings, ← Runner.capacity, hcap]
    refine on hp hs' hcap' ?_
    rw [inFlight_drives hw call frees.calls]
    omega
  | @dispatches w₂ s c t loops next follows holds spends steady owner =>
    have hs : r.stage ≠ .fresh := fun h => by simp [Runner.Loops, h] at loops
    obtain ⟨hsum, hcap⟩ := h.sum call hs
    have hs' : s.stage ≠ .fresh := fun h => by simp [Runner.Loops, h] at next
    have hcap' : s.capacity = capacity := by
      rw [Runner.capacity, follows.settings, ← Runner.capacity, hcap]
    have free : (w₂.begin c).1.free d = w.free d := steady.free d
    refine on (Or.inl rfl) hs' hcap' ?_
    rw [inFlight_dispatches hw call steady owner, if_pos rfl, free]
    omega
  | winds winding active steady =>
    obtain ⟨hsum, hcap⟩ := h.sum call (by simp [winding])
    have hh : r.held = 0 := by simp [Runner.held, winding]
    refine on (Or.inl rfl) (by simp) hcap ?_
    rw [inFlight_drives hw call steady.calls, steady.free, ← hsum, hh]
    rfl
  | waits draining =>
    obtain ⟨hsum, hcap⟩ := h.sum call (by simp [draining])
    refine on (Or.inr rfl) (by simp [draining]) hcap ?_
    rw [inFlight_drives hw call rfl]
    exact hsum
  | ends steady how =>
    have hs : r.stage ≠ .fresh := by
      rcases how with ⟨hst, -⟩ | ⟨t, hst, -⟩ <;> simp [hst]
    obtain ⟨hsum, hcap⟩ := h.sum call hs
    have hh : r.held = 0 := by
      rcases how with ⟨hst, -⟩ | ⟨t, hst, -⟩ <;> simp [Runner.held, hst]
    refine .open (fun c hc => ?_) ?_
    · rw [off] at hc
      cases hc
    · have none_held : (w₁.conclude d (Progress.within Call.driving (fun o => o)
          (.done (.drove r.dispatched)))).heldBy d = 0 := by rw [heldBy, off]
      rw [none_held, conclude_free, inFlight_drives hw call steady.calls, steady.free]
      omega

structure Apart (w : World) (d : Nat) (w' : World) : Prop extends Onward w w' where
  call : w'.call? d = w.call? d
  sum : w'.free d + w'.inFlight d = w.free d + w.inFlight d
  less : w'.inFlight d ≤ w.inFlight d

omit hw in
theorem Apart.of_same {w' : World} {d : Nat} (onward : w.Onward w')
    (call : w'.call? d = w.call? d) (free : w'.free d = w.free d)
    (count : w'.inFlight d = w.inFlight d) : w.Apart d w' :=
  ⟨onward, call, by rw [free, count], Nat.le_of_eq count⟩

inductive Concerns (w : World) (d : Nat) (x : Happening) (w' : World) : Prop
  | waits (millis : Nat) (wait : x = .act (.move (.wait millis)))
      (after : w' = { w with now := w.now + millis })
  | apart (apart : w.Apart d w')
  | drives {r : Runner} {w₁ : World} {p : Progress Runner Outcome}
      (call : w.call? d = some (.driving r)) (step : w.Manages d r (w₁, p))
      (after : w' = w₁.conclude d (p.within .driving fun o => o))

/-- A run of any runner gives its permit back when it ends, and to that runner. -/
theorem runs_apart {n d e : Nat} {c : Call} {t : Token} {w₁ : World} {p : Progress Call Outcome}
    (hn : d ≠ n) (call : w.call? n = some c) (owner : c.owner? = some e)
    (step : w.Runs e t (w₁, p)) : w.Apart d (w₁.conclude n p) := by
  cases step with
  | @goes _ _ c' t' steady left owner' =>
    have calls : (w₁.conclude n p).calls = Table.put n (left? p) w.calls := by
      rw [conclude_calls, steady.calls]
    have hcount := inFlight_put hw calls d
    rw [call, left, mark_owned owner, mark_owned owner'] at hcount
    refine .of_same ⟨?_, ?_⟩ ?_ ?_ (by omega)
    · rw [conclude_now, steady.now]
    · rw [conclude_tokens]
      exact steady.tokens
    · rw [call?, calls, Table.get?_put_of_ne _ hn, call?]
    · rw [conclude_free, steady.free]
  | @ends _ o frees back =>
    have calls : (w₁.conclude n (.done o)).calls = Table.put n none w.calls := by
      rw [conclude_calls, frees.calls]
      rfl
    have hcount := inFlight_put hw calls d
    rw [call, mark_owned owner] at hcount
    have same : (w₁.conclude n (.done o)).call? d = w.call? d := by
      rw [call?, calls, Table.get?_put_of_ne _ hn, call?]
    have free : (w₁.conclude n (.done o)).free d = w₁.free d := conclude_free _ _ _ _
    have onward : w.Onward (w₁.conclude n (.done o)) := by
      refine ⟨?_, ?_⟩
      · rw [conclude_now, frees.now]
      · rw [conclude_tokens]
        exact frees.tokens
    by_cases he : e = d
    · subst he
      rw [if_pos rfl] at hcount
      simp only [Table.mark] at hcount
      exact ⟨onward, same, by omega, by omega⟩
    · rw [if_neg he] at hcount
      simp only [Table.mark] at hcount
      have other := frees.others d (Ne.symm he)
      exact ⟨onward, same, by omega, by omega⟩

theorem drives_apart {n d : Nat} {r : Runner} {w₁ : World} {p : Progress Runner Outcome}
    (hd : d < w.nextCall) (hn : d ≠ n) (call : w.call? n = some (.driving r))
    (step : w.Manages n r (w₁, p)) :
    w.Apart d (w₁.conclude n (p.within .driving fun o => o)) := by
  have other : (w₁.conclude n (p.within .driving fun o => o)).call? d = w₁.call? d :=
    conclude_other _ _ _ hn
  rcases step.frees with frees | ⟨w₂, c, steady, owner, rfl⟩
  · refine .of_same ⟨?_, ?_⟩ ?_ ?_ (inFlight_drives hw call frees.calls p d)
    · rw [conclude_now, frees.now]
    · rw [conclude_tokens]
      exact frees.tokens
    · rw [other, call?, frees.calls, call?]
    · rw [conclude_free, frees.others d hn]
  · have count := inFlight_dispatches hw call steady owner p d
    rw [if_neg (Ne.symm hn), Nat.add_zero] at count
    have hne : d ≠ w₂.nextCall := by
      rw [steady.next]
      exact Nat.ne_of_lt hd
    refine .of_same ⟨?_, ?_⟩ ?_ ?_ count
    · rw [conclude_now]
      exact steady.now
    · rw [conclude_tokens]
      exact steady.tokens
    · rw [other, begin_other _ _ hne, call?, steady.calls, call?]
    · rw [conclude_free]
      exact steady.free d

theorem happen_concerns {d : Nat} (hd : d < w.nextCall)
    (driver : ∀ c, w.call? d = some c → ∃ r, c = .driving r) (x : Happening) :
    w.Concerns d x (w.happen x) := by
  cases w.happen_occurs x with
  | rests steady =>
    refine .apart (.of_same steady.toOnward ?_ (steady.free d) ?_)
    · rw [call?, steady.calls, call?]
    · rw [inFlight, steady.calls, inFlight]
  | waits millis wait after => exact .waits millis wait after
  | enters c opens after =>
    rw [after]
    refine .apart (.of_same ⟨rfl, List.Subset.refl _⟩ (begin_other w c (Nat.ne_of_lt hd)) rfl ?_)
    rw [inFlight_begin hw, mark_aside opens.unowned, Nat.add_zero]
  | @aside n c left call aside stays onward calls next permits =>
    have hn : d ≠ n := by
      rintro rfl
      obtain ⟨r, rfl⟩ := driver c call
      exact aside
    have hmark : Table.mark (Call.ownedBy d) left = 0 := by
      cases left with
      | none => rfl
      | some c' => exact mark_aside (stays c' rfl).unowned d
    have hcount := inFlight_put hw calls d
    rw [call, mark_aside aside.unowned, hmark] at hcount
    refine .apart (.of_same onward ?_ ?_ (by omega))
    · rw [call?, calls, Table.get?_put_of_ne _ hn, call?]
    · rw [World.free, permits, World.free]
  | @runs n e c t w₁ p call owner token step after =>
    have hn : d ≠ n := by
      rintro rfl
      obtain ⟨r, rfl⟩ := driver c call
      cases owner
    exact .apart (after ▸ runs_apart hw hn call owner step)
  | @drives n r w₁ p call step after =>
    by_cases hn : d = n
    · subst hn
      exact .drives call step after
    · exact .apart (after ▸ drives_apart hw hd hn call step)

theorem Balanced.happen {d capacity : Nat} (hd : d < w.nextCall) (h : w.Balanced d capacity)
    (x : Happening) : (w.happen x).Balanced d capacity := by
  have driver (c : Call) (hc : w.call? d = some c) : ∃ r, c = .driving r := by
    obtain ⟨r, hr, -⟩ := h.driving hc
    exact ⟨r, hr⟩
  cases happen_concerns hw hd driver x with
  | waits millis wait after =>
    rw [after]
    exact h.congr rfl rfl (Nat.le_refl _)
  | apart apart => exact h.congr apart.call apart.sum apart.less
  | drives call step after => exact after ▸ Balanced.drives hw h call step

end

theorem happen_next (w : World) (x : Happening) : w.nextCall ≤ (w.happen x).nextCall := by
  cases w.happen_occurs x with
  | rests steady => exact Nat.le_of_eq steady.next.symm
  | waits millis wait after => rw [after]
  | enters c opens after =>
    rw [after]
    exact Nat.le_succ _
  | aside left call aside stays onward calls next => exact Nat.le_of_eq next.symm
  | runs call owner token step after =>
    rw [after, conclude_nextCall]
    cases step with
    | goes steady => exact Nat.le_of_eq steady.next.symm
    | ends frees => exact Nat.le_of_eq frees.next.symm
  | drives call step after =>
    rw [after, conclude_nextCall]
    rcases step.frees with frees | ⟨w₂, c, steady, owner, rfl⟩
    · exact Nat.le_of_eq frees.next.symm
    · exact Nat.le_trans (Nat.le_of_eq steady.next.symm) (Nat.le_succ _)

theorem Filed.occur {w : World} (hw : w.Filed) (xs : List Happening) : (occur xs w).Filed := by
  induction xs generalizing w with
  | nil => exact hw
  | cons x xs ih => exact ih (hw.happen x)

theorem Balanced.occur {w : World} (hw : w.Filed) {d capacity : Nat} (hd : d < w.nextCall)
    (h : w.Balanced d capacity) (xs : List Happening) : (occur xs w).Balanced d capacity := by
  induction xs generalizing w with
  | nil => exact h
  | cons x xs ih =>
    exact ih (hw.happen x) (Nat.lt_of_lt_of_le hd (w.happen_next x)) (Balanced.happen hw hd h x)

def started (source : Source) (settings : RunnerSettings) (shutdown : Token) : Happening :=
  .enter (.driving ⟨source, settings, shutdown, 0, .fresh⟩) rfl

theorem started_balanced {w : World} (hw : w.Filed) (source : Source) (settings : RunnerSettings)
    (shutdown : Token) :
    (w.happen (started source settings shutdown)).Balanced w.nextCall
      (max settings.maxTasks 1) := by
  refine .fresh _ (begin_same w _) rfl rfl ?_
  have h := inFlight_begin hw (.driving ⟨source, settings, shutdown, 0, .fresh⟩) w.nextCall
  rw [mark_aside rfl, hw.unowned (Nat.le_refl _)] at h
  exact h

/-- However the requests of a runner are answered and its runs end, in every state after its
first step the permits that are free, with runs in flight, and held for a request add up to
its capacity, and there are never more runs in flight. -/
theorem permits_add_up (view : StoreView) (before after : List Happening) (source : Source)
    (settings : RunnerSettings) (shutdown : Token)
    (admitted : max settings.maxTasks 1 ≤ Runner.maxPermits) :
    let capacity := max settings.maxTasks 1
    let w₀ := occur before (start view)
    let d := w₀.nextCall
    let w := occur after (w₀.happen (started source settings shutdown))
    w.inFlight d ≤ capacity ∧
      ((∃ r, w.call? d = some (.driving r) ∧ r.stage = .fresh) ∨
        w.free d + w.inFlight d + w.heldBy d = capacity) := by
  intro capacity w₀ d w
  have hw₀ : w₀.Filed := (start_filed view).occur before
  have hw := hw₀.happen (started source settings shutdown)
  have h : w.Balanced d capacity :=
    (started_balanced hw₀ source settings shutdown).occur hw (Nat.lt_succ_self _) after
  cases h with
  | fresh r call fresh same idle => exact ⟨by omega, Or.inl ⟨r, call, fresh⟩⟩
  | refused call many => exact absurd admitted (Nat.not_le.mpr many)
  | «open» call sum => exact ⟨by omega, Or.inr sum⟩

def panicking : Task :=
  { Task.empty with body := .object [("do", .list [.list [.text "panic"]])] }

/-- A runner with no permits of its own choice, and so with one, dispatches a task that
panics, requests the next one, and dispatches that. -/
theorem panic_gives_back :
    let source : Source := .supplies [⟨.ok panicking, 0⟩, ⟨.ok .empty, 0⟩]
    let settings : RunnerSettings := ⟨0, 100, 100⟩
    let step (n : Nat) : Happening := .act (.move (.step (.call n)))
    let after : List Happening := [0, 0, 0, 0, 0, 1, 1, 0, 0, 0].map step
    let w := occur after ((start ⟨2, false⟩).happen (started source settings ⟨9, []⟩))
    max settings.maxTasks 1 ≤ Runner.maxPermits ∧
      w.ended.map Ended.call = [1] ∧ w.inFlight 0 = 1 ∧
      (w.inFlight 0 ≤ 1 ∧
        ((∃ r, w.call? 0 = some (.driving r) ∧ r.stage = .fresh) ∨
          w.free 0 + w.inFlight 0 + w.heldBy 0 = 1)) := by
  intro source settings step after w
  have admitted : max settings.maxTasks 1 ≤ Runner.maxPermits := by decide
  exact ⟨admitted, by decide +kernel, by decide +kernel,
    permits_add_up ⟨2, false⟩ [] after source settings ⟨9, []⟩ admitted⟩

end World

end TaskRelay
