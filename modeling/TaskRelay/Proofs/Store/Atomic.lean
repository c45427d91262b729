import TaskRelay.Proofs.Store.Desk

/-!
# Calls take effect with their answer or not at all

While a call waits it has changed nothing, so whoever drops it leaves nothing behind. An
error or an empty read changes nothing either, but for one failure that a store was told of.
A read that returns entries moves the cursor of its group to the last of them, and they and
no others become pending: what is pending was handed out before and so lies behind the
cursor, and what is handed out lies beyond it.
-/

set_option autoImplicit false

namespace TaskRelay
open scoped List

namespace Shelf

def Tidy (sh : Shelf) : Prop := ∀ n, (Table.get? n sh.pending).isSome = true → n ≤ sh.cursor

namespace Tidy

variable {sh sh' : Shelf}

theorem append (h : sh.Tidy) (fields : Fields) (maxLen : Nat) : (sh.append fields maxLen).Tidy := h

theorem found (h : sh.Tidy) : sh.found.Tidy := by
  intro n hn
  rw [pending_found] at hn
  exact Nat.le_trans (h n hn) sh.cursor_found

theorem ack (h : sh.Tidy) (n : Nat) : (sh.ack n).Tidy := by
  intro m hm
  rw [pending_ack] at hm
  rw [cursor_ack]
  obtain ⟨p, hp⟩ := Option.isSome_iff_exists.mp hm
  exact h m (Option.isSome_iff_exists.mpr ⟨p, Table.get?_of_erase hp⟩)

theorem give (h : sh.Tidy) (consumer : String) (n : Nat) : (sh.give consumer n).Tidy := by
  intro m hm
  rw [give_pending, Option.isSome_map] at hm
  have hc : (sh.give consumer n).cursor = sh.cursor := by
    cases hg : sh.group with
    | none => simp [Shelf.give, cursor, hg]
    | some g => cases hp : Table.get? n g.pending <;> simp [Shelf.give, cursor, hg, Group.give, hp]
  rw [hc]
  exact h m hm

theorem claim (h : sh.Tidy) (consumer : String) (ns : List Nat) : (sh.claim consumer ns).Tidy := by
  induction ns generalizing sh with
  | nil => exact h
  | cons n ns ih => exact ih (h.give consumer n)

theorem hands (h : sh.Tidy) (hs : sh.Sound) {consumer : String} {bs : List (Nat × Fields)}
    (hb : sh.Hands consumer bs sh') : sh'.Tidy := by
  intro n hn
  rw [hb.pending_after] at hn
  split at hn
  · next hm =>
    obtain ⟨p, hp, rfl⟩ := List.mem_map.mp hm
    exact (hb.between hs hp).2
  · exact Nat.le_trans (h n hn) (Nat.le_of_lt (hb.advances hs))

theorem notices (h : sh.Tidy) (hs : sh.Sound) {x : Option Notice} (hx : sh.Notices x sh') :
    sh'.Tidy := by
  cases hx with
  | idle | missed => exact h
  | created => exact h.found
  | added fields maxLen => exact h.append fields maxLen
  | handed count next hb => exact h.hands hs hb
  | acked n => exact h.ack n
  | claimed consumer ns => exact h.claim consumer ns

end Tidy

end Shelf

def Store.Neat (s : Store) : Prop := ∀ q, (s.shelf q).Sound ∧ (s.shelf q).Tidy

namespace Store

variable {s s' : Store}

theorem Neat.obey (h : s.Neat) (op : Op) : (s.obey op).Neat := fun q =>
  ⟨obey_sound (fun q => (h q).1) op q, (h q).2.notices (h q).1 (obey_notices q s op)⟩

structure HandedOver (q : Queue) (consumer : String) (es : List Entry) (s s' : Store) : Prop where
  only : ∃ g, s' = s.setGroup q.stream q.group g
  batch : ∃ (g g' : Group) (bs : List (Nat × Fields)),
    s.group? q.stream q.group = some g ∧ s'.group? q.stream q.group = some g' ∧
    es = bs.map numbered ∧ g.cursor < g'.cursor ∧
    (bs.map Prod.fst).getLast? = some g'.cursor ∧
    (∀ n ∈ bs.map Prod.fst, Table.get? n g.pending = none) ∧
    ∀ n, Table.get? n g'.pending =
      if n ∈ bs.map Prod.fst then some ⟨consumer, 1⟩ else Table.get? n g.pending

theorem deliver_only {q : Queue} {consumer : String} {count : Nat} {es : List Entry}
    (h : s.deliver q.stream q.group consumer count = .ok (some (s', es))) :
    ∃ g, s' = s.setGroup q.stream q.group g := by
  unfold deliver at h
  split at h
  · cases h
  · split at h
    · cases h
    · split at h
      · cases h
      · cases h
        exact ⟨_, rfl⟩

theorem Neat.handedOver (hs : s.Neat) {q : Queue} {consumer : String} {count : Nat}
    {es : List Entry} (h : s.deliver q.stream q.group consumer count = .ok (some (s', es))) :
    HandedOver q consumer es s s' := by
  obtain ⟨⟨bs, hb, rfl⟩, -⟩ := deliver_shelf h
  obtain ⟨sound, tidy⟩ := hs q
  obtain ⟨g, hg, hg'⟩ := hb.after
  have hn : s.group? q.stream q.group = some g := hg
  have hn' : s'.group? q.stream q.group = some (Group.handOut g consumer bs) :=
    congrArg Shelf.group hg'
  have hc : (s.shelf q).cursor = g.cursor := by simp [Shelf.cursor, hg]
  have hc' : (s'.shelf q).cursor = (Group.handOut g consumer bs).cursor := by
    simp [Shelf.cursor, hg']
  refine ⟨deliver_only h, g, _, bs, hn, hn', rfl, ?_, ?_, fun n hm => ?_,
    Shelf.handOut_get g consumer bs⟩
  · have := hb.advances sound
    omega
  · obtain ⟨as, p, rfl, hp⟩ := hb.cursor_last
    simp [← hc', hp]
  · obtain ⟨p, hp, rfl⟩ := List.mem_map.mp hm
    have hlt := (hb.between sound hp).1
    by_contra hne
    have hle := tidy p.1 (by
      simpa [Shelf.pending, hg] using Option.isSome_iff_ne_none.mpr hne)
    omega

end Store

namespace Desk

theorem Effect.neat {s s' : Store} {query : Query} {a : Option Answer} (hs : s.Neat)
    (h : Effect s query s' a) : s'.Neat := by
  cases h with
  | rests => exact hs
  | vain nothing spends => exact fun q => by rw [spends.shelf]; exact hs q
  | @created q s' creates =>
    have he := hs.obey (.createGroup q)
    simpa only [Store.obey, creates] using he
  | @handed q consumer count block s' es delivers =>
    intro q'
    obtain ⟨⟨bs, hb, -⟩, others⟩ := Store.deliver_shelf delivers
    obtain ⟨sound, tidy⟩ := hs q'
    by_cases hq : q' = q
    · subst hq
      exact ⟨hb.sound sound, tidy.hands sound hb⟩
    · rw [others q' hq]
      exact ⟨sound, tidy⟩
  | @acked q id s' acks =>
    have he := hs.obey (.ack q id)
    simpa only [Store.obey, acks] using he
  | @added stream id fields maxLen s' appends =>
    have he := hs.obey (.add stream fields maxLen)
    simpa only [Store.obey, appends] using he

structure Kempt (d : Desk) : Prop where
  now : d.store.Neat
  earlier : ∀ x ∈ d.acts, x.before.Neat

theorem Kempt.move {d : Desk} (h : d.Kempt) (ho : d.Orderly) (m : Move) : (d.move m).Kempt := by
  have hm := ho.makes m
  generalize hs : (d.move m).store = s at hm
  generalize ha : (d.move m).acts = acts at hm
  cases hm with
  | nothing => exact ⟨hs ▸ h.now, ha ▸ h.earlier⟩
  | chore c => exact ⟨hs ▸ h.now.obey c.op, ha ▸ h.earlier⟩
  | @act x found effect =>
    have hx : x.before.Neat := found ▸ h.now
    refine ⟨hs ▸ effect.neat hx, fun y hy => ?_⟩
    rw [ha] at hy
    rcases List.mem_append.mp hy with hy | hy
    · exact h.earlier y hy
    · rw [List.mem_singleton.mp hy]
      exact hx

theorem start_kempt : start.Kempt :=
  ⟨fun q => ⟨Store.after_sound [] q, by rintro n ⟨⟩⟩, by rintro x ⟨⟩⟩

theorem run_kempt (ms : List Move) {d : Desk} (h : d.Kempt) (ho : d.Orderly) :
    (run ms d).Kempt := by
  induction ms generalizing d with
  | nil => exact h
  | cons m ms ih => exact ih (h.move ho m) (ho.move m)

theorem Effect.quiet {s s' : Store} {query : Query} (h : Effect s query s' none) : s' = s := by
  cases h
  rfl

/-- Of the steps of a call only the last can have answered. -/
theorem Orderly.actsOf_split {d : Desk} (h : d.Orderly) (id : Nat) :
    ∃ quiet last, d.actsOf id = quiet ++ Option.toList last ∧
      (∀ x ∈ quiet, x.answer = none) ∧ ∀ x ∈ last, x.answer.isSome = true := by
  have hp : (d.actsOf id).Pairwise fun x _ => x.answer = none := by
    refine (h.last.filter _).imp_of_mem fun {x y} hx hy hxy => hxy ?_
    have hxi := (List.mem_filter.mp hx).2
    have hyi := (List.mem_filter.mp hy).2
    rw [beq_iff_eq] at hxi hyi
    exact hxi.trans hyi.symm
  rcases List.eq_nil_or_concat (d.actsOf id) with he | ⟨as, x, he⟩
  · exact ⟨[], none, he, by simp, by simp⟩
  rw [he, List.concat_eq_append, List.pairwise_append] at hp
  have has : ∀ y ∈ as, y.answer = none := fun y hy => hp.2.2 y hy x (by simp)
  cases hx : x.answer with
  | none =>
    refine ⟨d.actsOf id, none, by simp, fun y hy => ?_, by simp⟩
    rw [he, List.concat_eq_append] at hy
    rcases List.mem_append.mp hy with hy | hy
    · exact has y hy
    · rw [List.mem_singleton.mp hy, hx]
  | some a => exact ⟨as, some x, by simp [he], has, by simp [hx]⟩

/-- A call that does not wait any more takes no further step. -/
theorem move_actsOf {d : Desk} {id : Nat} (hid : id < d.next)
    (hw : Table.get? id d.waiting = none) (m : Move) :
    (d.move m).actsOf id = d.actsOf id ∧ id < (d.move m).next ∧
      Table.get? id (d.move m).waiting = none := by
  have other {n i : Nat} (hi : id ≠ i) (hn : id < n) (query : Query)
      (r : Store × Progress Rest Answer) :
      ({ d with next := n }.record i query r).actsOf id = d.actsOf id ∧
        id < ({ d with next := n }.record i query r).next ∧
        Table.get? id ({ d with next := n }.record i query r).waiting = none := by
    obtain ⟨s', p | p | a⟩ := r <;>
      simp [record, actsOf, hi.symm, hn, hw, Table.get?_insert_of_ne hi,
        Table.get?_erase_of_ne hi]
  cases m with
  | ask query => exact other (Nat.ne_of_lt hid) (Nat.lt_succ_of_lt hid) query _
  | resume i =>
    cases hp : Table.get? i d.waiting with
    | none =>
      simp only [move, hp]
      exact ⟨trivial, hid, hw⟩
    | some p =>
      simp only [move, hp]
      exact other (n := d.next) (fun hi => by simp [← hi, hw] at hp) hid p.1 _
  | drop i => exact ⟨rfl, hid, Table.get?_erase_none hw i⟩
  | chore c => exact ⟨rfl, hid, hw⟩
  | wait n => exact ⟨rfl, hid, hw⟩

theorem run_actsOf (ms : List Move) {d : Desk} {id : Nat} (hid : id < d.next)
    (hw : Table.get? id d.waiting = none) : (run ms d).actsOf id = d.actsOf id := by
  induction ms generalizing d with
  | nil => rfl
  | cons m ms ih =>
    obtain ⟨ha, hn, hw'⟩ := move_actsOf hid hw m
    exact (ih hn hw').trans ha

/-- A call that was dropped while it waited never answers. -/
theorem dropped_actsOf (pre post : List Move) {id : Nat}
    (hw : (Table.get? id (run pre start).waiting).isSome = true) :
    ∀ x ∈ (run (pre ++ .drop id :: post) start).actsOf id, x.answer = none := by
  have ho := run_orderly pre start_orderly
  obtain ⟨p, hp⟩ := Option.isSome_iff_exists.mp hw
  have he : (run (pre ++ .drop id :: post) start).actsOf id = (run pre start).actsOf id := by
    rw [run_append]
    exact run_actsOf post (d := (run pre start).move (.drop id)) (ho.known hp)
      (Table.get?_erase_self _ _)
  intro x hx
  rw [he] at hx
  obtain ⟨hx, hc⟩ := List.mem_filter.mp hx
  by_contra hne
  have hn := ho.gone x hx (Option.isSome_iff_ne_none.mpr hne)
  rw [beq_iff_eq.mp hc, hp] at hn
  cases hn

/-- However the calls on a store are interleaved, a call leaves the store as it is until the
step with which it ends. If it ends with an error or with an empty read, that step uses up one
failure at most and changes nothing else; if it ends with entries, they were handed over. A
call that is dropped while it waits has changed nothing. -/
theorem calls_all_or_nothing (ms : List Move) (id : Nat) :
    let d := run ms start
    (∃ quiet last, d.actsOf id = quiet ++ Option.toList last ∧
      (∀ x ∈ quiet, x.answer = none ∧ x.after = x.before) ∧
      ∀ x ∈ last, ∃ a, x.answer = some a ∧ (a.Vain → x.before.Spends x.after) ∧
        ∀ es, a = .read (.ok es) → es ≠ [] →
          ∃ q consumer count block, x.query = .read q consumer count block ∧
            x.before.HandedOver q consumer es x.after) ∧
    ∀ pre post, ms = pre ++ .drop id :: post →
      (Table.get? id (run pre start).waiting).isSome = true →
      ∀ x ∈ d.actsOf id, x.answer = none ∧ x.after = x.before := by
  intro d
  have ho : d.Orderly := run_orderly ms start_orderly
  have hk : d.Kempt := run_kempt ms start_kempt start_orderly
  have quiet {x : Act} (hx : x ∈ d.actsOf id) (ha : x.answer = none) : x.after = x.before := by
    have he := ho.lawful x (List.mem_filter.mp hx).1
    rw [ha] at he
    exact he.quiet
  constructor
  · obtain ⟨as, last, he, has, hl⟩ := ho.actsOf_split id
    refine ⟨as, last, he, fun x hx => ⟨has x hx, quiet (by simp [he, hx]) (has x hx)⟩,
      fun x hx => ?_⟩
    obtain ⟨a, ha⟩ := Option.isSome_iff_exists.mp (hl x hx)
    have hm : x ∈ d.acts := (List.mem_filter.mp (show x ∈ d.actsOf id by
      rw [he, Option.mem_def.mp hx]
      simp)).1
    have hlaw := ho.lawful x hm
    have hneat := hk.earlier x hm
    obtain ⟨call, query, before, after, answer⟩ := x
    cases ha
    refine ⟨a, rfl, fun hv => ?_, fun es hes hne => ?_⟩
    · cases hlaw with
      | vain nothing spends => exact spends
      | created | acked | added => cases hv
      | handed delivers =>
        obtain ⟨⟨bs, hb, rfl⟩, -⟩ := Store.deliver_shelf delivers
        generalize hes : bs.map numbered = es at hv
        cases hv
        exact absurd (List.map_eq_nil_iff.mp hes) hb.some_entry
    · subst hes
      cases hlaw with
      | vain nothing spends =>
        cases nothing
        exact absurd rfl hne
      | handed delivers => exact ⟨_, _, _, _, rfl, hneat.handedOver delivers⟩
  · rintro pre post rfl hw x hx
    have ha := dropped_actsOf pre post hw x hx
    exact ⟨ha, quiet hx ha⟩

end Desk
end TaskRelay
