import Mathlib.Data.List.Nodup
import TaskRelay.Proofs.Store.Desk

/-!
# Additions to a stream

The entries added to a stream are numbered from one without a gap, whatever was trimmed in
the meantime. A stream holds the last so many of them. An addition puts its entry at the end
and then drops the oldest beyond its bound; nothing else that can be done to a store changes
what a stream holds.
-/

set_option autoImplicit false

namespace TaskRelay
open scoped List

namespace StreamLog

theorem trim_length {maxLen : Nat} (hm : 0 < maxLen) (es : List (Nat × Fields)) :
    (trim maxLen es).length = min es.length maxLen := by
  rw [trim, if_neg (Nat.ne_of_gt hm), List.length_drop]
  omega

end StreamLog

namespace Shelf

/-- A notice other than an addition leaves the entries of a shelf as they are. -/
theorem Notices.entries {sh sh' : Shelf} {x : Option Notice} (h : sh.Notices x sh')
    (hx : ∀ e maxLen, x ≠ some (.added e maxLen)) :
    sh'.entries = sh.entries ∧ sh'.last = sh.last := by
  cases h with
  | idle | created | missed | acked => exact ⟨rfl, rfl⟩
  | added fields maxLen => exact absurd rfl (hx _ _)
  | handed count next hands =>
    obtain ⟨g, -, rfl⟩ := hands.after
    exact ⟨rfl, rfl⟩
  | claimed consumer ns =>
    induction ns generalizing sh with
    | nil => exact ⟨rfl, rfl⟩
    | cons n ns ih => exact @ih (sh.give consumer n) (by rintro _ _ ⟨⟩)

end Shelf

namespace Desk

variable (stream : String)

def Act.added? (x : Act) : Option Entry :=
  match x.query, x.answer with
  | .add name fields _, some (.added (.ok id)) => if name = stream then some ⟨id, fields⟩ else none
  | _, _ => none

def added (d : Desk) : List Entry := d.acts.filterMap (Act.added? stream)

theorem added_act {d d' : Desk} {x : Act} (hd : d'.acts = d.acts ++ [x]) :
    d'.added stream = d.added stream ++ (x.added? stream).toList := by
  rw [added, hd, List.filterMap_append]
  cases hx : x.added? stream <;> simp [added, hx]

inductive Act.Affects (x : Act) : Prop
  | nothing (none : x.added? stream = none)
      (entries : (x.after.stream stream).entries = (x.before.stream stream).entries)
      (last : (x.after.stream stream).last = (x.before.stream stream).last) : Affects x
  | adds (fields : Fields) (maxLen : Nat) (query : x.query = .add stream fields maxLen)
      (answer : x.answer = some (.added (.ok (entryId ((x.before.stream stream).last + 1)))))
      (shelves : ∀ q : Queue, x.after.shelf q =
        if q.stream = stream then (x.before.shelf q).append fields maxLen else x.before.shelf q) :
      Affects x

theorem Act.added?_adds {x : Act} {stream id : String} {fields : Fields} {maxLen : Nat}
    (hq : x.query = .add stream fields maxLen) (ha : x.answer = some (.added (.ok id))) :
    x.added? stream = some ⟨id, fields⟩ := by
  simp [Act.added?, hq, ha]

theorem Effect.affects {x : Act} (h : Effect x.before x.query x.after x.answer) :
    x.Affects stream := by
  obtain ⟨call, query, before, after, answer⟩ := x
  -- a stream is on the shelves of all its groups, whatever their names
  let q₀ : Queue := ⟨stream, ""⟩
  have same {y : Act} {sh : Shelf} (hn : y.added? stream = none) (hy : y.after.shelf q₀ = sh)
      (he : sh.entries = (y.before.shelf q₀).entries)
      (hl : sh.last = (y.before.shelf q₀).last) : y.Affects stream :=
    .nothing hn ((congrArg Shelf.entries hy).trans he) ((congrArg Shelf.last hy).trans hl)
  cases h with
  | rests => exact same (by cases query <;> rfl) rfl rfl rfl
  | vain nothing spends =>
    exact same (by cases query <;> cases nothing <;> rfl) (spends.shelf q₀) rfl rfl
  | @created q s' creates =>
    have hsh := Store.createGroup_shelf creates q₀
    split at hsh <;> exact same rfl hsh rfl rfl
  | @handed q consumer count block s' es delivers =>
    obtain ⟨⟨bs, hb, -⟩, others⟩ := Store.deliver_shelf delivers
    by_cases hq : q = q₀
    · subst hq
      obtain ⟨g, -, hsh⟩ := hb.after
      exact same rfl hsh rfl rfl
    · exact same rfl (others q₀ (Ne.symm hq)) rfl rfl
  | @acked q id s' acks =>
    have hsh := Store.ack_shelf before q id q₀
    rw [acks] at hsh
    rcases hsh with hsh | ⟨-, n, -, hsh⟩ <;> exact same rfl hsh rfl rfl
  | @added name id fields maxLen s' appends =>
    have hsh := Store.append_shelf appends
    by_cases hn : name = stream
    · subst hn
      rw [Store.append_id appends]
      exact .adds fields maxLen rfl rfl hsh
    · have hq := hsh q₀
      rw [if_neg (Ne.symm hn)] at hq
      exact same (if_neg hn) hq rfl rfl

theorem chore_entries (s : Store) (c : Chore) :
    ((s.obey c.op).stream stream).entries = (s.stream stream).entries ∧
      ((s.obey c.op).stream stream).last = (s.stream stream).last := by
  have hn := Store.obey_notices ⟨stream, ""⟩ s c.op
  refine hn.entries fun e maxLen => ?_
  cases c with
  | claim q consumer ids =>
    simp only [Chore.op, Store.notice?]
    split <;> simp
  | close | delayAdds | failReads | failAcks => simp [Chore.op, Store.notice?]

structure Counted (d : Desk) : Prop where
  last : (d.store.stream stream).last = (d.added stream).length
  ids : (d.added stream).map Entry.id =
    (List.range (d.added stream).length).map fun i => entryId (i + 1)
  kept : d.store.entries stream <:+ d.added stream

variable {stream}

theorem Act.Affects.counted {d d' : Desk} {x : Act} (h : d.Counted stream)
    (hx : x.Affects stream) (hb : x.before = d.store) (ha : x.after = d'.store)
    (hd : d'.acts = d.acts ++ [x]) : d'.Counted stream := by
  have he := added_act stream hd
  cases hx with
  | nothing none entries last =>
    rw [none, Option.toList_none, List.append_nil] at he
    rw [hb, ha] at entries last
    refine ⟨by rw [last, he, h.last], by rw [he, h.ids], ?_⟩
    rw [Store.entries, entries, he]
    exact h.kept
  | adds fields maxLen query answer shelves =>
    rw [Act.added?_adds query answer, Option.toList_some, hb, h.last] at he
    have hsh := shelves ⟨stream, ""⟩
    rw [if_pos rfl, hb, ha] at hsh
    obtain ⟨kept, hk, hk'⟩ := Shelf.append_entries (d.store.shelf ⟨stream, ""⟩) fields maxLen
    have hl : (d'.store.stream stream).last = (d.store.stream stream).last + 1 :=
      congrArg Shelf.last hsh
    have hen : (d'.store.stream stream).entries =
        kept ++ [((d.store.stream stream).last + 1, fields)] :=
      (congrArg Shelf.entries hsh).trans hk'
    refine ⟨by rw [hl, he, h.last]; simp, ?_, ?_⟩
    · rw [he, List.map_append, h.ids, List.length_append, List.length_singleton, List.range_succ,
        List.map_append]
      rfl
    · rw [Store.entries, hen, List.map_append, he, h.last]
      obtain ⟨rest, hr⟩ := (hk.map numbered).trans h.kept
      exact ⟨rest, by rw [← hr]; simp [numbered]⟩

theorem Counted.move {d : Desk} (h : d.Counted stream) (ho : d.Orderly) (m : Move) :
    (d.move m).Counted stream := by
  have hm := ho.makes m
  generalize hd : d.move m = d' at hm ⊢
  generalize hs : d'.store = s at hm
  generalize ha : d'.acts = acts at hm
  have still (he : (d'.store.stream stream).entries = (d.store.stream stream).entries)
      (hl : (d'.store.stream stream).last = (d.store.stream stream).last)
      (hac : d'.acts = d.acts) : d'.Counted stream := by
    have hadd : d'.added stream = d.added stream := congrArg (List.filterMap _) hac
    refine ⟨by rw [hl, hadd, h.last], by rw [hadd, h.ids], ?_⟩
    rw [Store.entries, he, hadd]
    exact h.kept
  cases hm with
  | nothing => exact still (by rw [hs]) (by rw [hs]) ha
  | chore c =>
    obtain ⟨he, hl⟩ := chore_entries stream d.store c
    exact still (by rw [hs, he]) (by rw [hs, hl]) ha
  | act found effect => exact (effect.affects stream).counted h found hs.symm ha

theorem run_counted (ms : List Move) {d : Desk} (h : d.Counted stream) (ho : d.Orderly) :
    (run ms d).Counted stream := by
  induction ms generalizing d with
  | nil => exact h
  | cons m ms ih => exact ih (h.move ho m) (ho.move m)

theorem start_counted (stream : String) : start.Counted stream := ⟨rfl, rfl, List.suffix_rfl⟩

theorem Act.Affects.adds_or_keeps {d d' : Desk} {x : Act} (hx : x.Affects stream)
    (hb : x.before = d.store) (ha : x.after = d'.store) :
    (x.added? stream = none ∧ d'.store.entries stream = d.store.entries stream) ∨
    ∃ e maxLen, x.query = .add stream e.fields maxLen ∧
      x.answer = some (.added (.ok e.id)) ∧ x.added? stream = some e ∧
      (maxLen = 0 → d'.store.entries stream = d.store.entries stream ++ [e]) ∧
      (0 < maxLen → (d'.store.entries stream).getLast? = some e ∧
        (d'.store.entries stream).length = min ((d.store.entries stream).length + 1) maxLen) ∧
      ∀ q : Queue, d'.store.group? q.stream q.group = d.store.group? q.stream q.group := by
  cases hx with
  | nothing none entries last =>
    refine Or.inl ⟨none, ?_⟩
    rw [Store.entries, ← ha, entries, hb]
    rfl
  | adds fields maxLen query answer shelves =>
    have hsh := shelves ⟨stream, ""⟩
    rw [if_pos rfl, hb, ha] at hsh
    have hen : (d'.store.stream stream).entries = StreamLog.trim maxLen
        ((d.store.stream stream).entries ++ [((d.store.stream stream).last + 1, fields)]) :=
      congrArg Shelf.entries hsh
    rw [hb] at answer
    refine Or.inr ⟨⟨entryId ((d.store.stream stream).last + 1), fields⟩, maxLen, query, answer,
      Act.added?_adds query answer, fun hm => ?_, fun hm => ⟨?_, ?_⟩, fun q => ?_⟩
    · simp [Store.entries, hen, StreamLog.trim, hm, numbered]
    · obtain ⟨kept, -, hk⟩ := Shelf.trim_append maxLen (d.store.stream stream).entries
        ((d.store.stream stream).last + 1, fields)
      simp [Store.entries, hen, hk, numbered]
    · simp [Store.entries, hen, StreamLog.trim_length hm]
    · have hq := shelves q
      rw [hb, ha] at hq
      split at hq <;> exact congrArg Shelf.group hq

/-- The entry added to a stream as the `n`-th is named `n-0`, and a stream holds the last so
many of those added. An addition puts its entry at the end and keeps as many as it allows,
or all if it sets no bound, and no group changes by it; whatever else is done keeps the
entries of every stream. -/
theorem additions_numbered_kept (ms : List Move) (stream : String) :
    let d := run ms start
    (∀ i (hi : i < (d.added stream).length), ((d.added stream)[i]).id = toString (i + 1) ++ "-0") ∧
    ((d.added stream).map Entry.id).Nodup ∧
    d.store.entries stream <:+ d.added stream ∧
    ∀ m, let d' := d.move m
      (d'.added stream = d.added stream ∧ d'.store.entries stream = d.store.entries stream) ∨
      ∃ x e maxLen, d'.acts = d.acts ++ [x] ∧ x.query = .add stream e.fields maxLen ∧
        x.answer = some (.added (.ok e.id)) ∧ d'.added stream = d.added stream ++ [e] ∧
        (maxLen = 0 → d'.store.entries stream = d.store.entries stream ++ [e]) ∧
        (0 < maxLen → (d'.store.entries stream).getLast? = some e ∧
          (d'.store.entries stream).length = min ((d.store.entries stream).length + 1) maxLen) ∧
        ∀ q : Queue, d'.store.group? q.stream q.group = d.store.group? q.stream q.group := by
  intro d
  have ho : d.Orderly := run_orderly ms start_orderly
  have hc : d.Counted stream := run_counted ms (start_counted stream) start_orderly
  refine ⟨fun i hi => ?_, ?_, hc.kept, fun m => ?_⟩
  · have hget : ((d.added stream).map Entry.id)[i]? = some ((d.added stream)[i]).id := by
      simp [List.getElem?_eq_getElem hi]
    rw [hc.ids] at hget
    simpa [hi, entryId] using hget.symm
  · rw [hc.ids]
    exact List.Nodup.map (fun a b hab => Nat.succ.inj (entryId_injective hab)) List.nodup_range
  · intro d'
    have hm := ho.makes m
    change Makes d d'.store d'.acts at hm
    generalize hs : d'.store = s at hm
    generalize ha : d'.acts = acts at hm
    cases hm with
    | nothing => exact Or.inl ⟨congrArg (List.filterMap _) ha, rfl⟩
    | chore c =>
      refine Or.inl ⟨congrArg (List.filterMap _) ha, ?_⟩
      rw [Store.entries, (chore_entries stream d.store c).1]
      rfl
    | @act x found effect =>
      have he := added_act stream ha
      rw [← hs]
      rcases (effect.affects stream).adds_or_keeps found hs.symm with
        ⟨hn, hk⟩ | ⟨e, maxLen, hq, ha', hx, h⟩
      · exact Or.inl ⟨by simpa [hn] using he, hk⟩
      · exact Or.inr ⟨x, e, maxLen, rfl, hq, ha', by simpa [hx] using he, h⟩

end Desk
end TaskRelay
