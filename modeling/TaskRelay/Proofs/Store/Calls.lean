import TaskRelay.Proofs.Store.Sound

/-!
# Reads, additions and the history of a store

A group read hands out the next entries of its own queue or changes no shelf at
all, and an addition under way appends its one entry when it is due. Whatever a
store was asked to do since it was empty, its shelves are sound.
-/

set_option autoImplicit false

namespace TaskRelay

def GroupRead.queue (r : GroupRead) : Queue := ⟨r.stream, r.group⟩

inductive ReadStep (q : Queue) (s : Store) : Store × Progress GroupRead ReadResult → Prop
  | waiting {s' : Store} {r : GroupRead} (same : ∀ q', s'.shelf q' = s.shelf q')
      (own : r.queue = q) : ReadStep q s (s', .waiting r)
  | handed {s' : Store} {consumer : String} {bs : List (Nat × Fields)}
      (hands : (s.shelf q).Hands consumer bs (s'.shelf q))
      (others : ∀ q', q' ≠ q → s'.shelf q' = s.shelf q') :
      ReadStep q s (s', .done (.ok (bs.map numbered)))
  | empty {s' : Store} (same : ∀ q', s'.shelf q' = s.shelf q') :
      ReadStep q s (s', .done (.ok []))
  | failed {s' : Store} {e : StoreError} (same : ∀ q', s'.shelf q' = s.shelf q') :
      ReadStep q s (s', .done (.error e))

inductive AddStep (a : Addition) (s : Store) : Store × Progress Addition AddResult → Prop
  | waiting : AddStep a s (s, .waiting a)
  | added {s' : Store}
      (appended : ∀ q : Queue, s'.shelf q =
        if q.stream = a.stream then (s.shelf q).append a.fields a.maxLen else s.shelf q) :
      AddStep a s (s', .done (.ok (entryId ((s.stream a.stream).last + 1))))
  | failed {e : StoreError} : AddStep a s (s, .done (.error e))

theorem look_step (s : Store) (now : Nat) (r : GroupRead) :
    ReadStep r.queue s (s.look now r) := by
  unfold Store.look
  split
  · exact .failed fun _ => rfl
  · next s' es h =>
    obtain ⟨⟨bs, hb, rfl⟩, ho⟩ := Store.deliver_shelf (q := r.queue) h
    exact .handed hb ho
  · split
    · exact .empty fun _ => rfl
    · exact .waiting (fun _ => rfl) rfl

theorem beginRead_step (s : Store) (now : Nat) (q : Queue) (consumer : String)
    (count block : Nat) :
    ReadStep q s (s.beginRead now q.stream q.group consumer count block) := by
  unfold Store.beginRead
  split
  · exact .failed fun _ => rfl
  · exact look_step s now ⟨q.stream, q.group, consumer, count, now + block, s.announcements⟩

theorem read_resume_step (r : GroupRead) (now : Nat) (s : Store) :
    ReadStep r.queue s (r.resume now s) := by
  unfold GroupRead.resume
  split
  · exact look_step s now r
  · split
    · exact .empty fun _ => rfl
    · exact .waiting (fun _ => rfl) rfl

theorem add_resume_step (a : Addition) (now : Nat) (s : Store) :
    AddStep a s (a.resume now s) := by
  unfold Addition.resume
  split
  · exact .waiting
  · split
    · next s' id h =>
      rw [Store.append_id h]
      exact .added (Store.append_shelf h)
    · exact .failed

namespace Store

inductive Op
  | createGroup (q : Queue)
  | add (stream : String) (fields : Fields) (maxLen : Nat)
  | read (q : Queue) (consumer : String) (count : Nat)
  | ack (q : Queue) (id : String)
  | claim (q : Queue) (consumer : String) (ids : List String)
  | close
  | delayAdds (millis : Nat)
  | failReads (n : Nat)
  | failAcks (n : Nat)

def obey (s : Store) : Op → Store
  | .createGroup q =>
    match s.createGroup q.stream q.group with
    | .ok s => s
    | .error _ => s
  | .add stream fields maxLen =>
    match s.append stream fields maxLen with
    | .ok (s, _) => s
    | .error _ => s
  | .read q consumer count => (s.beginRead 0 q.stream q.group consumer count 0).1
  | .ack q id => (s.ack q.stream q.group id).1
  | .claim q consumer ids => (s.claim q.stream q.group consumer ids).1
  | .close => s.close
  | .delayAdds millis => { s with addDelay := millis }
  | .failReads n => { s with failingReads := n }
  | .failAcks n => { s with failingAcks := n }

def carryOut : List Op → Store → Store
  | [], s => s
  | op :: ops, s => carryOut ops (s.obey op)

def after (ops : List Op) : Store := carryOut ops .empty

theorem read_sound {q : Queue} {s : Store} {r : Store × Progress GroupRead ReadResult}
    (h : ReadStep q s r) (hs : ∀ q', (s.shelf q').Sound) (q' : Queue) : (r.1.shelf q').Sound := by
  cases h with
  | waiting same own => exact same q' ▸ hs q'
  | empty same => exact same q' ▸ hs q'
  | failed same => exact same q' ▸ hs q'
  | handed hands others =>
    by_cases hq : q' = q
    · subst hq
      exact hands.sound (hs q')
    · exact others q' hq ▸ hs q'

theorem claim_sound {s : Store} (q : Queue) (consumer : String) (ids : List String)
    (hs : ∀ q', (s.shelf q').Sound) (q' : Queue) :
    ((s.claim q.stream q.group consumer ids).1.shelf q').Sound := by
  unfold claim
  generalize ([] : List Entry) = es
  induction ids.filterMap entryNumber? generalizing s es with
  | nil => exact hs q'
  | cons n ns ih =>
    refine ih (fun q'' => ?_) _
    obtain ⟨f, hf, he⟩ := claimOne_shelf s q consumer n q''
    change ((s.claimOne q.stream q.group consumer n).1.shelf q'').Sound
    rw [he]
    exact (hs q'').regroup hf

theorem obey_sound {s : Store} (hs : ∀ q, (s.shelf q).Sound) (op : Op) (q : Queue) :
    ((s.obey op).shelf q).Sound := by
  cases op with
  | createGroup q' =>
    simp only [obey]
    split
    · next s' h =>
      rw [createGroup_shelf h]
      split
      · exact (hs q).found
      · exact hs q
    · exact hs q
  | add stream fields maxLen =>
    simp only [obey]
    split
    · next s' id h =>
      rw [append_shelf h]
      split
      · exact (hs q).append fields maxLen
      · exact hs q
    · exact hs q
  | read q' consumer count => exact read_sound (beginRead_step s 0 q' consumer count 0) hs q
  | ack q' id =>
    rcases ack_shelf s q' id q with h | ⟨-, n, -, h⟩
    · exact h ▸ hs q
    · exact h ▸ (hs q).ack n
  | claim q' consumer ids => exact claim_sound q' consumer ids hs q
  | close => exact hs q
  | delayAdds millis => exact hs q
  | failReads n => exact hs q
  | failAcks n => exact hs q

theorem carryOut_sound (ops : List Op) {s : Store} (hs : ∀ q, (s.shelf q).Sound) (q : Queue) :
    ((carryOut ops s).shelf q).Sound := by
  induction ops generalizing s with
  | nil => exact hs q
  | cons op ops ih => exact ih (obey_sound hs op)

theorem after_sound (ops : List Op) (q : Queue) : ((after ops).shelf q).Sound :=
  carryOut_sound ops (fun _ => ⟨List.Pairwise.nil, by simp [shelf, stream, empty, StreamLog.empty,
    Table.get?], by simp [shelf, group?, stream, empty, StreamLog.empty, Table.get?]⟩) q

end Store

end TaskRelay
