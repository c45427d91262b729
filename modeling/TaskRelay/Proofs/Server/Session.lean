import Mathlib.Data.List.Nodup
import TaskRelay.Proofs.Store.Readers
import TaskRelay.Server.Link

/-!
# Sessions with a server

A session is the list of what was asked of a link, each operation with the answer that the
server had for it. Two logs tell what went over the two connections. They are those of the
operations asked before the first close, whatever the server answered, and group reads have
one of them to themselves. An addition is read back as a server reads it: a bound if there is
one, a number left to the server, and every pair of the map once.
-/

set_option autoImplicit false

namespace TaskRelay

namespace Table

def Ordered {β : Type} (t : Table String β) : Prop := (t.map Prod.fst).Pairwise (· < ·)

section
variable {β : Type}

theorem key_insert {k j : String} {b : β} {t : Table String β}
    (h : j ∈ (t.insert k b).map Prod.fst) : j = k ∨ j ∈ t.map Prod.fst := by
  induction t with
  | nil => exact Or.inl (by simpa [insert] using h)
  | cons p t ih =>
    obtain ⟨i, c⟩ := p
    unfold insert at h
    split at h
    · rcases List.mem_cons.mp h with h | h
      · exact Or.inl h
      · exact Or.inr (List.mem_cons_of_mem _ h)
    · split at h
      · rcases List.mem_cons.mp h with h | h
        · exact Or.inl h
        · exact Or.inr h
      · rcases List.mem_cons.mp h with rfl | h
        · exact Or.inr List.mem_cons_self
        · exact (ih h).imp_right (List.mem_cons_of_mem _)

theorem Ordered.insert {t : Table String β} (ht : t.Ordered) (k : String) (b : β) :
    (t.insert k b).Ordered := by
  induction t with
  | nil => exact List.pairwise_singleton _ _
  | cons p t ih =>
    obtain ⟨i, c⟩ := p
    obtain ⟨hi, ht'⟩ := List.pairwise_cons.mp ht
    unfold Table.insert
    split
    · next he =>
      subst he
      exact List.pairwise_cons.mpr ⟨hi, ht'⟩
    · next hne =>
      split
      · next hlt =>
        refine List.pairwise_cons.mpr ⟨fun j hj => ?_, ht⟩
        rcases List.mem_cons.mp hj with rfl | hj
        · exact hlt
        · exact String.lt_trans hlt (hi j hj)
      · next hnl =>
        refine List.pairwise_cons.mpr ⟨fun j hj => ?_, ih ht'⟩
        rcases key_insert hj with rfl | hj
        · by_contra hn
          exact hne (String.le_antisymm (String.not_lt.mp hn) (String.not_lt.mp hnl))
        · exact hi j hj

theorem ofList_ordered (pairs : List (String × β)) : (ofList pairs).Ordered := by
  have fold (t : Table String β) (ht : t.Ordered) :
      (pairs.foldl (fun t p => t.insert p.1 p.2) t).Ordered := by
    induction pairs generalizing t with
    | nil => exact ht
    | cons p pairs ih => exact ih _ (ht.insert p.1 p.2)
  exact fold [] List.Pairwise.nil

theorem Ordered.get_of_mem {t : Table String β} (ht : t.Ordered) {k : String} {b : β}
    (h : (k, b) ∈ t) : t.get? k = some b := by
  induction t with
  | nil => cases h
  | cons p t ih =>
    obtain ⟨i, c⟩ := p
    obtain ⟨hi, ht'⟩ := List.pairwise_cons.mp ht
    rcases List.mem_cons.mp h with he | hm
    · cases he
      simp [get?]
    · have hlt : i < k := hi k (List.mem_map.mpr ⟨(k, b), hm, rfl⟩)
      have hne : k ≠ i := fun he => String.lt_irrefl i (by rwa [he] at hlt)
      rw [get?, if_neg hne]
      exact ih ht' hm

end

theorem Ordered.count {t : Table String String} (ht : t.Ordered) (k v : String) :
    List.count (k, v) t = if t.get? k = some v then 1 else 0 := by
  have hk : (t.map Prod.fst).Nodup :=
    List.Pairwise.imp (fun {a b} (h : a < b) (he : a = b) => String.lt_irrefl b (he ▸ h)) ht
  have hn : t.Nodup := hk.of_map
  have hm : (k, v) ∈ t ↔ t.get? k = some v := ⟨ht.get_of_mem, mem_of_get?⟩
  split
  · next hg => exact List.count_eq_one_of_mem hn (hm.mpr hg)
  · next hg => exact List.count_eq_zero_of_not_mem fun h => hg (hm.mp h)

end Table

structure Appending where
  stream : String
  bound : Option String
  id : String
  pairs : List (String × String)
  deriving DecidableEq, Repr

namespace Appending

def pairs? : List String → Option (List (String × String))
  | [] => some []
  | [_] => none
  | k :: v :: rest => (pairs? rest).map ((k, v) :: ·)

def read? : List String → Option Appending
  | "XADD" :: stream :: "MAXLEN" :: "~" :: n :: id :: rest =>
    (pairs? rest).map fun ps => ⟨stream, some n, id, ps⟩
  | "XADD" :: stream :: id :: rest => (pairs? rest).map fun ps => ⟨stream, none, id, ps⟩
  | _ => none

theorem pairs_flat (ps : List (String × String)) :
    pairs? (ps.flatMap fun p => [p.1, p.2]) = some ps := by
  induction ps with
  | nil => rfl
  | cons p ps ih => simp [pairs?, ih]

/-- An addition asks for what it was told to ask for. -/
theorem read_command (stream : String) (fields : Fields) (maxLen : Nat) :
    read? (Operation.add stream fields maxLen).command =
      some ⟨stream, if 0 < maxLen then some (toString maxLen) else none, "*", fields⟩ := by
  by_cases hm : maxLen = 0
  · subst hm
    simp [Operation.command, Operation.bound, read?, pairs_flat]
  · simp [Operation.command, Operation.bound, read?, pairs_flat, hm, Nat.pos_of_ne_zero hm]

end Appending

namespace Link

inductive Request
  | perform (op : Operation) (a : Arrival)
  | close

namespace Request

def isClose : Request → Bool
  | .perform _ _ => false
  | .close => true

def command? (c : Channel) : Request → Option (List String)
  | .perform op _ => if op.channel = c then some op.command else none
  | .close => none

end Request

def answer (l : Link) : Request → Link × Exchange
  | .perform op a => (l, l.perform op a)
  | .close => (l.close.1, ⟨none, l.close.2, .ok .nothing⟩)

def run : List Request → Link → Link
  | [], l => l
  | r :: rs, l => run rs (l.answer r).1

def exchanges : List Request → Link → List Exchange
  | [], _ => []
  | r :: rs, l => (l.answer r).2 :: exchanges rs (l.answer r).1

def log (c : Channel) (es : List Exchange) : List (List String) :=
  es.filterMap fun e => e.sent.bind fun p => if p.1 = c then some p.2 else none

section
variable (l : Link)

theorem exchanges_append (rs rs' : List Request) :
    exchanges (rs ++ rs') l = exchanges rs l ++ exchanges rs' (run rs l) := by
  induction rs generalizing l with
  | nil => rfl
  | cons r rs ih => rw [List.cons_append, exchanges, ih, exchanges, run, List.cons_append]

theorem run_append (rs rs' : List Request) : run (rs ++ rs') l = run rs' (run rs l) := by
  induction rs generalizing l with
  | nil => rfl
  | cons r rs ih => exact ih _

theorem answer_open (r : Request) : (l.answer r).1.isOpen = (l.isOpen && !r.isClose) := by
  cases r <;> simp [answer, Request.isClose, close]

/-- A link is open until the first close. -/
theorem run_open (rs : List Request) :
    (run rs l).isOpen = (l.isOpen && !rs.any Request.isClose) := by
  induction rs generalizing l with
  | nil => simp [run]
  | cons r rs ih => rw [run, ih, answer_open, List.any_cons, Bool.not_or, Bool.and_assoc]

variable {l}

/-- An open link sends one command for each operation. -/
theorem perform_open (h : l.isOpen = true) (op : Operation) (a : Arrival) :
    (l.perform op a).sent = some (op.channel, op.command) := by
  simp only [perform, h, Bool.not_true, Bool.false_eq_true, if_false]
  split <;> rfl

theorem perform_closed (h : l.isOpen = false) (op : Operation) (a : Arrival) :
    l.perform op a = ⟨none, [], .error .closed⟩ := by
  simp [perform, h]

theorem close_closed (h : l.isOpen = false) :
    l.answer .close = (l, ⟨none, [], .ok .nothing⟩) := by
  obtain ⟨label, timeout, isOpen⟩ := l
  cases h
  rfl

theorem answer_closed (h : l.isOpen = false) (r : Request) :
    (l.answer r).1 = l ∧ (l.answer r).2.sent = none := by
  cases r with
  | perform op a => exact ⟨rfl, by rw [answer, perform_closed h]⟩
  | close => rw [close_closed h]; exact ⟨rfl, rfl⟩

theorem log_closed (h : l.isOpen = false) (c : Channel) (rs : List Request) :
    log c (exchanges rs l) = [] := by
  induction rs with
  | nil => rfl
  | cons r rs ih =>
    obtain ⟨hl, hs⟩ := answer_closed h r
    rw [exchanges, hl, log, List.filterMap_cons_none (by rw [hs]; rfl)]
    exact ih

/-- What goes over a connection are the commands of the requests before the first close. -/
theorem log_open (h : l.isOpen = true) (c : Channel) (rs : List Request) :
    log c (exchanges rs l) =
      (rs.takeWhile (!·.isClose)).filterMap (Request.command? c) := by
  induction rs with
  | nil => rfl
  | cons r rs ih =>
    cases r with
    | close =>
      have hc : (l.answer .close).1.isOpen = false := by rw [answer_open]; simp [Request.isClose]
      rw [exchanges, log, List.filterMap_cons_none rfl]
      exact log_closed hc c rs
    | perform op a =>
      have hs : ((l.perform op a).sent.bind fun p => if p.1 = c then some p.2 else none) =
          Request.command? c (.perform op a) := by
        rw [perform_open h]
        rfl
      rw [List.takeWhile_cons_of_pos rfl, exchanges, log, List.filterMap_cons,
        List.filterMap_cons]
      simp only [answer, hs]
      rw [← log, ih]

end

/-- A group read asks with its own verb, and it alone. -/
theorem reads_apart (op : Operation) :
    op.channel = .reader ↔ op.command.head? = some "XREADGROUP" := by
  cases op <;> simp [Operation.channel, Operation.command]

/-- On a link that was connected, every operation before the first close sends one command,
whatever was answered to the others, and from the first close on every operation is refused
and sends nothing; another close leaves the link and all that follows as it was. Group reads
and they alone go over the reader, so that the two connections carry, in order, the reads and
the rest of what was asked before the first close. An addition has a bound if it was given
one, leaves the number to the server and has every pair of its map once. -/
theorem one_command_each (label : String) (timeout : Span) (rs : List Request) :
    let l := connected label timeout
    (∀ pre post op a, rs = pre ++ .perform op a :: post → ∃ e,
      exchanges rs l = exchanges pre l ++ e :: exchanges post (run pre l) ∧
      (pre.any Request.isClose = false → e.sent = some (op.channel, op.command)) ∧
      (pre.any Request.isClose = true → e = ⟨none, [], .error .closed⟩)) ∧
    (∀ op : Operation, op.channel = .reader ↔ op.command.head? = some "XREADGROUP") ∧
    (∀ c, log c (exchanges rs l) =
      (rs.takeWhile (!·.isClose)).filterMap (Request.command? c)) ∧
    (∀ pre post, rs = pre ++ .close :: post → pre.any Request.isClose = true →
      run rs l = run (pre ++ post) l ∧
      exchanges rs l = exchanges pre l ++ ⟨none, [], .ok .nothing⟩ :: exchanges post (run pre l) ∧
      exchanges (pre ++ post) l = exchanges pre l ++ exchanges post (run pre l)) ∧
    ∀ stream maxLen given, let fields := Table.ofList given
      ∃ pairs, Appending.read? (Operation.add stream fields maxLen).command =
        some ⟨stream, if 0 < maxLen then some (toString maxLen) else none, "*", pairs⟩ ∧
        ∀ k v, pairs.count (k, v) = if Table.get? k fields = some v then 1 else 0 := by
  intro l
  have ho (pre : List Request) : (run pre l).isOpen = !pre.any Request.isClose := run_open l pre
  refine ⟨?_, reads_apart, fun c => log_open rfl c rs, ?_, fun stream maxLen given =>
    ⟨_, Appending.read_command stream _ maxLen, (Table.ofList_ordered given).count⟩⟩
  · rintro pre post op a rfl
    refine ⟨(run pre l).perform op a, exchanges_append l pre _, fun hc => ?_, fun hc => ?_⟩
    · exact perform_open (by rw [ho, hc]; rfl) op a
    · exact perform_closed (by rw [ho, hc]; rfl) op a
  · rintro pre post rfl hc
    have hcl := close_closed (l := run pre l) (by rw [ho, hc]; rfl)
    refine ⟨?_, ?_, exchanges_append l pre post⟩
    · rw [run_append, run_append, run, hcl]
    · rw [exchanges_append, exchanges, hcl]

def rough : List Request :=
  [.perform (.createGroup "s" "g") ⟨.error (.disconnected "reset"), 5⟩,
    .perform (.readGroup "s" "g" "c" 1 (.ofMillis 100)) ⟨.ok .nil, 100⟩,
    .perform .ping ⟨.ok (.status "PONG"), 20000⟩, .close,
    .perform (.add "s" [("body", "x")] 10) ⟨.ok (.status "1-0"), 0⟩, .close,
    .perform .ping ⟨.ok (.status "PONG"), 0⟩]

theorem rough_session :
    (∃ e, exchanges rough (connected "node" (.ofMillis 10000)) =
        exchanges (rough.take 2) (connected "node" (.ofMillis 10000)) ++ e ::
          exchanges (rough.drop 3) (run (rough.take 2) (connected "node" (.ofMillis 10000))) ∧
      e.sent = some (.writer, ["PING"])) ∧
    (rough.take 4).any Request.isClose = true ∧
    run rough (connected "node" (.ofMillis 10000)) =
      run (rough.take 5 ++ rough.drop 6) (connected "node" (.ofMillis 10000)) ∧
    log .reader (exchanges rough (connected "node" (.ofMillis 10000))) =
      [["XREADGROUP", "GROUP", "g", "c", "BLOCK", "100", "COUNT", "1", "STREAMS", "s", ">"]] := by
  obtain ⟨each, -, logs, closes, -⟩ := one_command_each "node" (.ofMillis 10000) rough
  obtain ⟨e, hsplit, hsent, -⟩ := each (rough.take 2) (rough.drop 3) .ping _ rfl
  exact ⟨⟨e, hsplit, hsent rfl⟩, rfl, (closes (rough.take 5) (rough.drop 6) rfl rfl).1,
    logs .reader⟩

end Link

end TaskRelay
