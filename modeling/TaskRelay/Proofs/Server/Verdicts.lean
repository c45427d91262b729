import TaskRelay.Proofs.Server.Reading
import TaskRelay.Proofs.Text.Cuts

/-!
# How operations on a server end

A server has a value for a command, or an error line, or the connection breaks; and it may take
its time. A group is created unless the answer is an error other than that it exists already. A
health check is passed by one text in time. All other failures are told apart as the callers do
it: a broken connection, or a command that did not go through.
-/

set_option autoImplicit false

namespace TaskRelay

namespace ServerFault

open Text (cutFirst_append cutFirst_eq_none)

def FirstWord (word line : String) : Prop :=
  ' ' ∉ word.toList ∧ (line = word ∨ ∃ rest, line = word ++ " " ++ rest)

theorem exists_firstWord (line : String) : ∃ word, FirstWord word line := by
  by_cases h : ' ' ∈ line.toList
  · obtain ⟨word, rest, hl, hw⟩ := List.eq_append_cons_of_mem h
    refine ⟨String.ofList word, by rwa [String.toList_ofList], Or.inr ⟨String.ofList rest, ?_⟩⟩
    rw [← String.toList_inj, hl]
    simp
  · exact ⟨line, h, Or.inl rfl⟩

/-- The first word of a line decides what kind of fault it is. -/
theorem ofLine_firstWord {word line : String} (h : FirstWord word line) :
    ∃ detail, ofLine line = match FaultKind.ofWord? word with
      | some k => .described k "An error was signalled by the server" detail
      | none => .extended word (detail.getD "Unknown extension error encountered") := by
  obtain ⟨hw, rfl | ⟨rest, rfl⟩⟩ := h
  · refine ⟨none, ?_⟩
    cases hk : FaultKind.ofWord? line <;> simp [ofLine, cutFirst_eq_none hw, hk]
  · have hl : (word ++ " " ++ rest).toList = word.toList ++ ' ' :: rest.toList := by simp
    refine ⟨some rest, ?_⟩
    cases hk : FaultKind.ofWord? word <;> simp [ofLine, hl, cutFirst_append hw, hk]

theorem ofLine_kind (line : String) : (ofLine line).kind ≠ .io := by
  obtain ⟨word, hw⟩ := exists_firstWord line
  obtain ⟨detail, hf⟩ := ofLine_firstWord hw
  rw [hf]
  cases hk : FaultKind.ofWord? word with
  | none => simp [kind]
  | some k =>
    unfold FaultKind.ofWord? at hk
    split at hk <;> cases hk <;> simp [kind]

theorem ofLine_busyGroup (line : String) :
    (ofLine line).isBusyGroup = true ↔ FirstWord "BUSYGROUP" line := by
  constructor
  · intro h
    obtain ⟨word, hw⟩ := exists_firstWord line
    obtain ⟨detail, hf⟩ := ofLine_firstWord hw
    rw [hf] at h
    cases hk : FaultKind.ofWord? word with
    | none =>
      rw [hk] at h
      have he : word = "BUSYGROUP" := by simpa [isBusyGroup] using h
      exact he ▸ hw
    | some k =>
      rw [hk] at h
      cases h
  · intro h
    obtain ⟨detail, hf⟩ := ofLine_firstWord h
    rw [hf]
    rfl

theorem toStoreError_io {f : ServerFault} (h : f.kind = .io) :
    ∃ d, f.toStoreError = .connection d := by
  rw [toStoreError, h]
  exact ⟨_, rfl⟩

theorem toStoreError_other {f : ServerFault} (h : f.kind ≠ .io) :
    ∃ d, f.toStoreError = .command d := by
  rw [toStoreError]
  split
  · next hk => exact absurd hk h
  · exact ⟨_, rfl⟩
  · exact ⟨_, rfl⟩

end ServerFault

namespace ServerReply

abbrev Mistypes {α : Type} (x : Except ServerFault α) : Prop := FailsAs (fun f => f.kind = .type) x

theorem mistyped_mistypes {α : Type} : Mistypes (.error mistyped : Except ServerFault α) := by
  rintro _ ⟨⟩
  rfl

theorem asText_mistypes (r : ServerReply) : Mistypes r.asText := by
  cases r with
  | bulk bytes =>
    simp only [asText]
    split
    · exact .ok _
    · rintro _ ⟨⟩
      rfl
  | status line => exact .ok line
  | nil | integer _ | list _ => exact mistyped_mistypes

theorem asInteger_mistypes (r : ServerReply) : Mistypes r.asInteger := by
  unfold asInteger
  split
  · exact .ok _
  · exact mistyped_mistypes
  · exact mistyped_mistypes
  · refine (asText_mistypes r).bind fun s => ?_
    split
    · exact .ok _
    · exact mistyped_mistypes

theorem asMap_mistypes (r : ServerReply) : Mistypes r.asMap := by
  cases r with
  | nil => exact .ok []
  | list items =>
    refine FailsAs.bind (.mapM (fun p => ?_) _) fun pairs => .ok _
    exact (asText_mistypes p.1).bind fun k => .ok _
  | integer _ | bulk _ | status _ => exact mistyped_mistypes

theorem asList_mistypes (r : ServerReply) : Mistypes r.asList := by
  cases r with
  | nil => exact .ok []
  | list items => exact .ok items
  | integer _ | bulk _ | status _ => exact mistyped_mistypes

theorem rowEntries_mistypes (r : ServerReply) : Mistypes r.rowEntries := by
  refine (asMap_mistypes r).bind fun m => .mapM (fun p => ?_) m
  exact FailsAs.bind ((asMap_mistypes p.2).bind fun _ => .ok _) fun _ => .ok _

theorem asEntries_mistypes (r : ServerReply) : Mistypes r.asEntries := by
  refine (asList_mistypes r).bind fun streams => FailsAs.bind (.mapM (fun s => ?_) streams) fun _ => .ok _
  refine (asMap_mistypes s).bind fun m => FailsAs.bind (.mapM (fun p => ?_) m) fun _ => .ok _
  refine (asList_mistypes p.2).bind fun rows => FailsAs.bind ?_ fun _ => .ok _
  exact .mapM rowEntries_mistypes rows

end ServerReply

inductive Response
  | value (r : ServerReply)
  | refusal (line : String)
  | broken (reason : String)

namespace Response

def answer : Response → Except ServerFault ServerReply
  | .value r => .ok r
  | .refusal line => .error (.ofLine line)
  | .broken reason => .error (.disconnected reason)

def IsBroken (s : Response) : Prop := ∃ reason, s = .broken reason

def Shows (s : Response) (result : Except StoreError Gain) : Prop :=
  ((∃ d, result = .error (.connection d)) ↔ s.IsBroken) ∧
    ∀ e, result = .error e → ¬ s.IsBroken → ∃ d, e = .command d

section
variable {s : Response} {result : Except StoreError Gain}

theorem shows_ok {g : Gain} (h : ¬ s.IsBroken) : s.Shows (.ok g) :=
  ⟨⟨fun ⟨_, hd⟩ => (by cases hd), fun hb => absurd hb h⟩, fun _ he => (by cases he)⟩

theorem shows_fault {f : ServerFault} (h : f.kind = .io ↔ s.IsBroken) :
    s.Shows (.error f.toStoreError) := by
  by_cases hk : f.kind = .io
  · obtain ⟨d, hd⟩ := ServerFault.toStoreError_io hk
    rw [hd]
    exact ⟨⟨fun _ => h.mp hk, fun _ => ⟨d, rfl⟩⟩, fun _ _ hb => absurd (h.mp hk) hb⟩
  · obtain ⟨d, hd⟩ := ServerFault.toStoreError_other hk
    rw [hd]
    refine ⟨⟨fun ⟨_, hc⟩ => (by cases hc), fun hb => absurd (h.mpr hb) hk⟩, ?_⟩
    rintro _ ⟨⟩ -
    exact ⟨d, rfl⟩

theorem answer_fault {f : ServerFault} (h : s.answer = .error f) : f.kind = .io ↔ s.IsBroken := by
  cases s with
  | value r => cases h
  | refusal line =>
    cases h
    exact ⟨fun hk => absurd hk (ServerFault.ofLine_kind line), fun ⟨_, hb⟩ => (by cases hb)⟩
  | broken reason =>
    cases h
    exact ⟨fun _ => ⟨reason, rfl⟩, fun _ => rfl⟩

theorem value_unbroken {r : ServerReply} (h : s.answer = .ok r) : ¬ s.IsBroken := by
  rintro ⟨reason, rfl⟩
  cases h

end

theorem shows_gained {α : Type} {read : ServerReply → Except ServerFault α}
    (hr : ∀ r, ServerReply.Mistypes (read r)) (gain : α → Gain) (s : Response) :
    s.Shows (Operation.gained read gain s.answer) := by
  unfold Operation.gained
  split
  · next f h => exact shows_fault (answer_fault h)
  · next r h =>
    have hb := value_unbroken h
    split
    · exact shows_ok hb
    · next f hf =>
      have hk := hr r f hf
      refine shows_fault ⟨fun hi => ?_, fun hs => absurd hs hb⟩
      rw [hk] at hi
      cases hi

theorem shows_created (stream group : String) (s : Response) :
    s.Shows (Operation.endCreateGroup stream group s.answer).2 := by
  unfold Operation.endCreateGroup
  split
  · next r h => exact shows_ok (value_unbroken h)
  · next f h =>
    split
    · next hb =>
      refine shows_ok fun hs => ?_
      have hk := (answer_fault h).mpr hs
      cases f <;> simp_all [ServerFault.isBusyGroup, ServerFault.kind]
    · exact shows_fault (answer_fault h)

end Response

/-- A health check is timed in whole milliseconds: an answer is late once the first of them has
gone by at which the time is over. -/
def Arrival.InTime (a : Arrival) (timeout : Span) : Prop :=
  a.delay * nanosPerMilli < timeout.nanos + nanosPerMilli

namespace Link

open ServerFault (FirstWord)

theorem givesUp_ping (label : String) (timeout : Span) (a : Arrival) :
    (connected label timeout).givesUp .ping a = false ↔ a.InTime timeout := by
  have hg : (connected label timeout).givesUp .ping a = decide (timeout.timerMillis < a.delay) := rfl
  rw [hg, decide_eq_false_iff_not, Span.timerMillis, Arrival.InTime, nanosPerMilli]
  omega

theorem inTime_ofMillis (answer : Except ServerFault ServerReply) (delay : Nat) (n : UInt64) :
    (Arrival.mk answer delay).InTime (.ofMillis n) ↔ delay ≤ n.toNat := by
  simp only [Arrival.InTime, Span.ofMillis, nanosPerMilli]
  omega

theorem perform_result {l : Link} (h : l.isOpen = true) (op : Operation) (a : Arrival) :
    (l.perform op a).result =
      if l.givesUp op a then .error (.healthCheckFailed "PING command timed out")
      else (op.finish l.label a.answer).2 := by
  cases hg : l.givesUp op a <;> simp [perform, h, hg]

theorem waits_for_answer (label : String) (timeout : Span) {op : Operation} (h : op ≠ .ping)
    (a : Arrival) : (connected label timeout).givesUp op a = false := by
  cases op with
  | ping => exact absurd rfl h
  | createGroup _ _ | readGroup _ _ _ _ _ | ack _ _ _ | add _ _ _ => rfl

theorem created_iff (stream group : String) (s : Response) :
    (∃ g, (Operation.endCreateGroup stream group s.answer).2 = .ok g) ↔
      (∃ r, s = .value r) ∨ ∃ line, s = .refusal line ∧ FirstWord "BUSYGROUP" line := by
  cases s with
  | value r => exact ⟨fun _ => Or.inl ⟨r, rfl⟩, fun _ => ⟨.nothing, rfl⟩⟩
  | refusal line =>
    have hb := ServerFault.ofLine_busyGroup line
    by_cases h : FirstWord "BUSYGROUP" line
    · simp [Operation.endCreateGroup, Response.answer, hb.mpr h, h]
    · simp [Operation.endCreateGroup, Response.answer, mt hb.mp h, h]
  | broken reason =>
    simp [Operation.endCreateGroup, Response.answer, ServerFault.isBusyGroup]

theorem ping_passed (label : String) (s : Response) :
    (∃ g, (Operation.endPing label s.answer).2 = .ok g) ↔ ∃ r, s = .value r ∧ r.Tells "PONG" := by
  cases s with
  | value r =>
    have ht : r.asText = .ok "PONG" ↔ r.Tells "PONG" := ServerReply.asText_ok_iff
    simp only [Response.answer, Operation.endPing]
    split
    · next h => simp [← ht, h]
    · next other hne h => simpa [← ht, h] using hne
    · next f h => simp [← ht, h, Operation.endPing.failed]
  | refusal line => simp [Operation.endPing, Operation.endPing.failed, Response.answer]
  | broken reason => simp [Operation.endPing, Operation.endPing.failed, Response.answer]

theorem ping_failed (label : String) (s : Response) (e : StoreError)
    (h : (Operation.endPing label s.answer).2 = .error e) : ∃ d, e = .healthCheckFailed d := by
  unfold Operation.endPing at h
  split at h
  · split at h <;> cases h <;> exact ⟨_, rfl⟩
  · cases h
    exact ⟨_, rfl⟩

/-- An answer in time decides a health check, and a late one has failed it. -/
theorem ping_told (label : String) (timeout : Span) (s : Response) (delay : Nat) :
    let a : Arrival := ⟨s.answer, delay⟩
    let result := ((connected label timeout).perform .ping a).result
    ((∃ g, result = .ok g) ↔ (∃ r, s = .value r ∧ r.Tells "PONG") ∧ a.InTime timeout) ∧
      ∀ e, result = .error e → ∃ d, e = .healthCheckFailed d := by
  intro a result
  have hg := givesUp_ping label timeout a
  have hr : result = _ := perform_result rfl .ping a
  rw [hr]
  cases hl : (connected label timeout).givesUp .ping a with
  | true =>
    have hn : ¬ a.InTime timeout := fun ht => Bool.false_ne_true ((hg.mpr ht).symm.trans hl)
    refine ⟨⟨fun ⟨_, h⟩ => (by cases h), fun h => absurd h.2 hn⟩, ?_⟩
    rintro _ ⟨⟩
    exact ⟨_, rfl⟩
  | false =>
    exact ⟨(ping_passed label s).trans (and_iff_left (hg.mp hl)).symm, ping_failed label s⟩

theorem others_show (label : String) (timeout : Span) {op : Operation} (h : op ≠ .ping)
    (s : Response) (delay : Nat) :
    s.Shows ((connected label timeout).perform op ⟨s.answer, delay⟩).result := by
  rw [perform_result rfl, waits_for_answer label timeout h]
  cases op with
  | ping => exact absurd rfl h
  | createGroup stream group => exact Response.shows_created stream group s
  | readGroup _ _ _ _ _ => exact Response.shows_gained ServerReply.asEntries_mistypes _ s
  | ack _ _ _ => exact Response.shows_gained ServerReply.asInteger_mistypes _ s
  | add _ _ _ => exact Response.shows_gained ServerReply.asText_mistypes _ s

/-- On an open link a group is created unless there is an error that does not say that it exists
already, and a health check is passed by the one text in time and fails as a health check in
every other case. What else fails shows as a broken connection if that is what it was, and as a
command that failed if not. -/
theorem verdicts_told_apart (label : String) (timeout : Span) (op : Operation) (s : Response)
    (delay : Nat) :
    let a : Arrival := ⟨s.answer, delay⟩
    let result := ((connected label timeout).perform op a).result
    (∀ stream group, op = .createGroup stream group →
      ((∃ g, result = .ok g) ↔
        (∃ r, s = .value r) ∨ ∃ line, s = .refusal line ∧ FirstWord "BUSYGROUP" line)) ∧
    (op = .ping →
      ((∃ g, result = .ok g) ↔ (∃ r, s = .value r ∧ r.Tells "PONG") ∧ a.InTime timeout) ∧
      (∀ n, timeout = .ofMillis n → (a.InTime timeout ↔ delay ≤ n.toNat)) ∧
      ∀ e, result = .error e → ∃ d, e = .healthCheckFailed d) ∧
    (op ≠ .ping → s.Shows result) := by
  intro a result
  refine ⟨?_, ?_, fun h => others_show label timeout h s delay⟩
  · rintro stream group rfl
    exact created_iff stream group s
  · rintro rfl
    obtain ⟨hp, hf⟩ := ping_told label timeout s delay
    exact ⟨hp, fun n hn => hn ▸ inTime_ofMillis s.answer delay n, hf⟩

/-- A group that exists already, a health check at the last moment and one just after it, and an
acknowledgement over a connection that breaks. -/
theorem last_moment_passed :
    FirstWord "BUSYGROUP" "BUSYGROUP Consumer Group name already exists" ∧
    (∃ g, ((connected "node" (.ofMillis 50)).perform (.createGroup "s" "g")
      ⟨.error (.ofLine "BUSYGROUP Consumer Group name already exists"), 90⟩).result = .ok g) ∧
    (∃ g, ((connected "node" (.ofMillis 50)).perform .ping
      ⟨.ok (.status "PONG"), 50⟩).result = .ok g) ∧
    (¬ ∃ g, ((connected "node" (.ofMillis 50)).perform .ping
      ⟨.ok (.status "PONG"), 51⟩).result = .ok g) ∧
    ∃ d, ((connected "node" (.ofMillis 50)).perform (.ack "s" "g" "1-0")
      ⟨.error (.disconnected "reset"), 0⟩).result = .error (.connection d) := by
  have hw : FirstWord "BUSYGROUP" "BUSYGROUP Consumer Group name already exists" :=
    ⟨by decide, Or.inr ⟨"Consumer Group name already exists", by decide⟩⟩
  have told (op : Operation) (s : Response) (delay : Nat) :=
    verdicts_told_apart "node" (.ofMillis 50) op s delay
  obtain ⟨intime, at50, -⟩ := (told .ping (.value (.status "PONG")) 50).2.1 rfl
  obtain ⟨late, at51, -⟩ := (told .ping (.value (.status "PONG")) 51).2.1 rfl
  refine ⟨hw, ?_, ?_, ?_, ?_⟩
  · exact ((told _ (.refusal _) 90).1 "s" "g" rfl).mpr (Or.inr ⟨_, rfl, hw⟩)
  · exact intime.mpr ⟨⟨_, rfl, .status "PONG"⟩, (at50 50 rfl).mpr (by decide)⟩
  · exact fun h => absurd ((at51 50 rfl).mp (late.mp h).2) (by decide)
  · exact ((told (.ack "s" "g" "1-0") (.broken "reset") 0).2.2 nofun).1.mpr ⟨"reset", rfl⟩

end Link

end TaskRelay
