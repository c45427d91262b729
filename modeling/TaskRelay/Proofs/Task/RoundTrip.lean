import TaskRelay.Worker.Basic
import TaskRelay.Proofs.Json.Records
import TaskRelay.Proofs.Json.Reread
import TaskRelay.Proofs.Task.Identifier

/-!
# Tasks read back

The text of a task holds its members in one order, each of them once, and the reader of
records gives the task again. The record itself is a container, so the reader stops at a
payload that is nested one level less deep than it reads on its own.
-/

set_option autoImplicit false

namespace TaskRelay

namespace Json

namespace Record

variable {σ τ : Type} (r : Record σ τ) (depth fuel : Nat) (first : Bool)

theorem readMembers_member {m : Member σ} {k : String} (st : σ)
    (hm : r.members.find? (·.name == k) = some m) (hp : m.present st = false) (s : Bytes) :
    r.readMembers depth (fuel + 1) first st (lead first ++ (bytes (quote k) ++ 0x3A :: s)) =
      (m.read depth st s).bind fun p => r.readMembers depth fuel false p.1 p.2 :=
  readMembers_known (introduced_quote k first s) hm hp

theorem readMembers_close {v : τ} (st : σ) (hv : r.finish st = .ok v) (s : Bytes) :
    r.readMembers depth (fuel + 1) first st (0x7D :: s) = .ok (v, s) := by
  have h : r.readMembers depth (fuel + 1) first st (0x7D :: s) = (r.finish st).map (·, s) :=
    readMembers_end [] s
  rw [h, hv]
  rfl

end Record

theorem readUuid_quote (u : Uuid) (rest : Bytes) :
    readUuid (bytes (quote u.text) ++ rest) = .ok (u, rest) := by
  rw [bytes_quote, List.cons_append, List.append_assoc, readUuid, readText, next_dark rfl]
  simp only [bind, Except.bind, if_true, List.singleton_append, string_quote, Uuid.parse_text]

theorem readOption_wholeChars (n : UInt64) {rest : Bytes} (hr : Ends rest) :
    readOption readUInt64 (bytes (wholeChars n.toNat) ++ rest) = .ok (some n, rest) := by
  have hn : n.toNat < 0x10000000000000000 := n.toNat_lt
  obtain ⟨b, s, hw, hb, hs⟩ := scalar_whole ⟨n.toNat, by omega, by omega⟩ hr
  change bytes (wholeChars n.toNat) = b :: s at hw
  have hd : isBlank b = false ∧ b ≠ 0x6E := by
    rcases hb with rfl | hb
    · decide
    · refine ⟨(starts_digit hb).dark, ?_⟩
      rintro rfl
      cases hb
  have hle : (n.toNat : Int) ≤ Text.maxU64 := by
    change (n.toNat : Int) ≤ (18446744073709551615 : Nat)
    omega
  have hr : readWhole 0 Text.maxU64 (b :: (s ++ rest)) = .ok ((n.toNat : Int), rest) := by
    rw [readWhole, next_dark hd.1]
    simp only [bind, Except.bind, if_pos hb, hs]
    exact if_pos ⟨Int.natCast_nonneg _, hle⟩
  rw [hw, List.cons_append, readOption, next_dark hd.1]
  simp only [bind, Except.bind, if_neg hd.2, readUInt64, readNat, hr, Int.toNat_natCast,
    UInt64.ofNat_toNat]

end Json

namespace Task

open Json

def tail (t : Task) : Bytes :=
  match t.timeoutSeconds with
  | none => [0x7D]
  | some n => lead false ++ (bytes (quote "timeout_secs") ++ 0x3A ::
      (bytes (wholeChars n.toNat) ++ [0x7D]))

theorem ends_tail (t : Task) : Ends t.tail := by
  unfold tail
  cases t.timeoutSeconds with
  | none => exact .brace _
  | some n => exact .comma _

theorem toBytes_eq (t : Task) :
    t.toBytes = 0x7B :: (lead true ++ (bytes (quote "id") ++ 0x3A :: (bytes (quote t.id.text) ++
      (lead false ++ (bytes (quote "body") ++ 0x3A :: (bytes t.body.chars ++ t.tail)))))) := by
  rw [toBytes, encode, toUTF8_bytes, chars, tail]
  cases t.timeoutSeconds <;>
    simp only [bytes_cons, bytes_append, List.append_assoc, List.nil_append, List.cons_append] <;>
    rfl

theorem read_tail (t : Task) (fuel : Nat) :
    record.readMembers 126 (fuel + 2) false ⟨some t.id, some t.body, none⟩ t.tail =
      .ok (t, []) := by
  obtain ⟨u, v, n⟩ := t
  cases n with
  | none => exact record.readMembers_close _ _ _ _ rfl []
  | some n =>
    rw [tail, record.readMembers_member 126 _ false _ rfl rfl]
    simp only [bind, Except.bind, readOption_wholeChars n (.brace [])]
    exact record.readMembers_close _ _ _ _ rfl []

/-- The text of a task is read back, with the payload as the reader has it, if the payload is
nested no deeper than the reader goes, and is malformed to the reader otherwise. -/
theorem ofBytes_toBytes_eq (t : Task) (hf : t.body.Finite) :
    ofBytes t.toBytes = if t.body.nesting ≤ 126 then .ok { t with body := t.body.reread }
      else .error .malformed := by
  have hread (fuel : Nat) (hfuel : 4 ≤ fuel) : record.readMembers 126 fuel true record.start
      (lead true ++ (bytes (quote "id") ++ 0x3A :: (bytes (quote t.id.text) ++
        (lead false ++ (bytes (quote "body") ++ 0x3A :: (bytes t.body.chars ++ t.tail)))))) =
      within t.body.nesting 126 { t with body := t.body.reread } [] := by
    obtain ⟨fuel, rfl⟩ := Nat.exists_eq_add_of_le' hfuel
    rw [record.readMembers_member 126 _ true _ rfl rfl]
    simp only [bind, Except.bind, readUuid_quote]
    rw [record.readMembers_member 126 _ false _ rfl rfl]
    simp only [bind, Except.bind, value_chars hf 126 t.ends_tail]
    unfold within
    by_cases hn : t.body.nesting ≤ 126
    · simp only [if_pos hn]
      exact read_tail { t with body := t.body.reread } fuel
    · simp only [if_neg hn]
  rw [ofBytes, Record.parse, toBytes_eq, Record.read, next_dark rfl]
  simp only [bind, Except.bind, maxDepth]
  change atEnd (record.readMembers 126 _ true record.start _) = _
  rw [hread _ ?_]
  · unfold within
    split <;> rfl
  · have hi : (bytes (quote "id")).length = 4 := by decide
    rw [List.length_append, List.length_append, hi]
    omega

theorem decodeFields_encodeFields (t : Task) :
    decodeFields t.encodeFields = (ofBytes t.toBytes).mapError .json := by
  rw [decodeFields, encodeFields, Table.get?, if_pos rfl]
  rfl

/-- A task whose payload lies within the reader's limits survives being written, both as a
text and as the fields of an entry. -/
theorem read_back (t : Task) (hp : t.body.Plain) (hn : t.body.nesting ≤ 126) :
    decodeFields t.encodeFields = .ok t ∧ ofBytes t.toBytes = .ok t := by
  have hb : ofBytes t.toBytes = .ok t := by
    rw [ofBytes_toBytes_eq t (plain_finite _ hp), if_pos hn, reread_plain _ hp]
  refine ⟨?_, hb⟩
  rw [decodeFields_encodeFields, hb]
  rfl

def varied : Task where
  id := ⟨0x550e8400e29b41d4a716446655440000⟩
  body := .object [("", .null),
    ("a\"b\\", .list [.whole ⟨-0x8000000000000000, by decide, by decide⟩,
      .whole ⟨0xFFFFFFFFFFFFFFFF, by decide, by decide⟩, .list [], .object []]),
    ("naïve", .text "tab\t, bell\x07, 手, 𝄞"), ("π", .bool true)]
  timeoutSeconds := some 0xFFFFFFFFFFFFFFFF

theorem varied_read_back : (varied.body.Plain ∧ varied.body.nesting ≤ 126) ∧
    decodeFields varied.encodeFields = .ok varied ∧ ofBytes varied.toBytes = .ok varied := by
  have hp : varied.body.Plain := by
    simp only [varied, Plain, PlainMembers, PlainItems]
    decide
  have hn : varied.body.nesting ≤ 126 := by decide
  exact ⟨⟨hp, hn⟩, read_back varied hp hn⟩

/-- What a requester is given for a published task: the task, or the empty one if the payload
is nested too deep for the reader. Publishing looks at no depth. In a payload that is not, only
doubles may be read as others, and the members of objects are put in order. -/
theorem published_taken (t : Task) (hf : t.body.Finite) (k : Worker) (id : String) :
    (k.taskOf ⟨id, t.encodeFields⟩).2 =
      (if t.body.nesting ≤ 126 then { t with body := t.body.reread } else Task.empty) ∧
    decodeFields t.encodeFields =
      (if t.body.nesting ≤ 126 then .ok { t with body := t.body.reread }
        else .error (.json .malformed)) ∧
    (t.body.Plain → t.body.reread = t.body) := by
  have hd : decodeFields t.encodeFields =
      if t.body.nesting ≤ 126 then .ok { t with body := t.body.reread }
        else .error (.json .malformed) := by
    rw [decodeFields_encodeFields, ofBytes_toBytes_eq t hf]
    split <;> rfl
  refine ⟨?_, hd, reread_plain t.body⟩
  rw [Worker.taskOf]
  by_cases hn : t.body.nesting ≤ 126
  · rw [if_pos hn] at hd
    simp only [hd, if_pos hn]
  · rw [if_neg hn] at hd
    simp only [hd, if_neg hn]

def tower : Nat → Json
  | 0 => .null
  | n + 1 => .list [tower n]

theorem tower_plain (n : Nat) : (tower n).Plain := by
  induction n with
  | zero => trivial
  | succ n ih => exact ⟨ih, trivial⟩

theorem tower_nesting (n : Nat) : (tower n).nesting = n := by
  induction n with
  | zero => rfl
  | succ n ih => rw [tower, nesting, itemsNesting, itemsNesting, ih, Nat.max_zero]

def towering : Task := ⟨⟨0x550e8400e29b41d4a716446655440000⟩, tower 127, some 30⟩

theorem towering_deep : ¬ towering.body.nesting ≤ 126 := by
  rw [towering, tower_nesting]
  decide

theorem towering_taken : towering.body.Finite ∧
    ((Worker.create ⟨"s", "g", "c", Span.ofSeconds 60, 10000⟩ .log ⟨0, []⟩).taskOf
      ⟨"1-0", towering.encodeFields⟩).2 = Task.empty ∧
    decodeFields towering.encodeFields = .error (.json .malformed) := by
  have hf : towering.body.Finite := plain_finite _ (tower_plain 127)
  obtain ⟨htaken, hdecoded, -⟩ := published_taken towering hf
    (Worker.create ⟨"s", "g", "c", Span.ofSeconds 60, 10000⟩ .log ⟨0, []⟩) "1-0"
  rw [if_neg towering_deep] at htaken hdecoded
  exact ⟨hf, htaken, hdecoded⟩

theorem towering_lost : ¬ ∃ t, decodeFields towering.encodeFields = .ok t ∧
    t.id = towering.id ∧ t.timeoutSeconds = towering.timeoutSeconds := by
  rintro ⟨t, ht, -⟩
  rw [decodeFields_encodeFields, ofBytes_toBytes_eq towering (plain_finite _ (tower_plain 127)),
    if_neg towering_deep] at ht
  cases ht

end Task

end TaskRelay
