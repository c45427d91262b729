import TaskRelay.Proofs.Json.Records
import TaskRelay.Proofs.Task.Identifier
import TaskRelay.Task

/-!
# Tasks read from any object

Other producers write the members of a task in an order of their own, with blanks and escapes of
their own, and among members that mean nothing here. A task is read from every such object if
none of its three members comes twice, and what is absent takes its default. An object in which
one of them comes twice is refused, whatever it holds otherwise.
-/

set_option autoImplicit false

namespace TaskRelay

namespace Json

section
variable {α : Type} {W : α → Prop}

theorem mistyped_error (s : Bytes) : ∃ f, (mistyped s : Except Fault α) = .error f := by
  rw [mistyped]
  cases next s with
  | error f => exact ⟨f, rfl⟩
  | ok p =>
    obtain ⟨b, t⟩ := p
    by_cases hb : b = 0x5B ∨ b = 0x7B
    · exact ⟨.mistyped, if_pos hb⟩
    · cases hs : scalar b t with
      | error f => exact ⟨f, by simp only [bind, Except.bind, if_neg hb, hs]⟩
      | ok p => exact ⟨.mistyped, by simp only [bind, Except.bind, if_neg hb, hs]⟩

theorem reads_mistyped (s rest : Bytes) (hW : ∀ a, ¬W a) : Reads (mistyped s) rest W := by
  obtain ⟨f, hf⟩ := mistyped_error (α := Front α) s
  rw [hf]
  exact reads_error hW

end

structure Begins (w : Written) (b : UInt8) : Prop where
  dark : isBlank b = false
  text : b = 0x22 ↔ ∃ ps, w = .text ps
  null : b = 0x6E ↔ w = .null
  number : (b = 0x2D ∨ (digit? b).isSome = true) ↔ ∃ n, w = .number n

theorem Written.begins (w : Written) : ∃ b s, bytes w.chars = b :: s ∧ Begins w b := by
  cases w with
  | null => exact ⟨_, _, token_null.written, by constructor <;> simp [isBlank, digit?]⟩
  | bool b =>
    refine ⟨_, _, (token_bool b).written, ?_⟩
    cases b <;> constructor <;> simp [isBlank, digit?]
  | number n =>
    obtain ⟨b, s, ht, hb⟩ := token_number n
    have hne (x : UInt8) (hm : x ≠ 0x2D) (hx : (digit? x).isSome = false) : b ≠ x := by
      rcases hb with rfl | hb
      · exact hm.symm
      · exact digit_ne hb hx
    refine ⟨b, s, ht.written, ht.starts.dark, ?_, ?_, ?_⟩
    · simpa using hne 0x22 (by decide) rfl
    · simpa using hne 0x6E (by decide) rfl
    · exact ⟨fun _ => ⟨n, rfl⟩, fun _ => hb⟩
  | text ps => exact ⟨_, _, (token_text ps).written, by constructor <;> simp [isBlank, digit?]⟩
  | list items close =>
    exact ⟨_, _, bytes_list_written items close, by constructor <;> simp [isBlank, digit?]⟩
  | object members close =>
    exact ⟨_, _, bytes_object_written members close, by constructor <;> simp [isBlank, digit?]⟩

theorem Numeric.value_kind {n : Numeric} {v : Json} (h : n.value? = some v) :
    (∃ x, v = .real x) ∨ ∃ m, v = .whole m := by
  unfold Numeric.value? at h
  split at h
  · split at h
    · split at h
      · cases h
        exact Or.inl ⟨_, rfl⟩
      · split at h
        · cases h
          exact Or.inr ⟨_, rfl⟩
        · cases h
    · split at h
      · cases h
        exact Or.inr ⟨_, rfl⟩
      · cases h
  · cases h

structure Kinds (w : Written) (v : Json) : Prop where
  text : ∀ t, v = .text t → ∃ ps, w = .text ps
  whole : ∀ m, v = .whole m → ∃ n, w = .number n
  null : v = .null → w = .null

theorem Written.kinds {w : Written} {v : Json} (h : w.value? = some v) : Kinds w v := by
  cases w with
  | null =>
    cases h
    constructor <;> simp
  | bool b =>
    cases h
    constructor <;> simp
  | number n =>
    rcases Numeric.value_kind h with ⟨x, rfl⟩ | ⟨m, rfl⟩
    · constructor <;> simp
    · constructor <;> simp
  | text ps =>
    obtain ⟨cs, -, rfl⟩ := Option.map_eq_some_iff.mp h
    constructor <;> simp
  | list items close =>
    obtain ⟨vs, -, rfl⟩ := Option.map_eq_some_iff.mp h
    constructor <;> simp
  | object members close =>
    obtain ⟨t, -, rfl⟩ := Option.map_eq_some_iff.mp h
    constructor <;> simp

section
variable {b : UInt8} {s rest : Bytes} (w : Written) (g : Gap)

theorem next_written {w : Written} (hw : bytes w.chars = b :: s) (hb : Begins w b) :
    next (bytes (gapChars g) ++ (bytes w.chars ++ rest)) = .ok (b, s ++ rest) := by
  rw [next_gap, hw, List.cons_append, next_dark hb.dark]

theorem readText_written :
    Reads (readText (bytes (gapChars g) ++ (bytes w.chars ++ rest))) rest fun t =>
      w.value? = some (.text t) := by
  obtain ⟨b, s, hw, hb⟩ := w.begins
  rw [readText]
  simp only [next_written g hw hb, bind, Except.bind]
  by_cases h : b = 0x22
  · obtain ⟨ps, rfl⟩ := hb.text.mp h
    rw [(token_text ps).written] at hw
    obtain ⟨-, rfl⟩ := List.cons.inj hw
    rw [if_pos h, List.append_assoc, List.singleton_append, string_pieces, Written.value?]
    cases content? ps with
    | none => exact reads_error (by simp)
    | some cs =>
      refine reads_ok fun t ht => ?_
      cases ht
      rfl
  · rw [if_neg h]
    exact reads_mistyped _ _ fun t ht => h (hb.text.mpr ((Written.kinds ht).text t rfl))

theorem readUuid_written :
    Reads (readUuid (bytes (gapChars g) ++ (bytes w.chars ++ rest))) rest fun u =>
      ∃ t, w.value? = some (.text t) ∧ Uuid.Spells u t.toList := by
  rw [readUuid]
  refine (readText_written w g).bind fun t => ?_
  dsimp only
  cases hp : Uuid.parse? t with
  | none =>
    refine reads_error fun u hu => ?_
    rw [Uuid.parse_spells_iff.mpr hu] at hp
    cases hp
  | some u =>
    refine reads_ok fun u' hu => ?_
    rw [Uuid.parse_spells_iff.mpr hu] at hp
    exact Option.some.inj hp

theorem readWhole_written (low high : Int) (hr : Clear rest) :
    Reads (readWhole low high (bytes (gapChars g) ++ (bytes w.chars ++ rest))) rest fun z =>
      ∃ m, w.value? = some (.whole m) ∧ m.value = z ∧ low ≤ z ∧ z ≤ high := by
  obtain ⟨b, s, hw, hb⟩ := w.begins
  rw [readWhole]
  simp only [next_written g hw hb, bind, Except.bind]
  by_cases h : b = 0x2D ∨ (digit? b).isSome = true
  · obtain ⟨n, rfl⟩ := hb.number.mp h
    obtain ⟨b', s', ht, -⟩ := token_number n
    rw [ht.written] at hw
    obtain ⟨rfl, rfl⟩ := List.cons.inj hw
    rw [if_pos h]
    refine ((ht.reads hr).bind (V := fun v z => ∃ m, v = .whole m ∧ m.value = z ∧ low ≤ z ∧
      z ≤ high) fun v => ?_).imp ?_
    · cases v with
      | whole m =>
        by_cases hm : low ≤ m.value ∧ m.value ≤ high
        · simp only [if_pos hm]
          refine reads_ok ?_
          rintro z ⟨m', hm', rfl, -⟩
          cases hm'
          rfl
        · simp only [if_neg hm]
          refine reads_error ?_
          rintro z ⟨m', hm', rfl, hz⟩
          cases hm'
          exact hm hz
      | _ => exact reads_error fun z ⟨m, hm, _⟩ => nomatch hm
    · rintro z ⟨m, hv, hz⟩
      exact ⟨_, hv, m, rfl, hz⟩
  · rw [if_neg h]
    refine reads_mistyped _ _ ?_
    rintro z ⟨m, hv, -⟩
    exact h (hb.number.mpr ((Written.kinds hv).whole m rfl))

theorem readUInt64_written (hr : Clear rest) :
    Reads (readUInt64 (bytes (gapChars g) ++ (bytes w.chars ++ rest))) rest fun n =>
      ∃ m, w.value? = some (.whole m) ∧ m.value = n.toNat := by
  have h := ((readWhole_written w g 0 Text.maxU64 hr).map Int.toNat).map UInt64.ofNat
  have he : readUInt64 (bytes (gapChars g) ++ (bytes w.chars ++ rest)) =
      ((readWhole 0 Text.maxU64 (bytes (gapChars g) ++ (bytes w.chars ++ rest))).map
        fun q => (q.1.toNat, q.2)).map fun q => (UInt64.ofNat q.1, q.2) := by
    rw [readUInt64, readNat]
    cases readWhole 0 Text.maxU64 (bytes (gapChars g) ++ (bytes w.chars ++ rest)) <;> rfl
  rw [he]
  refine h.imp ?_
  rintro n ⟨m, hv, hm⟩
  have hn : n.toNat < 18446744073709551616 := n.toNat_lt
  have hmax : (Text.maxU64 : Int) = 18446744073709551615 := rfl
  refine ⟨n.toNat, ⟨n.toNat, ⟨m, hv, hm, by omega, by omega⟩, rfl⟩, ?_⟩
  rw [UInt64.ofNat_toNat]

def IsLimit (w : Written) : Option UInt64 → Prop
  | none => w.value? = some .null
  | some n => ∃ m, w.value? = some (.whole m) ∧ m.value = n.toNat

theorem readLimit_written (hr : Clear rest) :
    Reads (readOption readUInt64 (bytes (gapChars g) ++ (bytes w.chars ++ rest))) rest
      (IsLimit w) := by
  obtain ⟨b, s, hw, hb⟩ := w.begins
  rw [readOption]
  simp only [next_written g hw hb, bind, Except.bind]
  by_cases h : b = 0x6E
  · obtain rfl := hb.null.mp h
    rw [token_null.written] at hw
    obtain ⟨-, rfl⟩ := List.cons.inj hw
    rw [if_pos h]
    refine reads_ok fun o ho => ?_
    cases o with
    | none => rfl
    | some n =>
      obtain ⟨m, hv, -⟩ := ho
      cases hv
  · rw [if_neg h]
    refine ((readUInt64_written w g hr).map some).imp fun o ho => ?_
    cases o with
    | none => exact absurd (hb.null.mpr ((Written.kinds ho).null rfl)) h
    | some n => exact ⟨n, ho, rfl⟩

end

end Json

namespace Task

open Json
open Json.Record (Puts Keeps Run valuesOf objectText)

def IsId (w : Written) (u : Uuid) : Prop :=
  ∃ t, w.value? = some (.text t) ∧ Uuid.Spells u t.toList

def IsBody (w : Written) (v : Json) : Prop := w.value? = some v ∧ w.nesting ≤ 126

theorem find_id : record.members.find? (·.name == "id") = some record.members[0] := rfl

theorem find_body : record.members.find? (·.name == "body") = some record.members[1] := rfl

theorem find_limit : record.members.find? (·.name == "timeout_secs") = some record.members[2] := rfl

theorem find_other {k : String} (hi : k ≠ "id") (hb : k ≠ "body") (hl : k ≠ "timeout_secs") :
    record.members.find? (·.name == k) = none := by
  simp [record, hi.symm, hb.symm, hl.symm]

theorem puts_id : Puts record.members[0] 126 IsId fun d u => { d with id := some u } := by
  apply Record.puts_of_reads readUuid
  · intro d s
    change readUuid s >>= _ = _
    cases readUuid s <;> rfl
  · exact fun w g _ _ => readUuid_written w g

theorem puts_body : Puts record.members[1] 126 IsBody fun d v => { d with body := some v } := by
  apply Record.puts_of_reads (value 126)
  · intro d s
    change value 126 s >>= _ = _
    cases value 126 s <;> rfl
  · exact fun w g _ hr => value_written w g 126 hr

theorem puts_limit :
    Puts record.members[2] 126 IsLimit fun d n => { d with timeoutSeconds := some n } := by
  apply Record.puts_of_reads (readOption readUInt64)
  · intro d s
    change readOption readUInt64 s >>= _ = _
    cases readOption readUInt64 s <;> rfl
  · exact fun w g _ hr => readLimit_written w g hr

theorem keeps_members : ∀ m ∈ record.members, Keeps record 126 m := by
  have all {P : Member Draft → Prop} (h₀ : P record.members[0]) (h₁ : P record.members[1])
      (h₂ : P record.members[2]) : ∀ m ∈ record.members, P m := by
    intro m hm
    rcases List.mem_cons.mp hm with rfl | hm
    · exact h₀
    · rcases List.mem_cons.mp hm with rfl | hm
      · exact h₁
      · exact List.mem_singleton.mp hm ▸ h₂
  refine all ?_ ?_ ?_
  · exact puts_id.keeps (fun _ _ => rfl) (all (fun _ _ _ => rfl) (fun _ _ h => h) fun _ _ h => h)
  · exact puts_body.keeps (fun _ _ => rfl) (all (fun _ _ h => h) (fun _ _ _ => rfl) fun _ _ h => h)
  · exact puts_limit.keeps (fun _ _ => rfl) (all (fun _ _ h => h) (fun _ _ h => h) fun _ _ _ => rfl)

section
variable {α : Type}

inductive Filled (W : Written → α → Prop) (default : α) : List Written → α → Prop
  | absent : Filled W default [] default
  | given {w : Written} {a : α} (h : W w a) : Filled W default [w] a

def Fills (W : Written → α → Prop) (default : α) (held : Option α) (ws : List Written)
    (a : α) : Prop :=
  match held with
  | none => Filled W default ws a
  | some b => ws = [] ∧ a = b

variable {W : Written → α → Prop} {default a : α} {held : Option α} {w : Written}
  {ws : List Written}

theorem Fills.taken (h : Fills W default held (w :: ws) a) :
    held = none ∧ W w a ∧ Fills W default (some a) ws a := by
  cases held with
  | some b => cases h.1
  | none =>
    cases h with
    | given h => exact ⟨rfl, h, rfl, rfl⟩

theorem Fills.done (h : Fills W default held [] a) : held.getD default = a := by
  cases held with
  | some b => exact h.2.symm
  | none =>
    cases h with
    | absent => rfl

end

/-- An object whose names are texts, and in which no member of a task comes twice or with a value
that is none of its own, tells a task. -/
structure Tells (ms : List (Label × Written)) (t : Task) : Prop where
  named : ∀ p ∈ ms, p.1.name? ≠ none
  id : Filled IsId Uuid.nil (valuesOf "id" ms) t.id
  body : Filled IsBody .null (valuesOf "body" ms) t.body
  limit : Filled IsLimit none (valuesOf "timeout_secs" ms) t.timeoutSeconds

structure Completes (d : Draft) (ms : List (Label × Written)) (t : Task) : Prop where
  named : ∀ p ∈ ms, p.1.name? ≠ none
  id : Fills IsId Uuid.nil d.id (valuesOf "id" ms) t.id
  body : Fills IsBody .null d.body (valuesOf "body" ms) t.body
  limit : Fills IsLimit none d.timeoutSeconds (valuesOf "timeout_secs" ms) t.timeoutSeconds

theorem Completes.run {d : Draft} {ms : List (Label × Written)} {t : Task}
    (h : Completes d ms t) : ∃ last, Run record 126 ms d last ∧ last.toTask = t := by
  induction ms generalizing d with
  | nil =>
    refine ⟨d, .nil d, ?_⟩
    rw [Draft.toTask, h.id.done, h.body.done, h.limit.done]
  | cons p ms ih =>
    obtain ⟨l, w⟩ := p
    obtain ⟨hn, hi, hb, hl⟩ := h
    obtain ⟨k, hk⟩ := Option.ne_none_iff_exists'.mp (hn _ List.mem_cons_self)
    have hn : ∀ p ∈ ms, p.1.name? ≠ none := fun p hp => hn p (List.mem_cons_of_mem _ hp)
    have other {j : String} (hj : k ≠ j) : valuesOf j ((l, w) :: ms) = valuesOf j ms := by
      apply Record.valuesOf_cons_of_ne
      rw [hk]
      exact fun he => hj (Option.some.inj he)
    by_cases hki : k = "id"
    · subst hki
      rw [Record.valuesOf_cons_self hk] at hi
      rw [other (by decide)] at hb hl
      obtain ⟨hd, hv, hi⟩ := hi.taken
      obtain ⟨last, hr, ht⟩ := ih (d := { d with id := some t.id }) ⟨hn, hi, hb, hl⟩
      exact ⟨last, puts_id.run hk find_id (congrArg Option.isSome hd) hv hr, ht⟩
    rw [other hki] at hi
    by_cases hkb : k = "body"
    · subst hkb
      rw [Record.valuesOf_cons_self hk] at hb
      rw [other (by decide)] at hl
      obtain ⟨hd, hv, hb⟩ := hb.taken
      obtain ⟨last, hr, ht⟩ := ih (d := { d with body := some t.body }) ⟨hn, hi, hb, hl⟩
      exact ⟨last, puts_body.run hk find_body (congrArg Option.isSome hd) hv hr, ht⟩
    rw [other hkb] at hb
    by_cases hkl : k = "timeout_secs"
    · subst hkl
      rw [Record.valuesOf_cons_self hk] at hl
      obtain ⟨hd, hv, hl⟩ := hl.taken
      obtain ⟨last, hr, ht⟩ :=
        ih (d := { d with timeoutSeconds := some t.timeoutSeconds }) ⟨hn, hi, hb, hl⟩
      exact ⟨last, puts_limit.run hk find_limit (congrArg Option.isSome hd) hv hr, ht⟩
    rw [other hkl] at hl
    obtain ⟨last, hr, ht⟩ := ih ⟨hn, hi, hb, hl⟩
    exact ⟨last, .unknown hk (find_other hki hkb hkl) hr, ht⟩

variable {ms : List (Label × Written)}

theorem ofBytes_object {t : Task} (h : Tells ms t) (before close after : Gap) :
    ofBytes (objectText before ms close after).toUTF8.toList = .ok t := by
  have hc : Completes record.start ms t := ⟨h.named, h.id, h.body, h.limit⟩
  obtain ⟨last, hr, rfl⟩ := hc.run
  obtain ⟨fuel, hf, hp⟩ := record.parse_objectText before ms close after
  rw [ofBytes, hp, hr.read rfl hf]
  exact Record.atEnd_gap _ after

theorem ofBytes_repeated {k : String} (hk : k ∈ ["id", "body", "timeout_secs"])
    (h : 1 < (valuesOf k ms).length) (before close after : Gap) :
    ∃ f, ofBytes (objectText before ms close after).toUTF8.toList = .error f := by
  have hm : ∃ m, record.members.find? (·.name == k) = some m := by
    simp only [List.mem_cons, List.not_mem_nil, or_false] at hk
    rcases hk with rfl | rfl | rfl
    · exact ⟨_, find_id⟩
    · exact ⟨_, find_body⟩
    · exact ⟨_, find_limit⟩
  obtain ⟨m, hm⟩ := hm
  obtain ⟨fuel, -, hp⟩ := record.parse_objectText before ms close after
  rw [ofBytes, hp]
  obtain ⟨f, hf⟩ := Record.repeated_refused hm keeps_members close (bytes (gapChars after))
    (Or.inr h)
  exact ⟨f, by rw [hf]; rfl⟩

theorem decodeFields_text {fields : Fields} {text : String}
    (hf : Table.get? bodyField fields = some text) :
    decodeFields fields = (ofBytes text.toUTF8.toList).mapError .json := by
  rw [decodeFields, hf]
  rfl

/-- A task is read from every object that tells it, with any blanks between the tokens, with its
members in any order and among any others. An object in which a member of a task comes twice is
refused. -/
theorem read_from_members (ms : List (Label × Written)) (before close after : Gap)
    (fields : Fields)
    (hf : Table.get? bodyField fields = some (objectText before ms close after)) :
    (∀ t, Tells ms t → decodeFields fields = .ok t ∧
      ofBytes (objectText before ms close after).toUTF8.toList = .ok t ∧
      ∀ (ms' : List (Label × Written)) (before' close' after' : Gap),
        (∀ p ∈ ms', p.1.name? ≠ none) →
        (∀ k ∈ ["id", "body", "timeout_secs"], valuesOf k ms' = valuesOf k ms) →
        ofBytes (objectText before' ms' close' after').toUTF8.toList = .ok t) ∧
    (∀ k ∈ ["id", "body", "timeout_secs"], 1 < (valuesOf k ms).length →
      ∃ f, ofBytes (objectText before ms close after).toUTF8.toList = .error f ∧
        decodeFields fields = .error (.json f)) := by
  rw [decodeFields_text hf]
  constructor
  · intro t h
    have hb := ofBytes_object h before close after
    refine ⟨by rw [hb]; rfl, hb, fun ms' before' close' after' hn hv => ?_⟩
    apply ofBytes_object
    refine ⟨hn, ?_, ?_, ?_⟩
    · rw [hv "id" (by decide)]
      exact h.id
    · rw [hv "body" (by decide)]
      exact h.body
    · rw [hv "timeout_secs" (by decide)]
      exact h.limit
  · intro k hk h
    obtain ⟨f, hf⟩ := ofBytes_repeated hk h before close after
    exact ⟨f, hf, by rw [hf]; rfl⟩

def labelled (name : List Piece) : Label := ⟨⟨[], [.space]⟩, name, [.tab], [.space]⟩

def half : CodeUnit :=
  ⟨hexDigitOf 'd' rfl, hexDigitOf '8' rfl, hexDigitOf '3' rfl, hexDigitOf '4' rfl⟩

def otherHalf : CodeUnit :=
  ⟨hexDigitOf 'D' rfl, hexDigitOf 'd' rfl, hexDigitOf '1' rfl, hexDigitOf 'E' rfl⟩

def letterI : CodeUnit :=
  ⟨hexDigitOf '0' rfl, hexDigitOf '0' rfl, hexDigitOf '6' rfl, hexDigitOf '9' rfl⟩

def spelledId : Written := .text (plainPieces "\x7b550E8400-e29b-41d4-a716-446655440000\x7d")

def spelledBody : Written := .object [
  (labelled (plainPieces "k"), .null),
  (labelled (plainPieces "k"), .list [
    (⟨[], []⟩, .number ⟨true, ⟨['7'], by decide, List.all_eq_true.mp rfl⟩, by decide, none, none⟩),
    (⟨[.space], [.lineFeed]⟩, .text [.unit half, .unit otherHalf, .short .slash])]
    [.carriageReturn])] []

def spelledLimit : Written :=
  .number ⟨false, ⟨"18446744073709551615".toList, by decide, List.all_eq_true.mp rfl⟩,
    by decide, none, none⟩

def mixedMembers : List (Label × Written) := [
  (labelled (plainPieces "ö"), .list [
    (⟨[], []⟩, .text [.unit half]),
    (⟨[], []⟩, .number ⟨false, ⟨['1'], by decide, List.all_eq_true.mp rfl⟩, by decide, none,
      some ⟨true, .minus, ⟨['9', '9', '9'], by decide, List.all_eq_true.mp rfl⟩⟩⟩)] []),
  (labelled (plainPieces "timeout_secs"), spelledLimit),
  (labelled (plainPieces "body"), spelledBody),
  (labelled (.unit letterI :: plainPieces "d"), spelledId),
  (labelled (plainPieces "ö"), .bool true)]

def mixedTask : Task where
  id := ⟨0x550e8400e29b41d4a716446655440000⟩
  body := .object [("k", .list [.whole ⟨-7, by decide, by decide⟩, .text "𝄞/"])]
  timeoutSeconds := some 0xFFFFFFFFFFFFFFFF

theorem mixed_tells : Tells mixedMembers mixedTask where
  named := by decide +kernel
  id := by
    have hv : valuesOf "id" mixedMembers = [spelledId] := rfl
    have hs : Uuid.DigitsOf mixedTask.id "550E8400e29b41d4a716446655440000".toList :=
      ⟨rfl, by decide +kernel⟩
    rw [hv]
    exact .given ⟨_, rfl, .braced hs⟩
  body := by
    have hv : valuesOf "body" mixedMembers = [spelledBody] := rfl
    rw [hv]
    exact .given ⟨rfl, by decide⟩
  limit := by
    have hv : valuesOf "timeout_secs" mixedMembers = [spelledLimit] := rfl
    rw [hv]
    exact .given ⟨⟨18446744073709551615, by decide, by decide⟩, rfl, rfl⟩

theorem mixed_reversed : ∀ k ∈ ["id", "body", "timeout_secs"],
    valuesOf k mixedMembers.reverse = valuesOf k mixedMembers := by
  intro k hk
  simp only [List.mem_cons, List.not_mem_nil, or_false] at hk
  rcases hk with rfl | rfl | rfl <;> rfl

theorem mixed_read :
    let text := objectText [.lineFeed] mixedMembers [] [.tab]
    let twice := objectText [] (mixedMembers ++ [(labelled (plainPieces "id"), .null)]) [] []
    decodeFields [("body", text)] = .ok mixedTask ∧ ofBytes text.toUTF8.toList = .ok mixedTask ∧
      ofBytes (objectText [] mixedMembers.reverse [] []).toUTF8.toList = .ok mixedTask ∧
      ∃ f, decodeFields [("body", twice)] = .error (.json f) := by
  intro text twice
  obtain ⟨hread, -⟩ := read_from_members mixedMembers [.lineFeed] [] [.tab] [("body", text)] rfl
  obtain ⟨-, hrep⟩ := read_from_members _ [] [] [] [("body", twice)] rfl
  obtain ⟨hd, hb, hany⟩ := hread mixedTask mixed_tells
  obtain ⟨f, -, hf⟩ := hrep "id" (by decide) (by decide +kernel)
  exact ⟨hd, hb, hany _ [] [] [] (by decide +kernel) mixed_reversed, f, hf⟩

end Task

end TaskRelay
