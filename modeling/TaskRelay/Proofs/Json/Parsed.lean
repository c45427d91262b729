import TaskRelay.Proofs.Json.Tokens

/-!
# Written values read and passed over

Every written value is read up to its last byte or refused, and where it stands for a value
within the depth of the reader, it is read as that. Passing over it takes it up to its last byte
whatever it holds and however deep it is. Both inductions are on the written value; the reader's
steps are bounded by twice its length, since an item takes two of them and has a byte and a
comma or bracket.
-/

set_option autoImplicit false

namespace TaskRelay.Json

section
variable {α β : Type} {p : Except Fault (Front α)} {s rest : Bytes} {W : α → Prop}

def Reads (p : Except Fault (Front α)) (rest : Bytes) (W : α → Prop) : Prop :=
  ∃ r : Except Fault α, p = r.map (·, rest) ∧ ∀ a, W a → r = .ok a

theorem Reads.ok (h : Reads p rest W) {a : α} (ha : W a) : p = .ok (a, rest) := by
  obtain ⟨r, rfl, hr⟩ := h
  rw [hr a ha]
  rfl

theorem Reads.done_or_refused (h : Reads p rest W) :
    (∃ a, p = .ok (a, rest)) ∨ ∃ f, p = .error f := by
  obtain ⟨r, rfl, -⟩ := h
  cases r with
  | ok a => exact Or.inl ⟨a, rfl⟩
  | error f => exact Or.inr ⟨f, rfl⟩

theorem Reads.imp {V : α → Prop} (h : Reads p rest W) (hi : ∀ a, V a → W a) : Reads p rest V := by
  obtain ⟨r, hp, hr⟩ := h
  exact ⟨r, hp, fun a ha => hr a (hi a ha)⟩

theorem reads_ok {a : α} (hW : ∀ b, W b → b = a) : Reads (.ok (a, rest)) rest W :=
  ⟨.ok a, rfl, fun b hb => by rw [hW b hb]⟩

theorem reads_error {f : Fault} (hW : ∀ a, ¬W a) : Reads (.error f) rest W :=
  ⟨.error f, rfl, fun a ha => absurd ha (hW a)⟩

theorem Reads.bind {V : α → β → Prop} {f : Front α → Except Fault (Front β)} (h : Reads p s W)
    (hf : ∀ a, Reads (f (a, s)) rest (V a)) :
    Reads (p.bind f) rest fun b => ∃ a, W a ∧ V a b := by
  obtain ⟨r, rfl, hr⟩ := h
  cases r with
  | error e =>
    refine reads_error ?_
    rintro b ⟨a, ha, -⟩
    cases hr a ha
  | ok a =>
    refine (hf a).imp ?_
    rintro b ⟨a', ha, hb⟩
    cases hr a' ha
    exact hb

theorem Reads.map (h : Reads p rest W) (g : α → β) :
    Reads (p.map fun q => (g q.1, q.2)) rest fun b => ∃ a, W a ∧ b = g a := by
  obtain ⟨r, rfl, hr⟩ := h
  refine ⟨r.map g, by cases r <;> rfl, ?_⟩
  rintro b ⟨a, ha, rfl⟩
  rw [hr a ha]
  rfl

end

structure Token (w : Written) (b : UInt8) (s : Bytes) : Prop where
  written : bytes w.chars = b :: s
  starts : Starts b
  bracket : b ≠ 0x5B
  brace : b ≠ 0x7B
  reads {rest : Bytes} (h : Clear rest) : Reads (scalar b (s ++ rest)) rest fun v =>
    w.value? = some v
  skips {rest : Bytes} (h : Clear rest) : skipScalar b (s ++ rest) = .ok rest

theorem token_null : Token .null 0x6E afterN where
  written := by decide
  starts := by constructor <;> decide
  bracket := by decide
  brace := by decide
  reads _ := reads_ok fun _ hv => (Option.some.inj hv).symm
  skips _ := rfl

theorem token_bool (b : Bool) : Token (.bool b) (if b then 0x74 else 0x66)
    (if b then afterT else afterF) := by
  cases b <;> exact
    { written := by decide
      starts := by constructor <;> decide
      bracket := by decide
      brace := by decide
      reads := fun _ => reads_ok fun _ hv => (Option.some.inj hv).symm
      skips := fun _ => rfl }

theorem token_text (ps : List Piece) : Token (.text ps) 0x22 (bytes (pieceChars ps) ++ [0x22]) where
  written := by
    rw [Written.chars, bytes_cons, bytes_append]
    rfl
  starts := starts_quote
  bracket := by decide
  brace := by decide
  reads {rest} _ := by
    rw [List.append_assoc, List.singleton_append]
    change Reads ((string _).map fun p => (Json.text p.1, p.2)) rest _
    rw [string_pieces, Written.value?]
    cases content? ps with
    | none => exact reads_error nofun
    | some cs => exact reads_ok fun _ hv => (Option.some.inj hv).symm
  skips {rest} _ := by
    rw [List.append_assoc, List.singleton_append]
    exact skipString_pieces ps rest _ (by rw [List.length_append]; omega)

theorem token_number (n : Numeric) :
    ∃ b s, Token (.number n) b s ∧ (b = 0x2D ∨ (digit? b).isSome = true) := by
  obtain ⟨b, s, hw, hb, hread⟩ := n.scalar_chars
  obtain ⟨hs, hl, ho⟩ := starts_number hb
  exact ⟨b, s, ⟨hw, hs, hl, ho, fun h => ⟨_, (hread h).1, fun v hv => n.value_numeral hv⟩,
    fun h => (hread h).2⟩, hb⟩

/-- Every written value that is no container is a token. -/
theorem exists_token (w : Written) :
    (∃ b s, Token w b s) ∨ (∃ items close, w = .list items close) ∨
      ∃ members close, w = .object members close := by
  cases w with
  | null => exact Or.inl ⟨_, _, token_null⟩
  | bool b => exact Or.inl ⟨_, _, token_bool b⟩
  | number n =>
    obtain ⟨b, s, ht, -⟩ := token_number n
    exact Or.inl ⟨b, s, ht⟩
  | text ps => exact Or.inl ⟨_, _, token_text ps⟩
  | list items close => exact Or.inr (Or.inl ⟨items, close, rfl⟩)
  | object members close => exact Or.inr (Or.inr ⟨members, close, rfl⟩)

theorem bytes_list_written (items : List (Slot × Written)) (close : Gap) :
    bytes (Written.chars (.list items close)) =
      0x5B :: (bytes (Written.itemChars true items) ++ (bytes (gapChars close) ++ [0x5D])) := by
  rw [Written.chars, bytes_cons, bytes_append, bytes_append]
  rfl

theorem bytes_object_written (members : List (Label × Written)) (close : Gap) :
    bytes (Written.chars (.object members close)) =
      0x7B :: (bytes (Written.memberChars true members) ++ (bytes (gapChars close) ++ [0x7D])) := by
  rw [Written.chars, bytes_cons, bytes_append, bytes_append]
  rfl

theorem Written.start (w : Written) : ∃ b s, bytes w.chars = b :: s ∧ Starts b := by
  rcases exists_token w with ⟨b, s, ht⟩ | ⟨items, close, rfl⟩ | ⟨members, close, rfl⟩
  · exact ⟨b, s, ht.written, ht.starts⟩
  · exact ⟨_, _, bytes_list_written items close, by constructor <;> decide⟩
  · exact ⟨_, _, bytes_object_written members close, by constructor <;> decide⟩

theorem Written.length_pos (w : Written) : 0 < (bytes w.chars).length := by
  obtain ⟨b, s, hb, -⟩ := w.start
  rw [hb]
  exact Nat.succ_pos _

theorem bytes_slot (l : Slot) (first : Bool) (s : Bytes) :
    bytes (l.chars first) ++ s =
      bytes (gapChars l.before) ++ (lead first ++ (bytes (gapChars l.lead) ++ s)) := by
  rw [Slot.chars, bytes_append, bytes_append, List.append_assoc, List.append_assoc]
  cases first <;> rfl

theorem opening_slot (l : Slot) {close b : UInt8} (hb : Starts b)
    (hc : close = 0x5D ∨ close = 0x7D) (first : Bool) (s : Bytes) :
    opening close first (bytes (l.chars first) ++ b :: s) = .ok (.item (b :: s)) := by
  have hne : b ≠ close ∧ (0x2C : UInt8) ≠ close := by
    rcases hc with rfl | rfl
    · exact ⟨hb.bracket, by decide⟩
    · exact ⟨hb.brace, by decide⟩
  rw [bytes_slot, opening_gap]
  cases first with
  | true =>
    change opening close true (bytes (gapChars l.lead) ++ b :: s) = _
    rw [opening_gap]
    exact opening_first hb.dark hne.1 s
  | false =>
    have hn : next (0x2C :: (bytes (gapChars l.lead) ++ b :: s)) =
        .ok (0x2C, bytes (gapChars l.lead) ++ b :: s) := next_dark rfl _
    change opening close false (0x2C :: (bytes (gapChars l.lead) ++ b :: s)) = _
    simp [opening, hn, next_gap, next_dark hb.dark, hne.1, hne.2, bind, Except.bind]

theorem opening_end (mark : UInt8) (hm : isBlank mark = false) (close : Gap) (first : Bool)
    (s : Bytes) :
    opening mark first (bytes (gapChars close) ++ mark :: s) = .ok (.closed s) := by
  rw [opening_gap]
  exact opening_closed hm first s

theorem bytes_itemChars (first : Bool) (l : Slot) (w : Written) (ws : List (Slot × Written))
    (s : Bytes) :
    bytes (Written.itemChars first ((l, w) :: ws)) ++ s =
      bytes (l.chars first) ++ (bytes w.chars ++ (bytes (Written.itemChars false ws) ++ s)) := by
  rw [Written.itemChars, bytes_append, bytes_append, List.append_assoc, List.append_assoc]

theorem bytes_memberChars (first : Bool) (l : Label) (w : Written) (ms : List (Label × Written))
    (s : Bytes) :
    bytes (Written.memberChars first ((l, w) :: ms)) ++ s =
      bytes (l.chars first) ++ (bytes w.chars ++ (bytes (Written.memberChars false ms) ++ s)) := by
  rw [Written.memberChars, bytes_append, bytes_append, List.append_assoc, List.append_assoc]

theorem clear_comma (s : Bytes) : Clear (0x2C :: s) := (Ends.comma s).clear

theorem clear_slot (l : Slot) (s : Bytes) : Clear (bytes (l.chars false) ++ s) := by
  rw [bytes_slot]
  exact clear_gap _ (clear_comma _)

theorem clear_items (ws : List (Slot × Written)) (close : Gap) (rest : Bytes) :
    Clear (bytes (Written.itemChars false ws) ++ (bytes (gapChars close) ++ 0x5D :: rest)) := by
  cases ws with
  | nil => exact clear_gap close (Ends.bracket rest).clear
  | cons p ws =>
    rw [bytes_itemChars]
    exact clear_slot _ _

/-- A label: the place of the member, its name in quotes, and a colon. -/
theorem bytes_label (l : Label) (first : Bool) (s : Bytes) :
    bytes (l.chars first) ++ s =
      bytes (l.slot.chars first) ++ 0x22 :: (bytes (pieceChars l.name) ++
        0x22 :: (bytes (gapChars l.beforeColon) ++
          0x3A :: (bytes (gapChars l.afterColon) ++ s))) := by
  simp only [Label.chars, Label.nameChars, bytes_append, bytes_cons, bytes_nil, List.append_assoc]
  rfl

theorem clear_members (ms : List (Label × Written)) (close : Gap) (rest : Bytes) :
    Clear (bytes (Written.memberChars false ms) ++ (bytes (gapChars close) ++ 0x7D :: rest)) := by
  cases ms with
  | nil => exact clear_gap close (Ends.brace rest).clear
  | cons p ms =>
    rw [bytes_memberChars, bytes_label]
    exact clear_slot _ _

theorem memberName_pieces (ps : List Piece) (g : Gap) (rest : Bytes) :
    memberName (0x22 :: (bytes (pieceChars ps) ++ 0x22 :: (bytes (gapChars g) ++ 0x3A :: rest))) =
      (orMalformed (content? ps)).map fun cs => (String.ofList cs, rest) := by
  simp only [memberName, string_pieces, bind, Except.bind]
  cases content? ps with
  | none => rfl
  | some cs => simp only [orMalformed, Except.map, colon_gap]

theorem valueWithin_gap (fuel depth : Nat) (g : Gap) (s : Bytes) :
    valueWithin fuel depth (bytes (gapChars g) ++ s) = valueWithin fuel depth s := by
  cases fuel with
  | zero => rw [valueWithin, valueWithin]
  | succ fuel => rw [valueWithin, valueWithin, next_gap]

mutual

theorem valueWithin_written (w : Written) (fuel depth : Nat) {rest : Bytes}
    (hf : 2 * (bytes w.chars).length ≤ fuel) (hr : Clear rest) :
    Reads (valueWithin fuel depth (bytes w.chars ++ rest)) rest fun v =>
      w.value? = some v ∧ w.nesting ≤ depth := by
  have hpos := w.length_pos
  obtain ⟨fuel, rfl⟩ : ∃ n, fuel = n + 1 := ⟨fuel - 1, by omega⟩
  have token {b : UInt8} {s : Bytes} (ht : Token w b s) :
      Reads (valueWithin (fuel + 1) depth (bytes w.chars ++ rest)) rest fun v =>
        w.value? = some v ∧ w.nesting ≤ depth := by
    rw [ht.written, List.cons_append, valueWithin_scalar ht.starts.dark ht.bracket ht.brace]
    exact (ht.reads hr).imp fun v hv => hv.1
  cases w with
  | null => exact token token_null
  | bool b => exact token (token_bool b)
  | number n =>
    obtain ⟨b, s, ht, -⟩ := token_number n
    exact token ht
  | text ps => exact token (token_text ps)
  | list items close =>
    rw [bytes_list_written, List.length_cons, List.length_append] at hf
    rw [bytes_list_written, List.cons_append, List.append_assoc, List.append_assoc,
      List.singleton_append]
    cases depth with
    | zero => exact reads_error fun v hv => absurd hv.2 (Nat.not_succ_le_zero _)
    | succ depth =>
      have hi := itemsWithin_written items fuel depth true close rest (by omega)
      rw [valueWithin_list]
      refine (hi.map Json.list).imp ?_
      rintro v ⟨hv, hn⟩
      obtain ⟨vs, hvs, rfl⟩ := Option.map_eq_some_iff.mp hv
      exact ⟨vs, ⟨hvs, Nat.le_of_succ_le_succ hn⟩, rfl⟩
  | object members close =>
    rw [bytes_object_written, List.length_cons, List.length_append] at hf
    rw [bytes_object_written, List.cons_append, List.append_assoc, List.append_assoc,
      List.singleton_append]
    cases depth with
    | zero => exact reads_error fun v hv => absurd hv.2 (Nat.not_succ_le_zero _)
    | succ depth =>
      have hm := membersWithin_written members fuel depth true [] close rest (by omega)
      rw [valueWithin_object]
      refine (hm.map Json.object).imp ?_
      rintro v ⟨hv, hn⟩
      obtain ⟨vs, hvs, rfl⟩ := Option.map_eq_some_iff.mp hv
      exact ⟨vs, ⟨hvs, Nat.le_of_succ_le_succ hn⟩, rfl⟩

theorem itemsWithin_written (ws : List (Slot × Written)) (fuel depth : Nat) (first : Bool)
    (close : Gap) (rest : Bytes)
    (hf : 2 * (bytes (Written.itemChars first ws)).length + 1 ≤ fuel) :
    Reads (itemsWithin fuel depth first
      (bytes (Written.itemChars first ws) ++ (bytes (gapChars close) ++ 0x5D :: rest))) rest
      fun vs => Written.items? ws = some vs ∧ Written.itemsNesting ws ≤ depth := by
  obtain ⟨fuel, rfl⟩ : ∃ n, fuel = n + 1 := ⟨fuel - 1, by omega⟩
  cases ws with
  | nil =>
    rw [Written.itemChars, bytes_nil, List.nil_append, itemsWithin,
      opening_end 0x5D rfl]
    exact reads_ok fun vs hv => (Option.some.inj hv.1).symm
  | cons p ws =>
    obtain ⟨l, w⟩ := p
    have hl := congrArg List.length (bytes_itemChars first l w ws [])
    simp only [List.append_nil, List.length_append] at hl
    have hpos := w.length_pos
    obtain ⟨b, s, hb, hs⟩ := w.start
    have hw := valueWithin_written w fuel depth (by omega) (clear_items ws close rest)
    have ht := itemsWithin_written ws fuel depth false close rest (by omega)
    rw [bytes_itemChars, hb, List.cons_append,
      itemsWithin_item (opening_slot l hs (Or.inl rfl) first _), ← List.cons_append, ← hb]
    refine (hw.bind fun v => ht.map (v :: ·)).imp ?_
    rintro vs ⟨hvs, hn⟩
    obtain ⟨v, hv, hvs⟩ := Option.bind_eq_some_iff.mp hvs
    obtain ⟨us, hus, rfl⟩ := Option.map_eq_some_iff.mp hvs
    have hn := Nat.max_le.mp hn
    exact ⟨v, ⟨hv, hn.1⟩, us, ⟨hus, hn.2⟩, rfl⟩

theorem membersWithin_written (ms : List (Label × Written)) (fuel depth : Nat) (first : Bool)
    (front : Table String Json) (close : Gap) (rest : Bytes)
    (hf : 2 * (bytes (Written.memberChars first ms)).length + 1 ≤ fuel) :
    Reads (membersWithin fuel depth first front
      (bytes (Written.memberChars first ms) ++ (bytes (gapChars close) ++ 0x7D :: rest))) rest
      fun t => Written.members? front ms = some t ∧ Written.membersNesting ms ≤ depth := by
  obtain ⟨fuel, rfl⟩ : ∃ n, fuel = n + 1 := ⟨fuel - 1, by omega⟩
  cases ms with
  | nil =>
    rw [Written.memberChars, bytes_nil, List.nil_append, membersWithin,
      opening_end 0x7D rfl]
    exact reads_ok fun t ht => (Option.some.inj ht.1).symm
  | cons p ms =>
    obtain ⟨l, w⟩ := p
    have hl := congrArg List.length (bytes_memberChars first l w ms [])
    simp only [List.append_nil, List.length_append] at hl
    have hpos := w.length_pos
    have hw := valueWithin_written w fuel depth (by omega) (clear_members ms close rest)
    have ho (s : Bytes) := opening_slot l.slot starts_quote (Or.inr rfl) first s
    rw [bytes_memberChars, bytes_label, membersWithin_member (ho _), memberName_pieces]
    cases hk : content? l.name with
    | none =>
      refine reads_error ?_
      rintro t ⟨ht, -⟩
      rw [Written.members?, Label.name?, hk] at ht
      cases ht
    | some k =>
      have hm (v : Json) := membersWithin_written ms fuel depth false
        (Table.insert (String.ofList k) v front) close rest (by omega)
      change Reads ((valueWithin fuel depth (bytes (gapChars l.afterColon) ++ _)).bind _) rest _
      rw [valueWithin_gap]
      refine (hw.bind fun v => hm v).imp ?_
      rintro t ⟨ht, hn⟩
      rw [Written.members?, Label.name?, hk] at ht
      change w.value?.bind _ = _ at ht
      obtain ⟨v, hv, ht⟩ := Option.bind_eq_some_iff.mp ht
      have hn := Nat.max_le.mp hn
      exact ⟨v, ⟨hv, hn.1⟩, ht, hn.2⟩

end

theorem value_written (w : Written) (g : Gap) (depth : Nat) {rest : Bytes} (hr : Clear rest) :
    Reads (value depth (bytes (gapChars g) ++ (bytes w.chars ++ rest))) rest fun v =>
      w.value? = some v ∧ w.nesting ≤ depth := by
  rw [value, valueWithin_gap]
  apply valueWithin_written w _ _ _ hr
  rw [List.length_append, List.length_append]
  omega

mutual

def Written.steps : Written → Nat
  | .list items _ => itemSteps items + 2
  | .object members _ => memberSteps members + 2
  | _ => 1

def Written.itemSteps : List (Slot × Written) → Nat
  | [] => 0
  | (_, w) :: ws => steps w + 1 + itemSteps ws

def Written.memberSteps : List (Label × Written) → Nat
  | [] => 0
  | (_, w) :: ms => steps w + 2 + memberSteps ms

end

mutual

theorem Written.steps_le (w : Written) : w.steps ≤ 2 * (bytes w.chars).length := by
  have hpos := w.length_pos
  cases w with
  | list items close =>
    have hi := itemSteps_le items true
    rw [Bool.toNat_true] at hi
    rw [bytes_list_written, List.length_cons, List.length_append, List.length_append,
      List.length_singleton, steps]
    omega
  | object members close =>
    have hm := memberSteps_le members true
    rw [bytes_object_written, List.length_cons, List.length_append, List.length_append,
      List.length_singleton, steps]
    omega
  | _ =>
    rw [steps]
    · omega
    all_goals nofun

theorem Written.itemSteps_le (ws : List (Slot × Written)) (first : Bool) :
    itemSteps ws ≤ 2 * (bytes (itemChars first ws)).length + first.toNat := by
  cases ws with
  | nil => exact Nat.zero_le _
  | cons p ws =>
    obtain ⟨l, w⟩ := p
    have hl := congrArg List.length (bytes_itemChars first l w ws [])
    simp only [List.append_nil, List.length_append] at hl
    have hlead := congrArg List.length (bytes_slot l first [])
    simp only [List.append_nil, List.length_append] at hlead
    have hf : 1 ≤ (lead first).length + first.toNat := by cases first <;> decide
    have hw := w.steps_le
    have ht := itemSteps_le ws false
    rw [Bool.toNat_false] at ht
    rw [itemSteps]
    omega

theorem Written.memberSteps_le (ms : List (Label × Written)) (first : Bool) :
    memberSteps ms ≤ 2 * (bytes (memberChars first ms)).length := by
  cases ms with
  | nil => exact Nat.zero_le _
  | cons p ms =>
    obtain ⟨l, w⟩ := p
    have hl := congrArg List.length (bytes_memberChars first l w ms [])
    simp only [List.append_nil, List.length_append] at hl
    have hlabel := congrArg List.length (bytes_label l first [])
    simp only [List.append_nil, List.length_append, List.length_cons] at hlabel
    have hw := w.steps_le
    have ht := memberSteps_le ms false
    rw [memberSteps]
    omega

end

def stage (first : Bool) : SkipStage := if first then .firstItem else .ended

theorem skipWithin_gap (fuel : Nat) {st : SkipStage} (hs : st = .value ∨ st = .name)
    (closers : List UInt8) (g : Gap) (s : Bytes) :
    skipWithin fuel st closers (bytes (gapChars g) ++ s) = skipWithin fuel st closers s := by
  cases fuel with
  | zero => rw [skipWithin, skipWithin]
  | succ fuel => rcases hs with rfl | rfl <;> rw [skipWithin, skipWithin, next_gap]

theorem inside_eq (close : UInt8) :
    SkipStage.inside close = .value ∨ SkipStage.inside close = .name := by
  unfold SkipStage.inside
  split
  · exact Or.inr rfl
  · exact Or.inl rfl

theorem skipWithin_slot (l : Slot) {close b : UInt8} (hb : Starts b)
    (hc : close = 0x5D ∨ close = 0x7D) (first : Bool) (fuel : Nat) (outer : List UInt8)
    (s : Bytes) :
    skipWithin (fuel + 1) (stage first) (close :: outer) (bytes (l.chars first) ++ b :: s) =
      skipWithin fuel (.inside close) (close :: outer) (b :: s) := by
  have hne : b ≠ close ∧ (0x2C : UInt8) ≠ close := by
    rcases hc with rfl | rfl
    · exact ⟨hb.bracket, by decide⟩
    · exact ⟨hb.brace, by decide⟩
  rw [bytes_slot]
  cases first with
  | true =>
    change skipWithin (fuel + 1) .firstItem _ (_ ++ (bytes (gapChars l.lead) ++ b :: s)) = _
    simp only [skipWithin, next_gap, next_dark hb.dark, bind, Except.bind, if_neg hne.1]
  | false =>
    have hn : next (0x2C :: (bytes (gapChars l.lead) ++ b :: s)) =
        .ok (0x2C, bytes (gapChars l.lead) ++ b :: s) := next_dark rfl _
    change skipWithin (fuel + 1) .ended _ (_ ++ 0x2C :: (bytes (gapChars l.lead) ++ b :: s)) = _
    simp only [skipWithin, next_gap, hn, bind, Except.bind, if_neg hne.2, ne_eq,
      not_true_eq_false, if_false]
    exact skipWithin_gap fuel (inside_eq close) _ _ _

theorem skipWithin_end (g : Gap) {close : UInt8} (hc : isBlank close = false) (first : Bool)
    (fuel : Nat) (outer : List UInt8) (s : Bytes) :
    skipWithin (fuel + 1) (stage first) (close :: outer) (bytes (gapChars g) ++ close :: s) =
      skipWithin fuel .ended outer s := by
  cases first <;>
    simp only [stage, Bool.false_eq_true, if_true, if_false, skipWithin, next_gap, next_dark hc,
      bind, Except.bind]

mutual

theorem skipWithin_written (w : Written) (fuel : Nat) (closers : List UInt8) {rest : Bytes}
    (hr : Clear rest) :
    skipWithin (fuel + w.steps) .value closers (bytes w.chars ++ rest) =
      skipWithin fuel .ended closers rest := by
  have token {b : UInt8} {s : Bytes} (ht : Token w b s) :
      skipWithin (fuel + 1) .value closers (bytes w.chars ++ rest) =
        skipWithin fuel .ended closers rest := by
    rw [ht.written, List.cons_append, skipWithin, next_dark ht.starts.dark]
    simp only [bind, Except.bind, if_neg ht.bracket, if_neg ht.brace, ht.skips hr]
  cases w with
  | null => exact token token_null
  | bool b => exact token (token_bool b)
  | number n =>
    obtain ⟨b, s, ht, -⟩ := token_number n
    exact token ht
  | text ps => exact token (token_text ps)
  | list items close =>
    rw [bytes_list_written, List.cons_append, List.append_assoc, List.append_assoc,
      List.singleton_append, Written.steps, ← Nat.add_assoc, skipWithin, next_dark rfl]
    exact skipWithin_items items fuel closers true close rest
  | object members close =>
    rw [bytes_object_written, List.cons_append, List.append_assoc, List.append_assoc,
      List.singleton_append, Written.steps, ← Nat.add_assoc, skipWithin, next_dark rfl]
    exact skipWithin_members members fuel closers true close rest

theorem skipWithin_items (ws : List (Slot × Written)) (fuel : Nat) (closers : List UInt8)
    (first : Bool) (close : Gap) (rest : Bytes) :
    skipWithin (fuel + Written.itemSteps ws + 1) (stage first) (0x5D :: closers)
        (bytes (Written.itemChars first ws) ++ (bytes (gapChars close) ++ 0x5D :: rest)) =
      skipWithin fuel .ended closers rest := by
  cases ws with
  | nil => exact skipWithin_end close rfl first fuel closers rest
  | cons p ws =>
    obtain ⟨l, w⟩ := p
    obtain ⟨b, s, hb, hs⟩ := w.start
    have hfuel : fuel + Written.itemSteps ((l, w) :: ws) =
        fuel + Written.itemSteps ws + 1 + w.steps := by
      rw [Written.itemSteps]
      omega
    rw [bytes_itemChars, hb, List.cons_append, skipWithin_slot l hs (Or.inl rfl) first,
      ← List.cons_append, ← hb, hfuel]
    change skipWithin _ .value _ _ = _
    rw [skipWithin_written w _ _ (clear_items ws close rest)]
    exact skipWithin_items ws fuel closers false close rest

theorem skipWithin_members (ms : List (Label × Written)) (fuel : Nat) (closers : List UInt8)
    (first : Bool) (close : Gap) (rest : Bytes) :
    skipWithin (fuel + Written.memberSteps ms + 1) (stage first) (0x7D :: closers)
        (bytes (Written.memberChars first ms) ++ (bytes (gapChars close) ++ 0x7D :: rest)) =
      skipWithin fuel .ended closers rest := by
  cases ms with
  | nil => exact skipWithin_end close rfl first fuel closers rest
  | cons p ms =>
    obtain ⟨l, w⟩ := p
    have hfuel : fuel + Written.memberSteps ((l, w) :: ms) =
        fuel + Written.memberSteps ms + 1 + w.steps + 1 := by
      rw [Written.memberSteps]
      omega
    have hn (s : Bytes) : skipString ((bytes (pieceChars l.name) ++ 0x22 :: s).length + 1)
        (bytes (pieceChars l.name) ++ 0x22 :: s) = .ok s :=
      skipString_pieces l.name s _ (by rw [List.length_append]; omega)
    rw [bytes_memberChars, bytes_label, skipWithin_slot l.slot starts_quote (Or.inr rfl) first,
      hfuel]
    change skipWithin _ .name _ _ = _
    rw [skipWithin, next_dark rfl]
    simp only [bind, Except.bind, ne_eq, not_true_eq_false, if_false, hn, colon_gap]
    rw [skipWithin_gap _ (Or.inl rfl), skipWithin_written w _ _ (clear_members ms close rest)]
    exact skipWithin_members ms fuel closers false close rest

end

/-- Any written value is passed over up to its end, behind blanks as well. -/
theorem skipValue_written (w : Written) (g : Gap) {rest : Bytes} (hr : Clear rest) :
    skipValue (bytes (gapChars g) ++ (bytes w.chars ++ rest)) = .ok rest := by
  have hs := w.steps_le
  obtain ⟨fuel, hf⟩ : ∃ fuel, 2 * (bytes (gapChars g) ++ (bytes w.chars ++ rest)).length + 2 =
      fuel + 1 + w.steps := by
    rw [List.length_append, List.length_append]
    exact ⟨2 * ((bytes (gapChars g)).length + ((bytes w.chars).length + rest.length)) + 1 -
      w.steps, by omega⟩
  rw [skipValue, hf, skipWithin_gap _ (Or.inl rfl), skipWithin_written w _ _ hr, skipWithin]

end TaskRelay.Json
