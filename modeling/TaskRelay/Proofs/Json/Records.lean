import TaskRelay.Json.Record
import TaskRelay.Proofs.Json.Parsed

/-!
# Records read from members in any order

One step of the reader of records takes one member: a member it knows changes what was read so
far, one it does not know leaves it, and a known one that was read already is refused whatever
its value. A whole object is such steps one after the other.
-/

set_option autoImplicit false

namespace TaskRelay.Json

structure Introduced (first : Bool) (s : Bytes) (k : String) (value : Bytes) : Prop where
  opened : ∃ t u, opening 0x7D first s = .ok (.item (0x22 :: t)) ∧ string t = .ok (k, u) ∧
    colon u = .ok value

theorem introduced_quote (k : String) (first : Bool) (s : Bytes) :
    Introduced first (lead first ++ (bytes (quote k) ++ 0x3A :: s)) k s := by
  have ho := opening_quote k first (0x3A :: s)
  have hc : colon (0x3A :: s) = .ok s := colon_gap [] s
  rw [bytes_quote, List.cons_append, List.append_assoc, List.singleton_append] at ho ⊢
  exact ⟨_, _, ho, string_quote k _, hc⟩

theorem introduced_label {l : Label} {k : String} (hk : l.name? = some k) (first : Bool)
    (s : Bytes) :
    Introduced first (bytes (l.chars first) ++ s) k (bytes (gapChars l.afterColon) ++ s) := by
  obtain ⟨cs, hcs, rfl⟩ := Option.map_eq_some_iff.mp hk
  have hs (u : Bytes) : string (bytes (pieceChars l.name) ++ 0x22 :: u) =
      .ok (String.ofList cs, u) := by
    rw [string_pieces, hcs]
    rfl
  rw [bytes_label]
  exact ⟨_, _, opening_slot l.slot starts_quote (Or.inr rfl) first _, hs _,
    colon_gap l.beforeColon _⟩

namespace Record

variable {σ τ : Type} {r : Record σ τ} {depth fuel : Nat} {first : Bool} {st : σ}
  {s value : Bytes} {k : String} {m : Member σ}

theorem readMembers_known (h : Introduced first s k value)
    (hm : r.members.find? (·.name == k) = some m) (hp : m.present st = false) :
    r.readMembers depth (fuel + 1) first st s =
      (m.read depth st value).bind fun p => r.readMembers depth fuel false p.1 p.2 := by
  obtain ⟨t, u, ho, hs, hc⟩ := h.opened
  rw [readMembers]
  simp only [bind, Except.bind, ho, hs, hm, hp, hc, Bool.false_eq_true, if_false]

theorem readMembers_repeated (h : Introduced first s k value)
    (hm : r.members.find? (·.name == k) = some m) (hp : m.present st = true) :
    r.readMembers depth (fuel + 1) first st s = .error .mistyped := by
  obtain ⟨t, u, ho, hs, hc⟩ := h.opened
  rw [readMembers]
  simp only [bind, Except.bind, ho, hs, hm, hp, if_true]

theorem readMembers_unknown (h : Introduced first s k value)
    (hm : r.members.find? (·.name == k) = none) (hr : r.strict = false) :
    r.readMembers depth (fuel + 1) first st s =
      (skipValue value).bind (r.readMembers depth fuel false st) := by
  obtain ⟨t, u, ho, hs, hc⟩ := h.opened
  rw [readMembers]
  simp only [bind, Except.bind, ho, hs, hm, hr, hc, Bool.false_eq_true, if_false]

theorem readMembers_strict (h : Introduced first s k value)
    (hm : r.members.find? (·.name == k) = none) (hr : r.strict = true) :
    r.readMembers depth (fuel + 1) first st s = .error .mistyped := by
  obtain ⟨t, u, ho, hs, hc⟩ := h.opened
  rw [readMembers]
  simp only [bind, Except.bind, ho, hs, hm, hr, if_true]

theorem readMembers_unnamed {l : Label} (hl : l.name? = none) (s : Bytes) :
    r.readMembers depth (fuel + 1) first st (bytes (l.chars first) ++ s) =
      .error .malformed := by
  have hc : content? l.name = none := Option.map_eq_none_iff.mp hl
  rw [bytes_label, readMembers, opening_slot l.slot starts_quote (Or.inr rfl)]
  simp only [bind, Except.bind, string_pieces, hc, orMalformed, Except.map]

theorem readMembers_end (g : Gap) (s : Bytes) :
    r.readMembers depth (fuel + 1) first st (bytes (gapChars g) ++ 0x7D :: s) =
      (r.finish st).map (·, s) := by
  rw [readMembers, opening_end 0x7D rfl]
  cases r.finish st <;> rfl

def valuesOf (k : String) (ms : List (Label × Written)) : List Written :=
  ms.filterMap fun p => if p.1.name? = some k then some p.2 else none

structure Puts {α : Type} (m : Member σ) (depth : Nat) (W : Written → α → Prop)
    (put : σ → α → σ) : Prop where
  total (st : σ) (w : Written) (g : Gap) {rest : Bytes} (hr : Clear rest) :
    (∃ a, m.read depth st (bytes (gapChars g) ++ (bytes w.chars ++ rest)) =
      .ok (put st a, rest)) ∨
    ∃ f, m.read depth st (bytes (gapChars g) ++ (bytes w.chars ++ rest)) = .error f
  wanted (st : σ) (w : Written) (g : Gap) {rest : Bytes} (hr : Clear rest) {a : α} (ha : W w a) :
    m.read depth st (bytes (gapChars g) ++ (bytes w.chars ++ rest)) = .ok (put st a, rest)

theorem puts_of_reads {α : Type} (read : Bytes → Except Fault (Front α))
    {W : Written → α → Prop} {put : σ → α → σ}
    (hm : ∀ st s, m.read depth st s = (read s).map fun p => (put st p.1, p.2))
    (hr : ∀ w g {rest}, Clear rest →
      Reads (read (bytes (gapChars g) ++ (bytes w.chars ++ rest))) rest (W w)) :
    Puts m depth W put := by
  constructor
  · intro st w g rest hc
    rw [hm]
    rcases (hr w g hc).done_or_refused with ⟨a, ha⟩ | ⟨f, hf⟩
    · exact Or.inl ⟨a, by rw [ha]; rfl⟩
    · exact Or.inr ⟨f, by rw [hf]; rfl⟩
  · intro st w g rest hc a ha
    rw [hm, (hr w g hc).ok ha]
    rfl

section
variable (r : Record σ τ) (depth : Nat)

inductive Run : List (Label × Written) → σ → σ → Prop
  | nil (st : σ) : Run [] st st
  | known {l : Label} {w : Written} {k : String} {m : Member σ} {ms : List (Label × Written)}
      {st next last : σ} (hk : l.name? = some k) (hm : r.members.find? (·.name == k) = some m)
      (hp : m.present st = false)
      (hv : ∀ (g : Gap) {rest : Bytes}, Clear rest →
        m.read depth st (bytes (gapChars g) ++ (bytes w.chars ++ rest)) = .ok (next, rest))
      (ht : Run ms next last) : Run ((l, w) :: ms) st last
  | unknown {l : Label} {w : Written} {k : String} {ms : List (Label × Written)} {st last : σ}
      (hk : l.name? = some k) (hm : r.members.find? (·.name == k) = none) (ht : Run ms st last) :
      Run ((l, w) :: ms) st last

def Keeps (m : Member σ) : Prop :=
  ∀ (st : σ) (w : Written) (g : Gap) {rest : Bytes}, Clear rest →
    (∃ st', m.read depth st (bytes (gapChars g) ++ (bytes w.chars ++ rest)) = .ok (st', rest) ∧
      m.present st' = true ∧ ∀ m' ∈ r.members, m'.present st = true → m'.present st' = true) ∨
    ∃ f, m.read depth st (bytes (gapChars g) ++ (bytes w.chars ++ rest)) = .error f

end

variable {ms : List (Label × Written)}

/-- A member with a value that is wanted of it is one step of a run. -/
theorem Puts.run {α : Type} {W : Written → α → Prop} {put : σ → α → σ} {l : Label} {w : Written}
    {a : α} {last : σ} (h : Puts m depth W put) (hk : l.name? = some k)
    (hm : r.members.find? (·.name == k) = some m) (hp : m.present st = false) (hw : W w a)
    (ht : Run r depth ms (put st a) last) : Run r depth ((l, w) :: ms) st last :=
  .known hk hm hp (fun g _ hr => h.wanted st w g hr hw) ht

theorem Run.read {last : σ} (h : Run r depth ms st last) (hr : r.strict = false)
    (hf : ms.length < fuel) (close : Gap) (rest : Bytes) :
    r.readMembers depth fuel first st
        (bytes (Written.memberChars first ms) ++ (bytes (gapChars close) ++ 0x7D :: rest)) =
      (r.finish last).map (·, rest) := by
  induction h generalizing fuel first with
  | nil st =>
    obtain ⟨fuel, rfl⟩ := Nat.exists_eq_succ_of_ne_zero (Nat.ne_of_gt hf)
    exact readMembers_end close rest
  | @known l w k m ms st next last hk hm hp hv ht ih =>
    obtain ⟨fuel, rfl⟩ := Nat.exists_eq_succ_of_ne_zero (Nat.ne_of_gt (Nat.zero_lt_of_lt hf))
    rw [bytes_memberChars, Nat.succ_eq_add_one,
      readMembers_known (introduced_label hk first _) hm hp, hv _ (clear_members ms close rest)]
    exact ih (Nat.lt_of_succ_lt_succ hf)
  | @unknown l w k ms st last hk hm ht ih =>
    obtain ⟨fuel, rfl⟩ := Nat.exists_eq_succ_of_ne_zero (Nat.ne_of_gt (Nat.zero_lt_of_lt hf))
    rw [bytes_memberChars, Nat.succ_eq_add_one,
      readMembers_unknown (introduced_label hk first _) hm hr,
      skipValue_written w _ (clear_members ms close rest)]
    exact ih (Nat.lt_of_succ_lt_succ hf)

theorem valuesOf_cons_self {l : Label} (hl : l.name? = some k) (w : Written) :
    valuesOf k ((l, w) :: ms) = w :: valuesOf k ms := by
  simp [valuesOf, hl]

theorem valuesOf_cons_of_ne {l : Label} (hl : l.name? ≠ some k) (w : Written) :
    valuesOf k ((l, w) :: ms) = valuesOf k ms := by
  simp [valuesOf, hl]

def ComesAgain (m : Member σ) (k : String) (st : σ) (ms : List (Label × Written)) : Prop :=
  (m.present st = true ∧ valuesOf k ms ≠ []) ∨ 1 < (valuesOf k ms).length

section
variable {l : Label} {w : Written} {next : σ}

theorem ComesAgain.other (h : ComesAgain m k st ((l, w) :: ms)) (hl : l.name? ≠ some k)
    (hp : m.present st = true → m.present next = true) : ComesAgain m k next ms := by
  rw [ComesAgain, valuesOf_cons_of_ne hl] at h
  exact h.imp_left fun ⟨hs, hv⟩ => ⟨hp hs, hv⟩

/-- The first of the two: the member counts as read from now on. -/
theorem ComesAgain.noted (h : ComesAgain m k st ((l, w) :: ms)) (hl : l.name? = some k)
    (hs : m.present st = false) (hp : m.present next = true) : ComesAgain m k next ms := by
  rw [ComesAgain, valuesOf_cons_self hl, hs] at h
  rcases h with ⟨ht, -⟩ | h
  · cases ht
  · exact Or.inl ⟨hp, List.ne_nil_of_length_pos (Nat.lt_of_succ_lt_succ h)⟩

end

/-- A second member of one name is refused, whatever else the object holds. -/
theorem repeated_refused (hm : r.members.find? (·.name == k) = some m)
    (hk : ∀ m ∈ r.members, Keeps r depth m) (close : Gap) (rest : Bytes)
    (h : ComesAgain m k st ms) :
    ∃ f, r.readMembers depth fuel first st
      (bytes (Written.memberChars first ms) ++ (bytes (gapChars close) ++ 0x7D :: rest)) =
        .error f := by
  induction ms generalizing fuel first st with
  | nil => simp [ComesAgain, valuesOf] at h
  | cons p ms ih =>
    obtain ⟨l, w⟩ := p
    have hr := clear_members ms close rest
    rw [bytes_memberChars]
    cases fuel with
    | zero => exact ⟨_, by rw [readMembers]⟩
    | succ fuel =>
      cases hl : l.name? with
      | none => exact ⟨_, readMembers_unnamed hl _⟩
      | some j =>
        have hi := introduced_label hl first (bytes w.chars ++
          (bytes (Written.memberChars false ms) ++ (bytes (gapChars close) ++ 0x7D :: rest)))
        cases hj : r.members.find? (·.name == j) with
        | none =>
          have hne : l.name? ≠ some k := by
            intro he
            rw [hl, Option.some.injEq] at he
            rw [he, hm] at hj
            cases hj
          cases hs : r.strict with
          | true => exact ⟨_, readMembers_strict hi hj hs⟩
          | false =>
            rw [readMembers_unknown hi hj hs, skipValue_written w _ hr]
            exact ih (h.other hne id)
        | some m' =>
          cases hp : m'.present st with
          | true => exact ⟨_, readMembers_repeated hi hj hp⟩
          | false =>
            rw [readMembers_known hi hj hp]
            rcases hk m' (List.mem_of_find?_eq_some hj) st w l.afterColon hr with
              ⟨st', hv, hnow, hkeep⟩ | ⟨f, hf⟩
            · rw [hv]
              apply ih
              by_cases he : l.name? = some k
              · rw [hl, Option.some.injEq] at he
                rw [he, hm] at hj
                cases hj
                exact h.noted (he ▸ hl) hp hnow
              · exact h.other he (hkeep m (List.mem_of_find?_eq_some hm))
            · exact ⟨f, by rw [hf]; rfl⟩

theorem Puts.keeps {α : Type} {W : Written → α → Prop} {put : σ → α → σ} (h : Puts m depth W put)
    (hm : ∀ st a, m.present (put st a) = true)
    (hk : ∀ m' ∈ r.members, ∀ st a, m'.present st = true → m'.present (put st a) = true) :
    Keeps r depth m := by
  intro st w g rest hr
  rcases h.total st w g hr with ⟨a, ha⟩ | hf
  · exact Or.inl ⟨_, ha, hm st a, fun m' hm' => hk m' hm' st a⟩
  · exact Or.inr hf

theorem length_memberChars (first : Bool) (ms : List (Label × Written)) :
    ms.length ≤ (bytes (Written.memberChars first ms)).length := by
  induction ms generalizing first with
  | nil => exact Nat.zero_le _
  | cons p ms ih =>
    obtain ⟨l, w⟩ := p
    have hl := congrArg List.length (bytes_memberChars first l w ms [])
    simp only [List.append_nil, List.length_append] at hl
    have hpos := w.length_pos
    have ht := ih false
    rw [List.length_cons]
    omega

def objectText (before : Gap) (ms : List (Label × Written)) (close after : Gap) : String :=
  String.ofList (gapChars before ++ ((Written.object ms close).chars ++ gapChars after))

/-- An object is read member by member, with more steps at hand than it has members. -/
theorem parse_objectText (before : Gap) (ms : List (Label × Written)) (close after : Gap) :
    ∃ fuel, ms.length < fuel ∧ r.parse (objectText before ms close after).toUTF8.toList =
      atEnd (r.readMembers 126 fuel true r.start (bytes (Written.memberChars true ms) ++
        (bytes (gapChars close) ++ 0x7D :: bytes (gapChars after)))) := by
  have hl := length_memberChars true ms
  refine ⟨(bytes (Written.memberChars true ms) ++
    (bytes (gapChars close) ++ 0x7D :: bytes (gapChars after))).length + 1, ?_, ?_⟩
  · rw [List.length_append]
    omega
  · rw [objectText, toUTF8_bytes, bytes_append, bytes_append, bytes_object_written, parse, read,
      next_gap, List.cons_append, List.append_assoc, List.append_assoc, List.singleton_append,
      next_dark rfl]
    rfl

theorem atEnd_gap {α : Type} (a : α) (g : Gap) : atEnd (.ok (a, bytes (gapChars g))) = .ok a := by
  have h := skipBlanks_gap g []
  rw [List.append_nil] at h
  rw [atEnd]
  simp only [bind, Except.bind, h]
  exact if_pos rfl

end Record

end TaskRelay.Json
