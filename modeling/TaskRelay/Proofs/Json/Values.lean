import TaskRelay.Proofs.Json.Quoted
import TaskRelay.Proofs.Json.Whole

/-!
# Values and their texts

What the reader meets in the text of a value: the bytes that start it, what stands between the
items of a container, and how many containers lie inside one another.
-/

set_option autoImplicit false

namespace TaskRelay

namespace Json

mutual

/-- Every number is whole, and the members of objects stand in order of their names. -/
def Plain : Json → Prop
  | .real _ => False
  | .list items => PlainItems items
  | .object members => (members.map Prod.fst).Pairwise (· < ·) ∧ PlainMembers members
  | _ => True

def PlainItems : List Json → Prop
  | [] => True
  | v :: vs => Plain v ∧ PlainItems vs

def PlainMembers : List (String × Json) → Prop
  | [] => True
  | (_, v) :: ms => Plain v ∧ PlainMembers ms

end

mutual

def nesting : Json → Nat
  | .list items => itemsNesting items + 1
  | .object members => membersNesting members + 1
  | _ => 0

def itemsNesting : List Json → Nat
  | [] => 0
  | v :: vs => max (nesting v) (itemsNesting vs)

def membersNesting : List (String × Json) → Nat
  | [] => 0
  | (_, v) :: ms => max (nesting v) (membersNesting ms)

end

structure Starts (b : UInt8) : Prop where
  dark : isBlank b = false
  bracket : b ≠ 0x5D
  brace : b ≠ 0x7D

theorem starts_quote : Starts 0x22 := by constructor <;> decide

theorem starts_digit {b : UInt8} (h : (digit? b).isSome = true) : Starts b := by
  have hne (x : UInt8) (hx : (digit? x).isSome = false) : b ≠ x := digit_ne h hx
  refine ⟨?_, hne _ rfl, hne _ rfl⟩
  simp [isBlank, hne 0x20 rfl, hne 0x0A rfl, hne 0x0D rfl, hne 0x09 rfl]

theorem starts_number {b : UInt8} (h : b = 0x2D ∨ (digit? b).isSome = true) :
    Starts b ∧ b ≠ 0x5B ∧ b ≠ 0x7B := by
  rcases h with rfl | h
  · refine ⟨?_, by decide, by decide⟩
    constructor <;> decide
  · exact ⟨starts_digit h, digit_ne h rfl, digit_ne h rfl⟩

theorem next_dark {b : UInt8} (hb : isBlank b = false) (s : Bytes) :
    next (b :: s) = .ok (b, s) := by
  rw [next, skipBlanks, List.dropWhile_cons_of_neg (by simp [hb])]

theorem opening_closed {close : UInt8} (hc : isBlank close = false) (first : Bool) (s : Bytes) :
    opening close first (close :: s) = .ok (.closed s) := by
  simp [opening, next_dark hc, bind, Except.bind]

theorem opening_first {close b : UInt8} (hb : isBlank b = false) (hc : b ≠ close) (s : Bytes) :
    opening close true (b :: s) = .ok (.item (b :: s)) := by
  simp [opening, next_dark hb, hc, bind, Except.bind]

theorem opening_next {close b : UInt8} (hb : isBlank b = false) (hc : b ≠ close)
    (hk : (0x2C : UInt8) ≠ close) (s : Bytes) :
    opening close false (0x2C :: b :: s) = .ok (.item (b :: s)) := by
  have hn : next (0x2C :: b :: s) = .ok (0x2C, b :: s) := next_dark rfl _
  simp [opening, hn, next_dark hb, hc, hk, bind, Except.bind]

def lead (first : Bool) : Bytes := if first then [] else [0x2C]

theorem opening_item {close b : UInt8} (hb : Starts b) (hc : close = 0x5D ∨ close = 0x7D)
    (first : Bool) (s : Bytes) :
    opening close first (lead first ++ b :: s) = .ok (.item (b :: s)) := by
  have hne : b ≠ close ∧ (0x2C : UInt8) ≠ close := by
    rcases hc with rfl | rfl
    · exact ⟨hb.bracket, by decide⟩
    · exact ⟨hb.brace, by decide⟩
  cases first with
  | true => exact opening_first hb.dark hne.1 s
  | false => exact opening_next hb.dark hne.1 hne.2 s

def itemText (first : Bool) : List Json → Bytes
  | [] => []
  | v :: vs => lead first ++ bytes (itemChars (v :: vs))

def memberText (first : Bool) : List (String × Json) → Bytes
  | [] => []
  | p :: ms => lead first ++ bytes (memberChars (p :: ms))

theorem itemText_cons (first : Bool) (v : Json) (vs : List Json) :
    itemText first (v :: vs) = lead first ++ (bytes v.chars ++ itemText false vs) := by
  cases vs with
  | nil =>
    rw [itemText, itemText, List.append_nil]
    rfl
  | cons w vs =>
    change lead first ++ bytes (v.chars ++ ',' :: itemChars (w :: vs)) = _
    rw [bytes_append]
    rfl

theorem memberText_cons (first : Bool) (k : String) (v : Json) (ms : List (String × Json)) :
    memberText first ((k, v) :: ms) =
      lead first ++ (bytes (quote k) ++ 0x3A :: (bytes v.chars ++ memberText false ms)) := by
  cases ms with
  | nil =>
    change lead first ++ bytes (quote k ++ ':' :: v.chars) = _
    rw [memberText, List.append_nil, bytes_append]
    rfl
  | cons p ms =>
    change lead first ++ bytes (quote k ++ ':' :: v.chars ++ ',' :: memberChars (p :: ms)) = _
    rw [bytes_append, bytes_append, List.append_assoc]
    rfl

theorem bytes_list (items : List Json) :
    bytes (chars (.list items)) = 0x5B :: (itemText true items ++ [0x5D]) := by
  have ht : bytes (itemChars items) = itemText true items := by cases items <;> rfl
  rw [chars, bytes_cons, bytes_append, ht]
  rfl

theorem bytes_object (members : List (String × Json)) :
    bytes (chars (.object members)) = 0x7B :: (memberText true members ++ [0x7D]) := by
  have ht : bytes (memberChars members) = memberText true members := by cases members <;> rfl
  rw [chars, bytes_cons, bytes_append, ht]
  rfl

/-- What follows an item starts with a comma or closes the container. -/
theorem ends_itemText (vs : List Json) (rest : Bytes) :
    Ends (itemText false vs ++ 0x5D :: rest) := by
  cases vs with
  | nil => exact .bracket rest
  | cons v vs => exact .comma _

theorem ends_memberText (ms : List (String × Json)) (rest : Bytes) :
    Ends (memberText false ms ++ 0x7D :: rest) := by
  cases ms with
  | nil => exact .brace rest
  | cons p ms => exact .comma _

def within {α : Type} (nested depth : Nat) (a : α) (rest : Bytes) : Except Fault (Front α) :=
  if nested ≤ depth then .ok (a, rest) else .error .malformed

theorem within_map {α β : Type} (f : α → β) (n depth : Nat) (a : α) (rest : Bytes) :
    (within n depth a rest).map (fun p => (f p.1, p.2)) = within n depth (f a) rest := by
  unfold within
  split <;> rfl

theorem within_succ {α : Type} (n depth : Nat) (a : α) (rest : Bytes) :
    within n depth a rest = within (n + 1) (depth + 1) a rest := by
  simp only [within, Nat.add_le_add_iff_right]

/-- Two parts are nested as deep as the deeper of them. -/
theorem within_bind {α β : Type} {m n depth : Nat} {a : α} {b : β} {s rest : Bytes}
    {f : Front α → Except Fault (Front β)} (hf : f (a, s) = within n depth b rest) :
    (within m depth a s).bind f = within (max m n) depth b rest := by
  unfold within at hf ⊢
  by_cases hm : m ≤ depth
  · rw [if_pos hm]
    change f (a, s) = _
    rw [hf]
    by_cases hn : n ≤ depth
    · rw [if_pos hn, if_pos (Nat.max_le.mpr ⟨hm, hn⟩)]
    · rw [if_neg hn, if_neg fun h => hn (Nat.max_le.mp h).2]
  · rw [if_neg hm, if_neg fun h => hm (Nat.max_le.mp h).1]
    rfl

theorem valueWithin_scalar {b : UInt8} (hb : isBlank b = false) (hl : b ≠ 0x5B) (ho : b ≠ 0x7B)
    (fuel depth : Nat) (s : Bytes) : valueWithin (fuel + 1) depth (b :: s) = scalar b s := by
  simp [valueWithin, next_dark hb, hl, ho, bind, Except.bind]

theorem valueWithin_list (fuel depth : Nat) (s : Bytes) :
    valueWithin (fuel + 1) (depth + 1) (0x5B :: s) =
      (itemsWithin fuel depth true s).map fun p => (Json.list p.1, p.2) := by
  rw [valueWithin, next_dark rfl]
  rfl

theorem valueWithin_object (fuel depth : Nat) (s : Bytes) :
    valueWithin (fuel + 1) (depth + 1) (0x7B :: s) =
      (membersWithin fuel depth true [] s).map fun p => (Json.object p.1, p.2) := by
  rw [valueWithin, next_dark rfl]
  rfl

theorem itemsWithin_item {first : Bool} {s t : Bytes}
    (h : opening 0x5D first s = .ok (.item t)) (fuel depth : Nat) :
    itemsWithin (fuel + 1) depth first s =
      (valueWithin fuel depth t).bind fun p =>
        (itemsWithin fuel depth false p.2).map fun q => (p.1 :: q.1, q.2) := by
  rw [itemsWithin, h]
  rfl

theorem memberName_quote (k : String) (rest : Bytes) :
    memberName (bytes (quote k) ++ 0x3A :: rest) = .ok (k, rest) := by
  have hc : colon (0x3A :: rest) = .ok rest := by
    rw [colon, next_dark rfl]
    rfl
  rw [bytes_quote, List.cons_append, List.append_assoc]
  simp [memberName, string_quote, hc, bind, Except.bind]

theorem membersWithin_member {first : Bool} {s t : Bytes}
    (h : opening 0x7D first s = .ok (.item t)) (fuel depth : Nat) (front : Table String Json) :
    membersWithin (fuel + 1) depth first front s =
      (memberName t).bind fun n => (valueWithin fuel depth n.2).bind fun p =>
        membersWithin fuel depth false (Table.insert n.1 p.1 front) p.2 := by
  rw [membersWithin, h]
  rfl

theorem opening_quote (k : String) (first : Bool) (s : Bytes) :
    opening 0x7D first (lead first ++ (bytes (quote k) ++ s)) =
      .ok (.item (bytes (quote k) ++ s)) := by
  rw [bytes_quote, List.cons_append]
  exact opening_item starts_quote (Or.inr rfl) first _

end Json

end TaskRelay
