import TaskRelay.Proofs.Json.Doubles

/-!
# Values read back

The text of a value whose doubles are finite is read if the reader may open as many containers as
lie inside one another in it, and is malformed to the reader otherwise. What is read differs from
the value in its doubles alone if the members of its objects stand in order. The induction is on
the value: the reader meets the text of each part in front of a comma or the end of a container,
and both end a number. Payloads hold no other doubles: a number that is infinite or none at all
has no text.
-/

set_option autoImplicit false

namespace TaskRelay

theorem Table.insert_last {β : Type} {t : Table String β} {k : String} (b : β)
    (h : ∀ p ∈ t, p.1 < k) : Table.insert k b t = t ++ [(k, b)] := by
  induction t with
  | nil => rfl
  | cons p t ih =>
    obtain ⟨j, c⟩ := p
    have hj : j < k := h (j, c) List.mem_cons_self
    have hne : k ≠ j := by
      rintro rfl
      exact String.lt_irrefl k hj
    rw [Table.insert, if_neg hne, if_neg (String.lt_asymm hj),
      ih fun p hp => h p (List.mem_cons_of_mem _ hp)]
    rfl

namespace Json

mutual

def Finite : Json → Prop
  | .real x => x.isFinite = true
  | .list items => FiniteItems items
  | .object members => FiniteMembers members
  | _ => True

def FiniteItems : List Json → Prop
  | [] => True
  | v :: vs => Finite v ∧ FiniteItems vs

def FiniteMembers : List (String × Json) → Prop
  | [] => True
  | (_, v) :: ms => Finite v ∧ FiniteMembers ms

end

mutual

/-- What the reader makes of the text of a value: what it makes of each double by itself, and of
equal names in an object the last one. -/
def reread : Json → Json
  | .real x => (parseText (render (.real x))).toOption.getD (.real x)
  | .list items => .list (rereadItems items)
  | .object members => .object (rereadMembers [] members)
  | v => v

def rereadItems : List Json → List Json
  | [] => []
  | v :: vs => reread v :: rereadItems vs

def rereadMembers (front : Table String Json) : List (String × Json) → Table String Json
  | [] => front
  | (k, v) :: ms => rereadMembers (Table.insert k (reread v) front) ms

end

mutual

theorem plain_finite (v : Json) (hv : v.Plain) : v.Finite := by
  cases v with
  | real x => exact False.elim hv
  | list items => exact plain_finiteItems items hv
  | object members => exact plain_finiteMembers members hv.2
  | _ => exact trivial

theorem plain_finiteItems (vs : List Json) (hv : PlainItems vs) : FiniteItems vs := by
  cases vs with
  | nil => exact trivial
  | cons v vs => exact ⟨plain_finite v hv.1, plain_finiteItems vs hv.2⟩

theorem plain_finiteMembers (ms : List (String × Json)) (hm : PlainMembers ms) :
    FiniteMembers ms := by
  cases ms with
  | nil => exact trivial
  | cons p ms =>
    obtain ⟨k, v⟩ := p
    exact ⟨plain_finite v hm.1, plain_finiteMembers ms hm.2⟩

end

mutual

/-- Without doubles, and with the members of objects in order, nothing is altered. -/
theorem reread_plain (v : Json) (hv : v.Plain) : v.reread = v := by
  cases v with
  | real x => exact False.elim hv
  | list items => rw [reread, rereadItems_plain items hv]
  | object members => rw [reread, rereadMembers_plain members hv.2 [] hv.1, List.nil_append]
  | _ => rfl

theorem rereadItems_plain (vs : List Json) (hv : PlainItems vs) : rereadItems vs = vs := by
  cases vs with
  | nil => rfl
  | cons v vs => rw [rereadItems, reread_plain v hv.1, rereadItems_plain vs hv.2]

theorem rereadMembers_plain (ms : List (String × Json)) (hm : PlainMembers ms)
    (front : Table String Json) (ho : ((front ++ ms).map Prod.fst).Pairwise (· < ·)) :
    rereadMembers front ms = front ++ ms := by
  cases ms with
  | nil => exact (List.append_nil front).symm
  | cons p ms =>
    obtain ⟨k, v⟩ := p
    -- The new name lies behind all that were read before.
    have hi : Table.insert k v front = front ++ [(k, v)] := by
      rw [List.map_append, List.pairwise_append] at ho
      exact Table.insert_last v fun p hp =>
        ho.2.2 p.1 (List.mem_map_of_mem hp) k List.mem_cons_self
    have ha : front ++ (k, v) :: ms = front ++ [(k, v)] ++ ms := by
      rw [List.append_assoc, List.singleton_append]
    rw [ha] at ho ⊢
    rw [rereadMembers, reread_plain v hm.1, hi]
    exact rereadMembers_plain ms hm.2 _ ho

end

theorem scalar_real {x : Float} (h : x.isFinite = true) :
    ∃ b s, bytes (realLayout.text x) = b :: s ∧ (b = 0x2D ∨ (digit? b).isSome = true) ∧
      ∀ {rest : Bytes}, Ends rest → scalar b (s ++ rest) = .ok (reread (.real x), rest) := by
  obtain ⟨n, hn, y, hy⟩ := real_read h
  obtain ⟨b, s, hb, hd, hread⟩ := n.scalar_chars
  obtain ⟨hs, hl, ho⟩ := starts_number hd
  rw [hn] at hb
  have hscalar (rest : Bytes) (hr : Ends rest) : scalar b (s ++ rest) = .ok (.real y, rest) := by
    rw [(hread hr.clear).1, hy]
    rfl
  have hp : parseText (render (.real x)) = .ok (.real y) := by
    have halone := hscalar [] (Or.inl rfl)
    rw [List.append_nil] at halone
    rw [parseText, render, chars, toUTF8_bytes, hb, parse, value,
      valueWithin_scalar hs.dark hl ho, halone]
    rfl
  refine ⟨b, s, hb, hd, fun hr => ?_⟩
  rw [hscalar _ hr, reread, hp]
  rfl

theorem chars_start {v : Json} (hv : v.Finite) :
    ∃ b s, bytes v.chars = b :: s ∧ Starts b := by
  cases v with
  | null => exact ⟨_, _, rfl, by constructor <;> decide⟩
  | bool b => cases b <;> exact ⟨_, _, rfl, by constructor <;> decide⟩
  | whole n =>
    obtain ⟨b, s, hw, hb, -⟩ := scalar_whole n (Or.inl rfl)
    exact ⟨b, s, hw, (starts_number hb).1⟩
  | real x =>
    obtain ⟨b, s, hw, hb, -⟩ := scalar_real hv
    exact ⟨b, s, hw, (starts_number hb).1⟩
  | text s => exact ⟨_, _, bytes_quote s, by constructor <;> decide⟩
  | list items => exact ⟨_, _, rfl, by constructor <;> decide⟩
  | object members => exact ⟨_, _, rfl, by constructor <;> decide⟩

mutual

theorem valueWithin_chars (v : Json) (hv : v.Finite) (fuel depth : Nat) {rest : Bytes}
    (hf : 2 * (bytes v.chars).length ≤ fuel) (hr : Ends rest) :
    valueWithin fuel depth (bytes v.chars ++ rest) = within v.nesting depth v.reread rest := by
  have hpos : 0 < (bytes v.chars).length := by
    obtain ⟨b, s, hb, -⟩ := chars_start hv
    rw [hb]
    exact Nat.succ_pos _
  obtain ⟨fuel, rfl⟩ : ∃ n, fuel = n + 1 := ⟨fuel - 1, by omega⟩
  have shallow (w : Json) (hw : w.nesting = 0) :
      within w.nesting depth w.reread rest = .ok (w.reread, rest) :=
    if_pos (hw ▸ Nat.zero_le _)
  cases v with
  | null =>
    rw [shallow _ rfl]
    rfl
  | bool b =>
    rw [shallow _ rfl]
    cases b <;> rfl
  | whole n =>
    obtain ⟨b, s, hw, hb, hs⟩ := scalar_whole n hr
    obtain ⟨hd, hl, ho⟩ := starts_number hb
    rw [shallow _ rfl, chars, hw, List.cons_append, valueWithin_scalar hd.dark hl ho, hs]
    rfl
  | real x =>
    obtain ⟨b, s, hw, hb, hs⟩ := scalar_real hv
    obtain ⟨hd, hl, ho⟩ := starts_number hb
    rw [shallow _ rfl, chars, hw, List.cons_append, valueWithin_scalar hd.dark hl ho, hs hr]
  | text s =>
    rw [shallow _ rfl, chars, bytes_quote, List.cons_append, List.append_assoc,
      valueWithin_scalar rfl (by decide) (by decide)]
    change (string _).map _ = _
    rw [List.singleton_append, string_quote]
    rfl
  | list items =>
    rw [bytes_list, List.length_cons, List.length_append, List.length_singleton] at hf
    rw [bytes_list, List.cons_append, List.append_assoc, List.singleton_append]
    cases depth with
    | zero => rfl
    | succ depth =>
      rw [valueWithin_list, itemsWithin_chars items hv fuel depth true rest (by omega)]
      exact (within_map Json.list _ depth _ rest).trans (within_succ _ _ _ _)
  | object members =>
    rw [bytes_object, List.length_cons, List.length_append, List.length_singleton] at hf
    rw [bytes_object, List.cons_append, List.append_assoc, List.singleton_append]
    cases depth with
    | zero => rfl
    | succ depth =>
      rw [valueWithin_object, membersWithin_chars members hv fuel depth true [] rest (by omega)]
      exact (within_map Json.object _ depth _ rest).trans (within_succ _ _ _ _)

theorem itemsWithin_chars (vs : List Json) (hv : FiniteItems vs) (fuel depth : Nat) (first : Bool)
    (rest : Bytes) (hf : 2 * (itemText first vs).length + 1 ≤ fuel) :
    itemsWithin fuel depth first (itemText first vs ++ 0x5D :: rest) =
      within (itemsNesting vs) depth (rereadItems vs) rest := by
  obtain ⟨fuel, rfl⟩ : ∃ n, fuel = n + 1 := ⟨fuel - 1, by omega⟩
  cases vs with
  | nil =>
    rw [itemText, List.nil_append, itemsWithin, opening_closed rfl]
    rfl
  | cons v vs =>
    obtain ⟨b, s, hb, hs⟩ := chars_start hv.1
    rw [itemText_cons, List.length_append, List.length_append] at hf
    have hl : (bytes v.chars).length = s.length + 1 := by rw [hb, List.length_cons]
    have hh := valueWithin_chars v hv.1 fuel depth (by omega) (ends_itemText vs rest)
    have ht := itemsWithin_chars vs hv.2 fuel depth false rest (by omega)
    rw [itemText_cons, List.append_assoc, List.append_assoc, hb, List.cons_append,
      itemsWithin_item (opening_item hs (Or.inl rfl) first _), ← List.cons_append, ← hb, hh]
    apply within_bind
    rw [ht]
    exact within_map (v.reread :: ·) _ depth _ rest

theorem membersWithin_chars (ms : List (String × Json)) (hm : FiniteMembers ms) (fuel depth : Nat)
    (first : Bool) (front : Table String Json) (rest : Bytes)
    (hf : 2 * (memberText first ms).length + 1 ≤ fuel) :
    membersWithin fuel depth first front (memberText first ms ++ 0x7D :: rest) =
      within (membersNesting ms) depth (rereadMembers front ms) rest := by
  obtain ⟨fuel, rfl⟩ : ∃ n, fuel = n + 1 := ⟨fuel - 1, by omega⟩
  cases ms with
  | nil =>
    rw [memberText, List.nil_append, membersWithin, opening_closed rfl]
    rfl
  | cons p ms =>
    obtain ⟨k, v⟩ := p
    rw [memberText_cons, List.length_append, List.length_append, List.length_cons,
      List.length_append] at hf
    have hh := valueWithin_chars v hm.1 fuel depth (by omega) (ends_memberText ms rest)
    have ht := membersWithin_chars ms hm.2 fuel depth false (Table.insert k v.reread front) rest
      (by omega)
    rw [memberText_cons, List.append_assoc, List.append_assoc, List.cons_append,
      membersWithin_member (opening_quote k first _), memberName_quote, List.append_assoc]
    change (valueWithin _ _ _).bind _ = _
    rw [hh]
    apply within_bind
    exact ht

end

theorem value_chars {v : Json} (hv : v.Finite) (depth : Nat) {rest : Bytes} (hr : Ends rest) :
    value depth (bytes v.chars ++ rest) = within v.nesting depth v.reread rest := by
  apply valueWithin_chars v hv _ _ _ hr
  rw [List.length_append]
  omega

end Json

end TaskRelay
