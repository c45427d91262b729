import Mathlib.Data.List.Induction
import TaskRelay.Proofs.Fitting
import TaskRelay.Proofs.Json.Utf8
import TaskRelay.Proofs.Server.Session
import TaskRelay.Proofs.Store.Number
import TaskRelay.Proofs.Traversal
import TaskRelay.Settings.Stream

/-!
# Group reads

What a group read asks of a server, and what it makes of the answer. The answer to a read is
nil, or a list of streams, each with its rows; a row is an identifier with a flat list of names
and values, or with nil. A row gives one entry whatever its values are. The last value under a
name decides: it is a field if it is a text, and otherwise the name has no field.
-/

set_option autoImplicit false

namespace TaskRelay

theorem toString_injective : Function.Injective (toString : Nat → String) := by
  intro m n h
  rw [Nat.toString_eq_repr, Nat.toString_eq_repr, Nat.repr_eq_ofList_toDigits,
    Nat.repr_eq_ofList_toDigits] at h
  have hd : Nat.toDigits 10 m = Nat.toDigits 10 n := String.ofList_injective h
  rw [← @Nat.ofDigitChars_ten_toDigits m, hd, Nat.ofDigitChars_ten_toDigits]

namespace Operation

def Asks (op : Operation) (wait count : Nat) : Prop :=
  ∃ group consumer rest, op.command = "XREADGROUP" :: "GROUP" :: group :: consumer ::
    "BLOCK" :: toString wait :: "COUNT" :: toString count :: rest

theorem Asks.unique {op : Operation} {b n b' n' : Nat} (h : op.Asks b n) (h' : op.Asks b' n') :
    b = b' ∧ n = n' := by
  obtain ⟨_, _, _, hc⟩ := h
  obtain ⟨_, _, _, hc'⟩ := h'
  rw [hc] at hc'
  simp only [List.cons.injEq] at hc'
  exact ⟨toString_injective hc'.2.2.2.2.2.1, toString_injective hc'.2.2.2.2.2.2.2.1⟩

theorem readGroup_asks (stream group consumer : String) (count : Nat) (block : Span) :
    (readGroup stream group consumer count block).Asks (blockMillis block) (max 1 count) :=
  ⟨group, consumer, _, rfl⟩

/-- A group read asks for at least one entry and for no more of a wait than it was given, but
for times below a millisecond, which count as one. As long as the milliseconds fit 64 bits they
are asked for as they are, and so a longer time never gives a shorter wait. Beyond that the
wait is what is left of them, which is zero, and so without end, at the multiples of 2⁶⁴. -/
theorem waits_asked (stream group consumer : String) (count : Nat) (block : Span) :
    ∃ b, (readGroup stream group consumer count block).Asks b (max 1 count) ∧
      b ≤ max 1 block.millis ∧
      (b = max 1 block.millis ↔ block.millis < 2 ^ 64) ∧
      (b = 0 ↔ 0 < block.millis ∧ 2 ^ 64 ∣ block.millis) ∧
      ∀ (longer : Span) (l n : Nat), block.nanos ≤ longer.nanos → longer.millis < 2 ^ 64 →
        (readGroup stream group consumer count longer).Asks l n → b ≤ l := by
  have hb (d : Span) : blockMillis d = max 1 d.millis % 2 ^ 64 := rfl
  refine ⟨_, readGroup_asks stream group consumer count block, Nat.mod_le _ _, ?_, ?_, ?_⟩
  · rw [hb]
    omega
  · rw [hb]
    omega
  · intro longer l n hle hfit hl
    have hm : block.millis ≤ longer.millis := Nat.div_le_div_right hle
    rw [hl.unique (readGroup_asks stream group consumer count longer) |>.1, hb, hb]
    omega

/-- Half a millisecond counts as one, and a wait of a millisecond and a half is no shorter. -/
theorem half_millis_asked :
    let half : Span := ⟨500000, by decide⟩
    let longer : Span := ⟨1500000, by decide⟩
    half.nanos ≤ longer.nanos ∧ longer.millis < 2 ^ 64 ∧
      (readGroup "s" "g" "c" 0 longer).Asks 1 1 ∧
      ∃ b, (readGroup "s" "g" "c" 0 half).Asks b 1 ∧ b = 1 ∧ b ≤ 1 := by
  intro half longer
  have hl : (readGroup "s" "g" "c" 0 longer).Asks 1 1 := ⟨"g", "c", ["STREAMS", "s", ">"], by decide⟩
  obtain ⟨b, ha, -, hfit, -, hmono⟩ := waits_asked "s" "g" "c" 0 half
  have hb : b = 1 := (hfit.mpr (by decide)).trans (by decide)
  exact ⟨by decide, by decide, hl, b, ha, hb, hmono longer 1 1 (by decide) (by decide) hl⟩

def endlessSettings : String :=
  "\x7b\"stream_name\":\"s\",\"group\":\"g\",\"consumer\":\"c\"," ++
    "\"block_time\":\x7b\"secs\":18446744073709551,\"nanos\":616000000\x7d,\"max_length\":0\x7d"

theorem overlong_wait_endless :
    let overlong : Span := ⟨2 ^ 64 * nanosPerMilli, by decide⟩
    (StreamSettings.decode endlessSettings).toOption.map StreamSettings.blockTime =
        some overlong ∧
      (StreamSettings.default.withBlockTime overlong).blockTime = overlong ∧
      (readGroup "s" "g" "c" 1 overlong).Asks 0 1 ∧
      ¬ ∃ b n, (readGroup "s" "g" "c" 1 overlong).Asks b n ∧ 1 ≤ b := by
  intro overlong
  have h : (readGroup "s" "g" "c" 1 overlong).Asks 0 1 :=
    ⟨"g", "c", ["STREAMS", "s", ">"], by decide⟩
  refine ⟨by decide +kernel, rfl, h, ?_⟩
  rintro ⟨b, n, hb, hpos⟩
  rw [(hb.unique h).1] at hpos
  exact absurd hpos (by decide)

end Operation

def LastOf {β : Type} (pairs : List (String × β)) (name : String) (v : β) : Prop :=
  ∃ before after, pairs = before ++ (name, v) :: after ∧ name ∉ after.map Prod.fst

namespace Table

section
variable {β γ : Type}

theorem ofList_snoc (pairs : List (String × β)) (p : String × β) :
    ofList (pairs ++ [p]) = (ofList pairs).insert p.1 p.2 := by
  rw [ofList, List.foldl_append]
  rfl

theorem get?_ofList {pairs : List (String × β)} {name : String} {v : β} :
    (ofList pairs).get? name = some v ↔ LastOf pairs name v := by
  induction pairs using List.reverseRecOn with
  | nil => simp [ofList, get?, LastOf]
  | append_singleton pairs p ih =>
    obtain ⟨k, b⟩ := p
    rw [ofList_snoc]
    constructor
    · intro h
      by_cases hk : name = k
      · subst hk
        rw [get?_insert_self, Option.some.injEq] at h
        subst h
        exact ⟨pairs, [], rfl, by simp⟩
      · rw [get?_insert_of_ne hk] at h
        obtain ⟨before, after, rfl, hn⟩ := ih.mp h
        exact ⟨before, after ++ [(k, b)], by simp, by simp_all⟩
    · rintro ⟨before, after, he, hn⟩
      rcases split_snoc he with ⟨-, -, hp⟩ | ⟨after', rfl, hs⟩
      · cases hp
        exact get?_insert_self name v _
      · have hk : name ≠ k := by
          rintro rfl
          simp at hn
        rw [get?_insert_of_ne hk]
        exact ih.mpr ⟨before, after', hs, fun h => hn (by simp [h])⟩

theorem Ordered.filterMap {t : Table String β} (ht : t.Ordered) (g : β → Option γ) :
    Ordered (t.filterMap fun p => (g p.2).map fun c => (p.1, c)) := by
  rw [Ordered, List.pairwise_map] at ht ⊢
  refine ht.filterMap _ ?_
  intro p q hpq p' hp' q' hq'
  obtain ⟨_, -, rfl⟩ := Option.map_eq_some_iff.mp hp'
  obtain ⟨_, -, rfl⟩ := Option.map_eq_some_iff.mp hq'
  exact hpq

theorem Ordered.get?_above {t : Table String β} {k : String} {b : β}
    (h : Table.Ordered ((k, b) :: t)) : t.get? k = none := by
  cases hv : t.get? k with
  | none => rfl
  | some v =>
    have hk := (List.pairwise_cons.mp h).1 k (List.mem_map.mpr ⟨_, mem_of_get? hv, rfl⟩)
    exact absurd hk (String.lt_irrefl k)

/-- As no name comes twice, dropping a pair uncovers no other value under its name. -/
theorem Ordered.get?_filterMap {t : Table String β} (ht : t.Ordered) (g : β → Option γ)
    (name : String) :
    get? name (t.filterMap fun p => (g p.2).map fun c => (p.1, c)) = (t.get? name).bind g := by
  induction t with
  | nil => rfl
  | cons p t ih =>
    obtain ⟨k, b⟩ := p
    have hs := ih (List.pairwise_cons.mp ht).2
    by_cases hn : name = k
    · subst hn
      cases hg : g b with
      | none => simp [hg, hs, ht.get?_above, get?]
      | some c => simp [hg, get?]
    · cases hg : g b with
      | none => simp [hg, hs, get?, hn]
      | some c => simp [hg, hs, get?, hn]

end

end Table

namespace ServerReply

inductive Tells : ServerReply → String → Prop
  | status (s : String) : Tells (.status s) s
  | bulk (s : String) : Tells (.bulk s.toUTF8.toList) s

theorem asText_ok_iff {r : ServerReply} {s : String} : r.asText = .ok s ↔ r.Tells s := by
  constructor
  · intro h
    cases r with
    | bulk bytes =>
      simp only [asText] at h
      split at h
      · next t ht =>
        cases h
        rw [Json.fromUTF8_eq_some_iff.mp ht]
        exact .bulk _
      · cases h
    | status line => cases h; exact .status s
    | nil | integer _ | list _ => cases h
  · rintro (_ | _)
    · rfl
    · simp only [asText, Json.fromUTF8_eq_some_iff.mpr rfl]

inductive Pairs : List ServerReply → List (String × ServerReply) → Prop
  | nil : Pairs [] []
  | odd (r : ServerReply) : Pairs [r] []
  | cons {r v : ServerReply} {name : String} {items : List ServerReply}
      {pairs : List (String × ServerReply)} :
      r.Tells name → Pairs items pairs → Pairs (r :: v :: items) ((name, v) :: pairs)

end ServerReply

structure Row where
  id : String
  pairs : List (String × ServerReply)

/-- An entry has the identifier of its row, and of the last values under the names those that
are texts. -/
structure Row.Gives (row : Row) (e : Entry) : Prop where
  id : e.id = row.id
  ordered : e.fields.Ordered
  field (name text : String) :
    e.field? name = some text ↔ ∃ v, LastOf row.pairs name v ∧ v.Tells text

namespace ServerReply

inductive IsRow : ServerReply → Row → Prop
  | bare {r : ServerReply} {id : String} : r.Tells id → IsRow (.list [r, .nil]) ⟨id, []⟩
  | full {r : ServerReply} {id : String} {items : List ServerReply}
      {pairs : List (String × ServerReply)} :
      r.Tells id → Pairs items pairs → IsRow (.list [r, .list items]) ⟨id, pairs⟩

inductive IsStream : ServerReply → List Row → Prop
  | named {r : ServerReply} {name : String} {items : List ServerReply} {rows : List Row} :
      r.Tells name → List.Forall₂ IsRow items rows → IsStream (.list [r, .list items]) rows

inductive IsAnswer : ServerReply → List Row → Prop
  | nothing : IsAnswer .nil []
  | streams {items : List ServerReply} {rows : List (List Row)} :
      List.Forall₂ IsStream items rows → IsAnswer (.list items) rows.flatten

theorem asMap_pairs {items : List ServerReply} {pairs : List (String × ServerReply)}
    (h : Pairs items pairs) : (list items).asMap = .ok (Table.ofList pairs) := by
  have hp : List.Forall₂ (fun p q => (do let k ← p.1.asText; .ok (k, p.2)) = Except.ok q)
      (pairUp items) pairs := by
    induction h with
    | nil | odd _ => exact .nil
    | cons hr _ ih => exact .cons (by rw [asText_ok_iff.mpr hr]; rfl) ih
  rw [asMap, mapM_ok_iff.mpr hp]
  rfl

/-- A list of a name and a value is a map of one pair. -/
theorem asMap_single {r : ServerReply} {name : String} (h : r.Tells name) (v : ServerReply) :
    (list [r, v]).asMap = .ok [(name, v)] :=
  asMap_pairs (.cons h .nil)

theorem asFields_of_map {r : ServerReply} {pairs : List (String × ServerReply)}
    (h : r.asMap = .ok (Table.ofList pairs)) :
    ∃ fields, r.asFields = .ok fields ∧ fields.Ordered ∧ ∀ name text,
      fields.get? name = some text ↔ ∃ v, LastOf pairs name v ∧ v.Tells text := by
  have ho := Table.ofList_ordered pairs
  have ht (v : ServerReply) (text : String) : v.asText.toOption = some text ↔ v.Tells text := by
    rw [← asText_ok_iff]
    cases v.asText <;> simp [Except.toOption]
  refine ⟨_, by rw [asFields, h]; rfl, ho.filterMap fun v => v.asText.toOption, ?_⟩
  intro name text
  rw [ho.get?_filterMap fun v => v.asText.toOption, Option.bind_eq_some_iff]
  simp only [Table.get?_ofList, ht]

theorem rowEntries_row {r : ServerReply} {row : Row} (h : r.IsRow row) :
    ∃ es, r.rowEntries = .ok es ∧ List.Forall₂ Row.Gives [row] es := by
  have fields : ∃ id v fields, r.asMap = .ok [(id, v)] ∧ v.asFields = .ok fields ∧
      row.Gives ⟨id, fields⟩ := by
    cases h with
    | @bare r id hr =>
      have hn : nil.asMap = .ok (Table.ofList []) := rfl
      obtain ⟨fields, hf, ho, hg⟩ := asFields_of_map hn
      exact ⟨id, .nil, fields, asMap_single hr _, hf, rfl, ho, hg⟩
    | @full r id items pairs hr hp =>
      obtain ⟨fields, hf, ho, hg⟩ := asFields_of_map (asMap_pairs hp)
      exact ⟨id, .list items, fields, asMap_single hr _, hf, rfl, ho, hg⟩
  obtain ⟨id, v, fields, hm, hf, hg⟩ := fields
  refine ⟨[⟨id, fields⟩], ?_, .cons hg .nil⟩
  rw [rowEntries, hm]
  change List.mapM _ _ = _
  rw [List.mapM_cons, hf]
  rfl

theorem streamEntries_stream {r : ServerReply} {rows : List Row} (h : r.IsStream rows) :
    ∃ es, r.streamEntries = .ok es ∧ List.Forall₂ Row.Gives rows es := by
  obtain ⟨hr, hrows⟩ := h
  obtain ⟨ess, hm, hg⟩ := exists_mapM (fun _ _ h => rowEntries_row h) hrows
  refine ⟨ess.flatten, ?_, ?_⟩
  · simp [streamEntries, asMap_single hr, asList, hm, bind, Except.bind, pure, Except.pure]
  · have hrows := List.rel_flatten (List.forall₂_map_left_iff.mpr hg)
    rwa [← List.flatMap_def, List.flatMap_singleton'] at hrows

theorem asEntries_answer {r : ServerReply} {rows : List Row} (h : r.IsAnswer rows) :
    ∃ es, r.asEntries = .ok es ∧ List.Forall₂ Row.Gives rows es := by
  cases h with
  | nothing => exact ⟨[], rfl, .nil⟩
  | streams h =>
    obtain ⟨ess, hm, hg⟩ := exists_mapM (fun _ _ h => streamEntries_stream h) h
    refine ⟨ess.flatten, ?_, List.rel_flatten hg⟩
    simp [asEntries, asList, hm, bind, Except.bind]

end ServerReply

namespace Link

/-- The well-formed answer to a read gives one entry for each row of all its streams, in order. -/
theorem every_row_returned (label : String) (timeout : Span) (stream group consumer : String)
    (count : Nat) (block : Span) (delay : Nat) {reply : ServerReply} {rows : List Row}
    (h : reply.IsAnswer rows) :
    ∃ es, ((connected label timeout).perform (.readGroup stream group consumer count block)
        ⟨.ok reply, delay⟩).result = .ok (.entries es) ∧
      List.Forall₂ Row.Gives rows es := by
  obtain ⟨es, he, hg⟩ := ServerReply.asEntries_answer h
  refine ⟨es, ?_, hg⟩
  rw [perform]
  simp [connected, givesUp, Operation.finish, Operation.gained, he]

def mixedAnswer : ServerReply :=
  .list [
    .list [.bulk "s".toUTF8.toList, .list [
      .list [.bulk "1-0".toUTF8.toList, .list [.status "k", .bulk [0xFF]]],
      .list [.status "2-0", .nil]]],
    .list [.status "t", .list [
      .list [.status "1-0", .list [.status "a", .status "x", .status "b", .status "y",
        .bulk "a".toUTF8.toList, .integer 5, .status "odd"]]]]]

theorem mixed_rows_returned :
    let rows : List Row := [⟨"1-0", [("k", .bulk [0xFF])]⟩, ⟨"2-0", []⟩,
      ⟨"1-0", [("a", .status "x"), ("b", .status "y"), ("a", .integer 5)]⟩]
    mixedAnswer.IsAnswer rows ∧
      ∃ es, ((connected "node" (.ofMillis 10)).perform (.readGroup "s" "g" "c" 3 (.ofMillis 100))
          ⟨.ok mixedAnswer, 7⟩).result = .ok (.entries es) ∧
        List.Forall₂ Row.Gives rows es := by
  have h : mixedAnswer.IsAnswer ([[⟨"1-0", [("k", .bulk [0xFF])]⟩, ⟨"2-0", []⟩],
      [⟨"1-0", [("a", .status "x"), ("b", .status "y"), ("a", .integer 5)]⟩]] :
        List (List Row)).flatten :=
    .streams (.cons (.named (.bulk "s")
        (.cons (.full (.bulk "1-0") (.cons (.status "k") .nil)) (.cons (.bare (.status "2-0")) .nil)))
      (.cons (.named (.status "t") (.cons (.full (.status "1-0")
        (.cons (.status "a") (.cons (.status "b") (.cons (.bulk "a") (.odd _))))) .nil)) .nil))
  exact ⟨h, every_row_returned "node" (.ofMillis 10) "s" "g" "c" 3 (.ofMillis 100) 7 h⟩

end Link

end TaskRelay
