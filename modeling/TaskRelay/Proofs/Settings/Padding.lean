import TaskRelay.Proofs.Settings.Variables
import TaskRelay.Settings.Runner

/-!
# Blanks around whole numbers

A trimmed reading sees of a variable its text without the blanks at both ends, and nothing of
one that is blank. Connection and stream settings read their whole numbers so: blanks around a
number change nothing, and a blank variable is as good as one that is unset. The number of tasks
of a runner is read as it is set. Blanks around it are refused, and so is a blank variable.
-/

set_option autoImplicit false

namespace TaskRelay

open Text

def Pads (v w : String) : Prop :=
  ∃ before after, w.toList = before ++ v.toList ++ after ∧
    (∀ c ∈ before, isBlank c = true) ∧ ∀ c ∈ after, isBlank c = true

section
variable {v w : String}

theorem Pads.trim_eq (h : Pads v w) : trim w = trim v := by
  obtain ⟨before, after, hw, hb, ha⟩ := h
  obtain ⟨⟨b, a, hv, hb', ha'⟩, hfirst, hlast⟩ := trims_trimChars v.toList
  have around : w.toList = (before ++ b) ++ trimChars v.toList ++ (a ++ after) := by
    rw [hw]
    nth_rewrite 1 [hv]
    simp only [List.append_assoc]
  have ht : Trims w.toList (trimChars v.toList) :=
    ⟨⟨_, _, around, fun c hc => (List.mem_append.mp hc).elim (hb c) (hb' c),
      fun c hc => (List.mem_append.mp hc).elim (ha' c) (ha c)⟩, hfirst, hlast⟩
  rw [trim, trim, ← ht.eq_trimChars]

theorem isAllBlank_iff {s : String} : isAllBlank s = true ↔ AllBlank s := List.all_eq_true

theorem Pads.around (before after : String) (hw : w = before ++ v ++ after)
    (hb : isAllBlank before = true) (ha : isAllBlank after = true) : Pads v w :=
  ⟨before.toList, after.toList, by rw [hw, String.toList_append, String.toList_append],
    isAllBlank_iff.mp hb, isAllBlank_iff.mp ha⟩

theorem Pads.allBlank_iff (h : Pads v w) : AllBlank w ↔ AllBlank v := by
  obtain ⟨before, after, hw, hb, ha⟩ := h
  rw [AllBlank, AllBlank, hw]
  constructor
  · exact fun hall c hc => hall c (by simp [hc])
  · intro hall c hc
    rcases List.mem_append.mp hc with hc | hc
    · exact (List.mem_append.mp hc).elim (hb c) (hall c)
    · exact ha c hc

theorem Pads.some_blank (h : Pads v w) (hne : w ≠ v) : ∃ c ∈ w.toList, isBlank c = true := by
  obtain ⟨before, after, hw, hb, ha⟩ := h
  cases before with
  | cons c before => exact ⟨c, by simp [hw], hb c List.mem_cons_self⟩
  | nil =>
    cases after with
    | cons c after => exact ⟨c, by simp [hw], ha c List.mem_cons_self⟩
    | nil => exact absurd (String.toList_inj.mp (by simpa using hw)) hne

end

namespace Environment

def set (env : Environment) (name text : String) : Environment :=
  Table.insert name (.text text) env

def unset (env : Environment) (name : String) : Environment := Table.erase name env

def trimmed? (env : Environment) (name : String) : Option String :=
  (env.nonBlank? name).map trim

section
variable (env : Environment) (name : String)

theorem text?_set_self (s : String) : (env.set name s).text? name = some s := by
  rw [text?, set, Table.get?_insert_self]

theorem text?_unset_self : (env.unset name).text? name = none := by
  rw [text?, unset, Table.get?_erase_self]

variable {name}

theorem text?_set_of_ne {n : String} (h : n ≠ name) (s : String) :
    (env.set name s).text? n = env.text? n := by
  rw [text?, set, Table.get?_insert_of_ne h, text?]

theorem text?_unset_of_ne {n : String} (h : n ≠ name) :
    (env.unset name).text? n = env.text? n := by
  rw [text?, unset, Table.get?_erase_of_ne h, text?]

theorem nonBlank?_set {s : String} : (env.set name s).nonBlank? name =
    if isAllBlank s then none else some s := by
  rw [nonBlank?, text?_set_self]
  cases h : isAllBlank s <;> simp [Option.filter, h]

/-- A padded text differs from the text itself for nobody who trims it, and at no other name. -/
theorem trimmed?_pads {v w : String} (h : Pads v w) (n : String) :
    (env.set name v).trimmed? n = (env.set name w).trimmed? n := by
  by_cases hn : n = name
  · subst hn
    have hb : isAllBlank w = isAllBlank v := by
      rw [Bool.eq_iff_iff, isAllBlank_iff, isAllBlank_iff, h.allBlank_iff]
    rw [trimmed?, trimmed?, nonBlank?_set, nonBlank?_set, hb]
    split
    · rfl
    · exact congrArg some h.trim_eq.symm
  · rw [trimmed?, trimmed?, nonBlank?, nonBlank?, text?_set_of_ne env hn, text?_set_of_ne env hn]

theorem nonBlank?_pads {v w n : String} (hn : n ≠ name) :
    (env.set name v).nonBlank? n = (env.set name w).nonBlank? n := by
  rw [nonBlank?, nonBlank?, text?_set_of_ne env hn, text?_set_of_ne env hn]

theorem nonBlank?_blank {v : String} (h : AllBlank v) (n : String) :
    (env.set name v).nonBlank? n = (env.unset name).nonBlank? n := by
  by_cases hn : n = name
  · subst hn
    rw [nonBlank?_set, if_pos (isAllBlank_iff.mpr h), nonBlank?, text?_unset_self]
    rfl
  · rw [nonBlank?, nonBlank?, text?_set_of_ne env hn, text?_unset_of_ne env hn]

theorem setting_trimmed {α : Type} (n : String) (read : String → Option α) (d : α) :
    (env.setting n read d).toOption = (env.trimmed? n).elim (some d) read := by
  rw [setting, trimmed?]
  cases env.nonBlank? n with
  | none => rfl
  | some raw => cases h : read (trim raw) <;> simp [Except.toOption, h]

end

end Environment

theorem toOption_bind {α β ε : Type} (x : Except ε α) (f : α → Except ε β) :
    (x >>= f).toOption = x.toOption.bind fun a => (f a).toOption := by
  cases x <;> rfl

section
variable {env env' : Environment}

namespace ConnectionSettings

def kept : List String := ["REDIS_URL", "REDIS_ADDR", "REDIS_USERNAME", "REDIS_PASSWORD"]

theorem ofEnvironment_trimmed (numbers : ∀ n, env.trimmed? n = env'.trimmed? n)
    (texts : ∀ n ∈ kept, env.nonBlank? n = env'.nonBlank? n) :
    (ofEnvironment env).toOption = (ofEnvironment env').toOption := by
  simp only [ofEnvironment, toOption_bind, Environment.setting_trimmed, numbers,
    Environment.textOr, texts "REDIS_URL" (by decide), texts "REDIS_ADDR" (by decide),
    texts "REDIS_USERNAME" (by decide), texts "REDIS_PASSWORD" (by decide)]

theorem ofEnvironment_congr (same : ∀ n, env.nonBlank? n = env'.nonBlank? n) :
    ofEnvironment env = ofEnvironment env' := by
  simp only [ofEnvironment, Environment.setting, Environment.textOr, same]

end ConnectionSettings

namespace StreamSettings

def kept : List String := ["STREAM_NAME", "STREAM_GROUP", "STREAM_CONSUMER"]

theorem ofEnvironment_trimmed (numbers : ∀ n, env.trimmed? n = env'.trimmed? n)
    (texts : ∀ n ∈ kept, env.nonBlank? n = env'.nonBlank? n) :
    (ofEnvironment env).toOption = (ofEnvironment env').toOption := by
  simp only [ofEnvironment, toOption_bind, Environment.setting_trimmed, numbers,
    Environment.textOr, texts "STREAM_NAME" (by decide), texts "STREAM_GROUP" (by decide),
    texts "STREAM_CONSUMER" (by decide)]

theorem ofEnvironment_congr (same : ∀ n, env.nonBlank? n = env'.nonBlank? n) :
    ofEnvironment env = ofEnvironment env' := by
  simp only [ofEnvironment, Environment.setting, Environment.textOr, same]

end StreamSettings

end

theorem readUnsigned_some_iff {s : String} {n : Nat} :
    readUnsigned s = some n ↔ Writes s.toList n ∧ n ≤ maxU64 := by
  rw [readUnsigned, toOption_some_iff, natural_ok_iff]

theorem readUnsigned_eq_none_iff {s : String} :
    readUnsigned s = none ↔ ∀ n ≤ maxU64, ¬Writes s.toList n := by
  rw [Option.eq_none_iff_forall_ne_some]
  refine forall_congr' fun n => ?_
  rw [Ne, readUnsigned_some_iff]
  tauto

theorem digit_not_blank {c : Char} (h : c.isDigit = true) : isBlank c = false := by
  obtain ⟨h0, h9⟩ : 48 ≤ c.val ∧ c.val ≤ 57 := by simpa [Char.isDigit] using h
  have h0' : 48 ≤ c.toNat := h0
  have h9' : c.toNat ≤ 57 := h9
  simp only [isBlank, Bool.or_eq_false_iff, Bool.and_eq_false_iff, decide_eq_false_iff_not,
    beq_eq_false_iff_ne]
  omega

/-- A number is written without blanks. -/
theorem writes_not_blank {cs : List Char} {n : Nat} (h : Writes cs n) :
    ∀ c ∈ cs, isBlank c = false := by
  obtain ⟨ds, rfl | rfl, hd⟩ := h
  · exact fun c hc => digit_not_blank (hd.digits c hc)
  · intro c hc
    rcases List.mem_cons.mp hc with rfl | hc
    · decide
    · exact digit_not_blank (hd.digits c hc)

/-- A text with a blank in it is no number, and neither is one with nothing else. -/
theorem readUnsigned_blank {s : String} (h : ∃ c ∈ s.toList, isBlank c = true) :
    readUnsigned s = none := by
  obtain ⟨c, hc, hb⟩ := h
  rw [readUnsigned_eq_none_iff]
  intro n _ hw
  rw [writes_not_blank hw c hc] at hb
  cases hb

theorem readUnsigned_allBlank {s : String} (h : AllBlank s) : readUnsigned s = none := by
  cases hs : s.toList with
  | nil => rw [readUnsigned, natural, hs]; rfl
  | cons c cs =>
    have hc : c ∈ s.toList := hs ▸ List.mem_cons_self
    exact readUnsigned_blank ⟨c, hc, h c hc⟩

namespace RunnerSettings

theorem ofEnvironment_set (env : Environment) (s : String) :
    (ofEnvironment (env.set "WORKER_CONCURRENCY" s)).toOption =
      (readUnsigned s).map fun n => { default with maxTasks := max n 1 } := by
  rw [ofEnvironment, env.text?_set_self, readUnsigned]
  cases h : natural maxU64 s <;> simp [h, Except.toOption]

theorem ofEnvironment_unset (env : Environment) :
    ofEnvironment (env.unset "WORKER_CONCURRENCY") = .ok default := by
  rw [ofEnvironment, env.text?_unset_self]

end RunnerSettings

inductive NumberVariable
  | database
  | connectionTimeout
  | commandTimeout
  | blockTime
  | maxLength
  | concurrency
  deriving DecidableEq, Repr

inductive Made
  | connection (c : ConnectionSettings)
  | stream (s : StreamSettings)
  | runner (r : RunnerSettings)
  deriving DecidableEq

namespace NumberVariable

def name : NumberVariable → String
  | .database => "REDIS_DB"
  | .connectionTimeout => "REDIS_CONNECTION_TIMEOUT_SECS"
  | .commandTimeout => "REDIS_COMMAND_TIMEOUT_SECS"
  | .blockTime => "STREAM_BLOCK_MS"
  | .maxLength => "STREAM_MAX_LENGTH"
  | .concurrency => "WORKER_CONCURRENCY"

def made (x : NumberVariable) (env : Environment) : Except String Made :=
  match x with
  | .database | .connectionTimeout | .commandTimeout =>
    ((ConnectionSettings.ofEnvironment env).mapError StoreError.message).map .connection
  | .blockTime | .maxLength =>
    ((StreamSettings.ofEnvironment env).mapError StoreError.message).map .stream
  | .concurrency =>
    ((RunnerSettings.ofEnvironment env).mapError RunnerSettings.Fault.message).map .runner

end NumberVariable

theorem toOption_made {α β ε ε' : Type} (x : Except ε α) (f : ε → ε') (g : α → β) :
    ((x.mapError f).map g).toOption = x.toOption.map g := by
  cases x <;> rfl

namespace NumberVariable

section
variable {x : NumberVariable} (hx : x ≠ .concurrency) {env env' : Environment}
include hx

/-- Of a variable that is read trimmed only what the reading sees of it counts. -/
theorem made_trimmed (numbers : ∀ n, env.trimmed? n = env'.trimmed? n)
    (texts : ∀ n, n ≠ x.name → env.nonBlank? n = env'.nonBlank? n) :
    (x.made env).toOption = (x.made env').toOption := by
  have kept : x.name ∉ ConnectionSettings.kept ++ StreamSettings.kept := by
    cases x <;> decide
  have other {n : String} (hn : n ∈ ConnectionSettings.kept ++ StreamSettings.kept) :
      env.nonBlank? n = env'.nonBlank? n := texts n fun h => kept (h ▸ hn)
  have connection := ConnectionSettings.ofEnvironment_trimmed numbers
    fun n hn => other (List.mem_append_left _ hn)
  have stream := StreamSettings.ofEnvironment_trimmed numbers
    fun n hn => other (List.mem_append_right _ hn)
  cases x with
  | concurrency => exact absurd rfl hx
  | database | connectionTimeout | commandTimeout =>
    simp only [made, toOption_made, connection]
  | blockTime | maxLength => simp only [made, toOption_made, stream]

theorem made_congr (same : ∀ n, env.nonBlank? n = env'.nonBlank? n) :
    x.made env = x.made env' := by
  cases x with
  | concurrency => exact absurd rfl hx
  | database | connectionTimeout | commandTimeout =>
    simp only [made, ConnectionSettings.ofEnvironment_congr same]
  | blockTime | maxLength => simp only [made, StreamSettings.ofEnvironment_congr same]

end

section
variable (env : Environment)

theorem made_concurrency (s : String) :
    (concurrency.made (env.set concurrency.name s)).toOption =
      (readUnsigned s).map fun n =>
        .runner { RunnerSettings.default with maxTasks := max n 1 } := by
  rw [made, toOption_made, name, RunnerSettings.ofEnvironment_set, Option.map_map]
  rfl

/-- Blanks around the number of tasks change nothing only if it is refused without them. -/
theorem concurrency_pads {v w : String} (h : Pads v w) :
    ((concurrency.made (env.set concurrency.name v)).toOption =
      (concurrency.made (env.set concurrency.name w)).toOption ↔
        w = v ∨ ∀ n ≤ maxU64, ¬Writes v.toList n) := by
  rw [made_concurrency, made_concurrency, ← readUnsigned_eq_none_iff]
  by_cases hw : w = v
  · simp [hw]
  · rw [readUnsigned_blank (h.some_blank hw)]
    simp [hw]

theorem concurrency_blank {v : String} (h : AllBlank v) :
    concurrency.made (env.set concurrency.name v) ≠
      concurrency.made (env.unset concurrency.name) := by
  intro he
  have hs := made_concurrency env v
  rw [readUnsigned_allBlank h, he, made, toOption_made, name,
    RunnerSettings.ofEnvironment_unset] at hs
  cases hs

end

end NumberVariable

/-- Whatever else is set, blanks around a whole number make the same settings as the number
alone, or are refused with it, and a blank variable does what an unset one does. This holds of
every variable but the number of tasks. Blanks around that make a difference exactly if
it is a number without them, and a blank one is refused where an unset one is not. -/
theorem numbers_read_alike (x : NumberVariable) (env : Environment) {v w : String}
    (padded : Pads v w) :
    ((x.made (env.set x.name v)).toOption = (x.made (env.set x.name w)).toOption ↔
      (x = .concurrency → w = v ∨ ∀ n ≤ maxU64, ¬Writes v.toList n)) ∧
    (AllBlank v →
      (x.made (env.set x.name v) = x.made (env.unset x.name) ↔ x ≠ .concurrency)) := by
  by_cases hx : x = .concurrency
  · subst hx
    exact ⟨by simpa using NumberVariable.concurrency_pads env padded,
      fun hb => by simpa using NumberVariable.concurrency_blank env hb⟩
  · have alike := NumberVariable.made_trimmed hx (env.trimmed?_pads padded)
      fun n hn => env.nonBlank?_pads hn
    refine ⟨by simp [hx, alike], fun hb => ?_⟩
    simp [hx, NumberVariable.made_congr hx (env.nonBlank?_blank hb)]

/-- A length with blanks of several kinds around it, and one that is blank. -/
theorem padded_length_read :
    let env : Environment := [("STREAM_NAME", .text " s ")]
    let x := NumberVariable.maxLength
    Pads "8" "\u2003 8\u00a0" ∧ Pads "\t" " \t\n" ∧ AllBlank "\t" ∧
    x.made (env.set x.name "8") =
      .ok (.stream { StreamSettings.default with stream := " s ", maxLength := 8 }) ∧
    (x.made (env.set x.name "8")).toOption = (x.made (env.set x.name "\u2003 8\u00a0")).toOption ∧
    x.made (env.set x.name "\t") = x.made (env.unset x.name) := by
  intro env x
  have padded : Pads "8" "\u2003 8\u00a0" := .around "\u2003 " "\u00a0" rfl rfl rfl
  have blanks : Pads "\t" " \t\n" := .around " " "\n" rfl rfl rfl
  have blank : AllBlank "\t" := isAllBlank_iff.mp rfl
  exact ⟨padded, blanks, blank, by decide +kernel,
    (numbers_read_alike x env padded).1.mpr nofun,
    ((numbers_read_alike x env blanks).2 blank).mpr nofun⟩

/-- Eight tasks with a blank on each side are refused, and so is an empty text, where no text
at all leaves the default. -/
theorem padded_concurrency_refused :
    let x := NumberVariable.concurrency
    Pads "8" " 8 " ∧ AllBlank "" ∧
    x.made (Environment.set [] x.name "8") = .ok (.runner ⟨8, 30000, 1000⟩) ∧
    x.made (Environment.set [] x.name " 8 ") =
      .error "invalid WORKER_CONCURRENCY ' 8 ': invalid digit found in string" ∧
    x.made (Environment.set [] x.name "") =
      .error "invalid WORKER_CONCURRENCY '': cannot parse integer from empty string" ∧
    x.made (Environment.unset [] x.name) = .ok (.runner RunnerSettings.default) :=
  ⟨.around " " " " rfl rfl rfl, isAllBlank_iff.mp rfl,
    by decide +kernel, by decide +kernel, by decide +kernel, by decide +kernel⟩

end TaskRelay
