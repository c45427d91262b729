import Mathlib.Algebra.Group.Nat.Defs
import TaskRelay.Proofs.Text.Cuts
import TaskRelay.Proofs.Text.Integers
import TaskRelay.Server.Operation
import TaskRelay.Settings.Connection
import TaskRelay.Settings.EnvFile
import TaskRelay.Settings.Stream

/-!
# Settings read from variables

A variable settles what it is read for: with no text or a blank one it leaves the default, and
otherwise it has to be written in the right form. Settings are made exactly if every variable
that is read does so, and the first that does not, in the order of reading, is named. Each step
of the reading adds one variable to those that are settled.
-/

set_option autoImplicit false

namespace TaskRelay

open Text

def IsUnsigned (raw : String) (n : Nat) : Prop :=
  ∃ cs, Trims raw.toList cs ∧ Writes cs n ∧ n ≤ maxU64

def IsSigned (raw : String) (z : Int) : Prop :=
  ∃ cs, Trims raw.toList cs ∧ WritesSigned cs z ∧ -(maxI64 + 1) ≤ z ∧ z ≤ maxI64

def IsFlag (raw : String) (b : Bool) : Prop :=
  Trims raw.toList (if b then "true" else "false").toList

def IsKept (raw s : String) : Prop := s = raw

theorem toOption_some_iff {α ε : Type} {x : Except ε α} {a : α} :
    x.toOption = some a ↔ x = .ok a := by
  cases x <;> simp [Except.toOption]

theorem trims_iff {raw : String} {cs : List Char} :
    Trims raw.toList cs ↔ (trim raw).toList = cs := by
  rw [trim, String.toList_ofList]
  constructor
  · exact fun h => h.eq_trimChars.symm
  · rintro rfl
    exact trims_trimChars _

theorem readUnsigned_iff {raw : String} {n : Nat} :
    readUnsigned (trim raw) = some n ↔ IsUnsigned raw n := by
  rw [readUnsigned, toOption_some_iff, natural_ok_iff]
  constructor
  · exact fun ⟨hw, hn⟩ => ⟨_, trims_iff.mpr rfl, hw, hn⟩
  · rintro ⟨cs, ht, hw, hn⟩
    exact ⟨trims_iff.mp ht ▸ hw, hn⟩

theorem IsUnsigned.unique {raw : String} {m n : Nat} (hm : IsUnsigned raw m)
    (hn : IsUnsigned raw n) : m = n := by
  rw [← readUnsigned_iff] at hm hn
  rw [hm] at hn
  exact Option.some.inj hn

theorem readSigned_iff {raw : String} {z : Int} :
    readSigned (trim raw) = some z ↔ IsSigned raw z := by
  rw [readSigned, toOption_some_iff, integer_ok_iff]
  constructor
  · exact fun ⟨hw, hz⟩ => ⟨_, trims_iff.mpr rfl, hw, hz⟩
  · rintro ⟨cs, ht, hw, hz⟩
    exact ⟨trims_iff.mp ht ▸ hw, hz⟩

theorem readFlag_iff {raw : String} {b : Bool} :
    readFlag (trim raw) = some b ↔ IsFlag raw b := by
  have hs (s : String) : (trim raw).toList = s.toList ↔ trim raw = s := String.toList_inj
  rw [IsFlag, trims_iff, hs, readFlag]
  by_cases ht : trim raw = "true"
  · rw [if_pos ht, ht]
    cases b <;> decide
  · by_cases hf : trim raw = "false"
    · rw [if_neg ht, if_pos hf, hf]
      cases b <;> decide
    · rw [if_neg ht, if_neg hf]
      cases b <;> simp [ht, hf]

namespace Environment

def after (env : Environment) : Option String → Environment
  | some file => env.fillFrom file
  | none => env

end Environment

def AllBlank (raw : String) : Prop := ∀ c ∈ raw.toList, isBlank c = true

section
variable {α β : Type}

/-- What a variable settles: the default if it has no text or a blank one, and otherwise what its
text stands for. -/
inductive Settles (env : Environment) (name : String) (W : String → α → Prop) (default : α) :
    α → Prop
  | unset (h : Table.get? name env = none) : Settles env name W default default
  | undecodable (h : Table.get? name env = some .undecodable) : Settles env name W default default
  | blank {raw : String} (h : Table.get? name env = some (.text raw)) (hb : AllBlank raw) :
      Settles env name W default default
  | given {raw : String} {a : α} (h : Table.get? name env = some (.text raw))
      (hb : ¬AllBlank raw) (hw : W raw a) : Settles env name W default a

abbrev Variable := String × (String → Prop)

def Accepted (env : Environment) (v : Variable) : Prop :=
  Table.get? v.1 env = none ∨ Table.get? v.1 env = some .undecodable ∨
    ∃ raw, Table.get? v.1 env = some (.text raw) ∧ (AllBlank raw ∨ v.2 raw)

def Names (name : String) (e : StoreError) : Prop :=
  ∃ detail, e = .config (name ++ " " ++ detail)

def FirstNamed (env : Environment) (vs : List Variable) (e : StoreError) : Prop :=
  ∃ before v after, vs = before ++ v :: after ∧ (∀ u ∈ before, Accepted env u) ∧
    ¬Accepted env v ∧ Names v.1 e

variable {env : Environment} {name : String}

theorem nonBlank_cases (env : Environment) (name : String) :
    (env.nonBlank? name = none ∧ ∀ (W : String → α → Prop) (d : α), Settles env name W d d) ∨
    ∃ raw, env.nonBlank? name = some raw ∧ Table.get? name env = some (.text raw) ∧
      ¬AllBlank raw := by
  rw [Environment.nonBlank?, Environment.text?]
  cases h : Table.get? name env with
  | none => exact Or.inl ⟨rfl, fun _ _ => .unset h⟩
  | some v =>
    cases v with
    | undecodable => exact Or.inl ⟨rfl, fun _ _ => .undecodable h⟩
    | text raw =>
      have hi : isAllBlank raw = true ↔ AllBlank raw := List.all_eq_true
      by_cases hb : AllBlank raw
      · refine Or.inl ⟨?_, fun _ _ => .blank h hb⟩
        simp [Option.filter, hi.mpr hb]
      · refine Or.inr ⟨raw, ?_, rfl, hb⟩
        have hn : isAllBlank raw = false := by
          rw [← Bool.not_eq_true, hi]
          exact hb
        simp [Option.filter, hn]

theorem Settles.accepted {W : String → α → Prop} {P : String → Prop} {d a : α}
    (h : Settles env name W d a) (hp : ∀ raw, W raw a → P raw) : Accepted env (name, P) := by
  cases h with
  | unset h => exact Or.inl h
  | undecodable h => exact Or.inr (Or.inl h)
  | blank h hb => exact Or.inr (Or.inr ⟨_, h, Or.inl hb⟩)
  | given h hb hw => exact Or.inr (Or.inr ⟨_, h, Or.inr (hp _ hw)⟩)

theorem Accepted.imp {P P' : String → Prop} (h : Accepted env (name, P))
    (hp : ∀ raw, P raw → P' raw) : Accepted env (name, P') :=
  h.imp_right fun h => h.imp_right fun ⟨raw, hg, ha⟩ => ⟨raw, hg, ha.imp_right (hp raw)⟩

theorem not_accepted {raw : String} {P : String → Prop}
    (h : Table.get? name env = some (.text raw)) (hb : ¬AllBlank raw) (hp : ¬P raw) :
    ¬Accepted env (name, P) := by
  rintro (hn | hn | ⟨raw', hr, ha⟩)
  · rw [h] at hn
    cases hn
  · rw [h] at hn
    cases hn
  · rw [h] at hr
    cases hr
    exact ha.elim hb hp

theorem textOr_settles (env : Environment) (name d : String) :
    Settles env name IsKept d (env.textOr name d) := by
  rw [Environment.textOr]
  rcases nonBlank_cases (α := String) env name with ⟨hn, hd⟩ | ⟨raw, hn, hg, hb⟩
  · rw [hn]
    exact hd _ _
  · rw [hn]
    exact .given hg hb rfl

theorem nonBlank_settles (env : Environment) (name : String) :
    Settles env name (fun raw s => s = some raw) none (env.nonBlank? name) := by
  rcases nonBlank_cases (α := Option String) env name with ⟨hn, hd⟩ | ⟨raw, hn, hg, hb⟩
  · rw [hn]
    exact hd _ _
  · rw [hn]
    exact .given hg hb rfl

/-- A variable settles something, or it is refused by its name. -/
theorem setting_cases {W : String → α → Prop} {read : String → Option α}
    (hr : ∀ raw a, read (trim raw) = some a ↔ W raw a) (env : Environment) (name : String)
    (d : α) :
    (∃ a, env.setting name read d = .ok a ∧ Settles env name W d a) ∨
    ∃ e, env.setting name read d = .error e ∧ Names name e ∧
      ¬Accepted env (name, fun raw => ∃ a, W raw a) := by
  rw [Environment.setting]
  rcases nonBlank_cases (α := α) env name with ⟨hn, hd⟩ | ⟨raw, hn, hg, hb⟩
  · rw [hn]
    exact Or.inl ⟨d, rfl, hd W d⟩
  · rw [hn]
    cases ha : read (trim raw) with
    | some a => exact Or.inl ⟨a, by simp only [ha], .given hg hb ((hr raw a).mp ha)⟩
    | none =>
      refine Or.inr ⟨_, by simp only [ha]; rfl, ⟨s!"has an invalid value: '{raw}'", ?_⟩, ?_⟩
      · congr 1
        apply String.toList_inj.mp
        simp [toString]
      · refine not_accepted hg hb ?_
        rintro ⟨a, hw⟩
        rw [(hr raw a).mpr hw] at ha
        cases ha

structure Checked (env : Environment) (vs : List Variable) (r : Except StoreError β)
    (Q : β → Prop) : Prop where
  ok : ∀ b, r = .ok b → (∀ v ∈ vs, Accepted env v) ∧ Q b
  error : ∀ e, r = .error e → FirstNamed env vs e

variable {vs : List Variable} {Q : β → Prop}

theorem checked_done {b : β} (hq : Q b) : Checked env [] (.ok b) Q where
  ok b' h := by
    cases h
    exact ⟨nofun, hq⟩
  error e h := nomatch h

theorem checked_refused {e : StoreError} {P : String → Prop} (hn : Names name e)
    (ha : ¬Accepted env (name, P)) : Checked env ((name, P) :: vs) (.error e : Except _ β) Q where
  ok b h := nomatch h
  error e' h := by
    cases h
    exact ⟨[], _, vs, rfl, nofun, ha, hn⟩

theorem Checked.behind {v : Variable} {r : Except StoreError β} (h : Checked env vs r Q)
    (hv : Accepted env v) : Checked env (v :: vs) r Q where
  ok b hb := by
    obtain ⟨hall, hq⟩ := h.ok b hb
    exact ⟨List.forall_mem_cons.mpr ⟨hv, hall⟩, hq⟩
  error e he := by
    obtain ⟨before, u, after, rfl, hb, hu, hn⟩ := h.error e he
    exact ⟨v :: before, u, after, rfl, List.forall_mem_cons.mpr ⟨hv, hb⟩, hu, hn⟩

theorem Checked.ok_iff {r : Except StoreError β} (h : Checked env vs r Q) :
    (∃ b, r = .ok b) ↔ ∀ v ∈ vs, Accepted env v := by
  constructor
  · rintro ⟨b, hb⟩
    exact (h.ok b hb).1
  · intro hall
    cases r with
    | ok b => exact ⟨b, rfl⟩
    | error e =>
      obtain ⟨before, v, after, rfl, -, hv, -⟩ := h.error e rfl
      exact absurd (hall v (List.mem_append_right _ List.mem_cons_self)) hv

theorem Checked.bind {a : α} {k : α → Except StoreError β} (h : Checked env vs (k a) Q) :
    Checked env vs (.ok a >>= k) Q := h

/-- One step: what stands behind a setting is reached with what the variable settles. -/
theorem checked_setting {W : String → α → Prop} {read : String → Option α}
    (hr : ∀ raw a, read (trim raw) = some a ↔ W raw a) (d : α) {k : α → Except StoreError β}
    (hk : ∀ a, Settles env name W d a → Checked env vs (k a) Q) :
    Checked env ((name, fun raw => ∃ a, W raw a) :: vs) (env.setting name read d >>= k) Q := by
  rcases setting_cases hr env name d with ⟨a, ha, hs⟩ | ⟨e, he, hn, hv⟩
  · rw [ha]
    exact (hk a hs).bind.behind (hs.accepted fun _ hw => ⟨a, hw⟩)
  · rw [he]
    exact checked_refused hn hv

end

namespace Environment

theorem text_insert {env : Environment} {name other s : String} {v : EnvValue}
    (ho : env.text? other = none) (hs : env.text? name = some s) :
    Environment.text? (Table.insert other v env) name = some s := by
  have hne : name ≠ other := by
    rintro rfl
    rw [hs] at ho
    cases ho
  rw [text?, Table.get?_insert_of_ne hne]
  exact hs

theorem text_apply (fuel : Nat) (k : EnvFile.Known) (cs : List Char) {name s : String}
    (hs : k.env.text? name = some s) : (EnvFile.apply fuel k cs).text? name = some s := by
  induction fuel generalizing k cs with
  | zero => exact hs
  | succ fuel ih =>
    rw [EnvFile.apply]
    split
    · exact hs
    · exact hs
    · split
      · exact ih _ _ hs
      · exact hs
      · apply ih
        split
        · exact hs
        · next ho => exact text_insert ho hs

/-- An environment file changes no variable that has a text. -/
theorem text_after {env : Environment} (file : Option String) {name s : String}
    (hs : env.text? name = some s) : (env.after file).text? name = some s := by
  cases file with
  | none => exact hs
  | some text => exact text_apply _ _ _ hs

end Environment

namespace StreamSettings

def checks : List Variable := [
  ("STREAM_BLOCK_MS", fun raw => ∃ ms, IsUnsigned raw ms ∧ 10 ≤ ms),
  ("STREAM_MAX_LENGTH", fun raw => ∃ n, IsUnsigned raw n)]

/-- Settings as variables make them. The wait is at least ten milliseconds, and a group read
asks for exactly as many as were given. -/
structure ReadFrom (env : Environment) (s : StreamSettings) : Prop where
  stream : Settles env "STREAM_NAME" IsKept "streamtask" s.stream
  group : Settles env "STREAM_GROUP" IsKept "streamtask" s.group
  consumer : Settles env "STREAM_CONSUMER" IsKept "streamtask" s.consumer
  block : ∃ ms, Settles env "STREAM_BLOCK_MS" IsUnsigned 60000 ms ∧ 10 ≤ ms ∧ ms < 2 ^ 64 ∧
    s.blockTime.nanos = ms * 1000000 ∧ Operation.blockMillis s.blockTime = ms
  maxLength : Settles env "STREAM_MAX_LENGTH" IsUnsigned 10000 s.maxLength

variable {env : Environment}

theorem unsigned_lt {name : String} {d n : Nat} (hd : d < 2 ^ 64)
    (h : Settles env name IsUnsigned d n) : n < 2 ^ 64 := by
  cases h with
  | given h hb hw =>
    obtain ⟨cs, -, -, hn⟩ := hw
    exact Nat.lt_of_le_of_lt hn (by decide)
  | _ => exact hd

theorem nanos_ofMillis {ms : Nat} (h : ms < 2 ^ 64) :
    (Span.ofMillis (UInt64.ofNat ms)).nanos = ms * 1000000 := by
  have ht : (UInt64.ofNat ms).toNat = ms := UInt64.toNat_ofNat_of_lt' h
  exact congrArg (· * 1000000) ht

theorem names_floor (m n : Nat) :
    Names "STREAM_BLOCK_MS" (.config s!"STREAM_BLOCK_MS must be at least {m}ms, got {n}ms") := by
  have hl : "STREAM_BLOCK_MS must be at least " =
      "STREAM_BLOCK_MS" ++ " " ++ "must be at least " := by decide +kernel
  refine ⟨"must be at least " ++ (toString m ++ ("ms, got " ++ (toString n ++ "ms"))), ?_⟩
  rw [← String.append_assoc, ← hl]
  simp only [String.append_assoc]
  rfl

theorem checkBlockTime_cases {ms : Nat} (h : ms < 2 ^ 64) :
    (10 ≤ ms ∧ checkBlockTime (Span.ofMillis (UInt64.ofNat ms)) =
      .ok (Span.ofMillis (UInt64.ofNat ms))) ∨
    (ms < 10 ∧ ∃ e, checkBlockTime (Span.ofMillis (UInt64.ofNat ms)) = .error e ∧
      Names "STREAM_BLOCK_MS" e) := by
  have hn := nanos_ofMillis h
  have hm : minBlockTime.nanos = 10 * 1000000 := rfl
  rw [checkBlockTime, hn, hm]
  rcases Nat.lt_or_ge ms 10 with hlt | hge
  · exact Or.inr ⟨hlt, _, if_pos (by omega), names_floor _ _⟩
  · exact Or.inl ⟨hge, if_neg (by omega)⟩

theorem blockMillis_ofMillis {ms : Nat} (hge : 10 ≤ ms) (h : ms < 2 ^ 64) :
    Operation.blockMillis (Span.ofMillis (UInt64.ofNat ms)) = ms := by
  have hn : nanosPerMilli = 1000000 := rfl
  rw [Operation.blockMillis, Span.millis, nanos_ofMillis h, hn]
  omega

/-- A wait below the floor is refused like a text in the wrong form. -/
theorem checked_block {β : Type} {vs : List Variable} {Q : β → Prop}
    {k : Span → Except StoreError β}
    (hk : ∀ ms, Settles env "STREAM_BLOCK_MS" IsUnsigned 60000 ms → 10 ≤ ms → ms < 2 ^ 64 →
      Checked env vs (k (Span.ofMillis (UInt64.ofNat ms))) Q) :
    Checked env (("STREAM_BLOCK_MS", fun raw => ∃ ms, IsUnsigned raw ms ∧ 10 ≤ ms) :: vs)
      (env.setting "STREAM_BLOCK_MS" readUnsigned 60000 >>= fun ms =>
        checkBlockTime (Span.ofMillis (UInt64.ofNat ms)) >>= k) Q := by
  rcases setting_cases (fun _ _ => readUnsigned_iff) env "STREAM_BLOCK_MS" 60000 with
    ⟨ms, hms, hs⟩ | ⟨e, he, hn, hv⟩
  · have hlt := unsigned_lt (by decide) hs
    rw [hms]
    apply Checked.bind
    rcases checkBlockTime_cases hlt with ⟨hge, hc⟩ | ⟨hlow, e, he, hn⟩
    · rw [hc]
      exact (hk ms hs hge hlt).bind.behind (hs.accepted fun _ hw => ⟨ms, hw, hge⟩)
    · rw [he]
      refine checked_refused hn ?_
      cases hs with
      | given hg hb hw =>
        refine not_accepted hg hb ?_
        rintro ⟨n, hn, hge⟩
        rw [hn.unique hw] at hge
        omega
      | _ => exact absurd hlow (by decide)
  · rw [he]
    exact checked_refused hn fun ha => hv (ha.imp fun raw ⟨ms, hw, _⟩ => ⟨ms, hw⟩)

theorem checked_ofEnvironment (env : Environment) :
    Checked env checks (ofEnvironment env) (ReadFrom env) := by
  apply checked_block
  intro ms hms hge hlt
  apply checked_setting fun _ _ => readUnsigned_iff
  intro n hn
  apply checked_done
  exact ⟨textOr_settles env _ _, textOr_settles env _ _, textOr_settles env _ _,
    ⟨ms, hms, hge, hlt, nanos_ofMillis hlt, blockMillis_ofMillis hge hlt⟩, hn⟩

end StreamSettings

namespace ConnectionSettings

def checks : List Variable := [
  ("REDIS_CLUSTER", fun raw => ∃ b, IsFlag raw b),
  ("REDIS_DB", fun raw => ∃ z, IsSigned raw z),
  ("REDIS_TLS", fun raw => ∃ b, IsFlag raw b),
  ("REDIS_TLS_INSECURE", fun raw => ∃ b, IsFlag raw b),
  ("REDIS_CONNECTION_TIMEOUT_SECS", fun raw => ∃ n, IsUnsigned raw n),
  ("REDIS_COMMAND_TIMEOUT_SECS", fun raw => ∃ n, IsUnsigned raw n)]

def IsKeptSome (raw : String) (s : Option String) : Prop := s = some raw

structure ReadFrom (env : Environment) (c : ConnectionSettings) : Prop where
  url : Settles env "REDIS_URL" IsKeptSome none c.url
  addr : Settles env "REDIS_ADDR" IsKept "127.0.0.1:6379" c.addr
  cluster : Settles env "REDIS_CLUSTER" IsFlag false c.cluster
  username : Settles env "REDIS_USERNAME" IsKeptSome none c.username
  password : Settles env "REDIS_PASSWORD" IsKeptSome none c.password
  db : Settles env "REDIS_DB" IsSigned 0 c.db
  tls : Settles env "REDIS_TLS" IsFlag false c.tls
  tlsInsecure : Settles env "REDIS_TLS_INSECURE" IsFlag false c.tlsInsecure
  connection : Settles env "REDIS_CONNECTION_TIMEOUT_SECS" IsUnsigned 5 c.connectionTimeoutSeconds
  command : Settles env "REDIS_COMMAND_TIMEOUT_SECS" IsUnsigned 10 c.commandTimeoutSeconds

theorem checked_ofEnvironment (env : Environment) :
    Checked env checks (ofEnvironment env) (ReadFrom env) := by
  apply checked_setting fun _ _ => readFlag_iff
  intro cluster hcluster
  apply checked_setting fun _ _ => readSigned_iff
  intro db hdb
  apply checked_setting fun _ _ => readFlag_iff
  intro tls htls
  apply checked_setting fun _ _ => readFlag_iff
  intro insecure hinsecure
  apply checked_setting fun _ _ => readUnsigned_iff
  intro connection hconnection
  apply checked_setting fun _ _ => readUnsigned_iff
  intro command hcommand
  apply checked_done
  exact ⟨nonBlank_settles env _, textOr_settles env _ _, hcluster, nonBlank_settles env _,
    nonBlank_settles env _, hdb, htls, hinsecure, hconnection, hcommand⟩

end ConnectionSettings

/-- An environment file leaves variables with a text alone. From the variables as they are then,
settings are made exactly if each variable that is read is unset, undecodable, blank or in its
form; what they hold is what the variables settle; and otherwise the error names the first
variable that is none of these. -/
theorem settings_of_variables (env : Environment) (file : Option String) :
    (∀ name s, env.text? name = some s → (env.after file).text? name = some s) ∧
    ((∃ s, StreamSettings.ofEnvironment (env.after file) = .ok s) ↔
      ∀ v ∈ StreamSettings.checks, Accepted (env.after file) v) ∧
    (∀ s, StreamSettings.ofEnvironment (env.after file) = .ok s →
      s.ReadFrom (env.after file)) ∧
    (∀ e, StreamSettings.ofEnvironment (env.after file) = .error e →
      FirstNamed (env.after file) StreamSettings.checks e) ∧
    ((∃ c, ConnectionSettings.ofEnvironment (env.after file) = .ok c) ↔
      ∀ v ∈ ConnectionSettings.checks, Accepted (env.after file) v) ∧
    (∀ c, ConnectionSettings.ofEnvironment (env.after file) = .ok c →
      c.ReadFrom (env.after file)) ∧
    (∀ e, ConnectionSettings.ofEnvironment (env.after file) = .error e →
      FirstNamed (env.after file) ConnectionSettings.checks e) := by
  have hs := StreamSettings.checked_ofEnvironment (env.after file)
  have hc := ConnectionSettings.checked_ofEnvironment (env.after file)
  exact ⟨fun _ _ => Environment.text_after file, hs.ok_iff, fun s h => (hs.ok s h).2, hs.error,
    hc.ok_iff, fun c h => (hc.ok c h).2, hc.error⟩

def patched : Environment := [
  ("REDIS_DB", .text " +7\u00a0"), ("REDIS_TLS", .undecodable), ("REDIS_USERNAME", .text " u "),
  ("STREAM_BLOCK_MS", .text "9")]

def patchedSettings : ConnectionSettings :=
  { ConnectionSettings.default with username := some " u ", db := 7, tls := true }

theorem patched_settings :
    let now := patched.after (some "REDIS_TLS=true\nSTREAM_BLOCK_MS=10\nSTREAM_MAX_LENGTH=x\n")
    now.text? "STREAM_BLOCK_MS" = some "9" ∧
    (∃ e, StreamSettings.ofEnvironment now = .error e ∧ FirstNamed now StreamSettings.checks e) ∧
    ConnectionSettings.ofEnvironment now = .ok patchedSettings ∧ patchedSettings.ReadFrom now := by
  intro now
  obtain ⟨htext, -, -, hstream, -, hconnection, -⟩ := settings_of_variables patched
    (some "REDIS_TLS=true\nSTREAM_BLOCK_MS=10\nSTREAM_MAX_LENGTH=x\n")
  have hs : StreamSettings.ofEnvironment now =
      .error (.config "STREAM_BLOCK_MS must be at least 10ms, got 9ms") := by decide +kernel
  have hc : ConnectionSettings.ofEnvironment now = .ok patchedSettings := by decide +kernel
  exact ⟨htext _ _ (by decide +kernel), ⟨_, hs, hstream _ hs⟩, hc, hconnection _ hc⟩

end TaskRelay
