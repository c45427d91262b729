import TaskRelay.Json.Reader
import TaskRelay.Uuid
import TaskRelay.Span
import TaskRelay.Text.Integer

/-!
# Reading records

A record is written as an object of named members or as a list of their values
in order of declaration. Members of an object may come in any order; one that
comes twice is refused before its value is read, and one of another name is
passed over, or refused where a record is strict.
-/

set_option autoImplicit false

namespace TaskRelay.Json

structure Member (σ : Type) where
  name : String
  present : σ → Bool
  read : Nat → σ → Bytes → Except Fault (Front σ)

/-- A value of another type than the wanted one: it is read all the same as far
as its kind, and any problem in it comes first. -/
def mistyped {α : Type} (s : Bytes) : Except Fault α := do
  let (b, rest) ← next s
  if b = 0x5B ∨ b = 0x7B then .error .mistyped
  else do
    let _ ← scalar b rest
    .error .mistyped

def readText (s : Bytes) : Except Fault (Front String) := do
  let (b, rest) ← next s
  if b = 0x22 then string rest else mistyped s

def readBool (s : Bytes) : Except Fault (Front Bool) := do
  let (b, rest) ← next s
  if b = 0x74 then (word afterT rest).map (true, ·)
  else if b = 0x66 then (word afterF rest).map (false, ·)
  else mistyped s

def readWhole (low high : Int) (s : Bytes) : Except Fault (Front Int) := do
  let (b, rest) ← next s
  if b = 0x2D ∨ (digit? b).isSome then do
    let (v, rest) ← scalar b rest
    match v with
    | .whole n => if low ≤ n.value ∧ n.value ≤ high then .ok (n.value, rest) else .error .mistyped
    | _ => .error .mistyped
  else mistyped s

def readNat (limit : Nat) (s : Bytes) : Except Fault (Front Nat) := do
  let (n, rest) ← readWhole 0 limit s
  .ok (n.toNat, rest)

def readUInt64 (s : Bytes) : Except Fault (Front UInt64) := do
  let (n, rest) ← readNat Text.maxU64 s
  .ok (UInt64.ofNat n, rest)

def readOption {α : Type} (read : Bytes → Except Fault (Front α)) (s : Bytes) :
    Except Fault (Front (Option α)) := do
  let (b, rest) ← next s
  if b = 0x6E then (word afterN rest).map (none, ·)
  else do
    let (v, rest) ← read s
    .ok (some v, rest)

def readUuid (s : Bytes) : Except Fault (Front Uuid) := do
  let (t, rest) ← readText s
  match Uuid.parse? t with
  | some u => .ok (u, rest)
  | none => .error .mistyped

structure Record (σ τ : Type) where
  members : List (Member σ)
  strict : Bool
  openEnded : Bool
  start : σ
  finish : σ → Except Fault τ

namespace Record

variable {σ τ : Type}

def readItems (r : Record σ τ) (depth : Nat) :
    List (Member σ) → Bool → σ → Bytes → Except Fault (Front τ)
  | [], _, st, s => do
    let v ← r.finish st
    let (b, rest) ← next s
    if b = 0x5D then .ok (v, rest) else .error .malformed
  | m :: ms, first, st, s => do
    match ← opening 0x5D first s with
    | .closed rest =>
      if r.openEnded then do
        let v ← r.finish st
        .ok (v, rest)
      else .error .mistyped
    | .item rest => do
      let (st, rest) ← m.read depth st rest
      readItems r depth ms false st rest

def readMembers (r : Record σ τ) (depth : Nat) :
    Nat → Bool → σ → Bytes → Except Fault (Front τ)
  | 0, _, _, _ => .error .truncated
  | fuel + 1, first, st, s => do
    match ← opening 0x7D first s with
    | .closed rest => do
      let v ← r.finish st
      .ok (v, rest)
    | .item (0x22 :: rest) => do
      let (name, rest) ← string rest
      match r.members.find? (·.name == name) with
      | some m =>
        if m.present st then .error .mistyped
        else do
          let rest ← colon rest
          let (st, rest) ← m.read depth st rest
          readMembers r depth fuel false st rest
      | none =>
        if r.strict then .error .mistyped
        else do
          let rest ← colon rest
          let rest ← skipValue rest
          readMembers r depth fuel false st rest
    | .item _ => .error .malformed

def read (r : Record σ τ) (depth : Nat) (s : Bytes) : Except Fault (Front τ) := do
  let (b, rest) ← next s
  if b = 0x5B then
    match depth with
    | 0 => .error .malformed
    | depth + 1 => r.readItems depth r.members true r.start rest
  else if b = 0x7B then
    match depth with
    | 0 => .error .malformed
    | depth + 1 => r.readMembers depth (rest.length + 1) true r.start rest
  else mistyped s

def parse (r : Record σ τ) (s : Bytes) : Except Fault τ := atEnd (r.read maxDepth s)

end Record

def required {α : Type} (v : Option α) : Except Fault α :=
  match v with
  | some a => .ok a
  | none => .error .mistyped

end TaskRelay.Json
