import TaskRelay.Store.Error
import TaskRelay.Table
import TaskRelay.Text.Blank
import TaskRelay.Text.Integer

/-!
# Environment variables

A setting is read from a variable. A variable whose value is no UTF-8 counts as
unset, and one that is blank leaves a setting at its default. Numbers and flags
are trimmed before they are read, texts are kept as they are.
-/

set_option autoImplicit false

namespace TaskRelay

inductive EnvValue
  | text (s : String)
  | undecodable
  deriving DecidableEq, Repr

abbrev Environment := Table String EnvValue

namespace Environment

def text? (env : Environment) (name : String) : Option String :=
  match Table.get? name env with
  | some (.text s) => some s
  | _ => none

def nonBlank? (env : Environment) (name : String) : Option String :=
  (env.text? name).filter fun s => !Text.isAllBlank s

def setting {α : Type} (env : Environment) (name : String) (read : String → Option α)
    (default : α) : Except StoreError α :=
  match env.nonBlank? name with
  | none => .ok default
  | some raw =>
    match read (Text.trim raw) with
    | some a => .ok a
    | none => .error (.config s!"{name} has an invalid value: '{raw}'")

def textOr (env : Environment) (name default : String) : String :=
  (env.nonBlank? name).getD default

end Environment

def readFlag (s : String) : Option Bool :=
  if s = "true" then some true else if s = "false" then some false else none

def readUnsigned (s : String) : Option Nat := (Text.natural Text.maxU64 s).toOption

def readSigned (s : String) : Option Int := (Text.integer Text.maxI64 s).toOption

end TaskRelay
