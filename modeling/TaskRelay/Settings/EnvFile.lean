import TaskRelay.Settings.Environment
import TaskRelay.Text.Alphanumeric

/-!
# Environment files

A file of `NAME=value` lines fills in variables that are not set. A value may be
quoted, a quoted value may go over several lines, and `$NAME` stands for the
value of a variable or of an earlier line. Reading ends at the first line that
breaks the rules; the lines before it count.
-/

set_option autoImplicit false

namespace TaskRelay.EnvFile

inductive LineState
  | complete
  | escape
  | strong
  | strongEscape
  | weak
  | weakEscape
  | blank
  deriving DecidableEq, Repr

def LineState.next (st : LineState) (c : Char) : Option LineState :=
  match st with
  | .blank =>
    if c = '#' then none
    else if c = '\\' then some .escape
    else if c = '"' then some .weak
    else if c = '\'' then some .strong
    else some .complete
  | .escape => some .complete
  | .complete =>
    if Text.isBlank c ∧ c ≠ '\n' ∧ c ≠ '\r' then some .blank
    else if c = '\\' then some .escape
    else if c = '"' then some .weak
    else if c = '\'' then some .strong
    else some .complete
  | .weak => some (if c = '\\' then .weakEscape else if c = '"' then .complete else .weak)
  | .weakEscape => some .weak
  | .strong => some (if c = '\\' then .strongEscape else if c = '\'' then .complete else .strong)
  | .strongEscape => some .strong

def endState : LineState → List Char → List Char → Except (List Char) LineState
  | st, _, [] => .ok st
  | st, before, c :: cs =>
    match st.next c with
    | none => .error before.reverse
    | some st => endState st (c :: before) cs

def splitLine : List Char → List Char × List Char
  | [] => ([], [])
  | c :: cs =>
    if c = '\n' then ([c], cs)
    else (c :: (splitLine cs).1, (splitLine cs).2)

def dropBreak (cs : List Char) : List Char :=
  match cs.reverse with
  | '\n' :: '\r' :: rest => rest.reverse
  | '\n' :: rest => rest.reverse
  | _ => cs

inductive NextLine
  | line (content rest : List Char)
  | finished
  | broken
  deriving DecidableEq, Repr

def nextLine : Nat → LineState → List Char → List Char → NextLine
  | 0, _, _, _ => .broken
  | _ + 1, st, _, [] => if st = .complete then .finished else .broken
  | fuel + 1, st, taken, s =>
    let (line, rest) := splitLine s
    let all := taken ++ line
    if (all.dropWhile Text.isBlank).head? = some '#' then .line [] rest
    else match endState st [] line with
      | .error before => .line (taken ++ before) rest
      | .ok .complete => .line (dropBreak all) rest
      | .ok st => nextLine fuel st all rest

structure Known where
  env : Environment
  lines : Table String String

def Known.value (k : Known) (name : List Char) : List Char :=
  match k.env.text? (String.ofList name) with
  | some s => s.toList
  | none => ((Table.get? (String.ofList name) k.lines).getD "").toList

inductive ValueState
  | plain
  | escaped (weak : Bool)
  | strong
  | weak
  | name (weak : Bool) (taken : List Char)
  | braced (weak : Bool) (taken : List Char)
  | ended

def ValueState.base (weak : Bool) : ValueState := if weak then .weak else .plain

def value (k : Known) : ValueState → List Char → List Char → Option (List Char)
  | st, out, [] =>
    match st with
    | .strong | .weak | .braced _ _ => none
    | .escaped weak => if weak then none else some out.reverse
    | .name weak taken => if weak then none else some (out.reverse ++ k.value taken.reverse)
    | .plain | .ended => some out.reverse
  | .ended, out, c :: cs =>
    if c = ' ' ∨ c = '\t' then value k .ended out cs
    else if c = '#' then some out.reverse
    else none
  | .escaped weak, out, c :: cs =>
    if c = '\\' ∨ c = '\'' ∨ c = '"' ∨ c = '$' ∨ c = ' ' then
      value k (.base weak) (c :: out) cs
    else if c = 'n' then value k (.base weak) ('\n' :: out) cs
    else none
  | .strong, out, c :: cs =>
    if c = '\'' then value k .plain out cs else value k .strong (c :: out) cs
  | .name weak taken, out, c :: cs =>
    if Text.isAlphanumeric c then value k (.name weak (c :: taken)) out cs
    else if c = '\x7b' ∧ taken = [] then value k (.braced weak []) out cs
    else
      let out := (k.value taken.reverse).reverse ++ out
      if c = '$' then value k (.name weak []) out cs
      else value k (.base weak) (c :: out) cs
  | .braced weak taken, out, c :: cs =>
    if c = '\x7d' then value k (.base weak) ((k.value taken.reverse).reverse ++ out) cs
    else value k (.braced weak (c :: taken)) out cs
  | .weak, out, c :: cs =>
    if c = '$' then value k (.name true []) out cs
    else if c = '"' then value k .plain out cs
    else if c = '\\' then value k (.escaped true) out cs
    else value k .weak (c :: out) cs
  | .plain, out, c :: cs =>
    if c = '$' then value k (.name false []) out cs
    else if c = '\'' then value k .strong out cs
    else if c = '"' then value k .weak out cs
    else if c = '\\' then value k (.escaped false) out cs
    else if c = ' ' ∨ c = '\t' then value k .ended out cs
    else value k .plain (c :: out) cs

def skipBlanks (cs : List Char) : List Char := cs.dropWhile Text.isBlank

def nameInFront (cs : List Char) : Option (List Char × List Char) :=
  match cs with
  | c :: _ =>
    if c.isAlpha ∨ c = '_' then
      some (cs.span fun c => c.isAlphanum || c == '_' || c == '.')
    else none
  | [] => none

/-- The name in front of a line and the text after its equals sign. A leading
`export` is dropped, unless it is the name itself. -/
def assignment (cs : List Char) : Option (List Char × List Char) := do
  let (name, rest) ← nameInFront cs
  match skipBlanks rest with
  | '=' :: rest => some (name, skipBlanks rest)
  | rest =>
    if name = "export".toList then
      let (name, rest) ← nameInFront rest
      match skipBlanks rest with
      | '=' :: rest => some (name, skipBlanks rest)
      | _ => none
    else none

inductive Line
  | nothing
  | sets (name value : String)
  | broken
  deriving DecidableEq, Repr

def readLine (k : Known) (cs : List Char) : Line :=
  match skipBlanks (cs.reverse.dropWhile Text.isBlank).reverse with
  | [] => .nothing
  | '#' :: _ => .nothing
  | cs =>
    match assignment cs with
    | none => .broken
    | some (name, []) => .sets (String.ofList name) ""
    | some (name, '#' :: _) => .sets (String.ofList name) ""
    | some (name, rest) =>
      match value k .plain [] rest with
      | some v => .sets (String.ofList name) (String.ofList v)
      | none => .broken

def apply : Nat → Known → List Char → Environment
  | 0, k, _ => k.env
  | fuel + 1, k, s =>
    match nextLine (s.length + 1) .complete [] s with
    | .finished | .broken => k.env
    | .line content rest =>
      match readLine k content with
      | .nothing => apply fuel k rest
      | .broken => k.env
      | .sets name v =>
        let env := match k.env.text? name with
          | some _ => k.env
          | none => Table.insert name (EnvValue.text v) k.env
        apply fuel ⟨env, Table.insert name v k.lines⟩ rest

end TaskRelay.EnvFile

namespace TaskRelay

def Environment.fillFrom (env : Environment) (file : String) : Environment :=
  let s := match file.toList with
    | '\uFEFF' :: rest => rest
    | cs => cs
  EnvFile.apply (s.length + 1) ⟨env, []⟩ s

end TaskRelay
