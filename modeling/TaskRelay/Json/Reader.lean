import TaskRelay.Json.Number

/-!
# Reading JSON values

A kept value may hold 126 lists and objects inside one another when it is the
member of a record, so that the record itself is the 127th. A value that is only
passed over may nest without limit, and only its grammar is looked at.
-/

set_option autoImplicit false

namespace TaskRelay.Json

def maxDepth : Nat := 127

def next (s : Bytes) : Except Fault (Front UInt8) :=
  match skipBlanks s with
  | [] => .error .truncated
  | b :: rest => .ok (b, rest)

def colon (s : Bytes) : Except Fault Bytes := do
  let (b, rest) ← next s
  if b = 0x3A then .ok rest else .error .malformed

def scalar (b : UInt8) (s : Bytes) : Except Fault (Front Json) :=
  if b = 0x6E then (word afterN s).map (.null, ·)
  else if b = 0x74 then (word afterT s).map (.bool true, ·)
  else if b = 0x66 then (word afterF s).map (.bool false, ·)
  else if b = 0x2D then number true s
  else if (digit? b).isSome then number false (b :: s)
  else if b = 0x22 then (string s).map fun p => (.text p.1, p.2)
  else .error .malformed

inductive Opening
  | closed (rest : Bytes)
  | item (rest : Bytes)

def opening (close : UInt8) (first : Bool) (s : Bytes) : Except Fault Opening := do
  let (b, rest) ← next s
  if b = close then .ok (.closed rest)
  else if first then .ok (.item (b :: rest))
  else if b ≠ 0x2C then .error .malformed
  else do
    let (b, rest) ← next rest
    if b = close then .error .malformed else .ok (.item (b :: rest))

def memberName (s : Bytes) : Except Fault (Front String) :=
  match s with
  | 0x22 :: s => do
    let (name, s) ← string s
    let s ← colon s
    .ok (name, s)
  | _ => .error .malformed

mutual

/-- A value with at most `depth` containers inside one another. The first
argument bounds the number of steps; the length of the text will do. -/
def valueWithin : Nat → Nat → Bytes → Except Fault (Front Json)
  | 0, _, _ => .error .truncated
  | fuel + 1, depth, s => do
    let (b, rest) ← next s
    if b = 0x5B then
      match depth with
      | 0 => .error .malformed
      | depth + 1 => do
        let (vs, rest) ← itemsWithin fuel depth true rest
        .ok (.list vs, rest)
    else if b = 0x7B then
      match depth with
      | 0 => .error .malformed
      | depth + 1 => do
        let (ms, rest) ← membersWithin fuel depth true [] rest
        .ok (.object ms, rest)
    else scalar b rest

def itemsWithin : Nat → Nat → Bool → Bytes → Except Fault (Front (List Json))
  | 0, _, _, _ => .error .truncated
  | fuel + 1, depth, first, s => do
    match ← opening 0x5D first s with
    | .closed rest => .ok ([], rest)
    | .item rest => do
      let (v, rest) ← valueWithin fuel depth rest
      let (vs, rest) ← itemsWithin fuel depth false rest
      .ok (v :: vs, rest)

def membersWithin : Nat → Nat → Bool → Table String Json → Bytes →
    Except Fault (Front (Table String Json))
  | 0, _, _, _, _ => .error .truncated
  | fuel + 1, depth, first, ms, s => do
    match ← opening 0x7D first s with
    | .closed rest => .ok (ms, rest)
    | .item rest => do
      let (name, rest) ← memberName rest
      let (v, rest) ← valueWithin fuel depth rest
      membersWithin fuel depth false (Table.insert name v ms) rest

end

def value (depth : Nat) (s : Bytes) : Except Fault (Front Json) :=
  valueWithin (2 * s.length + 2) depth s

inductive SkipStage
  | value
  | firstItem
  | name
  | ended
  deriving DecidableEq, Repr

def skipScalar (b : UInt8) (s : Bytes) : Except Fault Bytes :=
  if b = 0x6E then word afterN s
  else if b = 0x74 then word afterT s
  else if b = 0x66 then word afterF s
  else if b = 0x2D then skipNumber s
  else if (digit? b).isSome then skipNumber (b :: s)
  else if b = 0x22 then skipString (s.length + 1) s
  else .error .malformed

def SkipStage.inside (close : UInt8) : SkipStage := if close = 0x7D then .name else .value

/-- Passes over values. `closers` holds the closing bytes of the open
containers, innermost first. The first argument bounds the number of steps. -/
def skipWithin : Nat → SkipStage → List UInt8 → Bytes → Except Fault Bytes
  | 0, _, _, _ => .error .truncated
  | fuel + 1, .value, closers, s => do
    let (b, rest) ← next s
    if b = 0x5B then skipWithin fuel .firstItem (0x5D :: closers) rest
    else if b = 0x7B then skipWithin fuel .firstItem (0x7D :: closers) rest
    else do
      let rest ← skipScalar b rest
      skipWithin fuel .ended closers rest
  | _ + 1, .firstItem, [], s => .ok s
  | fuel + 1, .firstItem, close :: outer, s => do
    let (b, rest) ← next s
    if b = close then skipWithin fuel .ended outer rest
    else skipWithin fuel (.inside close) (close :: outer) (b :: rest)
  | fuel + 1, .name, closers, s => do
    let (b, rest) ← next s
    if b ≠ 0x22 then .error .malformed
    else do
      let rest ← skipString (rest.length + 1) rest
      let rest ← colon rest
      skipWithin fuel .value closers rest
  | _ + 1, .ended, [], s => .ok s
  | fuel + 1, .ended, close :: outer, s => do
    let (b, rest) ← next s
    if b = close then skipWithin fuel .ended outer rest
    else if b ≠ 0x2C then .error .malformed
    else skipWithin fuel (.inside close) (close :: outer) rest

def skipValue (s : Bytes) : Except Fault Bytes := skipWithin (2 * s.length + 2) .value [] s

def atEnd {α : Type} (r : Except Fault (Front α)) : Except Fault α := do
  let (v, rest) ← r
  if skipBlanks rest = [] then .ok v else .error .malformed

def parse (s : Bytes) : Except Fault Json := atEnd (value maxDepth s)

def parseText (s : String) : Except Fault Json := parse s.toUTF8.toList

end TaskRelay.Json
