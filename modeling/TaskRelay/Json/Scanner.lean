import TaskRelay.Json.Basic
import TaskRelay.Text.Hex

/-!
# JSON tokens

Reading works on bytes from the front and stops at the first problem, so of two
problems the earlier one is reported. A problem is one of three kinds: the text
is malformed, it ends too early, or it is well formed so far and holds
something other than what is wanted.
-/

set_option autoImplicit false

namespace TaskRelay.Json

inductive Fault
  | malformed
  | truncated
  | mistyped
  deriving DecidableEq, Repr

abbrev Bytes := List UInt8

abbrev Front (α : Type) := α × Bytes

def isBlank (b : UInt8) : Bool := b == 0x20 || b == 0x0A || b == 0x0D || b == 0x09

def skipBlanks (s : Bytes) : Bytes := s.dropWhile isBlank

def word : Bytes → Bytes → Except Fault Bytes
  | [], s => .ok s
  | _ :: _, [] => .error .truncated
  | w :: ws, b :: s => if b = w then word ws s else .error .malformed

def afterN : Bytes := [0x75, 0x6C, 0x6C]

def afterT : Bytes := [0x72, 0x75, 0x65]

def afterF : Bytes := [0x61, 0x6C, 0x73, 0x65]

def hexWord : Bytes → Except Fault (Front Nat)
  | a :: b :: c :: d :: s =>
    match Text.hexNumber? ([a, b, c, d].map fun x => Char.ofNat x.toNat) with
    | some n => .ok (n, s)
    | none => .error .malformed
  | _ => .error .truncated

def simpleEscape? (b : UInt8) : Option UInt8 :=
  if b = 0x22 ∨ b = 0x5C ∨ b = 0x2F then some b
  else if b = 0x62 then some 0x08
  else if b = 0x66 then some 0x0C
  else if b = 0x6E then some 0x0A
  else if b = 0x72 then some 0x0D
  else if b = 0x74 then some 0x09
  else none

def lowSurrogate (high : Nat) : Bytes → Except Fault (Front Nat)
  | [] => .error .truncated
  | b :: s =>
    if b ≠ 0x5C then .error .malformed
    else match s with
      | [] => .error .truncated
      | u :: s =>
        if u ≠ 0x75 then .error .malformed
        else do
          let (low, s) ← hexWord s
          if 0xDC00 ≤ low ∧ low ≤ 0xDFFF then
            .ok (0x10000 + (high - 0xD800) * 0x400 + (low - 0xDC00), s)
          else .error .malformed

def unescape : Bytes → Except Fault (Front Bytes)
  | [] => .error .truncated
  | b :: s =>
    match simpleEscape? b with
    | some c => .ok ([c], s)
    | none =>
      if b ≠ 0x75 then .error .malformed
      else do
        let (n, s) ← hexWord s
        if 0xDC00 ≤ n ∧ n ≤ 0xDFFF then .error .malformed
        else if 0xD800 ≤ n ∧ n ≤ 0xDBFF then do
          let (n, s) ← lowSurrogate n s
          .ok (String.utf8EncodeChar (Char.ofNat n), s)
        else .ok (String.utf8EncodeChar (Char.ofNat n), s)

def stringBytes : Nat → Bytes → Bytes → Except Fault (Front Bytes)
  | 0, _, _ => .error .truncated
  | _, _, [] => .error .truncated
  | fuel + 1, content, b :: s =>
    if b = 0x22 then .ok (content, s)
    else if b = 0x5C then do
      let (cs, s) ← unescape s
      stringBytes fuel (cs.reverse ++ content) s
    else if b < 0x20 then .error .malformed
    else stringBytes fuel (b :: content) s

def string (s : Bytes) : Except Fault (Front String) := do
  let (content, rest) ← stringBytes (s.length + 1) [] s
  match String.fromUTF8? content.reverse.toByteArray with
  | some t => .ok (t, rest)
  | none => .error .malformed

def skipString : Nat → Bytes → Except Fault Bytes
  | 0, _ => .error .truncated
  | _, [] => .error .truncated
  | fuel + 1, b :: s =>
    if b = 0x22 then .ok s
    else if b = 0x5C then
      match s with
      | [] => .error .truncated
      | e :: s =>
        if (simpleEscape? e).isSome then skipString fuel s
        else if e ≠ 0x75 then .error .malformed
        else do
          let (_, s) ← hexWord s
          skipString fuel s
    else if b < 0x20 then .error .malformed
    else skipString fuel s

def digit? (b : UInt8) : Option Nat :=
  if 0x30 ≤ b ∧ b ≤ 0x39 then some (b.toNat - 48) else none

def digits : Bytes → List Nat × Bytes
  | [] => ([], [])
  | b :: s =>
    match digit? b with
    | some d => (d :: (digits s).1, (digits s).2)
    | none => ([], b :: s)

structure Numeral where
  negative : Bool
  whole : List Nat
  fraction : Option (List Nat)
  exponent : Option (Bool × List Nat)
  deriving DecidableEq, Repr

def someDigits (s : Bytes) : Except Fault (Front (List Nat)) :=
  match digits s with
  | ([], []) => .error .truncated
  | ([], _ :: _) => .error .malformed
  | (ds, rest) => .ok (ds, rest)

def wholeDigits (s : Bytes) : Except Fault (Front (List Nat)) := do
  let (ds, rest) ← someDigits s
  match ds with
  | 0 :: _ :: _ => .error .malformed
  | _ => .ok (ds, rest)

def fractionPart : Bytes → Except Fault (Front (Option (List Nat)))
  | 0x2E :: s => do
    let (ds, rest) ← someDigits s
    .ok (some ds, rest)
  | s => .ok (none, s)

def exponentPart : Bytes → Except Fault (Front (Option (Bool × List Nat)))
  | [] => .ok (none, [])
  | b :: s =>
    if b = 0x65 ∨ b = 0x45 then
      match s with
      | 0x2B :: t => do
        let (ds, rest) ← someDigits t
        .ok (some (false, ds), rest)
      | 0x2D :: t => do
        let (ds, rest) ← someDigits t
        .ok (some (true, ds), rest)
      | t => do
        let (ds, rest) ← someDigits t
        .ok (some (false, ds), rest)
    else .ok (none, b :: s)

def numeral (negative : Bool) (s : Bytes) : Except Fault (Front Numeral) := do
  let (ws, s) ← wholeDigits s
  let (fs, s) ← fractionPart s
  let (e, s) ← exponentPart s
  .ok (⟨negative, ws, fs, e⟩, s)

/-- Passes over a number after its minus sign. Here a missing digit counts as
malformed even where the text ends. -/
def skipNumber (s : Bytes) : Except Fault Bytes :=
  match numeral false s with
  | .ok (_, rest) => .ok rest
  | .error _ => .error .malformed

end TaskRelay.Json
