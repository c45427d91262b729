import TaskRelay.Text.Hex

/-!
# Task identifiers

A UUID is 128 bits. It is written as lower-case hexadecimal digits in groups of
8, 4, 4, 4 and 12. It is also read without the hyphens, in braces, or after
`urn:uuid:`, with digits and that word in either case.
-/

set_option autoImplicit false

namespace TaskRelay

structure Uuid where
  bits : BitVec 128
  deriving DecidableEq

namespace Uuid

def nil : Uuid := ⟨0⟩

instance : Inhabited Uuid := ⟨nil⟩

def hexDigits : Nat → Nat → List Char
  | 0, _ => []
  | k + 1, n => hexDigits k (n / 16) ++ [Text.hexDigit (n % 16)]

def group (ds : List Char) : List Char :=
  ds.take 8 ++ '-' :: (ds.drop 8).take 4 ++ '-' :: (ds.drop 12).take 4 ++
    '-' :: (ds.drop 16).take 4 ++ '-' :: ds.drop 20

def ungroup? (cs : List Char) : Option (List Char) :=
  if cs.length = 36 ∧ cs[8]? = some '-' ∧ cs[13]? = some '-' ∧ cs[18]? = some '-' ∧
      cs[23]? = some '-' then
    some (cs.take 8 ++ (cs.drop 9).take 4 ++ (cs.drop 14).take 4 ++ (cs.drop 19).take 4 ++
      cs.drop 24)
  else none

def chars (u : Uuid) : List Char := group (hexDigits 32 u.bits.toNat)

def text (u : Uuid) : String := String.ofList u.chars

def ofDigits? (ds : List Char) : Option Uuid :=
  (Text.hexNumber? ds).map fun n => ⟨BitVec.ofNat 128 n⟩

def nameSpace : List Char := "urn:uuid:".toList

def ofChars? (cs : List Char) : Option Uuid :=
  if cs.length = 32 then ofDigits? cs
  else if cs.length = 38 ∧ cs.head? = some '\x7b' ∧ cs.getLast? = some '\x7d' then
    (ungroup? (cs.drop 1).dropLast).bind ofDigits?
  else if cs.length = 45 ∧ (cs.take 9).map Char.toLower = nameSpace then
    (ungroup? (cs.drop 9)).bind ofDigits?
  else (ungroup? cs).bind ofDigits?

def parse? (s : String) : Option Uuid := ofChars? s.toList

def version (u : Uuid) : Nat := u.bits.toNat / 0x10000000000000000000 % 16

def ofRandom (b : BitVec 128) : Uuid :=
  let keep : BitVec 128 := ~~~((0xF#128 <<< 76) ||| (0x3#128 <<< 62))
  ⟨(b &&& keep) ||| (0x4#128 <<< 76) ||| (0x2#128 <<< 62)⟩

end Uuid

end TaskRelay
