import TaskRelay.Text.Hex

/-!
# Percent encoding

A credential goes into a connection target with every byte outside the
unreserved set written as `%` and two upper-case digits. Decoding replaces each
such triple by its byte and leaves every other byte as it is.
-/

set_option autoImplicit false

namespace TaskRelay.Text

def isUnreserved (b : UInt8) : Bool :=
  (0x30 ≤ b && b ≤ 0x39) || (0x41 ≤ b && b ≤ 0x5A) || (0x61 ≤ b && b ≤ 0x7A) ||
    b == 0x2D || b == 0x2E || b == 0x5F || b == 0x7E

def percentByte (b : UInt8) : List Char :=
  if isUnreserved b then [Char.ofNat b.toNat]
  else ['%', upperHexDigit (b.toNat / 16), upperHexDigit (b.toNat % 16)]

def percentEncode (s : String) : String :=
  String.ofList (s.toUTF8.toList.flatMap percentByte)

def percentDecode : List UInt8 → List UInt8
  | 0x25 :: a :: b :: rest =>
    match hexDigit? (Char.ofNat a.toNat), hexDigit? (Char.ofNat b.toNat) with
    | some x, some y => UInt8.ofNat (16 * x + y) :: percentDecode rest
    | _, _ => 0x25 :: percentDecode (a :: b :: rest)
  | b :: rest => b :: percentDecode rest
  | [] => []

end TaskRelay.Text
