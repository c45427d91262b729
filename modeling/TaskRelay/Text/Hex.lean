/-!
# Hexadecimal digits
-/

set_option autoImplicit false

namespace TaskRelay.Text

def hexDigit? (c : Char) : Option Nat :=
  if '0' ≤ c ∧ c ≤ '9' then some (c.toNat - 48)
  else if 'a' ≤ c ∧ c ≤ 'f' then some (c.toNat - 87)
  else if 'A' ≤ c ∧ c ≤ 'F' then some (c.toNat - 55)
  else none

def hexDigit (n : Nat) : Char :=
  if n < 10 then Char.ofNat (48 + n) else Char.ofNat (87 + n)

def upperHexDigit (n : Nat) : Char :=
  if n < 10 then Char.ofNat (48 + n) else Char.ofNat (55 + n)

def hexNumber? (cs : List Char) : Option Nat :=
  cs.foldlM (fun n c => (hexDigit? c).map (16 * n + ·)) 0

theorem hexDigit?_hexDigit : ∀ n, n < 16 → hexDigit? (hexDigit n) = some n := by decide

theorem hexDigit?_upperHexDigit : ∀ n, n < 16 → hexDigit? (upperHexDigit n) = some n := by
  decide

theorem hexDigit?_bounds {c : Char} {n : Nat} (h : hexDigit? c = some n) :
    c.toNat < 0x80 ∧ n < 16 := by
  simp only [hexDigit?, Char.le_def, UInt32.le_iff_toNat_le] at h
  change (if 48 ≤ c.toNat ∧ c.toNat ≤ 57 then _ else if 97 ≤ c.toNat ∧ c.toNat ≤ 102 then _
    else if 65 ≤ c.toNat ∧ c.toNat ≤ 70 then _ else _) = _ at h
  split at h
  · cases h
    omega
  · split at h
    · cases h
      omega
    · split at h
      · cases h
        omega
      · cases h

end TaskRelay.Text
