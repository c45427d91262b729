import TaskRelay.Json.Basic
import TaskRelay.Text.Hex
import TaskRelay.Decimal.Shortest

/-!
# JSON text

Values are written without spaces. Inside a string only the quote, the
backslash and the control characters below U+0020 are escaped, five of the
latter by a letter and the rest by four lower-case digits.
-/

set_option autoImplicit false

namespace TaskRelay.Json

def realLayout : Decimal.Layout := ⟨-5, 16⟩

def escape (c : Char) : List Char :=
  if c = '"' then ['\\', '"']
  else if c = '\\' then ['\\', '\\']
  else if c = '\x08' then ['\\', 'b']
  else if c = '\x0c' then ['\\', 'f']
  else if c = '\n' then ['\\', 'n']
  else if c = '\r' then ['\\', 'r']
  else if c = '\t' then ['\\', 't']
  else if c.toNat < 0x20 then
    ['\\', 'u', '0', '0', Text.hexDigit (c.toNat / 16), Text.hexDigit (c.toNat % 16)]
  else [c]

def quote (s : String) : List Char := '"' :: (s.toList.flatMap escape ++ ['"'])

def wholeChars (n : Int) : List Char := (toString n).toList

mutual

def chars : Json → List Char
  | .null => ['n', 'u', 'l', 'l']
  | .bool true => ['t', 'r', 'u', 'e']
  | .bool false => ['f', 'a', 'l', 's', 'e']
  | .whole n => wholeChars n.value
  | .real x => realLayout.text x
  | .text s => quote s
  | .list items => '[' :: (itemChars items ++ [']'])
  | .object members => '\x7b' :: (memberChars members ++ ['\x7d'])

def itemChars : List Json → List Char
  | [] => []
  | [v] => chars v
  | v :: vs => chars v ++ ',' :: itemChars vs

def memberChars : List (String × Json) → List Char
  | [] => []
  | [(k, v)] => quote k ++ ':' :: chars v
  | (k, v) :: ms => quote k ++ ':' :: chars v ++ ',' :: memberChars ms

end

def render (v : Json) : String := String.ofList (chars v)

end TaskRelay.Json
