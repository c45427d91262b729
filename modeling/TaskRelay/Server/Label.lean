/-!
# Labels of servers

The URL of a server goes into logs without its credentials: what stands between
the first `://` and the last `@` is masked.
-/

set_option autoImplicit false

namespace TaskRelay

def schemePart? : List Char → Option (List Char)
  | ':' :: '/' :: '/' :: _ => some [':', '/', '/']
  | c :: cs => (schemePart? cs).map (c :: ·)
  | [] => none

def hostPart? : List Char → Option (List Char)
  | [] => none
  | c :: cs =>
    match hostPart? cs with
    | some h => some h
    | none => if c = '@' then some cs else none

def mask : String := "***:***@"

def serverLabel (url : String) : String :=
  match schemePart? url.toList, hostPart? url.toList with
  | some scheme, some host => String.ofList scheme ++ mask ++ String.ofList host
  | _, _ => url

end TaskRelay
