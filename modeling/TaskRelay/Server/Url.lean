import TaskRelay.Text.Cut
import TaskRelay.Text.Hex
import TaskRelay.Text.Integer

/-!
# URLs

A URL of a scheme without rules of its own: a scheme, then after two slashes the
credentials, a host and a port, then a path, a query and a fragment. Controls
and spaces at the ends are dropped, and tabs and line breaks everywhere. The
host is a name without certain characters, or an IPv6 address in brackets.
-/

set_option autoImplicit false

namespace TaskRelay

inductive UrlHost
  | name (s : List Char)
  | ipv6 (s : List Char)
  deriving DecidableEq, Repr

structure Url where
  scheme : String
  username : List Char
  password : Option (List Char)
  host : Option UrlHost
  port : Option Nat
  path : Option (List (List Char))
  query : Option (List Char)
  fragment : Option (List Char)
  deriving DecidableEq, Repr

namespace Url

def isOctet (cs : List Char) : Bool :=
  match cs with
  | [] => false
  | ['0'] => true
  | '0' :: _ => false
  | _ => (Text.appendDigits 255 .tooLarge 0 cs).toOption.isSome

def isIpv4 (cs : List Char) : Bool :=
  let parts := Text.pieces '.' cs
  parts.length == 4 && parts.all isOctet

def isHexDigit (c : Char) : Bool := (Text.hexDigit? c).isSome

/-- Reads groups of up to four digits with colons between them, after `count`
groups. One run of groups may be left out, which counts as one group here. The
last two groups may be written as an IPv4 address. -/
def ipv6Groups : Nat → Nat → Bool → List Char → Bool
  | 0, _, _, _ => false
  | _ + 1, count, gap, [] => gap || count == 8
  | fuel + 1, count, gap, c :: cs =>
    if count = 8 then false
    else if c = ':' then !gap && ipv6Groups fuel (count + 1) true cs
    else
      let group := ((c :: cs).take 4).takeWhile isHexDigit
      match (c :: cs).drop group.length with
      | [] => gap || count + 1 == 8
      | '.' :: _ =>
        !group.isEmpty && count ≤ 6 && isIpv4 (c :: cs) && (gap || count + 2 == 8)
      | ':' :: rest => !rest.isEmpty && ipv6Groups fuel (count + 1) gap rest
      | _ => false

def isIpv6 (cs : List Char) : Bool :=
  match cs with
  | ':' :: ':' :: rest => ipv6Groups (rest.length + 1) 1 true rest
  | ':' :: _ => false
  | _ => 2 ≤ cs.length && ipv6Groups (cs.length + 1) 0 false cs

def isForbiddenInHost (c : Char) : Bool :=
  c == '\x00' || c == ' ' || c == '<' || c == '>' || c == '@' || c == '[' || c == '\\' ||
    c == ']' || c == '^' || c == '|' || c == ':' || c == '/' || c == '?' || c == '#'

def hostText : Bool → List Char → List Char × List Char
  | _, [] => ([], [])
  | inside, c :: cs =>
    if c = ':' ∧ !inside then ([], c :: cs)
    else
      let p := hostText (if c = '[' then true else if c = ']' then false else inside) cs
      (c :: p.1, p.2)

def readHost (cs : List Char) : Option (Option UrlHost) :=
  match cs with
  | [] => some none
  | '[' :: rest =>
    match rest.getLast? with
    | some ']' => if isIpv6 rest.dropLast then some (some (.ipv6 rest.dropLast)) else none
    | _ => none
  | _ => if cs.any isForbiddenInHost then none else some (some (.name cs))

def readPort (cs : List Char) : Option (Option Nat × List Char) :=
  let digits := cs.takeWhile (· ≠ '\\')
  let rest := cs.dropWhile (· ≠ '\\')
  match digits with
  | [] => some (none, rest)
  | _ =>
    match Text.appendDigits Text.maxU16 .tooLarge 0 digits with
    | .ok n => some (some n, rest)
    | .error _ => none

structure Authority where
  username : List Char
  password : Option (List Char)
  host : Option UrlHost
  port : Option Nat
  rest : List Char

def readUserinfo (cs : List Char) : List Char × Option (List Char) :=
  match Text.cutFirst ':' cs with
  | none => (cs, none)
  | some (user, []) => (user, none)
  | some (user, pass) => (user, some pass)

/-- Reads an authority; `followed` tells whether something comes after it. The
credentials end at the last `@`, and need a host after them. -/
def readAuthority (cs : List Char) (followed : Bool) : Option Authority := do
  let (userinfo, hostPort) := match Text.cutLast '@' cs with
    | some (u, r) => (some u, r)
    | none => (none, cs)
  if userinfo = some [] ∧ hostPort = [] ∧ followed then none
  else do
    let (username, password) := readUserinfo (userinfo.getD [])
    let (text, tail) := hostText false hostPort
    let host ← readHost text
    if host.isNone ∧ (tail ≠ [] ∨ username ≠ [] ∨ password.isSome) then none
    else
      match tail with
      | ':' :: digits => do
        let (port, rest) ← readPort digits
        some ⟨username, password, host, port, rest⟩
      | _ => some ⟨username, password, host, none, []⟩

def isSingleDot (cs : List Char) : Bool :=
  cs == ['.'] || (cs.map Char.toLower) == ['%', '2', 'e']

def isDoubleDot (cs : List Char) : Bool :=
  match cs.map Char.toLower with
  | ['.', '.'] => true
  | '.' :: rest => rest == ['%', '2', 'e']
  | '%' :: '2' :: 'e' :: rest => rest == ['.'] || rest == ['%', '2', 'e']
  | _ => false

def resolveDots : List (List Char) → List (List Char) → List (List Char)
  | kept, [] => kept.reverse
  | kept, [last] =>
    if isDoubleDot last then ([] :: kept.tail).reverse
    else if isSingleDot last then ([] :: kept).reverse
    else (last :: kept).reverse
  | kept, p :: ps =>
    if isDoubleDot p then resolveDots kept.tail ps
    else if isSingleDot p then resolveDots kept ps
    else resolveDots (p :: kept) ps

def pathParts (cs : List Char) : List (List Char) := resolveDots [] (Text.pieces '/' cs)

def cutOff (mark : Char) (cs : List Char) : List Char × Option (List Char) :=
  match Text.cutFirst mark cs with
  | some (a, b) => (a, some b)
  | none => (cs, none)

def isSchemeChar (c : Char) : Bool := c.isAlphanum || c == '+' || c == '-' || c == '.'

def readScheme (cs : List Char) : Option (String × List Char) :=
  match Text.cutFirst ':' cs with
  | some (c :: name, rest) =>
    if c.isAlpha ∧ name.all isSchemeChar then
      some (String.ofList ((c :: name).map Char.toLower), rest)
    else none
  | _ => none

def cleaned (s : String) : List Char :=
  let isEnd (c : Char) := c.toNat ≤ 0x20
  let cs := ((s.toList.dropWhile isEnd).reverse.dropWhile isEnd).reverse
  cs.filter fun c => c ≠ '\t' ∧ c ≠ '\n' ∧ c ≠ '\r'

def parse? (s : String) : Option Url := do
  let (scheme, rest) ← readScheme (cleaned s)
  let (rest, fragment) := cutOff '#' rest
  let (rest, query) := cutOff '?' rest
  match rest with
  | '/' :: '/' :: rest => do
    let authority := rest.takeWhile (· ≠ '/')
    let path := rest.dropWhile (· ≠ '/')
    let a ← readAuthority authority (!path.isEmpty || query.isSome || fragment.isSome)
    some {
      scheme := scheme
      username := a.username
      password := a.password
      host := a.host
      port := a.port
      path := match a.rest ++ path with
        | [] => none
        | '/' :: parts => some (pathParts parts)
        | parts => some (pathParts parts)
      query := query
      fragment := fragment }
  | '/' :: parts =>
    some ⟨scheme, [], none, none, none, some (pathParts parts), query, fragment⟩
  | _ => some ⟨scheme, [], none, none, none, none, query, fragment⟩

end Url

end TaskRelay
