import TaskRelay.Server.Url
import TaskRelay.Settings.Connection

/-!
# Endpoints

What a client connects to, as a URL says it: a host and a port, with or without
TLS, or a socket in the file system. Where nothing listens, connecting ends in
an error that the settings alone decide.
-/

set_option autoImplicit false

namespace TaskRelay

inductive Transport
  | plain
  | tls
  | tlsInsecure
  deriving DecidableEq, Repr

inductive Address
  | network (host : UrlHost) (port : Nat) (transport : Transport)
  | socket (parts : List (List Char))
  deriving DecidableEq, Repr

structure Endpoint where
  address : Address
  db : Int
  username : Option String
  password : Option String
  deriving DecidableEq, Repr

inductive EndpointFault
  | noUrl
  | noHost
  | strangeFragment
  | badDatabase
  | badUsername
  | badPassword
  | noPath
  | socketInCluster
  | differentPasswords
  | differentUsernames
  deriving DecidableEq, Repr

def EndpointFault.description : EndpointFault → String
  | .noUrl => "Redis URL did not parse"
  | .noHost => "Missing hostname"
  | .strangeFragment => "only #insecure is supported as URL fragment"
  | .badDatabase => "Invalid database number"
  | .badUsername => "Username is not valid UTF-8 string"
  | .badPassword => "Password is not valid UTF-8 string"
  | .noPath => "Missing path"
  | .socketInCluster =>
    "This library cannot use unix socket because Redis's cluster command returns " ++
      "only cluster's IP and port."
  | .differentPasswords => "Cannot use different password among initial nodes."
  | .differentUsernames => "Cannot use different username among initial nodes."

def EndpointFault.message (f : EndpointFault) : String := f.description ++ "- InvalidClientConfig"

namespace Endpoint

def defaultPort : Nat := 6379

def decoded? (cs : List Char) : Option String :=
  String.fromUTF8? ⟨(Text.percentDecode (String.ofList cs).toUTF8.toList).toArray⟩

def database (cs : List Char) : Except EndpointFault Int :=
  if cs.isEmpty then .ok 0
  else match Text.integer Text.maxI64 (String.ofList cs) with
    | .ok n => .ok n
    | .error _ => .error .badDatabase

def trimSlashes (cs : List Char) : List Char :=
  ((cs.dropWhile (· == '/')).reverse.dropWhile (· == '/')).reverse

def transport (u : Url) : Except EndpointFault Transport :=
  if u.scheme ≠ "rediss" then .ok .plain
  else match u.fragment with
    | none => .ok .tls
    | some f => if f = "insecure".toList then .ok .tlsInsecure else .error .strangeFragment

def ofNetworkUrl (u : Url) : Except EndpointFault Endpoint :=
  match u.host with
  | none => .error .noHost
  | some host => do
    let transport ← transport u
    let db ← database (trimSlashes (Text.joined '/' (u.path.getD [])))
    let username ←
      if u.username.isEmpty then .ok none
      else match decoded? u.username with
        | some s => .ok (some s)
        | none => .error .badUsername
    let password ← match u.password with
      | none => .ok none
      | some cs =>
        match decoded? cs with
        | some s => .ok (some s)
        | none => .error .badPassword
    .ok ⟨.network host (u.port.getD defaultPort) transport, db, username, password⟩

def queryBytes (cs : List Char) : List UInt8 :=
  Text.percentDecode
    (String.ofList (cs.map fun c => if c = '+' then ' ' else c)).toUTF8.toList

def queryValue? (query : List Char) (name : String) : Option (List UInt8) :=
  let pairs := ((Text.pieces '&' query).filter fun p => !p.isEmpty).map fun p =>
    match Text.cutFirst '=' p with
    | some (k, v) => (queryBytes k, queryBytes v)
    | none => (queryBytes p, [])
  (pairs.reverse.find? fun p => p.1 == name.toUTF8.toList).map (·.2)

def ofSocketUrl (u : Url) : Except EndpointFault Endpoint :=
  let isHere : Bool := match u.host with
    | none => true
    | some h => h == .name "localhost".toList
  match isHere, u.path with
  | true, some parts =>
    let query := u.query.getD []
    let text (name : String) := (queryValue? query name).bind fun bytes =>
      String.fromUTF8? ⟨bytes.toArray⟩
    match queryValue? query "db" with
    | none => .ok ⟨.socket parts, 0, text "user", text "pass"⟩
    | some bytes =>
      match (String.fromUTF8? ⟨bytes.toArray⟩).map (Text.integer Text.maxI64) with
      | some (.ok n) => .ok ⟨.socket parts, n, text "user", text "pass"⟩
      | _ => .error .badDatabase
  | _, _ => .error .noPath

def ofUrl (url : String) : Except EndpointFault Endpoint :=
  match Url.parse? url with
  | none => .error .noUrl
  | some u =>
    if u.scheme = "redis" ∨ u.scheme = "rediss" then ofNetworkUrl u
    else if u.scheme = "unix" ∨ u.scheme = "redis+unix" then ofSocketUrl u
    else .error .noUrl

def checkNode (first e : Endpoint) : Except EndpointFault Unit :=
  match e.address with
  | .socket _ => .error .socketInCluster
  | .network _ _ _ =>
    if first.password.isSome ∧ e.password ≠ first.password then .error .differentPasswords
    else if first.username.isSome ∧ e.username ≠ first.username then .error .differentUsernames
    else .ok ()

def nodesOf (urls : List String) : Except EndpointFault (List Endpoint) := do
  let nodes ← urls.mapM ofUrl
  match nodes with
  | [] => .ok []
  | first :: _ => do
    nodes.forM (checkNode first)
    .ok nodes

end Endpoint

namespace ConnectionSettings

def endpoints (c : ConnectionSettings) : Except StoreError (List Endpoint) := do
  let urls ← c.nodeUrls
  if c.cluster ∧ c.url.isNone then
    match Endpoint.nodesOf urls with
    | .ok es => .ok es
    | .error f => .error (.config ("Invalid Redis cluster nodes: " ++ f.message))
  else
    match urls with
    | [] => .error (.config "no Redis address configured")
    | url :: _ =>
      match Endpoint.ofUrl url with
      | .ok e => .ok [e]
      | .error f => .error (.config ("Invalid Redis URL: " ++ f.message))

def refusal : Address → String
  | .network _ _ _ => "Connection refused (os error 111)"
  | .socket _ => "No such file or directory (os error 2)"

def unanswered (c : ConnectionSettings) : StoreError :=
  match c.endpoints with
  | .error e => e
  | .ok [] => .config "no Redis address configured"
  | .ok (e :: _) =>
    if c.connectionTimeoutSeconds = 0 then
      .connection "Timed out connecting to Redis after 0s"
    else .connection ("Failed to connect to Redis: " ++ refusal e.address)

end ConnectionSettings

end TaskRelay
