import TaskRelay.Json.Printer
import TaskRelay.Json.Record
import TaskRelay.Settings.Environment
import TaskRelay.Text.Cut
import TaskRelay.Text.Percent

/-!
# Connection settings

How the server is reached: by one URL, or by addresses from which URLs are made
that carry the credentials, the database and the transport. Several addresses
are the nodes of a cluster.
-/

set_option autoImplicit false

namespace TaskRelay

structure ConnectionSettings where
  url : Option String
  addr : String
  cluster : Bool
  username : Option String
  password : Option String
  db : Int
  tls : Bool
  tlsInsecure : Bool
  connectionTimeoutSeconds : Nat
  commandTimeoutSeconds : Nat
  deriving DecidableEq

namespace ConnectionSettings

def defaultAddr : String := "127.0.0.1:6379"

def default : ConnectionSettings :=
  { url := none, addr := defaultAddr, cluster := false, username := none, password := none, db := 0
    tls := false, tlsInsecure := false, connectionTimeoutSeconds := 5, commandTimeoutSeconds := 10 }

instance : Inhabited ConnectionSettings := ⟨default⟩

def ofUrl (url : String) : ConnectionSettings := { default with url := some url }

def ofNodes (addrs : List String) : ConnectionSettings :=
  { default with addr := ",".intercalate addrs, cluster := true }

def ofEnvironment (env : Environment) : Except StoreError ConnectionSettings := do
  let cluster ← env.setting "REDIS_CLUSTER" readFlag default.cluster
  let db ← env.setting "REDIS_DB" readSigned default.db
  let tls ← env.setting "REDIS_TLS" readFlag default.tls
  let tlsInsecure ← env.setting "REDIS_TLS_INSECURE" readFlag default.tlsInsecure
  let connection ← env.setting "REDIS_CONNECTION_TIMEOUT_SECS" readUnsigned
    default.connectionTimeoutSeconds
  let command ← env.setting "REDIS_COMMAND_TIMEOUT_SECS" readUnsigned
    default.commandTimeoutSeconds
  .ok {
    url := env.nonBlank? "REDIS_URL"
    addr := env.textOr "REDIS_ADDR" default.addr
    cluster := cluster
    username := env.nonBlank? "REDIS_USERNAME"
    password := env.nonBlank? "REDIS_PASSWORD"
    db := db
    tls := tls
    tlsInsecure := tlsInsecure
    connectionTimeoutSeconds := connection
    commandTimeoutSeconds := command }

def addresses (c : ConnectionSettings) : List (List Char) :=
  ((Text.pieces ',' c.addr.toList).map Text.trimChars).filter fun a => !a.isEmpty

def isAddress (addr : List Char) : Bool :=
  match Text.cutLast ':' addr with
  | some (host, port) =>
    !host.isEmpty && (Text.natural Text.maxU16 (String.ofList port)).toOption.isSome
  | none => false

def userinfo (c : ConnectionSettings) : String :=
  match c.username, c.password with
  | none, none => ""
  | user, pass =>
    Text.percentEncode (user.getD "") ++ ":" ++ Text.percentEncode (pass.getD "") ++ "@"

def databasePath (c : ConnectionSettings) : String :=
  if !c.cluster && c.db ≠ 0 then "/" ++ toString c.db else ""

def insecureMark (c : ConnectionSettings) : String :=
  if c.tls && c.tlsInsecure then "#insecure" else ""

def nodeUrl (c : ConnectionSettings) (addr : List Char) : Except StoreError String :=
  if isAddress addr then
    .ok ((if c.tls then "rediss" else "redis") ++ "://" ++ c.userinfo ++ String.ofList addr ++
      c.databasePath ++ c.insecureMark)
  else
    .error (.config s!"invalid Redis address '{String.ofList addr}', expected host:port")

def nodeUrls (c : ConnectionSettings) : Except StoreError (List String) :=
  match c.url with
  | some url => .ok [url]
  | none =>
    let addrs := c.addresses
    if addrs.isEmpty then .error (.config "no Redis address configured")
    else if 1 < addrs.length ∧ !c.cluster then
      .error (.config s!"{addrs.length} addresses given but cluster mode is off")
    else addrs.mapM c.nodeUrl

def optionChars : Option String → List Char
  | none => Json.null.chars
  | some s => Json.quote s

def flagChars (b : Bool) : List Char := (Json.bool b).chars

def chars (c : ConnectionSettings) : List Char :=
  '\x7b' :: (Json.quote "url" ++ ':' :: optionChars c.url ++
    ',' :: Json.quote "addr" ++ ':' :: Json.quote c.addr ++
    ',' :: Json.quote "cluster" ++ ':' :: flagChars c.cluster ++
    ',' :: Json.quote "username" ++ ':' :: optionChars c.username ++
    ',' :: Json.quote "password" ++ ':' :: optionChars c.password ++
    ',' :: Json.quote "db" ++ ':' :: Json.wholeChars c.db ++
    ',' :: Json.quote "tls" ++ ':' :: flagChars c.tls ++
    ',' :: Json.quote "tls_insecure" ++ ':' :: flagChars c.tlsInsecure ++
    ',' :: Json.quote "connection_timeout_secs" ++ ':' ::
      Json.wholeChars c.connectionTimeoutSeconds ++
    ',' :: Json.quote "command_timeout_secs" ++ ':' ::
      Json.wholeChars c.commandTimeoutSeconds ++ ['\x7d'])

def encode (c : ConnectionSettings) : String := String.ofList c.chars

structure Draft where
  url : Option (Option String)
  addr : Option String
  cluster : Option Bool
  username : Option (Option String)
  password : Option (Option String)
  db : Option Int
  tls : Option Bool
  tlsInsecure : Option Bool
  connection : Option Nat
  command : Option Nat

def record : Json.Record Draft ConnectionSettings where
  members := [
    ⟨"url", (·.url.isSome), fun _ d s => do
      let (v, rest) ← Json.readOption Json.readText s
      .ok ({ d with url := some v }, rest)⟩,
    ⟨"addr", (·.addr.isSome), fun _ d s => do
      let (v, rest) ← Json.readText s
      .ok ({ d with addr := some v }, rest)⟩,
    ⟨"cluster", (·.cluster.isSome), fun _ d s => do
      let (v, rest) ← Json.readBool s
      .ok ({ d with cluster := some v }, rest)⟩,
    ⟨"username", (·.username.isSome), fun _ d s => do
      let (v, rest) ← Json.readOption Json.readText s
      .ok ({ d with username := some v }, rest)⟩,
    ⟨"password", (·.password.isSome), fun _ d s => do
      let (v, rest) ← Json.readOption Json.readText s
      .ok ({ d with password := some v }, rest)⟩,
    ⟨"db", (·.db.isSome), fun _ d s => do
      let (v, rest) ← Json.readWhole (-(Text.maxI64 + 1)) Text.maxI64 s
      .ok ({ d with db := some v }, rest)⟩,
    ⟨"tls", (·.tls.isSome), fun _ d s => do
      let (v, rest) ← Json.readBool s
      .ok ({ d with tls := some v }, rest)⟩,
    ⟨"tls_insecure", (·.tlsInsecure.isSome), fun _ d s => do
      let (v, rest) ← Json.readBool s
      .ok ({ d with tlsInsecure := some v }, rest)⟩,
    ⟨"connection_timeout_secs", (·.connection.isSome), fun _ d s => do
      let (v, rest) ← Json.readNat Text.maxU64 s
      .ok ({ d with connection := some v }, rest)⟩,
    ⟨"command_timeout_secs", (·.command.isSome), fun _ d s => do
      let (v, rest) ← Json.readNat Text.maxU64 s
      .ok ({ d with command := some v }, rest)⟩]
  strict := false
  openEnded := false
  start := ⟨none, none, none, none, none, none, none, none, none, none⟩
  finish d := do
    let addr ← Json.required d.addr
    let cluster ← Json.required d.cluster
    let db ← Json.required d.db
    let tls ← Json.required d.tls
    let tlsInsecure ← Json.required d.tlsInsecure
    let connection ← Json.required d.connection
    let command ← Json.required d.command
    .ok {
      url := d.url.join
      addr := addr
      cluster := cluster
      username := d.username.join
      password := d.password.join
      db := db
      tls := tls
      tlsInsecure := tlsInsecure
      connectionTimeoutSeconds := connection
      commandTimeoutSeconds := command }

def decode (text : String) : Except Json.Fault ConnectionSettings := record.parse text.toUTF8.toList

end ConnectionSettings

end TaskRelay
