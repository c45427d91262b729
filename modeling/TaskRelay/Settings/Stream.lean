import TaskRelay.Json.Printer
import TaskRelay.Json.Record
import TaskRelay.Settings.Environment

/-!
# Stream settings

Which stream a worker reads, under which names, how long a group read waits, and
how long the stream may grow. From the environment a wait below ten milliseconds
is refused, as the consumer loop would only poll.
-/

set_option autoImplicit false

namespace TaskRelay

structure StreamSettings where
  stream : String
  group : String
  consumer : String
  blockTime : Span
  /-- The approximate bound of the stream's length; zero for none. -/
  maxLength : Nat
  deriving DecidableEq

namespace StreamSettings

def defaultName : String := "streamtask"

def defaultBlockTime : Span := Span.ofSeconds 60

def minBlockTime : Span := Span.ofMillis 10

def defaultMaxLength : Nat := 10000

def default : StreamSettings :=
  ⟨defaultName, defaultName, defaultName, defaultBlockTime, defaultMaxLength⟩

instance : Inhabited StreamSettings := ⟨default⟩

def named (stream group consumer : String) : StreamSettings :=
  { default with stream := stream, group := group, consumer := consumer }

def withBlockTime (s : StreamSettings) (d : Span) : StreamSettings := { s with blockTime := d }

def withMaxLength (s : StreamSettings) (n : Nat) : StreamSettings := { s with maxLength := n }

def checkBlockTime (d : Span) : Except StoreError Span :=
  if d.nanos < minBlockTime.nanos then
    .error (.config
      s!"STREAM_BLOCK_MS must be at least {minBlockTime.millis}ms, got {d.millis}ms")
  else .ok d

def ofEnvironment (env : Environment) : Except StoreError StreamSettings := do
  let ms ← env.setting "STREAM_BLOCK_MS" readUnsigned defaultBlockTime.millis
  let blockTime ← checkBlockTime (Span.ofMillis (UInt64.ofNat ms))
  let maxLength ← env.setting "STREAM_MAX_LENGTH" readUnsigned defaultMaxLength
  .ok {
    stream := env.textOr "STREAM_NAME" defaultName
    group := env.textOr "STREAM_GROUP" defaultName
    consumer := env.textOr "STREAM_CONSUMER" defaultName
    blockTime := blockTime
    maxLength := maxLength }

def spanChars (d : Span) : List Char :=
  '\x7b' :: (Json.quote "secs" ++ ':' :: Json.wholeChars d.seconds ++
    ',' :: Json.quote "nanos" ++ ':' :: Json.wholeChars d.subNanos ++ ['\x7d'])

def chars (s : StreamSettings) : List Char :=
  '\x7b' :: (Json.quote "stream_name" ++ ':' :: Json.quote s.stream ++
    ',' :: Json.quote "group" ++ ':' :: Json.quote s.group ++
    ',' :: Json.quote "consumer" ++ ':' :: Json.quote s.consumer ++
    ',' :: Json.quote "block_time" ++ ':' :: spanChars s.blockTime ++
    ',' :: Json.quote "max_length" ++ ':' :: Json.wholeChars s.maxLength ++ ['\x7d'])

def encode (s : StreamSettings) : String := String.ofList s.chars

structure SpanDraft where
  seconds : Option Nat
  nanos : Option Nat

def maxU32 : Nat := 4294967295

def spanRecord : Json.Record SpanDraft Span where
  members := [
    ⟨"secs", (·.seconds.isSome), fun _ d s => do
      let (n, rest) ← Json.readNat Text.maxU64 s
      .ok ({ d with seconds := some n }, rest)⟩,
    ⟨"nanos", (·.nanos.isSome), fun _ d s => do
      let (n, rest) ← Json.readNat maxU32 s
      .ok ({ d with nanos := some n }, rest)⟩]
  strict := true
  openEnded := false
  start := ⟨none, none⟩
  finish d := do
    let s ← Json.required d.seconds
    let n ← Json.required d.nanos
    Json.required (Span.ofParts? s n)

structure Draft where
  stream : Option String
  group : Option String
  consumer : Option String
  blockTime : Option Span
  maxLength : Option Nat

def record : Json.Record Draft StreamSettings where
  members := [
    ⟨"stream_name", (·.stream.isSome), fun _ d s => do
      let (t, rest) ← Json.readText s
      .ok ({ d with stream := some t }, rest)⟩,
    ⟨"group", (·.group.isSome), fun _ d s => do
      let (t, rest) ← Json.readText s
      .ok ({ d with group := some t }, rest)⟩,
    ⟨"consumer", (·.consumer.isSome), fun _ d s => do
      let (t, rest) ← Json.readText s
      .ok ({ d with consumer := some t }, rest)⟩,
    ⟨"block_time", (·.blockTime.isSome), fun depth d s => do
      let (t, rest) ← spanRecord.read depth s
      .ok ({ d with blockTime := some t }, rest)⟩,
    ⟨"max_length", (·.maxLength.isSome), fun _ d s => do
      let (n, rest) ← Json.readNat Text.maxU64 s
      .ok ({ d with maxLength := some n }, rest)⟩]
  strict := false
  openEnded := false
  start := ⟨none, none, none, none, none⟩
  finish d := do
    let stream ← Json.required d.stream
    let group ← Json.required d.group
    let consumer ← Json.required d.consumer
    let blockTime ← Json.required d.blockTime
    let maxLength ← Json.required d.maxLength
    .ok ⟨stream, group, consumer, blockTime, maxLength⟩

def decode (text : String) : Except Json.Fault StreamSettings := record.parse text.toUTF8.toList

end StreamSettings

end TaskRelay
