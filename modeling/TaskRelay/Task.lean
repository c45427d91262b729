import TaskRelay.Entry
import TaskRelay.Json.Record
import TaskRelay.Json.Printer

/-!
# Tasks

A task is an identifier, a payload and an optional time limit. It travels in one
field of a stream entry as a JSON object; a requeued entry keeps that text, so
the identifier survives. Reading tolerates missing and unknown members.
-/

set_option autoImplicit false

namespace TaskRelay

structure Task where
  id : Uuid
  body : Json
  timeoutSeconds : Option UInt64

inductive TaskFault
  | missingField (name : String)
  | json (fault : Json.Fault)
  deriving DecidableEq, Repr

def Json.Fault.message : Json.Fault → String
  | .malformed => "malformed text"
  | .truncated => "unexpected end of text"
  | .mistyped => "value of the wrong type"

def TaskFault.message : TaskFault → String
  | .missingField name => s!"Missing required field: {name}"
  | .json fault => "JSON error: " ++ fault.message

namespace Task

def empty : Task := ⟨Uuid.nil, .null, none⟩

instance : Inhabited Task := ⟨empty⟩

def create (random : BitVec 128) (body : Json) : Task := ⟨Uuid.ofRandom random, body, none⟩

def same (a b : Task) : Bool :=
  a.id == b.id && a.body.same b.body && a.timeoutSeconds == b.timeoutSeconds

def bodyField : String := "body"

def chars (t : Task) : List Char :=
  '\x7b' :: (Json.quote "id" ++ ':' :: Json.quote t.id.text ++
    ',' :: Json.quote "body" ++ ':' :: t.body.chars ++
    (match t.timeoutSeconds with
      | none => []
      | some n => ',' :: Json.quote "timeout_secs" ++ ':' :: Json.wholeChars n.toNat) ++
    ['\x7d'])

def encode (t : Task) : String := String.ofList t.chars

def toBytes (t : Task) : Json.Bytes := t.encode.toUTF8.toList

def encodeFields (t : Task) : Fields := [(bodyField, t.encode)]

structure Draft where
  id : Option Uuid
  body : Option Json
  timeoutSeconds : Option (Option UInt64)

def Draft.toTask (d : Draft) : Task :=
  ⟨d.id.getD Uuid.nil, d.body.getD .null, d.timeoutSeconds.getD none⟩

def record : Json.Record Draft Task where
  members := [
    ⟨"id", (·.id.isSome), fun _ d s => do
      let (u, rest) ← Json.readUuid s
      .ok ({ d with id := some u }, rest)⟩,
    ⟨"body", (·.body.isSome), fun depth d s => do
      let (v, rest) ← Json.value depth s
      .ok ({ d with body := some v }, rest)⟩,
    ⟨"timeout_secs", (·.timeoutSeconds.isSome), fun _ d s => do
      let (n, rest) ← Json.readOption Json.readUInt64 s
      .ok ({ d with timeoutSeconds := some n }, rest)⟩]
  strict := false
  openEnded := true
  start := ⟨none, none, none⟩
  finish d := .ok d.toTask

def ofBytes (s : Json.Bytes) : Except Json.Fault Task := record.parse s

def decode (text : String) : Except Json.Fault Task := ofBytes text.toUTF8.toList

def decodeFields (fields : Fields) : Except TaskFault Task :=
  match Table.get? bodyField fields with
  | none => .error (.missingField bodyField)
  | some text => (decode text).mapError .json

end Task

end TaskRelay
