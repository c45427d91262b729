import TaskRelay.Entry
import TaskRelay.Server.Fault
import TaskRelay.Text.Integer

/-!
# Server replies

The values a server answers with and how they are read. A list of pairs counts
as a map, the later of two equal keys wins and an odd item at the end is
dropped. What is nil counts as empty inside a reply.
-/

set_option autoImplicit false

namespace TaskRelay

inductive ServerReply
  | nil
  | integer (n : Int)
  | bulk (bytes : List UInt8)
  | status (line : String)
  | list (items : List ServerReply)
  deriving Repr

namespace ServerReply

def mistyped : ServerFault := .described .type "Response was of incompatible type" none

def asText : ServerReply → Except ServerFault String
  | .bulk bytes =>
    match String.fromUTF8? ⟨bytes.toArray⟩ with
    | some s => .ok s
    | none => .error (.described .type "Invalid UTF-8" none)
  | .status line => .ok line
  | _ => .error mistyped

def asInteger : ServerReply → Except ServerFault Int
  | .integer n => .ok n
  | .nil | .list _ => .error mistyped
  | r => do
    let s ← r.asText
    match Text.integer Text.maxI64 s with
    | .ok n => .ok n
    | .error _ => .error mistyped

def pairUp : List ServerReply → List (ServerReply × ServerReply)
  | k :: v :: rest => (k, v) :: pairUp rest
  | _ => []

def asMap : ServerReply → Except ServerFault (Table String ServerReply)
  | .nil => .ok []
  | .list items => do
    let pairs ← (pairUp items).mapM fun p => do
      let k ← p.1.asText
      .ok (k, p.2)
    .ok (Table.ofList pairs)
  | _ => .error mistyped

def asList : ServerReply → Except ServerFault (List ServerReply)
  | .nil => .ok []
  | .list items => .ok items
  | _ => .error mistyped

def asFields (r : ServerReply) : Except ServerFault Fields := do
  let m ← r.asMap
  .ok (m.filterMap fun p => p.2.asText.toOption.map fun v => (p.1, v))

def rowEntries (row : ServerReply) : Except ServerFault (List Entry) := do
  let m ← row.asMap
  m.mapM fun p => do
    let fields ← p.2.asFields
    .ok ⟨p.1, fields⟩

def streamEntries (stream : ServerReply) : Except ServerFault (List Entry) := do
  let m ← stream.asMap
  let perStream ← m.mapM fun p => do
    let rows ← p.2.asList
    let perRow ← rows.mapM rowEntries
    .ok perRow.flatten
  .ok perStream.flatten

def asEntries (r : ServerReply) : Except ServerFault (List Entry) := do
  let streams ← r.asList
  let perStream ← streams.mapM streamEntries
  .ok perStream.flatten

end ServerReply

end TaskRelay
