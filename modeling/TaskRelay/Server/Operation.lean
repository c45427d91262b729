import TaskRelay.Journal
import TaskRelay.Server.Reply
import TaskRelay.Span

/-!
# Operations on a server

Each operation of the store is one command, sent on one of two connections. A
group read keeps its connection waiting, so it has one of its own and never
delays anything else.
-/

set_option autoImplicit false

namespace TaskRelay

inductive Channel
  | reader
  | writer
  deriving DecidableEq, Repr

inductive Operation
  | createGroup (stream group : String)
  | readGroup (stream group consumer : String) (count : Nat) (block : Span)
  | ack (stream group id : String)
  | add (stream : String) (fields : Fields) (maxLen : Nat)
  | ping

inductive Gain
  | nothing
  | id (s : String)
  | entries (es : List Entry)

namespace Operation

def channel : Operation → Channel
  | .readGroup _ _ _ _ _ => .reader
  | _ => .writer

/-- The wait that a group read asks for, in milliseconds: at least one, as zero
would mean without end. It is sent in 64 bits. -/
def blockMillis (block : Span) : Nat := max 1 block.millis % 0x10000000000000000

def bound (maxLen : Nat) : List String :=
  if maxLen = 0 then [] else ["MAXLEN", "~", toString maxLen]

def command : Operation → List String
  | .createGroup stream group => ["XGROUP", "CREATE", stream, group, "$", "MKSTREAM"]
  | .readGroup stream group consumer count block =>
    ["XREADGROUP", "GROUP", group, consumer, "BLOCK", toString (blockMillis block),
      "COUNT", toString (max 1 count), "STREAMS", stream, ">"]
  | .ack stream group id => ["XACK", stream, group, id]
  | .add stream fields maxLen =>
    ["XADD", stream] ++ bound maxLen ++ ["*"] ++ fields.flatMap fun p => [p.1, p.2]
  | .ping => ["PING"]

def groupFields (stream group : String) : List (String × String) :=
  [("stream", stream), ("group", group)]

def endCreateGroup (stream group : String) :
    Except ServerFault ServerReply → List Note × Except StoreError Gain
  | .ok _ => ([.info "Created consumer group" (groupFields stream group)], .ok .nothing)
  | .error f =>
    if f.isBusyGroup then
      ([.debug "Consumer group already exists" (groupFields stream group)], .ok .nothing)
    else ([], .error f.toStoreError)

def endPing (label : String) : Except ServerFault ServerReply → List Note × Except StoreError Gain
  | .ok r =>
    match r.asText with
    | .ok "PONG" => ([.debug "Redis health check: PONG received" []], .ok .nothing)
    | .ok other => ([], .error (.healthCheckFailed ("unexpected response: " ++ other)))
    | .error f => failed f
  | .error f => failed f
where
  failed (f : ServerFault) : List Note × Except StoreError Gain :=
    ([.error "Redis health check failed" [("target_node", label), ("error", f.text)]],
      .error (.healthCheckFailed f.text))

def gained {α : Type} (read : ServerReply → Except ServerFault α) (gain : α → Gain)
    (answer : Except ServerFault ServerReply) : Except StoreError Gain :=
  match answer with
  | .error f => .error f.toStoreError
  | .ok r =>
    match read r with
    | .ok a => .ok (gain a)
    | .error f => .error f.toStoreError

def finish (label : String) (op : Operation) (answer : Except ServerFault ServerReply) :
    List Note × Except StoreError Gain :=
  match op with
  | .createGroup stream group => endCreateGroup stream group answer
  | .readGroup _ _ _ _ _ => ([], gained ServerReply.asEntries .entries answer)
  | .ack _ _ _ => ([], gained ServerReply.asInteger (fun _ => .nothing) answer)
  | .add _ _ _ => ([], gained ServerReply.asText .id answer)
  | .ping => endPing label answer

end Operation

end TaskRelay
