import TaskRelay.Server.Operation

/-!
# Links to a server

A store that a server keeps. While the link is open every operation sends its
command; once it is closed nothing is sent any more. Only a health check has a
time limit of its own.
-/

set_option autoImplicit false

namespace TaskRelay

structure Link where
  label : String
  commandTimeout : Span
  isOpen : Bool

structure Arrival where
  answer : Except ServerFault ServerReply
  delay : Nat

structure Exchange where
  sent : Option (Channel × List String)
  notes : List Note
  result : Except StoreError Gain

namespace Link

def connected (label : String) (commandTimeout : Span) : Link := ⟨label, commandTimeout, true⟩

def givesUp (l : Link) (op : Operation) (a : Arrival) : Bool :=
  match op with
  | .ping => l.commandTimeout.timerMillis < a.delay
  | _ => false

def perform (l : Link) (op : Operation) (a : Arrival) : Exchange :=
  if !l.isOpen then ⟨none, [], .error .closed⟩
  else
    let sent := some (op.channel, op.command)
    if l.givesUp op a then ⟨sent, [], .error (.healthCheckFailed "PING command timed out")⟩
    else
      let (notes, result) := op.finish l.label a.answer
      ⟨sent, notes, result⟩

def close (l : Link) : Link × List Note :=
  ({ l with isOpen := false },
    if l.isOpen then [.info "Redis connections released" [("target_node", l.label)]] else [])

end Link

end TaskRelay
