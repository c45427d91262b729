import TaskRelay.Store.Log
import TaskRelay.Progress

/-!
# Store operations that take time

A group read that finds nothing is suspended until its deadline or until an
entry is added anywhere in the store; then it looks again. An addition waits out
the delay that was set when it was called and then appends.
-/

set_option autoImplicit false

namespace TaskRelay

structure GroupRead where
  stream : String
  group : String
  consumer : String
  count : Nat
  deadline : Nat
  heard : Nat
  deriving DecidableEq, Repr

abbrev ReadResult := Except StoreError (List Entry)

namespace Store

def look (s : Store) (now : Nat) (r : GroupRead) : Store × Progress GroupRead ReadResult :=
  match s.deliver r.stream r.group r.consumer r.count with
  | .error e => (s, .done (.error e))
  | .ok (some (s, es)) => (s, .done (.ok es))
  | .ok none =>
    if r.deadline ≤ now then (s, .done (.ok []))
    else (s, .waiting { r with heard := s.announcements })

def beginRead (s : Store) (now : Nat) (stream group consumer : String) (count block : Nat) :
    Store × Progress GroupRead ReadResult :=
  match s.failingReads with
  | n + 1 => ({ s with failingReads := n }, .done (.error (.connection "injected read failure")))
  | 0 => s.look now ⟨stream, group, consumer, count, now + block, s.announcements⟩

end Store

namespace GroupRead

def woken (r : GroupRead) (now : Nat) (s : Store) : Bool :=
  r.heard < s.announcements || r.deadline ≤ now

def resume (r : GroupRead) (now : Nat) (s : Store) : Store × Progress GroupRead ReadResult :=
  if r.heard < s.announcements then s.look now r
  else if r.deadline ≤ now then (s, .done (.ok []))
  else (s, .waiting r)

end GroupRead

structure Addition where
  stream : String
  fields : Fields
  maxLen : Nat
  due : Nat
  deriving DecidableEq, Repr

abbrev AddResult := Except StoreError String

def Store.beginAdd (s : Store) (now : Nat) (stream : String) (fields : Fields) (maxLen : Nat) :
    Addition :=
  ⟨stream, fields, maxLen, now + s.addDelay⟩

namespace Addition

def woken (a : Addition) (now : Nat) : Bool := a.due ≤ now

def resume (a : Addition) (now : Nat) (s : Store) : Store × Progress Addition AddResult :=
  if now < a.due then (s, .waiting a)
  else match s.append a.stream a.fields a.maxLen with
    | .ok (s, id) => (s, .done (.ok id))
    | .error e => (s, .done (.error e))

end Addition

end TaskRelay
