import TaskRelay.Entry
import TaskRelay.Store.Error
import TaskRelay.Text.Integer

/-!
# The stream store

A stream is an append-only log whose entries are numbered from 1. A consumer
group has a cursor, the number of the last entry handed out, and a pending list
of the entries handed out and not acknowledged yet. A group starts at the end of
its stream. Trimming drops the oldest entries and leaves cursors and pending
lists alone.
-/

set_option autoImplicit false

namespace TaskRelay

structure Pending where
  consumer : String
  deliveries : Nat
  deriving DecidableEq, Repr

structure Group where
  cursor : Nat
  pending : Table Nat Pending
  deriving DecidableEq, Repr

structure StreamLog where
  entries : List (Nat × Fields)
  last : Nat
  groups : Table String Group
  deriving DecidableEq, Repr

namespace StreamLog

def empty : StreamLog := ⟨[], 0, []⟩

def trim (maxLen : Nat) (entries : List (Nat × Fields)) : List (Nat × Fields) :=
  if maxLen = 0 then entries else entries.drop (entries.length - maxLen)

def append (s : StreamLog) (fields : Fields) (maxLen : Nat) : StreamLog :=
  { s with
    entries := trim maxLen (s.entries ++ [(s.last + 1, fields)])
    last := s.last + 1 }

end StreamLog

def entryId (n : Nat) : String := toString n ++ "-0"

/-- The number that an identifier names: that of the text before its first hyphen. -/
def entryNumber? (id : String) : Option Nat :=
  (Text.natural Text.maxU64 (String.ofList (id.toList.takeWhile (· ≠ '-')))).toOption

def numbered (p : Nat × Fields) : Entry := ⟨entryId p.1, p.2⟩

structure Store where
  streams : Table String StreamLog
  closed : Bool
  /-- How often suspended reads were told to look again. -/
  announcements : Nat
  /-- How long an addition takes, in milliseconds. -/
  addDelay : Nat
  failingReads : Nat
  failingAcks : Nat
  deriving DecidableEq, Repr

namespace Store

def empty : Store := ⟨[], false, 0, 0, 0, 0⟩

def stream (s : Store) (name : String) : StreamLog := (Table.get? name s.streams).getD .empty

def setStream (s : Store) (name : String) (log : StreamLog) : Store :=
  { s with streams := Table.insert name log s.streams }

def group? (s : Store) (stream group : String) : Option Group :=
  Table.get? group (s.stream stream).groups

def setGroup (s : Store) (stream group : String) (g : Group) : Store :=
  let log := s.stream stream
  s.setStream stream { log with groups := Table.insert group g log.groups }

def entries (s : Store) (stream : String) : List Entry := (s.stream stream).entries.map numbered

def pending (s : Store) (stream group : String) : Table Nat Pending :=
  match s.group? stream group with
  | some g => g.pending
  | none => []

def createGroup (s : Store) (stream group : String) : Except StoreError Store :=
  if s.closed then .error .closed
  else match s.group? stream group with
    | some _ => .ok s
    | none => .ok (s.setGroup stream group ⟨(s.stream stream).last, []⟩)

def append (s : Store) (stream : String) (fields : Fields) (maxLen : Nat) :
    Except StoreError (Store × String) :=
  if s.closed then .error .closed
  else
    let log := (s.stream stream).append fields maxLen
    let s := s.setStream stream log
    .ok ({ s with announcements := s.announcements + 1 }, entryId log.last)

def noGroup (stream group : String) : StoreError :=
  .command s!"NOGROUP No such key '{stream}' or consumer group '{group}'"

/-- The next entries beyond a group's cursor, at least one if there are any. -/
def batch (log : StreamLog) (g : Group) (count : Nat) : List (Nat × Fields) :=
  (log.entries.filter fun p => g.cursor < p.1).take (max count 1)

def Group.handOut (g : Group) (consumer : String) (es : List (Nat × Fields)) : Group :=
  es.foldl (fun g p => ⟨p.1, Table.insert p.1 ⟨consumer, 1⟩ g.pending⟩) g

def deliver (s : Store) (stream group consumer : String) (count : Nat) :
    Except StoreError (Option (Store × List Entry)) :=
  if s.closed then .error .closed
  else match s.group? stream group with
    | none => .error (noGroup stream group)
    | some g =>
      match batch (s.stream stream) g count with
      | [] => .ok none
      | es => .ok (some (s.setGroup stream group (Group.handOut g consumer es), es.map numbered))

def ack (s : Store) (stream group id : String) : Store × Except StoreError Unit :=
  match s.failingAcks with
  | n + 1 => ({ s with failingAcks := n }, .error (.connection "injected ack failure"))
  | 0 =>
    if s.closed then (s, .error .closed)
    else match s.group? stream group, entryNumber? id with
      | some g, some n =>
        (s.setGroup stream group { g with pending := Table.erase n g.pending }, .ok ())
      | _, _ => (s, .ok ())

def claimOne (s : Store) (stream group consumer : String) (n : Nat) : Store × List Entry :=
  match s.group? stream group with
  | none => (s, [])
  | some g =>
    match Table.get? n g.pending with
    | none => (s, [])
    | some p =>
      let held := Table.insert n ⟨consumer, p.deliveries + 1⟩ g.pending
      (s.setGroup stream group { g with pending := held },
        ((s.stream stream).entries.filter (·.1 == n)).map numbered)

def claim (s : Store) (stream group consumer : String) (ids : List String) :
    Store × List Entry :=
  (ids.filterMap entryNumber?).foldl (fun (s, es) n =>
    let (s, found) := claimOne s stream group consumer n
    (s, es ++ found)) (s, [])

def ping (s : Store) : Except StoreError Unit := if s.closed then .error .closed else .ok ()

def close (s : Store) : Store :=
  { s with closed := true, announcements := s.announcements + 1 }

end Store

end TaskRelay
