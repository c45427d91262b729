import TaskRelay.Handler.Error
import TaskRelay.Journal
import TaskRelay.Progress
import TaskRelay.Task

/-!
# Handlers

A handler either logs its task and succeeds, just succeeds, or follows a script:
a list of actions that wait, look at the task's token, record events, and settle
the result. The script of a task is its payload, so a queue of tasks describes
how each of its runs behaves over time.
-/

set_option autoImplicit false

namespace TaskRelay

inductive Action
  | sleep (millis : Nat)
  | awaitCancel
  | sleepOrCancel (millis : Nat)
  | check
  | record (what : String)
  | fail (error : HandlerError)
  | failIfCancelled
  | panic
  deriving DecidableEq, Repr

def Action.ofJson? : Json → Option Action
  | .list (.text name :: args) =>
    let millis := match args with
      | .whole n :: _ => n.value.toNat
      | _ => 0
    let detail := match args with
      | .text s :: _ => s
      | _ => ""
    match name with
    | "sleep" => some (.sleep millis)
    | "wait_cancel" => some .awaitCancel
    | "sleep_or_cancel" => some (.sleepOrCancel millis)
    | "check" => some .check
    | "event" => some (.record detail)
    | "failed" => some (.fail (.failed detail))
    | "invalid" => some (.fail (.invalidPayload detail))
    | "cancelled" => some (.fail .cancelled)
    | "cancelled_if" => some .failIfCancelled
    | "panic" => some .panic
    | _ => none
  | _ => none

def scriptOf (body : Json) : List Action :=
  match body.member? "do" with
  | some (.list items) => items.filterMap Action.ofJson?
  | _ => []

inductive Handler
  | log
  | plain
  | scripted (name : String)
  deriving DecidableEq, Repr

def Handler.name : Handler → String
  | .log => "log"
  | .plain => "handler"
  | .scripted name => name

inductive Pause
  | time (deadline : Nat)
  | cancellation
  | timeOrCancellation (deadline : Nat)
  deriving DecidableEq, Repr

def Pause.over (p : Pause) (now : Nat) (cancelled : Bool) : Bool :=
  match p with
  | .time t => t ≤ now
  | .cancellation => cancelled
  | .timeOrCancellation t => cancelled || t ≤ now

def Pause.deadline? : Pause → Option Nat
  | .time t => some t
  | .cancellation => none
  | .timeOrCancellation t => some t

inductive Handled
  | returned (result : Except HandlerError Unit)
  | panicked

structure Handling where
  task : Uuid
  script : List Action
  greeting : Option Note
  recorded : Bool
  begun : Bool
  pause : Option Pause
  result : Except HandlerError Unit

namespace Handling

def start (handler : Handler) (task : Task) : Handling :=
  match handler with
  | .log =>
    { task := task.id, script := [], recorded := false, begun := false, pause := none
      result := .ok ()
      greeting := some (.info "Task received"
        [("task_id", task.id.text), ("body", task.body.render)]) }
  | .plain =>
    { task := task.id, script := [], recorded := false, begun := false, pause := none
      result := .ok (), greeting := none }
  | .scripted _ =>
    { task := task.id, script := scriptOf task.body, recorded := true, begun := false
      pause := none, result := .ok (), greeting := none }

def note (h : Handling) (what : String) : List Note :=
  if h.recorded then [.handled h.task what] else []

def woken (h : Handling) (now : Nat) (cancelled : Bool) : Bool :=
  match h.pause with
  | some p => p.over now cancelled
  | none => true

def act (h : Handling) (now : Nat) (cancelled : Bool) :
    Action → List Note × Progress Handling Handled
  | .sleep ms => ([], .running { h with pause := some (.time (now + ms)) })
  | .awaitCancel => ([], .running { h with pause := some .cancellation })
  | .sleepOrCancel ms => ([], .running { h with pause := some (.timeOrCancellation (now + ms)) })
  | .check => (h.note (if cancelled then "cancelled" else "live"), .running h)
  | .record what => (h.note what, .running h)
  | .fail e => ([], .running { h with result := .error e })
  | .failIfCancelled =>
    ([], .running (if cancelled then { h with result := .error .cancelled } else h))
  | .panic => (h.note "dropped", .done .panicked)

def step (h : Handling) (now : Nat) (cancelled : Bool) : List Note × Progress Handling Handled :=
  if !h.begun then
    (h.greeting.toList ++ h.note (if cancelled then "start(cancelled)" else "start"),
      .running { h with begun := true })
  else match h.pause with
    | some p =>
      if p.over now cancelled then ([], .running { h with pause := none })
      else ([], .waiting h)
    | none =>
      match h.script with
      | [] => (h.note "end", .done (.returned h.result))
      | a :: rest => { h with script := rest }.act now cancelled a

def abandon (h : Handling) : List Note := if h.begun then h.note "dropped" else []

def deadline? (h : Handling) : Option Nat := h.pause.bind Pause.deadline?

/-- Executes a task alone, with the clock moving to its deadlines. The notes come
with their times; there is no end if it waits for a cancellation that never comes. -/
def alone (cancelled : Bool) : Nat → Nat → Handling → List (Nat × Note) × Option Handled
  | 0, _, _ => ([], none)
  | fuel + 1, now, h =>
    let (ns, p) := h.step now cancelled
    let timed := ns.map (now, ·)
    match p with
    | .done r => (timed, some r)
    | .running h =>
      let (rest, r) := alone cancelled fuel now h
      (timed ++ rest, r)
    | .waiting h =>
      match h.deadline? with
      | none => (timed, none)
      | some d =>
        let (rest, r) := alone cancelled fuel d h
        (timed ++ rest, r)

end Handling

end TaskRelay
