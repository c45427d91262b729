import TaskRelay.Uuid

/-!
# Notes

What the machinery reports while it runs: log events with their level, message
and fields, and the events that a scripted handler records for its task.
-/

set_option autoImplicit false

namespace TaskRelay

inductive Level
  | trace
  | debug
  | info
  | warn
  | error
  deriving DecidableEq, Repr

def Level.text : Level → String
  | .trace => "TRACE"
  | .debug => "DEBUG"
  | .info => "INFO"
  | .warn => "WARN"
  | .error => "ERROR"

structure LogEvent where
  level : Level
  message : String
  fields : List (String × String)
  deriving DecidableEq, Repr

inductive Note
  | log (event : LogEvent)
  | handled (task : Uuid) (what : String)
  deriving DecidableEq

namespace Note

def trace (message : String) (fields : List (String × String)) : Note :=
  .log ⟨.trace, message, fields⟩

def debug (message : String) (fields : List (String × String)) : Note :=
  .log ⟨.debug, message, fields⟩

def info (message : String) (fields : List (String × String)) : Note :=
  .log ⟨.info, message, fields⟩

def warn (message : String) (fields : List (String × String)) : Note :=
  .log ⟨.warn, message, fields⟩

def error (message : String) (fields : List (String × String)) : Note :=
  .log ⟨.error, message, fields⟩

end Note

end TaskRelay
