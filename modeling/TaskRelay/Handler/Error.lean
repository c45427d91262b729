/-!
# Handler errors
-/

set_option autoImplicit false

namespace TaskRelay

inductive HandlerError
  | failed (detail : String)
  | invalidPayload (detail : String)
  | cancelled
  deriving DecidableEq, Repr

def HandlerError.message : HandlerError → String
  | .failed d => "Task execution failed: " ++ d
  | .invalidPayload d => "Invalid task payload: " ++ d
  | .cancelled => "Task was cancelled"

end TaskRelay
