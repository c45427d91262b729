/-!
# Store errors
-/

set_option autoImplicit false

namespace TaskRelay

inductive StoreError
  | connection (detail : String)
  | command (detail : String)
  | config (detail : String)
  | healthCheckFailed (detail : String)
  | closed
  deriving DecidableEq, Repr

def StoreError.message : StoreError → String
  | .connection d => "Store connection error: " ++ d
  | .command d => "Store command error: " ++ d
  | .config d => "Store configuration error: " ++ d
  | .healthCheckFailed d => "Store health check failed: " ++ d
  | .closed => "Store is closed"

end TaskRelay
