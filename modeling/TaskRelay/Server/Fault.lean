import TaskRelay.Store.Error
import TaskRelay.Text.Cut

/-!
# Server faults

What can come back in place of a reply: an error line of the server, a problem
of the client with a reply, or a broken connection. The first word of an error
line says its kind; a word that is none of the known ones is an extension.
-/

set_option autoImplicit false

namespace TaskRelay

inductive FaultKind
  | response
  | authentication
  | type
  | execAbort
  | busyLoading
  | noScript
  | clientConfig
  | moved
  | ask
  | tryAgain
  | clusterDown
  | crossSlot
  | masterDown
  | io
  | client
  | extension
  | readOnly
  | noMaster
  | noReplicas
  | noSentinels
  | notBusy
  deriving DecidableEq, Repr

namespace FaultKind

def name : FaultKind → String
  | .response => "ResponseError"
  | .authentication => "AuthenticationFailed"
  | .type => "TypeError"
  | .execAbort => "ExecAbortError"
  | .busyLoading => "BusyLoadingError"
  | .noScript => "NoScriptError"
  | .clientConfig => "InvalidClientConfig"
  | .moved => "Moved"
  | .ask => "Ask"
  | .tryAgain => "TryAgain"
  | .clusterDown => "ClusterDown"
  | .crossSlot => "CrossSlot"
  | .masterDown => "MasterDown"
  | .io => "IoError"
  | .client => "ClientError"
  | .extension => "ExtensionError"
  | .readOnly => "ReadOnly"
  | .noMaster => "MasterNameNotFoundBySentinel"
  | .noReplicas => "NoValidReplicasFoundBySentinel"
  | .noSentinels => "EmptySentinelList"
  | .notBusy => "NotBusy"

def all : List FaultKind :=
  [.response, .authentication, .type, .execAbort, .busyLoading, .noScript, .clientConfig, .moved,
    .ask, .tryAgain, .clusterDown, .crossSlot, .masterDown, .io, .client, .extension, .readOnly,
    .noMaster, .noReplicas, .noSentinels, .notBusy]

def ofName? (s : String) : Option FaultKind := all.find? (·.name == s)

def ofWord? (word : String) : Option FaultKind :=
  match word with
  | "ERR" => some .response
  | "EXECABORT" => some .execAbort
  | "LOADING" => some .busyLoading
  | "NOSCRIPT" => some .noScript
  | "MOVED" => some .moved
  | "ASK" => some .ask
  | "TRYAGAIN" => some .tryAgain
  | "CLUSTERDOWN" => some .clusterDown
  | "CROSSSLOT" => some .crossSlot
  | "MASTERDOWN" => some .masterDown
  | "READONLY" => some .readOnly
  | "NOTBUSY" => some .notBusy
  | _ => none

theorem ofName?_name (k : FaultKind) : ofName? k.name = some k := by cases k <;> decide

end FaultKind

inductive ServerFault
  | described (kind : FaultKind) (description : String) (detail : Option String)
  | extended (word detail : String)
  | disconnected (reason : String)
  deriving DecidableEq, Repr

namespace ServerFault

def ofLine (line : String) : ServerFault :=
  let (word, detail) := match Text.cutFirst ' ' line.toList with
    | some (w, d) => (String.ofList w, some (String.ofList d))
    | none => (line, none)
  match FaultKind.ofWord? word with
  | some k => .described k "An error was signalled by the server" detail
  | none => .extended word (detail.getD "Unknown extension error encountered")

def kind : ServerFault → FaultKind
  | .described k _ _ => k
  | .extended _ _ => .extension
  | .disconnected _ => .io

def text : ServerFault → String
  | .described k description none => description ++ "- " ++ k.name
  | .described k description (some detail) => description ++ " - " ++ k.name ++ ": " ++ detail
  | .extended word detail => word ++ ": " ++ detail
  | .disconnected reason => reason

def isBusyGroup : ServerFault → Bool
  | .extended word _ => word == "BUSYGROUP"
  | _ => false

def toStoreError (f : ServerFault) : StoreError :=
  match f.kind with
  | .io => .connection ("IO error: " ++ f.text)
  | .response => .command ("Response error: " ++ f.text)
  | _ => .command f.text

end ServerFault

end TaskRelay
