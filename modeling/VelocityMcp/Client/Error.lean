import VelocityMcp.Json

/-!
# Client.Error — the errors of the client (`client/src/error.rs`) that the modelled code returns
-/

namespace VelocityMcp.Client

/-- The text of a `serde_json` error is left out. -/
inductive Error where
  | protocol (code : Int32) (message : String) (data : Option Value)
  | json
  | server (text : String)
  | connectionClosed
  | timeout
  | staleResponse (text : String)
  | toolExecution (text : String)
  | sharedMemory (text : String)
  | ndaProtocol (text : String)
deriving DecidableEq

end VelocityMcp.Client
