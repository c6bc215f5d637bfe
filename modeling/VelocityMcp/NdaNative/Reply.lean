import VelocityMcp.NdaNative.Frame

/-!
# NdaNative.Reply — the response builders (`nda_native.rs`)

All of them write the same frame: the magic, 32 zeros where a request has its Merkle root, the status, the
id and the result (`replyFrame`).
-/

namespace VelocityMcp.NdaNative

open Lib

def statusOk : UInt8 := 0

def statusError : UInt8 := 1

def emptyObjectTlv : Bytes := [0x06, 0, 0, 0, 0]

def buildNdaResponseFrame (payload : Bytes) : Bytes := ndaMagic ++ (List.replicate 32 0 ++ payload)

def buildNdaResponseRaw (status : UInt8) (idTlv resultTlv : Bytes) : Bytes :=
  ndaMagic ++ (List.replicate 32 0 ++ ([status] ++ (idTlv ++ resultTlv)))

/-- `text.len() as u32`, the text, and the tag before them. -/
def textTlv (text : String) : Bytes := 0x01 :: (beBytes 4 (utf8 text).length ++ utf8 text)

def buildNdaResponseRawText (status : UInt8) (idTlv : Bytes) (text : String) : Bytes :=
  ndaMagic ++ (List.replicate 32 0 ++ ([status] ++ (idTlv ++ textTlv text)))

def buildNdaErrorRaw (idTlv : Bytes) (errorMsg : String) : Bytes :=
  buildNdaResponseRaw statusError idTlv (textTlv errorMsg)

def buildNdaResponse (status : UInt8) (requestId result : Value) : Outcome String Bytes :=
  ((Emit.put [status]).andThen
    ((encodeJsonValue requestId).andThen (encodeJsonValue result))).toOutcome >>= fun payload =>
  .ok (buildNdaResponseFrame payload)

def buildNdaError (requestId : Value) (errorMsg : String) : Outcome String Bytes :=
  buildNdaResponse statusError requestId (.string errorMsg)

def replyFrame (status : UInt8) (idTlv resultTlv : Bytes) : Bytes :=
  buildNdaResponseFrame (status :: (idTlv ++ resultTlv))

theorem buildNdaError_null (errorMsg : String) :
    buildNdaError .null errorMsg = .ok (replyFrame statusError [0x04] (textTlv errorMsg)) := rfl

end VelocityMcp.NdaNative
