import Blockchain.P2pPayloads
import Blockchain.Lib.Session
import Blockchain.Lib.TextScan
import Mathlib.Data.List.Infix

/-! Length-prefixed frames over a connected socket. The native send and receive loops are
the two link operations; writing the ledger file is the node's only other effect. -/
namespace Blockchain
open Lib

/-- What a node asks of the platform besides its socket. -/
inductive StoreOp where
  | writeLedger (dataDir bytes : Bytes)

@[reducible] def StoreOp.Answer : StoreOp → Type := fun _ => Result Unit

abbrev NodeOp := LinkOp StoreOp

abbrev NodeAction (σ α : Type) := Action NodeOp (LinkOp.Answer Error StoreOp.Answer) Error σ α

abbrev NodeParty (σ α : Type) := Party Error StoreOp.Answer σ α

structure TcpEndpoint where
  host : Bytes
  port : UInt16

/-- The position of the last `ch`. -/
def rfind (ch : UInt8) (text : Bytes) : Option Nat :=
  (text.reverse.findIdx? (· == ch)).map (text.length - 1 - ·)

def parseTcpEndpoint (text : Bytes) : Result TcpEndpoint :=
  match rfind (UInt8.ofNat ':'.toNat) text with
  | none => makeError .invalidConfig "peer must be host:port"
  | some colon =>
    if colon = 0 ∨ colon + 1 ≥ text.length then makeError .invalidConfig "peer must be host:port"
    else
      match fromChars 16 (text.drop (colon + 1)) with
      | some (port, []) =>
        if port = 0 then makeError .invalidConfig "peer port must not be zero"
        else .ok ⟨text.take colon, UInt16.ofNat port⟩
      | _ => makeError .invalidConfig "invalid peer port"

def kMaxP2pFrameBytes : UInt32 := kMaxP2pPayloadBytes + 18

def socketError (context : String) (errno : Int) : Error :=
  ⟨.peerMisbehavior, context ++ " (errno=" ++ toString errno ++ ")"⟩

/-- What an end sees of a closed connection. -/
def socketFaults : Faults Error where
  send e := ∃ errno, e = socketError "socket send failed" errno
  recv e := ∃ errno, e = socketError "socket recv failed" errno

def recvClosed (err : Error) : Bool :=
  decide (err.code = .peerMisbehavior) &&
    decide ("socket recv failed".toList <:+: err.message.toList)

section
variable {σ : Type}

def sendAllNative (data : Bytes) : NodeAction σ Unit := do
  let sent ← Action.perform (.send data)
  Action.ofExcept sent

def recvAllNative (count : Nat) : NodeAction σ Bytes := do
  let received ← Action.perform (.recv count)
  Action.ofExcept received

def sendFramed (body : Bytes) : NodeAction σ Unit :=
  if body.length > kMaxP2pFrameBytes.toNat then
    Action.fail ⟨.resourceLimitExceeded, "frame exceeds maximum size"⟩
  else do
    sendAllNative (leBytes 4 (UInt32.ofNat body.length).toNat)
    if body.isEmpty then pure () else sendAllNative body

def recvFramed (maxFrameBytes : UInt32) : NodeAction σ Bytes := do
  -- a close inside the length is passed on as it is, unlike one inside the body
  let lenBytes ← recvAllNative 4
  let len := UInt32.ofNat (leValue lenBytes)
  if len > maxFrameBytes then
    Action.fail ⟨.resourceLimitExceeded, "frame length exceeds maximum"⟩
  else if len > 0 then do
    let body ← Action.attempt (recvAllNative len.toNat)
    match body with
    | .ok bytes => pure bytes
    | .error e =>
      if recvClosed e then Action.fail ⟨.invalidMessage, "incomplete frame body"⟩
      else Action.fail e
  else pure []

def sendMessage (message : P2pMessage) : NodeAction σ Unit := sendFramed message.toBytes

def recvMessage : NodeAction σ P2pMessage := do
  let frame ← recvFramed kMaxP2pFrameBytes
  Action.ofExcept (P2pMessage.deserialize frame)

end
end Blockchain
