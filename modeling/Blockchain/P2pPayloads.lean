import Blockchain.P2pMessage

/-! Typed payloads of peer-to-peer messages. -/
namespace Blockchain
open Lib

def kMaxNodeIdBytes : UInt32 := 64
def kMaxRejectReasonBytes : UInt32 := 256

structure HandshakePayload where
  networkMagic : UInt32
  height : UInt32
  tipHash : Hash256
  nodeId : Bytes
deriving DecidableEq

inductive RejectCode where
  | protocolMismatch
  | invalidMessage
  | duplicate
  | tooBusy
  | internal
deriving DecidableEq, Repr

def RejectCode.code : RejectCode → UInt16
  | .protocolMismatch => 1
  | .invalidMessage => 2
  | .duplicate => 3
  | .tooBusy => 4
  | .internal => 5

structure RejectPayload where
  code : RejectCode
  reason : Bytes
deriving DecidableEq

structure PingPayload where
  nonce : UInt64
deriving DecidableEq

abbrev PongPayload := PingPayload

structure TxAnnouncePayload where
  txBytes : Bytes
deriving DecidableEq

structure BlockAnnouncePayload where
  blockBytes : Bytes
deriving DecidableEq

structure BlockRequestPayload where
  height : UInt32
deriving DecidableEq

abbrev BlockResponsePayload := BlockAnnouncePayload

def putNodeId (id : Bytes) : Result Bytes :=
  if id.isEmpty then makeError .invalidMessage "node_id must not be empty"
  else if id.length > kMaxNodeIdBytes.toNat then
    makeError .invalidMessage "node_id exceeds maximum length"
  else .ok (putVarBytes id)

def getNodeId : ByteReader Bytes := do
  let raw ← ByteReader.getVarBytes kMaxNodeIdBytes
  if raw.isEmpty then throw ⟨.invalidMessage, "node_id must not be empty"⟩ else return raw

def putReason (reason : Bytes) : Result Bytes :=
  if reason.length > kMaxRejectReasonBytes.toNat then
    makeError .invalidMessage "reject reason exceeds maximum length"
  else .ok (putVarBytes reason)

def getReason : ByteReader Bytes := ByteReader.getVarBytes kMaxRejectReasonBytes

def putBlob (bytes : Bytes) (maxLen : UInt32) (label : String) : Result Bytes :=
  if bytes.isEmpty then makeError .invalidMessage (label ++ " must not be empty")
  else if bytes.length > maxLen.toNat then
    makeError .invalidMessage (label ++ " exceeds maximum encoded length")
  else .ok (putVarBytes bytes)

def getBlob (maxLen : UInt32) (label : String) : ByteReader Bytes := do
  let raw ← ByteReader.getVarBytes maxLen
  if raw.isEmpty then throw ⟨.invalidMessage, label ++ " must not be empty"⟩ else return raw

def parseRejectCode (raw : UInt16) : Result RejectCode :=
  if raw = 1 then .ok .protocolMismatch
  else if raw = 2 then .ok .invalidMessage
  else if raw = 3 then .ok .duplicate
  else if raw = 4 then .ok .tooBusy
  else if raw = 5 then .ok .internal
  else makeError .invalidMessage ("unknown reject code: " ++ toString raw.toNat)

def expectExactSize (bytes : Bytes) (expected : Nat) : Result Unit :=
  if bytes.length ≠ expected then makeError .invalidMessage "unexpected payload size" else .ok ()

/-- The shared shape of the `make_*_message` functions. -/
def makeMessage (type : P2pMessageType) (payload : Bytes) : P2pMessage :=
  ⟨kProtocolVersion, type, payload⟩

/-- The shared shape of the `parse_*_message` functions. -/
def parseMessage {α : Type} (type : P2pMessageType) (deserialize : Bytes → Result α)
    (message : P2pMessage) : Result α :=
  if message.type ≠ type then makeError .invalidMessage "unexpected P2P message type"
  else deserialize message.payload

def serializeHandshake (payload : HandshakePayload) : Result Bytes := do
  let id ← putNodeId payload.nodeId
  .ok (putU32 payload.networkMagic ++ putU32 payload.height ++ putHash payload.tipHash ++ id)

def getHandshake : ByteReader HandshakePayload := do
  let magic ← ByteReader.getU32
  if magic ≠ kNetworkMagic then throw ⟨.invalidMessage, "handshake network magic mismatch"⟩
  else do
    let height ← ByteReader.getU32
    let tip ← ByteReader.getHash
    let nodeId ← getNodeId
    return ⟨magic, height, tip, nodeId⟩

def deserializeHandshake (bytes : Bytes) : Result HandshakePayload :=
  ByteReader.parse (ByteReader.exactly getHandshake) bytes

def makeHandshakeMessage (payload : HandshakePayload) : Result P2pMessage := do
  let bytes ← serializeHandshake payload
  .ok (makeMessage .handshake bytes)

def parseHandshakeMessage : P2pMessage → Result HandshakePayload :=
  parseMessage .handshake deserializeHandshake

def serializeReject (payload : RejectPayload) : Result Bytes := do
  let reason ← putReason payload.reason
  .ok (putU16 payload.code.code ++ reason)

def getReject : ByteReader RejectPayload := do
  let codeRaw ← ByteReader.getU16
  let code ← StateT.lift (parseRejectCode codeRaw)
  let reason ← getReason
  return ⟨code, reason⟩

def deserializeReject (bytes : Bytes) : Result RejectPayload :=
  ByteReader.parse (ByteReader.exactly getReject) bytes

def makeRejectMessage (payload : RejectPayload) : Result P2pMessage := do
  let bytes ← serializeReject payload
  .ok (makeMessage .reject bytes)

def parseRejectMessage : P2pMessage → Result RejectPayload := parseMessage .reject deserializeReject

def serializePing (payload : PingPayload) : Bytes := putU64 payload.nonce

def deserializePing (bytes : Bytes) : Result PingPayload := do
  expectExactSize bytes 8
  let nonce ← ByteReader.parse (ByteReader.exactly ByteReader.getU64) bytes
  .ok ⟨nonce⟩

def makePingMessage (payload : PingPayload) : Result P2pMessage :=
  .ok (makeMessage .ping (serializePing payload))

def parsePingMessage : P2pMessage → Result PingPayload := parseMessage .ping deserializePing

def serializePong (payload : PongPayload) : Bytes := serializePing payload

def deserializePong (bytes : Bytes) : Result PongPayload := deserializePing bytes

def makePongMessage (payload : PongPayload) : Result P2pMessage :=
  .ok (makeMessage .pong (serializePong payload))

def parsePongMessage : P2pMessage → Result PongPayload := parseMessage .pong deserializePong

def serializeTxAnnounce (payload : TxAnnouncePayload) : Result Bytes :=
  putBlob payload.txBytes kMaxTransactionSizeBytes "tx_bytes"

def deserializeTxAnnounce (bytes : Bytes) : Result TxAnnouncePayload := do
  let raw ← ByteReader.parse
    (ByteReader.exactly (getBlob kMaxTransactionSizeBytes "tx_bytes")) bytes
  .ok ⟨raw⟩

def makeTxAnnounceMessage (payload : TxAnnouncePayload) : Result P2pMessage := do
  let body ← serializeTxAnnounce payload
  .ok (makeMessage .txAnnounce body)

def parseTxAnnounceMessage : P2pMessage → Result TxAnnouncePayload :=
  parseMessage .txAnnounce deserializeTxAnnounce

def serializeBlockAnnounce (payload : BlockAnnouncePayload) : Result Bytes :=
  putBlob payload.blockBytes kMaxBlockSizeBytes "block_bytes"

def deserializeBlockAnnounce (bytes : Bytes) : Result BlockAnnouncePayload := do
  let raw ← ByteReader.parse (ByteReader.exactly (getBlob kMaxBlockSizeBytes "block_bytes")) bytes
  .ok ⟨raw⟩

def makeBlockAnnounceMessage (payload : BlockAnnouncePayload) : Result P2pMessage := do
  let body ← serializeBlockAnnounce payload
  .ok (makeMessage .blockAnnounce body)

def parseBlockAnnounceMessage : P2pMessage → Result BlockAnnouncePayload :=
  parseMessage .blockAnnounce deserializeBlockAnnounce

def serializeBlockRequest (payload : BlockRequestPayload) : Bytes := putU32 payload.height

def deserializeBlockRequest (bytes : Bytes) : Result BlockRequestPayload := do
  let height ← ByteReader.parse (ByteReader.exactly ByteReader.getU32) bytes
  .ok ⟨height⟩

def makeBlockRequestMessage (payload : BlockRequestPayload) : Result P2pMessage :=
  .ok (makeMessage .blockRequest (serializeBlockRequest payload))

def parseBlockRequestMessage : P2pMessage → Result BlockRequestPayload :=
  parseMessage .blockRequest deserializeBlockRequest

def serializeBlockResponse (payload : BlockResponsePayload) : Result Bytes :=
  serializeBlockAnnounce payload

def deserializeBlockResponse (bytes : Bytes) : Result BlockResponsePayload :=
  deserializeBlockAnnounce bytes

def makeBlockResponseMessage (payload : BlockResponsePayload) : Result P2pMessage := do
  let body ← serializeBlockResponse payload
  .ok (makeMessage .blockResponse body)

def parseBlockResponseMessage : P2pMessage → Result BlockResponsePayload :=
  parseMessage .blockResponse deserializeBlockResponse

/-! Round trips of the payloads the block sync uses. -/

theorem parseMessage_makeMessage {α : Type} (type : P2pMessageType) (deserialize : Bytes → Result α)
    (payload : Bytes) :
    parseMessage type deserialize (makeMessage type payload) = deserialize payload := by
  simp [parseMessage, makeMessage]

def ValidNodeId (id : Bytes) : Prop := id ≠ [] ∧ id.length ≤ kMaxNodeIdBytes.toNat

theorem putNodeId_ok {id bytes : Bytes} :
    putNodeId id = .ok bytes ↔ ValidNodeId id ∧ bytes = putVarBytes id := by
  simp only [putNodeId, guard_eq_ok, List.isEmpty_iff, Nat.not_lt, gt_iff_lt, ValidNodeId,
    Except.ok.injEq]
  rw [and_assoc, eq_comm (b := bytes)]

theorem getNodeId_append {id : Bytes} (h : ValidNodeId id) (rest : Bytes) :
    getNodeId.run (putVarBytes id ++ rest) = .ok (id, rest) := by
  have hne : id.isEmpty = false := by simpa [List.isEmpty_iff] using h.1
  rw [getNodeId, run_bind_of_ok (ByteReader.getVarBytes_append id kMaxNodeIdBytes rest h.2), hne]
  rfl

theorem makeHandshakeMessage_ok {payload : HandshakePayload} {message : P2pMessage} :
    makeHandshakeMessage payload = .ok message ↔ ValidNodeId payload.nodeId ∧
      message = makeMessage .handshake (putU32 payload.networkMagic ++ putU32 payload.height ++
        putHash payload.tipHash ++ putVarBytes payload.nodeId) := by
  rw [makeHandshakeMessage, bind_eq_ok]
  constructor
  · intro h
    obtain ⟨bytes, hb, hm⟩ := h
    obtain ⟨id, hid, hbytes⟩ := bind_eq_ok.mp hb
    obtain ⟨hvalid, rfl⟩ := putNodeId_ok.mp hid
    rw [← Except.ok.inj hbytes] at hm
    exact ⟨hvalid, (Except.ok.inj hm).symm⟩
  · intro h
    refine ⟨_, bind_eq_ok.mpr ⟨_, putNodeId_ok.mpr ⟨h.1, rfl⟩, rfl⟩, ?_⟩
    rw [h.2]

theorem parseHandshakeMessage_make {payload : HandshakePayload} {message : P2pMessage}
    (hmagic : payload.networkMagic = kNetworkMagic)
    (h : makeHandshakeMessage payload = .ok message) :
    parseHandshakeMessage message = .ok payload := by
  obtain ⟨hvalid, rfl⟩ := makeHandshakeMessage_ok.mp h
  have hid := getNodeId_append hvalid []
  rw [List.append_nil] at hid
  have hrun : getHandshake.run (putU32 payload.networkMagic ++ putU32 payload.height ++
      putHash payload.tipHash ++ putVarBytes payload.nodeId) = .ok (payload, []) := by
    simp only [List.append_assoc]
    rw [getHandshake, run_bind_of_ok (ByteReader.getU32_decodes _ _ trivial),
      if_neg (not_not.mpr hmagic), run_bind_of_ok (ByteReader.getU32_decodes _ _ trivial),
      run_bind_of_ok (ByteReader.getHash_decodes _ _ trivial), run_bind_of_ok hid]
    rfl
  rw [parseHandshakeMessage, parseMessage_makeMessage]
  exact ByteReader.parse_of_run (ByteReader.run_exactly hrun)

theorem makeHandshakeMessage_sendable {payload : HandshakePayload} {message : P2pMessage}
    (h : makeHandshakeMessage payload = .ok message) : message.Sendable := by
  obtain ⟨hvalid, rfl⟩ := makeHandshakeMessage_ok.mp h
  refine ⟨rfl, ?_⟩
  have hid := hvalid.2
  have hmax : kMaxNodeIdBytes.toNat = 64 := rfl
  have hlimit : kMaxP2pPayloadBytes.toNat = 1048576 := rfl
  simp only [makeMessage, List.length_append, putU32_length, putHash_length, putVarBytes, putBytes]
  omega

def blockRequestMessage (height : UInt32) : P2pMessage :=
  makeMessage .blockRequest (serializeBlockRequest ⟨height⟩)

theorem parseBlockRequestMessage_make (height : UInt32) :
    parseBlockRequestMessage (blockRequestMessage height) = .ok ⟨height⟩ := by
  have hrun := ByteReader.getU32_decodes height [] trivial
  rw [List.append_nil] at hrun
  rw [parseBlockRequestMessage, blockRequestMessage, parseMessage_makeMessage,
    deserializeBlockRequest, serializeBlockRequest,
    ByteReader.parse_of_run (ByteReader.run_exactly hrun)]
  rfl

theorem blockRequestMessage_sendable (height : UInt32) : (blockRequestMessage height).Sendable :=
  ⟨rfl, by simp [blockRequestMessage, makeMessage, serializeBlockRequest, kMaxP2pPayloadBytes]⟩

def blockResponseMessage (blockBytes : Bytes) : P2pMessage :=
  makeMessage .blockResponse (putVarBytes blockBytes)

theorem makeBlockResponseMessage_ok {bytes : Bytes} (hne : bytes ≠ [])
    (hle : bytes.length ≤ kMaxBlockSizeBytes.toNat) :
    makeBlockResponseMessage ⟨bytes⟩ = .ok (blockResponseMessage bytes) := by
  have hempty : bytes.isEmpty = false := by simpa [List.isEmpty_iff] using hne
  simp only [makeBlockResponseMessage, serializeBlockResponse, serializeBlockAnnounce, putBlob,
    hempty, Bool.false_eq_true, if_false, gt_iff_lt, if_neg (Nat.not_lt.mpr hle), ok_bind,
    blockResponseMessage]

theorem deserializeBlockAnnounce_put {bytes : Bytes} (hne : bytes ≠ [])
    (hle : bytes.length ≤ kMaxBlockSizeBytes.toNat) :
    deserializeBlockAnnounce (putVarBytes bytes) = .ok ⟨bytes⟩ := by
  have hempty : bytes.isEmpty = false := by simpa [List.isEmpty_iff] using hne
  have hraw := ByteReader.getVarBytes_append bytes kMaxBlockSizeBytes [] hle
  rw [List.append_nil] at hraw
  have hrun : (getBlob kMaxBlockSizeBytes "block_bytes").run (putVarBytes bytes) =
      .ok (bytes, []) := by
    rw [getBlob, run_bind_of_ok hraw, hempty]
    rfl
  rw [deserializeBlockAnnounce, ByteReader.parse_of_run (ByteReader.run_exactly hrun)]
  rfl

theorem blockResponseMessage_sendable {bytes : Bytes}
    (h : bytes.length + 4 ≤ kMaxP2pPayloadBytes.toNat) : (blockResponseMessage bytes).Sendable :=
  ⟨rfl, by simpa [blockResponseMessage, makeMessage, putVarBytes_length] using h⟩

end Blockchain
