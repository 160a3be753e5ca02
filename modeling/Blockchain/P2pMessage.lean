import Blockchain.ChainStore

/-! The envelope of a peer-to-peer message: magic, version, type, payload, checksum. -/
namespace Blockchain
open Lib

def kProtocolVersion : UInt32 := 1
def kNetworkMagic : UInt32 := 0xBC173C01
def kMaxP2pPayloadBytes : UInt32 := 1048576
def kP2pEnvelopeOverhead : Nat := 4 + 4 + 2 + 4 + 4

inductive P2pMessageType where
  | handshake
  | ping
  | pong
  | peerInfo
  | txAnnounce
  | txRequest
  | txResponse
  | blockAnnounce
  | blockRequest
  | blockResponse
  | reject
deriving DecidableEq, Repr

def P2pMessageType.code : P2pMessageType → UInt16
  | .handshake => 1
  | .ping => 2
  | .pong => 3
  | .peerInfo => 4
  | .txAnnounce => 5
  | .txRequest => 6
  | .txResponse => 7
  | .blockAnnounce => 8
  | .blockRequest => 9
  | .blockResponse => 10
  | .reject => 11

def parseMessageType (raw : UInt16) : Result P2pMessageType :=
  if raw = 1 then .ok .handshake
  else if raw = 2 then .ok .ping
  else if raw = 3 then .ok .pong
  else if raw = 4 then .ok .peerInfo
  else if raw = 5 then .ok .txAnnounce
  else if raw = 6 then .ok .txRequest
  else if raw = 7 then .ok .txResponse
  else if raw = 8 then .ok .blockAnnounce
  else if raw = 9 then .ok .blockRequest
  else if raw = 10 then .ok .blockResponse
  else if raw = 11 then .ok .reject
  else makeError .invalidMessage ("unknown P2P message type: " ++ toString raw.toNat)

structure P2pMessage where
  version : UInt32
  type : P2pMessageType
  payload : Bytes
deriving DecidableEq

def checksumOf (data : Bytes) : UInt32 := leadingWord (sha256 data)

namespace P2pMessage

def writeHeaderBody (message : P2pMessage) : Bytes :=
  putU32 kNetworkMagic ++ putU32 message.version ++ putU16 message.type.code ++
    putU32 (UInt32.ofNat message.payload.length) ++ putBytes message.payload

def toBytes (message : P2pMessage) : Bytes :=
  message.writeHeaderBody ++ putU32 (checksumOf message.writeHeaderBody)

def getFields : ByteReader (P2pMessage × UInt32) := do
  let magic ← ByteReader.getU32
  if magic ≠ kNetworkMagic then throw ⟨.invalidMessage, "unexpected network magic"⟩
  else do
    let version ← ByteReader.getU32
    if version ≠ kProtocolVersion then
      throw ⟨.unsupportedVersion, "unsupported P2P protocol version"⟩
    else do
      let typeRaw ← ByteReader.getU16
      let type ← StateT.lift (parseMessageType typeRaw)
      let payload ← ByteReader.getVarBytes kMaxP2pPayloadBytes
      let checksum ← ByteReader.getU32
      return (⟨version, type, payload⟩, checksum)

def deserialize (wire : Bytes) : Result P2pMessage :=
  if wire.length < kP2pEnvelopeOverhead then makeError .parseError "P2P message too short"
  else do
    let (message, checksum) ← ByteReader.parse (ByteReader.exactly getFields) wire
    if checksum ≠ checksumOf (wire.take (wire.length - 4)) then
      makeError .invalidMessage "P2P message checksum mismatch"
    else .ok message

/-- Messages whose envelope a receiver accepts. -/
structure Sendable (message : P2pMessage) : Prop where
  version_eq : message.version = kProtocolVersion
  payload_le : message.payload.length ≤ kMaxP2pPayloadBytes.toNat

theorem toBytes_length (message : P2pMessage) :
    message.toBytes.length = message.payload.length + kP2pEnvelopeOverhead := by
  simp only [toBytes, writeHeaderBody, putBytes, kP2pEnvelopeOverhead, List.length_append,
    putU32_length, putU16_length]
  omega

theorem parseMessageType_code (type : P2pMessageType) : parseMessageType type.code = .ok type := by
  cases type <;> rfl

theorem getFields_run {message : P2pMessage} (h : message.Sendable) :
    getFields.run message.toBytes =
      .ok ((message, checksumOf message.writeHeaderBody), []) := by
  have hversion := h.version_eq
  have hpayload := ByteReader.getVarBytes_append message.payload kMaxP2pPayloadBytes
    (putU32 (checksumOf message.writeHeaderBody) ++ []) h.payload_le
  have htype : ∀ rest : Bytes,
      (StateT.lift (parseMessageType message.type.code) : ByteReader P2pMessageType).run rest =
        .ok (message.type, rest) := by
    intro rest
    rw [StateT.run_lift, parseMessageType_code]
    rfl
  have hbytes : message.toBytes = putU32 kNetworkMagic ++ (putU32 message.version ++
      (putU16 message.type.code ++ (putVarBytes message.payload ++
        (putU32 (checksumOf message.writeHeaderBody) ++ [])))) := by
    simp only [toBytes, writeHeaderBody, putVarBytes, List.append_assoc, List.append_nil]
  rw [hbytes, getFields, run_bind_of_ok (ByteReader.getU32_decodes _ _ trivial), if_neg (by simp),
    run_bind_of_ok (ByteReader.getU32_decodes _ _ trivial), if_neg (not_not.mpr hversion),
    run_bind_of_ok (ByteReader.getU16_decodes _ _ trivial), run_bind_of_ok (htype _),
    run_bind_of_ok hpayload, run_bind_of_ok (ByteReader.getU32_decodes _ _ trivial)]
  rfl

theorem deserialize_toBytes {message : P2pMessage} (h : message.Sendable) :
    deserialize message.toBytes = .ok message := by
  have hlen := message.toBytes_length
  have htake : message.toBytes.take (message.toBytes.length - 4) = message.writeHeaderBody := by
    simp [toBytes]
  rw [deserialize, if_neg (by omega),
    ByteReader.parse_of_run (ByteReader.run_exactly (getFields_run h)), ok_bind]
  simp only [htake, ne_eq, not_true_eq_false, if_false]

end P2pMessage
end Blockchain
