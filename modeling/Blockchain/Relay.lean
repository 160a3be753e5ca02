import Blockchain.PeerState

/-! The relay session of two nodes: the client's handshake, block pulls and announcements,
and the server's message loop. The client is cut at the points where its state is of
interest, so that runs of the two can be observed there. -/
namespace Blockchain
open Lib

structure RelaySessionSummary where
  height : UInt32
  mempoolSize : Nat

structure RelayClientResult where
  height : UInt32
  tipHash : Hash256

structure RelayClientOptions where
  txsAfterSync : List Transaction := []
  blocksAfterTx : UInt32 := 0

def kMaxRelayMessages : Nat := 64

def serveRelayHandshake : PeerAction Unit := do
  let inbound ← recvMessage
  let _ ← Action.ofExcept (parseHandshakeMessage inbound)
  let state ← Action.state
  let outbound ← Action.ofExcept (makeHandshakeMessage state.localHandshake)
  sendMessage outbound

def exchangeRelayHandshake : PeerAction HandshakePayload := do
  let state ← Action.state
  let outbound ← Action.ofExcept (makeHandshakeMessage state.localHandshake)
  sendMessage outbound
  let inbound ← recvMessage
  Action.ofExcept (parseHandshakeMessage inbound)

def peerDisconnected (err : Error) : Bool := recvClosed err

def sendTxAnnounces : List Transaction → PeerAction Unit
  | [] => pure ()
  | tx :: rest => do
    let message ← Action.ofExcept (makeTxAnnounceMessage ⟨tx.toBytes⟩)
    sendMessage message
    sendTxAnnounces rest

def relayMessageLoop : Nat → PeerAction Unit
  | 0 => Action.fail ⟨.resourceLimitExceeded, "relay message loop limit exceeded"⟩
  | n + 1 => do
    let inbound ← Action.attempt recvMessage
    match inbound with
    | .error e => if peerDisconnected e then pure () else Action.fail e
    | .ok message => do
      PeerState.handleMessage message
      relayMessageLoop n

def serveRelayMessages (budget : Nat) : PeerAction RelaySessionSummary := do
  relayMessageLoop budget
  PeerState.persistLedger
  let state ← Action.state
  pure ⟨state.height, state.mempool.size⟩

def serveRelayConnection : PeerAction RelaySessionSummary := do
  serveRelayHandshake
  serveRelayMessages kMaxRelayMessages

def requestBlock (height : UInt32) : PeerAction Unit := do
  let request ← Action.ofExcept (makeBlockRequestMessage ⟨height⟩)
  sendMessage request
  let inbound ← recvMessage
  PeerState.handleMessage inbound

def requestBlocksAfterTx : Nat → PeerAction Unit
  | 0 => pure ()
  | n + 1 => do
    let state ← Action.state
    requestBlock (state.height + 1)
    requestBlocksAfterTx n

/-- `run_relay_client` after its height check; `persist` is the flag of the configuration,
the client's state was built with it switched off. -/
def finishRelayClient (persist : Bool) (options : RelayClientOptions) :
    PeerAction RelayClientResult := do
  sendTxAnnounces options.txsAfterSync
  requestBlocksAfterTx options.blocksAfterTx.toNat
  if persist then PeerState.saveLedger else pure ()
  let state ← Action.state
  pure ⟨state.height, state.tipHash⟩

/-- Where the client stands: connected, at the head of the sync loop, past the height check. -/
inductive ClientPoint where
  | connected (state : PeerState)
  | syncing (peer : HandshakePayload) (next : UInt32) (state : PeerState)
  | synced (peer : HandshakePayload) (state : PeerState)

abbrev ClientParty := NodeParty ClientPoint (Result RelayClientResult)

abbrev ServerParty := NodeParty Empty (Result RelaySessionSummary)

def clientStep {α : Type} (m : PeerAction α) (state : PeerState)
    (next : α → PeerState → Turn ClientPoint (Result RelayClientResult)) : ClientParty :=
  (m state).bind fun out =>
    match out.1 with
    | .ok a => .ret (next a out.2)
    | .error e => .ret (.done (.error e))

def relayClient (persist : Bool) (options : RelayClientOptions) : ClientPoint → ClientParty
  | .connected state =>
    clientStep exchangeRelayHandshake state fun peer state =>
      .again (.syncing peer (state.height + 1) state)
  | .syncing peer next state =>
    -- `next` wraps, so the test never fails against the largest height
    if next ≤ peer.height then
      clientStep (requestBlock next) state fun _ state => .again (.syncing peer (next + 1) state)
    else if state.height ≠ peer.height then
      .ret (.done (makeError .invalidBlock
        ("relay client did not reach target height " ++ toString peer.height.toNat)))
    else .ret (.again (.synced peer state))
  | .synced _ state =>
    clientStep (finishRelayClient persist options) state fun result _ => .done (.ok result)

/-- The client builds its state without writing the ledger. -/
def bootstrapConfig (config : NodeConfig) : NodeConfig := { config with persist := false }

def runRelayClient (config : NodeConfig) (dir : DataDir) : ClientParty :=
  (PeerState.fromConfig (bootstrapConfig config) dir).bind fun built =>
    match built with
    | .error e => .ret (.done (.error e))
    | .ok state => .ret (.again (.connected state))

def serverParty (m : PeerAction RelaySessionSummary) (state : PeerState) : ServerParty :=
  (m state).bind fun out => .ret (.done out.1)

abbrev RelaySession :=
  Session Error StoreOp.Answer ClientPoint (Result RelayClientResult) Empty
    (Result RelaySessionSummary)

abbrev RelayStep (persist : Bool) (options : RelayClientOptions) :
    RelaySession → RelaySession → Prop :=
  Session.Step socketFaults (relayClient persist options) (fun point : Empty => nomatch point)

def relaySession (client server : PeerState) : RelaySession :=
  ⟨.ret (.again (.connected client)), serverParty serveRelayConnection server, [], []⟩

end Blockchain
