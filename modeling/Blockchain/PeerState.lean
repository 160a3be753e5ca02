import Blockchain.NodeConfig
import Blockchain.SocketIo

/-! A relay node: its chain, its pool and the blocks it can serve, and what it does with
transactions, mined blocks and peer messages. Sends and ledger writes are operations whose
outcome is open, so every statement about a node covers their failures too. -/
namespace Blockchain
open Lib

instance : KeyOrder UInt32 where
  less a b := decide (a < b)
  irrefl a := by simp
  trans a b c hab hbc := by
    simp only [decide_eq_true_eq] at hab hbc ⊢
    exact UInt32.lt_trans hab hbc
  connected a b hab hba := by
    simp only [decide_eq_false_iff_not, UInt32.not_lt] at hab hba
    exact UInt32.le_antisymm hba hab

structure PeerState where
  chain : Chain
  mempool : Mempool
  mempoolPolicy : MempoolPolicy
  nodeId : Bytes
  genesisTimestamp : UInt64
  consensus : ConsensusParams
  tmplParams : BlockTemplateParams
  dataDir : Bytes
  persist : Bool
  mineAfterTx : UInt32
  catalog : OrderedMap UInt32 Block

abbrev PeerAction (α : Type) := NodeAction PeerState α

def parseBlockBytes (bytes : Bytes) : Result Block :=
  ByteReader.parse (ByteReader.exactly Block.deserialize) bytes

def parseTransactionBytes (bytes : Bytes) : Result Transaction :=
  ByteReader.parse (ByteReader.exactly Transaction.deserialize) bytes

def sendReject (code : RejectCode) (reason : String) : PeerAction Unit := do
  let msg ← Action.ofExcept (makeRejectMessage ⟨code, textBytes reason⟩)
  sendMessage msg

namespace PeerState

def height (state : PeerState) : UInt32 := state.chain.height

def tipHash (state : PeerState) : Hash256 := state.chain.tipHash

def localHandshake (state : PeerState) : HandshakePayload :=
  ⟨kNetworkMagic, state.chain.height, state.chain.tipHash, state.nodeId⟩

def storeBlock (state : PeerState) (height : UInt32) (block : Block) : PeerState :=
  { state with catalog := state.catalog.insert height block }

def blockAtHeight (state : PeerState) (height : UInt32) : Option Block := state.catalog.find? height

def ledgerBlocks (state : PeerState) : List Block := state.catalog.values

def saveLedger : PeerAction Unit := do
  let state ← Action.state
  let bytes ← Action.ofExcept
    (ledgerBytes state.ledgerBlocks state.consensus state.mempool.sortedTransactions)
  let saved ← Action.perform (.loc (.writeLedger state.dataDir bytes))
  Action.ofExcept saved

def persistLedger : PeerAction Unit := do
  let state ← Action.state
  if state.persist then saveLedger else pure ()

def connectBlock (block : Block) : PeerAction Unit := do
  let state ← Action.state
  let (_, chain, mempool) ← Action.ofExcept (state.chain.submitBlock block (some state.mempool))
  Action.update fun state =>
    ({ state with chain := chain, mempool := mempool.getD state.mempool }).storeBlock
      chain.height block

def nextTemplate (state : PeerState) : Result BlockTemplate :=
  buildBlockTemplate state.chain.tip
    (blockTimestamp state.genesisTimestamp (state.chain.height + 1)) state.mempool
    state.chain.utxos state.tmplParams

def mineLoop : Nat → PeerAction Unit
  | 0 => pure ()
  | n + 1 => do
    let state ← Action.state
    let tmpl ← Action.ofExcept state.nextTemplate
    connectBlock tmpl.block
    mineLoop n

def mineBlocks (count : UInt32) : PeerAction Unit := do
  mineLoop count.toNat
  persistLedger

def acceptTransaction (tx : Transaction) : PeerAction Unit := fun state =>
  let accepted := state.mempool.accept tx state.chain.utxos state.mempoolPolicy
  .ret (accepted.1, { state with mempool := accepted.2 })

def onTxAnnounce (payload : Bytes) : PeerAction Unit := do
  let parsed ← Action.ofExcept (deserializeTxAnnounce payload)
  let tx ← Action.ofExcept (parseTransactionBytes parsed.txBytes)
  acceptTransaction tx
  let state ← Action.state
  -- the transaction stays admitted when mining fails
  if state.mineAfterTx > 0 then mineBlocks state.mineAfterTx else pure ()

def onBlockAnnounce (payload : Bytes) : PeerAction Unit := do
  let parsed ← Action.ofExcept (deserializeBlockAnnounce payload)
  let block ← Action.ofExcept (parseBlockBytes parsed.blockBytes)
  connectBlock block
  persistLedger

def onBlockRequest (request : BlockRequestPayload) : PeerAction Unit := do
  let state ← Action.state
  match state.blockAtHeight request.height with
  | none => sendReject .invalidMessage "unknown block height"
  | some block => do
    let msg ← Action.ofExcept (makeBlockResponseMessage ⟨block.toBytes⟩)
    sendMessage msg

def onBlockResponse (payload : Bytes) : PeerAction Unit := onBlockAnnounce payload

def handleMessage (message : P2pMessage) : PeerAction Unit :=
  match message.type with
  | .txAnnounce => do
    let _ ← Action.ofExcept (parseTxAnnounceMessage message)
    let outcome ← Action.attempt (onTxAnnounce message.payload)
    match outcome with
    | .ok () => pure ()
    | .error e => do
      sendReject .invalidMessage e.message
      Action.fail e
  | .blockAnnounce => do
    let _ ← Action.ofExcept (parseBlockAnnounceMessage message)
    onBlockAnnounce message.payload
  | .blockRequest => do
    let parsed ← Action.ofExcept (parseBlockRequestMessage message)
    onBlockRequest parsed
  | .blockResponse => do
    let _ ← Action.ofExcept (parseBlockResponseMessage message)
    onBlockResponse message.payload
  | .ping => do
    let ping ← Action.ofExcept (parsePingMessage message)
    let pong ← Action.ofExcept (makePongMessage ⟨ping.nonce⟩)
    sendMessage pong
  | .pong => pure ()
  | _ => do
    sendReject .invalidMessage "unsupported message type"
    Action.fail ⟨.invalidMessage, "unsupported message type"⟩

/-- Re-admission of the stored pool when a node restarts. -/
def restoreTransactions : List Transaction → PeerAction Unit
  | [] => pure ()
  | tx :: rest => do
    let outcome ← Action.attempt (acceptTransaction tx)
    match outcome with
    | .error e =>
      Action.fail ⟨.storageCorruption,
        "stored mempool transaction failed re-validation: " ++ e.message⟩
    | .ok () => restoreTransactions rest

/-- The constructor's arguments as `from_config` fills them; no block is stored yet. -/
def start (config : NodeConfig) (recipient : Hash256) (chain : Chain) : PeerState where
  chain := chain
  mempool := Mempool.new (resolvedMempoolLimits config)
  mempoolPolicy := resolvedMempoolPolicy config
  nodeId := config.nodeId
  genesisTimestamp := config.genesisTimestamp
  consensus := buildConsensusParams config
  tmplParams := buildTemplateParams config (buildConsensusParams config) recipient
  dataDir := config.dataDir
  persist := config.persist
  mineAfterTx := config.mineAfterTx
  catalog := OrderedMap.empty

def storeBlocks (state : PeerState) (blocks : List Block) : PeerState :=
  blocks.foldl (fun state block => state.storeBlock block.header.height block) state

def launch (work : PeerAction Unit) (state : PeerState) :
    Process NodeOp (LinkOp.Answer Error StoreOp.Answer) (Result PeerState) :=
  (work state).bind fun out => .ret (out.1.map fun _ => out.2)

def mineAndPersist (config : NodeConfig) : PeerAction Unit := do
  mineBlocks config.mineBlocks
  if config.persist then persistLedger else pure ()

/-- `dir` is the data directory as the node finds it. -/
def fromConfig (config : NodeConfig) (dir : DataDir) :
    Process NodeOp (LinkOp.Answer Error StoreOp.Answer) (Result PeerState) :=
  match resolveCoinbaseRecipient config with
  | .error e => .ret (.error e)
  | .ok recipient =>
    if config.restore then
      if ledgerExists dir = false then
        .ret (makeError .invalidConfig "no ledger found in data_dir for --restore")
      else match loadChain dir with
        | .error e => .ret (.error e)
        | .ok chain =>
          match loadLedger dir with
          | .error e => .ret (.error e)
          | .ok ledger =>
            -- the stored parameters are not compared with the configured ones
            launch (restoreTransactions ledger.mempoolTransactions)
              ((start config recipient chain).storeBlocks ledger.blocks)
    else
      match Chain.create (buildGenesisBlock config) (buildConsensusParams config) with
      | .error e => .ret (.error e)
      | .ok chain =>
        launch (mineAndPersist config)
          ((start config recipient chain).storeBlock 0 (buildGenesisBlock config))

end PeerState

/-- What can happen to a running node. -/
inductive PeerOp where
  | accept (tx : Transaction)
  | mine (count : UInt32)
  | message (msg : P2pMessage)

def PeerOp.run : PeerOp → PeerAction Unit
  | .accept tx => PeerState.acceptTransaction tx
  | .mine count => PeerState.mineBlocks count
  | .message msg => PeerState.handleMessage msg

/-- The states a node reaches from its configuration by operations that `allowed` admits in
the state they meet. Failed operations count, with the state they leave. -/
inductive Reached (config : NodeConfig) (dir : DataDir) (allowed : PeerState → PeerOp → Prop) :
    PeerState → Prop where
  | start {state : PeerState} (h : (PeerState.fromConfig config dir).Returns (.ok state)) :
      Reached config dir allowed state
  | step {state next : PeerState} {op : PeerOp} {result : Result Unit}
      (h : Reached config dir allowed state) (hop : allowed state op)
      (hrun : (op.run state).Returns (result, next)) : Reached config dir allowed next

theorem Reached.step_ret {config : NodeConfig} {dir : DataDir}
    {allowed : PeerState → PeerOp → Prop} {state next : PeerState} {op : PeerOp}
    {result : Result Unit} (h : Reached config dir allowed state) (hop : allowed state op)
    (hrun : op.run state = .ret (result, next)) : Reached config dir allowed next := by
  have hreturns : (op.run state).Returns (result, next) := by
    rw [hrun]
    exact .ret _
  exact .step h hop hreturns

def anyOp : PeerState → PeerOp → Prop := fun _ _ => True

def carriedBlock (message : P2pMessage) : Result Block := do
  let parsed ← deserializeBlockAnnounce message.payload
  parseBlockBytes parsed.blockBytes

namespace PeerState

def connected (state : PeerState) (block : Block) (chain : Chain) : PeerState :=
  ({ state with
      chain := chain
      mempool := state.mempool.removeAll (block.transactions.map Transaction.txid) }).storeBlock
    chain.height block

theorem connectBlock_run (block : Block) (state : PeerState) :
    (∃ e, state.chain.submitBlock block (some state.mempool) = .error e ∧
      connectBlock block state = .ret (.error e, state)) ∨
    ∃ fees chain pool, state.chain.submitBlock block (some state.mempool) =
      .ok (fees, chain, pool) ∧
      connectBlock block state = .ret (.ok (), state.connected block chain) := by
  cases hs : state.chain.submitBlock block (some state.mempool) with
  | error e =>
    left
    refine ⟨e, rfl, ?_⟩
    simp only [connectBlock, Action.bind_run, Action.state_run, Process.bind_ret_left,
      Action.ofExcept_run, hs]
  | ok r =>
    right
    obtain ⟨fees, chain, pool⟩ := r
    obtain ⟨_, _, rfl⟩ := Chain.submitBlock_ok.mp hs
    refine ⟨fees, chain, _, rfl, ?_⟩
    simp only [connectBlock, Action.bind_run, Action.state_run, Process.bind_ret_left,
      Action.ofExcept_run, hs, Action.update_run, Option.map_some, Option.getD_some, connected]

theorem connectBlock_of_submit {block : Block} {state : PeerState} {fees : UInt64} {chain : Chain}
    {pool : Option Mempool}
    (hs : state.chain.submitBlock block (some state.mempool) = .ok (fees, chain, pool)) :
    connectBlock block state = .ret (.ok (), state.connected block chain) := by
  obtain ⟨e, he, _⟩ | ⟨fees', chain', pool', hok, hrun⟩ := connectBlock_run block state
  · rw [hs] at he
    cases he
  · rw [hs] at hok
    cases hok
    exact hrun

theorem connectBlock_ensures {block : Block} {state : PeerState}
    {Q : Result Unit → PeerState → Prop} (herr : ∀ e, Q (.error e) state)
    (hok : ∀ fees chain pool, state.chain.submitBlock block (some state.mempool) =
      .ok (fees, chain, pool) → Q (.ok ()) (state.connected block chain)) :
    (connectBlock block).Ensures state Q := by
  intro r next hr
  obtain ⟨e, _, hrun⟩ | ⟨fees, chain, pool, hs, hrun⟩ := connectBlock_run block state
  · rw [hrun] at hr
    cases hr
    exact herr e
  · rw [hrun] at hr
    cases hr
    exact hok fees chain pool hs

/-! Messages that carry a sane block. -/

theorem parseBlockBytes_toBytes {block : Block} (h : block.Sane) :
    parseBlockBytes block.toBytes = .ok block :=
  ByteReader.parse_exactly Block.deserialize_decodes h.withinLimits

theorem deserializeBlockAnnounce_block {block : Block} (h : block.Sane) :
    deserializeBlockAnnounce (putVarBytes block.toBytes) = .ok ⟨block.toBytes⟩ :=
  deserializeBlockAnnounce_put (List.length_pos_iff.mp block.toBytes_length_pos) h.size_le

theorem onBlockAnnounce_block {block : Block} (h : block.Sane) :
    onBlockAnnounce (putVarBytes block.toBytes) = (do connectBlock block; persistLedger) := by
  rw [onBlockAnnounce, deserializeBlockAnnounce_block h]
  funext state
  rw [Action.bind_run, Action.ofExcept_run, Process.bind_ret_left]
  simp only [parseBlockBytes_toBytes h]
  rfl

def blockAnnounceMessage (block : Block) : P2pMessage :=
  makeMessage .blockAnnounce (putVarBytes block.toBytes)

theorem handleMessage_blockAnnounce {block : Block} (h : block.Sane) :
    handleMessage (blockAnnounceMessage block) = (do connectBlock block; persistLedger) := by
  have hparse : parseBlockAnnounceMessage (blockAnnounceMessage block) = .ok ⟨block.toBytes⟩ := by
    rw [parseBlockAnnounceMessage, blockAnnounceMessage, parseMessage_makeMessage,
      deserializeBlockAnnounce_block h]
  rw [← onBlockAnnounce_block h]
  funext state
  change (Action.ofExcept (parseBlockAnnounceMessage (blockAnnounceMessage block)) >>=
    fun _ => onBlockAnnounce (putVarBytes block.toBytes)) state = _
  rw [hparse, Action.bind_run, Action.ofExcept_run, Process.bind_ret_left]

theorem handleMessage_blockResponse {block : Block} (h : block.Sane) :
    handleMessage (blockResponseMessage block.toBytes) =
      (do connectBlock block; persistLedger) := by
  have hparse : parseBlockResponseMessage (blockResponseMessage block.toBytes) =
      .ok ⟨block.toBytes⟩ := by
    rw [parseBlockResponseMessage, blockResponseMessage, parseMessage_makeMessage,
      deserializeBlockResponse, deserializeBlockAnnounce_block h]
  rw [← onBlockAnnounce_block h]
  funext state
  change (Action.ofExcept (parseBlockResponseMessage (blockResponseMessage block.toBytes)) >>=
    fun _ => onBlockResponse (putVarBytes block.toBytes)) state = _
  rw [hparse, Action.bind_run, Action.ofExcept_run, Process.bind_ret_left, onBlockResponse]

theorem handleMessage_request {state : PeerState} {msg : P2pMessage} {height : UInt32}
    (htype : msg.type = .blockRequest) (hparse : parseBlockRequestMessage msg = .ok ⟨height⟩) :
    handleMessage msg state = onBlockRequest ⟨height⟩ state := by
  unfold handleMessage
  simp only [htype, hparse, Action.bind_run, Action.ofExcept_run, Process.bind_ret_left]

theorem handleMessage_blockRequest (height : UInt32) :
    handleMessage (blockRequestMessage height) = onBlockRequest ⟨height⟩ := by
  funext state
  exact handleMessage_request rfl (parseBlockRequestMessage_make height)

theorem onBlockRequest_found {state : PeerState} {height : UInt32} {block : Block}
    (hfound : state.blockAtHeight height = some block) (h : block.Sane) :
    onBlockRequest ⟨height⟩ state = sendMessage (blockResponseMessage block.toBytes) state := by
  have hmake := makeBlockResponseMessage_ok (List.length_pos_iff.mp block.toBytes_length_pos)
    h.size_le
  simp only [onBlockRequest, Action.bind_run, Action.state_run, Process.bind_ret_left, hfound,
    hmake, Action.ofExcept_run]

theorem persistLedger_off {state : PeerState} (h : state.persist = false) :
    persistLedger state = .ret (.ok (), state) := by
  simp [persistLedger, Action.bind_run, h]

theorem connect_and_persist {state : PeerState} (h : state.persist = false) (block : Block) :
    (do connectBlock block; persistLedger : PeerAction Unit) state = connectBlock block state := by
  rw [Action.bind_run]
  obtain ⟨e, _, hrun⟩ | ⟨fees, chain, pool, _, hrun⟩ := connectBlock_run block state
  · rw [hrun]
    rfl
  · rw [hrun, Process.bind_ret_left]
    exact persistLedger_off h

/-! What an invariant needs so that every operation keeps it: admission keeps it, and so do
the blocks a node can come to connect. -/

section Rules
variable {I : PeerState → Prop}

theorem sendMessage_keeps (msg : P2pMessage) : (sendMessage msg : PeerAction Unit).Keeps I := by
  have hnative : ∀ data, (sendAllNative data : PeerAction Unit).Keeps I :=
    fun data => Action.keeps_bind Action.keeps_perform fun _ => Action.keeps_ofExcept
  unfold sendMessage sendFramed
  split
  · exact Action.keeps_fail
  · refine Action.keeps_bind (hnative _) fun _ => ?_
    split
    · exact Action.keeps_pure
    · exact hnative _

theorem sendReject_keeps (code : RejectCode) (reason : String) : (sendReject code reason).Keeps I :=
  Action.keeps_bind Action.keeps_ofExcept fun msg => sendMessage_keeps msg

theorem saveLedger_keeps : saveLedger.Keeps I :=
  Action.keeps_bind Action.keeps_state fun _ =>
    Action.keeps_bind Action.keeps_ofExcept fun _ =>
      Action.keeps_bind Action.keeps_perform fun _ => Action.keeps_ofExcept

theorem persistLedger_keeps : persistLedger.Keeps I := by
  refine Action.keeps_bind Action.keeps_state fun state => ?_
  split
  · exact saveLedger_keeps
  · exact Action.keeps_pure

theorem onBlockRequest_keeps (request : BlockRequestPayload) :
    (onBlockRequest request).Keeps I := by
  refine Action.keeps_bind Action.keeps_state fun state => ?_
  cases state.blockAtHeight request.height with
  | none => exact sendReject_keeps _ _
  | some block => exact Action.keeps_bind Action.keeps_ofExcept fun msg => sendMessage_keeps msg

def MinedKeep (I : PeerState → Prop) : Prop :=
  ∀ state tmpl, I state → state.nextTemplate = .ok tmpl →
    (connectBlock tmpl.block).Ensures state fun _ next => I next

theorem mineLoop_keeps (hmined : MinedKeep I) (n : Nat) : (mineLoop n).Keeps I := by
  induction n with
  | zero => exact Action.keeps_pure
  | succ n ih =>
    intro state hI
    refine Action.ensures_state_bind (Action.ensures_check (fun _ _ => hI) fun tmpl htmpl => ?_)
    exact Action.ensures_bind (hmined state tmpl hI htmpl) (fun _ _ h => h)
      (fun _ next h => ih next h)

theorem mineBlocks_keeps (hmined : MinedKeep I) (count : UInt32) : (mineBlocks count).Keeps I :=
  Action.keeps_bind (mineLoop_keeps hmined _) fun _ => persistLedger_keeps

theorem onTxAnnounce_keeps (haccept : ∀ tx, (acceptTransaction tx).Keeps I)
    (hmined : MinedKeep I) (payload : Bytes) : (onTxAnnounce payload).Keeps I := by
  refine Action.keeps_bind Action.keeps_ofExcept fun parsed =>
    Action.keeps_bind Action.keeps_ofExcept fun tx =>
      Action.keeps_bind (haccept tx) fun _ => Action.keeps_bind Action.keeps_state fun state => ?_
  split
  · exact mineBlocks_keeps hmined _
  · exact Action.keeps_pure

theorem onBlockAnnounce_ensures {payload : Bytes} {state : PeerState} (hI : I state)
    (hpeer : ∀ parsed block, deserializeBlockAnnounce payload = .ok parsed →
      parseBlockBytes parsed.blockBytes = .ok block →
      (connectBlock block).Ensures state fun _ next => I next) :
    (onBlockAnnounce payload).Ensures state fun _ next => I next := by
  refine Action.ensures_check (fun _ _ => hI) fun parsed hparsed =>
    Action.ensures_check (fun _ _ => hI) fun block hblock => ?_
  exact Action.ensures_bind (hpeer parsed block hparsed hblock) (fun _ _ h => h)
    (fun _ next h => persistLedger_keeps next h)

/-- A message that may carry a block. -/
def DeliversBlock (msg : P2pMessage) (block : Block) : Prop :=
  (msg.type = .blockAnnounce ∨ msg.type = .blockResponse) ∧ carriedBlock msg = .ok block

theorem deliversBlock_announce {block block' : Block} (h : block.Sane)
    (hd : DeliversBlock (blockAnnounceMessage block) block') : block' = block := by
  have hcarried := hd.2
  rw [carriedBlock, blockAnnounceMessage, makeMessage, deserializeBlockAnnounce_block h, ok_bind,
    parseBlockBytes_toBytes h] at hcarried
  exact (Except.ok.inj hcarried).symm

theorem handleMessage_ensures {msg : P2pMessage} {state : PeerState} (hI : I state)
    (haccept : ∀ tx, (acceptTransaction tx).Keeps I) (hmined : MinedKeep I)
    (hpeer : ∀ block, DeliversBlock msg block →
      (connectBlock block).Ensures state fun _ next => I next) :
    (handleMessage msg).Ensures state fun _ next => I next := by
  have hblock : msg.type = .blockAnnounce ∨ msg.type = .blockResponse →
      (onBlockAnnounce msg.payload).Ensures state fun _ next => I next := by
    intro htype
    refine onBlockAnnounce_ensures hI fun parsed block hp hb => hpeer block ⟨htype, ?_⟩
    rw [carriedBlock, hp, ok_bind, hb]
  have hdefault : (do
      sendReject .invalidMessage "unsupported message type"
      Action.fail ⟨.invalidMessage, "unsupported message type"⟩ : PeerAction Unit).Keeps I :=
    Action.keeps_bind (sendReject_keeps _ _) fun _ => Action.keeps_fail
  unfold handleMessage
  cases htype : msg.type with
  | txAnnounce =>
    refine Action.keeps_bind Action.keeps_ofExcept (fun _ => Action.keeps_bind
      (Action.keeps_attempt (onTxAnnounce_keeps haccept hmined _)) fun outcome => ?_) state hI
    cases outcome with
    | ok u => exact Action.keeps_pure
    | error e => exact Action.keeps_bind (sendReject_keeps _ _) fun _ => Action.keeps_fail
  | blockAnnounce => exact Action.ensures_check (fun _ _ => hI) fun _ _ => hblock (.inl htype)
  | blockRequest =>
    exact Action.keeps_bind Action.keeps_ofExcept (fun parsed => onBlockRequest_keeps parsed)
      state hI
  | blockResponse => exact Action.ensures_check (fun _ _ => hI) fun _ _ => hblock (.inr htype)
  | ping =>
    exact Action.keeps_bind Action.keeps_ofExcept (fun ping =>
      Action.keeps_bind Action.keeps_ofExcept fun pong => sendMessage_keeps pong) state hI
  | pong => exact Action.keeps_pure state hI
  | handshake => exact hdefault state hI
  | peerInfo => exact hdefault state hI
  | txRequest => exact hdefault state hI
  | txResponse => exact hdefault state hI
  | reject => exact hdefault state hI

theorem restoreTransactions_keeps (haccept : ∀ tx, (acceptTransaction tx).Keeps I)
    (txs : List Transaction) : (restoreTransactions txs).Keeps I := by
  induction txs with
  | nil => exact Action.keeps_pure
  | cons tx txs ih =>
    refine Action.keeps_bind (Action.keeps_attempt (haccept tx)) fun outcome => ?_
    cases outcome with
    | ok u => exact ih
    | error e => exact Action.keeps_fail

end Rules
end PeerState

/-- An invariant of whole runs: it holds of the constructed node, admission and mined blocks
keep it, and so does every block that an allowed message delivers. -/
theorem Reached.invariant {config : NodeConfig} {dir : DataDir}
    {allowed : PeerState → PeerOp → Prop} {I : PeerState → Prop} {state : PeerState}
    (h : Reached config dir allowed state)
    (hstart : ∀ state, (PeerState.fromConfig config dir).Returns (.ok state) → I state)
    (haccept : ∀ tx, (PeerState.acceptTransaction tx).Keeps I) (hmined : PeerState.MinedKeep I)
    (hpeer : ∀ state msg block, I state → allowed state (.message msg) →
      PeerState.DeliversBlock msg block →
      (PeerState.connectBlock block).Ensures state fun _ next => I next) : I state := by
  induction h with
  | start h => exact hstart _ h
  | @step state next op result _ hop hrun ih =>
    cases op with
    | accept tx => exact haccept tx state ih result next hrun
    | mine count => exact PeerState.mineBlocks_keeps hmined count state ih result next hrun
    | message msg =>
      exact PeerState.handleMessage_ensures ih haccept hmined
        (fun block hb => hpeer state msg block ih hop hb) result next hrun

end Blockchain
