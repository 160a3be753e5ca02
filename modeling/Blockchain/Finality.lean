import Blockchain.Conservation
import Blockchain.Lib.Runs
import Blockchain.PeerInvariant
import Blockchain.RelaySessions

/-! Confirmed blocks are final: nothing a node is asked to do takes a block off its chain, and
nothing a peer sends makes it do more than what it can be asked to do. -/
namespace Blockchain
open Lib

namespace PeerState
variable {config : NodeConfig} {params : ConsensusParams} {base : List Block}

/-- A consistent node that holds at least the blocks `base`. -/
structure Extends (config : NodeConfig) (params : ConsensusParams) (base : List Block)
    (state : PeerState) : Prop where
  inv : state.Inv config params
  blocks : base <+: state.ledgerBlocks

namespace Extends

theorem accept (tx : Transaction) : (acceptTransaction tx).Keeps (Extends config params base) := by
  intro state h r next hr
  have hinv := Inv.accept tx state h.inv r next hr
  cases hr
  exact ⟨hinv, h.blocks⟩

theorem connectBlock (block : Block) :
    (PeerState.connectBlock block).Keeps (Extends config params base) := by
  intro state h
  refine connectBlock_ensures (fun _ => h) fun fees chain pool hs => ⟨h.inv.connected hs, ?_⟩
  rw [h.inv.ledgerBlocks_connected hs]
  exact h.blocks.trans (List.prefix_append _ _)

theorem minedKeep : MinedKeep (Extends config params base) :=
  fun state tmpl h _ => connectBlock tmpl.block state h

theorem handleMessage (message : P2pMessage) :
    (PeerState.handleMessage message).Keeps (Extends config params base) :=
  fun state h => handleMessage_ensures h accept minedKeep fun block _ => connectBlock block state h

end Extends
end PeerState

theorem PeerOp.run_extends {config : NodeConfig} {params : ConsensusParams} {base : List Block}
    (op : PeerOp) : op.run.Keeps (PeerState.Extends config params base) := by
  cases op with
  | accept tx => exact PeerState.Extends.accept tx
  | mine count => exact PeerState.mineBlocks_keeps PeerState.Extends.minedKeep count
  | message msg => exact PeerState.Extends.handleMessage msg

def PeerStep (state next : PeerState) : Prop := ∃ op : PeerOp, ∃ r, (op.run state).Returns (r, next)

theorem PeerState.Inv.blockAtHeight_eq {config : NodeConfig} {params : ConsensusParams}
    {state : PeerState} (h : state.Inv config params) (height : UInt32) :
    state.blockAtHeight height = state.ledgerBlocks[height.toNat]? := by
  obtain ⟨blocks, hacc, hcat⟩ := h.history
  have hvalues : state.ledgerBlocks = blocks := hcat.values_eq
  rw [hvalues, PeerState.blockAtHeight, hcat.find?_eq fun _ _ hi => hacc.block_height hi]

theorem PeerState.Inv.ledgerBlocks_length {config : NodeConfig} {params : ConsensusParams}
    {state : PeerState} (h : state.Inv config params) :
    state.ledgerBlocks.length = state.height.toNat + 1 := by
  obtain ⟨blocks, hacc, hcat⟩ := h.history
  have hvalues : state.ledgerBlocks = blocks := hcat.values_eq
  rw [hvalues]
  exact hacc.height_eq.symm

theorem PeerState.Extends.answers {config : NodeConfig} {params : ConsensusParams}
    {state next : PeerState} (h : state.Inv config params)
    (hnext : next.Extends config params state.ledgerBlocks) {height : UInt32} {block : Block}
    (hfound : state.blockAtHeight height = some block) :
    next.blockAtHeight height = some block := by
  obtain ⟨added, hadded⟩ := hnext.blocks
  rw [h.blockAtHeight_eq] at hfound
  obtain ⟨hlt, _⟩ := List.getElem?_eq_some_iff.mp hfound
  rw [hnext.inv.blockAtHeight_eq, ← hadded, List.getElem?_append_left hlt, hfound]

/-- No run of operations, whatever fails in it, takes a confirmed block back: the chain only
grows, and a request for a height that was once answered with a block is answered with the
same block forever. -/
theorem confirmed_blocks_final {config : NodeConfig} {dir : DataDir} {state next : PeerState}
    (h : Reached config dir anyOp state) (hrun : Relation.ReflTransGen PeerStep state next) :
    state.ledgerBlocks <+: next.ledgerBlocks ∧ state.height ≤ next.height ∧
    ∀ height block, state.blockAtHeight height = some block →
      PeerState.onBlockRequest ⟨height⟩ next =
        sendMessage (blockResponseMessage block.toBytes) next := by
  have hnext : next.Extends config (startParams config dir) state.ledgerBlocks := by
    induction hrun with
    | refl => exact ⟨h.inv, List.prefix_refl _⟩
    | tail _ hstep ih =>
      obtain ⟨op, r, hr⟩ := hstep
      exact op.run_extends _ ih r _ hr
  refine ⟨hnext.blocks, ?_, ?_⟩
  · have hlen := hnext.blocks.length_le
    rw [h.inv.ledgerBlocks_length, hnext.inv.ledgerBlocks_length] at hlen
    exact UInt32.le_iff_toNat_le.mpr (Nat.le_of_succ_le_succ hlen)
  · intro height block hfound
    have hanswer := hnext.answers h.inv hfound
    obtain ⟨blocks, hacc, hcat⟩ := hnext.inv.history
    have hvalues : next.ledgerBlocks = blocks := hcat.values_eq
    refine PeerState.onBlockRequest_found hanswer (hacc.block_sane block ?_)
    rw [hnext.inv.blockAtHeight_eq, hvalues] at hanswer
    exact List.mem_of_getElem? hanswer

/-- A fresh node that is told of an empty block. -/
theorem confirmed_genesis_final :
    ∃ next, Reached {} ⟨none, none⟩ anyOp (genesisNode {}) ∧ PeerStep (genesisNode {}) next ∧
      next.height = 1 ∧ (genesisNode {}).ledgerBlocks <+: next.ledgerBlocks := by
  have hreached : Reached {} ⟨none, none⟩ anyOp (genesisNode {}) :=
    genesisNode_reached rfl rfl rfl rfl _ _
  let state := genesisNode {}
  let block : Block := ⟨state.chain.tip.emptyNext, []⟩
  have hconnect := connectBlock_nil state.chain.tip.emptyNext state.chain.utxos
    state.chain.params rfl
  have hlinks : block.header.LinksTo state.chain.tip := BlockHeader.emptyNext_linksTo (by decide)
  have hs : state.chain.submitBlock block (some state.mempool) = .ok (0, _, _) :=
    Chain.submitBlock_ok.mpr ⟨hlinks, ⟨_, hconnect, rfl⟩, rfl⟩
  have hstep : PeerStep state (state.connected block { state.chain with tip := block.header }) := by
    refine ⟨.message (PeerState.blockAnnounceMessage block), .ok (), ?_⟩
    rw [PeerOp.run, PeerState.handleMessage_blockAnnounce (connectBlock_ok hconnect).1,
      PeerState.connect_and_persist rfl, PeerState.connectBlock_of_submit hs]
    exact .ret _
  exact ⟨_, hreached, hstep, rfl, (confirmed_blocks_final hreached (.single hstep)).1⟩

/-! Peers. -/

section Keeps
variable {I : PeerState → Prop}

theorem recvFramed_keeps (maxFrameBytes : UInt32) :
    (recvFramed maxFrameBytes : PeerAction Bytes).Keeps I := by
  have hnative : ∀ count, (recvAllNative count : PeerAction Bytes).Keeps I :=
    fun count => Action.keeps_bind Action.keeps_perform fun _ => Action.keeps_ofExcept
  refine Action.keeps_bind (hnative 4) fun lenBytes => ?_
  dsimp only
  split
  · exact Action.keeps_fail
  · split
    · refine Action.keeps_bind (Action.keeps_attempt (hnative _)) fun body => ?_
      cases body with
      | ok bytes => exact Action.keeps_pure
      | error e =>
        dsimp only
        split
        · exact Action.keeps_fail
        · exact Action.keeps_fail
    · exact Action.keeps_pure

theorem recvMessage_keeps : (recvMessage : PeerAction P2pMessage).Keeps I :=
  Action.keeps_bind (recvFramed_keeps _) fun _ => Action.keeps_ofExcept

theorem serveRelayHandshake_keeps : serveRelayHandshake.Keeps I :=
  Action.keeps_bind recvMessage_keeps fun _ => Action.keeps_bind Action.keeps_ofExcept fun _ =>
    Action.keeps_bind Action.keeps_state fun _ => Action.keeps_bind Action.keeps_ofExcept fun _ =>
      PeerState.sendMessage_keeps _

variable (hmessage : ∀ message, (PeerState.handleMessage message).Keeps I)
include hmessage

theorem relayMessageLoop_keeps (n : Nat) : (relayMessageLoop n).Keeps I := by
  induction n with
  | zero => exact Action.keeps_fail
  | succ n ih =>
    refine Action.keeps_bind (Action.keeps_attempt recvMessage_keeps) fun inbound => ?_
    cases inbound with
    | ok message => exact Action.keeps_bind (hmessage message) fun _ => ih
    | error e =>
      dsimp only
      split
      · exact Action.keeps_pure
      · exact Action.keeps_fail

theorem serveRelayConnection_keeps : serveRelayConnection.Keeps I :=
  Action.keeps_bind serveRelayHandshake_keeps fun _ =>
    Action.keeps_bind (relayMessageLoop_keeps hmessage _) fun _ =>
      Action.keeps_bind PeerState.persistLedger_keeps fun _ =>
        Action.keeps_bind Action.keeps_state fun _ => Action.keeps_pure

theorem serveNext_keeps : serveNext.Keeps I := by
  have hsession : (withClient serveRelayConnection).Keeps I :=
    fun state h r next hr => serveRelayConnection_keeps hmessage state h r next
      (Process.Returns.of_interp (Process.Returns.of_interp hr))
  exact Action.keeps_bind Action.keeps_perform fun _ =>
    Action.keeps_bind Action.keeps_ofExcept fun _ => hsession

theorem acceptLoop_keeps (k : Nat) (n : UInt32) (result : RelayServerResult) :
    (acceptLoop k n result).Keeps I := by
  induction k generalizing n result with
  | zero => exact Action.keeps_pure
  | succ k ih => exact Action.keeps_bind (serveNext_keeps hmessage) fun _ => ih _ _

theorem requestBlock_keeps (height : UInt32) : (requestBlock height).Keeps I :=
  Action.keeps_bind Action.keeps_ofExcept fun _ => Action.keeps_bind (PeerState.sendMessage_keeps _)
    fun _ => Action.keeps_bind recvMessage_keeps hmessage

omit hmessage in
theorem sendTxAnnounces_keeps (txs : List Transaction) : (sendTxAnnounces txs).Keeps I := by
  induction txs with
  | nil => exact Action.keeps_pure
  | cons tx rest ih =>
    exact Action.keeps_bind Action.keeps_ofExcept fun _ =>
      Action.keeps_bind (PeerState.sendMessage_keeps _) fun _ => ih

theorem requestBlocksAfterTx_keeps (n : Nat) : (requestBlocksAfterTx n).Keeps I := by
  induction n with
  | zero => exact Action.keeps_pure
  | succ n ih =>
    exact Action.keeps_bind Action.keeps_state fun _ =>
      Action.keeps_bind (requestBlock_keeps hmessage _) fun _ => ih

theorem finishRelayClient_keeps (persist : Bool) (options : RelayClientOptions) :
    (finishRelayClient persist options).Keeps I := by
  refine Action.keeps_bind (sendTxAnnounces_keeps _) fun _ =>
    Action.keeps_bind (requestBlocksAfterTx_keeps hmessage _) fun _ => ?_
  dsimp only
  split
  · exact Action.keeps_bind PeerState.saveLedger_keeps fun _ =>
      Action.keeps_bind Action.keeps_state fun _ => Action.keeps_pure
  · exact Action.keeps_bind Action.keeps_state fun _ => Action.keeps_pure

end Keeps

def ClientPoint.state : ClientPoint → PeerState
  | .connected state => state
  | .syncing _ _ state => state
  | .synced _ state => state

/-- The client has come from one point to the next, whatever the server has sent. -/
def ClientMove (persist : Bool) (options : RelayClientOptions) (point next : ClientPoint) : Prop :=
  (relayClient persist options point).Returns (.again next)

theorem clientStep_again {α : Type} {m : PeerAction α} {state : PeerState}
    {turn : α → PeerState → Turn ClientPoint (Result RelayClientResult)} {next : ClientPoint}
    (h : (clientStep m state turn).Returns (.again next)) :
    ∃ a last, (m state).Returns (.ok a, last) ∧ turn a last = .again next := by
  obtain ⟨⟨r, last⟩, hr, hturn⟩ := Process.returns_bind.mp h
  cases r with
  | error e => cases hturn
  | ok a => exact ⟨a, last, hr, (Process.returns_ret.mp hturn).symm⟩

theorem ClientMove.keeps {persist : Bool} {options : RelayClientOptions} {point next : ClientPoint}
    {I : PeerState → Prop} (hmessage : ∀ message, (PeerState.handleMessage message).Keeps I)
    (h : ClientMove persist options point next) (hI : I point.state) : I next.state := by
  cases point with
  | connected state =>
    rw [ClientMove, relayClient] at h
    obtain ⟨peer, last, hr, hturn⟩ := clientStep_again h
    cases hturn
    exact Action.keeps_bind Action.keeps_state (fun _ => Action.keeps_bind Action.keeps_ofExcept
      fun _ => Action.keeps_bind (PeerState.sendMessage_keeps _) fun _ =>
        Action.keeps_bind recvMessage_keeps fun _ => Action.keeps_ofExcept) state hI _ _ hr
  | syncing peer height state =>
    rw [ClientMove, relayClient] at h
    split at h
    · obtain ⟨_, last, hr, hturn⟩ := clientStep_again h
      cases hturn
      exact requestBlock_keeps hmessage height state hI _ _ hr
    · split at h
      · cases h
      · cases h
        exact hI
  | synced peer state =>
    rw [ClientMove, relayClient] at h
    obtain ⟨_, last, _, hturn⟩ := clientStep_again h
    cases hturn

/-- What the node has confirmed is still there, it has come where it is by operations of its
own, and its coins are within what the heights allow. -/
structure Unharmed (config : NodeConfig) (dir : DataDir) (before after : PeerState) : Prop where
  reached : Reached config dir anyOp after
  blocks : before.ledgerBlocks <+: after.ledgerBlocks
  coins : after.chain.utxos.totalValue ≤
    (after.height.toNat + 1) * (startParams config dir).blockSubsidy.toNat

theorem unharmed_refl {config : NodeConfig} {dir : DataDir} {state : PeerState}
    (h : Reached config dir anyOp state) : Unharmed config dir state state := by
  obtain ⟨blocks, hacc, _⟩ := h.inv.history
  have hcoins := hacc.totalValue_le
  rw [← hacc.height_eq] at hcoins
  exact ⟨h, List.prefix_refl _, hcoins⟩

theorem unharmed_handleMessage {config : NodeConfig} {dir : DataDir} {before : PeerState}
    (message : P2pMessage) :
    (PeerState.handleMessage message).Keeps (Unharmed config dir before) := by
  intro state h r next hr
  have hop : ((PeerOp.message message).run state).Returns (r, next) := hr
  have hnext : Reached config dir anyOp next := .step h.reached trivial hop
  have hextends := PeerState.Extends.handleMessage message state ⟨h.reached.inv, h.blocks⟩ r next hr
  exact ⟨hnext, hextends.blocks, (unharmed_refl hnext).coins⟩

/-- Peers cannot harm a node: through any number of sessions with peers that send whatever
they like, and on any platform, a server keeps every block it has confirmed and every
property that its own operations keep; and so does a client at every point of its session
with any server, up to the state it reports and saves. -/
theorem peers_cannot_harm {config : NodeConfig} {dir : DataDir} {state : PeerState}
    (h : Reached config dir anyOp state) :
    (∀ k n result r next, (acceptLoop k n result state).Returns (r, next) →
      Unharmed config dir state next) ∧
    ∀ persist options point,
      Relation.ReflTransGen (ClientMove persist options) (.connected state) point →
      Unharmed config dir state point.state ∧
      ∀ r next, (finishRelayClient persist options point.state).Returns (r, next) →
        Unharmed config dir state next := by
  refine ⟨?_, ?_⟩
  · intro k n result r next hr
    exact acceptLoop_keeps unharmed_handleMessage k n result state (unharmed_refl h) r next hr
  · intro persist options point hpoint
    have hsafe : Unharmed config dir state point.state := by
      induction hpoint with
      | refl => exact unharmed_refl h
      | tail _ hmove ih => exact hmove.keeps unharmed_handleMessage ih
    refine ⟨hsafe, ?_⟩
    intro r next hr
    exact finishRelayClient_keeps unharmed_handleMessage persist options _ hsafe r next hr

/-- A fresh server, and a fresh client. -/
theorem peers_cannot_harm_genesis :
    Reached {} ⟨none, none⟩ anyOp (genesisNode {}) ∧
    ∀ k n result r next, (acceptLoop k n result (genesisNode {})).Returns (r, next) →
      Unharmed {} ⟨none, none⟩ (genesisNode {}) next :=
  ⟨genesisNode_reached rfl rfl rfl rfl _ _,
    (peers_cannot_harm (genesisNode_reached rfl rfl rfl rfl _ _)).1⟩

end Blockchain
