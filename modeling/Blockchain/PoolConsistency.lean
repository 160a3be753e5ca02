import Blockchain.PeerInvariant
import Blockchain.Production
import Blockchain.Sha256Eval

/-! The pool against the chain over whole runs. A connected block prunes the pool by id, so
an entry can outlive its inputs, but only through a delivered block that is accepted and spends
them in another transaction; without such blocks every entry stays valid. -/
namespace Blockchain
open Lib

namespace PeerState

def PoolValid (state : PeerState) : Prop :=
  state.mempool.ValidFor state.chain.utxos state.mempoolPolicy

/-- A pooled transaction that the block does not contain shares no input with the ordinary
transactions of the block. -/
def ConflictFree (state : PeerState) (block : Block) : Prop :=
  ∀ id e, state.mempool.byTxid.find? id = some e → id ∉ block.transactions.map Transaction.txid →
    ∀ tx ∈ block.transactions, tx.isCoinbase = false → ∀ o ∈ e.transaction.prevouts, o ∉ tx.prevouts

def Takes (state : PeerState) (block : Block) : Prop :=
  ∃ out, state.chain.submitBlock block (some state.mempool) = .ok out

theorem PoolValid.connected {state : PeerState} (h : state.PoolValid) {block : Block}
    (hfree : state.ConflictFree block) {fees : UInt64} {chain : Chain} {pool : Option Mempool}
    (hs : state.chain.submitBlock block (some state.mempool) = .ok (fees, chain, pool)) :
    (state.connected block chain).PoolValid := by
  obtain ⟨_, ⟨utxos, hconnect, hchain⟩, _⟩ := Chain.submitBlock_ok.mp hs
  rw [hchain]
  exact Mempool.ValidFor.connectBlock h hconnect hfree

theorem conflictFree_of_template {config : NodeConfig} {params : ConsensusParams}
    {state : PeerState} (h : state.Inv config params) {tmpl : BlockTemplate}
    (htmpl : state.nextTemplate = .ok tmpl) : state.ConflictFree tmpl.block :=
  fun _ _ he hid => template_disjoint h.pool htmpl he hid

/-- The invariant of the run: the node's own one and the validity of its pool. -/
def Consistent (config : NodeConfig) (params : ConsensusParams) (state : PeerState) : Prop :=
  state.Inv config params ∧ state.PoolValid

namespace Consistent
variable {config : NodeConfig} {params : ConsensusParams}

theorem accept (tx : Transaction) : (acceptTransaction tx).Keeps (Consistent config params) := by
  intro state h r next hr
  refine ⟨Inv.accept tx state h.1 r next hr, ?_⟩
  cases hr
  exact Mempool.ValidFor.accept h.2 tx

theorem connectBlock {state : PeerState} (h : Consistent config params state) {block : Block}
    (hfree : state.Takes block → state.ConflictFree block) :
    (PeerState.connectBlock block).Ensures state fun _ next => Consistent config params next :=
  connectBlock_ensures (fun _ => h) fun _ _ _ hs =>
    ⟨h.1.connected hs, h.2.connected (hfree ⟨_, hs⟩) hs⟩

theorem minedKeep : MinedKeep (Consistent config params) :=
  fun _ _ h htmpl => h.connectBlock fun _ => conflictFree_of_template h.1 htmpl

end Consistent
end PeerState

/-- No message delivers a block that the chain accepts and that conflicts with the pool it
meets. -/
def NoForeignConflict (state : PeerState) : PeerOp → Prop
  | .message msg =>
    ∀ block, PeerState.DeliversBlock msg block → state.Takes block → state.ConflictFree block
  | _ => True

theorem Reached.consistent {config : NodeConfig} {dir : DataDir} {state : PeerState}
    (h : Reached config dir NoForeignConflict state) :
    PeerState.Consistent config (startParams config dir) state := by
  refine h.invariant (fun state hstart => ?_) PeerState.Consistent.accept
    PeerState.Consistent.minedKeep (fun _ _ block hI hop hb => hI.connectBlock (hop block hb))
  refine PeerState.fromConfig_invariant hstart PeerState.Consistent.accept
    PeerState.Consistent.minedKeep fun recipient chain blocks catalog hacc hcat =>
      ⟨PeerState.start_inv recipient hacc hcat, ?_⟩
  intro id e he
  simp [PeerState.start, Mempool.new] at he

/-- In every run without a conflicting delivered block that is accepted, each pooled transaction
still passes the input check with its recorded fee, and re-admitting the pool's snapshot
rebuilds it. -/
theorem pool_stays_valid {config : NodeConfig} {dir : DataDir} {state : PeerState}
    (h : Reached config dir NoForeignConflict state) :
    (∀ id e, state.mempool.byTxid.find? id = some e →
      checkTransactionInputs e.transaction state.chain.utxos = .ok e.fee) ∧
    restoreMempool state.chain.utxos state.mempoolPolicy state.mempool.sortedTransactions
      (Mempool.new state.mempool.limits) = (.ok (), state.mempool) := by
  obtain ⟨hinv, hvalid⟩ := h.consistent
  refine ⟨?_, Mempool.restoreMempool_sorted hinv.pool hvalid⟩
  intro id e he
  obtain ⟨_, _, hinputs, _⟩ := validateForMempool_ok (hvalid id e he)
  exact hinputs

/-! A reward, a pooled payment of it, and a delivered block with a rival payment. -/

def rivalBlock : Block :=
  ⟨⟨kBlockVersion, rewardBlock.header.hash, computeMerkleRoot [payment 1], 0, 2⟩, [payment 1]⟩

def rivalCoins : UtxoSet := UtxoSet.empty.insert ⟨(payment 1).txid, 0⟩ ⟨⟨50, zeroHash⟩, 2, false⟩

def pooledNode : PeerState :=
  { rewardedNode with
    mempool := rewardedNode.mempool.addEntry (Mempool.entryOf (payment 0) ⟨0, 92⟩) }

def rivalNode : PeerState :=
  pooledNode.connected rivalBlock ⟨rivalBlock.header, rivalCoins, ⟨50, 1⟩⟩

theorem rewardedNode_peaceful :
    Reached rewardConfig ⟨none, none⟩ NoForeignConflict rewardedNode := by
  refine rewardedNode_reached fun block _ _ id e he => ?_
  simp [genesisNode, PeerState.fresh, PeerState.storeBlock, PeerState.start, Mempool.new] at he

theorem payment_fits : rewardedNode.mempool.Fits (Mempool.entryOf (payment 0) ⟨0, 92⟩) :=
  @payment_fits_new (resolvedMempoolLimits rewardConfig) (by decide) (by decide)

theorem pooledNode_reached : Reached rewardConfig ⟨none, none⟩ NoForeignConflict pooledNode := by
  have hop : NoForeignConflict rewardedNode (.accept (payment 0)) := trivial
  have hrun : rewardedNode.mempool.accept (payment 0) rewardedNode.chain.utxos
      rewardedNode.mempoolPolicy = (.ok (), pooledNode.mempool) :=
    Mempool.accept_of_fits payment_admitted payment_fits
  have hstep : (PeerOp.accept (payment 0)).run rewardedNode = .ret (.ok (), pooledNode) := by
    simp only [PeerOp.run, PeerState.acceptTransaction, hrun]
    rfl
  exact rewardedNode_peaceful.step_ret hop hstep

/-- The node with the pooled payment has met no conflict. -/
theorem pool_stays_valid_payment :
    Reached rewardConfig ⟨none, none⟩ NoForeignConflict pooledNode ∧
    restoreMempool pooledNode.chain.utxos pooledNode.mempoolPolicy
      pooledNode.mempool.sortedTransactions (Mempool.new pooledNode.mempool.limits) =
        (.ok (), pooledNode.mempool) :=
  ⟨pooledNode_reached, (pool_stays_valid pooledNode_reached).2⟩

set_option maxRecDepth 100000 in
theorem payment_ids : reward.txid ≠ (payment 1).txid ∧ (payment 0).txid ≠ (payment 1).txid := by
  refine ⟨WordState.sha256d_ne ?_, WordState.sha256d_ne ?_⟩
  · decide +kernel
  · decide +kernel

theorem rivalBlock_connects : connectBlock rivalBlock rewardCoins ⟨50, 1⟩ = .ok (0, rivalCoins) :=
  connectBlock_spend (payment_sane 1) rfl rfl rfl rfl (by decide) (by decide)

theorem rivalNode_reached : Reached rewardConfig ⟨none, none⟩ anyOp rivalNode := by
  have hpooled : Reached rewardConfig ⟨none, none⟩ anyOp pooledNode :=
    pooledNode_reached.mono fun _ _ _ => trivial
  exact hpooled.announce rfl (singleton_block_sane (payment_sane 1) rfl) trivial
    ⟨rfl, rfl, rfl, UInt64.le_refl _⟩ rivalBlock_connects

/-- After the rival payment is confirmed, the first one is still pooled and its input is
gone. -/
theorem rival_payment_leaves_stale_entry :
    rewardConfig.restore = false ∧ Reached rewardConfig ⟨none, none⟩ anyOp rivalNode ∧
    ∃ id e, rivalNode.mempool.byTxid.find? id = some e ∧
      checkTransactionInputs e.transaction rivalNode.chain.utxos ≠ .ok e.fee := by
  obtain ⟨hreward, hpayment⟩ := payment_ids
  refine ⟨rfl, rivalNode_reached, (payment 0).txid, Mempool.entryOf (payment 0) ⟨0, 92⟩, ?_, ?_⟩
  · have hin : pooledNode.mempool.byTxid.find? (payment 0).txid =
        some (Mempool.entryOf (payment 0) ⟨0, 92⟩) :=
      (Mempool.find?_addEntry payment_fits).mpr (.inr ⟨rfl, rfl⟩)
    exact Mempool.find?_removeAll.mpr ⟨hin, by simpa [rivalBlock] using hpayment⟩
  · have hne : (⟨reward.txid, 0⟩ : OutPoint) ≠ ⟨(payment 1).txid, 0⟩ := by
      intro he
      exact hreward (OutPoint.mk.inj he).1
    have hgone : rivalCoins.find ⟨reward.txid, 0⟩ = none := OrderedMap.find?_insert_of_ne _ _ hne
    intro hok
    obtain ⟨hpresent, _⟩ := checkTransactionInputs_ok (payment_sane 0) hok
    have hsome : (rivalCoins.find ⟨reward.txid, 0⟩).isSome = true :=
      hpresent _ (List.mem_singleton.mpr rfl)
    simp [hgone] at hsome

end Blockchain
