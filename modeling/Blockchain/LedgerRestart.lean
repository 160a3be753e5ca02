import Blockchain.PeerInvariant

/-! Saving and restoring a running node. The ledger is written with the parameters of the
configuration, while the chain runs under the parameters of the ledger it came from; the
saved file restores to the running chain exactly when the two agree. -/
namespace Blockchain
open Lib

/-- The bytes `save_ledger` writes decode, and their replay gives the running chain. -/
def PeerState.LedgerRestores (state : PeerState) : Prop :=
  ∃ bytes ledger chain,
    ledgerBytes state.ledgerBlocks state.consensus state.mempool.sortedTransactions = .ok bytes ∧
    decodeLedger bytes = .ok ledger ∧ replayChain ledger.blocks ledger.params = .ok chain ∧
    chain.tip = state.chain.tip ∧ chain.utxos = state.chain.utxos ∧
    chain.params = state.chain.params

structure PeerState.FitsLedger (state : PeerState) : Prop where
  blocks_le : state.ledgerBlocks.length ≤ kMaxLedgerBlocks.toNat
  pool_le : state.mempool.size ≤ kMaxLedgerMempoolTransactions.toNat

theorem Mempool.RepInv.sortedTransactions_length {pool : Mempool} (h : pool.RepInv) :
    pool.sortedTransactions.length = pool.size := by
  rw [h.sortedTransactions_eq, List.length_map, OrderedMap.values, List.length_map]
  rfl

theorem Mempool.RepInv.mem_sortedTransactions {pool : Mempool} (h : pool.RepInv) {tx : Transaction}
    (htx : tx ∈ pool.sortedTransactions) :
    ∃ id e, pool.byTxid.find? id = some e ∧ e.transaction = tx := by
  rw [h.sortedTransactions_eq] at htx
  obtain ⟨e, he, rfl⟩ := List.mem_map.mp htx
  exact ⟨e.txid, e, (Mempool.mem_values_iff h).mp he, rfl⟩

namespace PeerState.Inv
variable {config : NodeConfig} {params : ConsensusParams} {state : PeerState}

theorem mempool_sane (h : state.Inv config params) :
    ∀ tx ∈ state.mempool.sortedTransactions, tx.Sane := by
  intro tx htx
  obtain ⟨id, e, he, rfl⟩ := h.pool.mem_sortedTransactions htx
  exact h.sane id e he

theorem storable (h : state.Inv config params) (hfits : state.FitsLedger) :
    Accepted params state.ledgerBlocks state.chain ∧
      Storable state.ledgerBlocks state.mempool.sortedTransactions := by
  obtain ⟨blocks, hacc, hcat⟩ := h.history
  have hblocks : state.ledgerBlocks = blocks := hcat.values_eq
  have hcount := hfits.blocks_le
  have hpool := hfits.pool_le
  rw [hblocks] at hcount ⊢
  rw [← h.pool.sortedTransactions_length] at hpool
  exact ⟨hacc, hacc.storable hcount hpool h.mempool_sane⟩

theorem ledger_round_trip (h : state.Inv config params) (hfits : state.FitsLedger) :
    ∃ blocks bytes, Accepted params blocks state.chain ∧
      ledgerBytes state.ledgerBlocks state.consensus state.mempool.sortedTransactions = .ok bytes ∧
      decodeLedger bytes =
        .ok ⟨blocks, buildConsensusParams config, state.mempool.sortedTransactions⟩ := by
  obtain ⟨hacc, hstore⟩ := h.storable hfits
  have hheights : ∀ i (b : Block), state.ledgerBlocks[i]? = some b → b.header.height.toNat = i :=
    fun _ _ hi => hacc.block_height hi
  have henc := encodeLedger_ok hstore.encodable (buildConsensusParams config)
  refine ⟨state.ledgerBlocks, _, hacc, ?_, decodeLedger_encodeLedger hstore hheights henc⟩
  rw [h.consensus_eq, ledgerBytes_ok]
  exact ⟨validateBlockSequence_of_heights hacc.ne_nil hheights, henc⟩

theorem ledgerRestores_iff (h : state.Inv config params) (hfits : state.FitsLedger) :
    state.LedgerRestores ↔ params = buildConsensusParams config := by
  obtain ⟨blocks, bytes, hacc, hbytes, hdecode⟩ := h.ledger_round_trip hfits
  constructor
  · intro hr
    obtain ⟨bytes', ledger, chain, hbytes', hdecode', hreplay, _, _, hparams⟩ := hr
    have hsame : bytes' = bytes := Except.ok.inj (hbytes'.symm.trans hbytes)
    rw [hsame, hdecode] at hdecode'
    rw [← Except.ok.inj hdecode'] at hreplay
    have hlive := hacc.params_eq
    have hreplayed := (replayChain_ok.mp hreplay).params_eq
    rw [← hlive, ← hparams, hreplayed]
  · intro hparams
    rw [← hparams] at hdecode
    exact ⟨bytes, _, state.chain, hbytes, hdecode, replayChain_ok.mpr hacc, rfl, rfl, rfl⟩

end PeerState.Inv

/-- A node's ledger restores to its chain exactly when it was not restored from a ledger with
parameters other than the configured ones. -/
theorem ledger_restores_iff {config : NodeConfig} {dir : DataDir} {state : PeerState}
    (h : Reached config dir anyOp state) (hfits : state.FitsLedger) :
    state.LedgerRestores ↔
      (config.restore = true → ∀ ledger, loadLedger dir = .ok ledger →
        ledger.params = buildConsensusParams config) := by
  rw [h.inv.ledgerRestores_iff hfits]
  constructor
  · intro hparams hrestore ledger hledger
    simpa [startParams, hrestore, hledger] using hparams
  · intro hledger
    cases hrestore : config.restore with
    | false => simp [startParams, hrestore]
    | true =>
      cases hload : loadLedger dir with
      | error e => simp [startParams, hrestore, hload]
      | ok ledger => simpa [startParams, hrestore, hload] using hledger hrestore ledger hload

theorem genesisNode_fits (config : NodeConfig) : (genesisNode config).FitsLedger :=
  ⟨by change 1 ≤ _; decide, by change 0 ≤ _; exact Nat.zero_le _⟩

/-- The ledger of a node that has been told of a block restores to its chain. -/
theorem ledger_restores_rewarded :
    Reached rewardConfig ⟨none, none⟩ anyOp rewardedNode ∧ rewardedNode.FitsLedger ∧
    rewardedNode.LedgerRestores := by
  have hreached : Reached rewardConfig ⟨none, none⟩ anyOp rewardedNode :=
    rewardedNode_reached trivial
  have hfits : rewardedNode.FitsLedger :=
    ⟨by change 2 ≤ _; decide, by change 0 ≤ _; exact Nat.zero_le _⟩
  exact ⟨hreached, hfits, (ledger_restores_iff hreached hfits).mpr
    fun hrestore => absurd hrestore (by decide)⟩

/-! A ledger saved under the default parameters, restored under another subsidy. -/

def defaultGenesis : Block := buildGenesisBlock {}

def defaultLedger : Bytes := withLedgerChecksum (ledgerBody [defaultGenesis] {} [])

def otherSubsidy : NodeConfig := { restore := true, blockSubsidy := 1 }

def restoredNode : PeerState :=
  (PeerState.start otherSubsidy zeroHash ⟨defaultGenesis.header, UtxoSet.empty, {}⟩).storeBlocks
    [defaultGenesis]

theorem defaultGenesis_accepted :
    Accepted {} [defaultGenesis] ⟨defaultGenesis.header, UtxoSet.empty, {}⟩ :=
  .create (create_genesis {} {})

theorem defaultLedger_length : defaultLedger.length = 120 := by
  rw [defaultLedger, single_ledger_length, defaultGenesis, genesis_toBytes_length]

theorem defaultLedger_loads :
    loadLedger ⟨some defaultLedger, none⟩ = .ok ⟨[defaultGenesis], {}, []⟩ := by
  have hstore : Storable [defaultGenesis] [] :=
    defaultGenesis_accepted.storable (by decide) (by decide) (by simp)
  have hheights : ∀ i (b : Block), [defaultGenesis][i]? = some b → b.header.height.toNat = i :=
    fun _ _ hi => defaultGenesis_accepted.block_height hi
  have hlen : defaultLedger.length ≤ kMaxLedgerFileBytes := by
    rw [defaultLedger_length]
    decide
  rw [loadLedger_of_fits rfl hlen, defaultLedger]
  exact decodeLedger_encodeLedger hstore hheights (encodeLedger_ok hstore.encodable {})

theorem restoredNode_reached :
    Reached otherSubsidy ⟨some defaultLedger, none⟩ anyOp restoredNode := by
  have hexists : ledgerExists ⟨some defaultLedger, none⟩ = true := by
    simp [ledgerExists, defaultLedger_length]
  refine .start ?_
  rw [fromConfig_restored rfl rfl hexists defaultLedger_loads rfl defaultGenesis_accepted]
  exact .ret _

/-- A node restored from a ledger of other parameters writes a ledger that does not restore
to its chain. -/
theorem restored_ledger_changes_params :
    Reached otherSubsidy ⟨some defaultLedger, none⟩ anyOp restoredNode ∧
    restoredNode.FitsLedger ∧ ¬ restoredNode.LedgerRestores := by
  have hfits : restoredNode.FitsLedger :=
    ⟨by change 1 ≤ _; decide, by change 0 ≤ _; exact Nat.zero_le _⟩
  refine ⟨restoredNode_reached, hfits, ?_⟩
  rw [restoredNode_reached.inv.ledgerRestores_iff hfits]
  have hparams : startParams otherSubsidy ⟨some defaultLedger, none⟩ = {} := by
    have hrestore : otherSubsidy.restore = true := rfl
    simp only [startParams, hrestore, if_true, defaultLedger_loads]
  rw [hparams]
  decide

end Blockchain
