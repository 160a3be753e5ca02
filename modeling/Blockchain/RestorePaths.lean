import Blockchain.LedgerRestart
import Blockchain.SimulatorRestart

/-! The two ways to restore a ledger. The simulator compares the stored parameters and the
stored genesis block with the configuration; a peer takes them from the file. Both load,
replay and re-admit the same, so they differ on the ledgers that a peer can restore and the
simulator refuses. -/
namespace Blockchain
open Lib

/-- A stored ledger that loads, replays and has its pool re-admitted. -/
structure Restorable (config : NodeConfig) (dir : DataDir) (ledger : LedgerData) (chain : Chain)
    (pool : Mempool) : Prop where
  present : ledgerExists dir = true
  loads : loadLedger dir = .ok ledger
  replays : Accepted ledger.params ledger.blocks chain
  readmits : restoreMempool chain.utxos (resolvedMempoolPolicy config) ledger.mempoolTransactions
    (Mempool.new (resolvedMempoolLimits config)) = (.ok (), pool)

/-- The stored parameters and the stored genesis block are the configured ones. -/
structure LedgerData.Configured (config : NodeConfig) (ledger : LedgerData) : Prop where
  params_eq : ledger.params = buildConsensusParams config
  genesis_eq : ledger.blocks.head?.map (fun block => block.header.hash) =
    some (buildGenesisBlock config).header.hash

theorem Restorable.unique {config : NodeConfig} {dir : DataDir} {ledger ledger' : LedgerData}
    {chain chain' : Chain} {pool pool' : Mempool} (h : Restorable config dir ledger chain pool)
    (h' : Restorable config dir ledger' chain' pool') :
    ledger = ledger' ∧ chain = chain' ∧ pool = pool' := by
  have hledger : ledger = ledger' := Except.ok.inj (h.loads.symm.trans h'.loads)
  subst hledger
  have hchain : chain = chain' := h.replays.unique h'.replays
  subst hchain
  exact ⟨rfl, rfl, (Prod.mk.inj (h.readmits.symm.trans h'.readmits)).2⟩

theorem consensusParamsMatch_iff {expected stored : ConsensusParams} :
    consensusParamsMatch expected stored = true ↔ stored = expected := by
  cases expected
  cases stored
  simp only [consensusParamsMatch, Bool.and_eq_true, beq_iff_eq, ConsensusParams.mk.injEq]
  exact ⟨fun h => ⟨h.1.symm, h.2.symm⟩, fun h => ⟨h.1.symm, h.2.symm⟩⟩

/-! The simulator. -/

theorem openChain_restored {config : NodeConfig} (hrestore : config.restore = true) {dir : DataDir}
    {chain : Chain} {blocks : List Block} {stored : List Transaction} :
    openChain config dir = .ok (chain, blocks, stored) ↔
      ∃ ledger, ledgerExists dir = true ∧ loadLedger dir = .ok ledger ∧ ledger.Configured config ∧
        Accepted ledger.params ledger.blocks chain ∧ blocks = ledger.blocks ∧
        stored = ledger.mempoolTransactions := by
  simp only [openChain, hrestore, Bool.true_eq_false, if_false, guard_eq_ok, Bool.not_eq_false]
  constructor
  · intro h
    obtain ⟨hexists, h⟩ := h
    obtain ⟨ledger, hload, h⟩ := bind_eq_ok.mp h
    simp only [guard_eq_ok, Bool.not_eq_false, not_not, ne_eq] at h
    obtain ⟨hparams, hgenesis, h⟩ := h
    obtain ⟨replayed, hreplay, h⟩ := bind_eq_ok.mp h
    cases h
    exact ⟨ledger, hexists, hload, ⟨consensusParamsMatch_iff.mp hparams, hgenesis⟩,
      replaySequence_accepted hreplay, rfl, rfl⟩
  · intro h
    obtain ⟨ledger, hexists, hload, hconf, hacc, rfl, rfl⟩ := h
    refine ⟨hexists, bind_eq_ok.mpr ⟨ledger, hload, ?_⟩⟩
    simp only [guard_eq_ok, Bool.not_eq_false, not_not, ne_eq]
    exact ⟨consensusParamsMatch_iff.mpr hconf.params_eq, hconf.genesis_eq,
      bind_eq_ok.mpr ⟨chain, hacc.replaySequence, rfl⟩⟩

theorem openState_restored {config : NodeConfig} (hrestore : config.restore = true) {dir : DataDir}
    {state : SimState} :
    openState config {} dir = .ok state ↔
      ∃ ledger chain pool, Restorable config dir ledger chain pool ∧ ledger.Configured config ∧
        state = ⟨chain, pool, ledger.blocks, {}⟩ := by
  have hlimits : resolveMempoolLimits config {} = resolvedMempoolLimits config := rfl
  rw [openState, bind_eq_ok]
  simp only [hlimits, hrestore, Bool.true_eq_false, if_false]
  constructor
  · intro h
    obtain ⟨⟨chain, blocks, stored⟩, hopen, h⟩ := h
    obtain ⟨ledger, hexists, hload, hconf, hacc, rfl, rfl⟩ := (openChain_restored hrestore).mp hopen
    cases hpool : restoreMempool chain.utxos (resolvedMempoolPolicy config)
        ledger.mempoolTransactions (Mempool.new (resolvedMempoolLimits config)) with
    | mk result pool =>
      cases result with
      | error e => simp [hpool] at h
      | ok u =>
        simp only [hpool] at h
        exact ⟨ledger, chain, pool, ⟨hexists, hload, hacc, hpool⟩, hconf, (Except.ok.inj h).symm⟩
  · intro h
    obtain ⟨ledger, chain, pool, hr, hconf, rfl⟩ := h
    refine ⟨(chain, ledger.blocks, ledger.mempoolTransactions), (openChain_restored hrestore).mpr
      ⟨ledger, hr.present, hr.loads, hconf, hr.replays, rfl, rfl⟩, ?_⟩
    simp only [hr.readmits]

theorem simulate_restored {config : NodeConfig} (hrestore : config.restore = true)
    (hmine : config.mineBlocks = 0) {dir : DataDir} {state : SimState} :
    simulate config {} dir = .ok state ↔
      ∃ recipient ledger chain pool, resolveCoinbaseRecipient config = .ok recipient ∧
        Restorable config dir ledger chain pool ∧ ledger.Configured config ∧
        state = ⟨chain, pool, ledger.blocks, {}⟩ := by
  have hidle : ∀ tmplParams start,
      (if ({} : SimulatorOptions).steps.isEmpty then
        mineNBlocks config tmplParams config.mineBlocks.toNat start
      else runSteps config tmplParams (resolvedMempoolPolicy config) [] start) = .ok start := by
    intro tmplParams start
    rw [hmine]
    rfl
  rw [simulate, bind_eq_ok]
  constructor
  · intro h
    obtain ⟨recipient, hrecipient, h⟩ := h
    obtain ⟨start, hstart, h⟩ := bind_eq_ok.mp h
    have hsame : start = state := Except.ok.inj ((hidle _ start).symm.trans h)
    obtain ⟨ledger, chain, pool, hr, hconf, heq⟩ := (openState_restored hrestore).mp hstart
    exact ⟨recipient, ledger, chain, pool, hrecipient, hr, hconf, hsame.symm.trans heq⟩
  · intro h
    obtain ⟨recipient, ledger, chain, pool, hrecipient, hr, hconf, heq⟩ := h
    exact ⟨recipient, hrecipient, bind_eq_ok.mpr ⟨state,
      (openState_restored hrestore).mpr ⟨ledger, chain, pool, hr, hconf, heq⟩, hidle _ state⟩⟩

/-! The peer. -/

namespace PeerState

theorem restoreTransactions_returns {txs : List Transaction} {state next : PeerState} :
    (restoreTransactions txs state).Returns (.ok (), next) ↔
      ∃ pool, restoreMempool state.chain.utxos state.mempoolPolicy txs state.mempool =
        (.ok (), pool) ∧
        next = { state with mempool := pool } := by
  induction txs generalizing state with
  | nil =>
    rw [restoreTransactions, restoreMempool, Action.pure_run, Process.returns_ret]
    simp [eq_comm]
  | cons tx txs ih =>
    rw [restoreTransactions, restoreMempool, Action.bind_run]
    cases haccept : state.mempool.accept tx state.chain.utxos state.mempoolPolicy with
    | mk result pool =>
      have hattempt : Action.attempt (acceptTransaction tx) state =
          .ret (.ok result, { state with mempool := pool }) := by
        simp only [Action.attempt, acceptTransaction, haccept]
        rfl
      rw [hattempt, Process.bind_ret_left]
      cases result with
      | error e => simp [makeError]
      | ok u => exact ih

theorem fromConfig_restores {config : NodeConfig} (hrestore : config.restore = true) {dir : DataDir}
    {node : PeerState} :
    (fromConfig config dir).Returns (.ok node) ↔
      ∃ recipient ledger chain pool, resolveCoinbaseRecipient config = .ok recipient ∧
        Restorable config dir ledger chain pool ∧
        node = { (start config recipient chain).storeBlocks ledger.blocks with
          mempool := pool } := by
  constructor
  · intro h
    obtain ⟨recipient, hrecipient, ⟨_, ledger, chain, hload, hacc, hrun⟩ | ⟨hfresh, _⟩⟩ :=
      fromConfig_returns h
    · have hexists : ledgerExists dir = true := by
        cases hexists : ledgerExists dir with
        | true => rfl
        | false => simp [fromConfig, hrecipient, hrestore, hexists, makeError] at h
      obtain ⟨pool, hpool, hnode⟩ := restoreTransactions_returns.mp hrun
      rw [storeBlocks_eq] at hpool
      exact ⟨recipient, ledger, chain, pool, hrecipient, ⟨hexists, hload, hacc, hpool⟩, hnode⟩
    · simp [hrestore] at hfresh
  · intro h
    obtain ⟨recipient, ledger, chain, pool, hrecipient, hr, hnode⟩ := h
    have hchain : loadChain dir = .ok chain := by
      rw [loadChain, hr.loads, ok_bind]
      exact replayChain_ok.mpr hr.replays
    have hrun : (restoreTransactions ledger.mempoolTransactions
        ((start config recipient chain).storeBlocks ledger.blocks)).Returns (.ok (), node) := by
      refine restoreTransactions_returns.mpr ⟨pool, ?_, hnode⟩
      rw [storeBlocks_eq]
      exact hr.readmits
    simp only [fromConfig, hrecipient, hrestore, hr.present, hchain, hr.loads, if_true,
      Bool.true_eq_false, if_false, launch]
    exact Process.returns_bind.mpr ⟨_, hrun, .ret _⟩

end PeerState

/-- The simulator and a peer restore alike, in success and in what they then hold, exactly
when every ledger the peer can restore has the configured parameters and genesis block. -/
theorem restore_paths_agree_iff {config : NodeConfig} (hrestore : config.restore = true)
    (hpersist : config.persist = false) (hmine : config.mineBlocks = 0) (env : SaveEnv)
    (dir : DataDir) :
    (((∃ summary, (runSimulator config {} env dir).1 = .ok summary) ↔
        ∃ node, (PeerState.fromConfig config dir).Returns (.ok node)) ∧
      ∀ summary node, (runSimulator config {} env dir).1 = .ok summary →
        (PeerState.fromConfig config dir).Returns (.ok node) →
          summary.tipHash = node.chain.tipHash ∧ ∃ state, simulate config {} dir = .ok state ∧
            state.chain.utxos = node.chain.utxos ∧ state.pool = node.mempool ∧
            state.chain.params = node.chain.params) ↔
    ∀ recipient ledger chain pool, resolveCoinbaseRecipient config = .ok recipient →
      Restorable config dir ledger chain pool → ledger.Configured config := by
  constructor
  · intro h recipient ledger chain pool hrecipient hr
    obtain ⟨summary, hsummary⟩ := h.1.mpr ⟨_, (PeerState.fromConfig_restores hrestore).mpr
      ⟨recipient, ledger, chain, pool, hrecipient, hr, rfl⟩⟩
    obtain ⟨state, hstate, _⟩ := runSimulator_ok.mp hsummary
    obtain ⟨_, ledger', chain', pool', _, hr', hconf, _⟩ :=
      (simulate_restored hrestore hmine).mp hstate
    rw [(hr.unique hr').1]
    exact hconf
  · intro h
    refine ⟨⟨?_, ?_⟩, ?_⟩
    · intro hsummary
      obtain ⟨summary, hsummary⟩ := hsummary
      obtain ⟨state, hstate, _⟩ := runSimulator_ok.mp hsummary
      obtain ⟨recipient, ledger, chain, pool, hrecipient, hr, _⟩ :=
        (simulate_restored hrestore hmine).mp hstate
      exact ⟨_, (PeerState.fromConfig_restores hrestore).mpr
        ⟨recipient, ledger, chain, pool, hrecipient, hr, rfl⟩⟩
    · intro hnode
      obtain ⟨node, hnode⟩ := hnode
      obtain ⟨recipient, ledger, chain, pool, hrecipient, hr, _⟩ :=
        (PeerState.fromConfig_restores hrestore).mp hnode
      have hconf := h recipient ledger chain pool hrecipient hr
      exact ⟨_, runSimulator_ok.mpr ⟨_, (simulate_restored hrestore hmine).mpr
        ⟨recipient, ledger, chain, pool, hrecipient, hr, hconf, rfl⟩, rfl, by simp [hpersist]⟩⟩
    · intro summary node hsummary hnode
      obtain ⟨state, hstate, hshape, _⟩ := runSimulator_ok.mp hsummary
      obtain ⟨_, ledger, chain, pool, _, hr, _, hheld⟩ :=
        (simulate_restored hrestore hmine).mp hstate
      obtain ⟨recipient, ledger', chain', pool', _, hr', hsame⟩ :=
        (PeerState.fromConfig_restores hrestore).mp hnode
      obtain ⟨rfl, rfl, rfl⟩ := hr.unique hr'
      rw [PeerState.storeBlocks_eq] at hsame
      rw [hshape, hheld, hsame]
      exact ⟨rfl, _, hheld ▸ hstate, rfl, rfl, rfl⟩

/-! A ledger with a mined block and a pooled payment. -/

theorem pooledLedger_loads : loadLedger ⟨some pooledLedger, none⟩ =
    .ok ⟨pooledRun.ledger, ⟨50, 1⟩, [payment 0]⟩ := by
  have hlen : pooledLedger.length ≤ kMaxLedgerFileBytes := by
    rw [pooledLedger_length]
    decide
  rw [loadLedger_of_fits rfl hlen]
  exact decodeLedger_encodeLedger pooledRun_storable
    (fun _ _ hi => pooledRun_accepted.block_height hi)
    (encodeLedger_ok pooledRun_storable.encodable _)

theorem pooledLedger_restorable : Restorable (rewardConfig.withFlags false true)
    ⟨some pooledLedger, none⟩ ⟨pooledRun.ledger, ⟨50, 1⟩, [payment 0]⟩ pooledRun.chain
    pooledRun.pool := by
  refine ⟨by simp [ledgerExists, pooledLedger_length], pooledLedger_loads, pooledRun_accepted, ?_⟩
  have haccept : earnedRun.pool.accept (payment 0) pooledRun.chain.utxos ⟨0⟩ =
      (.ok (), pooledRun.pool) := Mempool.accept_of_fits payment_admitted earnedRun_fits
  change restoreMempool pooledRun.chain.utxos ⟨0⟩ [payment 0] earnedRun.pool = _
  rw [restoreMempool, haccept]
  rfl

/-- Both restore it, under the configuration it was saved under, to the same tip and pool. -/
theorem pooled_ledger_restores_alike :
    ∃ summary node,
      (runSimulator (rewardConfig.withFlags false true) {} {} ⟨some pooledLedger, none⟩).1 =
        .ok summary ∧
      (PeerState.fromConfig (rewardConfig.withFlags false true) ⟨some pooledLedger, none⟩).Returns
        (.ok node) ∧
      summary.tipHash = node.chain.tipHash ∧ node.height = 1 ∧ node.mempool = pooledRun.pool ∧
      ∃ state, simulate (rewardConfig.withFlags false true) {} ⟨some pooledLedger, none⟩ =
        .ok state ∧ state.chain.utxos = node.chain.utxos ∧ state.pool = node.mempool := by
  have hrestore : (rewardConfig.withFlags false true).restore = true := rfl
  have hpersist : (rewardConfig.withFlags false true).persist = false := rfl
  obtain ⟨hiff, hsame⟩ := (restore_paths_agree_iff hrestore hpersist rfl {}
    ⟨some pooledLedger, none⟩).mpr fun recipient ledger chain pool _ hr => by
      rw [← (pooledLedger_restorable.unique hr).1]
      exact ⟨rfl, rfl⟩
  have hnode := (PeerState.fromConfig_restores hrestore).mpr
    ⟨zeroHash, _, _, _, rfl, pooledLedger_restorable, rfl⟩
  obtain ⟨summary, hsummary⟩ := hiff.mpr ⟨_, hnode⟩
  obtain ⟨htip, state, hstate, hutxos, hpool, _⟩ := hsame summary _ hsummary hnode
  exact ⟨summary, _, hsummary, hnode, htip, rfl, rfl, state, hstate, hutxos, hpool⟩

/-- A peer restores a ledger saved under another subsidy; the simulator refuses it. -/
theorem other_subsidy_restored_by_peer_only :
    otherSubsidy.restore = true ∧ otherSubsidy.persist = false ∧ otherSubsidy.mineBlocks = 0 ∧
    (∃ node, (PeerState.fromConfig otherSubsidy ⟨some defaultLedger, none⟩).Returns (.ok node)) ∧
    ∀ summary, (runSimulator otherSubsidy {} {} ⟨some defaultLedger, none⟩).1 ≠ .ok summary := by
  have hexists : ledgerExists ⟨some defaultLedger, none⟩ = true := by
    simp [ledgerExists, defaultLedger_length]
  have hr : Restorable otherSubsidy ⟨some defaultLedger, none⟩ ⟨[defaultGenesis], {}, []⟩
      ⟨defaultGenesis.header, UtxoSet.empty, {}⟩
      (Mempool.new (resolvedMempoolLimits otherSubsidy)) :=
    ⟨hexists, defaultLedger_loads, defaultGenesis_accepted, rfl⟩
  refine ⟨rfl, rfl, rfl, ⟨_, (PeerState.fromConfig_restores rfl).mpr
    ⟨zeroHash, _, _, _, rfl, hr, rfl⟩⟩, ?_⟩
  intro summary hsummary
  obtain ⟨state, hstate, _⟩ := runSimulator_ok.mp hsummary
  obtain ⟨_, ledger, chain, pool, _, hr', hconf, _⟩ := (simulate_restored rfl rfl).mp hstate
  have hparams := hconf.params_eq
  rw [← (hr.unique hr').1] at hparams
  exact absurd hparams (by decide)

end Blockchain
