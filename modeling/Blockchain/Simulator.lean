import Blockchain.ChainStore
import Blockchain.NodeConfig
import Blockchain.Production
import Blockchain.Lib.Run

/-! The single-process simulator: from genesis or a restored ledger it admits transactions
and mines blocks step by step, and optionally saves the result. A successful run is a run of
two kinds of events, admissions and mined blocks. -/
namespace Blockchain
open Lib

structure SimulatorSummary where
  genesisHash : Hash256
  tipHash : Hash256
  height : UInt32
  utxoCount : Nat
  blocksMined : UInt32
  txsAdmitted : UInt32
  txsIncluded : UInt32
  totalFees : UInt64
  restoredFromDisk : Bool
deriving DecidableEq

structure SimulatorStep where
  submitTxs : List Transaction := []
  mineBlocks : UInt32 := 0

structure SimulatorOptions where
  steps : List SimulatorStep := []
  mempoolLimits : MempoolLimits := {}

def resolveMempoolLimits (config : NodeConfig) (options : SimulatorOptions) : MempoolLimits :=
  let limits := resolvedMempoolLimits config
  { maxTransactions :=
      if options.mempoolLimits.maxTransactions ≠ 0 then options.mempoolLimits.maxTransactions
      else limits.maxTransactions
    maxTotalBytes :=
      if options.mempoolLimits.maxTotalBytes ≠ 0 then options.mempoolLimits.maxTotalBytes
      else limits.maxTotalBytes }

def consensusParamsMatch (expected stored : ConsensusParams) : Bool :=
  expected.blockSubsidy == stored.blockSubsidy &&
    expected.coinbaseMaturity == stored.coinbaseMaturity

structure RunStats where
  blocksMined : UInt32 := 0
  txsAdmitted : UInt32 := 0
  txsIncluded : UInt32 := 0
  totalFees : UInt64 := 0
deriving DecidableEq

structure SimState where
  chain : Chain
  pool : Mempool
  ledger : List Block
  stats : RunStats

namespace SimState

def admitted (state : SimState) (pool : Mempool) : SimState :=
  { state with
    pool := pool
    stats := { state.stats with txsAdmitted := state.stats.txsAdmitted + 1 } }

def mined (state : SimState) (tmpl : BlockTemplate) (chain : Chain) (pool : Mempool) :
    SimState where
  chain := chain
  pool := pool
  ledger := state.ledger ++ [tmpl.block]
  stats :=
    { state.stats with
      totalFees := state.stats.totalFees + tmpl.totalFees
      txsIncluded := state.stats.txsIncluded + UInt32.ofNat tmpl.selectedCount
      blocksMined := state.stats.blocksMined + 1 }

end SimState

/-- A rejected transaction ends the whole run, so the state it leaves is not kept. -/
def admitTransactions (policy : MempoolPolicy) : List Transaction → SimState → Result SimState
  | [], state => .ok state
  | tx :: rest, state =>
    match state.pool.accept tx state.chain.utxos policy with
    | (.error e, _) => .error e
    | (.ok (), pool) => admitTransactions policy rest (state.admitted pool)

def mineNBlocks (config : NodeConfig) (tmplParams : BlockTemplateParams) :
    Nat → SimState → Result SimState
  | 0, state => .ok state
  | n + 1, state => do
    let timestamp := blockTimestamp config.genesisTimestamp (state.chain.height + 1)
    let tmpl ← buildBlockTemplate state.chain.tip timestamp state.pool state.chain.utxos tmplParams
    let (_, chain, pool) ← state.chain.submitBlock tmpl.block (some state.pool)
    mineNBlocks config tmplParams n (state.mined tmpl chain (pool.getD state.pool))

def runSteps (config : NodeConfig) (tmplParams : BlockTemplateParams) (policy : MempoolPolicy) :
    List SimulatorStep → SimState → Result SimState
  | [], state => .ok state
  | step :: rest, state => do
    let state ← admitTransactions policy step.submitTxs state
    let state ← mineNBlocks config tmplParams step.mineBlocks.toNat state
    runSteps config tmplParams policy rest state

def replayLoadedChain (blocks : List Block) (params : ConsensusParams) : Result Chain :=
  replaySequence params blocks

def openChain (config : NodeConfig) (dir : DataDir) :
    Result (Chain × List Block × List Transaction) :=
  let consensus := buildConsensusParams config
  let genesis := buildGenesisBlock config
  if config.restore = false then do
    let chain ← Chain.create genesis consensus
    .ok (chain, [genesis], [])
  else if ledgerExists dir = false then
    makeError .invalidConfig "no ledger found in data_dir for --restore"
  else do
    let loaded ← loadLedger dir
    if consensusParamsMatch consensus loaded.params = false then
      makeError .storageCorruption "restored consensus parameters do not match configuration"
    else if loaded.blocks.head?.map (fun block => block.header.hash) ≠ some genesis.header.hash then
      makeError .storageCorruption "restored genesis does not match configuration"
    else do
      let chain ← replayLoadedChain loaded.blocks loaded.params
      .ok (chain, loaded.blocks, loaded.mempoolTransactions)

def openState (config : NodeConfig) (options : SimulatorOptions) (dir : DataDir) :
    Result SimState := do
  let (chain, ledger, stored) ← openChain config dir
  let pool := Mempool.new (resolveMempoolLimits config options)
  if config.restore = false then .ok ⟨chain, pool, ledger, {}⟩
  else match restoreMempool chain.utxos (resolvedMempoolPolicy config) stored pool with
    | (.error e, _) => .error e
    | (.ok (), pool) => .ok ⟨chain, pool, ledger, {}⟩

/-- Everything `run_simulator` does before it saves. Without steps it mines the configured
number of blocks. -/
def simulate (config : NodeConfig) (options : SimulatorOptions) (dir : DataDir) :
    Result SimState := do
  let recipient ← resolveCoinbaseRecipient config
  let tmplParams := buildTemplateParams config (buildConsensusParams config) recipient
  let state ← openState config options dir
  if options.steps.isEmpty then mineNBlocks config tmplParams config.mineBlocks.toNat state
  else runSteps config tmplParams (resolvedMempoolPolicy config) options.steps state

def summaryFromChain (genesis : Block) (state : SimState) (restored : Bool) : SimulatorSummary where
  genesisHash := genesis.header.hash
  tipHash := state.chain.tipHash
  height := state.chain.height
  utxoCount := state.chain.utxos.size
  blocksMined := state.stats.blocksMined
  txsAdmitted := state.stats.txsAdmitted
  txsIncluded := state.stats.txsIncluded
  totalFees := state.stats.totalFees
  restoredFromDisk := restored

/-- The summary of a run and the data directory after it. -/
def runSimulator (config : NodeConfig) (options : SimulatorOptions) (env : SaveEnv)
    (dir : DataDir) :
    Result SimulatorSummary × DataDir :=
  match simulate config options dir with
  | .error e => (.error e, dir)
  | .ok state =>
    let summary := summaryFromChain (buildGenesisBlock config) state config.restore
    if config.persist = false then (.ok summary, dir)
    else match saveLedger state.ledger (buildConsensusParams config) state.pool.sortedTransactions
        env dir with
      | (.error e, dir) => (.error e, dir)
      | (.ok (), dir) => (.ok summary, dir)

theorem runSimulator_ok {config : NodeConfig} {options : SimulatorOptions} {env : SaveEnv}
    {dir : DataDir} {summary : SimulatorSummary} :
    (runSimulator config options env dir).1 = .ok summary ↔
      ∃ state, simulate config options dir = .ok state ∧
        summary = summaryFromChain (buildGenesisBlock config) state config.restore ∧
        (config.persist = true → (saveLedger state.ledger (buildConsensusParams config)
          state.pool.sortedTransactions env dir).1 = .ok ()) := by
  unfold runSimulator
  cases hsim : simulate config options dir with
  | error e => simp
  | ok state =>
    cases hpersist : config.persist with
    | false => simp [eq_comm]
    | true =>
      simp only [Bool.true_eq_false, if_false, Except.ok.injEq, forall_const, exists_eq_left']
      cases hsave : saveLedger state.ledger (buildConsensusParams config)
          state.pool.sortedTransactions env dir with
      | mk result after => cases result <;> simp [eq_comm]

/-! Runs as events. -/

/-- An admitted entry with the entries it evicted, or a mined block. -/
inductive SimEvent where
  | admitted (entry : Entry) (evicted : List Entry)
  | mined (tmpl : BlockTemplate)

def admittedEntries (events : List SimEvent) : List Entry :=
  events.filterMap fun
    | .admitted entry _ => some entry
    | .mined _ => none

def minedTemplates (events : List SimEvent) : List BlockTemplate :=
  events.filterMap fun
    | .admitted _ _ => none
    | .mined tmpl => some tmpl

def Mempool.lost (pool after : Mempool) : List Entry :=
  pool.byTxid.values.filter fun e => !after.contains e.txid

section Events
variable (config : NodeConfig) (recipient : Hash256)

def simTemplate : BlockTemplateParams :=
  buildTemplateParams config (buildConsensusParams config) recipient

inductive SimTransition : SimState → SimEvent → SimState → Prop where
  | accept {state : SimState} {tx : Transaction} {pool : Mempool} {entry : Entry}
      (h : state.pool.accept tx state.chain.utxos (resolvedMempoolPolicy config) = (.ok (), pool))
      (hentry : pool.byTxid.find? tx.txid = some entry) :
      SimTransition state (.admitted entry (state.pool.lost pool)) (state.admitted pool)
  | mine {state : SimState} {tmpl : BlockTemplate} {fees : UInt64} {chain : Chain} {pool : Mempool}
      (htmpl : buildBlockTemplate state.chain.tip
        (blockTimestamp config.genesisTimestamp (state.chain.height + 1)) state.pool
        state.chain.utxos (simTemplate config recipient) = .ok tmpl)
      (hs : state.chain.submitBlock tmpl.block (some state.pool) = .ok (fees, chain, some pool)) :
      SimTransition state (.mined tmpl) (state.mined tmpl chain pool)

variable {config recipient}

theorem admitTransactions_run {txs : List Transaction} {state final : SimState}
    (h : admitTransactions (resolvedMempoolPolicy config) txs state = .ok final) :
    ∃ events, Run (SimTransition config recipient) state events final ∧
      (admittedEntries events).map Entry.transaction = txs := by
  induction txs generalizing state with
  | nil =>
    cases h
    exact ⟨[], .done _, rfl⟩
  | cons tx txs ih =>
    rw [admitTransactions] at h
    cases ha : state.pool.accept tx state.chain.utxos (resolvedMempoolPolicy config) with
    | mk result pool =>
      cases result with
      | error e => simp [ha] at h
      | ok u =>
        simp only [ha] at h
        obtain ⟨events, hrun, htxs⟩ := ih h
        obtain ⟨admission, _, hentry⟩ := Mempool.accept_entry ha
        refine ⟨_, .next (.accept ha hentry) hrun, ?_⟩
        rw [← htxs]
        rfl

theorem mineNBlocks_run {n : Nat} {state final : SimState}
    (h : mineNBlocks config (simTemplate config recipient) n state = .ok final) :
    ∃ events, Run (SimTransition config recipient) state events final ∧
      admittedEntries events = [] := by
  induction n generalizing state with
  | zero =>
    cases h
    exact ⟨[], .done _, rfl⟩
  | succ n ih =>
    rw [mineNBlocks] at h
    obtain ⟨tmpl, htmpl, h⟩ := bind_eq_ok.mp h
    obtain ⟨⟨fees, chain, pool⟩, hs, h⟩ := bind_eq_ok.mp h
    obtain ⟨_, _, hpool⟩ := Chain.submitBlock_ok.mp hs
    rw [hpool] at h hs
    obtain ⟨events, hrun, hnone⟩ := ih h
    exact ⟨_, .next (.mine htmpl hs) hrun, hnone⟩

theorem runSteps_run {steps : List SimulatorStep} {state final : SimState}
    (h : runSteps config (simTemplate config recipient) (resolvedMempoolPolicy config) steps state =
      .ok final) :
    ∃ events, Run (SimTransition config recipient) state events final ∧
      (admittedEntries events).map Entry.transaction = steps.flatMap SimulatorStep.submitTxs := by
  induction steps generalizing state with
  | nil =>
    cases h
    exact ⟨[], .done _, rfl⟩
  | cons step steps ih =>
    rw [runSteps] at h
    obtain ⟨_, haccepted, h⟩ := bind_eq_ok.mp h
    obtain ⟨_, hmine, h⟩ := bind_eq_ok.mp h
    obtain ⟨_, hrun₁, htxs⟩ := admitTransactions_run haccepted
    obtain ⟨_, hrun₂, hnone⟩ := mineNBlocks_run hmine
    obtain ⟨_, hrun₃, hrest⟩ := ih h
    refine ⟨_, (hrun₁.append hrun₂).append hrun₃, ?_⟩
    simp only [admittedEntries, List.filterMap_append] at htxs hnone hrest ⊢
    rw [hnone, List.append_nil, List.map_append, htxs, hrest, List.flatMap_cons]

end Events

/-- A successful run is its events from the state it opened, and it admits exactly the
transactions of its steps, in order. -/
theorem simulate_run {config : NodeConfig} {options : SimulatorOptions} {dir : DataDir}
    {final : SimState} (h : simulate config options dir = .ok final) :
    ∃ recipient start events, resolveCoinbaseRecipient config = .ok recipient ∧
      openState config options dir = .ok start ∧
      Run (SimTransition config recipient) start events final ∧
      (admittedEntries events).map Entry.transaction =
        options.steps.flatMap SimulatorStep.submitTxs := by
  rw [simulate] at h
  obtain ⟨recipient, hrecipient, h⟩ := bind_eq_ok.mp h
  obtain ⟨start, hstart, h⟩ := bind_eq_ok.mp h
  refine ⟨recipient, start, ?_⟩
  cases hsteps : options.steps with
  | nil =>
    simp only [hsteps, List.isEmpty_nil, if_true] at h
    obtain ⟨events, hrun, hnone⟩ := mineNBlocks_run h
    exact ⟨events, hrecipient, hstart, hrun, by rw [hnone]; rfl⟩
  | cons step steps =>
    simp only [hsteps, List.isEmpty_cons, Bool.false_eq_true, if_false] at h
    obtain ⟨events, hrun, htxs⟩ := runSteps_run h
    exact ⟨events, hrecipient, hstart, hrun, htxs⟩

/-! What every step of a run keeps. -/

structure SimState.Inv (config : NodeConfig) (limits : MempoolLimits)
    (state : SimState) : Prop where
  accepted : Accepted (buildConsensusParams config) state.ledger state.chain
  genesis : state.ledger.head? = some (buildGenesisBlock config)
  pool : state.pool.RepInv
  limits_eq : state.pool.limits = limits
  valid : state.pool.ValidFor state.chain.utxos (resolvedMempoolPolicy config)

theorem openState_genesis {config : NodeConfig} (options : SimulatorOptions) (dir : DataDir)
    (h : config.restore = false) :
    openState config options dir = .ok ⟨⟨(buildGenesisBlock config).header, UtxoSet.empty,
      buildConsensusParams config⟩, Mempool.new (resolveMempoolLimits config options),
      [buildGenesisBlock config], {}⟩ := by
  simp only [openState, openChain, h, if_true, create_genesis, ok_bind]

namespace SimState.Inv
variable {config : NodeConfig} {limits : MempoolLimits}

theorem genesisState (limits : MempoolLimits) :
    SimState.Inv config limits ⟨⟨(buildGenesisBlock config).header, UtxoSet.empty,
      buildConsensusParams config⟩, Mempool.new limits, [buildGenesisBlock config], {}⟩ where
  accepted := .create (create_genesis config _)
  genesis := rfl
  pool := Mempool.new_inv limits
  limits_eq := rfl
  valid := by simp [Mempool.ValidFor, Mempool.new]

theorem step {recipient : Hash256} {state next : SimState} {event : SimEvent}
    (h : state.Inv config limits) (hstep : SimTransition config recipient state event next) :
    next.Inv config limits := by
  cases hstep with
  | @accept tx pool entry ha _ =>
    have hpool : pool = (state.pool.accept tx state.chain.utxos
        (resolvedMempoolPolicy config)).2 := by
      rw [ha]
    exact
      { accepted := h.accepted
        genesis := h.genesis
        pool := by rw [SimState.admitted, hpool]; exact h.pool.accept tx _ _
        limits_eq := by
          rw [SimState.admitted, hpool]
          exact (state.pool.accept_limits tx _ _).trans h.limits_eq
        valid := by rw [SimState.admitted, hpool]; exact h.valid.accept tx }
  | @mine tmpl fees chain pool htmpl hs =>
    obtain ⟨_, ⟨utxos, hconn, hchain⟩, hpool⟩ := Chain.submitBlock_ok.mp hs
    have hpruned : pool = state.pool.removeAll (tmpl.block.transactions.map Transaction.txid) :=
      Option.some.inj hpool
    exact
      { accepted := h.accepted.submit hs
        genesis := by
          rw [SimState.mined, List.head?_append, h.genesis]
          rfl
        pool := by rw [SimState.mined, hpruned]; exact h.pool.removeAll _
        limits_eq := by
          rw [SimState.mined, hpruned, Mempool.removeAll_limits]
          exact h.limits_eq
        valid := by
          rw [SimState.mined, hpruned, hchain]
          exact h.valid.connectBlock hconn fun _ _ he hid => template_disjoint h.pool htmpl he hid }

theorem run {recipient : Hash256} {state final : SimState} {events : List SimEvent}
    (h : state.Inv config limits) (hrun : Run (SimTransition config recipient) state events final) :
    final.Inv config limits :=
  hrun.keeps (fun _ _ _ hs hstep => hs.step hstep) h

end SimState.Inv

/-! A run that mines a reward, admits a payment of it and confirms the payment. -/

theorem mineNBlocks_one {config : NodeConfig} {recipient : Hash256} {state : SimState}
    {sel : Selection} {reward : UInt64} {utxos : UtxoSet}
    (hheight : state.chain.tip.height ≠ kUint32Max)
    (hparams : buildConsensusParams config = state.chain.params)
    (htime : state.chain.tip.timestamp ≤
      blockTimestamp config.genesisTimestamp (state.chain.height + 1))
    (hsel : templateSelection state.chain.tip
      (blockTimestamp config.genesisTimestamp (state.chain.height + 1)) state.pool state.chain.utxos
      (simTemplate config recipient) = sel)
    (hreward : checkedAdd state.chain.params.blockSubsidy sel.totalFees = some reward)
    (hconn : connectBlock (templateBlock state.chain.tip
      (blockTimestamp config.genesisTimestamp (state.chain.height + 1))
      (simTemplate config recipient)
      reward sel.chosen) state.chain.utxos state.chain.params = .ok (sel.totalFees, utxos)) :
    let block := templateBlock state.chain.tip
      (blockTimestamp config.genesisTimestamp (state.chain.height + 1))
      (simTemplate config recipient) reward sel.chosen
    mineNBlocks config (simTemplate config recipient) 1 state =
      .ok (state.mined ⟨block, sel.totalFees, sel.chosen.length⟩
        { state.chain with tip := block.header, utxos := utxos }
        (state.pool.removeAll (block.transactions.map Transaction.txid))) := by
  intro block
  have hbuild : buildBlockTemplate state.chain.tip
      (blockTimestamp config.genesisTimestamp (state.chain.height + 1)) state.pool state.chain.utxos
      (simTemplate config recipient) = .ok ⟨block, sel.totalFees, sel.chosen.length⟩ := by
    rw [← hparams] at hreward hconn
    refine buildBlockTemplate_eq_ok.mpr ⟨hheight, reward, utxos, ?_, ?_, ?_⟩
    · rw [hsel]
      exact hreward
    · rw [hsel]
      exact hconn
    · rw [hsel]
  have hlinks := template_linksTo rfl htime hbuild
  have hsubmit : state.chain.submitBlock block (some state.pool) =
      .ok (sel.totalFees, { state.chain with tip := block.header, utxos := utxos },
        some (state.pool.removeAll (block.transactions.map Transaction.txid))) :=
    Chain.submitBlock_ok.mpr ⟨hlinks, ⟨utxos, hconn, rfl⟩, rfl⟩
  rw [mineNBlocks, hbuild, ok_bind, hsubmit, ok_bind]
  rfl

def rewardTemplate : BlockTemplateParams := simTemplate rewardConfig zeroHash

def minedReward : Block :=
  templateBlock (buildGenesisBlock rewardConfig).header 1 rewardTemplate 50 []

def minedPayment : Block := templateBlock minedReward.header 2 rewardTemplate 50 [payment 0]

def nextReward : Transaction := makeCoinbase 2 50 zeroHash

def paidCoins : UtxoSet := UtxoSet.empty.insert ⟨(payment 0).txid, 0⟩ ⟨⟨50, zeroHash⟩, 2, false⟩

def openedRun : SimState :=
  ⟨⟨(buildGenesisBlock rewardConfig).header, UtxoSet.empty, ⟨50, 1⟩⟩,
    Mempool.new (resolveMempoolLimits rewardConfig {}), [buildGenesisBlock rewardConfig], {}⟩

def earnedRun : SimState :=
  openedRun.mined ⟨minedReward, 0, 0⟩ ⟨minedReward.header, rewardCoins, ⟨50, 1⟩⟩ openedRun.pool

def pooledRun : SimState :=
  earnedRun.admitted (earnedRun.pool.addEntry (Mempool.entryOf (payment 0) ⟨0, 92⟩))

def confirmedRun : SimState :=
  pooledRun.mined ⟨minedPayment, 0, 1⟩
    ⟨minedPayment.header, paidCoins.insert ⟨nextReward.txid, 0⟩ ⟨⟨50, zeroHash⟩, 2, true⟩, ⟨50, 1⟩⟩
    (pooledRun.pool.removeAll [nextReward.txid, (payment 0).txid])

theorem minedReward_length : minedReward.toBytes.length = 176 := by
  rw [block_toBytes_length]
  exact congrArg (84 + ·) (makeCoinbase_toBytes_length 1 50 zeroHash)

theorem minedPayment_length : minedPayment.toBytes.length = 268 := by
  have htxs : minedPayment.transactions = [nextReward, payment 0] := rfl
  rw [block_toBytes_length, htxs, List.map_cons, List.map_singleton, nextReward,
    makeCoinbase_toBytes_length, payment_length]
  rfl

theorem minedReward_connects :
    connectBlock minedReward UtxoSet.empty ⟨50, 1⟩ = .ok (0, rewardCoins) :=
  connectBlock_coinbase reward_sane rfl rfl rfl (by decide) rfl

theorem openedRun_mines : mineNBlocks rewardConfig rewardTemplate 1 openedRun = .ok earnedRun := by
  have hsel : templateSelection openedRun.chain.tip 1 openedRun.pool openedRun.chain.utxos
      rewardTemplate = ⟨UtxoSet.empty, 0, 176, []⟩ := by
    rw [templateSelection_eq]
    rfl
  exact mineNBlocks_one (by decide) rfl (by decide) hsel rfl minedReward_connects

theorem earnedRun_fits : earnedRun.pool.Fits (Mempool.entryOf (payment 0) ⟨0, 92⟩) :=
  payment_fits_new (by decide) (by decide)

theorem earnedRun_admits :
    admitTransactions ⟨0⟩ [payment 0] earnedRun = .ok pooledRun := by
  have haccept : earnedRun.pool.accept (payment 0) earnedRun.chain.utxos ⟨0⟩ =
      (.ok (), earnedRun.pool.addEntry (Mempool.entryOf (payment 0) ⟨0, 92⟩)) :=
    Mempool.accept_of_fits payment_admitted earnedRun_fits
  rw [admitTransactions, haccept]
  rfl

set_option maxRecDepth 100000 in
theorem nextReward_id : nextReward.txid ≠ (payment 0).txid := by
  have hid : reward.txid = _ := WordState.sha256d_eq reward.toBytes
  apply WordState.sha256d_ne
  rw [payment, hid]
  decide +kernel

theorem payment_applies : tryApply (payment 0) 2 rewardCoins = some paidCoins := by
  have hfree : UtxoSet.find UtxoSet.empty ⟨(payment 0).txid, 0⟩ = none := rfl
  have hout : (payment 0).outputs = [⟨50, zeroHash⟩] := rfl
  rw [tryApply, rewardCoins, spendInputs_only rfl, ok_bind, addOutputs_single hout hfree]
  rfl

theorem pooledRun_values :
    pooledRun.pool.byTxid.values = [Mempool.entryOf (payment 0) ⟨0, 92⟩] := by
  have hperm : pooledRun.pool.byTxid.values.Perm [Mempool.entryOf (payment 0) ⟨0, 92⟩] :=
    Mempool.values_addEntry rfl
  exact List.perm_singleton.mp hperm

theorem pooledRun_repInv : pooledRun.pool.RepInv := (Mempool.new_inv _).addEntry earnedRun_fits

theorem pooledRun_selects :
    templateSelection pooledRun.chain.tip 2 pooledRun.pool pooledRun.chain.utxos rewardTemplate =
      ⟨paidCoins, 0, 268, [payment 0]⟩ := by
  have hentries : pooledRun.pool.entriesByFeerate = [Mempool.entryOf (payment 0) ⟨0, 92⟩] := by
    rw [Mempool.entriesByFeerate, pooledRun_values]
    rfl
  have hmature : checkCoinbaseMaturity (payment 0) rewardCoins 2 1 = .ok () :=
    checkCoinbaseMaturity_single rfl rewardCoins_find (by decide)
  have hturn : considerEntry rewardTemplate 2 (Mempool.entryOf (payment 0) ⟨0, 92⟩)
      ⟨rewardCoins, 0, 176, []⟩ = ⟨paidCoins, 0, 268, [payment 0]⟩ :=
    considerEntry_takes (by decide) (payment_fee 0) hmature payment_applies rfl
  rw [templateSelection_eq, hentries]
  change selectTransactions rewardTemplate 2 [Mempool.entryOf (payment 0) ⟨0, 92⟩]
    ⟨rewardCoins, 0, 176, []⟩ = _
  rw [selectTransactions, if_neg (by decide), hturn, selectTransactions]

theorem pooledRun_mines :
    mineNBlocks rewardConfig rewardTemplate 1 pooledRun = .ok confirmedRun := by
  have hout : (payment 0).outputs = [⟨50, zeroHash⟩] := rfl
  have hpaid : nextReward.outputs = [⟨50, zeroHash⟩] := rfl
  have hconn : connectBlock minedPayment rewardCoins ⟨50, 1⟩ =
      .ok (0, paidCoins.insert ⟨nextReward.txid, 0⟩ ⟨⟨50, zeroHash⟩, 2, true⟩) :=
    connectBlock_pair (single_sane rfl rfl (by decide)) (payment_sane 0)
      rfl rfl nextReward_id rfl rfl
      hout (by decide) (by decide) hpaid rfl (by decide : (50 : UInt64) ≤ 50 + (50 - 50))
  exact mineNBlocks_one (by decide) rfl (by decide) pooledRun_selects rfl hconn

theorem confirmedRun_size : confirmedRun.pool.size = 0 := by
  have hpool : confirmedRun.pool =
      pooledRun.pool.removeAll [nextReward.txid, (payment 0).txid] := by
    rw [confirmedRun, SimState.mined]
  have hvalues : confirmedRun.pool.byTxid.values = [] := by
    refine List.eq_nil_iff_forall_not_mem.mpr fun e he => ?_
    rw [hpool] at he
    have hkept := (Mempool.mem_values_iff (pooledRun_repInv.removeAll _)).mp he
    rw [Mempool.find?_removeAll] at hkept
    have hmem := (Mempool.mem_values_iff pooledRun_repInv).mpr hkept.1
    rw [pooledRun_values, List.mem_singleton] at hmem
    refine hkept.2 (List.mem_pair.mpr (.inr ?_))
    rw [hmem, Mempool.entryOf]
  rw [← Mempool.values_length, hvalues]
  rfl

section Steps
variable (rest : List SimulatorStep)

theorem simulate_opened (step : SimulatorStep) (dir : DataDir) :
    simulate rewardConfig ⟨step :: rest, {}⟩ dir =
      runSteps rewardConfig rewardTemplate ⟨0⟩ (step :: rest) openedRun := by
  have hrecipient : resolveCoinbaseRecipient rewardConfig = .ok zeroHash := rfl
  rw [simulate, hrecipient, ok_bind, openState_genesis _ _ rfl, ok_bind]
  rfl

theorem runSteps_earned : runSteps rewardConfig rewardTemplate ⟨0⟩ (⟨[], 1⟩ :: rest) openedRun =
    runSteps rewardConfig rewardTemplate ⟨0⟩ rest earnedRun := by
  have hmined : mineNBlocks rewardConfig rewardTemplate (1 : UInt32).toNat openedRun =
      .ok earnedRun := openedRun_mines
  rw [runSteps, admitTransactions, ok_bind, hmined, ok_bind]

theorem runSteps_pooled :
    runSteps rewardConfig rewardTemplate ⟨0⟩ (⟨[payment 0], 0⟩ :: rest) earnedRun =
      runSteps rewardConfig rewardTemplate ⟨0⟩ rest pooledRun := by
  have hnone : mineNBlocks rewardConfig rewardTemplate (0 : UInt32).toNat pooledRun =
      .ok pooledRun := rfl
  rw [runSteps, earnedRun_admits, ok_bind, hnone, ok_bind]

theorem runSteps_confirmed :
    runSteps rewardConfig rewardTemplate ⟨0⟩ (⟨[payment 0], 1⟩ :: rest) earnedRun =
      runSteps rewardConfig rewardTemplate ⟨0⟩ rest confirmedRun := by
  have hmined : mineNBlocks rewardConfig rewardTemplate (1 : UInt32).toNat pooledRun =
      .ok confirmedRun := pooledRun_mines
  rw [runSteps, earnedRun_admits, ok_bind, hmined, ok_bind]

end Steps
end Blockchain
