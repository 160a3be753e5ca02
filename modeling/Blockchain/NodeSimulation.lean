import Blockchain.Durability
import Blockchain.FailedMessages
import Blockchain.Simulator

/-! A node that peers feed with transactions, and the simulator run on the same transactions.
The node mines after each transaction it takes; the simulator has one step for it. Both come to
the same chain, the same pool and the same ledger file. -/
namespace Blockchain
open Lib

/-- The script of a node: it mines when it comes up and then after each transaction. -/
def announceSteps (config : NodeConfig) (txs : List Transaction) : List SimulatorStep :=
  ⟨[], config.mineBlocks⟩ :: txs.map fun tx => ⟨[tx], config.mineAfterTx⟩

structure Mirrors (node : PeerState) (sim : SimState) : Prop where
  chain_eq : node.chain = sim.chain
  pool_eq : node.mempool = sim.pool
  ledger_eq : node.ledgerBlocks = sim.ledger

/-- The node has the settings of the configuration, so that it goes on as the simulator does. -/
structure Follows (config : NodeConfig) (recipient : Hash256) (node : PeerState) (sim : SimState) :
    Prop extends Mirrors node sim where
  inv : node.Inv config (buildConsensusParams config)
  tmpl_eq : node.tmplParams = simTemplate config recipient
  genesis_eq : node.genesisTimestamp = config.genesisTimestamp
  mine_eq : node.mineAfterTx = config.mineAfterTx

namespace Follows
variable {config : NodeConfig} {recipient : Hash256} {node : PeerState} {sim : SimState}

theorem fresh (config : NodeConfig) (recipient : Hash256) :
    Follows config recipient (PeerState.fresh config recipient)
      ⟨⟨(buildGenesisBlock config).header, UtxoSet.empty, buildConsensusParams config⟩,
        Mempool.new (resolveMempoolLimits config {}), [buildGenesisBlock config], {}⟩ where
  chain_eq := rfl
  pool_eq := rfl
  ledger_eq := rfl
  inv := PeerState.start_inv recipient (.create (create_genesis config _)) rfl
  tmpl_eq := rfl
  genesis_eq := rfl
  mine_eq := rfl

theorem nextTemplate (h : Follows config recipient node sim) :
    node.nextTemplate = buildBlockTemplate sim.chain.tip
      (blockTimestamp config.genesisTimestamp (sim.chain.height + 1)) sim.pool sim.chain.utxos
      (simTemplate config recipient) := by
  rw [PeerState.nextTemplate, h.chain_eq, h.pool_eq, h.genesis_eq, h.tmpl_eq]

theorem connected (h : Follows config recipient node sim) {tmpl : BlockTemplate} {fees : UInt64}
    {chain : Chain} {pool : Option Mempool}
    (hs : node.chain.submitBlock tmpl.block (some node.mempool) = .ok (fees, chain, pool)) :
    Follows config recipient (node.connected tmpl.block chain)
      (sim.mined tmpl chain (pool.getD sim.pool)) where
  chain_eq := rfl
  pool_eq := by
    obtain ⟨_, _, hpool⟩ := Chain.submitBlock_ok.mp hs
    rw [hpool]
    rfl
  ledger_eq := by
    rw [h.inv.ledgerBlocks_connected hs, h.ledger_eq]
    rfl
  inv := h.inv.connected hs
  tmpl_eq := h.tmpl_eq
  genesis_eq := h.genesis_eq
  mine_eq := h.mine_eq

theorem mineLoop (h : Follows config recipient node sim) (n : Nat) :
    (∃ next sim', PeerState.mineLoop n node = .ret (.ok (), next) ∧
      mineNBlocks config (simTemplate config recipient) n sim = .ok sim' ∧
      Follows config recipient next sim') ∨
    ∃ e next, PeerState.mineLoop n node = .ret (.error e, next) ∧
      mineNBlocks config (simTemplate config recipient) n sim = .error e := by
  induction n generalizing node sim with
  | zero => exact .inl ⟨node, sim, rfl, rfl, h⟩
  | succ n ih =>
    have hturn : PeerState.mineLoop (n + 1) node =
        (Action.ofExcept node.nextTemplate >>= fun tmpl =>
          PeerState.connectBlock tmpl.block >>= fun _ => PeerState.mineLoop n) node := by
      rw [PeerState.mineLoop, Action.bind_run, Action.state_run, Process.bind_ret_left]
    rw [hturn, Action.bind_run, Action.ofExcept_run, Process.bind_ret_left, mineNBlocks,
      ← h.nextTemplate]
    cases node.nextTemplate with
    | error e => exact .inr ⟨e, node, rfl, rfl⟩
    | ok tmpl =>
      rw [ok_bind, ← h.chain_eq, ← h.pool_eq]
      obtain ⟨e, hs, hrun⟩ | ⟨fees, chain, pool, hs, hrun⟩ :=
        PeerState.connectBlock_run tmpl.block node
      · refine .inr ⟨e, node, ?_, by rw [hs]; rfl⟩
        simp only [Action.bind_run, hrun, Process.bind_ret_left]
      · have hnext := h.connected hs
        rw [← h.pool_eq] at hnext
        simp only [Action.bind_run, hrun, Process.bind_ret_left, hs, ok_bind]
        exact ih hnext

theorem offered (h : Follows config recipient node sim) (tx : Transaction) :
    (∃ sim', admitTransactions (resolvedMempoolPolicy config) [tx] sim = .ok sim' ∧
      (node.mempool.accept tx node.chain.utxos node.mempoolPolicy).1 = .ok () ∧
      Follows config recipient (node.offered tx) sim') ∨
    ∃ e, admitTransactions (resolvedMempoolPolicy config) [tx] sim = .error e ∧
      (node.mempool.accept tx node.chain.utxos node.mempoolPolicy).1 = .error e := by
  have hinv : (node.offered tx).Inv config (buildConsensusParams config) :=
    PeerState.Inv.accept tx node h.inv _ _ (.ret _)
  have hsame : sim.pool.accept tx sim.chain.utxos (resolvedMempoolPolicy config) =
      node.mempool.accept tx node.chain.utxos node.mempoolPolicy := by
    rw [h.pool_eq, h.chain_eq, h.inv.policy_eq]
  cases haccept : node.mempool.accept tx node.chain.utxos node.mempoolPolicy with
  | mk result pool =>
    rw [haccept] at hsame
    have hpool : (node.offered tx).mempool = pool := by rw [PeerState.offered, haccept]
    cases result with
    | error e => exact .inr ⟨e, by simp only [admitTransactions, hsame], rfl⟩
    | ok u =>
      refine .inl ⟨sim.admitted pool, by simp only [admitTransactions, hsame], rfl, ?_⟩
      exact
        { chain_eq := h.chain_eq
          pool_eq := hpool
          ledger_eq := h.ledger_eq
          inv := hinv
          tmpl_eq := h.tmpl_eq
          genesis_eq := h.genesis_eq
          mine_eq := h.mine_eq }

theorem onTxAnnounce (h : Follows config recipient node sim) {msg : P2pMessage} {tx : Transaction}
    (hmsg : PeerState.AnnouncesTransaction msg tx) (rest : List SimulatorStep) :
    (∃ next sim', PeerState.onTxAnnounce msg.payload node =
        (if config.mineAfterTx > 0 then PeerState.persistLedger next else .ret (.ok (), next)) ∧
      runSteps config (simTemplate config recipient) (resolvedMempoolPolicy config)
          (⟨[tx], config.mineAfterTx⟩ :: rest) sim =
        runSteps config (simTemplate config recipient) (resolvedMempoolPolicy config) rest sim' ∧
      Follows config recipient next sim') ∨
    ∃ e next, PeerState.onTxAnnounce msg.payload node = .ret (.error e, next) ∧
      runSteps config (simTemplate config recipient) (resolvedMempoolPolicy config)
        (⟨[tx], config.mineAfterTx⟩ :: rest) sim = .error e := by
  rw [PeerState.onTxAnnounce_run hmsg.2, h.mine_eq, runSteps]
  obtain ⟨sim₁, htaken, haccept, hoffered⟩ | ⟨e, htaken, haccept⟩ := h.offered tx
  · simp only [htaken, haccept, ok_bind]
    by_cases hmine : config.mineAfterTx > 0
    · simp only [if_pos hmine, PeerState.mineBlocks, Action.bind_run]
      obtain ⟨next, sim₂, hloop, hmined, hnext⟩ | ⟨e, next, hloop, hmined⟩ :=
        hoffered.mineLoop config.mineAfterTx.toNat
      · exact .inl ⟨next, sim₂, by rw [hloop]; rfl, by rw [hmined, ok_bind], hnext⟩
      · exact .inr ⟨e, next, by rw [hloop]; rfl, by rw [hmined]; rfl⟩
    · have hzero : config.mineAfterTx.toNat = 0 := by
        have hnot := UInt32.lt_iff_toNat_lt.not.mp hmine
        simpa using hnot
      simp only [if_neg hmine, hzero, mineNBlocks, ok_bind]
      exact .inl ⟨_, sim₁, rfl, rfl, hoffered⟩
  · simp only [htaken, haccept]
    exact .inr ⟨e, _, rfl, rfl⟩

end Follows

theorem PeerState.announced_error_fails {msg : P2pMessage} {tx : Transaction}
    {state next : PeerState} (h : AnnouncesTransaction msg tx) {e : Error}
    (hrun : onTxAnnounce msg.payload state = .ret (.error e, next)) :
    (handleMessage msg).Ensures state fun r _ => ∃ e', r = .error e' := by
  have hfails : (sendReject .invalidMessage e.message >>= fun _ => Action.fail e :
      PeerAction Unit).Ensures next fun r _ => ∃ e', r = .error e' :=
    Action.ensures_bind (R := fun _ _ => True) (fun _ _ _ => trivial) (fun e' _ _ => ⟨e', rfl⟩)
      fun _ _ _ => Action.ensures_fail ⟨e, rfl⟩
  intro r last hr
  rw [handleMessage_announced_error h hrun] at hr
  exact hfails r last hr

section Together
variable {config : NodeConfig} {recipient : Hash256} {node : PeerState} {sim : SimState}

theorem Follows.handleAll (hpersist : config.persist = false)
    (h : Follows config recipient node sim) {msgs : List P2pMessage} {txs : List Transaction}
    (hmsgs : List.Forall₂ PeerState.AnnouncesTransaction msgs txs) :
    (∃ last sim', node.handleAll msgs = some last ∧
      runSteps config (simTemplate config recipient) (resolvedMempoolPolicy config)
        (txs.map fun tx => ⟨[tx], config.mineAfterTx⟩) sim = .ok sim' ∧
      Follows config recipient last sim') ∨
    (node.handleAll msgs = none ∧
      ∃ e, runSteps config (simTemplate config recipient) (resolvedMempoolPolicy config)
        (txs.map fun tx => ⟨[tx], config.mineAfterTx⟩) sim = .error e) := by
  induction hmsgs generalizing node sim with
  | nil => exact .inl ⟨node, sim, rfl, rfl, h⟩
  | @cons msg tx msgs txs hmsg _ ih =>
    obtain ⟨next, sim', hrun, hsteps, hnext⟩ | ⟨e, next, hrun, hsteps⟩ :=
      h.onTxAnnounce hmsg (txs.map fun tx => ⟨[tx], config.mineAfterTx⟩)
    · have hquiet : PeerState.onTxAnnounce msg.payload node = .ret (.ok (), next) := by
        rw [hrun, PeerState.persistLedger_off (hnext.inv.persist_eq.trans hpersist), ite_self]
      have hhandled : node.handled msg = (.ok (), next) := by
        rw [PeerState.handled, PeerState.handleMessage_announced_ok hmsg hquiet]
        rfl
      rw [List.map_cons, hsteps, PeerState.handleAll, hhandled]
      exact ih hnext
    · have herror : ∃ e', (node.handled msg).1 = .error e' :=
        PeerState.announced_error_fails hmsg hrun _ _
          (Process.returns_play PeerState.platformReply _)
      obtain ⟨e', herror⟩ := herror
      rw [List.map_cons, hsteps, PeerState.handleAll]
      refine .inr ⟨?_, e, rfl⟩
      cases hout : node.handled msg with
      | mk r last =>
        rw [hout] at herror
        cases herror
        rfl

theorem simulate_announced (hrestore : config.restore = false)
    (hrecipient : resolveCoinbaseRecipient config = .ok recipient) (dir : DataDir)
    (txs : List Transaction) :
    simulate config { steps := announceSteps config txs } dir =
      mineNBlocks config (simTemplate config recipient) config.mineBlocks.toNat
        ⟨⟨(buildGenesisBlock config).header, UtxoSet.empty, buildConsensusParams config⟩,
          Mempool.new (resolveMempoolLimits config {}), [buildGenesisBlock config], {}⟩ >>=
      runSteps config (simTemplate config recipient) (resolvedMempoolPolicy config)
        (txs.map fun tx => ⟨[tx], config.mineAfterTx⟩) := by
  rw [simulate, hrecipient, ok_bind, openState_genesis _ dir hrestore, ok_bind]
  rfl

end Together

/-- A node that peers announce transactions to, and the simulator on the script of the same
transactions: both run through and hold the same chain, pool and blocks, or neither does. -/
theorem announced_run_matches_simulator {config : NodeConfig} (hrestore : config.restore = false)
    (hpersist : config.persist = false) (dir : DataDir) {msgs : List P2pMessage}
    {txs : List Transaction} (hmsgs : List.Forall₂ PeerState.AnnouncesTransaction msgs txs) :
    (∃ start node sim, PeerState.fromConfig config dir = .ret (.ok start) ∧
      start.handleAll msgs = some node ∧
      simulate config { steps := announceSteps config txs } dir = .ok sim ∧ Mirrors node sim) ∨
    ∃ e, simulate config { steps := announceSteps config txs } dir = .error e ∧
      ∀ start, PeerState.fromConfig config dir = .ret (.ok start) →
        start.handleAll msgs = none := by
  cases hrecipient : resolveCoinbaseRecipient config with
  | error e =>
    refine .inr ⟨e, by rw [simulate, hrecipient]; rfl, ?_⟩
    intro start hstart
    simp [PeerState.fromConfig, hrecipient] at hstart
  | ok recipient =>
    rw [simulate_announced hrestore hrecipient]
    obtain ⟨start, sim, hloop, hmined, hfollows⟩ | ⟨e, last, hloop, hmined⟩ :=
      (Follows.fresh config recipient).mineLoop config.mineBlocks.toNat
    · have hstart := PeerState.fromConfig_of_loop hrecipient hrestore hpersist dir hloop
        fun _ => hfollows.inv.persist_eq.trans hpersist
      rw [hmined, ok_bind]
      obtain ⟨node, sim', hall, hsteps, hend⟩ | ⟨hnone, e, hsteps⟩ :=
        hfollows.handleAll hpersist hmsgs
      · exact .inl ⟨start, node, sim', hstart, hall, hsteps, hend.toMirrors⟩
      · refine .inr ⟨e, hsteps, ?_⟩
        intro start' hstart'
        rw [hstart] at hstart'
        cases hstart'
        exact hnone
    · have hstart := PeerState.fromConfig_of_loop hrecipient hrestore hpersist dir hloop
        fun he => by cases he
      refine .inr ⟨e, by rw [hmined]; rfl, ?_⟩
      intro start hstart'
      rw [hstart] at hstart'
      cases hstart'

/-! A node that mines a block when it comes up and another on a payment of its reward. -/

def minerConfig (persist : Bool) : NodeConfig :=
  { rewardConfig with mineBlocks := 1, mineAfterTx := 1, persist := persist }

theorem miner_starts (persist : Bool) :
    ∃ start, PeerState.mineLoop 1 (PeerState.fresh (minerConfig persist) zeroHash) =
        .ret (.ok (), start) ∧
      Follows (minerConfig persist) zeroHash start earnedRun := by
  have hconfig : mineNBlocks (minerConfig persist) rewardTemplate 1 =
      mineNBlocks rewardConfig rewardTemplate 1 := mineNBlocks_config rfl rewardTemplate 1
  have hopened := (congrFun hconfig openedRun).trans openedRun_mines
  have hfresh : Follows (minerConfig persist) zeroHash
      (PeerState.fresh (minerConfig persist) zeroHash) openedRun := Follows.fresh _ zeroHash
  obtain ⟨start, sim, hloop, hmined, hfollows⟩ | ⟨e, _, _, hmined⟩ := hfresh.mineLoop 1
  · obtain rfl : earnedRun = sim := Except.ok.inj (hopened.symm.trans hmined)
    exact ⟨start, hloop, hfollows⟩
  · cases hopened.symm.trans hmined

theorem miner_pays {persist : Bool} {start : PeerState}
    (h : Follows (minerConfig persist) zeroHash start earnedRun) :
    ∃ node, PeerState.onTxAnnounce (PeerState.txAnnounceMessage (payment 0)).payload start =
        PeerState.persistLedger node ∧
      Follows (minerConfig persist) zeroHash node confirmedRun := by
  have hannounces := PeerState.announcesTransaction_announce (payment_sane 0)
  have hconfig : runSteps (minerConfig persist) rewardTemplate ⟨0⟩ [⟨[payment 0], 1⟩] =
      runSteps rewardConfig rewardTemplate ⟨0⟩ [⟨[payment 0], 1⟩] := runSteps_config rfl _ _ _
  have hpaid : runSteps (minerConfig persist) rewardTemplate ⟨0⟩ [⟨[payment 0], 1⟩] earnedRun =
      .ok confirmedRun := by
    rw [hconfig, runSteps_confirmed, runSteps]
  obtain ⟨node, sim, hrun, hsteps, hfollows⟩ | ⟨e, _, _, hsteps⟩ := h.onTxAnnounce hannounces []
  · obtain rfl : confirmedRun = sim := Except.ok.inj (hpaid.symm.trans hsteps)
    exact ⟨node, hrun, hfollows⟩
  · cases hpaid.symm.trans hsteps

theorem payment_mined : ∃ start node,
    PeerState.fromConfig (minerConfig false) ⟨none, none⟩ = .ret (.ok start) ∧
    start.handleAll [PeerState.txAnnounceMessage (payment 0)] = some node ∧
    Follows (minerConfig false) zeroHash start earnedRun ∧
    Follows (minerConfig false) zeroHash node confirmedRun := by
  obtain ⟨start, hloop, hstart⟩ := miner_starts false
  obtain ⟨node, hpaid, hnode⟩ := miner_pays hstart
  rw [PeerState.persistLedger_off hnode.inv.persist_eq] at hpaid
  have hrecipient : resolveCoinbaseRecipient (minerConfig false) = .ok zeroHash := rfl
  have hrestore : (minerConfig false).restore = false := rfl
  have hpersist : (minerConfig false).persist = false := rfl
  refine ⟨start, node, ?_, ?_, hstart, hnode⟩
  · exact PeerState.fromConfig_of_loop hrecipient hrestore hpersist _ hloop
      fun _ => hstart.inv.persist_eq
  · rw [PeerState.handleAll, PeerState.handled, PeerState.handleMessage_announced_ok
      (PeerState.announcesTransaction_announce (payment_sane 0)) hpaid]
    rfl

/-- The payment is mined by the node and by the simulator. -/
theorem payment_simulated :
    ∃ start node sim, PeerState.fromConfig (minerConfig false) ⟨none, none⟩ = .ret (.ok start) ∧
      start.handleAll [PeerState.txAnnounceMessage (payment 0)] = some node ∧
      simulate (minerConfig false) { steps := announceSteps (minerConfig false) [payment 0] }
        ⟨none, none⟩ = .ok sim ∧
      Mirrors node sim ∧ start.height = 1 ∧ node.height = 2 := by
  have hannounces := PeerState.announcesTransaction_announce (payment_sane 0)
  obtain ⟨start, node, hstart, hall, hearned, hconfirmed⟩ := payment_mined
  have hrestore : (minerConfig false).restore = false := rfl
  have hpersist : (minerConfig false).persist = false := rfl
  obtain ⟨start', node', sim, hstart', hall', hsim, hmirrors⟩ | ⟨_, _, hnone⟩ :=
    announced_run_matches_simulator hrestore hpersist ⟨none, none⟩ (.cons hannounces .nil)
  · rw [hstart] at hstart'
    cases hstart'
    obtain rfl : node = node' := Option.some.inj (hall.symm.trans hall')
    refine ⟨start, node, sim, hstart, hall, hsim, hmirrors, ?_, ?_⟩
    · rw [PeerState.height, hearned.chain_eq]
      rfl
    · rw [PeerState.height, hconfirmed.chain_eq]
      rfl
  · rw [hnone start hstart] at hall
    cases hall

/-! With a data directory. -/

/-- The messages are handled one after the other, each without error. -/
inductive FedOnDisk : PeerState → DataDir → List P2pMessage → PeerState → DataDir → Prop where
  | done {state : PeerState} {dir : DataDir} : FedOnDisk state dir [] state dir
  | next {state next last : PeerState} {dir dir' dir'' : DataDir} {msg : P2pMessage}
      {msgs : List P2pMessage} {ops : List NodeOp}
      (h : (PeerState.handleMessage msg state).RunsTo diskEnv dir ops (.ret (.ok (), next)) dir')
      (hrest : FedOnDisk next dir' msgs last dir'') : FedOnDisk state dir (msg :: msgs) last dir''

def Saved (node : PeerState) (dir : DataDir) : Prop :=
  ∃ bytes,
    ledgerBytes node.ledgerBlocks node.consensus node.mempool.sortedTransactions = .ok bytes ∧
    dir = ⟨some bytes, none⟩

theorem PeerState.persistLedger_saved {state next : PeerState} {dir dir' : DataDir}
    {ops : List NodeOp} (hpersist : state.persist = true)
    (h : (persistLedger state).RunsTo diskEnv dir ops (.ret (.ok (), next)) dir') :
    next = state ∧ Saved state dir' := by
  simp only [persistLedger, Action.bind_run, Action.state_run, Process.bind_ret_left, hpersist,
    if_true, PeerState.saveLedger, Action.ofExcept_run] at h
  cases hbytes : ledgerBytes state.ledgerBlocks state.consensus
    state.mempool.sortedTransactions with
  | error e =>
    rw [hbytes] at h
    obtain ⟨_, hret, _⟩ := Process.runsTo_ret.mp h
    cases hret
  | ok bytes =>
    rw [hbytes] at h
    cases h with
    | @step _ _ answer _ _ _ _ _ hop hrest =>
      obtain ⟨env, hclose, hwritten⟩ := hop
      obtain ⟨_, hret, rfl⟩ := Process.runsTo_ret.mp hrest
      cases hret
      exact ⟨rfl, bytes, hbytes, writeLedger_ok hclose hwritten⟩

theorem PeerState.handleMessage_announced_runs {msg : P2pMessage} {tx : Transaction}
    {state next : PeerState} (hmsg : AnnouncesTransaction msg tx) {dir dir' : DataDir}
    {ops : List NodeOp}
    (h : (handleMessage msg state).RunsTo diskEnv dir ops (.ret (.ok (), next)) dir') :
    ∃ ops', (onTxAnnounce msg.payload state).RunsTo diskEnv dir ops'
      (.ret (.ok (), next)) dir' := by
  obtain ⟨parsed, hparse⟩ := hmsg.parse
  simp only [handleMessage, hmsg.1, hparse, Action.bind_run, Action.ofExcept_run,
    Process.bind_ret_left, Action.attempt, Process.bind_assoc] at h
  obtain ⟨⟨r, s⟩, mid, first, second, _, hfirst, hsecond⟩ := h.bind_ret
  cases r with
  | ok u =>
    obtain ⟨_, hret, rfl⟩ := Process.runsTo_ret.mp hsecond
    cases hret
    exact ⟨first, hfirst⟩
  | error e =>
    obtain ⟨⟨r', s'⟩, _, _, _, _, _, hthen⟩ := hsecond.bind_ret
    cases r' with
    | ok u =>
      obtain ⟨_, hret, _⟩ := Process.runsTo_ret.mp hthen
      cases hret
    | error e' =>
      obtain ⟨_, hret, _⟩ := Process.runsTo_ret.mp hthen
      cases hret

theorem PeerState.handleMessage_announced_taken {msg : P2pMessage} {tx : Transaction}
    {state next : PeerState} (hmsg : AnnouncesTransaction msg tx) {dir dir' : DataDir}
    {ops : List NodeOp}
    (h : (onTxAnnounce msg.payload state).RunsTo diskEnv dir ops (.ret (.ok (), next)) dir') :
    (handleMessage msg state).RunsTo diskEnv dir ops (.ret (.ok (), next)) dir' := by
  obtain ⟨parsed, hparse⟩ := hmsg.parse
  simp only [handleMessage, hmsg.1, hparse, Action.bind_run, Action.ofExcept_run,
    Process.bind_ret_left, Action.attempt, Process.bind_assoc]
  exact h.bind

section Disk
variable {config : NodeConfig} {recipient : Hash256} {node last : PeerState} {sim : SimState}
  {dir dir' : DataDir}

theorem Follows.fed (hpersist : config.persist = true) (hmine : config.mineAfterTx > 0)
    (h : Follows config recipient node sim) (hsaved : Saved node dir) {msgs : List P2pMessage}
    {txs : List Transaction} (hmsgs : List.Forall₂ PeerState.AnnouncesTransaction msgs txs)
    (hfed : FedOnDisk node dir msgs last dir') :
    ∃ sim', runSteps config (simTemplate config recipient) (resolvedMempoolPolicy config)
        (txs.map fun tx => ⟨[tx], config.mineAfterTx⟩) sim = .ok sim' ∧
      Follows config recipient last sim' ∧ Saved last dir' := by
  induction hmsgs generalizing node sim dir with
  | nil =>
    cases hfed
    exact ⟨sim, rfl, h, hsaved⟩
  | @cons msg tx msgs txs hmsg _ ih =>
    cases hfed with
    | @next _ next _ _ mid _ _ _ _ hhandled hrest =>
      obtain ⟨ops, hran⟩ := PeerState.handleMessage_announced_runs hmsg hhandled
      obtain ⟨next', sim', hrun, hsteps, hnext⟩ | ⟨e, next', hrun, _⟩ :=
        h.onTxAnnounce hmsg (txs.map fun tx => ⟨[tx], config.mineAfterTx⟩)
      · rw [hrun, if_pos hmine] at hran
        obtain ⟨rfl, hsaved'⟩ :=
          PeerState.persistLedger_saved (hnext.inv.persist_eq.trans hpersist) hran
        rw [List.map_cons, hsteps]
        exact ih hnext hsaved' hrest
      · rw [hrun] at hran
        obtain ⟨_, hret, _⟩ := Process.runsTo_ret.mp hran
        cases hret

theorem Follows.started (hrestore : config.restore = false) (hpersist : config.persist = true)
    {ops : List NodeOp}
    (h : (PeerState.fromConfig config dir).RunsTo diskEnv dir ops (.ret (.ok node)) dir') :
    ∃ recipient sim, resolveCoinbaseRecipient config = .ok recipient ∧
      mineNBlocks config (simTemplate config recipient) config.mineBlocks.toNat
        ⟨⟨(buildGenesisBlock config).header, UtxoSet.empty, buildConsensusParams config⟩,
          Mempool.new (resolveMempoolLimits config {}), [buildGenesisBlock config], {}⟩ = .ok sim ∧
      Follows config recipient node sim ∧ Saved node dir' := by
  cases hrecipient : resolveCoinbaseRecipient config with
  | error e =>
    simp only [PeerState.fromConfig, hrecipient] at h
    obtain ⟨_, hret, _⟩ := Process.runsTo_ret.mp h
    cases hret
  | ok recipient =>
    rw [PeerState.fromConfig_launch hrecipient hrestore, PeerState.launch] at h
    obtain ⟨⟨r, s⟩, mid, first, second, _, hwork, hend⟩ := h.bind_ret
    obtain ⟨_, hret, rfl⟩ := Process.runsTo_ret.mp hend
    obtain ⟨next, sim, hloop, hmined, hnext⟩ | ⟨e, next, hloop, _⟩ :=
      (Follows.fresh config recipient).mineLoop config.mineBlocks.toNat
    · have hon : next.persist = true := hnext.inv.persist_eq.trans hpersist
      rw [PeerState.mineAndPersist_saves hpersist hloop] at hwork
      obtain ⟨⟨r₁, s₁⟩, _, _, _, _, hfirst, hsecond⟩ := hwork.bind_ret
      cases r₁ with
      | error e =>
        obtain ⟨_, hret', _⟩ := Process.runsTo_ret.mp hsecond
        cases hret'
        cases hret
      | ok u =>
        obtain ⟨rfl, _⟩ := PeerState.persistLedger_saved hon hfirst
        cases r with
        | error e => cases hret
        | ok u =>
          obtain ⟨rfl, hsaved⟩ := PeerState.persistLedger_saved hon hsecond
          cases hret
          exact ⟨recipient, sim, rfl, hmined, hnext, hsaved⟩
    · have hstops : PeerState.mineAndPersist config (PeerState.fresh config recipient) =
          .ret (.error e, next) := by
        simp only [PeerState.mineAndPersist, PeerState.mineBlocks, Action.bind_run, hloop,
          Process.bind_ret_left]
      rw [hstops] at hwork
      obtain ⟨_, hret', _⟩ := Process.runsTo_ret.mp hwork
      cases hret'
      cases hret

end Disk

/-- A saving node that has taken announced transactions leaves the data directory as the
simulator leaves it on the script of the same transactions, and the simulator's summary
describes the node. -/
theorem announced_ledger_matches_simulator {config : NodeConfig} (hrestore : config.restore = false)
    (hpersist : config.persist = true) (hmine : config.mineAfterTx > 0) {dir dir' dir'' : DataDir}
    {start node : PeerState} {ops : List NodeOp}
    (hstart : (PeerState.fromConfig config dir).RunsTo diskEnv dir ops (.ret (.ok start)) dir')
    {msgs : List P2pMessage} {txs : List Transaction}
    (hmsgs : List.Forall₂ PeerState.AnnouncesTransaction msgs txs)
    (hfed : FedOnDisk start dir' msgs node dir'') :
    ∃ summary, runSimulator config { steps := announceSteps config txs } {} dir =
        (.ok summary, dir'') ∧
      summary.height = node.height ∧ summary.tipHash = node.tipHash ∧
      summary.utxoCount = node.chain.utxos.size := by
  obtain ⟨recipient, sim, hrecipient, hmined, hfollows, hsaved⟩ :=
    Follows.started hrestore hpersist hstart
  obtain ⟨sim', hsteps, hend, bytes, hbytes, rfl⟩ := hfollows.fed hpersist hmine hsaved hmsgs hfed
  have hsim : simulate config { steps := announceSteps config txs } dir = .ok sim' := by
    rw [simulate_announced hrestore hrecipient, hmined, ok_bind, hsteps]
  have hsave : saveLedger sim'.ledger (buildConsensusParams config) sim'.pool.sortedTransactions {}
      dir = (.ok (), ⟨some bytes, none⟩) := by
    rw [hend.ledger_eq, hend.inv.consensus_eq, hend.pool_eq] at hbytes
    rw [saveLedger, hbytes]
    rfl
  refine ⟨summaryFromChain (buildGenesisBlock config) sim' config.restore, ?_, ?_, ?_, ?_⟩
  · simp only [runSimulator, hsim, hpersist, Bool.true_eq_false, if_false, hsave]
  · rw [PeerState.height, hend.chain_eq]
    rfl
  · rw [PeerState.tipHash, hend.chain_eq]
    rfl
  · rw [hend.chain_eq]
    rfl

/-! The same node on a disk that does not fail. -/

theorem Follows.saves {config : NodeConfig} {recipient : Hash256} {node : PeerState}
    {sim : SimState}
    (h : Follows config recipient node sim) (hpersist : config.persist = true)
    (hblocks : sim.ledger.length ≤ kMaxLedgerBlocks.toNat) (hpool : sim.pool.size = 0)
    (dir : DataDir) :
    ∃ bytes, (PeerState.persistLedger node).RunsTo diskEnv dir
      [.loc (.writeLedger node.dataDir bytes)] (.ret (.ok (), node)) ⟨some bytes, none⟩ := by
  have hfits : node.FitsLedger := by
    refine ⟨by rw [h.ledger_eq]; exact hblocks, ?_⟩
    rw [h.pool_eq, hpool]
    exact Nat.zero_le _
  obtain ⟨_, bytes, _, hbytes, _⟩ := h.inv.ledger_round_trip hfits
  exact ⟨bytes, PeerState.persistLedger_runs (h.inv.persist_eq.trans hpersist) hbytes⟩

theorem Follows.starts_saving {config : NodeConfig} {recipient : Hash256} {node : PeerState}
    {sim : SimState} (h : Follows config recipient node sim)
    (hrecipient : resolveCoinbaseRecipient config = .ok recipient)
    (hrestore : config.restore = false) (hpersist : config.persist = true)
    (hloop : PeerState.mineLoop config.mineBlocks.toNat (PeerState.fresh config recipient) =
      .ret (.ok (), node))
    (hblocks : sim.ledger.length ≤ kMaxLedgerBlocks.toNat) (hpool : sim.pool.size = 0)
    (dir : DataDir) :
    ∃ bytes ops, (PeerState.fromConfig config dir).RunsTo diskEnv dir ops (.ret (.ok node))
      ⟨some bytes, none⟩ := by
  obtain ⟨bytes, hfirst⟩ := h.saves hpersist hblocks hpool dir
  obtain ⟨bytes', hsecond⟩ := h.saves hpersist hblocks hpool ⟨some bytes, none⟩
  have hruns : ((PeerState.persistLedger >>= fun _ => PeerState.persistLedger) node).RunsTo diskEnv
      dir _ (.ret (.ok (), node)) ⟨some bytes', none⟩ := hfirst.bind.trans hsecond
  rw [← PeerState.mineAndPersist_saves hpersist hloop] at hruns
  rw [PeerState.fromConfig_launch hrecipient hrestore, PeerState.launch]
  exact ⟨bytes', _, hruns.bind⟩

/-- The node and the simulator leave the same ledger file, with the payment in its last
block. -/
theorem payment_ledger_simulated :
    ∃ start node dir dir' summary ops,
      (PeerState.fromConfig (minerConfig true) ⟨none, none⟩).RunsTo diskEnv ⟨none, none⟩ ops
        (.ret (.ok start)) dir ∧
      FedOnDisk start dir [PeerState.txAnnounceMessage (payment 0)] node dir' ∧
      node.ledgerBlocks = [buildGenesisBlock rewardConfig, minedReward, minedPayment] ∧
      runSimulator (minerConfig true) { steps := announceSteps (minerConfig true) [payment 0] } {}
        ⟨none, none⟩ = (.ok summary, dir') ∧
      summary.height = node.height ∧ summary.tipHash = node.tipHash ∧
      summary.utxoCount = node.chain.utxos.size := by
  have hannounces := PeerState.announcesTransaction_announce (payment_sane 0)
  obtain ⟨start, hloop, hstart⟩ := miner_starts true
  obtain ⟨file, ops, hup⟩ :=
    hstart.starts_saving rfl rfl rfl hloop (by decide) rfl ⟨none, none⟩
  obtain ⟨node, hpaid, hnode⟩ := miner_pays hstart
  obtain ⟨bytes, hsaved⟩ := hnode.saves rfl (by decide) confirmedRun_size ⟨some file, none⟩
  rw [← hpaid] at hsaved
  have hfed := FedOnDisk.next (PeerState.handleMessage_announced_taken hannounces hsaved) .done
  obtain ⟨summary, hrun, hsummary⟩ :=
    announced_ledger_matches_simulator rfl rfl (by decide) hup (.cons hannounces .nil) hfed
  exact ⟨start, node, _, _, summary, ops, hup, hfed, hnode.ledger_eq, hrun, hsummary⟩

end Blockchain
