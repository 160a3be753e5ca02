import Blockchain.Simulator

/-! Restart transparency: stopping after some steps, saving, and resuming from the ledger is
the same as not stopping. The counters of a run start anew, and nothing else depends on
them. -/
namespace Blockchain
open Lib

def SimState.core (state : SimState) : Chain × Mempool × List Block :=
  (state.chain, state.pool, state.ledger)

/-- A phase of a run whose outcome does not depend on the counters. -/
def CoreOnly (phase : SimState → Result SimState) : Prop :=
  ∀ a b, a.core = b.core → (phase a).map SimState.core = (phase b).map SimState.core

theorem SimState.core_eq {a b : SimState} :
    a.core = b.core ↔ a.chain = b.chain ∧ a.pool = b.pool ∧ a.ledger = b.ledger := by
  simp [SimState.core]

theorem CoreOnly.bind {phase next : SimState → Result SimState} (h : CoreOnly phase)
    (hnext : CoreOnly next) : CoreOnly fun state => phase state >>= next := by
  intro a b hab
  have hphase := h a b hab
  cases ha : phase a with
  | error e =>
    cases hb : phase b with
    | error e' => simpa [ha, hb, Except.map] using hphase
    | ok b' => simp [ha, hb, Except.map] at hphase
  | ok a' =>
    cases hb : phase b with
    | error e => simp [ha, hb, Except.map] at hphase
    | ok b' =>
      rw [ha, hb] at hphase
      simp only [ha, hb, ok_bind]
      exact hnext a' b' (Except.ok.inj hphase)

theorem admitTransactions_core (policy : MempoolPolicy) (txs : List Transaction) :
    CoreOnly (admitTransactions policy txs) := by
  induction txs with
  | nil =>
    intro a b hab
    simp only [admitTransactions, Except.map, hab]
  | cons tx txs ih =>
    intro a b hab
    obtain ⟨hchain, hpool, hledger⟩ := SimState.core_eq.mp hab
    rw [admitTransactions, admitTransactions, hchain, hpool]
    cases b.pool.accept tx b.chain.utxos policy with
    | mk result pool =>
      cases result with
      | error e => rfl
      | ok u => exact ih _ _ (SimState.core_eq.mpr ⟨hchain, rfl, hledger⟩)

theorem mineNBlocks_core (config : NodeConfig) (tmplParams : BlockTemplateParams) (n : Nat) :
    CoreOnly (mineNBlocks config tmplParams n) := by
  induction n with
  | zero =>
    intro a b hab
    simp only [mineNBlocks, Except.map, hab]
  | succ n ih =>
    intro a b hab
    obtain ⟨hchain, hpool, hledger⟩ := SimState.core_eq.mp hab
    rw [mineNBlocks, mineNBlocks, hchain, hpool]
    cases buildBlockTemplate b.chain.tip
      (blockTimestamp config.genesisTimestamp (b.chain.height + 1))
        b.pool b.chain.utxos tmplParams with
    | error e => rfl
    | ok tmpl =>
      rw [ok_bind, ok_bind]
      cases b.chain.submitBlock tmpl.block (some b.pool) with
      | error e => rfl
      | ok r =>
        refine ih _ _ (SimState.core_eq.mpr ⟨rfl, rfl, ?_⟩)
        simp only [SimState.mined, hledger]

theorem runSteps_core (config : NodeConfig) (tmplParams : BlockTemplateParams)
    (policy : MempoolPolicy) (steps : List SimulatorStep) :
    CoreOnly (runSteps config tmplParams policy steps) := by
  induction steps with
  | nil =>
    intro a b hab
    simp only [runSteps, Except.map, hab]
  | cons step steps ih =>
    exact (admitTransactions_core policy step.submitTxs).bind
      ((mineNBlocks_core config tmplParams step.mineBlocks.toNat).bind ih)

theorem runSteps_append (config : NodeConfig) (tmplParams : BlockTemplateParams)
    (policy : MempoolPolicy) (xs ys : List SimulatorStep) (state : SimState) :
    runSteps config tmplParams policy (xs ++ ys) state =
      runSteps config tmplParams policy xs state >>= runSteps config tmplParams policy ys := by
  induction xs generalizing state with
  | nil => rfl
  | cons step xs ih =>
    rw [List.cons_append, runSteps, runSteps, bind_assoc]
    refine congrArg _ (funext fun s => ?_)
    rw [bind_assoc]
    exact congrArg _ (funext fun t => ih t)

theorem mineNBlocks_config {config config' : NodeConfig}
    (h : config.genesisTimestamp = config'.genesisTimestamp) (tmplParams : BlockTemplateParams)
    (n : Nat) : mineNBlocks config tmplParams n = mineNBlocks config' tmplParams n := by
  induction n with
  | zero => rfl
  | succ n ih =>
    funext state
    rw [mineNBlocks, mineNBlocks, h, ih]

theorem runSteps_config {config config' : NodeConfig}
    (h : config.genesisTimestamp = config'.genesisTimestamp) (tmplParams : BlockTemplateParams)
    (policy : MempoolPolicy) (steps : List SimulatorStep) :
    runSteps config tmplParams policy steps = runSteps config' tmplParams policy steps := by
  induction steps with
  | nil => rfl
  | cons step steps ih =>
    funext state
    rw [runSteps, runSteps, mineNBlocks_config h, ih]

def NodeConfig.withFlags (config : NodeConfig) (persist restore : Bool) : NodeConfig :=
  { config with persist := persist, restore := restore }

theorem simulate_steps {config : NodeConfig} {recipient : Hash256} (hmine : config.mineBlocks = 0)
    (hrecipient : resolveCoinbaseRecipient config = .ok recipient) (persist restore : Bool)
    (options : SimulatorOptions) (dir : DataDir) :
    simulate (config.withFlags persist restore) options dir =
      openState (config.withFlags persist restore) options dir >>=
        runSteps config (simTemplate config recipient) (resolvedMempoolPolicy config)
          options.steps := by
  have hsame : resolveCoinbaseRecipient (config.withFlags persist restore) = .ok recipient :=
    hrecipient
  have hmine' : (config.withFlags persist restore).mineBlocks = 0 := hmine
  have htime : (config.withFlags persist restore).genesisTimestamp = config.genesisTimestamp := rfl
  rw [simulate, hsame, ok_bind]
  refine congrArg _ (funext fun state => ?_)
  cases hsteps : options.steps with
  | nil =>
    simp only [List.isEmpty_nil, if_true, hmine']
    rfl
  | cons step steps =>
    simp only [List.isEmpty_cons, Bool.false_eq_true, if_false]
    rw [runSteps_config htime]
    rfl

/-! Saving and opening. -/

theorem saveLedger_ok {blocks : List Block} {params : ConsensusParams} {mempool : List Transaction}
    {env : SaveEnv} {dir saved : DataDir} (hclose : env.closeStops = none)
    (h : saveLedger blocks params mempool env dir = (.ok (), saved)) :
    ∃ bytes, encodeLedger blocks params mempool = .ok bytes ∧ saved.ledger = some bytes := by
  unfold saveLedger at h
  cases hbytes : ledgerBytes blocks params mempool with
  | error e => simp [hbytes] at h
  | ok bytes =>
    simp only [hbytes] at h
    refine ⟨bytes, (ledgerBytes_ok.mp hbytes).2, ?_⟩
    rw [writeLedger_ok hclose h]

theorem saveLedger_result (blocks : List Block) (params : ConsensusParams)
    (mempool : List Transaction) (env : SaveEnv) (dir dir' : DataDir) :
    (saveLedger blocks params mempool env dir).1 =
      (saveLedger blocks params mempool env dir').1 := by
  unfold saveLedger
  cases ledgerBytes blocks params mempool with
  | error e => rfl
  | ok bytes =>
    obtain ⟨_, hall⟩ | ⟨_, e, hall⟩ := writeLedger_cases bytes env
    · simp only [hall dir, hall dir']
    · obtain ⟨temp, hdir⟩ := hall dir
      obtain ⟨temp', hdir'⟩ := hall dir'
      simp only [hdir, hdir']

theorem SimState.Inv.sorted_sane {config : NodeConfig} {limits : MempoolLimits} {state : SimState}
    (h : state.Inv config limits) : ∀ tx ∈ state.pool.sortedTransactions, tx.Sane := by
  intro tx htx
  rw [h.pool.sortedTransactions_eq] at htx
  obtain ⟨e, he, rfl⟩ := List.mem_map.mp htx
  exact (validateForMempool_ok (h.valid _ _ ((Mempool.mem_values_iff h.pool).mp he))).1

theorem SimState.Inv.reopen {config : NodeConfig} {options : SimulatorOptions} {state : SimState}
    (h : state.Inv config (resolveMempoolLimits config options)) (hrestore : config.restore = true)
    {dir : DataDir} {bytes : Bytes}
    (henc : encodeLedger state.ledger (buildConsensusParams config) state.pool.sortedTransactions =
      .ok bytes)
    (hdir : dir.ledger = some bytes) (hlen : bytes.length ≤ kMaxLedgerFileBytes) :
    openState config options dir = .ok ⟨state.chain, state.pool, state.ledger, {}⟩ := by
  have hlimits := (encodeLedger_eq_ok.mp henc).1
  have hstore := h.accepted.storable hlimits.blocks_le hlimits.mempool_le h.sorted_sane
  have hdecode := decodeLedger_encodeLedger hstore (fun _ _ hi => h.accepted.block_height hi) henc
  have hload : loadLedger dir =
      .ok ⟨state.ledger, buildConsensusParams config, state.pool.sortedTransactions⟩ := by
    rw [loadLedger_of_fits hdir hlen, hdecode]
  have hexists : ledgerExists dir = true := by
    rw [encodeLedger_ok hstore.encodable] at henc
    simp [ledgerExists, hdir, ← Except.ok.inj henc, withLedgerChecksum]
  have hrestored := Mempool.restoreMempool_sorted h.pool h.valid
  rw [h.limits_eq] at hrestored
  simp only [openState, openChain, hrestore, hexists, hload, h.genesis, ok_bind,
    consensusParamsMatch, replayLoadedChain, h.accepted.replaySequence, hrestored, beq_self_eq_true,
    Bool.and_self, Bool.true_eq_false, if_false, Option.map_some, ne_eq, not_true_eq_false]

theorem runSimulator_congr {config config' : NodeConfig} {options options' : SimulatorOptions}
    {env : SaveEnv} {dir dir' : DataDir}
    (hconsensus : buildConsensusParams config = buildConsensusParams config')
    (hpersist : config.persist = config'.persist)
    (h : (simulate config options dir).map SimState.core =
      (simulate config' options' dir').map SimState.core)
    {summary : SimulatorSummary} (hrun : (runSimulator config options env dir).1 = .ok summary) :
    ∃ summary' a b, (runSimulator config' options' env dir').1 = .ok summary' ∧
      simulate config options dir = .ok a ∧ simulate config' options' dir' = .ok b ∧
      a.core = b.core ∧ summary.tipHash = summary'.tipHash ∧ summary.height = summary'.height := by
  obtain ⟨a, ha, hsummary, hsaved⟩ := runSimulator_ok.mp hrun
  rw [ha] at h
  cases hb : simulate config' options' dir' with
  | error e => simp [hb, Except.map] at h
  | ok b =>
    rw [hb] at h
    have hcore : a.core = b.core := Except.ok.inj h
    obtain ⟨hchain, hpool, hledger⟩ := SimState.core_eq.mp hcore
    refine ⟨_, a, b, runSimulator_ok.mpr ⟨b, hb, rfl, ?_⟩, ha, rfl, hcore, ?_, ?_⟩
    · intro hp
      rw [← hsaved (hpersist.trans hp), ← hconsensus, ← hpool, ← hledger]
      exact saveLedger_result _ _ _ _ _ _
    · simp only [hsummary, summaryFromChain, hchain]
    · simp only [hsummary, summaryFromChain, hchain]

theorem runSimulator_saved {config : NodeConfig} {options : SimulatorOptions} {env : SaveEnv}
    {dir saved : DataDir} {summary : SimulatorSummary} (hpersist : config.persist = true) :
    runSimulator config options env dir = (.ok summary, saved) ↔
      ∃ state, simulate config options dir = .ok state ∧
        summary = summaryFromChain (buildGenesisBlock config) state config.restore ∧
        saveLedger state.ledger (buildConsensusParams config)
          state.pool.sortedTransactions env dir =
          (.ok (), saved) := by
  unfold runSimulator
  cases hsim : simulate config options dir with
  | error e => simp
  | ok state =>
    simp only [hpersist, Bool.true_eq_false, if_false, Except.ok.injEq, exists_eq_left']
    cases hsave : saveLedger state.ledger (buildConsensusParams config)
        state.pool.sortedTransactions env dir with
    | mk result after => cases result <;> simp [eq_comm]

theorem simulate_resumed {config : NodeConfig} (hmine : config.mineBlocks = 0)
    {limits : MempoolLimits} {steps₁ : List SimulatorStep} (steps₂ : List SimulatorStep)
    {env : SaveEnv} {dir saved : DataDir} (dir' : DataDir) {first : SimulatorSummary}
    (persist : Bool)
    (hclose : env.closeStops = none)
    (hfirst : runSimulator (config.withFlags true false) ⟨steps₁, limits⟩
      env dir = (.ok first, saved))
    (hfits : ∀ bytes, saved.ledger = some bytes → bytes.length ≤ kMaxLedgerFileBytes) :
    (simulate (config.withFlags persist true) ⟨steps₂, limits⟩ saved).map SimState.core =
      (simulate (config.withFlags persist false) ⟨steps₁ ++ steps₂, limits⟩ dir').map
        SimState.core := by
  obtain ⟨state, hsim, _, hsave⟩ := (runSimulator_saved rfl).mp hfirst
  obtain ⟨recipient, start, events, hrecipient, hstart, hrun, _⟩ := simulate_run hsim
  have hrecipient' : resolveCoinbaseRecipient config = .ok recipient := hrecipient
  rw [openState_genesis _ _ rfl] at hstart
  have hinv : state.Inv (config.withFlags true false)
      (resolveMempoolLimits config ⟨steps₁, limits⟩) := by
    rw [← Except.ok.inj hstart] at hrun
    exact (SimState.Inv.genesisState _).run hrun
  obtain ⟨bytes, henc, hledger⟩ := saveLedger_ok hclose hsave
  have hinv' : state.Inv (config.withFlags persist true)
      (resolveMempoolLimits (config.withFlags persist true) ⟨steps₂, limits⟩) :=
    ⟨hinv.accepted, hinv.genesis, hinv.pool, hinv.limits_eq, hinv.valid⟩
  have hreopen := hinv'.reopen rfl henc hledger (hfits bytes hledger)
  rw [simulate_steps hmine hrecipient', openState_genesis _ _ rfl, ok_bind] at hsim
  rw [simulate_steps hmine hrecipient', hreopen, ok_bind, simulate_steps hmine hrecipient',
    openState_genesis _ _ rfl, ok_bind, runSteps_append]
  have hmid : runSteps config (simTemplate config recipient) (resolvedMempoolPolicy config) steps₁
      ⟨⟨(buildGenesisBlock (config.withFlags persist false)).header, UtxoSet.empty,
        buildConsensusParams (config.withFlags persist false)⟩,
        Mempool.new (resolveMempoolLimits (config.withFlags persist false)
          ⟨steps₁ ++ steps₂, limits⟩),
        [buildGenesisBlock (config.withFlags persist false)], {}⟩ = .ok state := hsim
  rw [hmid, ok_bind]
  exact runSteps_core _ _ _ _ _ _ rfl

/-- Stopping a run after some steps and resuming it from the saved ledger succeeds exactly
when the uninterrupted run does, and both end in the same tip, UTXO set and pool. -/
theorem restart_transparent {config : NodeConfig} (hmine : config.mineBlocks = 0)
    {limits : MempoolLimits} {steps₁ steps₂ : List SimulatorStep} {env₁ env : SaveEnv}
    {dir dir' saved : DataDir} {first : SimulatorSummary} {persist : Bool}
    (hclose : env₁.closeStops = none)
    (hfirst : runSimulator (config.withFlags true false) ⟨steps₁, limits⟩
      env₁ dir = (.ok first, saved))
    (hfits : ∀ bytes, saved.ledger = some bytes → bytes.length ≤ kMaxLedgerFileBytes) :
    ((∃ r, (runSimulator (config.withFlags persist true) ⟨steps₂, limits⟩ env saved).1 = .ok r) ↔
      ∃ w, (runSimulator (config.withFlags persist false) ⟨steps₁ ++ steps₂, limits⟩ env dir').1 =
        .ok w) ∧
    ∀ r w, (runSimulator (config.withFlags persist true) ⟨steps₂, limits⟩ env saved).1 = .ok r →
      (runSimulator (config.withFlags persist false) ⟨steps₁ ++ steps₂, limits⟩ env dir').1 =
        .ok w →
      r.tipHash = w.tipHash ∧ r.height = w.height ∧
      ∃ a b, simulate (config.withFlags persist true) ⟨steps₂, limits⟩ saved = .ok a ∧
        simulate (config.withFlags persist false) ⟨steps₁ ++ steps₂, limits⟩ dir' = .ok b ∧
        a.chain.utxos = b.chain.utxos ∧ a.pool = b.pool := by
  have hcore := simulate_resumed hmine steps₂ dir' persist hclose hfirst hfits
  have hconsensus : buildConsensusParams (config.withFlags persist true) =
      buildConsensusParams (config.withFlags persist false) := rfl
  refine ⟨⟨?_, ?_⟩, ?_⟩
  · intro hr
    obtain ⟨r, hr⟩ := hr
    obtain ⟨w, _, _, hw, _⟩ := runSimulator_congr hconsensus rfl hcore hr
    exact ⟨w, hw⟩
  · intro hw
    obtain ⟨w, hw⟩ := hw
    obtain ⟨r, _, _, hr, _⟩ := runSimulator_congr hconsensus.symm rfl hcore.symm hw
    exact ⟨r, hr⟩
  · intro r w hr hw
    obtain ⟨w', a, b, hw', ha, hb, hab, htip, hheight⟩ := runSimulator_congr hconsensus rfl hcore hr
    have hsame : w' = w := Except.ok.inj (hw'.symm.trans hw)
    obtain ⟨hchain, hpool, _⟩ := SimState.core_eq.mp hab
    rw [hsame] at htip hheight
    exact ⟨htip, hheight, a, b, ha, hb, by rw [hchain], hpool⟩

/-! Stopping with a payment in the pool. -/

theorem pooledRun_simulated (persist : Bool) (dir : DataDir) :
    simulate (rewardConfig.withFlags persist false) ⟨[⟨[], 1⟩, ⟨[payment 0], 0⟩], {}⟩ dir =
      .ok pooledRun := by
  rw [simulate_steps rfl rfl, openState_genesis _ _ rfl, ok_bind]
  exact (runSteps_earned _).trans (runSteps_pooled [])

theorem pooledRun_sorted : pooledRun.pool.sortedTransactions = [payment 0] := by
  rw [pooledRun_repInv.sortedTransactions_eq, pooledRun_values]
  rfl

theorem pooledRun_accepted : Accepted ⟨50, 1⟩ pooledRun.ledger pooledRun.chain := by
  have hlinks : minedReward.header.LinksTo (buildGenesisBlock rewardConfig).header :=
    ⟨rfl, rfl, rfl, by decide⟩
  have hsubmit : openedRun.chain.submitBlock minedReward none =
      .ok (0, pooledRun.chain, none) :=
    Chain.submitBlock_ok.mpr ⟨hlinks, ⟨_, minedReward_connects, rfl⟩, rfl⟩
  exact (Accepted.create (create_genesis rewardConfig _)).submit hsubmit

def pooledLedger : Bytes := withLedgerChecksum (ledgerBody pooledRun.ledger ⟨50, 1⟩ [payment 0])

theorem pooledLedger_length : pooledLedger.length = 396 := by
  have hblocks : pooledRun.ledger = [buildGenesisBlock rewardConfig, minedReward] := rfl
  rw [pooledLedger, encodedLedger_length, ledgerSize, hblocks, List.map_cons, List.map_singleton,
    genesis_toBytes_length, minedReward_length, List.map_singleton, payment_length]
  rfl

theorem pooledRun_storable : Storable pooledRun.ledger [payment 0] :=
  pooledRun_accepted.storable (by decide) (by decide) (by simpa using payment_sane 0)

theorem pooledRun_saved : ∃ first,
    runSimulator (rewardConfig.withFlags true false) ⟨[⟨[], 1⟩, ⟨[payment 0], 0⟩], {}⟩ {}
      ⟨none, none⟩ = (.ok first, ⟨some pooledLedger, none⟩) := by
  have hbytes : ledgerBytes pooledRun.ledger ⟨50, 1⟩ [payment 0] = .ok pooledLedger :=
    ledgerBytes_ok.mpr ⟨rfl, encodeLedger_ok pooledRun_storable.encodable _⟩
  have hsave : saveLedger pooledRun.ledger ⟨50, 1⟩ pooledRun.pool.sortedTransactions {}
      ⟨none, none⟩ = (.ok (), ⟨some pooledLedger, none⟩) := by
    rw [pooledRun_sorted]
    simp only [saveLedger, hbytes]
    rfl
  exact ⟨_, (runSimulator_saved rfl).mpr ⟨_, pooledRun_simulated true _, rfl, hsave⟩⟩

theorem wholeRun_simulated (persist : Bool) (dir : DataDir) :
    simulate (rewardConfig.withFlags persist false)
      ⟨[⟨[], 1⟩, ⟨[payment 0], 0⟩] ++ [⟨[], 1⟩], {}⟩ dir = .ok confirmedRun := by
  have hmined : mineNBlocks rewardConfig rewardTemplate (1 : UInt32).toNat pooledRun =
      .ok confirmedRun := pooledRun_mines
  have hlast : runSteps rewardConfig rewardTemplate ⟨0⟩ [⟨[], 1⟩] pooledRun = .ok confirmedRun := by
    rw [runSteps, admitTransactions, ok_bind, hmined, ok_bind, runSteps]
  rw [simulate_steps rfl rfl, openState_genesis _ _ rfl, ok_bind]
  exact (runSteps_earned _).trans ((runSteps_pooled _).trans hlast)

/-- A run that has mined a block stops with a payment in its pool. Resumed, it mines the
payment, as the run that never stopped does. -/
theorem restart_transparent_payment :
    ∃ first saved r w,
      runSimulator (rewardConfig.withFlags true false) ⟨[⟨[], 1⟩, ⟨[payment 0], 0⟩], {}⟩ {}
        ⟨none, none⟩ = (.ok first, saved) ∧
      (runSimulator (rewardConfig.withFlags false true) ⟨[⟨[], 1⟩], {}⟩ {} saved).1 = .ok r ∧
      (runSimulator (rewardConfig.withFlags false false)
        ⟨[⟨[], 1⟩, ⟨[payment 0], 0⟩] ++ [⟨[], 1⟩], {}⟩ {} ⟨none, none⟩).1 = .ok w ∧
      r.tipHash = w.tipHash ∧ r.height = w.height ∧ w.height = 2 ∧
      ∃ a, simulate (rewardConfig.withFlags false true) ⟨[⟨[], 1⟩], {}⟩ saved = .ok a ∧
        a.chain.utxos = confirmedRun.chain.utxos ∧ a.pool = confirmedRun.pool := by
  obtain ⟨first, hfirst⟩ := pooledRun_saved
  have hfits : ∀ bytes, some pooledLedger = some bytes → bytes.length ≤ kMaxLedgerFileBytes := by
    intro bytes hbytes
    rw [← Option.some.inj hbytes, pooledLedger_length]
    decide
  obtain ⟨hiff, hsame⟩ := @restart_transparent rewardConfig rfl {} _ [⟨[], 1⟩] {} {} _
    ⟨none, none⟩ _ first false rfl hfirst hfits
  have hwhole : (runSimulator (rewardConfig.withFlags false false)
      ⟨[⟨[], 1⟩, ⟨[payment 0], 0⟩] ++ [⟨[], 1⟩], {}⟩ {} ⟨none, none⟩).1 =
        .ok (summaryFromChain (buildGenesisBlock rewardConfig) confirmedRun false) :=
    runSimulator_ok.mpr ⟨_, wholeRun_simulated false _, rfl, fun h => absurd h (by decide)⟩
  obtain ⟨r, hr⟩ := hiff.mpr ⟨_, hwhole⟩
  obtain ⟨htip, hheight, a, b, ha, hb, hutxos, hpool⟩ := hsame r _ hr hwhole
  obtain rfl : confirmedRun = b := Except.ok.inj ((wholeRun_simulated false _).symm.trans hb)
  exact ⟨first, _, r, _, hfirst, hr, hwhole, htip, hheight, rfl, a, ha, hutxos, hpool⟩

end Blockchain
