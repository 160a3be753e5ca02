import Blockchain.PeerState
import Blockchain.MempoolInvariant

/-! What holds of every state a node reaches: its catalog is the block sequence its chain was
built from, its pool is well formed and holds sane transactions, and its settings are those
of the configuration. -/
namespace Blockchain
open Lib

/-- The catalog lists the blocks of a sequence under their heights. -/
def CatalogOf (blocks : List Block) (catalog : OrderedMap UInt32 Block) : Prop :=
  catalog.entries = blocks.map fun b => (b.header.height, b)

/-- The parameters of the chain a node starts with: a restored ledger brings its own. -/
def startParams (config : NodeConfig) (dir : DataDir) : ConsensusParams :=
  if config.restore then
    match loadLedger dir with
    | .ok ledger => ledger.params
    | .error _ => buildConsensusParams config
  else buildConsensusParams config

structure PeerState.Inv (config : NodeConfig) (params : ConsensusParams) (state : PeerState) :
    Prop where
  history : ∃ blocks, Accepted params blocks state.chain ∧ CatalogOf blocks state.catalog
  pool : state.mempool.RepInv
  limits_eq : state.mempool.limits = resolvedMempoolLimits config
  sane : ∀ id e, state.mempool.byTxid.find? id = some e → e.transaction.Sane
  policy_eq : state.mempoolPolicy = resolvedMempoolPolicy config
  consensus_eq : state.consensus = buildConsensusParams config
  persist_eq : state.persist = config.persist
  nodeId_eq : state.nodeId = config.nodeId

namespace CatalogOf
variable {blocks : List Block} {catalog : OrderedMap UInt32 Block}

theorem values_eq (h : CatalogOf blocks catalog) : catalog.values = blocks := by
  rw [OrderedMap.values, h, List.map_map]
  exact List.map_id blocks

theorem store (h : CatalogOf blocks catalog) {block : Block}
    (hlt : ∀ b ∈ blocks, b.header.height < block.header.height) :
    CatalogOf (blocks ++ [block]) (catalog.insert block.header.height block) := by
  have hless : ∀ e ∈ catalog.entries, less e.1 block.header.height = true := by
    intro e he
    rw [h, List.mem_map] at he
    obtain ⟨b, hb, rfl⟩ := he
    exact decide_eq_true (hlt b hb)
  rw [CatalogOf, OrderedMap.entries_insert_last _ _ hless, h, List.map_append]
  rfl

theorem find?_eq (h : CatalogOf blocks catalog)
    (hheights : ∀ i (b : Block), blocks[i]? = some b → b.header.height.toNat = i)
    (height : UInt32) :
    catalog.find? height = blocks[height.toNat]? := by
  apply Option.ext
  intro b
  rw [OrderedMap.find?_eq_some_iff, h, List.mem_map]
  constructor
  · intro hmem
    obtain ⟨b', hb', heq⟩ := hmem
    obtain ⟨hheight, rfl⟩ := Prod.mk.inj heq
    obtain ⟨i, hi⟩ := List.mem_iff_getElem?.mp hb'
    rw [← hheight, hheights i b' hi]
    exact hi
  · intro hb
    refine ⟨b, List.mem_of_getElem? hb, ?_⟩
    rw [UInt32.toNat_inj.mp (hheights _ _ hb)]

end CatalogOf

theorem Accepted.height_lt {params : ConsensusParams} {blocks : List Block} {chain : Chain}
    (h : Accepted params blocks chain) {next : BlockHeader} (hlinks : next.LinksTo chain.tip) :
    ∀ b ∈ blocks, b.header.height < next.height := by
  intro b hb
  obtain ⟨i, hi⟩ := List.mem_iff_getElem?.mp hb
  have hheight := h.block_height hi
  have hlen := h.height_eq
  have hnext := hlinks.height_eq
  obtain ⟨hlt, _⟩ := List.getElem?_eq_some_iff.mp hi
  rw [UInt32.lt_iff_toNat_lt]
  simp only [Chain.height] at hlen
  omega

namespace PeerState.Inv
variable {config : NodeConfig} {params : ConsensusParams}

theorem accept (tx : Transaction) : (acceptTransaction tx).Keeps (PeerState.Inv config params) := by
  intro state h r next hr
  cases hr
  exact
    { history := h.history
      pool := h.pool.accept tx _ _
      limits_eq := (state.mempool.accept_limits tx _ _).trans h.limits_eq
      sane := Mempool.accept_pooled h.sane fun _ hval => (validateForMempool_ok hval).1
      policy_eq := h.policy_eq
      consensus_eq := h.consensus_eq
      persist_eq := h.persist_eq
      nodeId_eq := h.nodeId_eq }

theorem connected_history {state : PeerState} {blocks : List Block}
    (hacc : Accepted params blocks state.chain) (hcat : CatalogOf blocks state.catalog)
    {block : Block} {fees : UInt64} {chain : Chain} {pool : Option Mempool}
    (hs : state.chain.submitBlock block (some state.mempool) = .ok (fees, chain, pool)) :
    Accepted params (blocks ++ [block]) chain ∧
      CatalogOf (blocks ++ [block]) (state.connected block chain).catalog := by
  obtain ⟨hlinks, ⟨utxos, _, hchain⟩, _⟩ := Chain.submitBlock_ok.mp hs
  have hheight : chain.height = block.header.height := by rw [hchain]; rfl
  refine ⟨hacc.submit hs, ?_⟩
  change CatalogOf (blocks ++ [block]) (state.catalog.insert chain.height block)
  rw [hheight]
  exact hcat.store (hacc.height_lt hlinks)

theorem connected {state : PeerState} (h : state.Inv config params) {block : Block} {fees : UInt64}
    {chain : Chain} {pool : Option Mempool}
    (hs : state.chain.submitBlock block (some state.mempool) = .ok (fees, chain, pool)) :
    (state.connected block chain).Inv config params := by
  obtain ⟨blocks, hacc, hcat⟩ := h.history
  exact
    { history := ⟨blocks ++ [block], connected_history hacc hcat hs⟩
      pool := h.pool.removeAll _
      limits_eq := (state.mempool.removeAll_limits _).trans h.limits_eq
      sane := fun id e he => h.sane id e (Mempool.find?_removeAll.mp he).1
      policy_eq := h.policy_eq
      consensus_eq := h.consensus_eq
      persist_eq := h.persist_eq
      nodeId_eq := h.nodeId_eq }

theorem ledgerBlocks_connected {state : PeerState} (h : state.Inv config params) {block : Block}
    {fees : UInt64} {chain : Chain} {pool : Option Mempool}
    (hs : state.chain.submitBlock block (some state.mempool) = .ok (fees, chain, pool)) :
    (state.connected block chain).ledgerBlocks = state.ledgerBlocks ++ [block] := by
  obtain ⟨blocks, hacc, hcat⟩ := h.history
  rw [ledgerBlocks, (connected_history hacc hcat hs).2.values_eq, ledgerBlocks, hcat.values_eq]

theorem connectBlock (block : Block) :
    (PeerState.connectBlock block).Keeps (PeerState.Inv config params) :=
  fun _ h => connectBlock_ensures (fun _ => h) fun _ _ _ hs => h.connected hs

theorem minedKeep : MinedKeep (PeerState.Inv config params) :=
  fun state tmpl h _ => connectBlock tmpl.block state h

end PeerState.Inv

namespace PeerState

theorem launch_returns {work : PeerAction Unit} {state final : PeerState}
    (h : (launch work state).Returns (.ok final)) : (work state).Returns (.ok (), final) := by
  obtain ⟨⟨r, s⟩, hr, hfinal⟩ := Process.returns_bind.mp h
  have heq := Process.returns_ret.mp hfinal
  cases r with
  | error e => cases heq
  | ok u =>
    cases heq
    exact hr

theorem fromConfig_returns {config : NodeConfig} {dir : DataDir} {state : PeerState}
    (h : (fromConfig config dir).Returns (.ok state)) :
    ∃ recipient, resolveCoinbaseRecipient config = .ok recipient ∧
    ((config.restore = true ∧ ∃ ledger chain, loadLedger dir = .ok ledger ∧
        Accepted ledger.params ledger.blocks chain ∧
        (restoreTransactions ledger.mempoolTransactions
          ((start config recipient chain).storeBlocks ledger.blocks)).Returns (.ok (), state)) ∨
      (config.restore = false ∧
        (mineAndPersist config
          ((start config recipient ⟨(buildGenesisBlock config).header, UtxoSet.empty,
            buildConsensusParams config⟩).storeBlock 0 (buildGenesisBlock config))).Returns
          (.ok (), state))) := by
  unfold fromConfig at h
  cases hrec : resolveCoinbaseRecipient config with
  | error e => simp [hrec] at h
  | ok recipient =>
    refine ⟨recipient, rfl, ?_⟩
    cases hrestore : config.restore with
    | false =>
      simp only [hrec, hrestore, Bool.false_eq_true, if_false, create_genesis] at h
      exact .inr ⟨rfl, launch_returns h⟩
    | true =>
      simp only [hrec, hrestore, if_true] at h
      by_cases hexists : ledgerExists dir = false
      · simp [hexists, makeError] at h
      · simp only [hexists] at h
        cases hchain : loadChain dir with
        | error e => simp [hchain] at h
        | ok chain =>
          cases hledger : loadLedger dir with
          | error e => simp [hchain, hledger] at h
          | ok ledger =>
            simp only [hchain, hledger] at h
            rw [loadChain, hledger, ok_bind] at hchain
            exact .inl ⟨rfl, ledger, chain, rfl, replayChain_ok.mp hchain, launch_returns h⟩

theorem storeBlocks_catalog {stored blocks : List Block} {state : PeerState}
    (h : CatalogOf stored state.catalog)
    (hheights : ∀ i (b : Block), (stored ++ blocks)[i]? = some b → b.header.height.toNat = i) :
    CatalogOf (stored ++ blocks) (state.storeBlocks blocks).catalog := by
  induction blocks generalizing stored state with
  | nil =>
    rw [List.append_nil]
    exact h
  | cons block blocks ih =>
    have happ : stored ++ block :: blocks = stored ++ [block] ++ blocks := by simp
    have hblock := hheights stored.length block (by simp)
    have hlt : ∀ b ∈ stored, b.header.height < block.header.height := by
      intro b hb
      obtain ⟨i, hi⟩ := List.mem_iff_getElem?.mp hb
      obtain ⟨hilt, _⟩ := List.getElem?_eq_some_iff.mp hi
      have hbheight := hheights i b (by rw [List.getElem?_append_left hilt]; exact hi)
      rw [UInt32.lt_iff_toNat_lt]
      omega
    have hstored : CatalogOf (stored ++ [block])
        (state.storeBlock block.header.height block).catalog :=
      h.store hlt
    rw [happ] at hheights ⊢
    exact ih hstored hheights

theorem storeBlocks_eq (state : PeerState) (blocks : List Block) :
    state.storeBlocks blocks = { state with catalog := (state.storeBlocks blocks).catalog } := by
  induction blocks generalizing state with
  | nil => rfl
  | cons block blocks ih =>
    exact ih (state.storeBlock block.header.height block)

theorem start_inv {config : NodeConfig} {params : ConsensusParams} (recipient : Hash256)
    {chain : Chain} {blocks : List Block} {catalog : OrderedMap UInt32 Block}
    (hacc : Accepted params blocks chain) (hcat : CatalogOf blocks catalog) :
    ({ start config recipient chain with catalog := catalog }).Inv config params where
  history := ⟨blocks, hacc, hcat⟩
  pool := Mempool.new_inv _
  limits_eq := rfl
  sane := by simp [start, Mempool.new]
  policy_eq := rfl
  consensus_eq := rfl
  persist_eq := rfl
  nodeId_eq := rfl

theorem fromConfig_fresh {config : NodeConfig} {dir : DataDir} {I : PeerState → Prop}
    {state : PeerState} (hrestore : config.restore = false)
    (h : (fromConfig config dir).Returns (.ok state)) (hmined : MinedKeep I)
    (hstart : ∀ recipient, I ((start config recipient ⟨(buildGenesisBlock config).header,
      UtxoSet.empty, buildConsensusParams config⟩).storeBlock 0 (buildGenesisBlock config))) :
    I state := by
  obtain ⟨recipient, _, ⟨hrestored, _⟩ | ⟨_, hrun⟩⟩ := fromConfig_returns h
  · simp [hrestore] at hrestored
  · refine Action.keeps_bind (mineBlocks_keeps hmined _) (fun _ => ?_) _ (hstart recipient) _ _ hrun
    split
    · exact persistLedger_keeps
    · exact Action.keeps_pure

/-- What admission and mined blocks keep holds of a node that has come up, if it holds of the
node with an empty pool on its loaded or fresh chain. -/
theorem fromConfig_invariant {config : NodeConfig} {dir : DataDir} {I : PeerState → Prop}
    {state : PeerState} (h : (fromConfig config dir).Returns (.ok state))
    (haccept : ∀ tx, (acceptTransaction tx).Keeps I) (hmined : MinedKeep I)
    (hstart : ∀ recipient chain blocks catalog, Accepted (startParams config dir) blocks chain →
      CatalogOf blocks catalog → I { start config recipient chain with catalog := catalog }) :
    I state := by
  obtain ⟨recipient, _, hrun⟩ := fromConfig_returns h
  cases hrun with
  | inl hrestored =>
    obtain ⟨hrestore, ledger, chain, hledger, hacc, hrun⟩ := hrestored
    have hparams : startParams config dir = ledger.params := by
      simp [startParams, hrestore, hledger]
    refine restoreTransactions_keeps haccept _ _ ?_ _ _ hrun
    have hempty : CatalogOf [] (start config recipient chain).catalog := rfl
    rw [storeBlocks_eq]
    exact hstart recipient chain _ _ (hparams.symm ▸ hacc)
      (storeBlocks_catalog hempty fun i b hi => hacc.block_height hi)
  | inr hfresh =>
    have hparams : startParams config dir = buildConsensusParams config := by
      simp [startParams, hfresh.1]
    exact fromConfig_fresh hfresh.1 h hmined fun recipient =>
      hstart recipient _ [buildGenesisBlock config] _
        (hparams.symm ▸ .create (create_genesis config _)) rfl

end PeerState

theorem Reached.inv {config : NodeConfig} {dir : DataDir} {allowed : PeerState → PeerOp → Prop}
    {state : PeerState} (h : Reached config dir allowed state) :
    state.Inv config (startParams config dir) :=
  h.invariant
    (fun _ hstart => PeerState.fromConfig_invariant hstart PeerState.Inv.accept
      PeerState.Inv.minedKeep fun recipient _ _ _ hacc hcat =>
        PeerState.start_inv recipient hacc hcat)
    PeerState.Inv.accept PeerState.Inv.minedKeep
    (fun state _ block hI _ _ => PeerState.Inv.connectBlock block state hI)

theorem Reached.mono {config : NodeConfig} {dir : DataDir}
    {allowed allowed' : PeerState → PeerOp → Prop} {state : PeerState}
    (h : Reached config dir allowed state)
    (himp : ∀ state op, allowed state op → allowed' state op) :
    Reached config dir allowed' state := by
  induction h with
  | start h => exact .start h
  | step _ hop hrun ih => exact .step ih (himp _ _ hop) hrun

theorem Reached.announce {config : NodeConfig} {dir : DataDir}
    {allowed : PeerState → PeerOp → Prop} {state : PeerState} (h : Reached config dir allowed state)
    (hpersist : state.persist = false) {block : Block} (hsane : block.Sane)
    (hop : allowed state (.message (PeerState.blockAnnounceMessage block))) {utxos : UtxoSet}
    {fees : UInt64} (hlinks : block.header.LinksTo state.chain.tip)
    (hconnect : connectBlock block state.chain.utxos state.chain.params = .ok (fees, utxos)) :
    Reached config dir allowed
      (state.connected block ⟨block.header, utxos, state.chain.params⟩) := by
  have hs : state.chain.submitBlock block (some state.mempool) =
      .ok (fees, ⟨block.header, utxos, state.chain.params⟩, _) :=
    Chain.submitBlock_ok.mpr ⟨hlinks, ⟨_, hconnect, rfl⟩, rfl⟩
  have hrun : (PeerOp.message (PeerState.blockAnnounceMessage block)).run state =
      .ret (.ok (), state.connected block ⟨block.header, utxos, state.chain.params⟩) := by
    rw [PeerOp.run, PeerState.handleMessage_blockAnnounce hsane,
      PeerState.connect_and_persist hpersist]
    exact PeerState.connectBlock_of_submit hs
  exact h.step_ret hop hrun

/-! A node that has come up on its genesis block. -/

namespace PeerState

def fresh (config : NodeConfig) (recipient : Hash256) : PeerState :=
  (start config recipient ⟨(buildGenesisBlock config).header, UtxoSet.empty,
    buildConsensusParams config⟩).storeBlock 0 (buildGenesisBlock config)

theorem fromConfig_launch {config : NodeConfig} {recipient : Hash256}
    (hrecipient : resolveCoinbaseRecipient config = .ok recipient)
    (hrestore : config.restore = false) (dir : DataDir) :
    fromConfig config dir = launch (mineAndPersist config) (fresh config recipient) := by
  simp only [fromConfig, hrecipient, hrestore, Bool.false_eq_true, if_false, create_genesis, fresh]

theorem mineAndPersist_saves {config : NodeConfig} {recipient : Hash256} {next : PeerState}
    (hpersist : config.persist = true)
    (hloop : mineLoop config.mineBlocks.toNat (fresh config recipient) = .ret (.ok (), next)) :
    mineAndPersist config (fresh config recipient) =
      (persistLedger >>= fun _ => persistLedger) next := by
  simp only [mineAndPersist, mineBlocks, Action.bind_run, hloop, Process.bind_ret_left, hpersist,
    if_true]

theorem fromConfig_of_loop {config : NodeConfig} {recipient : Hash256}
    (hrecipient : resolveCoinbaseRecipient config = .ok recipient)
    (hrestore : config.restore = false) (hpersist : config.persist = false) (dir : DataDir)
    {result : Result Unit} {last : PeerState}
    (hloop : mineLoop config.mineBlocks.toNat (fresh config recipient) = .ret (result, last))
    (hlast : result = .ok () → last.persist = false) :
    fromConfig config dir = .ret (result.map fun _ => last) := by
  have hwork : mineAndPersist config (fresh config recipient) = .ret (result, last) := by
    cases result with
    | error e =>
      simp only [mineAndPersist, mineBlocks, Action.bind_run, hloop, Process.bind_ret_left]
    | ok u =>
      have hidle : persistLedger last = .ret (.ok (), last) := persistLedger_off (hlast rfl)
      simp only [mineAndPersist, mineBlocks, Action.bind_run, hloop, Process.bind_ret_left, hidle,
        hpersist, Bool.false_eq_true, if_false, Action.pure_run]
  rw [fromConfig_launch hrecipient hrestore, launch, hwork]
  rfl

end PeerState

def genesisNode (config : NodeConfig) : PeerState := PeerState.fresh config zeroHash

theorem fromConfig_genesis {config : NodeConfig} (hrestore : config.restore = false)
    (hmine : config.mineBlocks = 0) (hpersist : config.persist = false)
    (hhex : config.coinbaseRecipientHex = []) (dir : DataDir) :
    PeerState.fromConfig config dir = .ret (.ok (genesisNode config)) := by
  have hrecipient : resolveCoinbaseRecipient config = .ok zeroHash := by
    simp [resolveCoinbaseRecipient, hhex]
  have hloop : PeerState.mineLoop config.mineBlocks.toNat (PeerState.fresh config zeroHash) =
      .ret (.ok (), genesisNode config) := by
    rw [hmine]
    rfl
  exact PeerState.fromConfig_of_loop hrecipient hrestore hpersist dir hloop fun _ => hpersist

theorem defaultNodeId_valid : ValidNodeId (textBytes "node-0") := ⟨by decide, by decide⟩

theorem fromConfig_restored {config : NodeConfig} (hrestore : config.restore = true)
    (hhex : config.coinbaseRecipientHex = []) {dir : DataDir} {ledger : LedgerData} {chain : Chain}
    (hexists : ledgerExists dir = true) (hledger : loadLedger dir = .ok ledger)
    (hpool : ledger.mempoolTransactions = []) (hacc : Accepted ledger.params ledger.blocks chain) :
    PeerState.fromConfig config dir =
      .ret (.ok ((PeerState.start config zeroHash chain).storeBlocks ledger.blocks)) := by
  have hrecipient : resolveCoinbaseRecipient config = .ok zeroHash := by
    simp [resolveCoinbaseRecipient, hhex]
  have hchain : loadChain dir = .ok chain := by
    rw [loadChain, hledger, ok_bind]
    exact replayChain_ok.mpr hacc
  simp only [PeerState.fromConfig, hrecipient, hrestore, hexists, hchain, hledger, hpool,
    if_true, Bool.true_eq_false, if_false, PeerState.launch, PeerState.restoreTransactions]
  rfl

theorem genesisNode_reached {config : NodeConfig} (hrestore : config.restore = false)
    (hmine : config.mineBlocks = 0) (hpersist : config.persist = false)
    (hhex : config.coinbaseRecipientHex = []) (dir : DataDir)
    (allowed : PeerState → PeerOp → Prop) :
    Reached config dir allowed (genesisNode config) := by
  refine .start ?_
  rw [fromConfig_genesis hrestore hmine hpersist hhex dir]
  exact .ret _

def rewardedNode : PeerState :=
  (genesisNode rewardConfig).connected rewardBlock ⟨rewardBlock.header, rewardCoins, ⟨50, 1⟩⟩

theorem rewardedNode_reached {allowed : PeerState → PeerOp → Prop}
    (hop : allowed (genesisNode rewardConfig)
      (.message (PeerState.blockAnnounceMessage rewardBlock))) :
    Reached rewardConfig ⟨none, none⟩ allowed rewardedNode := by
  have hgenesis : Reached rewardConfig ⟨none, none⟩ allowed (genesisNode rewardConfig) :=
    genesisNode_reached rfl rfl rfl rfl _ _
  exact hgenesis.announce rfl rewardBlock_sane hop rewardBlock_linksTo rewardBlock_connects

end Blockchain
