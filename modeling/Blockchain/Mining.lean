import Blockchain.Catalog
import Blockchain.DoubleSpend
import Blockchain.Production

/-! Local mining over whole runs. A template takes its timestamp from the configuration and
its coinbase from the height, while the tip and the coins come from peers too; a node can
mine as long as the blocks delivered to it are not ahead of its clock and carry their own
height in their coinbases. -/
namespace Blockchain
open Lib

/-! Fees of pooled transactions against any set of confirmed outputs. -/

/-- Every coin of the set is an output of a listed transaction. -/
def UtxoSet.OutputsOf (txs : List Transaction) (utxos : UtxoSet) : Prop :=
  ∀ o c, utxos.find o = some c →
    ∃ tx ∈ txs, tx.txid = o.txid ∧ tx.outputs[o.index.toNat]? = some c.output

namespace UtxoSet.OutputsOf
variable {txs txs' : List Transaction} {utxos utxos' : UtxoSet}

theorem mono (h : utxos.OutputsOf txs) (hsub : ∀ tx ∈ txs, tx ∈ txs') : utxos.OutputsOf txs' := by
  intro o c hc
  obtain ⟨tx, htx, hout⟩ := h o c hc
  exact ⟨tx, hsub tx htx, hout⟩

theorem applied (h : utxos.OutputsOf txs) {tx : Transaction} (htx : tx ∈ txs) {height : UInt32}
    (hs : tx.Sane) (hcb : tx.isCoinbase = false)
    (happly : (spendInputs tx.inputs utxos >>= addOutputs tx height false) = .ok utxos') :
    utxos'.OutputsOf txs := by
  intro o c hc
  cases applied_find hs hcb happly hc with
  | inl hnew =>
    obtain ⟨hid, hout, _⟩ := createdCoins_eq_some.mp hnew
    exact ⟨tx, htx, hid, hout⟩
  | inr hold => exact h o c hold

theorem output_unique (h : utxos.OutputsOf txs) (h' : utxos'.OutputsOf txs) (hids : DistinctIds txs)
    {o : OutPoint} {c c' : Coin} (hc : utxos.find o = some c) (hc' : utxos'.find o = some c') :
    c.output = c'.output := by
  obtain ⟨tx, htx, hid, hout⟩ := h o c hc
  obtain ⟨tx', htx', hid', hout'⟩ := h' o c' hc'
  rw [hids tx htx tx' htx' (hid.trans hid'.symm), hout'] at hout
  exact (Option.some.inj hout).symm

theorem fee_unique (h : utxos.OutputsOf txs) (h' : utxos'.OutputsOf txs) (hids : DistinctIds txs)
    {tx : Transaction} (hs : tx.Sane) {fee fee' : UInt64}
    (hfee : checkTransactionInputs tx utxos = .ok fee)
    (hfee' : checkTransactionInputs tx utxos' = .ok fee') : fee = fee' := by
  obtain ⟨hall, hvalue⟩ := checkTransactionInputs_ok hs hfee
  obtain ⟨hall', hvalue'⟩ := checkTransactionInputs_ok hs hfee'
  have hsame : inputValue utxos tx.prevouts = inputValue utxos' tx.prevouts := by
    refine congrArg List.sum (List.map_congr_left fun o ho => ?_)
    obtain ⟨c, hc⟩ := Option.isSome_iff_exists.mp (hall o ho)
    obtain ⟨c', hc'⟩ := Option.isSome_iff_exists.mp (hall' o ho)
    rw [UtxoSet.valueAt_of_find hc, UtxoSet.valueAt_of_find hc', h.output_unique h' hids hc hc']
  rw [← UInt64.toNat_inj]
  omega

end UtxoSet.OutputsOf

theorem Accepted.outputsOf {params : ConsensusParams} {blocks : List Block} {chain : Chain}
    (h : Accepted params blocks chain) : chain.utxos.OutputsOf (confirmed blocks) := by
  intro o c hc
  obtain ⟨hadm, hfind⟩ := h.store_history
  rw [hfind, SpendLog.store_eq_some_iff hadm] at hc
  obtain ⟨pre, event, post, hsplit, hcreate, _⟩ := hc
  have hevent : event ∈ (history blocks).map historyEvent := by simp [hsplit]
  obtain ⟨entry, hentry, rfl⟩ := List.mem_map.mp hevent
  obtain ⟨hid, hout, _⟩ := createdCoins_eq_some.mp hcreate
  exact ⟨entry.2, (history_perm blocks).mem_iff.mp (List.mem_map_of_mem hentry), hid, hout⟩

namespace Mempool

/-- The recorded fees were computed from outputs of listed transactions. -/
def FeesFrom (txs : List Transaction) (pool : Mempool) : Prop :=
  ∀ id e, pool.byTxid.find? id = some e →
    ∃ utxos : UtxoSet, utxos.OutputsOf txs ∧ checkTransactionInputs e.transaction utxos = .ok e.fee

def pooledTransactions (pool : Mempool) : List Transaction :=
  pool.byTxid.values.map Entry.transaction

def pooledFees (pool : Mempool) : Nat := (pool.byTxid.values.map fun e => e.fee.toNat).sum

theorem FeesFrom.removeAll {txs : List Transaction} {pool : Mempool} (h : pool.FeesFrom txs)
    (txids : List Hash256) : (pool.removeAll txids).FeesFrom txs :=
  fun id e he => h id e (find?_removeAll.mp he).1

theorem FeesFrom.accept {txs : List Transaction} {pool : Mempool} (h : pool.FeesFrom txs)
    {utxos : UtxoSet} (hcoins : utxos.OutputsOf txs) (tx : Transaction) (policy : MempoolPolicy) :
    (pool.accept tx utxos policy).2.FeesFrom txs := by
  obtain ⟨evicted, ⟨_, hpool⟩ | ⟨admission, hval, hfits, hpool⟩⟩ :=
    pool.accept_cases tx utxos policy
  · rw [hpool]
    exact h.removeAll evicted
  · rw [hpool]
    intro id e he
    obtain he | ⟨_, rfl⟩ := (find?_addEntry hfits).mp he
    · exact h.removeAll evicted id e he
    · exact ⟨utxos, hcoins, (validateForMempool_ok hval).2.2.1⟩

theorem FeesFrom.mono {txs txs' : List Transaction} {pool : Mempool} (h : pool.FeesFrom txs)
    (hsub : ∀ tx ∈ txs, tx ∈ txs') : pool.FeesFrom txs' := by
  intro id e he
  obtain ⟨utxos, hcoins, hfee⟩ := h id e he
  exact ⟨utxos, hcoins.mono hsub, hfee⟩

end Mempool

/-- An entry whose transaction is listed and whose fee comes from listed outputs. -/
structure Entry.Settled (txs : List Transaction) (entry : Entry) : Prop where
  sane : entry.transaction.Sane
  ordinary : entry.transaction.isCoinbase = false
  listed : entry.transaction ∈ txs
  fee : ∃ utxos : UtxoSet, utxos.OutputsOf txs ∧
    checkTransactionInputs entry.transaction utxos = .ok entry.fee

theorem selectTransactions_fees {txs : List Transaction} (hids : DistinctIds txs)
    (params : BlockTemplateParams) (height : UInt32) {entries : List Entry}
    (hentries : ∀ e ∈ entries, e.Settled txs) (sel : Selection) (hsel : sel.working.OutputsOf txs) :
    (selectTransactions params height entries sel).working.OutputsOf txs ∧
    (selectTransactions params height entries sel).totalFees.toNat ≤
      sel.totalFees.toNat + (entries.map fun e => e.fee.toNat).sum := by
  induction entries generalizing sel with
  | nil => exact ⟨hsel, Nat.le_refl _⟩
  | cons entry rest ih =>
    rw [selectTransactions]
    by_cases hfull : sel.chosen.length ≥ params.maxTransactions.toNat
    · rw [if_pos hfull]
      exact ⟨hsel, Nat.le_add_right _ _⟩
    · obtain ⟨hentry, hrest⟩ := List.forall_mem_cons.mp hentries
      have hturn : (considerEntry params height entry sel).working.OutputsOf txs ∧
          (considerEntry params height entry sel).totalFees.toNat ≤
            sel.totalFees.toNat + entry.fee.toNat := by
        obtain hskip | ⟨fee, working, _, hfee, _, happly, ⟨_, hstep⟩ | ⟨fees, hadd, hstep⟩⟩ :=
          considerEntry_cases params height entry sel
        · rw [hskip]
          exact ⟨hsel, Nat.le_add_right _ _⟩
        · rw [hstep]
          exact ⟨hsel.applied hentry.listed hentry.sane hentry.ordinary happly,
            Nat.le_add_right _ _⟩
        · obtain ⟨utxos, hcoins, hrecorded⟩ := hentry.fee
          have hsame := hsel.fee_unique hcoins hids hentry.sane hfee hrecorded
          rw [hstep, ← hsame]
          exact ⟨hsel.applied hentry.listed hentry.sane hentry.ordinary happly,
            (checkedAdd_toNat hadd).le⟩
      rw [if_neg hfull, List.map_cons, List.sum_cons]
      obtain ⟨hworking, hfees⟩ := ih hrest _ hturn.1
      exact ⟨hworking, by omega⟩

theorem templateSelection_fees {txs : List Transaction} (hids : DistinctIds txs) {tip : BlockHeader}
    {timestamp : UInt64} {pool : Mempool} {utxos : UtxoSet} {params : BlockTemplateParams}
    (hentries : ∀ e ∈ pool.entriesByFeerate, e.Settled txs) (hcoins : utxos.OutputsOf txs) :
    (templateSelection tip timestamp pool utxos params).working.OutputsOf txs ∧
    (templateSelection tip timestamp pool utxos params).totalFees.toNat ≤ pool.pooledFees := by
  have hsum : (pool.entriesByFeerate.map fun e => e.fee.toNat).sum = pool.pooledFees :=
    ((List.perm_insertionSort _ _).map _).sum_eq
  have hloop := fun size => selectTransactions_fees hids params (tip.height + 1) hentries
    ⟨utxos, 0, size, []⟩ hcoins
  simp only [hsum, UInt64.toNat_zero, Nat.zero_add] at hloop
  exact hloop _

/-! The run invariant. -/

def heightInput (height : UInt32) : TxInput :=
  ⟨⟨Hash256.ofBytes (leBytes 4 height.toNat), kNullPrevoutIndex⟩⟩

/-- A block that is not ahead of the clock of a node with the given genesis time, and whose
coinbase carries the height of the block. -/
structure Block.Timely (genesisTimestamp : UInt64) (block : Block) : Prop where
  time : block.header.timestamp.toNat ≤ genesisTimestamp.toNat + block.header.height.toNat
  own : ∀ tx ∈ block.transactions, tx.isCoinbase = true →
    tx.inputs = [heightInput block.header.height]

/-- The node builds its templates under the rules of its chain, from admitted transactions. -/
structure PeerState.Productive (config : NodeConfig) (state : PeerState) : Prop where
  inv : state.Inv config (buildConsensusParams config)
  tmpl : ∃ recipient, state.tmplParams =
    buildTemplateParams config (buildConsensusParams config) recipient
  admitted : state.mempool.Admitted

structure PeerState.Mineable (config : NodeConfig) (state : PeerState) : Prop
    extends PeerState.Productive config state where
  genesis : state.genesisTimestamp = config.genesisTimestamp
  fees : state.mempool.FeesFrom (confirmed state.ledgerBlocks)
  timely : ∀ block ∈ state.ledgerBlocks, block.Timely config.genesisTimestamp

namespace PeerState.Productive
variable {config : NodeConfig} {state : PeerState}

theorem accepted (h : state.Productive config) :
    Accepted (buildConsensusParams config) state.ledgerBlocks state.chain := by
  obtain ⟨blocks, hacc, hcat⟩ := h.inv.history
  rw [ledgerBlocks, hcat.values_eq]
  exact hacc

theorem consensus_eq (h : state.Productive config) :
    state.tmplParams.consensus = state.chain.params := by
  obtain ⟨recipient, htmpl⟩ := h.tmpl
  rw [htmpl, h.accepted.params_eq]
  rfl

theorem version_eq (h : state.Productive config) : state.tmplParams.version = kBlockVersion := by
  obtain ⟨recipient, htmpl⟩ := h.tmpl
  rw [htmpl]
  rfl

theorem blockSize_le (h : state.Productive config)
    (hsize : config.maxBlockSizeBytes ≤ kMaxBlockSizeBytes) :
    state.tmplParams.maxBlockSizeBytes ≤ kMaxBlockSizeBytes := by
  obtain ⟨recipient, htmpl⟩ := h.tmpl
  rw [htmpl, buildTemplateParams]
  simp only
  split
  · exact hsize
  · exact UInt32.le_refl _

theorem accept (tx : Transaction) :
    (acceptTransaction tx).Keeps (PeerState.Productive config) := by
  intro state h r next hr
  have hinv := Inv.accept tx state h.inv r next hr
  cases hr
  exact ⟨hinv, h.tmpl, h.admitted.accept tx _ _⟩

theorem connected (h : state.Productive config) {block : Block} {fees : UInt64} {chain : Chain}
    {pool : Option Mempool}
    (hs : state.chain.submitBlock block (some state.mempool) = .ok (fees, chain, pool)) :
    (state.connected block chain).Productive config :=
  ⟨h.inv.connected hs, h.tmpl, h.admitted.removeAll _⟩

theorem connectBlock (h : state.Productive config) (block : Block) :
    (PeerState.connectBlock block).Ensures state fun _ next => next.Productive config :=
  connectBlock_ensures (fun _ => h) fun _ _ _ hs => h.connected hs

end PeerState.Productive

theorem Reached.productive {config : NodeConfig} {dir : DataDir}
    {allowed : PeerState → PeerOp → Prop} {state : PeerState}
    (hrules : startParams config dir = buildConsensusParams config)
    (h : Reached config dir allowed state) : state.Productive config := by
  have hmined : PeerState.MinedKeep (PeerState.Productive config) :=
    fun _ tmpl h _ => h.connectBlock tmpl.block
  refine h.invariant (fun state hstart => ?_) PeerState.Productive.accept hmined
    (fun _ _ block hI _ _ => hI.connectBlock block)
  refine PeerState.fromConfig_invariant hstart PeerState.Productive.accept hmined
    fun recipient chain blocks catalog hacc hcat => ?_
  rw [hrules] at hacc
  refine ⟨PeerState.start_inv recipient hacc hcat, ⟨recipient, rfl⟩, ?_⟩
  simp [PeerState.start, Mempool.Admitted, Mempool.new]

namespace PeerState.Mineable
variable {config : NodeConfig} {state : PeerState}

theorem accept (tx : Transaction) : (acceptTransaction tx).Keeps (PeerState.Mineable config) := by
  intro state h r next hr
  have hnext := Productive.accept tx state h.toProductive r next hr
  cases hr
  exact ⟨hnext, h.genesis, h.fees.accept h.accepted.outputsOf tx _, h.timely⟩

theorem connected (h : state.Mineable config) {block : Block}
    (htimely : block.Timely config.genesisTimestamp) {fees : UInt64} {chain : Chain}
    {pool : Option Mempool}
    (hs : state.chain.submitBlock block (some state.mempool) = .ok (fees, chain, pool)) :
    (state.connected block chain).Mineable config := by
  have hblocks := h.inv.ledgerBlocks_connected hs
  have hmono : ∀ tx ∈ confirmed state.ledgerBlocks,
      tx ∈ confirmed (state.connected block chain).ledgerBlocks := by
    intro tx htx
    rw [hblocks, confirmed, List.flatMap_append]
    exact List.mem_append_left _ htx
  refine ⟨h.toProductive.connected hs, h.genesis, (h.fees.removeAll _).mono hmono, ?_⟩
  intro b hb
  rw [hblocks] at hb
  obtain hb | hb := List.mem_append.mp hb
  · exact h.timely b hb
  · rw [List.mem_singleton.mp hb]
    exact htimely

theorem connectBlock (h : state.Mineable config) {block : Block}
    (htimely : block.Timely config.genesisTimestamp) :
    (PeerState.connectBlock block).Ensures state fun _ next => next.Mineable config :=
  connectBlock_ensures (fun _ => h) fun _ _ _ hs => h.connected htimely hs

theorem template_timely (h : state.Mineable config) {tmpl : BlockTemplate}
    (htmpl : state.nextTemplate = .ok tmpl) : tmpl.block.Timely config.genesisTimestamp := by
  obtain ⟨hne, reward, next, _, _, hshape⟩ := buildBlockTemplate_eq_ok.mp htmpl
  rw [hshape]
  constructor
  · change (blockTimestamp state.genesisTimestamp (state.chain.height + 1)).toNat ≤
      config.genesisTimestamp.toNat + (state.chain.height + 1).toNat
    rw [blockTimestamp, h.genesis, UInt64.toNat_add, UInt32.toNat_toUInt64]
    exact Nat.mod_le _ _
  · intro tx htx hcb
    cases List.mem_cons.mp htx with
    | inl heq =>
      rw [heq]
      rfl
    | inr hsel =>
      obtain ⟨id, e, he, rfl⟩ := templateSelection_mem hsel
      simp [(h.admitted id e he).2] at hcb

theorem minedKeep : MinedKeep (PeerState.Mineable config) :=
  fun _ _ h htmpl => h.connectBlock (h.template_timely htmpl)

end PeerState.Mineable

/-- Every block that a message delivers is timely. -/
def TimelyBlocks (config : NodeConfig) (_ : PeerState) : PeerOp → Prop
  | .message msg =>
    ∀ block, PeerState.DeliversBlock msg block → block.Timely config.genesisTimestamp
  | _ => True

/-- A ledger the node restores has the configured parameters and timely blocks. -/
def TimelyLedger (config : NodeConfig) (dir : DataDir) : Prop :=
  config.restore = true → ∀ ledger, loadLedger dir = .ok ledger →
    ledger.params = buildConsensusParams config ∧
      ∀ block ∈ ledger.blocks, block.Timely config.genesisTimestamp

theorem PeerState.start_mineable {config : NodeConfig} (recipient : Hash256) {chain : Chain}
    {blocks : List Block} {catalog : OrderedMap UInt32 Block}
    (hacc : Accepted (buildConsensusParams config) blocks chain) (hcat : CatalogOf blocks catalog)
    (htimely : ∀ block ∈ blocks, block.Timely config.genesisTimestamp) :
    ({ start config recipient chain with catalog := catalog }).Mineable config where
  inv := start_inv recipient hacc hcat
  tmpl := ⟨recipient, rfl⟩
  genesis := rfl
  admitted := by simp [start, Mempool.Admitted, Mempool.new]
  fees := by simp [start, Mempool.FeesFrom, Mempool.new]
  timely := by
    intro block hb
    rw [ledgerBlocks, hcat.values_eq] at hb
    exact htimely block hb

theorem PeerState.fromConfig_mineable {config : NodeConfig} {dir : DataDir} {state : PeerState}
    (hledger : TimelyLedger config dir) (h : (fromConfig config dir).Returns (.ok state)) :
    state.Mineable config := by
  obtain ⟨recipient, _, ⟨hrestore, ledger, chain, hload, hacc, hrun⟩ | ⟨hrestore, _⟩⟩ :=
    fromConfig_returns h
  · obtain ⟨hparams, htimely⟩ := hledger hrestore ledger hload
    have hempty : CatalogOf [] (start config recipient chain).catalog := rfl
    refine restoreTransactions_keeps Mineable.accept _ _ ?_ _ _ hrun
    rw [storeBlocks_eq]
    exact start_mineable recipient (hparams ▸ hacc)
      (storeBlocks_catalog hempty fun i b hi => hacc.block_height hi) htimely
  · refine fromConfig_fresh hrestore h Mineable.minedKeep fun recipient =>
      start_mineable recipient (.create (create_genesis config _)) rfl ?_
    intro block hb
    rw [List.mem_singleton.mp hb]
    exact ⟨Nat.le_add_right _ _, by simp [buildGenesisBlock]⟩

theorem Reached.mineable {config : NodeConfig} {dir : DataDir} {state : PeerState}
    (hledger : TimelyLedger config dir) (h : Reached config dir (TimelyBlocks config) state) :
    state.Mineable config :=
  h.invariant (fun _ hstart => PeerState.fromConfig_mineable hledger hstart)
    PeerState.Mineable.accept PeerState.Mineable.minedKeep
    (fun _ _ block hI hop hb => hI.connectBlock (hop block hb))

namespace PeerState

theorem next_height {state : PeerState} (h : state.height < kUint32Max) :
    (state.height + 1).toNat = state.height.toNat + 1 := by
  have hlinks : state.chain.tip.emptyNext.LinksTo state.chain.tip :=
    BlockHeader.emptyNext_linksTo (UInt32.ne_of_lt h)
  exact hlinks.height_eq

theorem mineBlocks_one {state : PeerState} (hpersist : state.persist = false) {tmpl : BlockTemplate}
    (htmpl : state.nextTemplate = .ok tmpl) {fees : UInt64} {chain : Chain} {pool : Option Mempool}
    (hs : state.chain.submitBlock tmpl.block (some state.mempool) = .ok (fees, chain, pool)) :
    mineBlocks 1 state = .ret (.ok (), state.connected tmpl.block chain) := by
  have hrun := connectBlock_of_submit hs
  have hidle : persistLedger (state.connected tmpl.block chain) =
      .ret (.ok (), state.connected tmpl.block chain) := persistLedger_off hpersist
  have hone : (1 : UInt32).toNat = 0 + 1 := rfl
  simp only [mineBlocks, hone, mineLoop, Action.bind_run, Action.state_run, Process.bind_ret_left,
    Action.ofExcept_run, htmpl, hrun, Action.pure_run, hidle]

theorem mineBlocks_one_refused {state : PeerState}
    (h : ∀ tmpl, state.nextTemplate = .ok tmpl → ¬ tmpl.block.header.LinksTo state.chain.tip) :
    ∃ e, mineBlocks 1 state = .ret (.error e, state) := by
  have hone : (1 : UInt32).toNat = 0 + 1 := rfl
  simp only [mineBlocks, hone, mineLoop, Action.bind_run, Action.state_run, Process.bind_ret_left,
    Action.ofExcept_run]
  cases htmpl : state.nextTemplate with
  | error e => exact ⟨e, rfl⟩
  | ok tmpl =>
    obtain ⟨e, _, hrun⟩ | ⟨_, _, _, hs, _⟩ := connectBlock_run tmpl.block state
    · refine ⟨e, ?_⟩
      simp only [hrun, Process.bind_ret_left]
    · exact absurd (Chain.submitBlock_ok.mp hs).1 (h tmpl htmpl)

theorem mineBlocks_one_linked {state next : PeerState}
    (h : (mineBlocks 1 state).Returns (.ok (), next)) :
    ∃ tmpl, state.nextTemplate = .ok tmpl ∧ tmpl.block.header.LinksTo state.chain.tip := by
  by_contra hnone
  obtain ⟨e, hrefused⟩ := mineBlocks_one_refused fun tmpl htmpl hlinks =>
    hnone ⟨tmpl, htmpl, hlinks⟩
  rw [hrefused] at h
  cases h

def involved (state : PeerState) : List Transaction :=
  confirmed state.ledgerBlocks ++ state.mempool.pooledTransactions

def nextSelection (state : PeerState) : Selection :=
  templateSelection state.chain.tip
    (blockTimestamp state.genesisTimestamp (state.chain.height + 1)) state.mempool
    state.chain.utxos state.tmplParams

def nextCoinbase (state : PeerState) : Transaction :=
  makeCoinbase (state.height + 1)
    (state.tmplParams.consensus.blockSubsidy + state.nextSelection.totalFees)
    state.tmplParams.coinbaseRecipient

/-- The values the next coinbase can have when at most `fees` are collected. -/
def Reward (state : PeerState) (fees : Nat) (value : UInt64) : Prop :=
  state.chain.params.blockSubsidy.toNat ≤ value.toNat ∧
    value.toNat ≤ state.chain.params.blockSubsidy.toNat + fees

namespace Productive
variable {config : NodeConfig} {state : PeerState}

theorem template_ok_iff (h : state.Productive config)
    (hsize : config.maxBlockSizeBytes ≤ kMaxBlockSizeBytes) (hheight : state.height < kUint32Max)
    (hfresh : CoinbaseFresh state.mempool state.nextCoinbase) :
    (∃ tmpl, state.nextTemplate = .ok tmpl) ↔
      state.chain.params.blockSubsidy.toNat + state.nextSelection.totalFees.toNat ≤
        kMaxMoney.toNat ∧
      state.nextSelection.working.find ⟨state.nextCoinbase.txid, 0⟩ = none := by
  rw [← h.consensus_eq]
  constructor
  · intro hbuilt
    obtain ⟨tmpl, htmpl⟩ := hbuilt
    exact buildBlockTemplate_room h.inv.pool h.admitted h.accepted.withinMoney htmpl
  · intro hroom
    obtain ⟨hmoney, hunused⟩ := hroom
    cases hnext : state.nextTemplate with
    | ok tmpl => exact ⟨tmpl, rfl⟩
    | error e =>
      obtain hbig | hused := buildBlockTemplate_error h.inv.pool h.admitted h.accepted.withinMoney
        (UInt32.ne_of_lt hheight) (h.blockSize_le hsize)
        (fun _ _ he => hfresh.ne h.admitted he) hnext
      · exact absurd hmoney (Nat.not_le.mpr hbig)
      · exact absurd hunused (Option.isSome_iff_ne_none.mp hused)

theorem template_submits (h : state.Productive config)
    (htime : state.chain.tip.timestamp ≤
      blockTimestamp state.genesisTimestamp (state.chain.height + 1))
    {tmpl : BlockTemplate} (htmpl : state.nextTemplate = .ok tmpl) :
    ∃ chain pool,
      state.chain.submitBlock tmpl.block (some state.mempool) = .ok (tmpl.totalFees, chain, pool) ∧
      chain.height.toNat = state.height.toNat + 1 := by
  have hlinks := template_linksTo h.version_eq htime htmpl
  obtain ⟨utxos, hconn⟩ := buildBlockTemplate_connected htmpl
  rw [h.consensus_eq] at hconn
  exact ⟨⟨tmpl.block.header, utxos, state.chain.params⟩, _,
    Chain.submitBlock_ok.mpr ⟨hlinks, ⟨utxos, hconn, rfl⟩, rfl⟩, hlinks.height_eq⟩

end Productive

namespace Mineable
variable {config : NodeConfig} {state : PeerState}

theorem entry_settled (h : state.Mineable config) {e : Entry}
    (he : e ∈ state.mempool.entriesByFeerate) : e.Settled state.involved := by
  obtain ⟨id, hfind⟩ := mem_entriesByFeerate.mp he
  obtain ⟨hs, hcb⟩ := h.admitted id e hfind
  obtain ⟨utxos, hcoins, hfee⟩ := h.fees id e hfind
  have hmem : e ∈ state.mempool.byTxid.values := by
    rw [Mempool.entriesByFeerate, List.mem_insertionSort] at he
    exact he
  exact ⟨hs, hcb, List.mem_append_right _ (List.mem_map_of_mem hmem), utxos,
    hcoins.mono fun _ htx => List.mem_append_left _ htx, hfee⟩

theorem coinbase_new (h : state.Mineable config) (hheight : state.height < kUint32Max)
    (value : UInt64) (recipient : Hash256) :
    makeCoinbase (state.height + 1) value recipient ∉ state.involved := by
  intro hmem
  obtain hmem | hmem := List.mem_append.mp hmem
  · obtain ⟨block, hb, htx⟩ := List.mem_flatMap.mp hmem
    have hown := (h.timely block hb).own _ htx (makeCoinbase_isCoinbase _ _ _)
    simp only [makeCoinbase, heightInput, List.cons.injEq, TxInput.mk.injEq, OutPoint.mk.injEq,
      and_true] at hown
    have hsame := heightBytes_injective hown
    obtain ⟨i, hi⟩ := List.mem_iff_getElem?.mp hb
    obtain ⟨hlt, _⟩ := List.getElem?_eq_some_iff.mp hi
    have hat := h.accepted.block_height hi
    have hlen : state.height.toNat + 1 = state.ledgerBlocks.length := h.accepted.height_eq
    have hnext : (state.height + 1).toNat = state.height.toNat + 1 := next_height hheight
    rw [← hsame, hnext] at hat
    omega
  · obtain ⟨e, he, heq⟩ := List.mem_map.mp hmem
    obtain ⟨⟨id, e'⟩, hin, rfl⟩ := List.mem_map.mp he
    have hcb := (h.admitted id e' ((state.mempool.byTxid.find?_eq_some_iff _ _).mpr hin)).2
    rw [heq, makeCoinbase_isCoinbase] at hcb
    simp at hcb

theorem tip_time (h : state.Mineable config) (hheight : state.height < kUint32Max)
    (htime : state.genesisTimestamp.toNat + state.height.toNat + 1 < 2 ^ 64) :
    state.chain.tip.timestamp ≤ blockTimestamp state.genesisTimestamp (state.chain.height + 1) := by
  obtain ⟨top, htop, htip⟩ := h.accepted.top_block
  have hlate := (h.timely top (List.mem_of_getElem? htop)).time
  have hat := h.accepted.block_height htop
  have hnext : (state.chain.height + 1).toNat = state.chain.height.toNat + 1 := next_height hheight
  have hsame : state.height = state.chain.height := rfl
  rw [hsame] at htime
  rw [UInt64.le_iff_toNat_le, blockTimestamp, UInt64.toNat_add, UInt32.toNat_toUInt64, hnext,
    Nat.mod_eq_of_lt (by omega), h.genesis, ← htip]
  omega

theorem nextSelection_fees (h : state.Mineable config) (hids : DistinctIds state.involved) :
    state.nextSelection.working.OutputsOf state.involved ∧
      state.nextSelection.totalFees.toNat ≤ state.mempool.pooledFees :=
  templateSelection_fees hids (fun _ he => h.entry_settled he)
    (h.accepted.outputsOf.mono fun _ htx => List.mem_append_left _ htx)

theorem template_ok (h : state.Mineable config)
    (hsize : config.maxBlockSizeBytes ≤ kMaxBlockSizeBytes) (hids : DistinctIds state.involved)
    (hcoinbase : ∀ value, state.Reward state.mempool.pooledFees value → ∀ tx ∈ state.involved,
      (makeCoinbase (state.height + 1) value state.tmplParams.coinbaseRecipient).txid = tx.txid →
        makeCoinbase (state.height + 1) value state.tmplParams.coinbaseRecipient = tx)
    (hheight : state.height < kUint32Max)
    (hmoney : state.chain.params.blockSubsidy.toNat + state.mempool.pooledFees ≤ kMaxMoney.toNat) :
    ∃ tmpl, state.nextTemplate = .ok tmpl := by
  obtain ⟨hworking, hfees⟩ := h.nextSelection_fees hids
  have hsum : state.tmplParams.consensus.blockSubsidy.toNat + state.nextSelection.totalFees.toNat ≤
      kMaxMoney.toNat := by
    rw [h.consensus_eq]
    omega
  have hreward : state.Reward state.mempool.pooledFees
      (state.tmplParams.consensus.blockSubsidy + state.nextSelection.totalFees) := by
    have hmax : kMaxMoney.toNat < 2 ^ 64 := by decide
    rw [Reward, UInt64.toNat_add, Nat.mod_eq_of_lt (by omega), h.consensus_eq]
    omega
  have hfresh : CoinbaseFresh state.mempool state.nextCoinbase := by
    intro id entry hentry
    exact hcoinbase _ hreward _ (h.entry_settled (mem_entriesByFeerate.mpr ⟨id, hentry⟩)).listed
  refine (h.template_ok_iff hsize hheight hfresh).mpr ⟨h.consensus_eq ▸ hsum, ?_⟩
  cases hused : state.nextSelection.working.find ⟨state.nextCoinbase.txid, 0⟩ with
  | none => rfl
  | some coin =>
    obtain ⟨tx, htx, hid, _⟩ := hworking _ coin hused
    have hsame := hcoinbase _ hreward tx htx hid.symm
    exact absurd (hsame ▸ htx) (h.coinbase_new hheight _ _)

theorem template_transactions (h : state.Mineable config) (hids : DistinctIds state.involved)
    {tmpl : BlockTemplate} (htmpl : state.nextTemplate = .ok tmpl) :
    ∃ value, state.Reward state.mempool.pooledFees value ∧ ∀ tx ∈ tmpl.block.transactions,
      tx = makeCoinbase (state.height + 1) value state.tmplParams.coinbaseRecipient ∨
        tx ∈ state.mempool.pooledTransactions := by
  obtain ⟨hreward, hshape, _⟩ :=
    buildBlockTemplate_connects h.inv.pool h.admitted h.accepted.withinMoney htmpl
  have hcollected : tmpl.totalFees = state.nextSelection.totalFees := by
    rw [hshape]
    rfl
  have hvalue : (state.tmplParams.consensus.blockSubsidy + state.nextSelection.totalFees).toNat =
      state.tmplParams.consensus.blockSubsidy.toNat + tmpl.totalFees.toNat :=
    checkedAdd_toNat hreward
  have hfees := (h.nextSelection_fees hids).2
  refine ⟨state.tmplParams.consensus.blockSubsidy + state.nextSelection.totalFees, ?_, ?_⟩
  · rw [Reward, hvalue, hcollected, h.consensus_eq]
    omega
  · intro tx htx
    rw [hshape] at htx
    cases List.mem_cons.mp htx with
    | inl heq => exact .inl heq
    | inr hchosen =>
      obtain ⟨id, e, he, rfl⟩ := templateSelection_mem hchosen
      have hin := (state.mempool.byTxid.find?_eq_some_iff _ _).mp he
      exact .inr (List.mem_map_of_mem (List.mem_map_of_mem (f := Prod.snd) hin))

theorem submit_ok (h : state.Mineable config)
    (hsize : config.maxBlockSizeBytes ≤ kMaxBlockSizeBytes) (hids : DistinctIds state.involved)
    (hcoinbase : ∀ value, state.Reward state.mempool.pooledFees value → ∀ tx ∈ state.involved,
      (makeCoinbase (state.height + 1) value state.tmplParams.coinbaseRecipient).txid = tx.txid →
        makeCoinbase (state.height + 1) value state.tmplParams.coinbaseRecipient = tx)
    (hheight : state.height < kUint32Max)
    (htime : state.genesisTimestamp.toNat + state.height.toNat + 1 < 2 ^ 64)
    (hmoney : state.chain.params.blockSubsidy.toNat + state.mempool.pooledFees ≤ kMaxMoney.toNat) :
    ∃ tmpl chain pool, state.nextTemplate = .ok tmpl ∧
      state.chain.submitBlock tmpl.block (some state.mempool) = .ok (tmpl.totalFees, chain, pool) ∧
      chain.height.toNat = state.height.toNat + 1 := by
  obtain ⟨tmpl, hnext⟩ := h.template_ok hsize hids hcoinbase hheight hmoney
  obtain ⟨chain, pool, hs, hup⟩ := h.template_submits (h.tip_time hheight htime) hnext
  exact ⟨tmpl, chain, pool, hnext, hs, hup⟩

end Mineable
end PeerState

/-- In every run whose delivered blocks are timely, a node whose height, clock and fees are
in range mines a block, provided no two of the transactions it knows share an id. -/
theorem mining_succeeds {config : NodeConfig} {dir : DataDir} {state : PeerState}
    (hrestore : config.restore = false) (hpersist : config.persist = false)
    (hsize : config.maxBlockSizeBytes ≤ kMaxBlockSizeBytes)
    (h : Reached config dir (TimelyBlocks config) state)
    (hids : DistinctIds state.involved)
    (hcoinbase : ∀ value, ∀ tx ∈ state.involved,
      (makeCoinbase (state.height + 1) value state.tmplParams.coinbaseRecipient).txid = tx.txid →
        makeCoinbase (state.height + 1) value state.tmplParams.coinbaseRecipient = tx)
    (hheight : state.height < kUint32Max)
    (htime : state.genesisTimestamp.toNat + state.height.toNat + 1 < 2 ^ 64)
    (hmoney : state.chain.params.blockSubsidy.toNat + state.mempool.pooledFees ≤ kMaxMoney.toNat) :
    ∃ next, PeerState.mineBlocks 1 state = .ret (.ok (), next) ∧
      next.height.toNat = state.height.toNat + 1 := by
  have hmine := h.mineable fun hrestored => absurd hrestored (by simp [hrestore])
  obtain ⟨tmpl, chain, pool, hnext, hs, hup⟩ :=
    hmine.submit_ok hsize hids (fun value _ => hcoinbase value) hheight htime hmoney
  exact ⟨_, PeerState.mineBlocks_one (hmine.inv.persist_eq.trans hpersist) hnext hs, hup⟩

/-! A delivered block without transactions, on time or ahead of the node's clock. -/

def announcedBlock (timestamp : UInt64) : Block :=
  ⟨⟨kBlockVersion, (buildGenesisBlock {}).header.hash, zeroHash, timestamp, 1⟩, []⟩

def announcedNode (timestamp : UInt64) : PeerState :=
  (genesisNode {}).connected (announcedBlock timestamp)
    ⟨(announcedBlock timestamp).header, UtxoSet.empty, {}⟩

theorem announcedBlock_connects (timestamp : UInt64) :
    connectBlock (announcedBlock timestamp) UtxoSet.empty {} = .ok (0, UtxoSet.empty) :=
  connectBlock_nil _ _ _ rfl

theorem announcedNode_reached (timestamp : UInt64) {allowed : PeerState → PeerOp → Prop}
    (hop : allowed (genesisNode {})
      (.message (PeerState.blockAnnounceMessage (announcedBlock timestamp)))) :
    Reached {} ⟨none, none⟩ allowed (announcedNode timestamp) := by
  have hgenesis : Reached {} ⟨none, none⟩ allowed (genesisNode {}) :=
    genesisNode_reached rfl rfl rfl rfl _ _
  have hlate : ((genesisNode {}).chain.tip).timestamp ≤ timestamp := UInt64.le_iff_toNat_le.mpr
    (Nat.zero_le _)
  exact hgenesis.announce rfl (connectBlock_ok (announcedBlock_connects timestamp)).1 hop
    ⟨rfl, rfl, rfl, hlate⟩ (announcedBlock_connects timestamp)

theorem announcedNode_selects (timestamp : UInt64) :
    (announcedNode timestamp).nextSelection = ⟨UtxoSet.empty, 0, 176, []⟩ := by
  rw [PeerState.nextSelection, templateSelection_eq]
  rfl

/-- After a timely block the node mines the next one. -/
theorem mining_succeeds_announced :
    Reached {} ⟨none, none⟩ (TimelyBlocks {}) (announcedNode 1) ∧
    ∃ next, PeerState.mineBlocks 1 (announcedNode 1) = .ret (.ok (), next) ∧
      next.height.toNat = 2 := by
  have hsane := (connectBlock_ok (announcedBlock_connects 1)).1
  have hop : TimelyBlocks {} (genesisNode {})
      (.message (PeerState.blockAnnounceMessage (announcedBlock 1))) := by
    intro block hb
    have heq : block = announcedBlock 1 := PeerState.deliversBlock_announce hsane hb
    rw [heq]
    exact ⟨by decide, by simp [announcedBlock]⟩
  have hreached := announcedNode_reached 1 hop
  have hnone : (announcedNode 1).involved = [] := rfl
  refine ⟨hreached, mining_succeeds rfl rfl (by decide) hreached ?_ ?_ (by decide) (by decide)
    (by decide)⟩
  · simp [DistinctIds, hnone]
  · simp [hnone]

/-- A delivered block whose timestamp is ahead of the node's clock is accepted, and then the
node cannot mine on it: its template is older than the tip. -/
theorem late_block_stops_mining :
    ({} : NodeConfig).restore = false ∧ ({} : NodeConfig).persist = false ∧
    ({} : NodeConfig).maxBlockSizeBytes ≤ kMaxBlockSizeBytes ∧
    Reached {} ⟨none, none⟩ anyOp (announcedNode 3) ∧
    (announcedNode 3).height < kUint32Max ∧
    (announcedNode 3).genesisTimestamp.toNat + (announcedNode 3).height.toNat + 1 < 2 ^ 64 ∧
    (announcedNode 3).chain.params.blockSubsidy.toNat + (announcedNode 3).mempool.pooledFees ≤
      kMaxMoney.toNat ∧
    ∀ next, ¬ (PeerState.mineBlocks 1 (announcedNode 3)).Returns (.ok (), next) := by
  refine ⟨rfl, rfl, by decide, announcedNode_reached 3 trivial, by decide, by decide, by decide, ?_⟩
  intro next hnext
  obtain ⟨tmpl, htmpl, hlinks⟩ := PeerState.mineBlocks_one_linked hnext
  obtain ⟨_, _, _, _, _, hshape⟩ := buildBlockTemplate_eq_ok.mp htmpl
  have htime := hlinks.timestamp_le
  rw [hshape] at htime
  have hahead : ¬ (3 : UInt64) ≤ blockTimestamp 0 2 := by decide
  exact hahead htime

/-- Whatever its peers have sent, a node on the configured rules mines a block on its tip just
if the tip is not ahead of its clock, the reward is in the money range and the coin of the next
coinbase does not exist. -/
theorem mine_one_iff {config : NodeConfig} {dir : DataDir} {state : PeerState}
    (hrules : startParams config dir = buildConsensusParams config)
    (hpersist : config.persist = false) (hsize : config.maxBlockSizeBytes ≤ kMaxBlockSizeBytes)
    (h : Reached config dir anyOp state) (hheight : state.height < kUint32Max)
    (hfresh : CoinbaseFresh state.mempool state.nextCoinbase) :
    (∃ next, PeerState.mineBlocks 1 state = .ret (.ok (), next) ∧
        next.height.toNat = state.height.toNat + 1) ↔
      state.chain.tip.timestamp ≤ blockTimestamp state.genesisTimestamp (state.height + 1) ∧
      state.chain.params.blockSubsidy.toNat + state.nextSelection.totalFees.toNat ≤
        kMaxMoney.toNat ∧
      state.nextSelection.working.find ⟨state.nextCoinbase.txid, 0⟩ = none := by
  have hproductive := h.productive hrules
  rw [← hproductive.template_ok_iff hsize hheight hfresh]
  constructor
  · intro hmined
    obtain ⟨next, hrun, _⟩ := hmined
    have hreturns : (PeerState.mineBlocks 1 state).Returns (.ok (), next) := hrun ▸ .ret _
    obtain ⟨tmpl, htmpl, hlinks⟩ := PeerState.mineBlocks_one_linked hreturns
    obtain ⟨_, _, _, _, _, hshape⟩ := buildBlockTemplate_eq_ok.mp htmpl
    have htime := hlinks.timestamp_le
    rw [hshape] at htime
    exact ⟨htime, tmpl, htmpl⟩
  · intro hready
    obtain ⟨htime, tmpl, htmpl⟩ := hready
    obtain ⟨chain, pool, hs, hup⟩ := hproductive.template_submits htime htmpl
    exact ⟨_, PeerState.mineBlocks_one (hproductive.inv.persist_eq.trans hpersist) htmpl hs, hup⟩

/-- One second decides. -/
theorem announced_nodes_mine_iff :
    (∃ next, PeerState.mineBlocks 1 (announcedNode 2) = .ret (.ok (), next) ∧
      next.height.toNat = 2) ∧
    ¬ ∃ next, PeerState.mineBlocks 1 (announcedNode 3) = .ret (.ok (), next) ∧
      next.height.toNat = 2 := by
  have hmines : ∀ timestamp, (∃ next, PeerState.mineBlocks 1 (announcedNode timestamp) =
      .ret (.ok (), next) ∧ next.height.toNat = 2) ↔ timestamp ≤ 2 := by
    intro timestamp
    have hreached : Reached {} ⟨none, none⟩ anyOp (announcedNode timestamp) :=
      announcedNode_reached timestamp trivial
    have hheight : (announcedNode timestamp).height < kUint32Max := (by decide : 1 < kUint32Max)
    have hrules : startParams {} ⟨none, none⟩ = buildConsensusParams {} := rfl
    have hfresh : CoinbaseFresh (announcedNode timestamp).mempool
        (announcedNode timestamp).nextCoinbase := by
      intro id e he
      simp [announcedNode, PeerState.connected, genesisNode, PeerState.fresh, PeerState.storeBlock,
        PeerState.start, Mempool.new, Mempool.removeAll, announcedBlock] at he
    refine (mine_one_iff hrules rfl (by decide) hreached hheight hfresh).trans ?_
    have hmoney : ({} : ConsensusParams).blockSubsidy.toNat + (0 : UInt64).toNat ≤
        kMaxMoney.toNat := by decide
    rw [announcedNode_selects]
    exact ⟨fun h => h.1, fun h => ⟨h, hmoney, rfl⟩⟩
  exact ⟨(hmines 2).mpr (by decide), fun h => absurd ((hmines 3).mp h) (by decide)⟩

end Blockchain
