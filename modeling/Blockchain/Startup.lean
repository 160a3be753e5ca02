import Blockchain.LedgerRestart
import Blockchain.Production
import Blockchain.Sha256Eval

/-! A node coming up: it mines the configured number of blocks over an empty pool, each of
them a coinbase alone. -/
namespace Blockchain
open Lib

namespace PeerState

/-- Nothing is pooled, and templates are made under the parameters of the chain. -/
structure Idle (state : PeerState) : Prop where
  pool : state.mempool.byTxid = OrderedMap.empty
  version : state.tmplParams.version = kBlockVersion
  consensus : state.tmplParams.consensus = state.chain.params

def soloCoinbase (state : PeerState) : Transaction :=
  makeCoinbase (state.chain.height + 1) state.chain.params.blockSubsidy
    state.tmplParams.coinbaseRecipient

def soloBlock (state : PeerState) : Block :=
  templateBlock state.chain.tip (blockTimestamp state.genesisTimestamp (state.chain.height + 1))
    state.tmplParams state.chain.params.blockSubsidy []

def soloCoins (state : PeerState) : UtxoSet :=
  state.chain.utxos.insert ⟨state.soloCoinbase.txid, 0⟩
    ⟨⟨state.chain.params.blockSubsidy, state.tmplParams.coinbaseRecipient⟩,
      state.chain.height + 1, true⟩

def solo (state : PeerState) : PeerState :=
  state.connected state.soloBlock ⟨state.soloBlock.header, state.soloCoins, state.chain.params⟩

/-- What one more block over an empty pool takes. -/
structure SoloReady (state : PeerState) : Prop where
  height_ne : state.chain.height ≠ kUint32Max
  subsidy_le : state.chain.params.blockSubsidy ≤ kMaxMoney
  fresh : state.chain.utxos.find ⟨state.soloCoinbase.txid, 0⟩ = none
  time_le : state.chain.tip.timestamp ≤
    blockTimestamp state.genesisTimestamp (state.chain.height + 1)

namespace Idle
variable {state : PeerState}

theorem selection (h : state.Idle) (timestamp : UInt64) :
    (templateSelection state.chain.tip timestamp state.mempool state.chain.utxos
      state.tmplParams).totalFees = 0 ∧
    (templateSelection state.chain.tip timestamp state.mempool state.chain.utxos
      state.tmplParams).chosen = [] := by
  have hentries : state.mempool.entriesByFeerate = [] := by
    rw [Mempool.entriesByFeerate, h.pool]
    rfl
  simp only [templateSelection, hentries, selectTransactions, and_self]

theorem soloBlock_sane : state.soloBlock.Sane ↔ state.chain.params.blockSubsidy ≤ kMaxMoney := by
  refine ⟨?_, ?_⟩
  · intro hsane
    have hcoinbase := hsane.txs_sane _ List.mem_cons_self
    rw [UInt64.le_iff_toNat_le]
    simpa [outputValue, makeCoinbase] using hcoinbase.value_le
  · intro hle
    exact singleton_block_sane (single_sane rfl rfl hle) rfl

theorem connect_solo (h : state.Idle) {fees : UInt64} {utxos : UtxoSet} :
    Blockchain.connectBlock state.soloBlock state.chain.utxos state.chain.params =
      .ok (fees, utxos) ↔
      state.chain.params.blockSubsidy ≤ kMaxMoney ∧
      state.chain.utxos.find ⟨state.soloCoinbase.txid, 0⟩ = none ∧
      fees = 0 ∧ utxos = state.soloCoins := by
  have hreward : checkedAdd state.tmplParams.consensus.blockSubsidy 0 =
      some state.chain.params.blockSubsidy := by
    rw [h.consensus]
    simp [checkedAdd_eq_some, state.chain.params.blockSubsidy.toNat_lt]
  by_cases hle : state.chain.params.blockSubsidy ≤ kMaxMoney
  · have hnone : connectTransactions state.tmplParams.consensus (state.chain.tip.height + 1) []
        state.chain.utxos 0 = .ok (state.chain.utxos, 0) := rfl
    have hblock := connectBlock_templateBlock (soloBlock_sane.mpr hle) hnone hreward
    rw [h.consensus] at hblock
    rw [soloBlock, hblock, bind_eq_ok]
    simp only [UtxoSet.add_eq_ok, Except.ok.injEq, Prod.mk.injEq, hle, true_and]
    refine ⟨?_, ?_⟩
    · intro hadded
      obtain ⟨_, ⟨hfree, rfl⟩, rfl, rfl⟩ := hadded
      exact ⟨hfree, rfl, rfl⟩
    · intro hfree
      exact ⟨_, ⟨hfree.1, rfl⟩, hfree.2.1.symm, hfree.2.2.symm⟩
  · refine ⟨?_, fun hok => absurd hok.1 hle⟩
    intro hok
    exact absurd (soloBlock_sane.mp (connectBlock_ok hok).1) hle

theorem template_solo (h : state.Idle) {tmpl : BlockTemplate} :
    state.nextTemplate = .ok tmpl ↔
      state.chain.height ≠ kUint32Max ∧ state.chain.params.blockSubsidy ≤ kMaxMoney ∧
      state.chain.utxos.find ⟨state.soloCoinbase.txid, 0⟩ = none ∧
        tmpl = ⟨state.soloBlock, 0, 0⟩ := by
  obtain ⟨hfees, hchosen⟩ := h.selection
    (blockTimestamp state.genesisTimestamp (state.chain.height + 1))
  have hreward : ∀ reward, checkedAdd state.chain.params.blockSubsidy 0 = some reward ↔
      reward = state.chain.params.blockSubsidy := by
    intro reward
    simp [checkedAdd_eq_some, state.chain.params.blockSubsidy.toNat_lt]
  rw [nextTemplate, buildBlockTemplate_eq_ok]
  simp only [hfees, hchosen, h.consensus, hreward, List.length_nil]
  refine and_congr_right fun _ => ⟨?_, ?_⟩
  · intro hok
    obtain ⟨_, next, rfl, hconn, hshape⟩ := hok
    obtain ⟨hle, hfree, hzero, _⟩ := h.connect_solo.mp hconn
    rw [hzero] at hshape
    exact ⟨hle, hfree, hshape⟩
  · intro hok
    obtain ⟨hle, hfree, rfl⟩ := hok
    exact ⟨_, _, rfl, h.connect_solo.mpr ⟨hle, hfree, rfl, rfl⟩, rfl⟩

theorem solo_idle (h : state.Idle) : state.solo.Idle where
  pool := by
    apply OrderedMap.ext_find?
    intro id
    cases hfind : state.solo.mempool.byTxid.find? id with
    | none => rfl
    | some e =>
      have hold := (Mempool.find?_removeAll.mp hfind).1
      rw [h.pool] at hold
      cases hold
  version := h.version
  consensus := h.consensus

theorem soloBlock_linksTo (h : state.Idle) (hheight : state.chain.height ≠ kUint32Max) :
    state.soloBlock.header.LinksTo state.chain.tip ↔
      state.chain.tip.timestamp ≤ blockTimestamp state.genesisTimestamp
        (state.chain.height + 1) := by
  have hnext := (BlockHeader.emptyNext_linksTo hheight).height_eq
  exact ⟨fun hlinks => hlinks.timestamp_le, fun htime => ⟨h.version, rfl, hnext, htime⟩⟩

theorem mineLoop_succ (h : state.Idle) (n : Nat) :
    (state.SoloReady → mineLoop (n + 1) state = mineLoop n state.solo) ∧
    (¬ state.SoloReady → ∃ e, mineLoop (n + 1) state = .ret (.error e, state)) := by
  have hturn : mineLoop (n + 1) state = (Action.ofExcept state.nextTemplate >>= fun tmpl =>
      PeerState.connectBlock tmpl.block >>= fun _ => mineLoop n) state := by
    rw [mineLoop, Action.bind_run, Action.state_run, Process.bind_ret_left]
  rw [hturn, Action.bind_run, Action.ofExcept_run, Process.bind_ret_left]
  refine ⟨?_, ?_⟩
  · intro hready
    have htmpl := h.template_solo.mpr ⟨hready.height_ne, hready.subsidy_le, hready.fresh, rfl⟩
    have hconn := h.connect_solo.mpr ⟨hready.subsidy_le, hready.fresh, rfl, rfl⟩
    have hs : state.chain.submitBlock state.soloBlock (some state.mempool) =
        .ok (0, ⟨state.soloBlock.header, state.soloCoins, state.chain.params⟩, _) :=
      Chain.submitBlock_ok.mpr
        ⟨(h.soloBlock_linksTo hready.height_ne).mpr hready.time_le, ⟨_, hconn, rfl⟩, rfl⟩
    simp only [htmpl, Action.bind_run, connectBlock_of_submit hs, Process.bind_ret_left]
    rfl
  · intro hnot
    cases htmpl : state.nextTemplate with
    | error e => exact ⟨e, rfl⟩
    | ok tmpl =>
      obtain ⟨hheight, hle, hfree, rfl⟩ := h.template_solo.mp htmpl
      obtain ⟨e, he, hrun⟩ | ⟨fees, chain, pool, hs, hrun⟩ :=
        connectBlock_run state.soloBlock state
      · refine ⟨e, ?_⟩
        simp only [Action.bind_run, hrun, Process.bind_ret_left]
      · have hlinks := (h.soloBlock_linksTo hheight).mp (Chain.submitBlock_ok.mp hs).1
        exact absurd ⟨hheight, hle, hfree, hlinks⟩ hnot

/-- The loop runs to its end exactly when every turn finds the state ready. -/
theorem mineLoop_solo (h : state.Idle) (n : Nat) :
    ((∀ i < n, (solo^[i] state).SoloReady) → mineLoop n state = .ret (.ok (), solo^[n] state)) ∧
    ((¬ ∀ i < n, (solo^[i] state).SoloReady) →
      ∃ e last, mineLoop n state = .ret (.error e, last)) := by
  induction n generalizing state with
  | zero =>
    exact ⟨fun _ => rfl, fun hnot => absurd (fun _ hi => absurd hi (Nat.not_lt_zero _)) hnot⟩
  | succ n ih =>
    obtain ⟨hok, herror⟩ := ih h.solo_idle
    obtain ⟨hturn, hstop⟩ := h.mineLoop_succ n
    refine ⟨?_, ?_⟩
    · intro hready
      rw [hturn (hready 0 (Nat.succ_pos n))]
      exact hok fun i hi => hready (i + 1) (Nat.succ_lt_succ hi)
    · intro hnot
      by_cases hfirst : state.SoloReady
      · rw [hturn hfirst]
        refine herror fun hrest => hnot fun i hi => ?_
        cases i with
        | zero => exact hfirst
        | succ i => exact hrest i (Nat.lt_of_succ_lt_succ hi)
      · obtain ⟨e, he⟩ := hstop hfirst
        exact ⟨e, state, he⟩

end Idle

def startCoinbase (config : NodeConfig) (recipient : Hash256) (height : Nat) : Transaction :=
  makeCoinbase (UInt32.ofNat height) (buildConsensusParams config).blockSubsidy recipient

/-- A node that has mined `count` blocks on its genesis block. -/
structure Risen (config : NodeConfig) (recipient : Hash256) (count : Nat)
    (state : PeerState) : Prop where
  height_eq : state.chain.height = UInt32.ofNat count
  time_eq : state.chain.tip.timestamp = blockTimestamp config.genesisTimestamp (UInt32.ofNat count)
  params_eq : state.chain.params = buildConsensusParams config
  tmpl_eq : state.tmplParams = buildTemplateParams config (buildConsensusParams config) recipient
  genesis_eq : state.genesisTimestamp = config.genesisTimestamp
  persist_eq : state.persist = config.persist
  nodeId_eq : state.nodeId = config.nodeId
  pool : state.mempool.byTxid = OrderedMap.empty
  coins : ∀ id, state.chain.utxos.find ⟨id, 0⟩ = none ↔
    ∀ j < count, (startCoinbase config recipient (j + 1)).txid ≠ id

namespace Risen
variable {config : NodeConfig} {recipient : Hash256} {count : Nat} {state : PeerState}

theorem idle (h : Risen config recipient count state) : state.Idle where
  pool := h.pool
  version := by
    rw [h.tmpl_eq]
    rfl
  consensus := by
    rw [h.tmpl_eq, h.params_eq]
    rfl

theorem next_height (h : Risen config recipient count state) :
    state.chain.height + 1 = UInt32.ofNat (count + 1) := by
  rw [h.height_eq, UInt32.ofNat_add]
  rfl

theorem soloCoinbase_eq (h : Risen config recipient count state) :
    state.soloCoinbase = startCoinbase config recipient (count + 1) := by
  rw [soloCoinbase, startCoinbase, h.next_height, h.params_eq, h.tmpl_eq]
  rfl

theorem solo (h : Risen config recipient count state) :
    Risen config recipient (count + 1) state.solo where
  height_eq := h.next_height
  time_eq := by
    rw [← h.next_height, ← h.genesis_eq]
    rfl
  params_eq := h.params_eq
  tmpl_eq := h.tmpl_eq
  genesis_eq := h.genesis_eq
  persist_eq := h.persist_eq
  nodeId_eq := h.nodeId_eq
  pool := h.idle.solo_idle.pool
  coins := by
    intro id
    have hcoins : state.solo.chain.utxos.find ⟨id, 0⟩ = none ↔
        state.soloCoinbase.txid ≠ id ∧ state.chain.utxos.find ⟨id, 0⟩ = none := by
      change (state.soloCoins.find ⟨id, 0⟩) = none ↔ _
      by_cases heq : state.soloCoinbase.txid = id
      · rw [← heq, soloCoins, UtxoSet.find, OrderedMap.find?_insert_self]
        simp
      · have hne : (⟨id, 0⟩ : OutPoint) ≠ ⟨state.soloCoinbase.txid, 0⟩ := by
          intro hsame
          exact heq (OutPoint.mk.inj hsame).1.symm
        rw [soloCoins, UtxoSet.find, OrderedMap.find?_insert_of_ne _ _ hne]
        simp [heq, UtxoSet.find]
    rw [hcoins, h.coins, h.soloCoinbase_eq]
    refine ⟨?_, ?_⟩
    · intro hnew j hj
      cases Nat.lt_succ_iff_lt_or_eq.mp hj with
      | inl hlt => exact hnew.2 j hlt
      | inr heq =>
        rw [heq]
        exact hnew.1
    · intro hnew
      exact ⟨hnew count (Nat.lt_succ_self _), fun j hj => hnew j (Nat.lt_succ_of_lt hj)⟩

theorem soloReady_iff (h : Risen config recipient count state) (hcount : count < 2 ^ 32) :
    state.SoloReady ↔ count + 1 < 2 ^ 32 ∧
      (buildConsensusParams config).blockSubsidy ≤ kMaxMoney ∧
      (∀ j < count, (startCoinbase config recipient (j + 1)).txid ≠
        (startCoinbase config recipient (count + 1)).txid) ∧
      blockTimestamp config.genesisTimestamp (UInt32.ofNat count) ≤
        blockTimestamp config.genesisTimestamp (UInt32.ofNat (count + 1)) := by
  have hmax : UInt32.ofNat count ≠ kUint32Max ↔ count + 1 < 2 ^ 32 := by
    rw [ne_eq, ← UInt32.toNat_inj, UInt32.toNat_ofNat_of_lt' hcount]
    have hvalue : kUint32Max.toNat = 2 ^ 32 - 1 := by decide
    omega
  have hfields : state.SoloReady ↔ state.chain.height ≠ kUint32Max ∧
      state.chain.params.blockSubsidy ≤ kMaxMoney ∧
      state.chain.utxos.find ⟨state.soloCoinbase.txid, 0⟩ = none ∧
      state.chain.tip.timestamp ≤
        blockTimestamp state.genesisTimestamp (state.chain.height + 1) :=
    ⟨fun hready => ⟨hready.height_ne, hready.subsidy_le, hready.fresh, hready.time_le⟩,
      fun hready => ⟨hready.1, hready.2.1, hready.2.2.1, hready.2.2.2⟩⟩
  rw [hfields, h.next_height, h.height_eq, hmax, h.params_eq, h.coins, h.soloCoinbase_eq, h.time_eq,
    h.genesis_eq]

end Risen

theorem fresh_risen (config : NodeConfig) (recipient : Hash256) (count : Nat) :
    Risen config recipient count (solo^[count] (fresh config recipient)) := by
  induction count with
  | zero =>
    exact ⟨rfl, (UInt64.add_zero _).symm, rfl, rfl, rfl, rfl, rfl, rfl,
      fun id => ⟨fun _ j hj => absurd hj (Nat.not_lt_zero j), fun _ => rfl⟩⟩
  | succ count ih =>
    rw [Function.iterate_succ_apply']
    exact ih.solo

theorem blockTimestamp_mono_iff (genesis : UInt64) {count : Nat} (hcount : count < 2 ^ 32) :
    (∀ i < count, blockTimestamp genesis (UInt32.ofNat i) ≤
      blockTimestamp genesis (UInt32.ofNat (i + 1))) ↔ genesis.toNat + count < 2 ^ 64 := by
  have hvalue : ∀ i, i < 2 ^ 32 → (blockTimestamp genesis (UInt32.ofNat i)).toNat =
      (genesis.toNat + i) % 2 ^ 64 := by
    intro i hi
    rw [blockTimestamp, UInt64.toNat_add, UInt32.toNat_toUInt64, UInt32.toNat_ofNat_of_lt' hi]
  have hgenesis := genesis.toNat_lt
  refine ⟨?_, ?_⟩
  · intro hmono
    by_contra hwrap
    -- the last moment before the clock wraps
    have hlast := hmono (2 ^ 64 - 1 - genesis.toNat) (by omega)
    rw [UInt64.le_iff_toNat_le, hvalue _ (by omega), hvalue _ (by omega)] at hlast
    omega
  · intro hlt i hi
    rw [UInt64.le_iff_toNat_le, hvalue _ (by omega), hvalue _ (by omega)]
    omega

structure CanStart (config : NodeConfig) (recipient : Hash256) : Prop where
  subsidy_le : config.mineBlocks ≠ 0 → (buildConsensusParams config).blockSubsidy ≤ kMaxMoney
  time_lt : config.genesisTimestamp.toNat + config.mineBlocks.toNat < 2 ^ 64
  ids_ne : ∀ i j, i < j → j < config.mineBlocks.toNat →
    (startCoinbase config recipient (i + 1)).txid ≠ (startCoinbase config recipient (j + 1)).txid

theorem canStart_iff (config : NodeConfig) (recipient : Hash256) :
    (∀ i < config.mineBlocks.toNat, (solo^[i] (fresh config recipient)).SoloReady) ↔
      CanStart config recipient := by
  have hcount := config.mineBlocks.toNat_lt
  have hready : ∀ i < config.mineBlocks.toNat, _ := fun i hi =>
    (fresh_risen config recipient i).soloReady_iff (Nat.lt_trans hi hcount)
  have hnone : config.mineBlocks ≠ 0 ↔ 0 < config.mineBlocks.toNat := by
    rw [ne_eq, ← UInt32.toNat_inj, UInt32.toNat_zero]
    omega
  refine ⟨?_, ?_⟩
  · intro h
    refine ⟨?_, ?_, ?_⟩
    · intro hne
      exact ((hready 0 (hnone.mp hne)).mp (h 0 (hnone.mp hne))).2.1
    · exact (blockTimestamp_mono_iff _ hcount).mp fun i hi => ((hready i hi).mp (h i hi)).2.2.2
    · intro i j hij hj
      exact ((hready j hj).mp (h j hj)).2.2.1 i hij
  · intro h i hi
    refine (hready i hi).mpr ⟨by omega, ?_, fun j hj => h.ids_ne j i hj hi, ?_⟩
    · exact h.subsidy_le (hnone.mpr (Nat.lt_of_le_of_lt (Nat.zero_le i) hi))
    · exact (blockTimestamp_mono_iff _ hcount).mpr h.time_lt i hi

section
variable {config : NodeConfig} {recipient : Hash256}
  (hrecipient : resolveCoinbaseRecipient config = .ok recipient)
  (hrestore : config.restore = false) (hpersist : config.persist = false)
include hrecipient hrestore hpersist

theorem fromConfig_starts_iff (dir : DataDir) (state : PeerState) :
    fromConfig config dir = .ret (.ok state) ↔
      CanStart config recipient ∧
        state = solo^[config.mineBlocks.toNat] (fresh config recipient) := by
  have hrisen := fresh_risen config recipient config.mineBlocks.toNat
  have hidle : (fresh config recipient).Idle := (fresh_risen config recipient 0).idle
  obtain ⟨hok, herror⟩ := hidle.mineLoop_solo config.mineBlocks.toNat
  rw [canStart_iff] at hok herror
  by_cases hstart : CanStart config recipient
  · rw [fromConfig_of_loop hrecipient hrestore hpersist dir (hok hstart)
      fun _ => hrisen.persist_eq.trans hpersist]
    simp only [Except.map, Process.ret.injEq, Except.ok.injEq, hstart, true_and]
    exact eq_comm
  · obtain ⟨e, last, hrun⟩ := herror hstart
    rw [fromConfig_of_loop hrecipient hrestore hpersist dir hrun nofun]
    simp [Except.map, hstart]

end

/-- The node's handshake can be encoded, and the peer reads it back. -/
def Greets (state : PeerState) : Prop :=
  ∃ message, makeHandshakeMessage state.localHandshake = .ok message ∧
    parseHandshakeMessage message = .ok state.localHandshake

theorem greets_iff (state : PeerState) : state.Greets ↔ ValidNodeId state.nodeId := by
  refine ⟨?_, ?_⟩
  · intro h
    obtain ⟨message, hmake, -⟩ := h
    exact (makeHandshakeMessage_ok.mp hmake).1
  · intro hid
    obtain ⟨message, hmake⟩ : ∃ message, makeHandshakeMessage state.localHandshake = .ok message :=
      ⟨_, makeHandshakeMessage_ok.mpr ⟨hid, rfl⟩⟩
    exact ⟨message, hmake, parseHandshakeMessage_make rfl hmake⟩

theorem Inv.encodes_iff {config : NodeConfig} {params : ConsensusParams} {state : PeerState}
    (h : state.Inv config params) (stored : ConsensusParams) :
    (∃ bytes, encodeLedger state.ledgerBlocks stored state.mempool.sortedTransactions = .ok bytes) ↔
      state.FitsLedger := by
  constructor
  · intro hencodes
    obtain ⟨bytes, hbytes⟩ := hencodes
    have hlimits := (encodeLedger_eq_ok.mp hbytes).1
    have hpool := hlimits.mempool_le
    rw [h.pool.sortedTransactions_length] at hpool
    exact ⟨hlimits.blocks_le, hpool⟩
  · intro hfits
    obtain ⟨_, hstore⟩ := h.storable hfits
    exact ⟨_, encodeLedger_ok hstore.encodable stored⟩

end PeerState

theorem NodeConfig.Valid.recipient_ok {config : NodeConfig} (h : config.Valid) :
    ∃ recipient, resolveCoinbaseRecipient config = .ok recipient := by
  by_cases hhex : config.coinbaseRecipientHex = []
  · exact ⟨zeroHash, by simp [resolveCoinbaseRecipient, hhex]⟩
  · obtain ⟨hash, hhash⟩ := h.recipient hhex
    exact ⟨hash, by simp [resolveCoinbaseRecipient, hhex, hhash]⟩

/-- A validated configuration brings up a node that can greet exactly if its blocks can be mined
and its node id fits a handshake. In a state it reaches its ledger can be encoded exactly if the
pool fits, and so in every state if its pool limit is within the ledger's. -/
theorem validated_config_suffices_iff {config : NodeConfig} (hvalid : config.validate = .ok ())
    (hrestore : config.restore = false) (hpersist : config.persist = false) (dir : DataDir) :
    ((∃ state, PeerState.fromConfig config dir = .ret (.ok state) ∧
        state.height = config.mineBlocks ∧ state.Greets) ↔
      (∀ recipient, resolveCoinbaseRecipient config = .ok recipient →
        PeerState.CanStart config recipient) ∧ config.nodeId.length ≤ kMaxNodeIdBytes.toNat) ∧
    (∀ state, Reached config dir anyOp state →
      state.ledgerBlocks.length ≤ kMaxLedgerBlocks.toNat → ∀ params,
        ((∃ bytes, encodeLedger state.ledgerBlocks params
          state.mempool.sortedTransactions = .ok bytes) ↔
            state.mempool.size ≤ kMaxLedgerMempoolTransactions.toNat)) ∧
    ((resolvedMempoolLimits config).maxTransactions ≤ kMaxLedgerMempoolTransactions →
      ∀ state, Reached config dir anyOp state →
        state.ledgerBlocks.length ≤ kMaxLedgerBlocks.toNat →
        ∀ params, ∃ bytes, encodeLedger state.ledgerBlocks params
          state.mempool.sortedTransactions = .ok bytes) := by
  have hconfig := (NodeConfig.validate_ok config).mp hvalid
  obtain ⟨recipient, hrecipient⟩ := hconfig.recipient_ok
  have hstarts := PeerState.fromConfig_starts_iff hrecipient hrestore hpersist dir
  have hrisen := PeerState.fresh_risen config recipient config.mineBlocks.toNat
  refine ⟨⟨?_, ?_⟩, ?_, ?_⟩
  · intro h
    obtain ⟨state, hrun, -, hgreets⟩ := h
    obtain ⟨hstart, rfl⟩ := (hstarts state).mp hrun
    have hid := ((PeerState.greets_iff _).mp hgreets).2
    rw [hrisen.nodeId_eq] at hid
    refine ⟨?_, hid⟩
    intro other hother
    rw [hrecipient] at hother
    cases hother
    exact hstart
  · intro h
    refine ⟨_, (hstarts _).mpr ⟨h.1 recipient hrecipient, rfl⟩, ?_, ?_⟩
    · exact hrisen.height_eq.trans (UInt32.ofNat_toNat)
    · rw [PeerState.greets_iff, hrisen.nodeId_eq]
      exact ⟨hconfig.nodeId_ne, h.2⟩
  · intro state hreached hblocks params
    rw [hreached.inv.encodes_iff]
    exact ⟨fun h => h.pool_le, fun hpool => ⟨hblocks, hpool⟩⟩
  · intro hlimit state hreached hblocks params
    have hinv := hreached.inv
    have hcount := hinv.pool.count_le
    rw [hinv.limits_eq] at hcount
    exact (hinv.encodes_iff params).mpr ⟨hblocks, hcount.trans (UInt32.le_iff_toNat_le.mp hlimit)⟩

/-- A node that mines two blocks before it is handed over. -/
theorem two_blocks_suffice :
    ({ mineBlocks := 2 } : NodeConfig).validate = .ok () ∧
    (∃ state, PeerState.fromConfig { mineBlocks := 2 } ⟨none, none⟩ = .ret (.ok state) ∧
      state.height = 2 ∧ state.Greets) ∧
    ∀ state, Reached { mineBlocks := 2 } ⟨none, none⟩ anyOp state →
      state.ledgerBlocks.length ≤ kMaxLedgerBlocks.toNat →
      ∀ params, ∃ bytes, encodeLedger state.ledgerBlocks params
        state.mempool.sortedTransactions = .ok bytes := by
  have hvalid : ({ mineBlocks := 2 } : NodeConfig).validate = .ok () := by decide
  obtain ⟨hstarts, _, hencodes⟩ := validated_config_suffices_iff hvalid rfl rfl ⟨none, none⟩
  refine ⟨hvalid, hstarts.mpr ⟨?_, by decide⟩, hencodes (by decide)⟩
  intro recipient hrecipient
  have hzero : recipient = zeroHash := (Except.ok.inj hrecipient).symm
  refine ⟨fun _ => by decide, by decide, ?_⟩
  intro i j hij hj
  have hj2 : j < 2 := hj
  have hi : i = 0 := by omega
  have hj1 : j = 1 := by omega
  rw [hzero, hi, hj1]
  apply WordState.sha256d_ne
  decide +kernel

def longName : NodeConfig := { nodeId := List.replicate 65 97 }

def richMiner : NodeConfig := { mineBlocks := 1, blockSubsidy := 18446744073709551615 }

def lateMiner : NodeConfig := { mineBlocks := 1, genesisTimestamp := 18446744073709551615 }

/-- Validation lets through a node id of 65 bytes, with which no handshake can be made, and a
subsidy beyond the money range and a genesis time at the end of the clock, with which the first
block cannot be mined. -/
theorem valid_configs_fail :
    (longName.validate = .ok () ∧
      PeerState.fromConfig longName ⟨none, none⟩ = .ret (.ok (genesisNode longName)) ∧
      ∀ message, makeHandshakeMessage (genesisNode longName).localHandshake ≠ .ok message) ∧
    (richMiner.validate = .ok () ∧
      ∀ state, PeerState.fromConfig richMiner ⟨none, none⟩ ≠ .ret (.ok state)) ∧
    (lateMiner.validate = .ok () ∧
      ∀ state, PeerState.fromConfig lateMiner ⟨none, none⟩ ≠ .ret (.ok state)) := by
  refine ⟨⟨by decide, fromConfig_genesis rfl rfl rfl rfl _, ?_⟩, ⟨by decide, ?_⟩, by decide, ?_⟩
  · intro message hmake
    have hid := (makeHandshakeMessage_ok.mp hmake).1.2
    exact absurd hid (by decide)
  · intro state hrun
    have hstart := ((PeerState.fromConfig_starts_iff rfl rfl rfl _ state).mp hrun).1
    exact absurd (hstart.subsidy_le (by decide)) (by decide)
  · intro state hrun
    have hstart := ((PeerState.fromConfig_starts_iff rfl rfl rfl _ state).mp hrun).1
    exact absurd hstart.time_lt (by decide)

end Blockchain
