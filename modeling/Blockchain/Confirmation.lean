import Blockchain.FailedMessages
import Blockchain.GreedySelection
import Blockchain.Maturity

/-! Progress of local mining. Over a valid pool, a template takes at least one of the mature
transactions that fit in a block, and a mined block makes nothing immature, so a node that
keeps mining confirms them all and keeps only what fits in no block. -/
namespace Blockchain
open Lib

theorem Accepted.coin_height_le {params : ConsensusParams} {blocks : List Block} {chain : Chain}
    (h : Accepted params blocks chain) {o : OutPoint} {c : Coin}
    (hc : chain.utxos.find o = some c) : c.height.toNat ≤ chain.height.toNat := by
  obtain ⟨hadm, hfind⟩ := h.store_history
  rw [hfind, SpendLog.store_eq_some_iff hadm] at hc
  obtain ⟨pre, event, post, hsplit, hcreate, _⟩ := hc
  have hevent : event ∈ (history blocks).map historyEvent := by simp [hsplit]
  obtain ⟨entry, hentry, rfl⟩ := List.mem_map.mp hevent
  obtain ⟨_, _, hheight, _⟩ := createdCoins_eq_some.mp hcreate
  have hlt := mem_history_lt hentry
  have hlen := h.height_eq
  rw [hheight, UInt32.toNat_ofNat_of_lt' (h.height_of_mem_history hentry)]
  omega

/-- The entry fits in a block: header, count and coinbase take 176 bytes. -/
def BlockTemplateParams.fits (params : BlockTemplateParams) (entry : Entry) : Bool :=
  decide (176 + entry.sizeBytes.toNat ≤ params.maxBlockSizeBytes.toNat)

namespace PeerState

def waiting (state : PeerState) : List Entry :=
  state.mempool.byTxid.values.filter state.tmplParams.fits

def nextTaken (state : PeerState) : List Entry :=
  greedy (templateTakes state.tmplParams (state.height + 1) state.chain.utxos) []
    state.mempool.entriesByFeerate

theorem waiting_connected (state : PeerState) (block : Block) (chain : Chain) :
    (state.connected block chain).waiting.Sublist state.waiting :=
  (state.mempool.values_removeAll_sublist _).filter _

/-- After `delay` blocks, no pooled transaction spends an immature coinbase in the next one. -/
def RipeIn (state : PeerState) (delay : Nat) : Prop :=
  ∀ id e, state.mempool.byTxid.find? id = some e → ∀ o ∈ e.transaction.prevouts, ∀ coin,
    state.chain.utxos.find o = some coin → coin.coinbase = true →
      coin.height.toNat + state.chain.params.coinbaseMaturity.toNat ≤
        state.height.toNat + 1 + delay

/-- What mining `count` blocks needs to confirm the pool. -/
structure Clearing (config : NodeConfig) (count : Nat) (known : List Transaction)
    (fees delay : Nat) (state : PeerState) : Prop where
  mineable : state.Mineable config
  valid : state.PoolValid
  room : state.RoomToMine count known fees
  knows : ∀ tx ∈ state.involved, tx ∈ known
  fees_le : state.mempool.pooledFees ≤ fees
  ripe : state.RipeIn delay

theorem Mineable.coinbases_nodup {config : NodeConfig} {state : PeerState}
    (h : state.Mineable config) : (coinbases state.ledgerBlocks).Nodup := by
  rw [coinbases, confirmed, List.filter_flatMap, List.nodup_flatMap]
  refine ⟨fun block hb => (h.accepted.block_sane block hb).txids_nodup.of_map.filter _, ?_⟩
  rw [List.pairwise_iff_getElem]
  intro i j hi hj hij tx htx htx'
  obtain ⟨hmem, hcb⟩ := List.mem_filter.mp htx
  have hown := (h.timely _ (List.getElem_mem hi)).own tx hmem hcb
  have hown' := (h.timely _ (List.getElem_mem hj)).own tx (List.mem_filter.mp htx').1 hcb
  rw [hown] at hown'
  simp only [heightInput, List.cons.injEq, TxInput.mk.injEq, OutPoint.mk.injEq, and_true] at hown'
  have hsame := heightBytes_injective hown'
  have hat := h.accepted.block_height (List.getElem?_eq_getElem hi)
  have hat' := h.accepted.block_height (List.getElem?_eq_getElem hj)
  rw [hsame] at hat
  omega

namespace Clearing
variable {config : NodeConfig} {count fees delay : Nat} {known : List Transaction}
  {state : PeerState}

theorem distinct (h : state.Clearing config count known fees delay) :
    DistinctIds state.involved := fun tx htx tx' htx' =>
  h.room.distinct tx tx' (.inl (h.knows tx htx)) (.inl (h.knows tx' htx'))

theorem height_lt (h : state.Clearing config (count + 1) known fees delay) :
    state.height < kUint32Max := by
  have hroom := h.room.height_lt
  have hmax : kUint32Max.toNat = 2 ^ 32 - 1 := rfl
  exact UInt32.lt_iff_toNat_lt.mpr (by omega)

theorem input_ok (h : state.Clearing config count known fees delay) {id : Hash256} {e : Entry}
    (he : state.mempool.byTxid.find? id = some e) :
    checkTransactionInputs e.transaction state.chain.utxos = .ok e.fee :=
  (validateForMempool_ok (h.valid id e he)).2.2.1

theorem pooled_involved (h : state.Clearing config count known fees delay) {id : Hash256}
    {e : Entry} (he : state.mempool.byTxid.find? id = some e) :
    e.transaction ∈ state.involved :=
  (h.mineable.entry_settled (mem_entriesByFeerate.mpr ⟨id, he⟩)).listed

/-- A valid entry is not on the chain: there, its inputs would be gone. -/
theorem unconfirmed (h : state.Clearing config count known fees delay) {id : Hash256} {e : Entry}
    (he : state.mempool.byTxid.find? id = some e) :
    e.transaction ∉ confirmed state.ledgerBlocks := by
  intro hmem
  have hcol : ∀ t ∈ confirmed state.ledgerBlocks, ∀ t' ∈ confirmed state.ledgerBlocks,
      t.txid = t'.txid → t = t' := fun t ht t' ht' =>
    h.distinct t (List.mem_append_left _ ht) t' (List.mem_append_left _ ht')
  have hnodup := h.mineable.accepted.idents_nodup hcol h.mineable.coinbases_nodup
  obtain ⟨hs, hcb⟩ := h.mineable.admitted id e he
  obtain ⟨o, ho⟩ := List.exists_mem_of_ne_nil _ (mt List.map_eq_nil_iff.mp hs.inputs_ne)
  have hgone := h.mineable.accepted.spent_input_gone hnodup hmem hcb ho
  have hpresent := (checkTransactionInputs_ok hs (h.input_ok he)).1 o ho
  simp [hgone] at hpresent

theorem independent (h : state.Clearing config count known fees delay) :
    Independent state.chain.utxos state.mempool.entriesByFeerate := by
  have hfind : ∀ e ∈ state.mempool.byTxid.values, state.mempool.byTxid.find? e.txid = some e :=
    fun e he => (Mempool.mem_values_iff h.mineable.inv.pool).mp he
  refine h.mineable.inv.pool.independent h.mineable.admitted
    (fun e he => h.input_ok (hfind e he)) fun e he j _ => ?_
  refine Option.eq_none_iff_forall_ne_some.mpr fun c hc => h.unconfirmed (hfind e he) ?_
  obtain ⟨tx, htx, hid, _⟩ := h.mineable.accepted.outputsOf _ c hc
  rw [← h.distinct tx (List.mem_append_left _ htx) _ (h.pooled_involved (hfind e he)) hid]
  exact htx

/-! The block that is mined next. -/

theorem taken_fits {e : Entry} (he : e ∈ state.nextTaken) : state.tmplParams.fits e = true := by
  obtain ⟨before, htakes⟩ := greedy_takes (by simp) e he
  have hfits := (templateTakes_iff.mp htakes).2.1
  rw [BlockTemplateParams.fits, decide_eq_true_eq]
  omega

theorem taken_pooled {e : Entry} (he : e ∈ state.nextTaken) :
    ∃ id, state.mempool.byTxid.find? id = some e := by
  obtain ⟨taken, hsub, htaken⟩ := greedy_sublist
    (templateTakes state.tmplParams (state.height + 1) state.chain.utxos) []
    state.mempool.entriesByFeerate
  rw [nextTaken, htaken] at he
  exact mem_entriesByFeerate.mp (hsub.subset he)

theorem taken_ne_nil (h : state.Clearing config (count + 1) known fees 0)
    (hwaiting : state.waiting ≠ []) : state.nextTaken ≠ [] := by
  obtain ⟨e, he⟩ := List.exists_mem_of_ne_nil _ hwaiting
  obtain ⟨hmem, hfits⟩ := List.mem_filter.mp he
  have hfind := (Mempool.mem_values_iff h.mineable.inv.pool).mp hmem
  obtain ⟨pre, post, hsplit⟩ := List.append_of_mem (mem_entriesByFeerate.mpr ⟨_, hfind⟩)
  intro hnil
  have hout : e ∉ state.nextTaken := by simp [hnil]
  rw [nextTaken, hsplit] at hout
  obtain ⟨before, after, _, _, hall, hnot⟩ := greedy_left_out hout
  rw [nextTaken, hsplit, hall, List.append_eq_nil_iff] at hnil
  -- nothing stands before the entry, so neither the count nor the size can keep it out
  rw [hnil.1] at hnot
  obtain ⟨recipient, htmpl⟩ := h.mineable.tmpl
  obtain ⟨o, ho, coin, hcoin, hcb, himmature⟩ | hfull | hlarge := templateTakes_eq_false hnot
  · have hripe := h.ripe _ e hfind o ho coin hcoin hcb
    rw [h.mineable.consensus_eq, next_height h.height_lt] at himmature
    omega
  · rw [htmpl] at hfull
    have hnone : ¬ kMaxTransactionsPerBlock.toNat ≤ 0 := by decide
    exact hnone hfull
  · rw [BlockTemplateParams.fits, decide_eq_true_eq] at hfits
    simp only [List.map_nil, List.sum_nil] at hlarge
    omega

section Mined
variable {tmpl : BlockTemplate} (htmpl : state.nextTemplate = .ok tmpl)
include htmpl

theorem tail_eq (h : state.Clearing config count known fees delay) :
    tmpl.block.transactions.tail = state.nextTaken.map Entry.transaction := by
  have hcoins := h.mineable.accepted.withinMoney
  have hfollows := templateSelection_greedy hcoins h.independent htmpl
  obtain ⟨_, hshape, _⟩ := buildBlockTemplate_connects h.mineable.inv.pool h.mineable.admitted
    hcoins htmpl
  rw [hshape]
  exact hfollows.chosen_eq

theorem find?_connected (h : state.Clearing config (count + 1) known fees delay) (chain : Chain)
    {id : Hash256} {e : Entry} :
    (state.connected tmpl.block chain).mempool.byTxid.find? id = some e ↔
      state.mempool.byTxid.find? id = some e ∧ e ∉ state.nextTaken := by
  have hrep := h.mineable.inv.pool
  obtain ⟨value, hvalue, htxs⟩ := h.mineable.template_transactions h.distinct htmpl
  have hprunes := template_prunes hrep h.mineable.admitted (fun tx htx id e he hid => by
    refine h.room.distinct tx _ ?_ (.inl (h.knows _ (h.pooled_involved he))) hid
    obtain heq | hpooled := htxs tx htx
    · exact .inr ⟨0, value, Nat.succ_pos _,
        ⟨hvalue.1, hvalue.2.trans (Nat.add_le_add_left h.fees_le _)⟩, heq⟩
    · exact .inl (h.knows tx (List.mem_append_right _ hpooled))) htmpl
  have hafter : (state.connected tmpl.block chain).mempool =
      state.mempool.removeAll (tmpl.block.transactions.tail.map Transaction.txid) := hprunes
  rw [hafter, Mempool.find?_removeAll, h.tail_eq htmpl, List.map_map]
  refine and_congr_right fun he => not_congr ?_
  have hkey := hrep.key_eq id e he
  constructor
  · intro hid
    obtain ⟨e', he', hsame⟩ := List.mem_map.mp hid
    obtain ⟨id', hfind⟩ := taken_pooled he'
    have hkey' := hrep.key_eq id' e' hfind
    have hids : id' = id := hkey'.1.trans (hkey'.2.trans hsame)
    rw [hids, he] at hfind
    rw [Option.some.inj hfind]
    exact he'
  · intro hin
    rw [hkey.1, hkey.2]
    exact List.mem_map_of_mem hin

section Connected
variable {total : UInt64} {chain : Chain} {pool : Option Mempool}
  (hs : state.chain.submitBlock tmpl.block (some state.mempool) = .ok (total, chain, pool))
include hs

theorem coin_connected (h : state.Clearing config (count + 1) known fees delay) {id : Hash256}
    {e : Entry} (he : (state.connected tmpl.block chain).mempool.byTxid.find? id = some e)
    {o : OutPoint} (ho : o ∈ e.transaction.prevouts) :
    chain.utxos.find o = state.chain.utxos.find o := by
  obtain ⟨_, ⟨utxos, hconn, hchain⟩, _⟩ := Chain.submitBlock_ok.mp hs
  obtain ⟨hfind, hnot⟩ := Mempool.find?_removeAll.mp he
  have hsane := (h.mineable.admitted id e hfind).1
  rw [hchain]
  refine Mempool.find_of_connectBlock hconn
    ((checkTransactionInputs_ok hsane (h.input_ok hfind)).1 o ho) fun tx htx hcb => ?_
  exact conflictFree_of_template h.mineable.inv htmpl id e hfind hnot tx htx hcb o ho

theorem involved_connected (h : state.Clearing config (count + 1) known fees delay) :
    ∃ value, state.Reward fees value ∧ ∀ tx ∈ (state.connected tmpl.block chain).involved,
      tx ∈ makeCoinbase (state.height + 1) value state.tmplParams.coinbaseRecipient :: known := by
  obtain ⟨value, hvalue, htxs⟩ := h.mineable.template_transactions h.distinct htmpl
  refine ⟨value, ⟨hvalue.1, hvalue.2.trans (Nat.add_le_add_left h.fees_le _)⟩, ?_⟩
  intro tx htx
  rw [involved, h.mineable.inv.ledgerBlocks_connected hs, confirmed, List.flatMap_append,
    List.flatMap_singleton, List.append_assoc, List.mem_append, List.mem_append] at htx
  obtain hold | hnew | hpooled := htx
  · exact List.mem_cons_of_mem _ (h.knows tx (List.mem_append_left _ hold))
  · obtain heq | hpooled := htxs tx hnew
    · exact List.mem_cons.mpr (.inl heq)
    · exact List.mem_cons_of_mem _ (h.knows tx (List.mem_append_right _ hpooled))
  · exact List.mem_cons_of_mem _ (h.knows tx (List.mem_append_right _
      (Mempool.mem_pooledTransactions_removeAll hpooled)))

theorem connected (h : state.Clearing config (count + 1) known fees delay) :
    ∃ known', (state.connected tmpl.block chain).Clearing config count known' fees (delay - 1) := by
  obtain ⟨hlinks, ⟨utxos, _, hchain⟩, _⟩ := Chain.submitBlock_ok.mp hs
  obtain ⟨value, hvalue, hknown⟩ := h.involved_connected htmpl hs
  have hup : chain.height.toNat = state.height.toNat + 1 := by
    rw [hchain]
    exact hlinks.height_eq
  have hnext : chain.height = state.height + 1 := by
    rw [← UInt32.toNat_inj, hup, next_height h.height_lt]
  have hparams : chain.params = state.chain.params := by rw [hchain]
  refine ⟨_, h.mineable.connected (h.mineable.template_timely htmpl) hs,
    h.valid.connected (conflictFree_of_template h.mineable.inv htmpl) hs,
    h.room.connected hvalue hnext hup hparams, hknown,
    (state.mempool.pooledFees_removeAll_le _).trans h.fees_le, ?_⟩
  intro id e he o ho coin hcoin hcb
  have hkept : chain.utxos.find o = state.chain.utxos.find o := h.coin_connected htmpl hs he ho
  have hripe := h.ripe id e (Mempool.find?_removeAll.mp he).1 o ho coin (hkept ▸ hcoin) hcb
  change coin.height.toNat + chain.params.coinbaseMaturity.toNat ≤
    chain.height.toNat + 1 + (delay - 1)
  rw [hparams]
  omega

end Connected

theorem waiting_connected_lt (h : state.Clearing config (count + 1) known fees 0) (chain : Chain)
    (hwaiting : state.waiting ≠ []) :
    (state.connected tmpl.block chain).waiting.length < state.waiting.length := by
  obtain ⟨e, he⟩ := List.exists_mem_of_ne_nil _ (h.taken_ne_nil hwaiting)
  obtain ⟨id, hfind⟩ := taken_pooled he
  have hrep := h.mineable.inv.pool
  have hsub := state.waiting_connected tmpl.block chain
  refine Nat.lt_of_le_of_ne hsub.length_le fun hlen => ?_
  have hin : e ∈ state.waiting := by
    refine List.mem_filter.mpr ⟨(Mempool.mem_values_iff hrep).mpr ?_, taken_fits he⟩
    rw [← (hrep.key_eq id e hfind).1]
    exact hfind
  rw [← hsub.eq_of_length hlen] at hin
  have hstill := (Mempool.mem_values_iff (hrep.removeAll _)).mp (List.mem_filter.mp hin).1
  exact ((h.find?_connected htmpl chain).mp hstill).2 he

end Mined

theorem mineLoop_first {next : PeerState}
    (hrun : mineLoop (count + 1) state = .ret (.ok (), next)) :
    ∃ tmpl total chain pool, state.nextTemplate = .ok tmpl ∧
      state.chain.submitBlock tmpl.block (some state.mempool) = .ok (total, chain, pool) ∧
      mineLoop count (state.connected tmpl.block chain) = .ret (.ok (), next) := by
  simp only [mineLoop, Action.bind_run, Action.state_run, Process.bind_ret_left,
    Action.ofExcept_run] at hrun
  cases htmpl : state.nextTemplate with
  | error e => simp [htmpl] at hrun
  | ok tmpl =>
    simp only [htmpl] at hrun
    obtain ⟨e, _, hfail⟩ | ⟨total, chain, pool, hs, hconn⟩ := connectBlock_run tmpl.block state
    · simp [hfail] at hrun
    · simp only [hconn, Process.bind_ret_left] at hrun
      exact ⟨tmpl, total, chain, pool, rfl, hs, hrun⟩

end Clearing

/-- The blocks from `state` to `next` have confirmed what fits in a block, and left the rest of
the pool as it was. -/
structure Cleared (state next : PeerState) : Prop where
  extends_chain : ∀ tx ∈ confirmed state.ledgerBlocks, tx ∈ confirmed next.ledgerBlocks
  confirms : ∀ id e, state.mempool.byTxid.find? id = some e → state.tmplParams.fits e = true →
    e.transaction ∈ confirmed next.ledgerBlocks
  keeps : ∀ id e, next.mempool.byTxid.find? id = some e ↔
    state.mempool.byTxid.find? id = some e ∧ state.tmplParams.fits e = false

theorem cleared_of_waiting {state : PeerState} (hrep : state.mempool.RepInv)
    (h : state.waiting = []) : state.Cleared state := by
  have hlarge : ∀ id e, state.mempool.byTxid.find? id = some e →
      state.tmplParams.fits e = false := by
    intro id e he
    rw [(hrep.key_eq id e he).1] at he
    exact Bool.eq_false_of_not_eq_true
      (List.filter_eq_nil_iff.mp h e ((Mempool.mem_values_iff hrep).mpr he))
  refine ⟨fun _ htx => htx, fun id e he hfits => ?_, fun id e => ⟨fun he => ⟨he, hlarge id e he⟩,
    fun he => he.1⟩⟩
  simp [hlarge id e he] at hfits

theorem Clearing.cleared_connected {config : NodeConfig} {count fees delay : Nat}
    {known : List Transaction} {state next : PeerState}
    (h : state.Clearing config (count + 1) known fees delay) {tmpl : BlockTemplate}
    (htmpl : state.nextTemplate = .ok tmpl) {total : UInt64} {chain : Chain} {pool : Option Mempool}
    (hs : state.chain.submitBlock tmpl.block (some state.mempool) = .ok (total, chain, pool))
    (hrest : (state.connected tmpl.block chain).Cleared next) : state.Cleared next := by
  have hblocks := h.mineable.inv.ledgerBlocks_connected hs
  refine ⟨fun tx htx => hrest.extends_chain tx ?_, fun id e he hfits => ?_, fun id e => ?_⟩
  · rw [hblocks, confirmed, List.flatMap_append]
    exact List.mem_append_left _ htx
  · by_cases htaken : e ∈ state.nextTaken
    · refine hrest.extends_chain _ ?_
      rw [hblocks, confirmed, List.flatMap_append, List.flatMap_singleton]
      refine List.mem_append_right _ (List.mem_of_mem_tail ?_)
      rw [h.tail_eq htmpl]
      exact List.mem_map_of_mem htaken
    · exact hrest.confirms id e ((h.find?_connected htmpl chain).mpr ⟨he, htaken⟩) hfits
  · rw [hrest.keeps id e, h.find?_connected htmpl chain]
    constructor
    · intro hkept
      exact ⟨hkept.1.1, hkept.2⟩
    · intro hkept
      refine ⟨⟨hkept.1, fun htaken => ?_⟩, hkept.2⟩
      have hfits := Clearing.taken_fits htaken
      have hlarge : state.tmplParams.fits e = false := hkept.2
      simp [hlarge] at hfits

theorem Clearing.mineLoop_clears {config : NodeConfig} {count fees delay : Nat}
    {known : List Transaction} {state next : PeerState}
    (h : state.Clearing config count known fees delay)
    (hrun : mineLoop count state = .ret (.ok (), next))
    (hlong : delay + state.waiting.length ≤ count) :
    next.height.toNat = state.height.toNat + count ∧ state.Cleared next := by
  -- on the blocks: each brings the maturity nearer or, once it is there, shortens the queue
  induction count generalizing state known delay with
  | zero =>
    cases hrun
    exact ⟨rfl, cleared_of_waiting h.mineable.inv.pool (List.length_eq_zero_iff.mp (by omega))⟩
  | succ count ih =>
    obtain ⟨tmpl, total, chain, pool, htmpl, hs, hrest⟩ := Clearing.mineLoop_first hrun
    obtain ⟨known', hnext⟩ := h.connected htmpl hs
    have hqueue : delay - 1 + (state.connected tmpl.block chain).waiting.length ≤ count := by
      have hle := (state.waiting_connected tmpl.block chain).length_le
      cases delay with
      | succ delay => omega
      | zero =>
        by_cases hnone : state.waiting = []
        · rw [hnone, List.length_nil] at hle
          omega
        · have hlt := h.waiting_connected_lt htmpl chain hnone
          omega
    obtain ⟨hheight, hcleared⟩ := ih hnext hrest hqueue
    obtain ⟨hlinks, ⟨utxos, _, hchain⟩, _⟩ := Chain.submitBlock_ok.mp hs
    have hup : (state.connected tmpl.block chain).height.toNat = state.height.toNat + 1 := by
      rw [hchain]
      exact hlinks.height_eq
    exact ⟨by omega, h.cleared_connected htmpl hs hcleared⟩

end PeerState

/-- The blocks delivered to a node are timely and do not conflict with its pool. -/
def Peaceful (config : NodeConfig) (state : PeerState) (op : PeerOp) : Prop :=
  TimelyBlocks config state op ∧ NoForeignConflict state op

/-- Mining clears the pool. In every run whose delivered blocks are timely and do not conflict
with the pool, a node with room for the blocks mines as many as it is told to; if these are
as many as the coinbase maturity and the pooled transactions together, every pooled
transaction that fits in a block is then on the chain, and only the others are still pooled. -/
theorem mining_clears_pool {config : NodeConfig} {dir : DataDir} {state : PeerState}
    (hpersist : config.persist = false) (hsize : config.maxBlockSizeBytes ≤ kMaxBlockSizeBytes)
    (hledger : TimelyLedger config dir) (h : Reached config dir (Peaceful config) state)
    (count : UInt32)
    (hroom : state.RoomToMine count.toNat state.involved state.mempool.pooledFees)
    (hlong : state.chain.params.coinbaseMaturity.toNat + state.mempool.size ≤ count.toNat) :
    ∃ next, PeerState.mineBlocks count state = .ret (.ok (), next) ∧
      next.height.toNat = state.height.toNat + count.toNat ∧
      (∀ id e, state.mempool.byTxid.find? id = some e → state.tmplParams.fits e = true →
        e.transaction ∈ confirmed next.ledgerBlocks) ∧
      ∀ id e, next.mempool.byTxid.find? id = some e ↔
        state.mempool.byTxid.find? id = some e ∧ state.tmplParams.fits e = false := by
  have hmine : state.Mineable config := (h.mono fun _ _ hop => hop.1).mineable hledger
  have hvalid : state.PoolValid := (h.mono fun _ _ hop => hop.2).consistent.2
  have hripe : state.RipeIn state.chain.params.coinbaseMaturity.toNat := by
    intro id e _ o _ coin hcoin _
    have hle : coin.height.toNat ≤ state.height.toNat := hmine.accepted.coin_height_le hcoin
    omega
  have hclearing : state.Clearing config count.toNat state.involved state.mempool.pooledFees
      state.chain.params.coinbaseMaturity.toNat :=
    ⟨hmine, hvalid, hroom, fun _ htx => htx, Nat.le_refl _, hripe⟩
  have hwaiting : state.waiting.length ≤ state.mempool.size := by
    have hle := List.length_filter_le state.tmplParams.fits state.mempool.byTxid.values
    rwa [OrderedMap.values, List.length_map] at hle
  obtain ⟨next, hloop, hkept⟩ :=
    hmine.mineLoop_ok hsize hroom (fun _ htx => htx) (Nat.le_refl _)
  obtain ⟨hheight, hcleared⟩ := hclearing.mineLoop_clears hloop (by omega)
  refine ⟨next, ?_, hheight, hcleared.confirms, hcleared.keeps⟩
  have hoff : next.persist = false := hkept.trans (hmine.inv.persist_eq.trans hpersist)
  simp only [PeerState.mineBlocks, Action.bind_run, hloop, Process.bind_ret_left]
  exact PeerState.persistLedger_off hoff

/-! The node with one pooled payment mines two blocks. -/

theorem pooledNode_peaceful :
    Reached rewardConfig ⟨none, none⟩ (Peaceful rewardConfig) pooledNode := by
  have hop : Peaceful rewardConfig (genesisNode rewardConfig)
      (.message (PeerState.blockAnnounceMessage rewardBlock)) := by
    constructor
    · intro block hb
      rw [PeerState.deliversBlock_announce rewardBlock_sane hb]
      refine ⟨by decide, fun tx htx _ => ?_⟩
      rw [List.mem_singleton.mp htx]
      rfl
    · intro block _ _ id e he
      simp [genesisNode, PeerState.fresh, PeerState.storeBlock, PeerState.start, Mempool.new] at he
  have hrewarded : Reached rewardConfig ⟨none, none⟩ (Peaceful rewardConfig) rewardedNode :=
    rewardedNode_reached hop
  have hrun : rewardedNode.mempool.accept (payment 0) rewardedNode.chain.utxos
      rewardedNode.mempoolPolicy = (.ok (), pooledNode.mempool) :=
    Mempool.accept_of_fits payment_admitted payment_fits
  have hstep : (PeerOp.accept (payment 0)).run rewardedNode = .ret (.ok (), pooledNode) := by
    simp only [PeerOp.run, PeerState.acceptTransaction, hrun]
    rfl
  have haccept : Peaceful rewardConfig rewardedNode (.accept (payment 0)) := ⟨trivial, trivial⟩
  exact hrewarded.step_ret haccept hstep

def paidTransactions : List Transaction :=
  [reward, payment 0, makeCoinbase 2 50 zeroHash, makeCoinbase 3 50 zeroHash]

set_option maxRecDepth 100000 in
theorem paidTransactions_distinct : DistinctIds paidTransactions := by
  apply distinctIds_of_hashes
  decide +kernel

theorem pooledNode_room : pooledNode.RoomToMine 2 pooledNode.involved 0 := by
  refine ⟨by decide, by decide, by decide, fun tx tx' htx htx' => ?_⟩
  have hdealt : ∀ tx, pooledNode.Dealt 2 pooledNode.involved 0 tx → tx ∈ paidTransactions := by
    intro tx htx
    cases htx with
    | inl hknown =>
      have hinvolved : pooledNode.involved = [reward, payment 0] := rfl
      rw [hinvolved] at hknown
      exact List.mem_append_left _ hknown
    | inr hcoinbase =>
      obtain ⟨i, value, hi, ⟨hlow, hhigh⟩, rfl⟩ := hcoinbase
      have hvalue : value = 50 := UInt64.toNat_inj.mp (Nat.le_antisymm hhigh hlow)
      rw [hvalue]
      cases i with
      | zero => exact List.mem_append_right [reward, payment 0] List.mem_cons_self
      | succ i =>
        obtain rfl : i = 0 := by omega
        exact List.mem_append_right [reward, payment 0] (List.mem_cons_of_mem _ List.mem_cons_self)
  exact paidTransactions_distinct tx (hdealt tx htx) tx' (hdealt tx' htx')

/-- The payment is on the chain after two blocks, and the pool is empty. -/
theorem payment_confirmed : ∃ next, PeerState.mineBlocks 2 pooledNode = .ret (.ok (), next) ∧
    payment 0 ∈ confirmed next.ledgerBlocks ∧
      next.mempool.byTxid.find? (payment 0).txid = none := by
  have hpooled : pooledNode.mempool.byTxid.find? (payment 0).txid =
      some (Mempool.entryOf (payment 0) ⟨0, 92⟩) := OrderedMap.find?_insert_self _ _ _
  obtain ⟨next, hrun, _, hconfirmed, hkept⟩ := mining_clears_pool rfl (by decide)
    (fun hrestore => absurd hrestore (by decide)) pooledNode_peaceful 2 pooledNode_room (by decide)
  refine ⟨next, hrun, hconfirmed _ _ hpooled (by decide), ?_⟩
  refine Option.eq_none_iff_forall_ne_some.mpr fun e he => ?_
  obtain ⟨hfind, hlarge⟩ := (hkept _ e).mp he
  rw [hpooled] at hfind
  rw [← Option.some.inj hfind] at hlarge
  exact absurd hlarge (by decide)

end Blockchain
