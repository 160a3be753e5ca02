import Blockchain.History
import Blockchain.Sha256Eval

/-! Double spends over the whole history. The UTXO set only rejects an outpoint that is
currently unspent, so distinctness over time rests on the coinbases: a coinbase may be
mined again once its outputs are spent, and nothing else can come back. -/
namespace Blockchain
open Lib

/-- Every transaction occurrence on the chain, in block order. -/
def confirmed (blocks : List Block) : List Transaction := blocks.flatMap Block.transactions

/-- No two different transactions of the list have the same id. -/
def DistinctIds (txs : List Transaction) : Prop :=
  ∀ t ∈ txs, ∀ t' ∈ txs, t.txid = t'.txid → t = t'

theorem distinctIds_of_hashes {txs : List Transaction}
    (h : (txs.map fun tx => WordState.hashNumber tx.toBytes).Nodup) : DistinctIds txs := by
  intro tx htx tx' htx' hid
  refine List.inj_on_of_nodup_map h htx htx' ?_
  rw [← WordState.hashNumber_eq, ← WordState.hashNumber_eq]
  exact congrArg Hash256.number hid

def coinbases (blocks : List Block) : List Transaction :=
  (confirmed blocks).filter fun tx => tx.isCoinbase

def spenders (blocks : List Block) : List Transaction :=
  (confirmed blocks).filter fun tx => !tx.isCoinbase

theorem ordered_perm (block : Block) : block.ordered.Perm block.transactions := by
  have h := List.filter_append_perm (fun tx : Transaction => !tx.isCoinbase) block.transactions
  simpa [Block.ordered] using h

theorem history_perm (blocks : List Block) :
    ((history blocks).map Prod.snd).Perm (confirmed blocks) := by
  rw [history_snd, confirmed]
  exact List.Perm.flatMap_left blocks fun block _ => ordered_perm block

theorem history_spenders (blocks : List Block) :
    ((history blocks).map Prod.snd).filter (fun tx => !tx.isCoinbase) = spenders blocks := by
  rw [history_snd, spenders, confirmed, List.filter_flatMap, List.filter_flatMap]
  refine congrArg (fun f => blocks.flatMap f) (funext fun block => ?_)
  simp [Block.ordered, List.filter_append, List.filter_filter]

theorem Accepted.spends_isEmpty {params : ConsensusParams} {blocks : List Block} {chain : Chain}
    (h : Accepted params blocks chain) {x : Nat × Transaction} (hx : x ∈ history blocks) :
    (historyEvent x).spends.isEmpty = x.2.isCoinbase := by
  have hmem : x.2 ∈ confirmed blocks := (history_perm blocks).mem_iff.mp (List.mem_map_of_mem hx)
  obtain ⟨block, hb, htx⟩ := List.mem_flatMap.mp hmem
  have hne := ((h.block_sane block hb).txs_sane x.2 htx).inputs_ne
  cases hc : x.2.isCoinbase with
  | true => simp [historyEvent, txEvent, hc]
  | false => simpa [historyEvent, txEvent, hc, Transaction.prevouts] using hne

theorem historyEvent_owned (blocks : List Block) :
    SpendLog.Owned OutPoint.txid ((history blocks).map historyEvent) := by
  intro e he o ho
  obtain ⟨x, _, rfl⟩ := List.mem_map.mp he
  exact txEvent_owns ho

theorem history_idents (blocks : List Block) :
    ((history blocks).map historyEvent).map SpendEvent.ident =
      ((history blocks).map Prod.snd).map Transaction.txid := by
  simp [Function.comp_def, historyEvent, txEvent]

/-- Without two different transactions of one id and without a repeated coinbase, the events
of the history have pairwise different ids. -/
theorem Accepted.idents_nodup {params : ConsensusParams} {blocks : List Block} {chain : Chain}
    (h : Accepted params blocks chain)
    (hcol : DistinctIds (confirmed blocks)) (hcb : (coinbases blocks).Nodup) :
    (((history blocks).map historyEvent).map SpendEvent.ident).Nodup := by
  obtain ⟨hadm, _⟩ := h.store_history
  have hperm := history_perm blocks
  have hconf : ∀ x ∈ history blocks, x.2 ∈ confirmed blocks :=
    fun x hx => hperm.mem_iff.mp (List.mem_map_of_mem hx)
  have hspends : ∀ a ∈ (history blocks).map historyEvent, ∀ b ∈ (history blocks).map historyEvent,
      a.ident = b.ident → a.spends = b.spends := by
    intro a ha b hb hid
    obtain ⟨x, hx, rfl⟩ := List.mem_map.mp ha
    obtain ⟨y, hy, rfl⟩ := List.mem_map.mp hb
    have htx : x.2 = y.2 := hcol x.2 (hconf x hx) y.2 (hconf y hy) hid
    simp only [historyEvent, txEvent, htx]
  -- the events without inputs are the coinbases
  have hroots : ((((history blocks).map historyEvent).filter fun e => e.spends.isEmpty).map
      SpendEvent.ident).Nodup := by
    have hfilter : (history blocks).filter (fun x => (historyEvent x).spends.isEmpty) =
        (history blocks).filter (fun x => x.2.isCoinbase) :=
      List.filter_congr fun x hx => by rw [h.spends_isEmpty hx]
    have hids : (((history blocks).map historyEvent).filter fun e => e.spends.isEmpty).map
        SpendEvent.ident =
        (((history blocks).map Prod.snd).filter fun tx => tx.isCoinbase).map Transaction.txid := by
      simp only [List.filter_map, List.map_map, Function.comp_def, hfilter]
      rfl
    rw [hids, ((hperm.filter _).map _).nodup_iff]
    refine hcb.map_on ?_
    intro a ha b hb hid
    exact hcol a (List.mem_filter.mp ha).1 b (List.mem_filter.mp hb).1 hid
  exact SpendLog.ident_nodup hadm (historyEvent_owned blocks) hspends hroots

theorem txids_nodup_of_idents {blocks : List Block}
    (h : (((history blocks).map historyEvent).map SpendEvent.ident).Nodup) :
    ((confirmed blocks).map Transaction.txid).Nodup := by
  rw [history_idents] at h
  exact ((history_perm blocks).map _).nodup_iff.mp h

theorem Accepted.spent_input_gone {params : ConsensusParams} {blocks : List Block} {chain : Chain}
    (h : Accepted params blocks chain)
    (hids : (((history blocks).map historyEvent).map SpendEvent.ident).Nodup) {tx : Transaction}
    (htx : tx ∈ confirmed blocks) (hcb : tx.isCoinbase = false) {o : OutPoint}
    (ho : o ∈ tx.prevouts) : chain.utxos.find o = none := by
  obtain ⟨hadm, hfind⟩ := h.store_history
  obtain ⟨x, hx, rfl⟩ := List.mem_map.mp ((history_perm blocks).mem_iff.mpr htx)
  obtain ⟨pre, post, hsplit⟩ := List.append_of_mem (List.mem_map_of_mem (f := historyEvent) hx)
  have howned := historyEvent_owned blocks
  have hspent : o ∈ (historyEvent x).spends := by simpa [historyEvent, txEvent, hcb] using ho
  rw [hsplit] at hadm hids howned
  rw [hfind, hsplit]
  exact SpendLog.not_present_again hadm howned hids hspent

/-- Without two different transactions of one id on the chain, ids are confirmed once and
no outpoint is spent twice exactly when no coinbase is mined a second time. -/
theorem no_double_spend_iff {params : ConsensusParams} {blocks : List Block} {chain : Chain}
    (h : Accepted params blocks chain)
    (hcol : DistinctIds (confirmed blocks)) :
    (((confirmed blocks).map Transaction.txid).Nodup ∧
      (spenders blocks).Pairwise fun a b => ∀ o ∈ a.prevouts, o ∉ b.prevouts) ↔
    (coinbases blocks).Nodup := by
  constructor
  · intro hx
    exact hx.1.of_map.filter _
  · intro hcb
    obtain ⟨hadm, _⟩ := h.store_history
    have hnodup := h.idents_nodup hcol hcb
    have hdisj := SpendLog.spends_disjoint hadm (historyEvent_owned blocks) hnodup
    refine ⟨txids_nodup_of_idents hnodup, ?_⟩
    rw [← history_spenders, List.filter_map, List.pairwise_map]
    refine ((List.pairwise_map.mp hdisj).filter _).imp_of_mem ?_
    intro a b ha hb hab o hoa
    have hca : a.2.isCoinbase = false := by simpa using (List.mem_filter.mp ha).2
    have hcb' : b.2.isCoinbase = false := by simpa using (List.mem_filter.mp hb).2
    have hspent := hab o (by simpa [historyEvent, txEvent, hca] using hoa)
    exact historyEvent_spends.mp hspent hcb'

set_option maxRecDepth 100000 in
theorem mint_ne_spendMint : mint.txid ≠ spendMint.txid := by
  have hid : mint.txid = _ := WordState.sha256d_eq mint.toBytes
  apply WordState.sha256d_ne
  rw [spendMint, hid]
  decide +kernel

/-- The condition holds where the minted coin is paid on once. -/
theorem no_double_spend_mint :
    Accepted ⟨50, 0⟩ [mintGenesis, spendBlock] ⟨spendBlock.header, spentUtxos, ⟨50, 0⟩⟩ ∧
    ((confirmed [mintGenesis, spendBlock]).map Transaction.txid).Nodup ∧
      (spenders [mintGenesis, spendBlock]).Pairwise fun a b =>
        ∀ o ∈ a.prevouts, o ∉ b.prevouts := by
  have hacc := mint_spent_accepted (by decide : (0 : UInt32) ≤ 1)
  have hcol : DistinctIds [mint, spendMint] := by
    have hne := mint_ne_spendMint
    simp [DistinctIds, hne, Ne.symm hne]
  exact ⟨hacc, (no_double_spend_iff hacc hcol).mpr (List.nodup_singleton mint)⟩

/-! Mint, spend, mint again. -/

def mintAgainBlock : Block :=
  ⟨⟨kBlockVersion, spendBlock.header.hash, computeMerkleRoot [mint], 0, 2⟩, [mint]⟩

theorem connect_mintAgainBlock : connectBlock mintAgainBlock spentUtxos ⟨50, 0⟩ =
    .ok (0, spentUtxos.insert ⟨mint.txid, 0⟩ ⟨⟨50, zeroHash⟩, 2, true⟩) := by
  have hne : (⟨mint.txid, 0⟩ : OutPoint) ≠ ⟨spendMint.txid, 0⟩ := by
    intro he
    exact mint_ne_spendMint (OutPoint.mk.inj he).1
  have hfree : spentUtxos.find ⟨mint.txid, 0⟩ = none := OrderedMap.find?_insert_of_ne _ _ hne
  exact connectBlock_coinbase mint_sane rfl rfl rfl (by decide) hfree

/-- One coinbase is confirmed at heights 0 and 2: after its only output is spent, nothing
stops the same coinbase from being accepted again. -/
theorem coinbase_confirmed_twice :
    ∃ chain, Accepted ⟨50, 0⟩ [mintGenesis, spendBlock, mintAgainBlock] chain ∧
    DistinctIds (confirmed [mintGenesis, spendBlock, mintAgainBlock]) ∧
    ¬ ((confirmed [mintGenesis, spendBlock, mintAgainBlock]).map Transaction.txid).Nodup := by
  have hlink₂ : mintAgainBlock.header.LinksTo spendBlock.header := ⟨rfl, rfl, rfl, UInt64.le_refl _⟩
  have hsub₂ : (⟨spendBlock.header, spentUtxos, ⟨50, 0⟩⟩ : Chain).submitBlock mintAgainBlock none =
      .ok (0, ⟨mintAgainBlock.header, _, ⟨50, 0⟩⟩, none) :=
    Chain.submitBlock_ok.mpr ⟨hlink₂, ⟨_, connect_mintAgainBlock, rfl⟩, rfl⟩
  refine ⟨_, (mint_spent_accepted (by decide)).submit hsub₂, ?_, ?_⟩
  · change DistinctIds [mint, spendMint, mint]
    have hne := mint_ne_spendMint
    simp [DistinctIds, hne, Ne.symm hne]
  · change ¬ ([mint, spendMint, mint].map Transaction.txid).Nodup
    simp

end Blockchain
