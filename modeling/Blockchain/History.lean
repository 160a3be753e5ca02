import Blockchain.Chain

/-! The confirmed transactions of a chain in the order their effects apply. The UTXO set
is the unspent part of that history, and a transaction can only be confirmed twice if a
coinbase is. -/
namespace Blockchain
open Lib

/-- Transactions with the height of their block: by height, within a block first the
non-coinbase transactions in list order, then the coinbase. -/
def history (blocks : List Block) : List (Nat × Transaction) :=
  blocks.zipIdx.flatMap fun b => b.1.ordered.map fun tx => (b.2, tx)

def historyEvent (x : Nat × Transaction) : SpendEvent Hash256 OutPoint Coin :=
  txEvent (UInt32.ofNat x.1) x.2

theorem history_concat (blocks : List Block) (block : Block) :
    history (blocks ++ [block]) =
      history blocks ++ block.ordered.map fun tx => (blocks.length, tx) := by
  simp [history, List.zipIdx_append]

theorem history_snd (blocks : List Block) :
    (history blocks).map Prod.snd = blocks.flatMap Block.ordered := by
  induction blocks using List.reverseRecOn with
  | nil => rfl
  | append_singleton blocks block ih =>
    rw [history_concat, List.map_append, ih, List.map_map, List.flatMap_append,
      List.flatMap_singleton]
    simp [Function.comp_def]

theorem map_historyEvent_concat {params : ConsensusParams} {blocks : List Block} {chain : Chain}
    {block : Block} (h : Accepted params (blocks ++ [block]) chain) :
    (history (blocks ++ [block])).map historyEvent =
      (history blocks).map historyEvent ++ block.events := by
  have hlast : (blocks ++ [block])[blocks.length]? = some block := by simp
  have hheight := h.block_height hlast
  have hback : UInt32.ofNat blocks.length = block.header.height := by
    rw [← hheight, UInt32.ofNat_toNat]
  rw [history_concat, List.map_append, List.map_map, Block.events]
  simp [Function.comp_def, historyEvent, hback]

/-- The chain's UTXO set is the store of its history, and the history is admissible. -/
theorem Accepted.store_history {params : ConsensusParams} {blocks : List Block} {chain : Chain}
    (h : Accepted params blocks chain) :
    SpendLog.Admissible (fun _ => none) ((history blocks).map historyEvent) ∧
    chain.utxos.find = SpendLog.store (fun _ => none) ((history blocks).map historyEvent) := by
  induction h with
  | @create genesis chain h =>
    have hacc : Accepted params ([] ++ [genesis]) chain := Accepted.create h
    have hlog := map_historyEvent_concat hacc
    obtain ⟨_, _, _, fees, utxos, hconn, rfl⟩ := Chain.create_ok.mp h
    obtain ⟨_, hadm, hfind, _⟩ := connectBlock_ok hconn
    rw [List.nil_append] at hlog
    rw [hlog]
    exact ⟨hadm, hfind⟩
  | @submit blocks chain next block fees pool pool' hacc hb ih =>
    have hlog := map_historyEvent_concat (hacc.submit hb)
    obtain ⟨_, ⟨utxos, hconn, rfl⟩, _⟩ := Chain.submitBlock_ok.mp hb
    obtain ⟨_, hadm, hfind, _⟩ := connectBlock_ok hconn
    rw [ih.2] at hadm hfind
    rw [hlog, SpendLog.store_append]
    exact ⟨SpendLog.admissible_append.mpr ⟨ih.1, hadm⟩, hfind⟩

theorem createdCoins_eq_some {height : UInt32} {tx : Transaction} {o : OutPoint} {c : Coin} :
    createdCoins height tx o = some c ↔
      tx.txid = o.txid ∧ tx.outputs[o.index.toNat]? = some c.output ∧
      c.height = height ∧ c.coinbase = tx.isCoinbase := by
  unfold createdCoins
  by_cases ht : o.txid = tx.txid
  · obtain ⟨output, ch, cb⟩ := c
    simp only [ht, if_true, Option.map_eq_some_iff, Coin.mk.injEq, true_and]
    constructor
    · intro h
      obtain ⟨out, hout, rfl, rfl, rfl⟩ := h
      exact ⟨hout, rfl, rfl⟩
    · intro h
      exact ⟨output, h.1, rfl, h.2.1.symm, h.2.2.symm⟩
  · simp [ht, Ne.symm ht]

theorem txEvent_owns {height : UInt32} {tx : Transaction} {o : OutPoint}
    (h : ((txEvent height tx).creates o).isSome) : o.txid = (txEvent height tx).ident := by
  obtain ⟨c, hc⟩ := Option.isSome_iff_exists.mp h
  exact (createdCoins_eq_some.mp hc).1.symm

theorem historyEvent_spends {x : Nat × Transaction} {o : OutPoint} :
    o ∉ (historyEvent x).spends ↔ (x.2.isCoinbase = false → o ∉ x.2.prevouts) := by
  cases hc : x.2.isCoinbase <;> simp [historyEvent, txEvent, hc]

theorem Accepted.height_of_mem_history {params : ConsensusParams} {blocks : List Block}
    {chain : Chain} (h : Accepted params blocks chain) {x : Nat × Transaction}
    (hx : x ∈ history blocks) : x.1 < 2 ^ 32 := by
  obtain ⟨⟨block, i⟩, hb, hx⟩ := List.mem_flatMap.mp hx
  obtain ⟨tx, _, rfl⟩ := List.mem_map.mp hx
  have hi : blocks[i]? = some block := List.mem_zipIdx_iff_getElem?.mp hb
  have hheight := h.block_height hi
  have hlt := block.header.height.toNat_lt
  simp only
  omega

/-- The UTXO set is exactly the unspent history. -/
theorem utxos_eq_unspent_history {params : ConsensusParams} {blocks : List Block} {chain : Chain}
    (h : Accepted params blocks chain) (o : OutPoint) (c : Coin) :
    chain.utxos.find o = some c ↔
      ∃ pre height tx post, history blocks = pre ++ (height, tx) :: post ∧
        tx.txid = o.txid ∧ o.index.toNat < tx.outputs.length ∧
        tx.outputs[o.index.toNat]? = some c.output ∧
        c.height.toNat = height ∧ c.coinbase = tx.isCoinbase ∧
        ∀ later ∈ post, later.2.isCoinbase = false → o ∉ later.2.prevouts := by
  obtain ⟨hadm, hfind⟩ := h.store_history
  rw [hfind, SpendLog.store_eq_some_iff hadm]
  constructor
  · intro hx
    obtain ⟨pre, e, post, hsplit, hcreate, hpost⟩ := hx
    obtain ⟨pre, rest, hhist, rfl, hrest⟩ := List.map_eq_append_iff.mp hsplit
    obtain ⟨⟨height, tx⟩, post, rfl, rfl, rfl⟩ := List.map_eq_cons_iff.mp hrest
    obtain ⟨hid, hout, hheight, hcb⟩ := createdCoins_eq_some.mp hcreate
    have hlt := h.height_of_mem_history (x := (height, tx)) (by simp [hhist])
    obtain ⟨hidx, _⟩ := List.getElem?_eq_some_iff.mp hout
    refine ⟨pre, height, tx, post, hhist, hid, hidx, hout, ?_, hcb, ?_⟩
    · rw [hheight]
      exact UInt32.toNat_ofNat_of_lt' hlt
    · intro later hl
      exact historyEvent_spends.mp (hpost _ (List.mem_map_of_mem hl))
  · intro hx
    obtain ⟨pre, height, tx, post, hhist, hid, _, hout, hheight, hcb, hpost⟩ := hx
    refine ⟨pre.map historyEvent, historyEvent (height, tx), post.map historyEvent, by simp [hhist],
      ?_, ?_⟩
    · refine createdCoins_eq_some.mpr ⟨hid, hout, ?_, hcb⟩
      rw [← hheight, UInt32.ofNat_toNat]
    · intro e he
      obtain ⟨later, hl, rfl⟩ := List.mem_map.mp he
      exact historyEvent_spends.mpr (hpost later hl)

/-- After the mint and a block that pays it on with a fee, the payment and the coinbase that
collects the fee are unspent history. -/
theorem minted_coin_paid_on :
    Accepted ⟨50, 0⟩ [mintGenesis, feeBlock] ⟨feeBlock.header, feeUtxos, ⟨50, 0⟩⟩ ∧
    feeUtxos.find ⟨feeMint.txid, 0⟩ = some ⟨⟨40, zeroHash⟩, 1, false⟩ ∧
    feeUtxos.find ⟨feeCollect.txid, 0⟩ = some ⟨⟨60, zeroHash⟩, 1, true⟩ := by
  have hacc := mint_fee_accepted (by decide : (0 : UInt32) ≤ 1)
  have hhistory : history [mintGenesis, feeBlock] =
      [(0, mint), (1, feeMint), (1, feeCollect)] := rfl
  refine ⟨hacc, (utxos_eq_unspent_history hacc _ _).mpr ?_,
    (utxos_eq_unspent_history hacc _ _).mpr ?_⟩
  · refine ⟨[(0, mint)], 1, feeMint, [(1, feeCollect)], hhistory, rfl, by decide, rfl, rfl, rfl, ?_⟩
    intro later hlater hcb
    rw [List.mem_singleton.mp hlater] at hcb
    cases hcb
  · exact ⟨[(0, mint), (1, feeMint)], 1, feeCollect, [], hhistory, rfl, by decide, rfl, rfl, rfl,
      by simp⟩

end Blockchain
