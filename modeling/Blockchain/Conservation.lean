import Blockchain.Chain

/-! Monetary conservation over whole chain runs: coins only enter through coinbases, at
most one subsidy for each height, and none of the u64 sums on the way wraps around. -/
namespace Blockchain
open Lib

theorem outputValue_take_le (outputs : List TxOutput) (n : Nat) :
    outputValue (outputs.take n) ≤ outputValue outputs := by
  have hsplit : outputValue outputs = outputValue (outputs.take n) +
      outputValue (outputs.drop n) := by
    simp only [outputValue, ← List.sum_append, ← List.map_append, List.take_append_drop]
  omega

theorem Transaction.Sane.totalOut_take {tx : Transaction} (h : tx.Sane) (n : Nat) :
    (totalOut (tx.outputs.take n)).toNat = outputValue (tx.outputs.take n) := by
  apply totalOut_toNat
  have hle := outputValue_take_le tx.outputs n
  have hv := h.value_le
  have hm : kMaxMoney.toNat < 2 ^ 64 := by decide
  omega

theorem connectBlock_totalValue_le {block : Block} {utxos next : UtxoSet} {params : ConsensusParams}
    {fees : UInt64} (h : connectBlock block utxos params = .ok (fees, next)) :
    next.totalValue ≤ utxos.totalValue + params.blockSubsidy.toNat := by
  obtain ⟨_, _, _, hsum, hle⟩ := connectBlock_ok h
  omega

theorem Accepted.totalValue_le {params : ConsensusParams} {blocks : List Block} {chain : Chain}
    (h : Accepted params blocks chain) :
    chain.utxos.totalValue ≤ blocks.length * params.blockSubsidy.toNat := by
  induction h with
  | create h =>
    obtain ⟨_, _, _, fees, utxos, hconn, rfl⟩ := Chain.create_ok.mp h
    have hle := connectBlock_totalValue_le hconn
    have hzero : UtxoSet.empty.totalValue = 0 := rfl
    simp only [List.length_singleton, Nat.one_mul]
    omega
  | submit hacc hb ih =>
    obtain ⟨_, ⟨utxos, hconn, rfl⟩, _⟩ := Chain.submitBlock_ok.mp hb
    have hle := connectBlock_totalValue_le hconn
    rw [hacc.params_eq] at hle
    rw [List.length_append, List.length_singleton, Nat.add_mul, Nat.one_mul]
    change utxos.totalValue ≤ _
    omega

/-- Value is conserved in every run of the chain: the coins in circulation never exceed one
subsidy per height, each connected block balances exactly, and the sums the code takes in
u64 are the sums in the natural numbers. -/
theorem monetary_conservation :
    (∀ (params : ConsensusParams) (genesis : Block) (chain : Chain) (fed : List Block),
      Chain.create genesis params = .ok chain →
      (chain.feed fed).utxos.totalValue ≤
        ((chain.feed fed).height.toNat + 1) * params.blockSubsidy.toNat) ∧
    (∀ (block : Block) (utxos next : UtxoSet) (params : ConsensusParams) (fees : UInt64),
      connectBlock block utxos params = .ok (fees, next) →
      next.totalValue + fees.toNat = utxos.totalValue + block.coinbaseValue ∧
      block.coinbaseValue ≤ params.blockSubsidy.toNat + fees.toNat) ∧
    (∀ (block : Block), checkBlockSanity block = .ok () → ∀ tx ∈ block.transactions,
      (∀ n, (totalOut (tx.outputs.take n)).toNat = outputValue (tx.outputs.take n)) ∧
      ∀ (utxos : UtxoSet) (fee : UInt64), checkTransactionInputs tx utxos = .ok fee →
        inputValue utxos tx.prevouts = outputValue tx.outputs + fee.toNat) ∧
    (∀ a b c : UInt64, checkedAdd a b = some c → c.toNat = a.toNat + b.toNat) := by
  refine ⟨?_, ?_, ?_, fun _ _ _ h => checkedAdd_toNat h⟩
  · intro params genesis chain fed hcreate
    obtain ⟨blocks, hacc⟩ := (Accepted.create hcreate).feed fed
    rw [hacc.height_eq]
    exact hacc.totalValue_le
  · intro block utxos next params fees h
    exact (connectBlock_ok h).2.2.2
  · intro block hsane tx htx
    have hs := ((checkBlockSanity_ok block).mp hsane).txs_sane tx htx
    exact ⟨hs.totalOut_take, fun utxos fee h => (checkTransactionInputs_ok hs h).2⟩

theorem feed_mint_fee : mintChain.feed [feeBlock, spendBlock] =
    ⟨feeBlock.header, feeUtxos, ⟨50, 0⟩⟩ := by
  have hfirst : mintChain.submitBlock feeBlock none =
      .ok (10, ⟨feeBlock.header, feeUtxos, ⟨50, 0⟩⟩, none) :=
    Chain.submitBlock_ok.mpr ⟨⟨rfl, rfl, rfl, UInt64.le_refl _⟩,
      ⟨_, feeBlock_connects (by decide), rfl⟩, rfl⟩
  have hsecond : ∃ e, (⟨feeBlock.header, feeUtxos, ⟨50, 0⟩⟩ : Chain).submitBlock spendBlock none =
      .error e := by
    cases hs : (⟨feeBlock.header, feeUtxos, ⟨50, 0⟩⟩ : Chain).submitBlock spendBlock none with
    | error e => exact ⟨e, rfl⟩
    | ok r =>
      have hheight : (1 : UInt32).toNat = (1 : UInt32).toNat + 1 :=
        (Chain.submitBlock_ok.mp hs).1.height_eq
      exact absurd hheight (by decide)
  obtain ⟨e, hsecond⟩ := hsecond
  rw [Chain.feed_accepted hfirst, Chain.feed_rejected hsecond]
  rfl

/-- A minted coin of 50, paid on with a fee of 10 in a block whose coinbase pays 60; the other
payment of the coin is refused afterwards. -/
theorem monetary_conservation_mint_and_fee :
    Chain.create mintGenesis ⟨50, 0⟩ = .ok mintChain ∧
    mintChain.feed [feeBlock, spendBlock] = ⟨feeBlock.header, feeUtxos, ⟨50, 0⟩⟩ ∧
    feeUtxos.totalValue ≤ (1 + 1) * 50 ∧
    connectBlock feeBlock mintChain.utxos ⟨50, 0⟩ = .ok (10, feeUtxos) ∧
    feeUtxos.totalValue + 10 = mintChain.utxos.totalValue + 60 ∧
    60 ≤ 50 + 10 ∧
    inputValue mintChain.utxos feeMint.prevouts = 40 + 10 := by
  have hcreate : Chain.create mintGenesis ⟨50, 0⟩ = .ok mintChain := mint_created
  have hconn := feeBlock_connects (by decide : (0 : UInt32) ≤ 1)
  have hbound := monetary_conservation.1 _ _ _ [feeBlock, spendBlock] hcreate
  rw [feed_mint_fee] at hbound
  have hten : (10 : UInt64).toNat = 10 := rfl
  have hsixty : feeBlock.coinbaseValue = 60 := rfl
  obtain ⟨hbalance, hpaid⟩ := monetary_conservation.2.1 _ _ _ _ _ hconn
  rw [hten, hsixty] at hbalance hpaid
  have hsane := (checkBlockSanity_ok _).mpr (connectBlock_ok hconn).1
  have hfind : mintChain.utxos.find ⟨mint.txid, 0⟩ = some mintCoin :=
    OrderedMap.find?_insert_self _ _ _
  have hout : feeMint.outputs = [⟨40, zeroHash⟩] := rfl
  have hfee : checkTransactionInputs feeMint mintChain.utxos = .ok 10 :=
    checkTransactionInputs_single rfl hout hfind (by decide)
  have hexact := (monetary_conservation.2.2.1 feeBlock hsane feeMint
    (List.mem_cons_of_mem _ List.mem_cons_self)).2 _ _ hfee
  rw [hout, hten] at hexact
  exact ⟨hcreate, feed_mint_fee, hbound.trans (by decide), hconn, hbalance, hpaid, hexact⟩

end Blockchain
