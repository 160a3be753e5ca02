import Blockchain.Block
import Blockchain.TransactionValidation
import Blockchain.Lib.SpendLog

/-! Consensus validation of blocks and the UTXO state transition. The transition is
shown to be the create/spend log of the block's transactions, the coinbase last. -/
namespace Blockchain
open Lib

def kDefaultBlockSubsidy : UInt64 := 50 * kCoinUnit
def kDefaultCoinbaseMaturity : UInt32 := 100

structure ConsensusParams where
  blockSubsidy : UInt64 := kDefaultBlockSubsidy
  coinbaseMaturity : UInt32 := kDefaultCoinbaseMaturity
deriving DecidableEq

/-- The transaction loop of `check_block_sanity`; `i` is the transaction's position. -/
def checkTransactions (i : Nat) (seen : List Hash256) : List Transaction → Result Unit
  | [] => .ok ()
  | tx :: rest => do
    checkTransactionSanity tx
    if tx.isCoinbase = true ∧ i ≠ 0 then
      makeError .invalidBlock "coinbase must be the first transaction"
    else if tx.txid ∈ seen then makeError .invalidBlock "duplicate transaction in block"
    else checkTransactions (i + 1) (tx.txid :: seen) rest

def checkBlockSanity (block : Block) : Result Unit :=
  if block.transactions.length > kMaxTransactionsPerBlock.toNat then
    makeError .invalidBlock "too many transactions in block"
  else if block.toBytes.length > kMaxBlockSizeBytes.toNat then
    makeError .invalidBlock "block exceeds maximum size"
  else if block.header.merkleRoot ≠ computeMerkleRoot block.transactions then
    makeError .invalidBlock "merkle root does not match transactions"
  else checkTransactions 0 [] block.transactions

def addOutputsFrom (txid : Hash256) (height : UInt32) (coinbase : Bool) (i : Nat) :
    List TxOutput → UtxoSet → Result UtxoSet
  | [], working => .ok working
  | output :: rest, working => do
    let working ← working.add ⟨txid, UInt32.ofNat i⟩ ⟨output, height, coinbase⟩
    addOutputsFrom txid height coinbase (i + 1) rest working

def addOutputs (tx : Transaction) (height : UInt32) (coinbase : Bool) (working : UtxoSet) :
    Result UtxoSet :=
  addOutputsFrom tx.txid height coinbase 0 tx.outputs working

def spendInputs : List TxInput → UtxoSet → Result UtxoSet
  | [], working => .ok working
  | input :: rest, working => do
    let (_, working) ← working.spend input.prevout
    spendInputs rest working

def addFee (totalFees fee : UInt64) : Result UInt64 :=
  match checkedAdd totalFees fee with
  | none => makeError .invalidBlock "total block fees overflow"
  | some total => .ok total

def connectTransaction (params : ConsensusParams) (height : UInt32) (tx : Transaction)
    (working : UtxoSet) (totalFees : UInt64) : Result (UtxoSet × UInt64) := do
  let fee ← checkTransactionInputs tx working
  checkCoinbaseMaturity tx working height params.coinbaseMaturity
  let working ← spendInputs tx.inputs working
  let working ← addOutputs tx height false working
  let totalFees ← addFee totalFees fee
  .ok (working, totalFees)

def connectTransactions (params : ConsensusParams) (height : UInt32) :
    List Transaction → UtxoSet → UInt64 → Result (UtxoSet × UInt64)
  | [], working, totalFees => .ok (working, totalFees)
  | tx :: rest, working, totalFees => do
    let (working, totalFees) ← connectTransaction params height tx working totalFees
    connectTransactions params height rest working totalFees

def connectCoinbase (params : ConsensusParams) (height : UInt32) (coinbase : Transaction)
    (totalFees : UInt64) (working : UtxoSet) : Result UtxoSet :=
  match checkedAdd params.blockSubsidy totalFees with
  | none => makeError .invalidBlock "coinbase reward overflow"
  | some allowed =>
    if totalOut coinbase.outputs > allowed then
      makeError .invalidBlock "coinbase pays more than subsidy plus fees"
    else addOutputs coinbase height true working

namespace Block

/-- The first transaction, when it is a coinbase. -/
def coinbase? (block : Block) : Option Transaction :=
  block.transactions.head?.filter Transaction.isCoinbase

/-- The transactions the first loop of `connect_block` processes. -/
def body (block : Block) : List Transaction :=
  if block.coinbase?.isSome then block.transactions.tail else block.transactions

end Block

def connectBlock (block : Block) (utxos : UtxoSet) (params : ConsensusParams) :
    Result (UInt64 × UtxoSet) := do
  checkBlockSanity block
  let (working, totalFees) ← connectTransactions params block.header.height block.body utxos 0
  match block.coinbase? with
  | none => .ok (totalFees, working)
  | some coinbase => do
    let working ← connectCoinbase params block.header.height coinbase totalFees working
    .ok (totalFees, working)

/-! What the sanity check establishes. -/

structure Block.Sane (block : Block) : Prop where
  count_le : block.transactions.length ≤ kMaxTransactionsPerBlock.toNat
  size_le : block.toBytes.length ≤ kMaxBlockSizeBytes.toNat
  merkle_eq : block.header.merkleRoot = computeMerkleRoot block.transactions
  txs_sane : ∀ tx ∈ block.transactions, tx.Sane
  coinbase_first : ∀ tx ∈ block.transactions.tail, tx.isCoinbase = false
  txids_nodup : (block.transactions.map Transaction.txid).Nodup

theorem checkTransactions_ok (i : Nat) (seen : List Hash256) (txs : List Transaction) :
    checkTransactions i seen txs = .ok () ↔
      (∀ tx ∈ txs, tx.Sane) ∧
      (∀ tx ∈ if i = 0 then txs.tail else txs, tx.isCoinbase = false) ∧
      (txs.map Transaction.txid).Nodup ∧ ∀ id ∈ txs.map Transaction.txid, id ∉ seen := by
  induction txs generalizing i seen with
  | nil => simp [checkTransactions]
  | cons tx txs ih =>
    rw [checkTransactions, seq_eq_ok]
    simp only [checkTransactionSanity_ok, guard_eq_ok, ih, Nat.add_one_ne_zero, if_false,
      List.map_cons, List.nodup_cons, List.forall_mem_cons]
    constructor
    · intro h
      obtain ⟨hsane, hcb, hseen, hsanes, hcbs, hnd, hall⟩ := h
      refine ⟨⟨hsane, hsanes⟩, ?_, ⟨fun hm => hall _ hm List.mem_cons_self, hnd⟩, hseen, ?_⟩
      · by_cases hi : i = 0
        · simpa [hi] using hcbs
        · have htx : tx.isCoinbase = false := by simpa [hi] using hcb
          simp only [hi, if_false, List.forall_mem_cons]
          exact ⟨htx, hcbs⟩
      · exact fun id hid hs => hall id hid (List.mem_cons_of_mem _ hs)
    · intro h
      obtain ⟨⟨hsane, hsanes⟩, hcb, ⟨hnew, hnd⟩, hseen, hall⟩ := h
      have hcbs : ∀ tx ∈ txs, tx.isCoinbase = false := by
        intro t ht
        by_cases hi : i = 0
        · exact hcb t (by simpa [hi] using ht)
        · exact hcb t (by simp [hi, ht])
      refine ⟨hsane, ?_, hseen, hsanes, hcbs, hnd, ?_⟩
      · intro hbad
        have htx := hcb tx (by simp [hbad.2])
        simp [htx] at hbad
      · intro id hid hs
        obtain rfl | hs := List.mem_cons.mp hs
        · exact hnew hid
        · exact hall id hid hs

theorem checkBlockSanity_ok (block : Block) : checkBlockSanity block = .ok () ↔ block.Sane := by
  simp only [checkBlockSanity, guard_eq_ok, checkTransactions_ok, Nat.not_lt, ne_eq, not_not,
    gt_iff_lt, if_true, List.not_mem_nil, not_false_eq_true, implies_true, and_true]
  constructor
  · intro h
    exact ⟨h.1, h.2.1, h.2.2.1, h.2.2.2.1, h.2.2.2.2.1, h.2.2.2.2.2⟩
  · intro h
    exact ⟨h.count_le, h.size_le, h.merkle_eq, h.txs_sane, h.coinbase_first, h.txids_nodup⟩

namespace Block

def ordered (block : Block) : List Transaction :=
  block.transactions.filter (fun tx => !tx.isCoinbase) ++
  block.transactions.filter (fun tx => tx.isCoinbase)

theorem Sane.body_eq {block : Block} (h : block.Sane) :
    block.body = block.transactions.filter (fun tx => !tx.isCoinbase) := by
  have hfirst := h.coinbase_first
  unfold body coinbase?
  cases htxs : block.transactions with
  | nil => simp
  | cons tx txs =>
    rw [htxs, List.tail_cons] at hfirst
    have htail : txs.filter (fun tx => !tx.isCoinbase) = txs :=
      List.filter_eq_self.mpr fun t ht => by simp [hfirst t ht]
    by_cases hc : tx.isCoinbase = true
    · simp [hc, htail, Option.filter]
    · simp [hc, htail, Option.filter]

theorem Sane.coinbase?_eq {block : Block} (h : block.Sane) :
    block.coinbase?.toList = block.transactions.filter (fun tx => tx.isCoinbase) := by
  have hfirst := h.coinbase_first
  unfold coinbase?
  cases htxs : block.transactions with
  | nil => simp
  | cons tx txs =>
    rw [htxs, List.tail_cons] at hfirst
    have htail : txs.filter (fun tx => tx.isCoinbase) = [] :=
      List.filter_eq_nil_iff.mpr fun t ht => by simp [hfirst t ht]
    by_cases hc : tx.isCoinbase = true
    · simp [hc, htail, Option.filter]
    · simp [hc, htail, Option.filter]

theorem Sane.ordered_eq {block : Block} (h : block.Sane) :
    block.ordered = block.body ++ block.coinbase?.toList := by
  rw [ordered, h.body_eq, h.coinbase?_eq]

theorem Sane.body_split {block : Block} (h : block.Sane) {before after : List Transaction}
    {tx : Transaction} (hsplit : block.ordered = before ++ tx :: after)
    (hcb : tx.isCoinbase = false) : ∃ rest, block.body = before ++ tx :: rest := by
  rw [ordered, ← h.body_eq] at hsplit
  obtain ⟨rest, hbody, _⟩ | ⟨rest, _, hlast⟩ := append_eq_append_cons hsplit
  · exact ⟨rest, hbody⟩
  · have hmem : tx ∈ block.transactions.filter (fun tx => tx.isCoinbase) := by simp [hlast]
    simp [hcb] at hmem

theorem mem_ordered {block : Block} {tx : Transaction} :
    tx ∈ block.ordered ↔ tx ∈ block.transactions := by
  cases hc : tx.isCoinbase <;> simp [ordered, hc]

end Block

/-! The state transition as a create/spend log. -/

/-- The coins a transaction creates at a height. -/
def createdCoins (height : UInt32) (tx : Transaction) (o : OutPoint) : Option Coin :=
  if o.txid = tx.txid then
    (tx.outputs[o.index.toNat]?).map fun output => ⟨output, height, tx.isCoinbase⟩
  else none

def txEvent (height : UInt32) (tx : Transaction) : SpendEvent Hash256 OutPoint Coin where
  ident := tx.txid
  spends := if tx.isCoinbase then [] else tx.prevouts
  creates := createdCoins height tx

def Block.events (block : Block) : List (SpendEvent Hash256 OutPoint Coin) :=
  block.ordered.map (txEvent block.header.height)

theorem spendInputs_ok {inputs : List TxInput} {working next : UtxoSet}
    (h : spendInputs inputs working = .ok next) :
    (∀ o ∈ inputs.map TxInput.prevout, (working.find o).isSome) ∧
    (∀ o, next.find o = if o ∈ inputs.map TxInput.prevout then none else working.find o) ∧
    next.totalValue + inputValue working (inputs.map TxInput.prevout) = working.totalValue := by
  induction inputs generalizing working with
  | nil =>
    simp only [spendInputs, Except.ok.injEq] at h
    simp [h, inputValue]
  | cons i is ih =>
    rw [spendInputs] at h
    obtain ⟨⟨coin, mid⟩, hspend, h⟩ := bind_eq_ok.mp h
    obtain ⟨hfind, rfl⟩ := UtxoSet.spend_eq_ok.mp hspend
    obtain ⟨hall, hnext, htotal⟩ := ih h
    have hself : UtxoSet.find (working.erase i.prevout) i.prevout = none :=
      working.find?_erase_self i.prevout
    have hother : ∀ o, o ≠ i.prevout → UtxoSet.find (working.erase i.prevout) o = working.find o :=
      fun o ho => working.find?_erase_of_ne ho
    have hne : ∀ o ∈ is.map TxInput.prevout, o ≠ i.prevout := by
      intro o ho he
      have hsome := hall o ho
      rw [he, hself] at hsome
      simp at hsome
    refine ⟨?_, ?_, ?_⟩
    · intro o ho
      obtain rfl | ho := List.mem_cons.mp ho
      · simp [hfind]
      · rw [← hother o (hne o ho)]
        exact hall o ho
    · intro o
      rw [hnext o, List.map_cons]
      by_cases ho : o = i.prevout
      · simp [ho, hself]
      · simp [ho, hother o ho]
    · have hval : inputValue (working.erase i.prevout) (is.map TxInput.prevout) =
          inputValue working (is.map TxInput.prevout) := by
        refine congrArg List.sum (List.map_congr_left fun o ho => ?_)
        simp only [UtxoSet.valueAt, hother o (hne o ho)]
      have herase := UtxoSet.totalValue_erase working hfind
      have hat := UtxoSet.valueAt_of_find hfind
      rw [hval] at htotal
      simp only [inputValue, List.map_cons, List.sum_cons, hat] at htotal ⊢
      omega

theorem spendInputs_succeeds {inputs : List TxInput} {working : UtxoSet}
    (hnodup : (inputs.map TxInput.prevout).Nodup)
    (hpresent : ∀ o ∈ inputs.map TxInput.prevout, (working.find o).isSome) :
    ∃ next, spendInputs inputs working = .ok next := by
  induction inputs generalizing working with
  | nil => exact ⟨working, rfl⟩
  | cons i is ih =>
    rw [List.map_cons] at hnodup hpresent
    obtain ⟨hnot, hnodup⟩ := List.nodup_cons.mp hnodup
    obtain ⟨coin, hfind⟩ := Option.isSome_iff_exists.mp (hpresent i.prevout List.mem_cons_self)
    have hrest : ∀ o ∈ is.map TxInput.prevout,
        (UtxoSet.find (working.erase i.prevout) o).isSome := by
      intro o ho
      have hne : o ≠ i.prevout := fun he => hnot (he ▸ ho)
      have hsame : UtxoSet.find (working.erase i.prevout) o = working.find o :=
        working.find?_erase_of_ne hne
      rw [hsame]
      exact hpresent o (List.mem_cons_of_mem _ ho)
    obtain ⟨next, hnext⟩ := ih hnodup hrest
    refine ⟨next, ?_⟩
    rw [spendInputs, UtxoSet.spend_eq_ok.mpr ⟨hfind, rfl⟩, ok_bind]
    exact hnext

theorem addOutputsFrom_ok {txid : Hash256} {height : UInt32} {coinbase : Bool} {i : Nat}
    {outputs : List TxOutput} {working next : UtxoSet}
    (h : addOutputsFrom txid height coinbase i outputs working = .ok next)
    (hi : i + outputs.length ≤ 2 ^ 32) :
    (∀ o, o.txid = txid → i ≤ o.index.toNat → o.index.toNat < i + outputs.length →
      working.find o = none) ∧
    (∀ o, next.find o =
      (if o.txid = txid ∧ i ≤ o.index.toNat then
        (outputs[o.index.toNat - i]?).map fun output => (⟨output, height, coinbase⟩ : Coin)
      else none).or (working.find o)) ∧
    next.totalValue = working.totalValue + outputValue outputs := by
  -- on the outputs: the first is written at index `i`, the others behind it
  induction outputs generalizing i working with
  | nil =>
    simp only [addOutputsFrom, Except.ok.injEq] at h
    simp [h, outputValue]
    intro o _ hle hlt
    omega
  | cons output outputs ih =>
    rw [addOutputsFrom] at h
    obtain ⟨mid, hadd, h⟩ := bind_eq_ok.mp h
    obtain ⟨hnone, rfl⟩ := UtxoSet.add_eq_ok.mp hadd
    simp only [List.length_cons] at hi
    obtain ⟨hfresh, hnext, htotal⟩ := ih h (by omega)
    have hidx : (UInt32.ofNat i).toNat = i :=
      UInt32.toNat_ofNat_of_lt' (by rw [UInt32.size]; omega)
    have hkey : ∀ o : OutPoint, o = ⟨txid, UInt32.ofNat i⟩ ↔ o.txid = txid ∧ o.index.toNat = i := by
      intro o
      constructor
      · intro ho
        simp [ho, hidx]
      · intro ho
        obtain ⟨t, idx⟩ := o
        simp only [OutPoint.mk.injEq]
        exact ⟨ho.1, UInt32.toNat_inj.mp (by rw [hidx]; exact ho.2)⟩
    have hself := working.find?_insert_self ⟨txid, UInt32.ofNat i⟩
      (⟨output, height, coinbase⟩ : Coin)
    have hother : ∀ o, o ≠ ⟨txid, UInt32.ofNat i⟩ →
        UtxoSet.find (working.insert ⟨txid, UInt32.ofNat i⟩ ⟨output, height, coinbase⟩) o =
          working.find o :=
      fun o ho => working.find?_insert_of_ne _ ho
    refine ⟨?_, ?_, ?_⟩
    · intro o ht hle hlt
      by_cases ho : o = ⟨txid, UInt32.ofNat i⟩
      · rw [ho]
        exact hnone
      · have hne : o.index.toNat ≠ i := fun he => ho ((hkey o).mpr ⟨ht, he⟩)
        rw [← hother o ho]
        exact hfresh o ht (by omega) (by simp only [List.length_cons] at hlt; omega)
    · intro o
      rw [hnext o]
      by_cases ho : o = ⟨txid, UInt32.ofNat i⟩
      · obtain ⟨ht, he⟩ := (hkey o).mp ho
        have hlt : ¬ (i + 1 ≤ o.index.toNat) := by omega
        simp only [hlt, and_false, if_false, Option.none_or]
        simp only [ht, he, le_refl, and_self, if_true, Nat.sub_self, List.getElem?_cons_zero,
          Option.map_some, Option.some_or]
        rw [ho]
        exact hself
      · rw [hother o ho]
        by_cases hc : o.txid = txid ∧ i ≤ o.index.toNat
        · have hne : o.index.toNat ≠ i := fun he => ho ((hkey o).mpr ⟨hc.1, he⟩)
          have hle : i + 1 ≤ o.index.toNat := by omega
          have hsub : o.index.toNat - i = (o.index.toNat - (i + 1)) + 1 := by omega
          simp only [hc, hle, and_self, if_true, hsub, List.getElem?_cons_succ]
        · have hc' : ¬ (o.txid = txid ∧ i + 1 ≤ o.index.toNat) := by
            intro hx
            exact hc ⟨hx.1, by omega⟩
          simp only [hc, hc', if_false]
    · have hins := UtxoSet.totalValue_insert working (⟨output, height, coinbase⟩ : Coin) hnone
      rw [htotal, hins, outputValue_cons, Nat.add_assoc]

theorem addOutputsFrom_succeeds {txid : Hash256} {height : UInt32} {coinbase : Bool} {i : Nat}
    {outputs : List TxOutput} {working : UtxoSet} (hi : i + outputs.length ≤ 2 ^ 32)
    (hfresh : ∀ j, i ≤ j → j < i + outputs.length → working.find ⟨txid, UInt32.ofNat j⟩ = none) :
    ∃ next, addOutputsFrom txid height coinbase i outputs working = .ok next := by
  induction outputs generalizing i working with
  | nil => exact ⟨working, rfl⟩
  | cons output outputs ih =>
    rw [List.length_cons] at hi hfresh
    have hnone := hfresh i (Nat.le_refl i) (by omega)
    have hrest : ∀ j, i + 1 ≤ j → j < i + 1 + outputs.length →
        UtxoSet.find (working.insert ⟨txid, UInt32.ofNat i⟩ ⟨output, height, coinbase⟩)
          ⟨txid, UInt32.ofNat j⟩ = none := by
      intro j hle hlt
      have hne : (⟨txid, UInt32.ofNat j⟩ : OutPoint) ≠ ⟨txid, UInt32.ofNat i⟩ := by
        intro he
        have hindex := congrArg (fun o : OutPoint => o.index.toNat) he
        simp only at hindex
        rw [UInt32.toNat_ofNat_of_lt' (by rw [UInt32.size]; omega),
          UInt32.toNat_ofNat_of_lt' (by rw [UInt32.size]; omega)] at hindex
        omega
      exact (working.find?_insert_of_ne _ hne).trans (hfresh j (by omega) (by omega))
    obtain ⟨next, hnext⟩ := ih (by omega) hrest
    exact ⟨next, by rw [addOutputsFrom, UtxoSet.add_eq_ok.mpr ⟨hnone, rfl⟩, ok_bind, hnext]⟩

theorem addOutputs_ok {tx : Transaction} {height : UInt32} {working next : UtxoSet}
    (hl : tx.WithinLimits) (h : addOutputs tx height tx.isCoinbase working = .ok next) :
    (∀ o, (createdCoins height tx o).isSome → working.find o = none) ∧
    (∀ o, next.find o = (createdCoins height tx o).or (working.find o)) ∧
    next.totalValue = working.totalValue + outputValue tx.outputs := by
  have hlen : 0 + tx.outputs.length ≤ 2 ^ 32 := by
    have hle := hl.2
    have hmax : kMaxOutputsPerTransaction.toNat ≤ 2 ^ 32 := by decide
    omega
  obtain ⟨hfresh, hnext, htotal⟩ := addOutputsFrom_ok h hlen
  refine ⟨?_, ?_, htotal⟩
  · intro o ho
    unfold createdCoins at ho
    by_cases ht : o.txid = tx.txid
    · simp only [ht, if_true, Option.isSome_map, isSome_getElem?] at ho
      exact hfresh o ht (Nat.zero_le _) (by omega)
    · simp [ht] at ho
  · intro o
    rw [hnext o]
    simp [createdCoins]

theorem Transaction.Sane.applies {tx : Transaction} (hs : tx.Sane) {working : UtxoSet}
    (hpresent : ∀ o ∈ tx.prevouts, (working.find o).isSome)
    (hfresh : ∀ j, j < tx.outputs.length → working.find ⟨tx.txid, UInt32.ofNat j⟩ = none)
    (height : UInt32) (coinbase : Bool) :
    ∃ next, (spendInputs tx.inputs working >>= addOutputs tx height coinbase) = .ok next := by
  obtain ⟨spent, hspend⟩ := spendInputs_succeeds hs.prevouts_nodup hpresent
  have hspent := (spendInputs_ok hspend).2.1
  have hlen : 0 + tx.outputs.length ≤ 2 ^ 32 := by
    have hle := hs.limits.2
    have hmax : kMaxOutputsPerTransaction.toNat ≤ 2 ^ 32 := by decide
    omega
  have hunspent : ∀ j, 0 ≤ j → j < 0 + tx.outputs.length →
      spent.find ⟨tx.txid, UInt32.ofNat j⟩ = none := by
    intro j _ hlt
    rw [hspent, hfresh j (by omega)]
    exact ite_self _
  obtain ⟨next, hnext⟩ := addOutputsFrom_succeeds hlen hunspent
  exact ⟨next, by rw [hspend, ok_bind, addOutputs, hnext]⟩

theorem addFee_ok {total fee sum : UInt64} (h : addFee total fee = .ok sum) :
    sum.toNat = total.toNat + fee.toNat := by
  unfold addFee at h
  cases hc : checkedAdd total fee with
  | none => simp [hc] at h
  | some s =>
    simp only [hc, Except.ok.injEq] at h
    rw [← h]
    exact checkedAdd_toNat hc

theorem connectTransaction_ok {params : ConsensusParams} {height : UInt32} {tx : Transaction}
    {working next : UtxoSet} {fees fees' : UInt64} (hs : tx.Sane) (hcb : tx.isCoinbase = false)
    (h : connectTransaction params height tx working fees = .ok (next, fees')) :
    SpendLog.Fits working.find (txEvent height tx) ∧
    next.find = SpendLog.apply working.find (txEvent height tx) ∧
    next.totalValue + fees'.toNat = working.totalValue + fees.toNat := by
  unfold connectTransaction at h
  obtain ⟨fee, hfee, h⟩ := bind_eq_ok.mp h
  obtain ⟨_, _, h⟩ := bind_eq_ok.mp h
  obtain ⟨spent, hspend, h⟩ := bind_eq_ok.mp h
  obtain ⟨added, hadd, h⟩ := bind_eq_ok.mp h
  obtain ⟨total, htotal, h⟩ := bind_eq_ok.mp h
  obtain ⟨rfl, rfl⟩ := Prod.mk.injEq .. ▸ Except.ok.inj h
  rw [← hcb] at hadd
  obtain ⟨_, hvalue⟩ := checkTransactionInputs_ok hs hfee
  obtain ⟨hpresent, hspent, hspentTotal⟩ := spendInputs_ok hspend
  obtain ⟨hfresh, hadded, haddedTotal⟩ := addOutputs_ok hs.limits hadd
  have hspends : (txEvent height tx).spends = tx.prevouts := by simp [txEvent, hcb]
  refine ⟨⟨?_, ?_⟩, ?_, ?_⟩
  · rw [hspends]
    exact hpresent
  · intro o ho
    rw [hspends]
    have hnone := hfresh o ho
    rw [hspent o] at hnone
    by_cases hm : o ∈ tx.prevouts
    · exact .inl hm
    · right
      have hm' : o ∉ tx.inputs.map TxInput.prevout := hm
      simpa [hm'] using hnone
  · funext o
    rw [hadded o, hspent o, SpendLog.apply, hspends]
    rfl
  · have hsum := addFee_ok htotal
    change spent.totalValue + inputValue working tx.prevouts = _ at hspentTotal
    omega

theorem connectTransactions_ok {params : ConsensusParams} {height : UInt32}
    {txs : List Transaction} {working next : UtxoSet} {fees fees' : UInt64}
    (hs : ∀ tx ∈ txs, tx.Sane) (hcb : ∀ tx ∈ txs, tx.isCoinbase = false)
    (h : connectTransactions params height txs working fees = .ok (next, fees')) :
    SpendLog.Admissible working.find (txs.map (txEvent height)) ∧
    next.find = SpendLog.store working.find (txs.map (txEvent height)) ∧
    next.totalValue + fees'.toNat = working.totalValue + fees.toNat := by
  induction txs generalizing working fees with
  | nil =>
    simp only [connectTransactions, Except.ok.injEq, Prod.mk.injEq] at h
    obtain ⟨rfl, rfl⟩ := h
    exact ⟨trivial, rfl, rfl⟩
  | cons tx txs ih =>
    rw [connectTransactions] at h
    obtain ⟨⟨mid, fees₁⟩, hone, h⟩ := bind_eq_ok.mp h
    obtain ⟨hfits, hmid, hval⟩ :=
      connectTransaction_ok (hs tx List.mem_cons_self) (hcb tx List.mem_cons_self) hone
    obtain ⟨hadm, hnext, hval'⟩ := ih (fun t ht => hs t (List.mem_cons_of_mem _ ht))
      (fun t ht => hcb t (List.mem_cons_of_mem _ ht)) h
    rw [hmid] at hadm hnext
    exact ⟨⟨hfits, hadm⟩, hnext, by omega⟩

theorem connectTransactions_append {params : ConsensusParams} {height : UInt32}
    (xs ys : List Transaction) (working : UtxoSet) (fees : UInt64) :
    connectTransactions params height (xs ++ ys) working fees =
      connectTransactions params height xs working fees >>= fun r =>
        connectTransactions params height ys r.1 r.2 := by
  induction xs generalizing working fees with
  | nil => rfl
  | cons tx xs ih =>
    rw [List.cons_append, connectTransactions, connectTransactions]
    cases connectTransaction params height tx working fees with
    | error e => rfl
    | ok r => exact ih r.1 r.2

theorem connectCoinbase_ok {params : ConsensusParams} {height : UInt32} {tx : Transaction}
    {working next : UtxoSet} {fees : UInt64} (hs : tx.Sane) (hcb : tx.isCoinbase = true)
    (h : connectCoinbase params height tx fees working = .ok next) :
    SpendLog.Fits working.find (txEvent height tx) ∧
    next.find = SpendLog.apply working.find (txEvent height tx) ∧
    next.totalValue = working.totalValue + outputValue tx.outputs ∧
    outputValue tx.outputs ≤ params.blockSubsidy.toNat + fees.toNat := by
  unfold connectCoinbase at h
  cases hc : checkedAdd params.blockSubsidy fees with
  | none => simp [hc] at h
  | some allowed =>
    simp only [hc] at h
    obtain ⟨hle, h⟩ := guard_eq_ok.mp h
    rw [← hcb] at h
    obtain ⟨hfresh, hadded, htotal⟩ := addOutputs_ok hs.limits h
    refine ⟨⟨?_, ?_⟩, ?_, htotal, ?_⟩
    · simp [txEvent, hcb]
    · exact fun o ho => .inr (hfresh o ho)
    · funext o
      rw [hadded o]
      simp [SpendLog.apply, txEvent, hcb]
    · have hle' := UInt64.le_iff_toNat_le.mp (UInt64.not_lt.mp hle)
      rw [hs.totalOut_eq, checkedAdd_toNat hc] at hle'
      exact hle'

def Block.coinbaseValue (block : Block) : Nat :=
  (block.coinbase?.map fun tx => outputValue tx.outputs).getD 0

theorem Block.coinbase?_mem {block : Block} {tx : Transaction} (h : block.coinbase? = some tx) :
    tx ∈ block.transactions ∧ tx.isCoinbase = true := by
  obtain ⟨hhead, hcb⟩ := Option.filter_eq_some_iff.mp h
  exact ⟨List.mem_of_mem_head? hhead, hcb⟩

/-- A connected block is its log of events, and the only value it adds is the coinbase. -/
theorem connectBlock_ok {block : Block} {utxos next : UtxoSet} {params : ConsensusParams}
    {fees : UInt64} (h : connectBlock block utxos params = .ok (fees, next)) :
    block.Sane ∧
    SpendLog.Admissible utxos.find block.events ∧
    next.find = SpendLog.store utxos.find block.events ∧
    next.totalValue + fees.toNat = utxos.totalValue + block.coinbaseValue ∧
    block.coinbaseValue ≤ params.blockSubsidy.toNat + fees.toNat := by
  unfold connectBlock at h
  obtain ⟨_, hsane, h⟩ := bind_eq_ok.mp h
  obtain ⟨⟨working, total⟩, hbody, h⟩ := bind_eq_ok.mp h
  have hs := (checkBlockSanity_ok block).mp hsane
  have hmem : ∀ tx ∈ block.body, tx ∈ block.transactions ∧ tx.isCoinbase = false := by
    intro tx htx
    rw [hs.body_eq] at htx
    simpa using htx
  obtain ⟨hadm, hwork, hval⟩ :=
    connectTransactions_ok (fun tx htx => hs.txs_sane tx (hmem tx htx).1)
    (fun tx htx => (hmem tx htx).2) hbody
  simp only [UInt64.toNat_zero, Nat.add_zero] at hval
  rw [Block.events, hs.ordered_eq, List.map_append]
  refine ⟨hs, ?_⟩
  cases hcb : block.coinbase? with
  | none =>
    simp only [hcb, Except.ok.injEq, Prod.mk.injEq] at h
    obtain ⟨rfl, rfl⟩ := h
    have hzero : block.coinbaseValue = 0 := by simp [Block.coinbaseValue, hcb]
    simp only [Option.toList_none, List.map_nil, List.append_nil, hzero]
    exact ⟨hadm, hwork, hval, Nat.zero_le _⟩
  | some coinbase =>
    simp only [hcb] at h
    obtain ⟨final, hlast, h⟩ := bind_eq_ok.mp h
    obtain ⟨rfl, rfl⟩ := Prod.mk.injEq .. ▸ Except.ok.inj h
    obtain ⟨hin, hiscb⟩ := Block.coinbase?_mem hcb
    obtain ⟨hfits, hfinal, htotal, hle⟩ :=
      connectCoinbase_ok (hs.txs_sane coinbase hin) hiscb hlast
    have hvalue : block.coinbaseValue = outputValue coinbase.outputs := by
      simp [Block.coinbaseValue, hcb]
    rw [hvalue, SpendLog.admissible_append, SpendLog.store_append, ← hwork]
    refine ⟨⟨hadm, hfits, trivial⟩, hfinal, by omega, hle⟩

theorem connectBlock_turn {block : Block} {utxos next : UtxoSet} {params : ConsensusParams}
    {fees : UInt64} (h : connectBlock block utxos params = .ok (fees, next))
    {before after : List Transaction} {tx : Transaction}
    (hbody : block.body = before ++ tx :: after) :
    ∃ working total result, working.find =
        SpendLog.store utxos.find (before.map (txEvent block.header.height)) ∧
      connectTransaction params block.header.height tx working total = .ok result := by
  have hs := (connectBlock_ok h).1
  unfold connectBlock at h
  obtain ⟨_, _, h⟩ := bind_eq_ok.mp h
  obtain ⟨r, hall, _⟩ := bind_eq_ok.mp h
  rw [hbody, connectTransactions_append] at hall
  obtain ⟨⟨working, total⟩, hbefore, hall⟩ := bind_eq_ok.mp hall
  rw [connectTransactions] at hall
  obtain ⟨result, hone, _⟩ := bind_eq_ok.mp hall
  have hmem : ∀ t ∈ before, t ∈ block.transactions ∧ t.isCoinbase = false := by
    intro t ht
    have hin : t ∈ block.body := by simp [hbody, ht]
    rw [hs.body_eq] at hin
    simpa using hin
  have hfind := (connectTransactions_ok (fun t ht => hs.txs_sane t (hmem t ht).1)
    (fun t ht => (hmem t ht).2) hbefore).2.1
  exact ⟨working, total, result, hfind, hone⟩

theorem connectBlock_nil (header : BlockHeader) (utxos : UtxoSet) (params : ConsensusParams)
    (h : header.merkleRoot = zeroHash) :
    connectBlock ⟨header, []⟩ utxos params = .ok (0, utxos) := by
  have hsize : (⟨header, []⟩ : Block).toBytes.length ≤ kMaxBlockSizeBytes.toNat := by
    simp only [Block.toBytes, Block.serialize, List.length_append, BlockHeader.serialize_length,
      List.flatMap_nil, putU32_length, List.length_nil]
    decide
  have hsane : checkBlockSanity ⟨header, []⟩ = .ok () := by
    rw [checkBlockSanity_ok]
    exact ⟨Nat.zero_le _, hsize, h, by simp, by simp, List.nodup_nil⟩
  rw [connectBlock, hsane]
  rfl

/-! Blocks with one transaction. -/

section Singleton
variable {header : BlockHeader} {tx : Transaction} {params : ConsensusParams} {out : TxOutput}

theorem singleton_block_sane (hs : tx.Sane) (hm : header.merkleRoot = computeMerkleRoot [tx]) :
    (⟨header, [tx]⟩ : Block).Sane := by
  refine ⟨by simp; decide, ?_, hm, ?_, by simp, by simp⟩
  · have hlen := hs.size_le
    have hmax : 84 + kMaxTransactionSizeBytes.toNat ≤ kMaxBlockSizeBytes.toNat := by decide
    simp only [Transaction.toBytes] at hlen
    simp only [Block.toBytes, Block.serialize, List.length_append, BlockHeader.serialize_length,
      putU32_length, List.flatMap_singleton]
    omega
  · intro t ht
    rw [List.mem_singleton.mp ht]
    exact hs

theorem single_sane {input : TxInput} (hin : tx.inputs = [input]) (hout : tx.outputs = [out])
    (hvalue : out.value ≤ kMaxMoney) : tx.Sane where
  inputs_ne := by simp [hin]
  outputs_ne := by simp [hout]
  limits := by
    rw [Transaction.WithinLimits, hin, hout, List.length_singleton, List.length_singleton]
    decide
  reserved := by simp [Transaction.isCoinbase, Transaction.prevouts, hin]
  prevouts_nodup := by simp [Transaction.prevouts, hin]
  value_le := by simpa [outputValue, hout] using UInt64.le_iff_toNat_le.mp hvalue
  size_le := by
    rw [Transaction.toBytes_length, hin, hout]
    change 16 + 36 * 1 + 40 * 1 ≤ _
    decide

theorem addOutputs_one {utxos : UtxoSet} {height : UInt32} {coinbase : Bool}
    (hout : tx.outputs = [out]) :
    addOutputs tx height coinbase utxos = utxos.add ⟨tx.txid, 0⟩ ⟨out, height, coinbase⟩ := by
  rw [addOutputs, hout, addOutputsFrom]
  exact bind_pure (utxos.add ⟨tx.txid, 0⟩ ⟨out, height, coinbase⟩)

theorem addOutputs_single {utxos : UtxoSet} {height : UInt32} {coinbase : Bool}
    (hout : tx.outputs = [out]) (hfree : utxos.find ⟨tx.txid, 0⟩ = none) :
    addOutputs tx height coinbase utxos =
      .ok (utxos.insert ⟨tx.txid, 0⟩ ⟨out, height, coinbase⟩) := by
  rw [addOutputs_one hout]
  exact UtxoSet.add_eq_ok.mpr ⟨hfree, rfl⟩

theorem connectBlock_coinbase {utxos : UtxoSet} (hs : tx.Sane) (hcb : tx.isCoinbase = true)
    (hm : header.merkleRoot = computeMerkleRoot [tx]) (hout : tx.outputs = [out])
    (hpay : out.value ≤ params.blockSubsidy) (hfree : utxos.find ⟨tx.txid, 0⟩ = none) :
    connectBlock ⟨header, [tx]⟩ utxos params =
      .ok (0, utxos.insert ⟨tx.txid, 0⟩ ⟨out, header.height, true⟩) := by
  have hsane := (checkBlockSanity_ok _).mpr (singleton_block_sane hs hm)
  have hcoinbase : (⟨header, [tx]⟩ : Block).coinbase? = some tx := by simp [Block.coinbase?, hcb]
  have hbody : (⟨header, [tx]⟩ : Block).body = [] := by simp [Block.body, hcoinbase]
  have hreward : checkedAdd params.blockSubsidy 0 = some params.blockSubsidy := by
    simp [checkedAdd_eq_some, params.blockSubsidy.toNat_lt]
  have htotal : ¬ totalOut tx.outputs > params.blockSubsidy := by
    simpa [hout, totalOut, UInt64.not_lt] using hpay
  rw [connectBlock, hsane, ok_bind, hbody, connectTransactions, ok_bind]
  simp only [hcoinbase, connectCoinbase, hreward, if_neg htotal,
    addOutputs_single hout hfree, ok_bind]

theorem checkTransactionInputs_single {utxos : UtxoSet} {o : OutPoint} {coin : Coin}
    (hin : tx.inputs = [⟨o⟩]) (hout : tx.outputs = [out]) (hfind : utxos.find o = some coin)
    (hle : out.value ≤ coin.output.value) :
    checkTransactionInputs tx utxos = .ok (coin.output.value - out.value) := by
  have hadd : checkedAdd 0 coin.output.value = some coin.output.value := by
    simp [checkedAdd_eq_some, coin.output.value.toNat_lt]
  have htotal : totalOut tx.outputs = out.value := by simp [hout, totalOut]
  rw [checkTransactionInputs, hin]
  simp only [sumInputs, hfind, hadd, ok_bind, htotal, if_neg (UInt64.not_lt.mpr hle)]

theorem erase_insert_empty (o : OutPoint) (coin : Coin) :
    (UtxoSet.empty.insert o coin).erase o = UtxoSet.empty := by
  apply OrderedMap.ext_find?
  intro o'
  by_cases ho : o' = o
  · simp [ho, UtxoSet.empty]
  · rw [OrderedMap.find?_erase_of_ne _ ho]
    exact OrderedMap.find?_insert_of_ne _ _ ho

theorem spendInputs_only {o : OutPoint} {coin : Coin} (hin : tx.inputs = [⟨o⟩]) :
    spendInputs tx.inputs (UtxoSet.empty.insert o coin) = .ok UtxoSet.empty := by
  have hfind : UtxoSet.find (UtxoSet.empty.insert o coin) o = some coin :=
    OrderedMap.find?_insert_self _ _ _
  simp only [hin, spendInputs, UtxoSet.spend, hfind, erase_insert_empty, ok_bind]

theorem checkCoinbaseMaturity_single {utxos : UtxoSet} {height maturity : UInt32} {o : OutPoint}
    {coin : Coin} (hin : tx.inputs = [⟨o⟩]) (hfind : utxos.find o = some coin)
    (hmature : ¬ (coin.coinbase = true ∧ height.toUInt64 <
      coin.height.toUInt64 + maturity.toUInt64)) :
    checkCoinbaseMaturity tx utxos height maturity = .ok () := by
  simp only [checkCoinbaseMaturity, hin, checkMatureInputs, hfind, if_neg hmature]

theorem connectTransactions_spend {height : UInt32} {o : OutPoint} {coin : Coin}
    (hin : tx.inputs = [⟨o⟩]) (hout : tx.outputs = [out]) (hle : out.value ≤ coin.output.value)
    (hmature : ¬ (coin.coinbase = true ∧ height.toUInt64 <
      coin.height.toUInt64 + params.coinbaseMaturity.toUInt64)) :
    connectTransactions params height [tx] (UtxoSet.empty.insert o coin) 0 =
      .ok (UtxoSet.empty.insert ⟨tx.txid, 0⟩ ⟨out, height, false⟩,
        coin.output.value - out.value) := by
  have hfind : UtxoSet.find (UtxoSet.empty.insert o coin) o = some coin :=
    OrderedMap.find?_insert_self _ _ _
  have hfee : addFee 0 (coin.output.value - out.value) = .ok (coin.output.value - out.value) := by
    have hadd : checkedAdd 0 (coin.output.value - out.value) =
        some (coin.output.value - out.value) := by
      simp [checkedAdd_eq_some, (coin.output.value - out.value).toNat_lt]
    simp only [addFee, hadd]
  rw [connectTransactions, connectTransaction, checkTransactionInputs_single hin hout hfind hle,
    ok_bind, checkCoinbaseMaturity_single hin hfind hmature, ok_bind, spendInputs_only hin, ok_bind,
    addOutputs_single hout rfl, ok_bind, hfee, ok_bind, ok_bind]
  rfl

theorem connectBlock_spend {o : OutPoint} {coin : Coin} (hs : tx.Sane) (hcb : tx.isCoinbase = false)
    (hm : header.merkleRoot = computeMerkleRoot [tx]) (hin : tx.inputs = [⟨o⟩])
    (hout : tx.outputs = [out]) (hle : out.value ≤ coin.output.value)
    (hmature : ¬ (coin.coinbase = true ∧ header.height.toUInt64 <
      coin.height.toUInt64 + params.coinbaseMaturity.toUInt64)) :
    connectBlock ⟨header, [tx]⟩ (UtxoSet.empty.insert o coin) params =
      .ok (coin.output.value - out.value,
        UtxoSet.empty.insert ⟨tx.txid, 0⟩ ⟨out, header.height, false⟩) := by
  have hsane := (checkBlockSanity_ok _).mpr (singleton_block_sane hs hm)
  have hcoinbase : (⟨header, [tx]⟩ : Block).coinbase? = none := by simp [Block.coinbase?, hcb]
  have hbody : (⟨header, [tx]⟩ : Block).body = [tx] := by simp [Block.body, hcoinbase]
  rw [connectBlock, hsane, ok_bind, hbody, connectTransactions_spend hin hout hle hmature, ok_bind]
  simp only [hcoinbase]

end Singleton

/-! Blocks with a coinbase and one more transaction. -/

section Pair
variable {header : BlockHeader} {coinbase tx : Transaction} {params : ConsensusParams}
  {reward out : TxOutput}

theorem pair_block_sane (hc : coinbase.Sane) (hs : tx.Sane) (hcb : tx.isCoinbase = false)
    (hid : coinbase.txid ≠ tx.txid) (hm : header.merkleRoot = computeMerkleRoot [coinbase, tx]) :
    (⟨header, [coinbase, tx]⟩ : Block).Sane := by
  refine ⟨by simp; decide, ?_, hm, ?_, by simpa using hcb, by simpa using hid⟩
  · have hlen := hc.size_le
    have hlen' := hs.size_le
    have hmax : 84 + 2 * kMaxTransactionSizeBytes.toNat ≤ kMaxBlockSizeBytes.toNat := by decide
    simp only [Transaction.toBytes] at hlen hlen'
    simp only [Block.toBytes, Block.serialize, List.length_append, BlockHeader.serialize_length,
      putU32_length, List.flatMap_cons, List.flatMap_nil, List.length_nil]
    omega
  · intro t ht
    obtain rfl | rfl := List.mem_pair.mp ht
    · exact hc
    · exact hs

theorem connectBlock_pair {o : OutPoint} {coin : Coin} {total : UInt64} (hc : coinbase.Sane)
    (hs : tx.Sane) (hcoinbase : coinbase.isCoinbase = true) (hcb : tx.isCoinbase = false)
    (hid : coinbase.txid ≠ tx.txid) (hm : header.merkleRoot = computeMerkleRoot [coinbase, tx])
    (hin : tx.inputs = [⟨o⟩]) (hout : tx.outputs = [out]) (hle : out.value ≤ coin.output.value)
    (hmature : ¬ (coin.coinbase = true ∧ header.height.toUInt64 <
      coin.height.toUInt64 + params.coinbaseMaturity.toUInt64))
    (hreward : coinbase.outputs = [reward])
    (htotal : checkedAdd params.blockSubsidy (coin.output.value - out.value) = some total)
    (hpay : reward.value ≤ total) :
    connectBlock ⟨header, [coinbase, tx]⟩ (UtxoSet.empty.insert o coin) params =
      .ok (coin.output.value - out.value,
        (UtxoSet.empty.insert ⟨tx.txid, 0⟩ ⟨out, header.height, false⟩).insert ⟨coinbase.txid, 0⟩
          ⟨reward, header.height, true⟩) := by
  have hsane := (checkBlockSanity_ok _).mpr (pair_block_sane hc hs hcb hid hm)
  have hfirst : (⟨header, [coinbase, tx]⟩ : Block).coinbase? = some coinbase := by
    simp [Block.coinbase?, hcoinbase]
  have hbody : (⟨header, [coinbase, tx]⟩ : Block).body = [tx] := by simp [Block.body, hfirst]
  have hne : (⟨coinbase.txid, 0⟩ : OutPoint) ≠ ⟨tx.txid, 0⟩ := fun he => hid (OutPoint.mk.inj he).1
  have hfree : UtxoSet.find (UtxoSet.empty.insert ⟨tx.txid, 0⟩ ⟨out, header.height, false⟩)
      ⟨coinbase.txid, 0⟩ = none := OrderedMap.find?_insert_of_ne _ _ hne
  have hpaid : ¬ totalOut coinbase.outputs > total := by
    simpa [hreward, totalOut, UInt64.not_lt] using hpay
  rw [connectBlock, hsane, ok_bind, hbody, connectTransactions_spend hin hout hle hmature, ok_bind]
  simp only [hfirst, connectCoinbase, htotal, if_neg hpaid,
    addOutputs_single hreward hfree, ok_bind]

end Pair
end Blockchain
