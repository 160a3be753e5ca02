import Blockchain.GreedySelection
import Blockchain.ArrivalOrder
import Blockchain.DoubleSpend

/-! The order of the transactions in a block. Two orders that both connect spend and create
the same coins, so they leave the same set and collect the same fees. -/
namespace Blockchain
open Lib

/-- The other block holds the same transactions in some order, under the header with the
Merkle root of that order. -/
structure Block.Rearranges (block other : Block) : Prop where
  header : other.header = { block.header with merkleRoot := computeMerkleRoot other.transactions }
  transactions : other.transactions.Perm block.transactions

namespace Block

theorem Rearranges.events_perm {block other : Block} (h : block.Rearranges other) :
    other.events.Perm block.events := by
  have hheight : other.header.height = block.header.height := by rw [h.header]
  rw [events, events, hheight]
  exact ((ordered_perm other).trans (h.transactions.trans (ordered_perm block).symm)).map _

theorem events_owned (block : Block) : SpendLog.Owned OutPoint.txid block.events := by
  intro e he o ho
  obtain ⟨tx, _, rfl⟩ := List.mem_map.mp he
  exact txEvent_owns ho

theorem Sane.idents_nodup {block : Block} (h : block.Sane) :
    (block.events.map SpendEvent.ident).Nodup := by
  have hids : block.events.map SpendEvent.ident = block.ordered.map Transaction.txid := by
    rw [events, List.map_map]
    rfl
  rw [hids]
  exact ((ordered_perm block).map _).nodup_iff.mpr h.txids_nodup

theorem Sane.coinbaseValue_eq {block : Block} (h : block.Sane) :
    block.coinbaseValue =
      ((block.transactions.filter fun tx => tx.isCoinbase).map fun tx =>
        outputValue tx.outputs).sum := by
  rw [← h.coinbase?_eq, coinbaseValue]
  cases block.coinbase? with
  | none => rfl
  | some tx => simp

end Block

/-- If two orders of a block's transactions both connect to a set, they give the same fees
and the same set. -/
theorem connectBlock_order_irrelevant (utxos : UtxoSet) (params : ConsensusParams)
    (block other : Block) (harranged : block.Rearranges other) (fees fees' : UInt64)
    (next next' : UtxoSet) (h : connectBlock block utxos params = .ok (fees, next))
    (h' : connectBlock other utxos params = .ok (fees', next')) : fees' = fees ∧ next' = next := by
  obtain ⟨hsane, hadm, hfind, hvalue, _⟩ := connectBlock_ok h
  obtain ⟨hsane', hadm', hfind', hvalue', _⟩ := connectBlock_ok h'
  have hstore := SpendLog.store_perm harranged.events_perm hadm' hadm other.events_owned
    hsane'.idents_nodup
  have hnext : next' = next := by
    apply OrderedMap.ext_find?
    intro o
    have heq := congrFun (hfind'.trans (hstore.trans hfind.symm)) o
    exact heq
  have hcoinbase : other.coinbaseValue = block.coinbaseValue := by
    rw [hsane'.coinbaseValue_eq, hsane.coinbaseValue_eq]
    exact ((harranged.transactions.filter _).map _).sum_eq
  refine ⟨UInt64.toNat_inj.mp ?_, hnext⟩
  rw [hnext] at hvalue'
  omega

/-! A block of two payments, in either order. -/

def paymentEntries : List Entry := [freeEntry, paidEntry]

def paymentsBlock (entries : List Entry) : Block :=
  ⟨⟨kBlockVersion, zeroHash, computeMerkleRoot (entries.map Entry.transaction), 0, 1⟩,
    entries.map Entry.transaction⟩

theorem paymentEntries_independent : Independent twoCoins paymentEntries := by
  obtain ⟨hsane, hcb, hinputs, _⟩ := validateForMempool_ok freePayment_valid
  obtain ⟨hsane', hcb', hinputs', _⟩ := validateForMempool_ok paidPayment_valid
  refine ⟨?_, ?_, ?_, ?_, ?_⟩
  · exact List.forall_mem_cons.mpr ⟨⟨hsane, hcb⟩, List.forall_mem_singleton.mpr ⟨hsane', hcb'⟩⟩
  · exact List.forall_mem_cons.mpr ⟨hinputs, List.forall_mem_singleton.mpr hinputs'⟩
  · exact List.forall_mem_cons.mpr ⟨fun j _ => twoCoins_absent payment_ids_apart.2.1,
      List.forall_mem_singleton.mpr fun j _ => twoCoins_absent payment_ids_apart.2.2⟩
  · exact List.pairwise_pair.mpr (List.pairwise_pair.mp two_payments_compatible.inputs)
  · exact List.pairwise_pair.mpr payment_ids_apart.1.symm

theorem paymentsBlock_sane {entries : List Entry} (hperm : entries.Perm paymentEntries) :
    (paymentsBlock entries).Sane := by
  have hind := paymentEntries_independent.perm hperm.symm
  have htxs := hperm.map Entry.transaction
  have hmem : ∀ tx ∈ (paymentsBlock entries).transactions, tx.Sane ∧ tx.isCoinbase = false := by
    intro tx htx
    obtain ⟨e, he, rfl⟩ := List.mem_map.mp htx
    exact hind.sane e he
  have hsize : (paymentsBlock entries).toBytes.length ≤ kMaxBlockSizeBytes.toNat := by
    rw [block_toBytes_length, paymentsBlock, (htxs.map _).sum_eq]
    decide +kernel
  refine ⟨block_count_le (fun tx htx => (hmem tx htx).1) hsize, hsize, rfl,
    fun tx htx => (hmem tx htx).1, fun tx htx => (hmem tx (List.mem_of_mem_tail htx)).2, ?_⟩
  exact (htxs.map Transaction.txid).nodup_iff.mpr two_payments_compatible.ids

theorem paymentsBlock_connects {entries : List Entry} (hperm : entries.Perm paymentEntries) :
    ∃ fees next, connectBlock (paymentsBlock entries) twoCoins ⟨50, 0⟩ = .ok (fees, next) := by
  have hind := paymentEntries_independent.perm hperm.symm
  have hsane := paymentsBlock_sane hperm
  have hplain : ∀ tx ∈ (paymentsBlock entries).transactions, tx.isCoinbase = false := by
    intro tx htx
    obtain ⟨e, he, rfl⟩ := List.mem_map.mp htx
    exact (hind.sane e he).2
  have hbody : (paymentsBlock entries).body = entries.map Entry.transaction := by
    rw [hsane.body_eq]
    exact List.filter_eq_self.mpr fun tx htx => by simp [hplain tx htx]
  have hcoinbase : (paymentsBlock entries).coinbase? = none := by
    have hnil := hsane.coinbase?_eq
    rw [List.filter_eq_nil_iff.mpr fun tx htx => by simp [hplain tx htx]] at hnil
    exact Option.toList_eq_nil_iff.mp hnil
  obtain ⟨sel, hsel⟩ := (Selection.Follows.start pairParams 1 twoCoins_withinMoney hind).connect_all
    hind (fun e _ => twoCoins_mature e.transaction _ _) (by rw [(hperm.map _).sum_eq]; decide)
  have hconn := hsel.connects
  rw [hsel.chosen_eq, List.nil_append] at hconn
  refine ⟨sel.totalFees, sel.working, ?_⟩
  rw [connectBlock, (checkBlockSanity_ok _).mpr hsane, ok_bind, hbody]
  change (connectTransactions pairParams.consensus 1 _ _ _ >>= _) = _
  rw [hconn, ok_bind]
  simp only [hcoinbase]

/-- Both orders of the two payments connect, with the same result. -/
theorem two_orders_connect_alike : ∃ fees next,
    connectBlock (paymentsBlock paymentEntries) twoCoins ⟨50, 0⟩ = .ok (fees, next) ∧
    connectBlock (paymentsBlock paymentEntries.reverse) twoCoins ⟨50, 0⟩ = .ok (fees, next) := by
  obtain ⟨fees, next, h⟩ := paymentsBlock_connects (.refl paymentEntries)
  obtain ⟨fees', next', h'⟩ := paymentsBlock_connects paymentEntries.reverse_perm
  have harranged : (paymentsBlock paymentEntries).Rearranges
      (paymentsBlock paymentEntries.reverse) :=
    ⟨rfl, paymentEntries.reverse_perm.map _⟩
  obtain ⟨rfl, rfl⟩ := connectBlock_order_irrelevant twoCoins ⟨50, 0⟩ _ _ harranged fees fees' next
    next' h h'
  exact ⟨fees', next', h, h'⟩

end Blockchain
