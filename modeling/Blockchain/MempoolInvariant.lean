import Blockchain.Chain
import Mathlib.Data.List.Permutation

/-! The pool over whole runs: its representation invariant under any sequence of
operations, how a valid pool survives a connected block, and the re-admission of its own
snapshot. -/
namespace Blockchain
open Lib

/-- The operations that change a pool. Pruning goes through `submit_block`, on any chain. -/
inductive PoolOp where
  | accept (tx : Transaction) (utxos : UtxoSet) (policy : MempoolPolicy)
  | remove (txid : Hash256)
  | submitBlock (chain : Chain) (block : Block)

def PoolOp.apply (pool : Mempool) : PoolOp → Mempool
  | .accept tx utxos policy => (pool.accept tx utxos policy).2
  | .remove txid => pool.remove txid
  | .submitBlock chain block =>
    match chain.submitBlock block (some pool) with
    | .ok (_, _, some pruned) => pruned
    | _ => pool

namespace Mempool

theorem submitBlock_pool (pool : Mempool) (chain : Chain) (block : Block) :
    ∃ txids, PoolOp.apply pool (.submitBlock chain block) = pool.removeAll txids := by
  cases hs : chain.submitBlock block (some pool) with
  | error e => exact ⟨[], by simp [PoolOp.apply, hs, removeAll]⟩
  | ok r =>
    obtain ⟨fees, next, pool'⟩ := r
    obtain ⟨_, _, rfl⟩ := Chain.submitBlock_ok.mp hs
    exact ⟨block.transactions.map Transaction.txid, by simp [PoolOp.apply, hs]⟩

theorem RepInv.apply {pool : Mempool} (h : pool.RepInv) (op : PoolOp) : (op.apply pool).RepInv := by
  cases op with
  | accept tx utxos policy => exact h.accept tx utxos policy
  | remove txid => exact h.remove txid
  | submitBlock chain block =>
    obtain ⟨txids, he⟩ := pool.submitBlock_pool chain block
    rw [he]
    exact h.removeAll txids

theorem apply_limits (pool : Mempool) (op : PoolOp) : (op.apply pool).limits = pool.limits := by
  cases op with
  | accept tx utxos policy => exact pool.accept_limits tx utxos policy
  | remove txid => exact pool.remove_limits txid
  | submitBlock chain block =>
    obtain ⟨txids, he⟩ := pool.submitBlock_pool chain block
    rw [he, removeAll_limits]

theorem run_keeps {P : Mempool → Prop} {limits : MempoolLimits} (hnew : P (new limits))
    (hstep : ∀ pool op, P pool → P (PoolOp.apply pool op)) (ops : List PoolOp) :
    P (ops.foldl PoolOp.apply (new limits)) :=
  List.foldlRecOn ops PoolOp.apply hnew fun pool h op _ => hstep pool op h

theorem run_repInv (limits : MempoolLimits) (ops : List PoolOp) :
    (ops.foldl PoolOp.apply (new limits)).RepInv :=
  run_keeps (new_inv limits) (fun _ op h => h.apply op) ops

theorem run_limits (limits : MempoolLimits) (ops : List PoolOp) :
    (ops.foldl PoolOp.apply (new limits)).limits = limits :=
  run_keeps (P := fun pool => pool.limits = limits) rfl
    (fun pool op h => (pool.apply_limits op).trans h) ops

end Mempool

/-- From an empty pool, any sequence of operations keeps the index, the reservations, the
recorded sizes and the byte total consistent, within the limits and without wrap-around. -/
theorem mempool_representation (limits : MempoolLimits) (ops : List PoolOp) :
    (ops.foldl PoolOp.apply (Mempool.new limits)).RepInv ∧
    (ops.foldl PoolOp.apply (Mempool.new limits)).limits = limits :=
  ⟨Mempool.run_repInv limits ops, Mempool.run_limits limits ops⟩

namespace Mempool

/-- Every entry has passed the context-free part of admission. -/
def Admitted (pool : Mempool) : Prop :=
  ∀ id e, pool.byTxid.find? id = some e → e.transaction.Sane ∧ e.transaction.isCoinbase = false

theorem Admitted.removeAll {pool : Mempool} (h : pool.Admitted) (txids : List Hash256) :
    (pool.removeAll txids).Admitted :=
  fun id e he => h id e (find?_removeAll.mp he).1

theorem accept_pooled {P : Transaction → Prop} {pool : Mempool} {tx : Transaction}
    {utxos : UtxoSet} {policy : MempoolPolicy}
    (h : ∀ id e, pool.byTxid.find? id = some e → P e.transaction)
    (hnew : ∀ admission, validateForMempool tx utxos policy = .ok admission → P tx) :
    ∀ id e, (pool.accept tx utxos policy).2.byTxid.find? id = some e → P e.transaction := by
  intro id e he
  obtain ⟨evicted, ⟨_, hpool⟩ | ⟨admission, hval, hfits, hpool⟩⟩ :=
    pool.accept_cases tx utxos policy
  · rw [hpool] at he
    exact h id e (find?_removeAll.mp he).1
  · rw [hpool] at he
    obtain he | ⟨_, rfl⟩ := (find?_addEntry hfits).mp he
    · exact h id e (find?_removeAll.mp he).1
    · exact hnew admission hval

theorem Admitted.accept {pool : Mempool} (h : pool.Admitted) (tx : Transaction) (utxos : UtxoSet)
    (policy : MempoolPolicy) : (pool.accept tx utxos policy).2.Admitted := by
  refine accept_pooled (P := fun tx => tx.Sane ∧ tx.isCoinbase = false) h fun admission hval => ?_
  obtain ⟨hs, hcb, _⟩ := validateForMempool_ok hval
  exact ⟨hs, hcb⟩

theorem Admitted.apply {pool : Mempool} (h : pool.Admitted) (op : PoolOp) :
    (op.apply pool).Admitted := by
  cases op with
  | accept tx utxos policy => exact h.accept tx utxos policy
  | remove txid => exact h.removeAll [txid]
  | submitBlock chain block =>
    obtain ⟨txids, he⟩ := pool.submitBlock_pool chain block
    rw [he]
    exact h.removeAll txids

theorem run_admitted (limits : MempoolLimits) (ops : List PoolOp) :
    (ops.foldl PoolOp.apply (new limits)).Admitted :=
  run_keeps (by simp [Admitted, new]) (fun _ op h => h.apply op) ops

/-! Pools whose entries are valid against a UTXO set. -/

def ValidFor (pool : Mempool) (utxos : UtxoSet) (policy : MempoolPolicy) : Prop :=
  ∀ id e, pool.byTxid.find? id = some e →
    validateForMempool e.transaction utxos policy = .ok ⟨e.fee, e.sizeBytes⟩

theorem ValidFor.admitted {pool : Mempool} {utxos : UtxoSet} {policy : MempoolPolicy}
    (h : pool.ValidFor utxos policy) : pool.Admitted := by
  intro id e he
  obtain ⟨hs, hcb, _⟩ := validateForMempool_ok (h id e he)
  exact ⟨hs, hcb⟩

theorem ValidFor.removeAll {pool : Mempool} {utxos : UtxoSet} {policy : MempoolPolicy}
    (h : pool.ValidFor utxos policy) (txids : List Hash256) :
    (pool.removeAll txids).ValidFor utxos policy :=
  fun id e he => h id e (find?_removeAll.mp he).1

theorem ValidFor.accept {pool : Mempool} {utxos : UtxoSet} {policy : MempoolPolicy}
    (h : pool.ValidFor utxos policy) (tx : Transaction) :
    (pool.accept tx utxos policy).2.ValidFor utxos policy := by
  obtain ⟨evicted, ⟨_, hpool⟩ | ⟨admission, hval, hfits, hpool⟩⟩ :=
    pool.accept_cases tx utxos policy
  · rw [hpool]
    exact h.removeAll evicted
  · rw [hpool]
    intro id e he
    obtain he | ⟨_, rfl⟩ := (find?_addEntry hfits).mp he
    · exact h.removeAll evicted id e he
    · exact hval

theorem find_of_connectBlock {block : Block} {utxos next : UtxoSet} {params : ConsensusParams}
    {fees : UInt64} (h : connectBlock block utxos params = .ok (fees, next)) {o : OutPoint}
    (ho : (utxos.find o).isSome)
    (hfree : ∀ tx ∈ block.transactions, tx.isCoinbase = false → o ∉ tx.prevouts) :
    next.find o = utxos.find o := by
  obtain ⟨_, hadm, hfind, _⟩ := connectBlock_ok h
  obtain ⟨c, hc⟩ := Option.isSome_iff_exists.mp ho
  rw [hc, hfind]
  refine SpendLog.store_of_unspent hadm hc ?_
  intro e he
  obtain ⟨tx, htx, rfl⟩ := List.mem_map.mp he
  have hnot := hfree tx (Block.mem_ordered.mp htx)
  cases hcb : tx.isCoinbase with
  | true => simp [txEvent, hcb]
  | false => simpa [txEvent, hcb] using hnot hcb

/-- A valid pool stays valid under a connected block that shares no input with the entries
the block leaves in the pool. -/
theorem ValidFor.connectBlock {pool : Mempool} {block : Block} {utxos next : UtxoSet}
    {params : ConsensusParams} {policy : MempoolPolicy} {fees : UInt64}
    (h : pool.ValidFor utxos policy) (hc : connectBlock block utxos params = .ok (fees, next))
    (hfree : ∀ id e, pool.byTxid.find? id = some e → id ∉ block.transactions.map Transaction.txid →
      ∀ tx ∈ block.transactions, tx.isCoinbase = false →
        ∀ o ∈ e.transaction.prevouts, o ∉ tx.prevouts) :
    (pool.removeAll (block.transactions.map Transaction.txid)).ValidFor next policy := by
  intro id e he
  obtain ⟨hfind, hnot⟩ := find?_removeAll.mp he
  have hval := h id e hfind
  obtain ⟨hs, _, hin, _⟩ := validateForMempool_ok hval
  obtain ⟨hpresent, _⟩ := checkTransactionInputs_ok hs hin
  rw [validateForMempool_congr policy, hval]
  intro o ho
  exact find_of_connectBlock hc (hpresent o ho)
    (fun tx htx hcb => hfree id e hfind hnot tx htx hcb o ho)

/-! Re-admission. -/

theorem RepInv.sortedTransactions_eq {pool : Mempool} (h : pool.RepInv) :
    pool.sortedTransactions = pool.byTxid.values.map Entry.transaction := by
  apply List.Pairwise.insertionSort_eq
  rw [OrderedMap.values, List.map_map, List.pairwise_map]
  refine pool.byTxid.sorted.imp_of_mem ?_
  intro a b ha hb hab
  have hka := h.key_eq a.1 a.2 ((pool.byTxid.find?_eq_some_iff _ _).mpr ha)
  have hkb := h.key_eq b.1 b.2 ((pool.byTxid.find?_eq_some_iff _ _).mpr hb)
  rw [hka.1.trans hka.2, hkb.1.trans hkb.2] at hab
  exact less_asymm hab

theorem values_length (pool : Mempool) : pool.byTxid.values.length = pool.size := by
  simp [size, OrderedMap.size, OrderedMap.values]

theorem values_addEntry {pool : Mempool} {incoming : Entry}
    (habsent : pool.byTxid.find? incoming.txid = none) :
    (pool.addEntry incoming).byTxid.values.Perm (incoming :: pool.byTxid.values) := by
  have hperm := (pool.byTxid.insert_perm incoming habsent).map Prod.snd
  rw [addEntry, OrderedMap.emplace_of_none _ habsent]
  exact hperm

/-- What is left to re-admit, next to a pool that holds the rest of the entries. -/
structure Restoring (full part : Mempool) (rest : List Entry) : Prop where
  inv : part.RepInv
  limits_eq : part.limits = full.limits
  perm : (part.byTxid.values ++ rest).Perm full.byTxid.values

theorem mem_values_iff {pool : Mempool} (h : pool.RepInv) {e : Entry} :
    e ∈ pool.byTxid.values ↔ pool.byTxid.find? e.txid = some e := by
  constructor
  · intro he
    obtain ⟨⟨id, e'⟩, hin, rfl⟩ := List.mem_map.mp he
    have hfind := (pool.byTxid.find?_eq_some_iff _ _).mpr hin
    rw [← (h.key_eq _ _ hfind).1]
    exact hfind
  · intro he
    exact List.mem_map.mpr ⟨_, (pool.byTxid.find?_eq_some_iff _ _).mp he, rfl⟩

theorem RepInv.txids_nodup {pool : Mempool} (h : pool.RepInv) :
    (pool.byTxid.values.map Entry.txid).Nodup := by
  have hkeys := pool.byTxid.keys_nodup
  have heq : pool.byTxid.values.map Entry.txid = pool.byTxid.entries.map Prod.fst := by
    rw [OrderedMap.values, List.map_map]
    refine List.map_congr_left fun p hp => ?_
    exact ((h.key_eq p.1 p.2 ((pool.byTxid.find?_eq_some_iff _ _).mpr hp)).1).symm
  rwa [heq]

theorem Restoring.fits {full part : Mempool} {e : Entry} {rest : List Entry} (hf : full.RepInv)
    (h : Restoring full part (e :: rest)) : part.Fits e := by
  have hmem : e ∈ full.byTxid.values := h.perm.mem_iff.mp (by simp)
  have hfind := (mem_values_iff hf).mp hmem
  have hkey := hf.key_eq _ _ hfind
  have hnd := (h.perm.map Entry.txid).nodup_iff.mpr hf.txids_nodup
  rw [List.map_append, List.map_cons] at hnd
  have habsent : part.byTxid.find? e.txid = none := by
    cases hp : part.byTxid.find? e.txid with
    | none => rfl
    | some e' =>
      have hk := (h.inv.key_eq _ _ hp).1
      have hin : e' ∈ part.byTxid.values := (mem_values_iff h.inv).mpr (hk ▸ hp)
      exact absurd hk ((List.nodup_append.mp hnd).2.2 e'.txid (List.mem_map_of_mem hin) e.txid
        List.mem_cons_self).symm
  -- the part with `e` is no larger than the full pool, which is within the limits
  have hlen := h.perm.length_eq
  have hsum := (h.perm.map fun e => e.transaction.toBytes.length).sum_eq
  have htotal := h.inv.total_eq
  have htotal' := hf.total_eq
  have hcount := hf.count_le
  have hbytes := UInt64.le_iff_toNat_le.mp hf.bytes_le
  have hsize := hf.size_eq _ _ hfind
  simp only [List.map_append, List.sum_append, List.map_cons, List.sum_cons] at hsum
  have hsmall : e.sizeBytes ≤ part.limits.maxTotalBytes := by
    rw [UInt64.le_iff_toNat_le, h.limits_eq]
    omega
  refine ⟨hkey.2, hsize, habsent, ?_, ?_, hsmall⟩
  · intro o ho
    cases hp : part.spentBy.find? o with
    | none => rfl
    | some id =>
      obtain ⟨e', he', ho'⟩ := (h.inv.spent_iff o id).mp hp
      have hk := (h.inv.key_eq _ _ he').1
      have hin : e' ∈ part.byTxid.values := (mem_values_iff h.inv).mpr (hk ▸ he')
      have hfull : e' ∈ full.byTxid.values := h.perm.mem_iff.mp (List.mem_append_left _ hin)
      have hsame := hf.no_conflict ((mem_values_iff hf).mp hfull) hfind ho' ho
      rw [← hk] at hsame
      rw [hsame, habsent] at he'
      simp at he'
  · have hsub := UInt64.toNat_sub_of_le _ _ hsmall
    rw [h.limits_eq] at hsub
    simp only [OverLimit, not_or, gt_iff_lt, Nat.not_lt, UInt64.not_lt, UInt64.le_iff_toNat_le,
      h.limits_eq, hsub]
    simp only [size, OrderedMap.size, OrderedMap.values, List.length_append, List.length_map,
      List.length_cons] at hlen hcount ⊢
    exact ⟨by omega, by omega⟩

theorem Restoring.step {full part : Mempool} {e : Entry} {rest : List Entry} (hf : full.RepInv)
    (h : Restoring full part (e :: rest)) : Restoring full (part.addEntry e) rest := by
  have hfits := h.fits hf
  refine ⟨h.inv.addEntry hfits, h.limits_eq, ?_⟩
  have hins : (part.addEntry e).byTxid = part.byTxid.insert e.txid e :=
    OrderedMap.emplace_of_none e hfits.absent
  have hperm := (part.byTxid.insert_perm e hfits.absent).map Prod.snd
  rw [hins]
  exact ((hperm.append_right rest).trans List.perm_middle.symm).trans h.perm

theorem Restoring.done {full part : Mempool} (hf : full.RepInv) (h : Restoring full part []) :
    part = full := by
  refine h.inv.ext hf h.limits_eq (OrderedMap.ext_find? fun id => Option.ext fun e => ?_)
  have hperm := h.perm
  rw [List.append_nil] at hperm
  constructor
  · intro he
    have hk := (h.inv.key_eq _ _ he).1
    have hin := hperm.mem_iff.mp ((mem_values_iff h.inv).mpr (hk ▸ he))
    rw [hk]
    exact (mem_values_iff hf).mp hin
  · intro he
    have hk := (hf.key_eq _ _ he).1
    have hin := hperm.mem_iff.mpr ((mem_values_iff hf).mpr (hk ▸ he))
    rw [hk]
    exact (mem_values_iff h.inv).mp hin

/-- Re-admitting the snapshot of a valid pool into an empty pool with the same limits
succeeds for every entry and gives back the pool itself. -/
theorem restoreMempool_sorted {pool : Mempool} {utxos : UtxoSet} {policy : MempoolPolicy}
    (h : pool.RepInv) (hv : pool.ValidFor utxos policy) :
    restoreMempool utxos policy pool.sortedTransactions (new pool.limits) = (.ok (), pool) := by
  have hrun : ∀ (rest : List Entry) (part : Mempool), Restoring pool part rest →
      restoreMempool utxos policy (rest.map Entry.transaction) part = (.ok (), pool) := by
    intro rest
    induction rest with
    | nil =>
      intro part hr
      rw [hr.done h]
      rfl
    | cons e rest ih =>
      intro part hr
      have hfind := (mem_values_iff h).mp (hr.perm.mem_iff.mp (by simp) : e ∈ pool.byTxid.values)
      have hid := (h.key_eq _ _ hfind).2
      have hentry : entryOf e.transaction ⟨e.fee, e.sizeBytes⟩ = e := by
        rw [entryOf, ← hid]
      have hacc := accept_of_fits (hv _ _ hfind) (hentry.symm ▸ hr.fits h)
      rw [List.map_cons, restoreMempool, hacc, hentry]
      exact ih _ (hr.step h)
  rw [h.sortedTransactions_eq]
  refine hrun _ _ ⟨new_inv pool.limits, rfl, ?_⟩
  simp [new, OrderedMap.values]

end Mempool

/-! Two coins, a free payment of the one and a paid payment of the other, and a pool with
both. -/

def twoCoins : UtxoSet :=
  (UtxoSet.empty.insert ⟨zeroHash, 0⟩ ⟨⟨1000, zeroHash⟩, 0, false⟩).insert ⟨zeroHash, 1⟩
    ⟨⟨1000, zeroHash⟩, 0, false⟩

def freePayment : Transaction := ⟨1, [⟨⟨zeroHash, 0⟩⟩], [⟨1000, zeroHash⟩], 0⟩

def paidPayment : Transaction := ⟨1, [⟨⟨zeroHash, 1⟩⟩], [⟨0, zeroHash⟩], 0⟩

theorem twoCoins_find {o : OutPoint} {c : Coin} (h : twoCoins.find o = some c) :
    o.txid = zeroHash ∧ c = ⟨⟨1000, zeroHash⟩, 0, false⟩ := by
  rw [twoCoins, UtxoSet.find] at h
  by_cases hone : o = ⟨zeroHash, 1⟩
  · subst hone
    rw [OrderedMap.find?_insert_self] at h
    exact ⟨rfl, (Option.some.inj h).symm⟩
  · rw [OrderedMap.find?_insert_of_ne _ _ hone] at h
    by_cases hzero : o = ⟨zeroHash, 0⟩
    · subst hzero
      rw [OrderedMap.find?_insert_self] at h
      exact ⟨rfl, (Option.some.inj h).symm⟩
    · rw [OrderedMap.find?_insert_of_ne _ _ hzero] at h
      simp [UtxoSet.empty] at h

theorem twoCoins_absent {o : OutPoint} (h : o.txid ≠ zeroHash) : twoCoins.find o = none := by
  by_contra hsome
  obtain ⟨c, hc⟩ := Option.ne_none_iff_exists'.mp hsome
  exact h (twoCoins_find hc).1

theorem freePayment_valid : validateForMempool freePayment twoCoins {} = .ok ⟨0, 92⟩ := by
  decide +kernel

theorem paidPayment_valid : validateForMempool paidPayment twoCoins {} = .ok ⟨1000, 92⟩ := by
  decide +kernel

set_option maxRecDepth 100000 in
theorem payment_ids_apart :
    paidPayment.txid ≠ freePayment.txid ∧ freePayment.txid ≠ zeroHash ∧
      paidPayment.txid ≠ zeroHash := by
  refine ⟨WordState.sha256d_ne ?_, WordState.sha256d_ne_zeroHash ?_,
    WordState.sha256d_ne_zeroHash ?_⟩
  · decide +kernel
  · decide +kernel
  · decide +kernel

def freeEntry : Entry := Mempool.entryOf freePayment ⟨0, 92⟩

def paidEntry : Entry := Mempool.entryOf paidPayment ⟨1000, 92⟩

def pairPool : Mempool :=
  [PoolOp.accept paidPayment twoCoins {}, PoolOp.accept freePayment twoCoins {}].foldl
    PoolOp.apply (.new ⟨2, 184⟩)

theorem pairPool_absent :
    ((Mempool.new ⟨2, 184⟩).addEntry paidEntry).byTxid.find? freeEntry.txid = none := by
  have hnew : (Mempool.new ⟨2, 184⟩).byTxid.find? freeEntry.txid = none := rfl
  have hid : freeEntry.txid ≠ paidEntry.txid := payment_ids_apart.1.symm
  rw [Mempool.addEntry, OrderedMap.find?_emplace, hnew, Option.none_or, if_neg hid]

theorem pairPool_eq :
    pairPool = ((Mempool.new ⟨2, 184⟩).addEntry paidEntry).addEntry freeEntry := by
  have hpaid : (Mempool.new ⟨2, 184⟩).Fits paidEntry :=
    ⟨rfl, by decide +kernel, rfl, fun _ _ => rfl, by decide, by decide⟩
  have hfree : ((Mempool.new ⟨2, 184⟩).addEntry paidEntry).Fits freeEntry := by
    refine ⟨rfl, by decide +kernel, pairPool_absent, fun o ho => ?_, by decide, by decide⟩
    obtain rfl : o = ⟨zeroHash, 0⟩ := by
      simpa [freeEntry, Mempool.entryOf, freePayment, Transaction.prevouts] using ho
    rw [Mempool.addEntry, OrderedMap.find?_emplaceAll]
    rfl
  have hfirst : (Mempool.new ⟨2, 184⟩).accept paidPayment twoCoins {} =
      (.ok (), (Mempool.new ⟨2, 184⟩).addEntry paidEntry) :=
    Mempool.accept_of_fits paidPayment_valid hpaid
  have hsecond : ((Mempool.new ⟨2, 184⟩).addEntry paidEntry).accept freePayment twoCoins {} =
      (.ok (), ((Mempool.new ⟨2, 184⟩).addEntry paidEntry).addEntry freeEntry) :=
    Mempool.accept_of_fits freePayment_valid hfree
  change (((Mempool.new ⟨2, 184⟩).accept paidPayment twoCoins {}).2.accept freePayment
    twoCoins {}).2 = _
  rw [hfirst, hsecond]

theorem pairPool_values : pairPool.byTxid.values.Perm [freeEntry, paidEntry] := by
  have hpaid : ((Mempool.new ⟨2, 184⟩).addEntry paidEntry).byTxid.values.Perm [paidEntry] :=
    Mempool.values_addEntry rfl
  rw [pairPool_eq]
  exact (Mempool.values_addEntry pairPool_absent).trans (hpaid.cons _)

theorem pairPool_mem {id : Hash256} {e : Entry} (h : pairPool.byTxid.find? id = some e) :
    e = paidEntry ∨ e = freeEntry := by
  have hinv : pairPool.RepInv := Mempool.run_repInv _ _
  obtain rfl := (hinv.key_eq _ _ h).1
  have hmem := pairPool_values.mem_iff.mp ((Mempool.mem_values_iff hinv).mpr h)
  exact (List.mem_pair.mp hmem).symm

theorem pairPool_entries : pairPool.entriesByFeerate = [paidEntry, freeEntry] := by
  have hsorted : ∀ values : List Entry, values = [freeEntry, paidEntry] ∨
      values = [paidEntry, freeEntry] →
        values.insertionSort (fun a b => higherFeerate b a = false) = [paidEntry, freeEntry] := by
    intro values h
    obtain rfl | rfl := h
    · rfl
    · rfl
  exact hsorted _ (List.perm_pair.mp pairPool_values)

end Blockchain
