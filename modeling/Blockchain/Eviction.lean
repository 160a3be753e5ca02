import Blockchain.FeeOrder
import Blockchain.Sha256Eval
import Mathlib.Algebra.Order.BigOperators.Group.List

/-! Making room in a full pool: which entries an incoming transaction can push out, when
that is enough, and what a failed admission leaves behind. -/
namespace Blockchain
open Lib

theorem feerate_trans {a b c : Entry} (hpos : 0 < b.sizeBytes.toNat)
    (hab : a.fee.toNat * b.sizeBytes.toNat ≤ b.fee.toNat * a.sizeBytes.toNat)
    (hbc : b.fee.toNat * c.sizeBytes.toNat ≤ c.fee.toNat * b.sizeBytes.toNat) :
    a.fee.toNat * c.sizeBytes.toNat ≤ c.fee.toNat * a.sizeBytes.toNat := by
  apply Nat.le_of_mul_le_mul_left _ hpos
  calc b.sizeBytes.toNat * (a.fee.toNat * c.sizeBytes.toNat)
      = a.fee.toNat * b.sizeBytes.toNat * c.sizeBytes.toNat := by ring
    _ ≤ b.fee.toNat * a.sizeBytes.toNat * c.sizeBytes.toNat := Nat.mul_le_mul_right _ hab
    _ = b.fee.toNat * c.sizeBytes.toNat * a.sizeBytes.toNat := by ring
    _ ≤ c.fee.toNat * b.sizeBytes.toNat * a.sizeBytes.toNat := Nat.mul_le_mul_right _ hbc
    _ = b.sizeBytes.toNat * (c.fee.toNat * a.sizeBytes.toNat) := by ring

namespace Mempool

theorem RepInv.lowest_decides {pool : Mempool} (h : pool.RepInv) {worst : Entry}
    (hlow : findLowestFeerate pool.byTxid = some worst) (incoming : Entry) :
    strictlyHigherFeerate incoming worst = false ↔
      ∀ e ∈ pool.byTxid.values, strictlyHigherFeerate incoming e = false := by
  have hmem := findLowestFeerate_mem hlow
  have hpos := fun e he => h.size_pos (e := e) he
  refine ⟨fun hworst e he => ?_, fun hall => hall worst hmem⟩
  have hle : worst.fee.toNat * e.sizeBytes.toNat ≤ e.fee.toNat * worst.sizeBytes.toNat := by
    obtain rfl | hhigher := h.lowest_le hlow he
    · exact Nat.le_refl _
    · rw [higherFeerate_iff] at hhigher
      omega
  rw [Bool.eq_false_iff, ne_eq, strictlyHigherFeerate_iff, Nat.not_lt] at hworst ⊢
  exact feerate_trans (hpos worst hmem) hworst hle

/-- The entries the incoming one does not outbid: they stay, whatever happens. -/
def unbeaten (pool : Mempool) (incoming : Entry) : List Entry :=
  pool.byTxid.values.filter fun e => strictlyHigherFeerate incoming e = false

/-- There is room beside the entries that stay. -/
structure RoomBeside (pool : Mempool) (incoming : Entry) : Prop where
  count : (pool.unbeaten incoming).length + 1 ≤ pool.limits.maxTransactions.toNat
  bytes : ((pool.unbeaten incoming).map fun e => e.transaction.toBytes.length).sum +
    incoming.sizeBytes.toNat ≤ pool.limits.maxTotalBytes.toNat

/-- What the eviction loop ends with: entries that stay are still there, nothing was added. -/
structure Trimmed (pool room : Mempool) (incoming : Entry) : Prop where
  inv : room.RepInv
  limits_eq : room.limits = pool.limits
  values_sub : ∀ e ∈ room.byTxid.values, e ∈ pool.byTxid.values
  stays : ∀ e ∈ pool.unbeaten incoming, e ∈ room.byTxid.values

theorem makeRoom_trimmed {pool : Mempool} (h : pool.RepInv) (incoming : Entry) (fuel : Nat) :
    pool.Trimmed (makeRoom incoming fuel pool).2 incoming := by
  obtain ⟨evicted, hroom, _⟩ := makeRoom_spec incoming fuel pool
  have hinv : (makeRoom incoming fuel pool).2.RepInv := by
    rw [hroom]
    exact h.removeAll evicted
  refine ⟨hinv, by rw [hroom, removeAll_limits], ?_, ?_⟩
  · intro e he
    rw [mem_values_iff hinv, hroom] at he
    exact (mem_values_iff h).mpr (find?_removeAll.mp he).1
  · intro e he
    obtain ⟨hmem, hkept⟩ := List.mem_filter.mp he
    have hfind := (mem_values_iff h).mp hmem
    rw [mem_values_iff hinv]
    cases hgone : (makeRoom incoming fuel pool).2.byTxid.find? e.txid with
    | none =>
      have hbeaten := makeRoom_evicts h hfind hgone
      simp [hbeaten] at hkept
    | some e' =>
      rw [hroom] at hgone
      rw [(find?_removeAll.mp hgone).1] at hfind
      exact hfind

theorem makeRoom_error {pool : Mempool} (h : pool.RepInv) {incoming : Entry} {fuel : Nat}
    {e : Error} (hfuel : pool.size < fuel) (herror : (makeRoom incoming fuel pool).1 = .error e) :
    (makeRoom incoming fuel pool).2.OverLimit incoming ∧
      ∀ x ∈ (makeRoom incoming fuel pool).2.byTxid.values,
        strictlyHigherFeerate incoming x = false := by
  induction fuel generalizing pool with
  | zero => omega
  | succ fuel ih =>
    rw [makeRoom] at herror ⊢
    by_cases hover : pool.OverLimit incoming
    · simp only [hover, if_true] at herror ⊢
      cases hlow : findLowestFeerate pool.byTxid with
      | none => exact ⟨hover, by simp [h.lowest_none hlow]⟩
      | some worst =>
        simp only [hlow] at herror
        by_cases hbeat : strictlyHigherFeerate incoming worst = true
        · simp only [hbeat, if_true] at herror ⊢
          have hfind := (mem_values_iff h).mp (findLowestFeerate_mem hlow)
          have hless : (pool.remove worst.txid).size < fuel := by
            have hlen := (pool.byTxid.erase_perm hfind).length_eq
            simp only [size, OrderedMap.size, remove_byTxid, List.length_cons] at hlen hfuel ⊢
            omega
          exact ih (h.remove worst.txid) hless herror
        · simp only [hbeat]
          exact ⟨hover, (h.lowest_decides hlow incoming).mp (Bool.eq_false_of_not_eq_true hbeat)⟩
    · simp [hover] at herror

theorem totals_le {es fs : List Entry} (hnodup : es.Nodup) (hsub : ∀ e ∈ es, e ∈ fs) :
    es.length ≤ fs.length ∧
      (es.map fun e => e.transaction.toBytes.length).sum ≤
        (fs.map fun e => e.transaction.toBytes.length).sum := by
  obtain ⟨l, hl, hsublist⟩ := List.subperm_of_subset hnodup hsub
  refine ⟨hl.length_eq.symm.trans_le hsublist.length_le, ?_⟩
  rw [← (hl.map _).sum_eq]
  exact (hsublist.map _).sum_le_sum fun _ _ => Nat.zero_le _

/-- For a transaction that fits the byte limit at all, the loop condition has no wrap-around. -/
theorem overLimit_iff {pool : Mempool} {incoming : Entry}
    (hsmall : incoming.sizeBytes ≤ pool.limits.maxTotalBytes) :
    pool.OverLimit incoming ↔ pool.limits.maxTransactions.toNat < pool.size + 1 ∨
      pool.limits.maxTotalBytes.toNat < pool.totalBytes.toNat + incoming.sizeBytes.toNat := by
  have hle := UInt64.le_iff_toNat_le.mp hsmall
  rw [OverLimit, gt_iff_lt, gt_iff_lt, UInt64.lt_iff_toNat_lt, UInt64.toNat_sub_of_le _ _ hsmall]
  omega

theorem makeRoom_ok_iff {pool : Mempool} (h : pool.RepInv) {incoming : Entry}
    (hsmall : incoming.sizeBytes ≤ pool.limits.maxTotalBytes) :
    (makeRoom incoming (pool.size + 1) pool).1 = .ok () ↔ pool.RoomBeside incoming := by
  have htrim := makeRoom_trimmed h incoming (pool.size + 1)
  have hnodup : (pool.unbeaten incoming).Nodup := (h.txids_nodup.of_map _).filter _
  have hsmall' : incoming.sizeBytes ≤
      (makeRoom incoming (pool.size + 1) pool).2.limits.maxTotalBytes := by
    rw [htrim.limits_eq]
    exact hsmall
  have hover := overLimit_iff hsmall'
  rw [htrim.limits_eq] at hover
  constructor
  · intro hok
    obtain ⟨evicted, hroom, hfits⟩ := makeRoom_spec incoming (pool.size + 1) pool
    have hnot := hfits hok
    rw [← hroom, hover] at hnot
    obtain ⟨hcount, hbytes⟩ := totals_le hnodup htrim.stays
    rw [values_length] at hcount
    rw [← htrim.inv.total_eq] at hbytes
    exact ⟨by omega, by omega⟩
  · intro hbeside
    cases hresult : (makeRoom incoming (pool.size + 1) pool).1 with
    | ok u => rfl
    | error e =>
      obtain ⟨hfull, hunbeaten⟩ := makeRoom_error h (Nat.lt_succ_self _) hresult
      have hsub : ∀ x ∈ (makeRoom incoming (pool.size + 1) pool).2.byTxid.values,
          x ∈ pool.unbeaten incoming := by
        intro x hx
        exact List.mem_filter.mpr ⟨htrim.values_sub x hx, by simpa using hunbeaten x hx⟩
      obtain ⟨hcount, hbytes⟩ := totals_le (htrim.inv.txids_nodup.of_map _) hsub
      rw [values_length] at hcount
      rw [← htrim.inv.total_eq] at hbytes
      have hcount' := hbeside.count
      have hbytes' := hbeside.bytes
      rw [hover] at hfull
      omega

/-- The transaction needs no room, outbids nobody, or finds room beside those it does not
outbid. -/
def EvictionPaysOff (pool : Mempool) (incoming : Entry) : Prop :=
  ¬ pool.OverLimit incoming ∨
  (∀ e ∈ pool.byTxid.values, strictlyHigherFeerate incoming e = false) ∨
  pool.RoomBeside incoming

theorem makeRoom_drops_lowest {pool : Mempool} {incoming worst : Entry}
    (hover : pool.OverLimit incoming)
    (hlow : findLowestFeerate pool.byTxid = some worst)
    (hworst : strictlyHigherFeerate incoming worst = true) (fuel : Nat) :
    (makeRoom incoming (fuel + 1) pool).2.contains worst.txid = false := by
  rw [makeRoom, if_pos hover]
  simp only [hlow, hworst, if_true]
  obtain ⟨evicted, hroom, _⟩ := makeRoom_spec incoming fuel (pool.remove worst.txid)
  rw [hroom, contains, Option.isSome_eq_false_iff, Option.isNone_iff_eq_none]
  apply Option.eq_none_iff_forall_ne_some.mpr
  intro e he
  exact (find?_remove.mp (find?_removeAll.mp he).1).2 rfl

theorem makeRoom_changes {pool : Mempool} (h : pool.RepInv) {incoming : Entry}
    (hover : pool.OverLimit incoming)
    (hbeats : ∃ e ∈ pool.byTxid.values, strictlyHigherFeerate incoming e = true) (fuel : Nat) :
    (makeRoom incoming (fuel + 1) pool).2 ≠ pool := by
  obtain ⟨e, he, hbeat⟩ := hbeats
  cases hlow : findLowestFeerate pool.byTxid with
  | none => simp [h.lowest_none hlow] at he
  | some worst =>
    have hworst : strictlyHigherFeerate incoming worst = true := by
      by_contra hnot
      have hall := (h.lowest_decides hlow incoming).mp (Bool.eq_false_of_not_eq_true hnot) e he
      simp [hbeat] at hall
    have hfind := (mem_values_iff h).mp (findLowestFeerate_mem hlow)
    have hgone := makeRoom_drops_lowest hover hlow hworst fuel
    intro hsame
    simp [hsame, contains, hfind] at hgone

theorem makeRoom_idle {pool : Mempool} {incoming : Entry}
    (hidle : ¬ pool.OverLimit incoming ∨
      ∀ e ∈ pool.byTxid.values, strictlyHigherFeerate incoming e = false) (fuel : Nat) :
    (makeRoom incoming (fuel + 1) pool).2 = pool := by
  rw [makeRoom]
  by_cases hover : pool.OverLimit incoming
  · have hall := hidle.resolve_left (not_not.mpr hover)
    rw [if_pos hover]
    cases hlow : findLowestFeerate pool.byTxid with
    | none => rfl
    | some worst => simp [hall worst (findLowestFeerate_mem hlow)]
  · rw [if_neg hover]

section Accept
variable {pool : Mempool} {tx : Transaction} {utxos : UtxoSet} {policy : MempoolPolicy}

/-- The checks before the eviction loop. -/
structure Passes (pool : Mempool) (tx : Transaction) (utxos : UtxoSet) (policy : MempoolPolicy)
    (admission : MempoolAdmission) : Prop where
  valid : validateForMempool tx utxos policy = .ok admission
  absent : pool.byTxid.find? tx.txid = none
  free : ∀ o ∈ tx.prevouts, pool.spentBy.find? o = none

theorem accept_failing (h : ∀ admission, ¬ pool.Passes tx utxos policy admission) :
    ∃ e, pool.accept tx utxos policy = (.error e, pool) := by
  rw [accept]
  cases hval : validateForMempool tx utxos policy with
  | error e => exact ⟨e, rfl⟩
  | ok admission =>
    by_cases hdup : (pool.byTxid.find? tx.txid).isSome = true
    · simp only [hdup, if_true]
      exact ⟨_, rfl⟩
    · by_cases hconf : tx.prevouts.any (fun o => (pool.spentBy.find? o).isSome) = true
      · simp only [hdup, hconf, Bool.false_eq_true, if_false, if_true]
        exact ⟨_, rfl⟩
      · refine absurd ⟨hval, by simpa using hdup, fun o ho => ?_⟩ (h admission)
        have hall := List.any_eq_false.mp (Bool.eq_false_of_not_eq_true hconf) o ho
        simpa using hall

/-- Past the checks, the transaction is admitted, or the loop gave up or the transaction is
larger than the whole pool may be; then what the loop left is what remains. -/
theorem Passes.accept_cases {admission : MempoolAdmission}
    (h : pool.Passes tx utxos policy admission) :
    ((makeRoom (entryOf tx admission) (pool.size + 1) pool).1 = .ok () ∧
      admission.sizeBytes ≤ pool.limits.maxTotalBytes ∧
      pool.accept tx utxos policy =
        (.ok (), (makeRoom (entryOf tx admission) (pool.size + 1) pool).2.addEntry
          (entryOf tx admission))) ∨
    (¬ ((makeRoom (entryOf tx admission) (pool.size + 1) pool).1 = .ok () ∧
        admission.sizeBytes ≤ pool.limits.maxTotalBytes) ∧
      ∃ e, pool.accept tx utxos policy =
        (.error e, (makeRoom (entryOf tx admission) (pool.size + 1) pool).2)) := by
  obtain ⟨evicted, hpool, _⟩ := makeRoom_spec (entryOf tx admission) (pool.size + 1) pool
  have hlimits : (makeRoom (entryOf tx admission) (pool.size + 1) pool).2.limits = pool.limits := by
    rw [hpool, removeAll_limits]
  have hfree : tx.prevouts.any (fun o => (pool.spentBy.find? o).isSome) = false := by
    rw [List.any_eq_false]
    intro o ho
    simp [h.free o ho]
  rw [accept]
  simp only [h.valid, h.absent, hfree, Option.isSome_none, Bool.false_eq_true, if_false]
  cases hroom : makeRoom (entryOf tx admission) (pool.size + 1) pool with
  | mk result room =>
    rw [hroom] at hlimits
    cases result with
    | error e => exact .inr ⟨by simp, e, rfl⟩
    | ok u =>
      by_cases hbig : admission.sizeBytes > room.limits.maxTotalBytes
      · simp only [hbig, if_true]
        rw [hlimits] at hbig
        exact .inr ⟨fun hsmall => absurd hsmall.2 (UInt64.not_le.mpr hbig), _, rfl⟩
      · simp only [hbig, if_false]
        rw [hlimits] at hbig
        exact .inl ⟨trivial, UInt64.not_lt.mp hbig, trivial⟩

/-- A rejected transaction leaves the pool as it was exactly when eviction, if it starts,
pays off. -/
theorem Passes.unchanged_iff (hinv : pool.RepInv) {admission : MempoolAdmission}
    (h : pool.Passes tx utxos policy admission) :
    ((∃ e, (pool.accept tx utxos policy).1 = .error e) → (pool.accept tx utxos policy).2 = pool) ↔
      pool.EvictionPaysOff (entryOf tx admission) := by
  have hsize : (entryOf tx admission).sizeBytes = admission.sizeBytes := rfl
  constructor
  · intro hunchanged
    by_contra hnot
    simp only [EvictionPaysOff, not_or, not_not, not_forall, Bool.not_eq_false] at hnot
    obtain ⟨hover, ⟨e, he, hbeat⟩, hbeside⟩ := hnot
    have hchanges := makeRoom_changes hinv hover ⟨e, he, hbeat⟩ pool.size
    obtain ⟨hok, hsmall, _⟩ | ⟨_, e, herror⟩ := h.accept_cases
    · exact hbeside ((makeRoom_ok_iff hinv hsmall).mp hok)
    · rw [herror] at hunchanged
      exact hchanges (hunchanged ⟨e, rfl⟩)
  · intro hpays herror
    obtain ⟨e, herror⟩ := herror
    obtain ⟨_, _, hok⟩ | ⟨hfailed, e', hpool⟩ := h.accept_cases
    · simp [hok] at herror
    · rw [hpool]
      obtain hidle | hidle | hbeside := hpays
      · exact makeRoom_idle (.inl hidle) pool.size
      · exact makeRoom_idle (.inr hidle) pool.size
      · have hsmall : admission.sizeBytes ≤ pool.limits.maxTotalBytes := by
          have hbytes := hbeside.bytes
          rw [hsize] at hbytes
          rw [UInt64.le_iff_toNat_le]
          omega
        exact absurd ⟨(makeRoom_ok_iff hinv hsmall).mpr hbeside, hsmall⟩ hfailed

end Accept
end Mempool

/-- In every pool a run can reach, a rejected transaction changes nothing, unless it passes
the checks, outbids an entry of the full pool and still finds no room beside the others. -/
theorem rejection_unchanged_iff (limits : MempoolLimits) (ops : List PoolOp) (tx : Transaction)
    (utxos : UtxoSet) (policy : MempoolPolicy) :
    let pool := ops.foldl PoolOp.apply (Mempool.new limits)
    ((∃ e, (pool.accept tx utxos policy).1 = .error e) → (pool.accept tx utxos policy).2 = pool) ↔
      ∀ admission, pool.Passes tx utxos policy admission →
        pool.EvictionPaysOff (Mempool.entryOf tx admission) := by
  intro pool
  have hinv : pool.RepInv := Mempool.run_repInv limits ops
  constructor
  · intro hunchanged admission hpasses
    exact (hpasses.unchanged_iff hinv).mp hunchanged
  · intro hpays
    by_cases hpasses : ∃ admission, pool.Passes tx utxos policy admission
    · obtain ⟨admission, hpasses⟩ := hpasses
      exact (hpasses.unchanged_iff hinv).mpr (hpays admission hpasses)
    · intro _
      obtain ⟨e, hfailing⟩ := Mempool.accept_failing fun admission h => hpasses ⟨admission, h⟩
      rw [hfailing]

/-! A pool with room for one small transaction, and a larger one with a better fee rate. -/

def largePayment : Transaction := ⟨1, [⟨⟨zeroHash, 1⟩⟩], [⟨0, zeroHash⟩, ⟨0, zeroHash⟩], 0⟩

theorem largePayment_valid : validateForMempool largePayment twoCoins {} = .ok ⟨1000, 132⟩ := by
  decide +kernel

set_option maxRecDepth 100000 in
theorem payment_ids_differ : largePayment.txid ≠ freePayment.txid := by
  apply WordState.sha256d_ne
  decide +kernel

def narrowPool : Mempool :=
  [PoolOp.accept freePayment twoCoins {}].foldl PoolOp.apply (.new ⟨1, 92⟩)

theorem narrowPool_eq :
    narrowPool = (Mempool.new ⟨1, 92⟩).addEntry (Mempool.entryOf freePayment ⟨0, 92⟩) := by
  have hsize : (92 : UInt64).toNat = freePayment.toBytes.length := by decide +kernel
  have hfits : (Mempool.new ⟨1, 92⟩).Fits (Mempool.entryOf freePayment ⟨0, 92⟩) :=
    ⟨rfl, hsize, rfl, fun _ _ => rfl, by decide, by decide⟩
  exact congrArg Prod.snd (Mempool.accept_of_fits freePayment_valid hfits)

theorem narrowPool_find (id : Hash256) :
    narrowPool.byTxid.find? id =
      if id = freePayment.txid then some (Mempool.entryOf freePayment ⟨0, 92⟩) else none := by
  rw [narrowPool_eq, Mempool.addEntry, OrderedMap.find?_emplace]
  rfl

theorem largePayment_passes : narrowPool.Passes largePayment twoCoins {} ⟨1000, 132⟩ where
  valid := largePayment_valid
  absent := by rw [narrowPool_find, if_neg payment_ids_differ]
  free := by
    intro o ho
    rw [narrowPool_eq, Mempool.addEntry, OrderedMap.find?_emplaceAll]
    obtain rfl : o = ⟨zeroHash, 1⟩ := by simpa [largePayment, Transaction.prevouts] using ho
    rfl

/-- The larger payment is refused for its size, after the pooled one was evicted for it. -/
theorem rejection_evicts :
    narrowPool.contains freePayment.txid = true ∧
    (∃ e, (narrowPool.accept largePayment twoCoins {}).1 = .error e) ∧
    (narrowPool.accept largePayment twoCoins {}).2.contains freePayment.txid = false := by
  have hover : narrowPool.OverLimit (Mempool.entryOf largePayment ⟨1000, 132⟩) := by
    rw [narrowPool_eq]
    decide
  have hlow : findLowestFeerate narrowPool.byTxid = some (Mempool.entryOf freePayment ⟨0, 92⟩) := by
    rw [narrowPool_eq]
    rfl
  have hbeat : strictlyHigherFeerate (Mempool.entryOf largePayment ⟨1000, 132⟩)
      (Mempool.entryOf freePayment ⟨0, 92⟩) = true := by decide
  obtain ⟨_, hsmall, _⟩ | ⟨_, e, hpool⟩ := largePayment_passes.accept_cases
  · rw [narrowPool_eq] at hsmall
    exact absurd hsmall (by decide)
  · refine ⟨by simp [Mempool.contains, narrowPool_find], ⟨e, by rw [hpool]⟩, ?_⟩
    have hgone := Mempool.makeRoom_drops_lowest hover hlow hbeat narrowPool.size
    rw [hpool]
    simpa only [Mempool.entryOf] using hgone

end Blockchain
