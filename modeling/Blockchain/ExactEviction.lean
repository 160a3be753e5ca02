import Blockchain.Eviction

/-! Which entries leave a full pool: the shortest initial part of the entries, lowest fee
rate first, that leaves room for the incoming one. -/
namespace Blockchain
open Lib

namespace Mempool

/-- The entries by ascending fee rate, and of equal rates the higher id first. -/
structure EvictionOrder (pool : Mempool) (order : List Entry) : Prop where
  perm : order.Perm pool.byTxid.values
  sorted : order.Pairwise fun a b =>
    a.feerate < b.feerate ∨ a.feerate = b.feerate ∧ b.txid.bytes < a.txid.bytes

def FitsBeside (limits : MempoolLimits) (incoming : Entry) (rest : List Entry) : Prop :=
  rest.length + 1 ≤ limits.maxTransactions.toNat ∧
  (rest.map fun e => e.sizeBytes.toNat).sum + incoming.sizeBytes.toNat ≤ limits.maxTotalBytes.toNat

instance (limits : MempoolLimits) (incoming : Entry) :
    DecidablePred (FitsBeside limits incoming) :=
  fun _ => inferInstanceAs (Decidable (_ ∧ _))

section Order
variable {pool : Mempool} {order rest : List Entry} {w incoming : Entry}

theorem RepInv.before_iff (h : pool.RepInv) {a b : Entry} (ha : a ∈ pool.byTxid.values)
    (hb : b ∈ pool.byTxid.values) :
    (a.feerate < b.feerate ∨ a.feerate = b.feerate ∧ b.txid.bytes < a.txid.bytes) ↔
      higherFeerate b a = true := by
  rw [higherFeerate_iff_feerate (h.size_pos hb) (h.size_pos ha), ← lexicographicalCompare_iff,
    eq_comm (a := b.feerate)]
  rfl

theorem RepInv.evictionOrder (h : pool.RepInv) :
    pool.EvictionOrder pool.entriesByFeerate.reverse where
  perm := (List.reverse_perm _).trans (List.perm_insertionSort _ _)
  sorted := by
    have hnodup : pool.entriesByFeerate.Nodup :=
      (List.perm_insertionSort _ _).nodup_iff.mpr (h.txids_nodup.of_map _)
    rw [List.pairwise_reverse]
    refine (h.entriesByFeerate_sorted.and hnodup).imp_of_mem ?_
    intro a b ha hb hab
    have ha := (List.mem_insertionSort _).mp ha
    have hb := (List.mem_insertionSort _).mp hb
    rw [h.before_iff hb ha]
    exact (h.not_higher ha hb hab.1).resolve_left hab.2

theorem EvictionOrder.head_mem (ho : pool.EvictionOrder (w :: rest)) : w ∈ pool.byTxid.values :=
  ho.perm.mem_iff.mp List.mem_cons_self

theorem EvictionOrder.lowest (ho : pool.EvictionOrder (w :: rest)) (h : pool.RepInv) :
    findLowestFeerate pool.byTxid = some w := by
  obtain ⟨_, hvalues⟩ | ⟨worst, hworst, hsome, hall⟩ := h.lowest_spec
  · simpa [hvalues] using ho.head_mem
  · obtain rfl | hrest := List.mem_cons.mp (ho.perm.mem_iff.mpr hworst)
    · exact hsome
    · have hafter := (List.pairwise_cons.mp ho.sorted).1 worst hrest
      rw [h.before_iff ho.head_mem hworst] at hafter
      obtain rfl | hbefore := hall w ho.head_mem
      · exact hsome
      · have hnot := higherFeerate_asymm (h.size_pos hworst) (h.size_pos ho.head_mem) hafter
        simp [hnot] at hbefore

theorem EvictionOrder.remove (ho : pool.EvictionOrder (w :: rest)) (h : pool.RepInv) :
    (pool.remove w.txid).EvictionOrder rest where
  perm := by
    have hfind := (mem_values_iff h).mp ho.head_mem
    have hperm := ((pool.byTxid.erase_perm hfind).map Prod.snd)
    rw [remove_byTxid]
    exact (ho.perm.trans hperm).cons_inv
  sorted := (List.pairwise_cons.mp ho.sorted).2

theorem EvictionOrder.overLimit_iff (ho : pool.EvictionOrder order) (h : pool.RepInv)
    (hsmall : incoming.sizeBytes ≤ pool.limits.maxTotalBytes) :
    pool.OverLimit incoming ↔ ¬ FitsBeside pool.limits incoming order := by
  have hcount : order.length = pool.size := ho.perm.length_eq.trans pool.values_length
  have hbytes : (order.map fun e => e.sizeBytes.toNat).sum = pool.totalBytes.toNat := by
    rw [h.total_eq, (ho.perm.map _).sum_eq]
    congr 1
    refine List.map_congr_left fun e he => ?_
    exact h.size_eq e.txid e ((mem_values_iff h).mp he)
  rw [Mempool.overLimit_iff hsmall, FitsBeside, hcount, hbytes]
  omega

theorem EvictionOrder.makeRoom_fits (ho : pool.EvictionOrder order) (h : pool.RepInv)
    (hsmall : incoming.sizeBytes ≤ pool.limits.maxTotalBytes)
    (hfits : FitsBeside pool.limits incoming order) (fuel : Nat) :
    makeRoom incoming (fuel + 1) pool = (.ok (), pool) := by
  have hroom : ¬ pool.OverLimit incoming := by
    rw [ho.overLimit_iff h hsmall]
    exact not_not.mpr hfits
  rw [makeRoom, if_neg hroom]

theorem EvictionOrder.makeRoom_step (ho : pool.EvictionOrder (w :: rest)) (h : pool.RepInv)
    (hsmall : incoming.sizeBytes ≤ pool.limits.maxTotalBytes)
    (hfull : ¬ FitsBeside pool.limits incoming (w :: rest)) (fuel : Nat) :
    makeRoom incoming (fuel + 1) pool =
      if strictlyHigherFeerate incoming w then makeRoom incoming fuel (pool.remove w.txid)
      else (makeError .resourceLimitExceeded "mempool capacity limit reached", pool) := by
  rw [makeRoom, if_pos ((ho.overLimit_iff h hsmall).mpr hfull), ho.lowest h]

theorem EvictionOrder.makeRoom_evict (ho : pool.EvictionOrder order) (h : pool.RepInv)
    (hsmall : incoming.sizeBytes ≤ pool.limits.maxTotalBytes) {fuel : Nat}
    (hfuel : order.length < fuel) :
    (∀ rest, evict (FitsBeside pool.limits incoming) (strictlyHigherFeerate incoming) order =
        some rest →
      ∃ gone, order = gone ++ rest ∧
        makeRoom incoming fuel pool = (.ok (), pool.removeAll (gone.map Entry.txid))) ∧
    (evict (FitsBeside pool.limits incoming) (strictlyHigherFeerate incoming) order = none →
      (makeRoom incoming fuel pool).1 ≠ .ok ()) := by
  induction order generalizing pool fuel with
  | nil =>
    obtain ⟨fuel, rfl⟩ := Nat.exists_eq_succ_of_ne_zero (Nat.ne_of_gt hfuel)
    rw [evict]
    by_cases hfits : FitsBeside pool.limits incoming []
    · rw [if_pos hfits]
      refine ⟨fun rest hrest => ⟨[], ?_, ho.makeRoom_fits h hsmall hfits fuel⟩, by simp⟩
      rw [← Option.some.inj hrest, List.append_nil]
    · have hvalues : pool.byTxid.values = [] := ho.perm.symm.eq_nil
      have hlowest : findLowestFeerate pool.byTxid = none := by
        rw [findLowestFeerate, hvalues]
        rfl
      rw [if_neg hfits, makeRoom, if_pos ((ho.overLimit_iff h hsmall).mpr hfits), hlowest]
      exact ⟨by simp, by simp [makeError]⟩
  | cons w order ih =>
    obtain ⟨fuel, rfl⟩ := Nat.exists_eq_succ_of_ne_zero (Nat.ne_of_gt (Nat.zero_lt_of_lt hfuel))
    rw [evict]
    by_cases hfits : FitsBeside pool.limits incoming (w :: order)
    · rw [if_pos hfits]
      refine ⟨fun rest hrest => ⟨[], ?_, ho.makeRoom_fits h hsmall hfits fuel⟩, by simp⟩
      rw [← Option.some.inj hrest, List.nil_append]
    · rw [if_neg hfits, ho.makeRoom_step h hsmall hfits]
      by_cases hbeaten : strictlyHigherFeerate incoming w = true
      · rw [if_pos hbeaten, if_pos hbeaten]
        have hlimits : (pool.remove w.txid).limits = pool.limits := pool.remove_limits w.txid
        have hrest := ih (ho.remove h) (h.remove w.txid) (by rw [hlimits]; exact hsmall)
          (Nat.lt_of_succ_lt_succ hfuel)
        rw [hlimits] at hrest
        refine ⟨fun rest heq => ?_, hrest.2⟩
        obtain ⟨gone, hsplit, hroom⟩ := hrest.1 rest heq
        exact ⟨w :: gone, by rw [hsplit, List.cons_append], hroom⟩
      · rw [if_neg hbeaten, if_neg hbeaten]
        exact ⟨by simp, by simp [makeError]⟩

/-- With a size that fits, the loop succeeds exactly if the shortest initial part whose
removal leaves room is outbid, and that part is what it removes. -/
theorem EvictionOrder.makeRoom_iff (ho : pool.EvictionOrder order) (h : pool.RepInv)
    (hsmall : incoming.sizeBytes ≤ pool.limits.maxTotalBytes) (room : Mempool) :
    makeRoom incoming (pool.size + 1) pool = (.ok (), room) ↔
      ∃ k, IsLeast {k | FitsBeside pool.limits incoming (order.drop k)} k ∧
        (∀ e ∈ order.take k, strictlyHigherFeerate incoming e = true) ∧
        room = pool.removeAll ((order.take k).map Entry.txid) := by
  have hlen : order.length = pool.size := ho.perm.length_eq.trans pool.values_length
  obtain ⟨hsome, hnone⟩ := ho.makeRoom_evict h hsmall (Nat.lt_succ_of_le hlen.le)
  constructor
  · intro hroom
    cases hevict : evict (FitsBeside pool.limits incoming)
      (strictlyHigherFeerate incoming) order with
    | none => exact absurd (by rw [hroom]) (hnone hevict)
    | some rest =>
      obtain ⟨k, hk, rfl, hbeaten⟩ := evict_eq_some_iff.mp hevict
      obtain ⟨gone, hsplit, hroom'⟩ := hsome _ hevict
      have hgone : gone = order.take k := by
        have htake := (List.take_append_drop k order).trans hsplit
        exact (List.append_cancel_right htake).symm
      rw [hroom, hgone] at hroom'
      exact ⟨k, hk, hbeaten, congrArg Prod.snd hroom'⟩
  · intro hk
    obtain ⟨k, hk, hbeaten, rfl⟩ := hk
    have hevict : evict (FitsBeside pool.limits incoming) (strictlyHigherFeerate incoming) order =
        some (order.drop k) := evict_eq_some_iff.mpr ⟨k, hk, rfl, hbeaten⟩
    obtain ⟨gone, hsplit, hroom⟩ := hsome _ hevict
    have hgone : gone = order.take k := by
      have htake := (List.take_append_drop k order).trans hsplit
      exact (List.append_cancel_right htake).symm
    rw [hroom, hgone]

end Order

section Accept
variable {pool : Mempool} {tx : Transaction} {utxos : UtxoSet} {policy : MempoolPolicy}

theorem accept_eq_ok_iff {after : Mempool} :
    pool.accept tx utxos policy = (.ok (), after) ↔
      ∃ admission room, pool.Passes tx utxos policy admission ∧
        makeRoom (entryOf tx admission) (pool.size + 1) pool = (.ok (), room) ∧
        admission.sizeBytes ≤ pool.limits.maxTotalBytes ∧
        after = room.addEntry (entryOf tx admission) := by
  constructor
  · intro hok
    by_cases hpasses : ∃ admission, pool.Passes tx utxos policy admission
    · obtain ⟨admission, hpasses⟩ := hpasses
      obtain ⟨hroom, hsmall, haccept⟩ | ⟨_, e, herror⟩ := hpasses.accept_cases
      · rw [haccept] at hok
        exact ⟨admission, _, hpasses, Prod.ext hroom rfl, hsmall, (congrArg Prod.snd hok).symm⟩
      · simp [herror] at hok
    · obtain ⟨e, herror⟩ := accept_failing fun admission h => hpasses ⟨admission, h⟩
      simp [herror] at hok
  · intro hok
    obtain ⟨admission, room, hpasses, hroom, hsmall, rfl⟩ := hok
    obtain ⟨_, _, haccept⟩ | ⟨hfailed, _⟩ := hpasses.accept_cases
    · rw [haccept, hroom]
    · exact absurd ⟨congrArg Prod.fst hroom, hsmall⟩ hfailed

theorem EvictionOrder.accept_iff {order : List Entry} (ho : pool.EvictionOrder order)
    (h : pool.RepInv) {after : Mempool} :
    pool.accept tx utxos policy = (.ok (), after) ↔
      ∃ admission k, pool.Passes tx utxos policy admission ∧
        admission.sizeBytes ≤ pool.limits.maxTotalBytes ∧
        IsLeast {k | FitsBeside pool.limits (entryOf tx admission) (order.drop k)} k ∧
        (∀ e ∈ order.take k, e.feerate < (entryOf tx admission).feerate) ∧
        after = (pool.removeAll ((order.take k).map Entry.txid)).addEntry
          (entryOf tx admission) := by
  -- only the entries' own sizes are known to be positive by the invariant, the incoming
  -- size by the validation
  have hrate : ∀ admission, pool.Passes tx utxos policy admission → ∀ k, ∀ e ∈ order.take k,
      (strictlyHigherFeerate (entryOf tx admission) e = true ↔
        e.feerate < (entryOf tx admission).feerate) := by
    intro admission hpasses k e he
    have hpos : 0 < (entryOf tx admission).sizeBytes.toNat := by
      rw [entryOf, (validateForMempool_ok hpasses.valid).2.2.2, Transaction.toBytes_length]
      omega
    have hmem := ho.perm.mem_iff.mp (List.mem_of_mem_take he)
    exact strictlyHigherFeerate_iff_feerate hpos (h.size_pos hmem)
  rw [accept_eq_ok_iff]
  constructor
  · intro hok
    obtain ⟨admission, room, hpasses, hroom, hsmall, hafter⟩ := hok
    obtain ⟨k, hk, hbeaten, rfl⟩ := (ho.makeRoom_iff h hsmall room).mp hroom
    exact ⟨admission, k, hpasses, hsmall, hk,
      fun e he => (hrate admission hpasses k e he).mp (hbeaten e he), hafter⟩
  · intro hok
    obtain ⟨admission, k, hpasses, hsmall, hk, hbeaten, hafter⟩ := hok
    refine ⟨admission, _, hpasses, (ho.makeRoom_iff h hsmall _).mpr ⟨k, hk, ?_, rfl⟩,
      hsmall, hafter⟩
    exact fun e he => (hrate admission hpasses k e he).mpr (hbeaten e he)

theorem EvictionOrder.removeAll_take {order : List Entry} (ho : pool.EvictionOrder order)
    (h : pool.RepInv) (k : Nat) :
    (pool.removeAll ((order.take k).map Entry.txid)).EvictionOrder (order.drop k) := by
  induction k generalizing pool order with
  | zero => exact ho
  | succ k ih =>
    cases order with
    | nil => exact ho
    | cons w rest => exact ih (ho.remove h) (h.remove w.txid)

theorem EvictionOrder.values_after {order : List Entry} (ho : pool.EvictionOrder order)
    (h : pool.RepInv) {incoming : Entry} (habsent : pool.byTxid.find? incoming.txid = none)
    (k : Nat) :
    ((pool.removeAll ((order.take k).map Entry.txid)).addEntry incoming).byTxid.values.Perm
      (incoming :: order.drop k) :=
  (values_addEntry (removeAll_absent _ habsent)).trans ((ho.removeAll_take h k).perm.symm.cons _)

theorem fitsBeside_least (limits : MempoolLimits) (incoming : Entry) (order : List Entry)
    (hsmall : incoming.sizeBytes ≤ limits.maxTotalBytes) (hcount : 1 ≤ limits.maxTransactions) :
    ∃ k, IsLeast {k | FitsBeside limits incoming (order.drop k)} k := by
  have hall : FitsBeside limits incoming (order.drop order.length) := by
    rw [List.drop_length]
    exact ⟨by simpa [UInt32.le_iff_toNat_le] using hcount,
      by simpa [UInt64.le_iff_toNat_le] using hsmall⟩
  have hexists : ∃ k, FitsBeside limits incoming (order.drop k) := ⟨_, hall⟩
  exact ⟨Nat.find hexists, Nat.find_spec hexists, fun k hk => Nat.find_min' hexists hk⟩

variable (tx utxos policy) in
/-- Admission succeeds exactly if all that has to leave is outbid, and then that leaves. -/
theorem EvictionOrder.accept_exact {order : List Entry} (ho : pool.EvictionOrder order)
    (h : pool.RepInv) :
    ((pool.accept tx utxos policy).1 = .ok () ↔
      ∃ admission, validateForMempool tx utxos policy = .ok admission ∧
        pool.byTxid.find? tx.txid = none ∧ (∀ o ∈ tx.prevouts, pool.spentBy.find? o = none) ∧
        admission.sizeBytes ≤ pool.limits.maxTotalBytes ∧ 1 ≤ pool.limits.maxTransactions ∧
        ∀ k, IsLeast {k | FitsBeside pool.limits (entryOf tx admission) (order.drop k)} k →
          ∀ e ∈ order.take k, e.feerate < (entryOf tx admission).feerate) ∧
    ((pool.accept tx utxos policy).1 = .ok () →
      ∃ admission k, validateForMempool tx utxos policy = .ok admission ∧
        IsLeast {k | FitsBeside pool.limits (entryOf tx admission) (order.drop k)} k ∧
        (pool.accept tx utxos policy).2 =
          (pool.removeAll ((order.take k).map Entry.txid)).addEntry (entryOf tx admission) ∧
        (pool.accept tx utxos policy).2.byTxid.values.Perm
          (entryOf tx admission :: order.drop k)) := by
  have hpair : (pool.accept tx utxos policy).1 = .ok () →
      pool.accept tx utxos policy = (.ok (), (pool.accept tx utxos policy).2) :=
    fun hok => Prod.ext hok rfl
  refine ⟨⟨fun hok => ?_, fun hok => ?_⟩, fun hok => ?_⟩
  · obtain ⟨admission, k, hpasses, hsmall, hk, hbeaten, _⟩ := (ho.accept_iff h).mp (hpair hok)
    refine ⟨admission, hpasses.valid, hpasses.absent, hpasses.free, hsmall, ?_, ?_⟩
    · rw [UInt32.le_iff_toNat_le]
      exact Nat.le_trans (Nat.le_add_left 1 _) hk.1.1
    · intro j hj
      rw [hj.unique hk]
      exact hbeaten
  · obtain ⟨admission, hval, habsent, hfree, hsmall, hcount, hbeaten⟩ := hok
    obtain ⟨k, hk⟩ := fitsBeside_least pool.limits (entryOf tx admission) order hsmall hcount
    exact congrArg Prod.fst
      ((ho.accept_iff h).mpr ⟨admission, k, ⟨hval, habsent, hfree⟩, hsmall, hk, hbeaten k hk, rfl⟩)
  · obtain ⟨admission, k, hpasses, _, hk, _, hafter⟩ := (ho.accept_iff h).mp (hpair hok)
    refine ⟨admission, k, hpasses.valid, hk, hafter, ?_⟩
    rw [hafter]
    exact ho.values_after h hpasses.absent k

end Accept
end Mempool

/-- Eviction is exact: a transaction that passes the checks enters a pool exactly if the
lowest entries that have to leave for it all have a lower fee rate, and then they are what
leaves. -/
theorem eviction_exact (limits : MempoolLimits) (ops : List PoolOp) (tx : Transaction)
    (utxos : UtxoSet) (policy : MempoolPolicy) (order : List Entry)
    (ho : (ops.foldl PoolOp.apply (Mempool.new limits)).EvictionOrder order) :
    let pool := ops.foldl PoolOp.apply (Mempool.new limits)
    ((pool.accept tx utxos policy).1 = .ok () ↔
      ∃ admission, validateForMempool tx utxos policy = .ok admission ∧
        pool.byTxid.find? tx.txid = none ∧ (∀ o ∈ tx.prevouts, pool.spentBy.find? o = none) ∧
        admission.sizeBytes ≤ limits.maxTotalBytes ∧ 1 ≤ limits.maxTransactions ∧
        ∀ k,
          IsLeast {k | Mempool.FitsBeside limits (Mempool.entryOf tx admission) (order.drop k)} k →
          ∀ e ∈ order.take k, e.feerate < (Mempool.entryOf tx admission).feerate) ∧
    ((pool.accept tx utxos policy).1 = .ok () →
      ∃ admission k, validateForMempool tx utxos policy = .ok admission ∧
        IsLeast {k | Mempool.FitsBeside limits (Mempool.entryOf tx admission) (order.drop k)} k ∧
        (pool.accept tx utxos policy).2 =
          (pool.removeAll ((order.take k).map Entry.txid)).addEntry (Mempool.entryOf tx admission) ∧
        (pool.accept tx utxos policy).2.byTxid.values.Perm
          (Mempool.entryOf tx admission :: order.drop k)) := by
  intro pool
  have hexact := ho.accept_exact tx utxos policy (Mempool.run_repInv limits ops)
  rw [Mempool.run_limits] at hexact
  exact hexact

/-! A third payment, with half the fee, comes to the pool that is full with two. -/

def threeCoins : UtxoSet := twoCoins.insert ⟨zeroHash, 2⟩ ⟨⟨1000, zeroHash⟩, 0, false⟩

def thirdPayment : Transaction := ⟨1, [⟨⟨zeroHash, 2⟩⟩], [⟨500, zeroHash⟩], 0⟩

def thirdEntry : Entry := Mempool.entryOf thirdPayment ⟨500, 92⟩

theorem thirdPayment_valid : validateForMempool thirdPayment threeCoins {} = .ok ⟨500, 92⟩ := by
  decide +kernel

set_option maxRecDepth 100000 in
theorem thirdPayment_ids : paidPayment.txid ≠ thirdPayment.txid ∧
    freePayment.txid ≠ thirdPayment.txid := by
  refine ⟨WordState.sha256d_ne ?_, WordState.sha256d_ne ?_⟩
  · decide +kernel
  · decide +kernel

theorem freeEntry_rate : freeEntry.feerate < paidEntry.feerate ∧
    freeEntry.feerate < thirdEntry.feerate := by
  rw [Entry.feerate_lt_iff (by decide) (by decide), Entry.feerate_lt_iff (by decide) (by decide)]
  decide

theorem pairPool_order : pairPool.EvictionOrder [freeEntry, paidEntry] where
  perm := pairPool_values.symm
  sorted := List.pairwise_pair.mpr (.inl freeEntry_rate.1)

theorem thirdPayment_absent : pairPool.byTxid.find? thirdPayment.txid = none := by
  have hinv : pairPool.RepInv := Mempool.run_repInv _ _
  by_contra hsome
  obtain ⟨e, he⟩ := Option.ne_none_iff_exists'.mp hsome
  have hid := (hinv.key_eq _ _ he).1
  obtain rfl | rfl := pairPool_mem he
  · exact thirdPayment_ids.1 hid.symm
  · exact thirdPayment_ids.2 hid.symm

/-- The third payment takes the place of the free one, and the paid one stays. -/
theorem eviction_exact_pair :
    (pairPool.accept thirdPayment threeCoins {}).1 = .ok () ∧
    (pairPool.accept thirdPayment threeCoins {}).2.byTxid.values.Perm [thirdEntry, paidEntry] := by
  obtain ⟨hiff, hafter⟩ := eviction_exact ⟨2, 184⟩
    [PoolOp.accept paidPayment twoCoins {}, PoolOp.accept freePayment twoCoins {}]
    thirdPayment threeCoins {} _ pairPool_order
  -- one entry has to leave, and one is enough
  have hleast : ∀ k, IsLeast {k | Mempool.FitsBeside ⟨2, 184⟩ thirdEntry
      ([freeEntry, paidEntry].drop k)} k → k = 1 := by
    intro k hk
    have hone : k ≤ 1 := hk.2 (by decide : Mempool.FitsBeside ⟨2, 184⟩ thirdEntry [paidEntry])
    cases k with
    | zero => exact absurd hk.1.1 (by decide)
    | succ k => omega
  have hok : (pairPool.accept thirdPayment threeCoins {}).1 = .ok () := by
    refine hiff.mpr ⟨⟨500, 92⟩, thirdPayment_valid, thirdPayment_absent, ?_, by decide,
      by decide, ?_⟩
    · intro o ho
      change pairPool.spentBy.find? o = none
      obtain rfl : o = ⟨zeroHash, 2⟩ := by simpa [thirdPayment, Transaction.prevouts] using ho
      rw [pairPool_eq, Mempool.addEntry, OrderedMap.find?_emplaceAll, if_neg (by decide),
        Mempool.addEntry, OrderedMap.find?_emplaceAll, if_neg (by decide)]
      rfl
    · intro k hk e he
      rw [hleast k hk, List.take_succ_cons, List.take_zero, List.mem_singleton] at he
      rw [he]
      exact freeEntry_rate.2
  refine ⟨hok, ?_⟩
  obtain ⟨admission, k, hval, hk, _, hperm⟩ := hafter hok
  obtain rfl : (⟨500, 92⟩ : MempoolAdmission) = admission :=
    Except.ok.inj (thirdPayment_valid.symm.trans hval)
  rw [hleast k hk, List.drop_succ_cons, List.drop_zero] at hperm
  rw [pairPool, thirdEntry]
  exact hperm

end Blockchain
