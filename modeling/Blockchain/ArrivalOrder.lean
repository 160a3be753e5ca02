import Blockchain.ExactEviction
import Blockchain.BlockBuilder

/-! A pool limited by count keeps the transactions of highest fee rate, whatever order they
arrive in. -/
namespace Blockchain
open Lib

namespace Mempool

def poolEntry (utxos : UtxoSet) (policy : MempoolPolicy) (tx : Transaction) : Entry :=
  match validateForMempool tx utxos policy with
  | .ok admission => entryOf tx admission
  | .error _ => entryOf tx ⟨0, 0⟩

/-- Valid transactions that do not exclude each other and are no more than the byte limit in
all, with different fee rates. -/
structure Compatible (utxos : UtxoSet) (policy : MempoolPolicy) (maxTotalBytes : UInt64)
    (txs : List Transaction) : Prop where
  valid : ∀ tx ∈ txs, ∃ admission, validateForMempool tx utxos policy = .ok admission
  ids : (txs.map Transaction.txid).Nodup
  inputs : txs.Pairwise fun a b => ∀ o ∈ a.prevouts, o ∉ b.prevouts
  rates : (txs.map fun tx => (poolEntry utxos policy tx).feerate).Nodup
  bytes : (txs.map fun tx => tx.toBytes.length).sum ≤ maxTotalBytes.toNat

section Runs
variable {utxos : UtxoSet} {policy : MempoolPolicy}

@[simp] theorem poolEntry_transaction (tx : Transaction) :
    (poolEntry utxos policy tx).transaction = tx := by
  rw [poolEntry]
  split <;> rfl

@[simp] theorem poolEntry_txid (tx : Transaction) : (poolEntry utxos policy tx).txid = tx.txid := by
  rw [poolEntry]
  split <;> rfl

theorem poolEntry_of_ok {tx : Transaction} {admission : MempoolAdmission}
    (h : validateForMempool tx utxos policy = .ok admission) :
    poolEntry utxos policy tx = entryOf tx admission := by
  rw [poolEntry, h]

variable {maxTotalBytes : UInt64} {txs : List Transaction}

theorem Compatible.perm (h : Compatible utxos policy maxTotalBytes txs) {txs' : List Transaction}
    (hperm : txs.Perm txs') : Compatible utxos policy maxTotalBytes txs' where
  valid := fun tx htx => h.valid tx (hperm.mem_iff.mpr htx)
  ids := (hperm.map _).nodup_iff.mp h.ids
  inputs := hperm.pairwise h.inputs fun hab o ho ho' => hab o ho' ho
  rates := (hperm.map _).nodup_iff.mp h.rates
  bytes := by
    rw [← (hperm.map _).sum_eq]
    exact h.bytes

theorem Compatible.sublist (h : Compatible utxos policy maxTotalBytes txs)
    {txs' : List Transaction} (hsub : txs'.Sublist txs) :
    Compatible utxos policy maxTotalBytes txs' where
  valid := fun tx htx => h.valid tx (hsub.subset htx)
  ids := h.ids.sublist (hsub.map _)
  inputs := h.inputs.sublist hsub
  rates := h.rates.sublist (hsub.map _)
  bytes := Nat.le_trans ((hsub.map _).sum_le_sum fun _ _ => Nat.zero_le _) h.bytes

theorem Compatible.entries_nodup (h : Compatible utxos policy maxTotalBytes txs) :
    (txs.map (poolEntry utxos policy)).Nodup := by
  apply List.Nodup.of_map Entry.feerate
  rw [List.map_map]
  exact h.rates

theorem RepInv.eq_of_values {p q : Mempool} (hp : p.RepInv) (hq : q.RepInv)
    (hl : p.limits = q.limits) (hv : ∀ e, e ∈ p.byTxid.values ↔ e ∈ q.byTxid.values) : p = q := by
  have hfind : ∀ {pool : Mempool}, pool.RepInv → ∀ id e,
      pool.byTxid.find? id = some e ↔ e ∈ pool.byTxid.values ∧ id = e.txid := by
    intro pool h id e
    rw [mem_values_iff h]
    refine ⟨fun he => ?_, fun he => he.2 ▸ he.1⟩
    have hkey := (h.key_eq id e he).1
    exact ⟨hkey ▸ he, hkey⟩
  refine hp.ext hq hl (OrderedMap.ext_find? fun id => Option.ext fun e => ?_)
  rw [hfind hp, hfind hq, hv]

/-- The pool after `done` arrived: those of highest fee rate. -/
structure Holds (utxos : UtxoSet) (policy : MempoolPolicy) (limits : MempoolLimits)
    (done : List Transaction) (pool : Mempool) : Prop where
  inv : pool.RepInv
  limits_eq : pool.limits = limits
  top : TopRanked Entry.feerate limits.maxTransactions.toNat
    (done.map (poolEntry utxos policy)) pool.byTxid.values

variable {limits : MempoolLimits} {done : List Transaction} {pool : Mempool} {tx : Transaction}

theorem Holds.mem_done (h : Holds utxos policy limits done pool) {e : Entry}
    (he : e ∈ pool.byTxid.values) : ∃ t ∈ done, poolEntry utxos policy t = e :=
  List.mem_map.mp (h.top.subset e he)

theorem Holds.passes (h : Holds utxos policy limits done pool)
    (hc : Compatible utxos policy limits.maxTotalBytes (tx :: done)) {admission : MempoolAdmission}
    (hval : validateForMempool tx utxos policy = .ok admission) :
    pool.Passes tx utxos policy admission where
  valid := hval
  absent := by
    by_contra hpresent
    obtain ⟨e, he⟩ := Option.ne_none_iff_exists'.mp hpresent
    have hkey := (h.inv.key_eq _ _ he).1
    obtain ⟨t, ht, rfl⟩ := h.mem_done ((mem_values_iff h.inv).mpr (hkey ▸ he))
    rw [poolEntry_txid] at hkey
    exact (List.nodup_cons.mp hc.ids).1 (List.mem_map.mpr ⟨t, ht, hkey.symm⟩)
  free := by
    intro o ho
    by_contra hspent
    obtain ⟨id, hid⟩ := Option.ne_none_iff_exists'.mp hspent
    obtain ⟨e, he, hoe⟩ := (h.inv.spent_iff o id).mp hid
    have hkey := (h.inv.key_eq _ _ he).1
    obtain ⟨t, ht, rfl⟩ := h.mem_done ((mem_values_iff h.inv).mpr (hkey ▸ he))
    rw [poolEntry_transaction] at hoe
    exact (List.pairwise_cons.mp hc.inputs).1 t ht o ho hoe

theorem Holds.fitsBeside_iff (h : Holds utxos policy limits done pool)
    (hc : Compatible utxos policy limits.maxTotalBytes (tx :: done)) {admission : MempoolAdmission}
    (hval : validateForMempool tx utxos policy = .ok admission) {rest : List Entry}
    (hnodup : rest.Nodup) (hsub : ∀ e ∈ rest, e ∈ pool.byTxid.values) :
    FitsBeside limits (entryOf tx admission) rest ↔
      rest.length + 1 ≤ limits.maxTransactions.toNat := by
  have hdone : ∀ e ∈ rest, e ∈ done.map (poolEntry utxos policy) :=
    fun e he => h.top.subset e (hsub e he)
  have hsum := (totals_le hnodup hdone).2
  have hsizes : (rest.map fun e => e.sizeBytes.toNat).sum =
      (rest.map fun e => e.transaction.toBytes.length).sum := by
    congr 1
    refine List.map_congr_left fun e he => ?_
    exact h.inv.size_eq e.txid e ((mem_values_iff h.inv).mp (hsub e he))
  have hsize : (entryOf tx admission).sizeBytes.toNat = tx.toBytes.length :=
    (validateForMempool_ok hval).2.2.2
  have hbytes := hc.bytes
  simp only [List.map_map, Function.comp_def, poolEntry_transaction] at hsum
  simp only [List.map_cons, List.sum_cons] at hbytes
  rw [FitsBeside, hsizes, hsize]
  omega

theorem Holds.rate_ne (h : Holds utxos policy limits done pool)
    (hc : Compatible utxos policy limits.maxTotalBytes (tx :: done)) {e : Entry}
    (he : e ∈ pool.byTxid.values) : e.feerate ≠ (poolEntry utxos policy tx).feerate := by
  intro heq
  obtain ⟨t, ht, rfl⟩ := h.mem_done he
  exact (List.nodup_cons.mp hc.rates).1 (List.mem_map.mpr ⟨t, ht, heq⟩)

theorem Holds.head_lowest (h : Holds utxos policy limits done pool)
    (hc : Compatible utxos policy limits.maxTotalBytes done) {w : Entry} {rest : List Entry}
    (ho : pool.EvictionOrder (w :: rest)) : ∀ e ∈ rest, w.feerate < e.feerate := by
  intro e he
  have hw := ho.head_mem
  have he' := ho.perm.mem_iff.mp (List.mem_cons_of_mem _ he)
  refine ((List.pairwise_cons.mp ho.sorted).1 e he).resolve_right fun hequal => ?_
  obtain ⟨t, ht, rfl⟩ := h.mem_done hw
  obtain ⟨u, hu, rfl⟩ := h.mem_done he'
  rw [List.inj_on_of_nodup_map hc.rates ht hu hequal.1] at ho
  exact (List.nodup_cons.mp (ho.perm.nodup_iff.mpr h.top.nodup)).1 he

theorem Holds.refuses (h : Holds utxos policy limits done pool)
    (hc : Compatible utxos policy limits.maxTotalBytes (tx :: done)) {admission : MempoolAdmission}
    (hval : validateForMempool tx utxos policy = .ok admission)
    (hfull : pool.byTxid.values.length = limits.maxTransactions.toNat)
    (hlow : ∀ e ∈ pool.byTxid.values, (entryOf tx admission).feerate < e.feerate) :
    (pool.accept tx utxos policy).2 = pool := by
  have ho := h.inv.evictionOrder
  have hpos : 0 < (entryOf tx admission).sizeBytes.toNat := by
    rw [entryOf, (validateForMempool_ok hval).2.2.2, Transaction.toBytes_length]
    omega
  obtain ⟨_, _, hok⟩ | ⟨_, e, herror⟩ := (h.passes hc hval).accept_cases
  · obtain ⟨admission', k, hpasses, _, hk, hbeaten, _⟩ := (ho.accept_iff h.inv).mp hok
    obtain rfl : admission = admission' := Except.ok.inj (hval.symm.trans hpasses.valid)
    have hcount := hk.1.1
    rw [h.limits_eq, List.length_drop, ho.perm.length_eq, hfull] at hcount
    cases horder : pool.entriesByFeerate.reverse with
    | nil =>
      have hlen := ho.perm.length_eq
      rw [horder, hfull, List.length_nil] at hlen
      omega
    | cons w rest =>
      cases k with
      | zero => omega
      | succ k =>
        rw [horder] at hbeaten ho
        exact absurd (hbeaten w List.mem_cons_self) (lt_asymm (hlow w ho.head_mem))
  · rw [herror]
    refine makeRoom_idle (Or.inr fun e he => ?_) pool.size
    rw [Bool.eq_false_iff, ne_eq, strictlyHigherFeerate_iff_feerate hpos (h.inv.size_pos he)]
    exact lt_asymm (hlow e he)

/-- When `k` is the least number that has to go and those that go are outbid, the rest and
the new arrival stay. -/
theorem Holds.admits (h : Holds utxos policy limits done pool)
    (hc : Compatible utxos policy limits.maxTotalBytes (tx :: done)) {admission : MempoolAdmission}
    (hval : validateForMempool tx utxos policy = .ok admission) {order : List Entry}
    (ho : pool.EvictionOrder order) {k : Nat}
    (hk : order.length + 1 = limits.maxTransactions.toNat + k ∨
      k = 0 ∧ order.length < limits.maxTransactions.toNat)
    (hcount : 1 ≤ limits.maxTransactions.toNat)
    (hbeaten : ∀ e ∈ order.take k, e.feerate < (entryOf tx admission).feerate) :
    (pool.accept tx utxos policy).2.byTxid.values.Perm (entryOf tx admission :: order.drop k) := by
  have hnodup : order.Nodup := ho.perm.nodup_iff.mpr h.top.nodup
  have hfits : ∀ j, FitsBeside limits (entryOf tx admission) (order.drop j) ↔
      order.length - j + 1 ≤ limits.maxTransactions.toNat := by
    intro j
    rw [h.fitsBeside_iff hc hval (hnodup.sublist (List.drop_sublist j order))
      fun e he => ho.perm.mem_iff.mp (List.mem_of_mem_drop he), List.length_drop]
  have hsmall : admission.sizeBytes ≤ limits.maxTotalBytes := by
    have hbytes := ((hfits order.length).mpr (by omega)).2
    rw [UInt64.le_iff_toNat_le]
    exact Nat.le_trans (Nat.le_add_left _ _) hbytes
  have hleast : IsLeast {k | FitsBeside limits (entryOf tx admission) (order.drop k)} k := by
    refine ⟨(hfits k).mpr (by omega), fun j hj => ?_⟩
    have hj := (hfits j).mp hj
    omega
  have hpasses := h.passes hc hval
  rw [← h.limits_eq] at hsmall hleast
  rw [(ho.accept_iff h.inv).mpr ⟨admission, k, hpasses, hsmall, hleast, hbeaten, rfl⟩]
  exact ho.values_after h.inv hpasses.absent k

theorem Holds.accept (h : Holds utxos policy limits done pool)
    (hc : Compatible utxos policy limits.maxTotalBytes (tx :: done)) :
    Holds utxos policy limits (tx :: done) (pool.accept tx utxos policy).2 where
  inv := h.inv.accept tx utxos policy
  limits_eq := (pool.accept_limits tx utxos policy).trans h.limits_eq
  top := by
    obtain ⟨admission, hval⟩ := hc.valid tx List.mem_cons_self
    have hnew := (List.nodup_cons.mp hc.entries_nodup).1
    have hrate := fun e he => h.rate_ne hc (e := e) he
    have hle : pool.byTxid.values.length ≤ limits.maxTransactions.toNat := by
      rw [h.top.length_eq]
      exact Nat.min_le_left _ _
    rw [List.map_cons]
    rw [poolEntry_of_ok hval] at hnew hrate ⊢
    have ho := h.inv.evictionOrder
    generalize pool.entriesByFeerate.reverse = order at ho
    have hlen := ho.perm.length_eq
    by_cases hroom : pool.byTxid.values.length < limits.maxTransactions.toNat
    · have hvalues := h.admits hc hval ho (k := 0) (Or.inr ⟨rfl, by omega⟩) (by omega) (by simp)
      exact (h.top.add hnew hroom).perm (.refl _) ((ho.perm.symm.cons _).trans hvalues.symm)
    · have hfull : pool.byTxid.values.length = limits.maxTransactions.toNat := by omega
      by_cases hbeats : ∃ w rest, order = w :: rest ∧ w.feerate < (entryOf tx admission).feerate
      · obtain ⟨w, rest, rfl, hbeats⟩ := hbeats
        rw [List.length_cons] at hlen
        have hvalues := h.admits hc hval ho (k := 1) (Or.inl (by rw [List.length_cons]; omega))
          (by omega) (by simpa using hbeats)
        have hlowest := h.head_lowest (hc.sublist (List.sublist_cons_self _ _)) ho
        exact (h.top.replace hnew ho.perm.symm hlowest hfull hbeats).perm (.refl _) hvalues.symm
      · have hlow : ∀ e ∈ pool.byTxid.values, (entryOf tx admission).feerate < e.feerate := by
          intro e he
          cases order with
          | nil => simp [ho.perm.symm.eq_nil] at he
          | cons w rest =>
            have hw : (entryOf tx admission).feerate < w.feerate := by
              refine lt_of_le_of_ne (not_lt.mp fun hlt => hbeats ⟨w, rest, rfl, hlt⟩) ?_
              exact (hrate w ho.head_mem).symm
            obtain rfl | hrest := List.mem_cons.mp (ho.perm.mem_iff.mpr he)
            · exact hw
            · exact hw.trans (h.head_lowest (hc.sublist (List.sublist_cons_self _ _)) ho e hrest)
        rw [h.refuses hc hval hfull hlow]
        exact h.top.refuse hfull hlow

theorem Holds.run (h : Holds utxos policy limits done pool) (rest : List Transaction)
    (hc : Compatible utxos policy limits.maxTotalBytes (rest ++ done)) :
    Holds utxos policy limits (rest.reverse ++ done)
      (rest.foldl (fun pool tx => (pool.accept tx utxos policy).2) pool) := by
  induction rest generalizing done pool with
  | nil => exact h
  | cons tx rest ih =>
    have hstep : (tx :: done).Sublist (tx :: rest ++ done) :=
      (List.sublist_append_right rest done).cons_cons tx
    rw [List.foldl_cons, List.reverse_cons, List.append_assoc]
    exact ih (h.accept (hc.sublist hstep)) (hc.perm List.perm_middle.symm)

theorem new_holds (utxos : UtxoSet) (policy : MempoolPolicy) (limits : MempoolLimits) :
    Holds utxos policy limits [] (new limits) :=
  ⟨new_inv limits, rfl, TopRanked.nil _⟩

end Runs
end Mempool

/-- Compatible transactions leave the same pool in whatever order they arrive: those of
highest fee rate, as many as the limit allows. -/
theorem arrival_order_irrelevant (utxos : UtxoSet) (policy : MempoolPolicy) (limits : MempoolLimits)
    (txs : List Transaction) (h : Mempool.Compatible utxos policy limits.maxTotalBytes txs)
    (order order' : List Transaction) (hperm : order.Perm txs) (hperm' : order'.Perm txs) :
    let arrive := fun order : List Transaction =>
      order.foldl (fun pool tx => (pool.accept tx utxos policy).2) (Mempool.new limits)
    TopRanked Entry.feerate limits.maxTransactions.toNat
      (txs.map (Mempool.poolEntry utxos policy)) (arrive order).byTxid.values ∧
    arrive order = arrive order' ∧
    (arrive order).entriesByFeerate = (arrive order').entriesByFeerate ∧
    ∀ tip timestamp set params, buildBlockTemplate tip timestamp (arrive order) set params =
      buildBlockTemplate tip timestamp (arrive order') set params := by
  intro arrive
  have hrun : ∀ o : List Transaction, o.Perm txs →
      (arrive o).RepInv ∧ (arrive o).limits = limits ∧
      TopRanked Entry.feerate limits.maxTransactions.toNat
        (txs.map (Mempool.poolEntry utxos policy)) (arrive o).byTxid.values := by
    intro o ho
    have hholds := (Mempool.new_holds utxos policy limits).run o
      (h.perm (by rw [List.append_nil]; exact ho.symm))
    have hall : (o.reverse ++ []).Perm txs := by
      rw [List.append_nil]
      exact o.reverse_perm.trans ho
    exact ⟨hholds.inv, hholds.limits_eq, hholds.top.perm (hall.map _) (.refl _)⟩
  obtain ⟨hinv, hlimits, htop⟩ := hrun order hperm
  obtain ⟨hinv', hlimits', htop'⟩ := hrun order' hperm'
  have hsame : arrive order = arrive order' :=
    hinv.eq_of_values hinv' (hlimits.trans hlimits'.symm)
      fun e => ⟨htop.mem_of_mem htop', htop'.mem_of_mem htop⟩
  exact ⟨htop, hsame, by rw [hsame], fun tip timestamp set params => by rw [hsame]⟩

theorem two_payments_compatible :
    Mempool.Compatible twoCoins {} 184 [freePayment, paidPayment] where
  valid := by
    intro tx htx
    obtain rfl | htx := List.mem_cons.mp htx
    · exact ⟨_, freePayment_valid⟩
    · rw [List.mem_singleton.mp htx]
      exact ⟨_, paidPayment_valid⟩
  ids := List.nodup_cons.mpr ⟨by simpa using payment_ids_apart.1.symm, List.nodup_singleton _⟩
  inputs := by
    refine List.pairwise_pair.mpr fun o ho ho' => ?_
    have hfirst : o = ⟨zeroHash, 0⟩ := by simpa [freePayment, Transaction.prevouts] using ho
    have hsecond : o = ⟨zeroHash, 1⟩ := by simpa [paidPayment, Transaction.prevouts] using ho'
    rw [hfirst] at hsecond
    exact absurd (congrArg OutPoint.index hsecond) (by decide)
  rates := by
    have hlt := freeEntry_rate.1
    rw [freeEntry, paidEntry, ← Mempool.poolEntry_of_ok freePayment_valid,
      ← Mempool.poolEntry_of_ok paidPayment_valid] at hlt
    exact List.nodup_cons.mpr ⟨by simpa using hlt.ne, List.nodup_singleton _⟩
  bytes := by decide +kernel

/-- One place, two payments, both orders. -/
theorem two_payments_either_order :
    Mempool.Compatible twoCoins {} 184 [freePayment, paidPayment] ∧
    [freePayment, paidPayment].foldl (fun pool tx => (pool.accept tx twoCoins {}).2)
      (Mempool.new ⟨1, 184⟩) =
    [paidPayment, freePayment].foldl (fun pool tx => (pool.accept tx twoCoins {}).2)
      (Mempool.new ⟨1, 184⟩) :=
  ⟨two_payments_compatible, (arrival_order_irrelevant twoCoins {} ⟨1, 184⟩
    [freePayment, paidPayment] two_payments_compatible _ _ (.refl _) (.swap _ _ _)).2.1⟩

end Blockchain
