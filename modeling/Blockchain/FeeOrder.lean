import Blockchain.MempoolInvariant
import Blockchain.FeeRate
import Blockchain.Lib.Ranking
import Mathlib.Algebra.Order.Field.Rat
import Mathlib.Algebra.Order.Field.Basic

/-! The fee-rate order of the pool as an order of fractions. The comparison by cross
products is that order, so sorting by it has one result. -/
namespace Blockchain
open Lib

theorem lexicographicalCompare_iff (a b : Bytes) : lexicographicalCompare a b = true ↔ a < b := by
  induction a generalizing b with
  | nil =>
    cases b with
    | nil => simp [lexicographicalCompare]
    | cons y ys => simp [lexicographicalCompare]
  | cons x xs ih =>
    cases b with
    | nil => simp [lexicographicalCompare]
    | cons y ys =>
      rw [List.cons_lt_cons_iff, ← ih, lexicographicalCompare, UInt8.lt_iff_toNat_lt,
        ← UInt8.toNat_inj]
      by_cases hlt : x.toNat < y.toNat
      · simp [hlt]
      · by_cases hgt : y.toNat < x.toNat
        · simp [hlt, hgt, Nat.ne_of_gt hgt]
        · simp [show x.toNat = y.toNat by omega]

def Entry.feerate (entry : Entry) : ℚ := entry.fee.toNat / entry.sizeBytes.toNat

section Order
variable {a b c : Entry} (ha : 0 < a.sizeBytes.toNat) (hb : 0 < b.sizeBytes.toNat)
  (hc : 0 < c.sizeBytes.toNat)

include ha hb

theorem Entry.feerate_lt_iff : a.feerate < b.feerate ↔
    a.fee.toNat * b.sizeBytes.toNat < b.fee.toNat * a.sizeBytes.toNat := by
  have ha' : (0 : ℚ) < a.sizeBytes.toNat := Nat.cast_pos.mpr ha
  have hb' : (0 : ℚ) < b.sizeBytes.toNat := Nat.cast_pos.mpr hb
  rw [Entry.feerate, Entry.feerate, div_lt_div_iff₀ ha' hb']
  norm_cast

theorem Entry.feerate_eq_iff : a.feerate = b.feerate ↔
    a.fee.toNat * b.sizeBytes.toNat = b.fee.toNat * a.sizeBytes.toNat := by
  have hlt := Entry.feerate_lt_iff ha hb
  have hgt := Entry.feerate_lt_iff hb ha
  rw [eq_iff_le_not_lt, ← not_lt, hlt, hgt]
  omega

theorem strictlyHigherFeerate_iff_feerate :
    strictlyHigherFeerate a b = true ↔ b.feerate < a.feerate := by
  rw [strictlyHigherFeerate_iff, Entry.feerate_lt_iff hb ha]

theorem higherFeerate_iff_feerate :
    higherFeerate a b = true ↔
      b.feerate < a.feerate ∨ a.feerate = b.feerate ∧ less a.txid b.txid = true := by
  rw [higherFeerate_iff, Entry.feerate_lt_iff hb ha, Entry.feerate_eq_iff ha hb,
    eq_comm (a := a.fee.toNat * b.sizeBytes.toNat)]

theorem higherFeerate_total (hne : a.txid ≠ b.txid) :
    higherFeerate a b = true ∨ higherFeerate b a = true := by
  rw [higherFeerate_iff_feerate ha hb, higherFeerate_iff_feerate hb ha]
  obtain hlt | heq | hgt := lt_trichotomy a.feerate b.feerate
  · exact Or.inr (Or.inl hlt)
  · have hids := (less_or_less_iff_ne a.txid b.txid).mpr hne
    rw [Bool.or_eq_true] at hids
    exact hids.imp (fun h => Or.inr ⟨heq, h⟩) fun h => Or.inr ⟨heq.symm, h⟩
  · exact Or.inl (Or.inl hgt)

theorem higherFeerate_asymm (h : higherFeerate a b = true) : higherFeerate b a = false := by
  rw [Bool.eq_false_iff, ne_eq, higherFeerate_iff_feerate hb ha]
  rw [higherFeerate_iff_feerate ha hb] at h
  intro hother
  obtain hlt | ⟨heq, hid⟩ := h
  · exact hother.elim (lt_asymm hlt) fun hother => hlt.ne hother.1
  · refine hother.elim (fun hgt => hgt.ne heq) fun hother => ?_
    simp [less_asymm hid] at hother

include hc

theorem higherFeerate_trans (hab : higherFeerate a b = true) (hbc : higherFeerate b c = true) :
    higherFeerate a c = true := by
  rw [higherFeerate_iff_feerate ha hb] at hab
  rw [higherFeerate_iff_feerate hb hc] at hbc
  rw [higherFeerate_iff_feerate ha hc]
  obtain hab | ⟨hab, hid⟩ := hab
  · exact Or.inl (hbc.elim (fun h => h.trans hab) fun h => h.1 ▸ hab)
  · obtain hbc | ⟨hbc, hid'⟩ := hbc
    · exact Or.inl (hab ▸ hbc)
    · exact Or.inr ⟨hab.trans hbc, KeyOrder.trans _ _ _ hid hid'⟩

end Order

theorem higherFeerate_irrefl (a : Entry) : higherFeerate a a = false := by
  rw [Bool.eq_false_iff, ne_eq, higherFeerate_iff]
  simp [less_irrefl]

namespace Mempool

theorem RepInv.size_pos {pool : Mempool} (h : pool.RepInv) {e : Entry}
    (he : e ∈ pool.byTxid.values) : 0 < e.sizeBytes.toNat := by
  rw [h.size_eq e.txid e ((mem_values_iff h).mp he), Transaction.toBytes_length]
  omega

theorem RepInv.eq_of_txid {pool : Mempool} (h : pool.RepInv) {a b : Entry}
    (ha : a ∈ pool.byTxid.values) (hb : b ∈ pool.byTxid.values)
    (heq : a.txid = b.txid) : a = b := by
  have hfind := (mem_values_iff h).mp ha
  rw [heq, (mem_values_iff h).mp hb] at hfind
  exact (Option.some.inj hfind).symm

theorem RepInv.not_higher {pool : Mempool} (h : pool.RepInv) {a b : Entry}
    (ha : a ∈ pool.byTxid.values) (hb : b ∈ pool.byTxid.values) (hnot : higherFeerate b a = false) :
    a = b ∨ higherFeerate a b = true := by
  by_cases heq : a.txid = b.txid
  · exact Or.inl (h.eq_of_txid ha hb heq)
  · have htotal := higherFeerate_total (h.size_pos ha) (h.size_pos hb) heq
    rw [hnot] at htotal
    exact Or.inr (htotal.resolve_right Bool.false_ne_true)

theorem RepInv.entriesByFeerate_sorted {pool : Mempool} (h : pool.RepInv) :
    pool.entriesByFeerate.Pairwise fun a b => higherFeerate b a = false := by
  apply pairwise_insertionSort_of_mem
  · intro a ha b hb
    by_cases hab : higherFeerate a b = true
    · exact Or.inl (higherFeerate_asymm (h.size_pos ha) (h.size_pos hb) hab)
    · exact Or.inr (Bool.eq_false_of_not_eq_true hab)
  · intro a ha b hb c hc hab hbc
    obtain rfl | hab := h.not_higher ha hb hab
    · exact hbc
    · obtain rfl | hbc := h.not_higher hb hc hbc
      · exact higherFeerate_asymm (h.size_pos ha) (h.size_pos hb) hab
      · exact higherFeerate_asymm (h.size_pos ha) (h.size_pos hc)
          (higherFeerate_trans (h.size_pos ha) (h.size_pos hb) (h.size_pos hc) hab hbc)

theorem RepInv.entriesByFeerate_unique {pool : Mempool} (h : pool.RepInv) {sorted : List Entry}
    (hperm : sorted.Perm pool.byTxid.values)
    (hsorted : sorted.Pairwise fun a b => higherFeerate b a = false) :
    sorted = pool.entriesByFeerate := by
  have hsame : pool.entriesByFeerate.Perm pool.byTxid.values := List.perm_insertionSort _ _
  refine List.Perm.eq_of_pairwise ?_ hsorted h.entriesByFeerate_sorted (hperm.trans hsame.symm)
  intro a b ha hb hab hba
  obtain heq | habove := h.not_higher (hperm.mem_iff.mp ha) (hsame.mem_iff.mp hb) hab
  · exact heq
  · simp [habove] at hba

theorem RepInv.lowest_spec {pool : Mempool} (h : pool.RepInv) :
    (findLowestFeerate pool.byTxid = none ∧ pool.byTxid.values = []) ∨
    ∃ worst ∈ pool.byTxid.values, findLowestFeerate pool.byTxid = some worst ∧
      ∀ e ∈ pool.byTxid.values, worst = e ∨ higherFeerate e worst = true := by
  have hscan : findLowestFeerate pool.byTxid =
      pool.byTxid.values.foldl (pickLowest lowerFeerateForEviction) none := by
    rw [findLowestFeerate]
    congr 1
    funext candidate entry
    cases candidate with
    | none => rfl
    | some c => rfl
  rw [hscan]
  cases hvalues : pool.byTxid.values with
  | nil => exact Or.inl ⟨rfl, rfl⟩
  | cons first rest =>
    have hmem : ∀ e ∈ first :: rest, e ∈ pool.byTxid.values := fun e he => hvalues ▸ he
    refine Or.inr (foldl_pickLowest (P := fun e => e ∈ pool.byTxid.values) (fun a => Or.inl rfl)
      ?_ ?_ ?_ (fun e he => hmem e (List.mem_cons_of_mem _ he)) (hmem first List.mem_cons_self))
    · intro a b c ha hb hc hab hbc
      obtain rfl | hab := hab
      · exact hbc
      · obtain rfl | hbc := hbc
        · exact Or.inr hab
        · exact Or.inr (higherFeerate_trans (h.size_pos hc) (h.size_pos hb) (h.size_pos ha) hbc hab)
    · intro a b ha hb hlower
      refine (h.not_higher hb ha ?_).imp_left Eq.symm
      by_contra hhigh
      simp [lowerFeerateForEviction, hhigh] at hlower
    · intro a b ha hb hlower
      cases hab : higherFeerate a b with
      | true => exact Or.inr rfl
      | false =>
        refine (h.not_higher hb ha hab).imp_right fun hba => ?_
        simp [lowerFeerateForEviction, hab, hba] at hlower

theorem RepInv.lowest_none {pool : Mempool} (h : pool.RepInv)
    (hnone : findLowestFeerate pool.byTxid = none) : pool.byTxid.values = [] := by
  obtain ⟨_, hvalues⟩ | ⟨worst, _, hsome, _⟩ := h.lowest_spec
  · exact hvalues
  · simp [hnone] at hsome

theorem RepInv.lowest_le {pool : Mempool} (h : pool.RepInv) {worst : Entry}
    (hlow : findLowestFeerate pool.byTxid = some worst) {e : Entry} (he : e ∈ pool.byTxid.values) :
    worst = e ∨ higherFeerate e worst = true := by
  obtain ⟨hnone, _⟩ | ⟨worst', _, hsome, hall⟩ := h.lowest_spec
  · simp [hnone] at hlow
  · obtain rfl : worst' = worst := Option.some.inj (hsome.symm.trans hlow)
    exact hall e he

end Mempool

theorem u128Gte_iff (x y : UInt64 × UInt64) :
    u128Gte x y = true ↔
      y.1.toNat * 2 ^ 64 + y.2.toNat ≤ x.1.toNat * 2 ^ 64 + x.2.toNat := by
  have hx := x.2.toNat_lt
  have hy := y.2.toNat_lt
  rw [u128Gte]
  by_cases hhigh : x.1 = y.1
  · simp [hhigh, UInt64.le_iff_toNat_le]
  · have hne : x.1.toNat ≠ y.1.toNat := fun he => hhigh (UInt64.toNat_inj.mp he)
    simp only [hhigh, ne_eq, not_false_eq_true, if_true, gt_iff_lt, decide_eq_true_eq,
      UInt64.lt_iff_toNat_lt]
    omega

theorem checkMinRelayFeerate_ok (fee sizeBytes : UInt64) (policy : MempoolPolicy) :
    checkMinRelayFeerate fee sizeBytes policy = .ok () ↔
      policy.minRelayFeerate.toNat * sizeBytes.toNat ≤ fee.toNat := by
  rw [checkMinRelayFeerate]
  by_cases hzero : policy.minRelayFeerate = 0 ∨ sizeBytes = 0
  · rw [if_pos hzero]
    obtain hzero | hzero := hzero
    · simp [hzero]
    · simp [hzero]
  · rw [if_neg hzero]
    have hgte := u128Gte_iff (0, fee) (mulU64 policy.minRelayFeerate sizeBytes)
    rw [mulU64_toNat] at hgte
    cases h : u128Gte (0, fee) (mulU64 policy.minRelayFeerate sizeBytes) with
    | false =>
      rw [h] at hgte
      simpa [makeError] using hgte
    | true =>
      rw [h] at hgte
      simpa using hgte

/-- Fee-rate arithmetic is exact: the product in two words is the product and no sum in it
loses a carry; entries are compared by their fractions and then by the bytes of their ids,
which is a strict total order with one sorted list for every pool; and the relay minimum is
compared in the naturals. -/
theorem feerate_arithmetic_exact :
    (∀ x y : UInt64, NoCarryLost x y ∧
      (mulU64 x y).1.toNat * 2 ^ 64 + (mulU64 x y).2.toNat = x.toNat * y.toNat) ∧
    (∀ a b : Entry, 0 < a.sizeBytes.toNat → 0 < b.sizeBytes.toNat →
      (higherFeerate a b = true ↔
        b.feerate < a.feerate ∨ a.feerate = b.feerate ∧ a.txid.bytes < b.txid.bytes)) ∧
    (∀ a : Entry, higherFeerate a a = false) ∧
    (∀ a b c : Entry, 0 < a.sizeBytes.toNat → 0 < b.sizeBytes.toNat → 0 < c.sizeBytes.toNat →
      higherFeerate a b = true → higherFeerate b c = true → higherFeerate a c = true) ∧
    (∀ a b : Entry, 0 < a.sizeBytes.toNat → 0 < b.sizeBytes.toNat → a.txid ≠ b.txid →
      higherFeerate a b = true ∨ higherFeerate b a = true) ∧
    (∀ (limits : MempoolLimits) (ops : List PoolOp) (sorted : List Entry),
      let pool := ops.foldl PoolOp.apply (Mempool.new limits)
      sorted = pool.entriesByFeerate ↔ sorted.Perm pool.byTxid.values ∧
        sorted.Pairwise fun a b => higherFeerate b a = false) ∧
    (∀ (fee sizeBytes : UInt64) (policy : MempoolPolicy),
      checkMinRelayFeerate fee sizeBytes policy = .ok () ↔
        policy.minRelayFeerate.toNat * sizeBytes.toNat ≤ fee.toNat) := by
  refine ⟨fun x y => ⟨mulU64_noCarryLost x y, mulU64_toNat x y⟩, ?_, higherFeerate_irrefl,
    fun a b c => higherFeerate_trans, fun a b => higherFeerate_total, ?_, checkMinRelayFeerate_ok⟩
  · intro a b ha hb
    rw [higherFeerate_iff_feerate ha hb, ← lexicographicalCompare_iff]
    rfl
  · intro limits ops sorted pool
    have hinv : pool.RepInv := Mempool.run_repInv limits ops
    constructor
    · intro h
      subst h
      exact ⟨List.perm_insertionSort _ _, hinv.entriesByFeerate_sorted⟩
    · intro h
      exact hinv.entriesByFeerate_unique h.1 h.2

/-- Two rates whose cross products, of 128 bits, differ by one. -/
theorem feerates_one_apart :
    higherFeerate ⟨⟨1, [], [], 0⟩, zeroHash, 0xfffffffffffffffe, 0xfffffffffffffffd⟩
      ⟨⟨1, [], [], 0⟩, zeroHash, 0xffffffffffffffff, 0xfffffffffffffffe⟩ = true ∧
    checkMinRelayFeerate 0xffffffffffffffff 0xffffffff ⟨0x100000001⟩ = .ok () := by
  obtain ⟨_, horder, _, _, _, _, hrelay⟩ := feerate_arithmetic_exact
  refine ⟨(horder _ _ (by decide) (by decide)).mpr (Or.inl ?_), (hrelay _ _ _).mpr (by decide)⟩
  rw [Entry.feerate_lt_iff (by decide) (by decide)]
  decide

end Blockchain
