import Blockchain.TransactionValidation
import Mathlib.Data.List.Sort

/-! The transaction pool: admission policy, fee-rate order, eviction under the count and
byte limits, and re-admission of a stored snapshot. `RepInv` ties the three redundant
structures of the pool together; every operation keeps it. -/
namespace Blockchain
open Lib

def kDefaultMempoolMaxTransactions : UInt32 := 10000
def kDefaultMempoolMaxBytes : UInt64 := 104857600

structure MempoolLimits where
  maxTransactions : UInt32 := 0
  maxTotalBytes : UInt64 := 0
deriving DecidableEq

structure MempoolPolicy where
  minRelayFeerate : UInt64 := 0
deriving DecidableEq

structure MempoolAdmission where
  fee : UInt64
  sizeBytes : UInt64
deriving DecidableEq

/-- The 128-bit product of two words as its high and low halves. -/
def mulU64 (x y : UInt64) : UInt64 × UInt64 :=
  let kMask : UInt64 := 0xffffffff
  let x0 := x &&& kMask
  let x1 := x >>> 32
  let y0 := y &&& kMask
  let y1 := y >>> 32
  let p00 := x0 * y0
  let p01 := x0 * y1
  let p10 := x1 * y0
  let p11 := x1 * y1
  let mid := (p00 >>> 32) + (p01 &&& kMask) + (p10 &&& kMask)
  (p11 + (p01 >>> 32) + (p10 >>> 32) + (mid >>> 32), (p00 &&& kMask) ||| (mid <<< 32))

def u128Gte (lhs rhs : UInt64 × UInt64) : Bool :=
  if lhs.1 ≠ rhs.1 then decide (lhs.1 > rhs.1) else decide (lhs.2 ≥ rhs.2)

def checkMinRelayFeerate (fee sizeBytes : UInt64) (policy : MempoolPolicy) : Result Unit :=
  if policy.minRelayFeerate = 0 ∨ sizeBytes = 0 then .ok ()
  else if u128Gte (0, fee) (mulU64 policy.minRelayFeerate sizeBytes) = false then
    makeError .policyRejected "transaction fee rate below minimum relay feerate"
  else .ok ()

def validateForMempool (tx : Transaction) (utxos : UtxoSet) (policy : MempoolPolicy) :
    Result MempoolAdmission := do
  checkTransactionSanity tx
  if tx.isCoinbase = true then
    makeError .invalidTransaction "coinbase cannot enter the mempool"
  else do
    let fee ← checkTransactionInputs tx utxos
    checkMinRelayFeerate fee (UInt64.ofNat tx.toBytes.length) policy
    .ok ⟨fee, UInt64.ofNat tx.toBytes.length⟩

structure Entry where
  transaction : Transaction
  txid : Hash256
  fee : UInt64
  sizeBytes : UInt64
deriving DecidableEq

def higherFeerate (a b : Entry) : Bool :=
  let lhs := mulU64 a.fee b.sizeBytes
  let rhs := mulU64 b.fee a.sizeBytes
  if lhs.1 ≠ rhs.1 then decide (lhs.1 > rhs.1)
  else if lhs.2 ≠ rhs.2 then decide (lhs.2 > rhs.2)
  else less a.txid b.txid

def strictlyHigherFeerate (a b : Entry) : Bool :=
  let lhs := mulU64 a.fee b.sizeBytes
  let rhs := mulU64 b.fee a.sizeBytes
  if lhs.1 ≠ rhs.1 then decide (lhs.1 > rhs.1) else decide (lhs.2 > rhs.2)

def lowerFeerateForEviction (a b : Entry) : Bool :=
  if higherFeerate a b then false
  else if higherFeerate b a then true
  else !less a.txid b.txid

structure Mempool where
  limits : MempoolLimits
  byTxid : OrderedMap Hash256 Entry
  spentBy : OrderedMap OutPoint Hash256
  totalBytes : UInt64
deriving DecidableEq

def findLowestFeerate (byTxid : OrderedMap Hash256 Entry) : Option Entry :=
  byTxid.values.foldl (fun worst entry =>
    match worst with
    | none => some entry
    | some w => if lowerFeerateForEviction entry w then some entry else some w) none

namespace Mempool

def new (limits : MempoolLimits) : Mempool := ⟨limits, OrderedMap.empty, OrderedMap.empty, 0⟩

def size (pool : Mempool) : Nat := pool.byTxid.size

def contains (pool : Mempool) (txid : Hash256) : Bool := (pool.byTxid.find? txid).isSome

def remove (pool : Mempool) (txid : Hash256) : Mempool :=
  match pool.byTxid.find? txid with
  | none => pool
  | some entry =>
    { pool with
      byTxid := pool.byTxid.erase txid
      spentBy := pool.spentBy.eraseAll entry.transaction.prevouts
      totalBytes := pool.totalBytes - entry.sizeBytes }

/-- The loop condition of the eviction; the byte difference is a wrapping one. -/
def OverLimit (pool : Mempool) (incoming : Entry) : Prop :=
  pool.size + 1 > pool.limits.maxTransactions.toNat ∨
  pool.totalBytes > pool.limits.maxTotalBytes - incoming.sizeBytes

instance (pool : Mempool) (incoming : Entry) : Decidable (pool.OverLimit incoming) :=
  inferInstanceAs (Decidable (_ ∨ _))

/-- The eviction loop. Each turn removes an entry, so `size + 1` turns are enough. -/
def makeRoom (incoming : Entry) : Nat → Mempool → Result Unit × Mempool
  | 0, pool => (makeError .resourceLimitExceeded "mempool capacity limit reached", pool)
  | fuel + 1, pool =>
    if pool.OverLimit incoming then
      match findLowestFeerate pool.byTxid with
      | none => (makeError .resourceLimitExceeded "mempool capacity limit reached", pool)
      | some worst =>
        if strictlyHigherFeerate incoming worst then
          makeRoom incoming fuel (pool.remove worst.txid)
        else (makeError .resourceLimitExceeded "mempool capacity limit reached", pool)
    else (.ok (), pool)

def addEntry (pool : Mempool) (incoming : Entry) : Mempool :=
  { pool with
    spentBy := pool.spentBy.emplaceAll incoming.transaction.prevouts incoming.txid
    byTxid := pool.byTxid.emplace incoming.txid incoming
    totalBytes := pool.totalBytes + incoming.sizeBytes }

def entryOf (tx : Transaction) (admission : MempoolAdmission) : Entry :=
  ⟨tx, tx.txid, admission.fee, admission.sizeBytes⟩

/-- The result and the pool left behind; evictions stay even when admission then fails. -/
def accept (pool : Mempool) (tx : Transaction) (utxos : UtxoSet) (policy : MempoolPolicy) :
    Result Unit × Mempool :=
  match validateForMempool tx utxos policy with
  | .error e => (.error e, pool)
  | .ok admission =>
    if (pool.byTxid.find? tx.txid).isSome then
      (makeError .invalidTransaction "transaction already in mempool", pool)
    else if tx.prevouts.any (fun o => (pool.spentBy.find? o).isSome) then
      (makeError .invalidTransaction "input conflicts with an in-mempool transaction", pool)
    else
      match makeRoom (entryOf tx admission) (pool.size + 1) pool with
      | (.error e, room) => (.error e, room)
      | (.ok (), room) =>
        if admission.sizeBytes > room.limits.maxTotalBytes then
          (makeError .resourceLimitExceeded "transaction exceeds mempool byte limit", room)
        else (.ok (), room.addEntry (entryOf tx admission))

def entriesByFeerate (pool : Mempool) : List Entry :=
  pool.byTxid.values.insertionSort (fun a b => higherFeerate b a = false)

def sortedTransactions (pool : Mempool) : List Transaction :=
  (pool.byTxid.values.map Entry.transaction).insertionSort
    (fun a b => less b.txid a.txid = false)

end Mempool

def restoreMempool (utxos : UtxoSet) (policy : MempoolPolicy) :
    List Transaction → Mempool → Result Unit × Mempool
  | [], pool => (.ok (), pool)
  | tx :: rest, pool =>
    match pool.accept tx utxos policy with
    | (.error e, pool) =>
      (makeError .storageCorruption
        ("stored mempool transaction failed re-validation: " ++ e.message), pool)
    | (.ok (), pool) => restoreMempool utxos policy rest pool

/-! Admission. -/

theorem validateForMempool_ok {tx : Transaction} {utxos : UtxoSet} {policy : MempoolPolicy}
    {admission : MempoolAdmission} (h : validateForMempool tx utxos policy = .ok admission) :
    tx.Sane ∧ tx.isCoinbase = false ∧ checkTransactionInputs tx utxos = .ok admission.fee ∧
      admission.sizeBytes.toNat = tx.toBytes.length := by
  unfold validateForMempool at h
  obtain ⟨hsane, h⟩ := seq_eq_ok.mp h
  obtain ⟨hcb, h⟩ := guard_eq_ok.mp h
  obtain ⟨fee, hfee, h⟩ := bind_eq_ok.mp h
  obtain ⟨_, h⟩ := seq_eq_ok.mp h
  have hs := (checkTransactionSanity_ok tx).mp hsane
  have hadm := Except.ok.inj h
  subst hadm
  have hlt : tx.toBytes.length < UInt64.size := by
    have hle := hs.size_le
    have hmax : kMaxTransactionSizeBytes.toNat < UInt64.size := by decide
    omega
  exact ⟨hs, by simpa using hcb, hfee, UInt64.toNat_ofNat_of_lt' hlt⟩

theorem validateForMempool_congr {tx : Transaction} {utxos utxos' : UtxoSet}
    (policy : MempoolPolicy)
    (h : ∀ o ∈ tx.prevouts, utxos'.find o = utxos.find o) :
    validateForMempool tx utxos' policy = validateForMempool tx utxos policy := by
  rw [validateForMempool, validateForMempool, checkTransactionInputs_congr tx h]

namespace Mempool

/-- The pool's redundant structures agree and stay within the limits. -/
structure RepInv (pool : Mempool) : Prop where
  key_eq : ∀ id e, pool.byTxid.find? id = some e → id = e.txid ∧ e.txid = e.transaction.txid
  spent_iff : ∀ o id, pool.spentBy.find? o = some id ↔
    ∃ e, pool.byTxid.find? id = some e ∧ o ∈ e.transaction.prevouts
  size_eq : ∀ id e, pool.byTxid.find? id = some e →
    e.sizeBytes.toNat = e.transaction.toBytes.length
  total_eq : pool.totalBytes.toNat =
    (pool.byTxid.values.map fun e => e.transaction.toBytes.length).sum
  count_le : pool.size ≤ pool.limits.maxTransactions.toNat
  bytes_le : pool.totalBytes ≤ pool.limits.maxTotalBytes

theorem new_inv (limits : MempoolLimits) : (new limits).RepInv where
  key_eq := by simp [new]
  spent_iff := by simp [new]
  size_eq := by simp [new]
  total_eq := by simp [new, OrderedMap.values]
  count_le := Nat.zero_le _
  bytes_le := by simp [new, UInt64.le_iff_toNat_le]

theorem RepInv.ext {p q : Mempool} (hp : p.RepInv) (hq : q.RepInv) (hl : p.limits = q.limits)
    (hb : p.byTxid = q.byTxid) : p = q := by
  have hs : p.spentBy = q.spentBy := by
    apply OrderedMap.ext_find?
    intro o
    apply Option.ext
    intro id
    rw [hp.spent_iff, hq.spent_iff, hb]
  have ht : p.totalBytes = q.totalBytes := by
    apply UInt64.toNat_inj.mp
    rw [hp.total_eq, hq.total_eq, hb]
  cases p
  cases q
  simp_all

theorem RepInv.no_conflict {pool : Mempool} (h : pool.RepInv) {a b : Entry} {i j : Hash256}
    {o : OutPoint} (ha : pool.byTxid.find? i = some a) (hb : pool.byTxid.find? j = some b)
    (hoa : o ∈ a.transaction.prevouts) (hob : o ∈ b.transaction.prevouts) : i = j := by
  have hi := (h.spent_iff o i).mpr ⟨a, ha, hoa⟩
  have hj := (h.spent_iff o j).mpr ⟨b, hb, hob⟩
  exact Option.some.inj (hi.symm.trans hj)

/-! Removal. -/

theorem remove_of_none {pool : Mempool} {txid : Hash256} (h : pool.byTxid.find? txid = none) :
    pool.remove txid = pool := by
  simp [remove, h]

@[simp] theorem remove_limits (pool : Mempool) (txid : Hash256) :
    (pool.remove txid).limits = pool.limits := by
  unfold remove
  split <;> rfl

@[simp] theorem remove_byTxid (pool : Mempool) (txid : Hash256) :
    (pool.remove txid).byTxid = pool.byTxid.erase txid := by
  cases h : pool.byTxid.find? txid with
  | none => rw [remove_of_none h, pool.byTxid.erase_of_find?_none h]
  | some e => simp [remove, h]

theorem remove_spentBy_none {pool : Mempool} {o : OutPoint} (txid : Hash256)
    (h : pool.spentBy.find? o = none) : (pool.remove txid).spentBy.find? o = none := by
  cases hf : pool.byTxid.find? txid with
  | none => rwa [remove_of_none hf]
  | some e => simp [remove, hf, OrderedMap.find?_eraseAll, h]

theorem find?_remove {pool : Mempool} {txid id : Hash256} {e : Entry} :
    (pool.remove txid).byTxid.find? id = some e ↔ pool.byTxid.find? id = some e ∧ id ≠ txid := by
  rw [remove_byTxid]
  by_cases hid : id = txid
  · simp [hid]
  · simp [hid, pool.byTxid.find?_erase_of_ne hid]

theorem RepInv.remove {pool : Mempool} (h : pool.RepInv) (txid : Hash256) :
    (pool.remove txid).RepInv := by
  cases hf : pool.byTxid.find? txid with
  | none => rwa [remove_of_none hf]
  | some e =>
    have hperm := (pool.byTxid.erase_perm hf)
    have hsum := ((hperm.map Prod.snd).map fun e => e.transaction.toBytes.length).sum_eq
    simp only [List.map_cons, List.sum_cons] at hsum
    have htotal := h.total_eq
    simp only [OrderedMap.values] at htotal
    have hsize := h.size_eq txid e hf
    have hle : e.sizeBytes ≤ pool.totalBytes := by
      rw [UInt64.le_iff_toNat_le]
      omega
    have hsub := UInt64.toNat_sub_of_le pool.totalBytes e.sizeBytes hle
    have hnewTotal : (pool.remove txid).totalBytes = pool.totalBytes - e.sizeBytes := by
      simp [Mempool.remove, hf]
    have hlen := hperm.length_eq
    refine ⟨?_, ?_, ?_, ?_, ?_, ?_⟩
    · intro id e' he'
      exact h.key_eq id e' (find?_remove.mp he').1
    · intro o id
      have hspent : (pool.remove txid).spentBy.find? o =
          if o ∈ e.transaction.prevouts then none else pool.spentBy.find? o := by
        simp [Mempool.remove, hf, OrderedMap.find?_eraseAll]
      rw [hspent]
      constructor
      · intro ho
        by_cases hm : o ∈ e.transaction.prevouts
        · simp [hm] at ho
        · simp only [hm, if_false] at ho
          obtain ⟨e', he', ho'⟩ := (h.spent_iff o id).mp ho
          refine ⟨e', find?_remove.mpr ⟨he', ?_⟩, ho'⟩
          intro hid
          rw [hid, hf] at he'
          exact hm (Option.some.inj he' ▸ ho')
      · intro hx
        obtain ⟨e', he', ho'⟩ := hx
        obtain ⟨hfind, hne⟩ := find?_remove.mp he'
        by_cases hm : o ∈ e.transaction.prevouts
        · exact absurd (h.no_conflict hfind hf ho' hm) hne
        · simp only [hm, if_false]
          exact (h.spent_iff o id).mpr ⟨e', hfind, ho'⟩
    · intro id e' he'
      exact h.size_eq id e' (find?_remove.mp he').1
    · rw [hnewTotal, remove_byTxid]
      simp only [OrderedMap.values]
      omega
    · have hcount := h.count_le
      simp only [size, OrderedMap.size, remove_byTxid, remove_limits, List.length_cons]
        at hcount hlen ⊢
      omega
    · have hbytes := UInt64.le_iff_toNat_le.mp h.bytes_le
      rw [hnewTotal, remove_limits, UInt64.le_iff_toNat_le]
      omega

def removeAll (pool : Mempool) (txids : List Hash256) : Mempool := txids.foldl remove pool

@[simp] theorem removeAll_limits (pool : Mempool) (txids : List Hash256) :
    (pool.removeAll txids).limits = pool.limits := by
  induction txids generalizing pool with
  | nil => rfl
  | cons id txids ih => exact (ih (pool.remove id)).trans (pool.remove_limits id)

theorem find?_removeAll {pool : Mempool} {txids : List Hash256} {id : Hash256} {e : Entry} :
    (pool.removeAll txids).byTxid.find? id = some e ↔
      pool.byTxid.find? id = some e ∧ id ∉ txids := by
  induction txids generalizing pool with
  | nil => simp [removeAll]
  | cons a txids ih =>
    change ((pool.remove a).removeAll txids).byTxid.find? id = some e ↔ _
    rw [ih, find?_remove, List.mem_cons, not_or, and_assoc]

theorem find?_removeAll_eq (pool : Mempool) (txids : List Hash256) (id : Hash256) :
    (pool.removeAll txids).byTxid.find? id = if id ∈ txids then none else pool.byTxid.find? id := by
  by_cases hid : id ∈ txids
  · rw [if_pos hid]
    exact Option.eq_none_iff_forall_ne_some.mpr fun e he => (find?_removeAll.mp he).2 hid
  · rw [if_neg hid]
    exact Option.ext fun e => by simp [find?_removeAll, hid]

theorem removeAll_cons_absent {pool : Mempool} {id : Hash256} (txids : List Hash256)
    (h : pool.byTxid.find? id = none) : pool.removeAll (id :: txids) = pool.removeAll txids := by
  change (pool.remove id).removeAll txids = _
  rw [remove_of_none h]

theorem removeAll_spentBy_none {pool : Mempool} {o : OutPoint} (txids : List Hash256)
    (h : pool.spentBy.find? o = none) : (pool.removeAll txids).spentBy.find? o = none := by
  induction txids generalizing pool with
  | nil => exact h
  | cons a txids ih => exact ih (remove_spentBy_none a h)

theorem removeAll_absent {pool : Mempool} {id : Hash256} (txids : List Hash256)
    (h : pool.byTxid.find? id = none) : (pool.removeAll txids).byTxid.find? id = none := by
  cases hf : (pool.removeAll txids).byTxid.find? id with
  | none => rfl
  | some e =>
    have he := (find?_removeAll.mp hf).1
    simp [h] at he

theorem RepInv.removeAll {pool : Mempool} (h : pool.RepInv) (txids : List Hash256) :
    (pool.removeAll txids).RepInv := by
  induction txids generalizing pool with
  | nil => exact h
  | cons a txids ih => exact ih (h.remove a)

/-! Eviction. -/

theorem findLowestFeerate_mem {byTxid : OrderedMap Hash256 Entry} {worst : Entry}
    (h : findLowestFeerate byTxid = some worst) : worst ∈ byTxid.values := by
  have hgen : ∀ (es : List Entry) (acc : Option Entry),
      es.foldl (fun worst entry =>
        match worst with
        | none => some entry
        | some w =>
          if lowerFeerateForEviction entry w then some entry else some w) acc = some worst →
      acc = some worst ∨ worst ∈ es := by
    intro es
    induction es with
    | nil => exact fun acc h => .inl h
    | cons e es ih =>
      intro acc h
      obtain hacc | hmem := ih _ h
      · cases acc with
        | none => exact .inr (by simp_all)
        | some w =>
          by_cases hlow : lowerFeerateForEviction e w = true
          · simp only [hlow, if_true, Option.some.injEq] at hacc
            exact .inr (by simp [hacc])
          · simp only [hlow] at hacc
            exact .inl (by simpa using hacc)
      · exact .inr (List.mem_cons_of_mem _ hmem)
  obtain hnone | hmem := hgen _ none h
  · simp at hnone
  · exact hmem

theorem makeRoom_spec (incoming : Entry) (fuel : Nat) (pool : Mempool) :
    ∃ evicted, (makeRoom incoming fuel pool).2 = pool.removeAll evicted ∧
      ((makeRoom incoming fuel pool).1 = .ok () →
        ¬ (pool.removeAll evicted).OverLimit incoming) := by
  induction fuel generalizing pool with
  | zero => exact ⟨[], rfl, by simp [makeRoom]⟩
  | succ fuel ih =>
    unfold makeRoom
    by_cases hover : pool.OverLimit incoming
    · simp only [hover, if_true]
      cases findLowestFeerate pool.byTxid with
      | none => exact ⟨[], rfl, by simp⟩
      | some worst =>
        by_cases hbeat : strictlyHigherFeerate incoming worst = true
        · simp only [hbeat, if_true]
          obtain ⟨evicted, hpool, hok⟩ := ih (pool.remove worst.txid)
          exact ⟨worst.txid :: evicted, hpool, hok⟩
        · simp only [hbeat]
          exact ⟨[], rfl, by simp⟩
    · simp only [hover, if_false]
      exact ⟨[], rfl, fun _ => hover⟩

theorem makeRoom_evicts {pool : Mempool} (h : pool.RepInv) {incoming : Entry} {fuel : Nat}
    {id : Hash256} {e : Entry} (he : pool.byTxid.find? id = some e)
    (hgone : (makeRoom incoming fuel pool).2.byTxid.find? id = none) :
    strictlyHigherFeerate incoming e = true := by
  induction fuel generalizing pool with
  | zero => simp [makeRoom, he] at hgone
  | succ fuel ih =>
    rw [makeRoom] at hgone
    by_cases hover : pool.OverLimit incoming
    · simp only [hover, if_true] at hgone
      cases hlow : findLowestFeerate pool.byTxid with
      | none => simp [hlow, he] at hgone
      | some worst =>
        by_cases hbeat : strictlyHigherFeerate incoming worst = true
        · simp only [hlow, hbeat, if_true] at hgone
          obtain ⟨⟨key, worst'⟩, hin, hworst⟩ := List.mem_map.mp (findLowestFeerate_mem hlow)
          have hfind := (pool.byTxid.find?_eq_some_iff _ _).mpr hin
          simp only at hworst
          have hkey := (h.key_eq _ _ hfind).1
          rw [hworst] at hfind hkey
          by_cases hid : id = worst.txid
          · rw [hid, ← hkey, hfind] at he
            rw [← Option.some.inj he]
            exact hbeat
          · exact ih (h.remove worst.txid) (find?_remove.mpr ⟨he, hid⟩) hgone
        · simp [hlow, hbeat, he] at hgone
    · simp [hover, he] at hgone

/-- `size + 1` turns are enough: more fuel changes nothing. -/
theorem makeRoom_fuel {pool : Mempool} (h : pool.RepInv) (incoming : Entry) (extra : Nat) :
    makeRoom incoming (pool.size + 1 + extra) pool = makeRoom incoming (pool.size + 1) pool := by
  have hgen : ∀ (n : Nat) (pool : Mempool), pool.RepInv → pool.size ≤ n →
      makeRoom incoming (n + 1 + extra) pool = makeRoom incoming (n + 1) pool := by
    intro n
    induction n with
    | zero =>
      intro pool _ hsize
      have hnil : pool.byTxid.entries = [] := List.length_eq_zero_iff.mp (Nat.le_zero.mp hsize)
      have hnone : findLowestFeerate pool.byTxid = none := by
        simp [findLowestFeerate, OrderedMap.values, hnil]
      rw [Nat.add_right_comm, makeRoom, makeRoom, hnone]
    | succ n ih =>
      intro pool hinv hsize
      rw [Nat.add_right_comm, makeRoom, makeRoom]
      by_cases hover : pool.OverLimit incoming
      · simp only [hover, if_true]
        cases hlow : findLowestFeerate pool.byTxid with
        | none => rfl
        | some worst =>
          have hmem := findLowestFeerate_mem hlow
          obtain ⟨⟨id, e⟩, hin, rfl⟩ := List.mem_map.mp hmem
          have hfind := (pool.byTxid.find?_eq_some_iff id e).mpr hin
          have hid := (hinv.key_eq id e hfind).1
          have hless : (pool.remove e.txid).size ≤ n := by
            have hlen := (pool.byTxid.erase_perm (hid ▸ hfind)).length_eq
            simp only [size, OrderedMap.size, remove_byTxid, List.length_cons] at hlen hsize ⊢
            omega
          have hrec := ih _ (hinv.remove e.txid) hless
          simp only [hrec]
      · simp only [hover, if_false]
  exact hgen pool.size pool h (le_refl _)

/-! Admission into the pool. -/

/-- The incoming entry fits: a new id, unreserved inputs, and room for it. -/
structure Fits (pool : Mempool) (incoming : Entry) : Prop where
  id_eq : incoming.txid = incoming.transaction.txid
  size_eq : incoming.sizeBytes.toNat = incoming.transaction.toBytes.length
  absent : pool.byTxid.find? incoming.txid = none
  free : ∀ o ∈ incoming.transaction.prevouts, pool.spentBy.find? o = none
  room : ¬ pool.OverLimit incoming
  small : incoming.sizeBytes ≤ pool.limits.maxTotalBytes

theorem Fits.total_le {pool : Mempool} {incoming : Entry} (h : pool.Fits incoming) :
    pool.totalBytes.toNat + incoming.sizeBytes.toNat ≤ pool.limits.maxTotalBytes.toNat := by
  have hroom := h.room
  simp only [OverLimit, not_or, gt_iff_lt, UInt64.not_lt, UInt64.le_iff_toNat_le] at hroom
  have hsmall := UInt64.le_iff_toNat_le.mp h.small
  rw [UInt64.toNat_sub_of_le _ _ h.small] at hroom
  omega

theorem find?_addEntry {pool : Mempool} {incoming e : Entry} {id : Hash256}
    (h : pool.Fits incoming) :
    (pool.addEntry incoming).byTxid.find? id = some e ↔
      pool.byTxid.find? id = some e ∨ (id = incoming.txid ∧ e = incoming) := by
  simp only [addEntry, OrderedMap.find?_emplace]
  by_cases hid : id = incoming.txid
  · simp [hid, h.absent, eq_comm]
  · simp [hid]

theorem RepInv.addEntry {pool : Mempool} (h : pool.RepInv) {incoming : Entry}
    (hf : pool.Fits incoming) : (pool.addEntry incoming).RepInv := by
  have hle := hf.total_le
  have hmax := pool.limits.maxTotalBytes.toNat_lt
  -- there is room for the entry, so the byte counter does not wrap
  have hadd : (pool.totalBytes + incoming.sizeBytes).toNat =
      pool.totalBytes.toNat + incoming.sizeBytes.toNat := by
    rw [UInt64.toNat_add, Nat.mod_eq_of_lt (by omega)]
  have hins : (pool.addEntry incoming).byTxid = pool.byTxid.insert incoming.txid incoming :=
    OrderedMap.emplace_of_none incoming hf.absent
  have hperm := pool.byTxid.insert_perm incoming hf.absent
  refine ⟨?_, ?_, ?_, ?_, ?_, ?_⟩
  · intro id e he
    obtain he | ⟨rfl, rfl⟩ := (find?_addEntry hf).mp he
    · exact h.key_eq id e he
    · exact ⟨rfl, hf.id_eq⟩
  · intro o id
    have hspent : (pool.addEntry incoming).spentBy.find? o = (pool.spentBy.find? o).or
        (if o ∈ incoming.transaction.prevouts then some incoming.txid else none) :=
      OrderedMap.find?_emplaceAll _ _ _ _
    rw [hspent]
    by_cases hm : o ∈ incoming.transaction.prevouts
    · simp only [hf.free o hm, hm, if_true, Option.none_or, Option.some.injEq]
      constructor
      · intro hid
        exact ⟨incoming, (find?_addEntry hf).mpr (.inr ⟨hid.symm, rfl⟩), hm⟩
      · intro hx
        obtain ⟨e, he, ho⟩ := hx
        obtain he | ⟨rfl, _⟩ := (find?_addEntry hf).mp he
        · have hres := (h.spent_iff o id).mpr ⟨e, he, ho⟩
          simp [hf.free o hm] at hres
        · rfl
    · simp only [hm, if_false, Option.or_none, h.spent_iff]
      constructor
      · intro hx
        obtain ⟨e, he, ho⟩ := hx
        exact ⟨e, (find?_addEntry hf).mpr (.inl he), ho⟩
      · intro hx
        obtain ⟨e, he, ho⟩ := hx
        obtain he | ⟨_, rfl⟩ := (find?_addEntry hf).mp he
        · exact ⟨e, he, ho⟩
        · exact absurd ho hm
  · intro id e he
    obtain he | ⟨_, rfl⟩ := (find?_addEntry hf).mp he
    · exact h.size_eq id e he
    · exact hf.size_eq
  · have hsum := ((hperm.map Prod.snd).map fun e => e.transaction.toBytes.length).sum_eq
    have htotal := h.total_eq
    have hsize := hf.size_eq
    simp only [OrderedMap.values, List.map_cons, List.sum_cons] at hsum htotal ⊢
    rw [hins, hsum]
    change (pool.totalBytes + incoming.sizeBytes).toNat = _
    omega
  · have hroom := hf.room
    simp only [OverLimit, not_or, gt_iff_lt, Nat.not_lt] at hroom
    have hlen := hperm.length_eq
    have hcount := hroom.1
    simp only [size, OrderedMap.size, List.length_cons] at hcount hlen ⊢
    rw [hins, hlen]
    exact hcount
  · change pool.totalBytes + incoming.sizeBytes ≤ pool.limits.maxTotalBytes
    rw [UInt64.le_iff_toNat_le, hadd]
    exact hle

/-- Everything `accept` can do: evict some entries and then fail or admit the transaction. -/
theorem accept_cases (pool : Mempool) (tx : Transaction) (utxos : UtxoSet)
    (policy : MempoolPolicy) :
    ∃ evicted,
      ((∃ e, (pool.accept tx utxos policy).1 = .error e) ∧
        (pool.accept tx utxos policy).2 = pool.removeAll evicted) ∨
      ∃ admission, validateForMempool tx utxos policy = .ok admission ∧
        (pool.removeAll evicted).Fits (entryOf tx admission) ∧
        pool.accept tx utxos policy =
          (.ok (), (pool.removeAll evicted).addEntry (entryOf tx admission)) := by
  unfold accept
  cases hval : validateForMempool tx utxos policy with
  | error e => exact ⟨[], .inl ⟨⟨e, rfl⟩, rfl⟩⟩
  | ok admission =>
    by_cases hdup : (pool.byTxid.find? tx.txid).isSome = true
    · simp only [hdup, if_true]
      exact ⟨[], .inl ⟨⟨_, rfl⟩, rfl⟩⟩
    · by_cases hconf : tx.prevouts.any (fun o => (pool.spentBy.find? o).isSome) = true
      · simp only [hdup, hconf, if_true]
        exact ⟨[], .inl ⟨⟨_, rfl⟩, rfl⟩⟩
      · obtain ⟨evicted, hroom, hok⟩ := makeRoom_spec (entryOf tx admission) (pool.size + 1) pool
        cases hmk : makeRoom (entryOf tx admission) (pool.size + 1) pool with
        | mk result room =>
          rw [hmk] at hroom hok
          simp only at hroom hok
          cases result with
          | error e =>
            simp only [hdup, hconf, hmk, Bool.false_eq_true, if_false]
            exact ⟨evicted, .inl ⟨⟨e, rfl⟩, hroom⟩⟩
          | ok u =>
            simp only [hdup, hconf, hmk, Bool.false_eq_true, if_false]
            by_cases hbig : admission.sizeBytes > room.limits.maxTotalBytes
            · simp only [hbig, if_true]
              exact ⟨evicted, .inl ⟨⟨_, rfl⟩, hroom⟩⟩
            · simp only [hbig, if_false]
              subst hroom
              obtain ⟨_, _, _, hsize⟩ := validateForMempool_ok hval
              have habsent : pool.byTxid.find? tx.txid = none := by simpa using hdup
              refine ⟨evicted, .inr ⟨admission, rfl, ?_, rfl⟩⟩
              refine ⟨rfl, hsize, removeAll_absent evicted habsent, ?_, hok rfl,
                UInt64.not_lt.mp hbig⟩
              intro o ho
              apply removeAll_spentBy_none
              have hall := List.any_eq_false.mp (Bool.eq_false_of_not_eq_true hconf) o ho
              simpa using hall

theorem accept_ok {pool after : Mempool} {tx : Transaction} {utxos : UtxoSet}
    {policy : MempoolPolicy} (h : pool.accept tx utxos policy = (.ok (), after)) :
    ∃ admission, validateForMempool tx utxos policy = .ok admission ∧
      pool.byTxid.find? tx.txid = none ∧
      after = (makeRoom (entryOf tx admission) (pool.size + 1) pool).2.addEntry
        (entryOf tx admission) := by
  unfold accept at h
  cases hval : validateForMempool tx utxos policy with
  | error e => simp [hval] at h
  | ok admission =>
    by_cases hdup : (pool.byTxid.find? tx.txid).isSome = true
    · simp [hval, hdup, makeError] at h
    · by_cases hconf : tx.prevouts.any (fun o => (pool.spentBy.find? o).isSome) = true
      · simp only [hval, hdup, hconf, makeError, if_true] at h
        simp at h
      · refine ⟨admission, rfl, by simpa using hdup, ?_⟩
        cases hmk : makeRoom (entryOf tx admission) (pool.size + 1) pool with
        | mk result room =>
          simp only [hval, hdup, hconf, hmk, Bool.false_eq_true, if_false] at h
          cases result with
          | error e => simp at h
          | ok u =>
            simp only at h
            by_cases hbig : admission.sizeBytes > room.limits.maxTotalBytes
            · simp [hbig, makeError] at h
            · simp only [hbig, if_false, Prod.mk.injEq, true_and] at h
              exact h.symm

theorem accept_entry {pool after : Mempool} {tx : Transaction} {utxos : UtxoSet}
    {policy : MempoolPolicy} (h : pool.accept tx utxos policy = (.ok (), after)) :
    ∃ admission, validateForMempool tx utxos policy = .ok admission ∧
      after.byTxid.find? tx.txid = some (entryOf tx admission) := by
  obtain ⟨evicted, ⟨⟨e, herror⟩, _⟩ | ⟨admission, hval, hfits, hpool⟩⟩ :=
    pool.accept_cases tx utxos policy
  · simp [h] at herror
  · have hafter : after = (pool.removeAll evicted).addEntry (entryOf tx admission) := by
      rw [h] at hpool
      exact (Prod.mk.inj hpool).2
    rw [hafter]
    exact ⟨admission, hval, (find?_addEntry hfits).mpr (.inr ⟨rfl, rfl⟩)⟩

theorem RepInv.accept {pool : Mempool} (h : pool.RepInv) (tx : Transaction) (utxos : UtxoSet)
    (policy : MempoolPolicy) : (pool.accept tx utxos policy).2.RepInv := by
  obtain ⟨evicted, ⟨_, hpool⟩ | ⟨admission, _, hfits, hpool⟩⟩ := pool.accept_cases tx utxos policy
  · rw [hpool]
    exact h.removeAll evicted
  · rw [hpool]
    exact (h.removeAll evicted).addEntry hfits

theorem accept_limits (pool : Mempool) (tx : Transaction) (utxos : UtxoSet)
    (policy : MempoolPolicy) : (pool.accept tx utxos policy).2.limits = pool.limits := by
  obtain ⟨evicted, ⟨_, hpool⟩ | ⟨admission, _, _, hpool⟩⟩ := pool.accept_cases tx utxos policy
  · rw [hpool, removeAll_limits]
  · rw [hpool]
    exact removeAll_limits pool evicted

theorem accept_of_fits {pool : Mempool} {tx : Transaction} {utxos : UtxoSet}
    {policy : MempoolPolicy} {admission : MempoolAdmission}
    (hval : validateForMempool tx utxos policy = .ok admission)
    (hf : pool.Fits (entryOf tx admission)) :
    pool.accept tx utxos policy = (.ok (), pool.addEntry (entryOf tx admission)) := by
  have habsent : pool.byTxid.find? tx.txid = none := hf.absent
  have hfree : tx.prevouts.any (fun o => (pool.spentBy.find? o).isSome) = false := by
    rw [List.any_eq_false]
    intro o ho
    simp [hf.free o ho]
  have hroom : makeRoom (entryOf tx admission) (pool.size + 1) pool = (.ok (), pool) := by
    rw [makeRoom]
    simp only [hf.room, if_false]
  have hsmall : ¬ (admission.sizeBytes > pool.limits.maxTotalBytes) := UInt64.not_lt.mpr hf.small
  unfold accept
  rw [hval]
  simp only [habsent, hfree, hroom, hsmall, Option.isSome_none, Bool.false_eq_true, if_false]

end Mempool
end Blockchain
