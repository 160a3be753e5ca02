import Blockchain.History
import Blockchain.PoolConsistency
import Blockchain.RelaySessions

/-! The consensus rules with no state behind them: whether a block may follow a list of
blocks is read off the list. The code keeps a tip header and a UTXO set instead, and the
block lists it can be brought to accept are exactly those the rules allow. A node therefore
takes a block from a peer exactly when the rules allow it after the blocks it has. -/
namespace Blockchain
open Lib

/-- Some transaction of the past created the coin at `o` and none after it spent it. -/
def Unspent (past : List (Nat × Transaction)) (o : OutPoint) (c : Coin) : Prop :=
  ∃ pre height tx post, past = pre ++ (height, tx) :: post ∧ tx.txid = o.txid ∧
    tx.outputs[o.index.toNat]? = some c.output ∧ c.height.toNat = height ∧
    c.coinbase = tx.isCoinbase ∧
    ∀ later ∈ post, later.2.isCoinbase = false → o ∉ later.2.prevouts

def coinValue (coins : List Coin) : Nat := (coins.map fun c => c.output.value.toNat).sum

namespace Transaction

/-- Where an output of the transaction would stand the past has no coin, except for one
that the transaction itself spends. -/
def Fresh (past : List (Nat × Transaction)) (tx : Transaction) : Prop :=
  ∀ o c, Unspent past o c → o.txid = tx.txid → o.index.toNat < tx.outputs.length →
    tx.isCoinbase = false ∧ o ∈ tx.prevouts

/-- An ordinary transaction the past allows at a height: the coins it spends, and its fee. -/
structure Allowed (params : ConsensusParams) (past : List (Nat × Transaction)) (height : Nat)
    (tx : Transaction) (coins : List Coin) (fee : Nat) : Prop where
  unspent : List.Forall₂ (Unspent past) tx.prevouts coins
  mature : ∀ c ∈ coins, c.coinbase = true →
    c.height.toNat + params.coinbaseMaturity.toNat ≤ height
  balance : coinValue coins = outputValue tx.outputs + fee
  bounded : coinValue coins < 2 ^ 64
  fresh : tx.Fresh past

end Transaction

/-- Transactions allowed one after the other, and the sum of their fees. -/
inductive AllowedInTurn (params : ConsensusParams) (height : Nat) :
    List (Nat × Transaction) → List Transaction → Nat → Prop where
  | nil {past : List (Nat × Transaction)} : AllowedInTurn params height past [] 0
  | cons {past : List (Nat × Transaction)} {tx : Transaction} {rest : List Transaction}
      {coins : List Coin} {fee fees : Nat} (head : tx.Allowed params past height coins fee)
      (tail : AllowedInTurn params height (past ++ [(height, tx)]) rest fees) :
      AllowedInTurn params height past (tx :: rest) (fee + fees)

/-- The block's transactions are in order after the past and pay `fees` in total. -/
structure Block.Connects (params : ConsensusParams) (past : List (Nat × Transaction))
    (block : Block) (fees : UInt64) : Prop where
  sane : block.Sane
  body : AllowedInTurn params block.header.height.toNat past block.body fees.toNat
  coinbase : ∀ tx, block.coinbase? = some tx →
    params.blockSubsidy.toNat + fees.toNat < 2 ^ 64 ∧
    outputValue tx.outputs ≤ params.blockSubsidy.toNat + fees.toNat ∧
    tx.Fresh (past ++ block.body.map fun t => (block.header.height.toNat, t))

/-- The first header starts a chain, every other one links to the header before it. -/
structure BlockHeader.Follows (header : BlockHeader) (before : List Block) : Prop where
  first : before = [] →
    header.version = kBlockVersion ∧ header.height = 0 ∧ header.prevBlock = zeroHash
  later : ∀ last, before.getLast? = some last → header.LinksTo last.header

structure Block.Valid (params : ConsensusParams) (before : List Block) (block : Block)
    (fees : UInt64) : Prop where
  follows : block.header.Follows before
  connects : block.Connects params (history before) fees

/-- Every block of the list is valid against the blocks before it. -/
def ValidLedger (params : ConsensusParams) (blocks : List Block) : Prop :=
  blocks ≠ [] ∧ ∀ before block after, blocks = before ++ block :: after →
    ∃ fees, block.Valid params before fees

/-! A store of coins records a past when it holds exactly its unspent coins. -/

def Records (past : List (Nat × Transaction)) (coins : OutPoint → Option Coin) : Prop :=
  ∀ o c, coins o = some c ↔ Unspent past o c

theorem unspent_concat {past : List (Nat × Transaction)} {height : UInt32} {tx : Transaction}
    {o : OutPoint} {c : Coin} :
    Unspent (past ++ [(height.toNat, tx)]) o c ↔
      createdCoins height tx o = some c ∨
        (Unspent past o c ∧ o ∉ (txEvent height tx).spends) := by
  have hspends : o ∉ (txEvent height tx).spends ↔ (tx.isCoinbase = false → o ∉ tx.prevouts) := by
    cases hc : tx.isCoinbase <;> simp [txEvent, hc]
  rw [createdCoins_eq_some, hspends]
  constructor
  · intro h
    obtain ⟨pre, n, t, post, hsplit, hid, hout, hheight, hcb, hpost⟩ := h
    obtain ⟨rest, hpast, rfl⟩ | ⟨rest, _, hlast⟩ := append_eq_append_cons hsplit
    · refine .inr ⟨⟨pre, n, t, rest, hpast, hid, hout, hheight, hcb, ?_⟩, ?_⟩
      · exact fun later hl => hpost later (List.mem_append_left _ hl)
      · exact hpost (height.toNat, tx) (by simp)
    · obtain ⟨rfl, heq⟩ | ⟨_, _, hnil⟩ := List.cons_eq_append_iff.mp hlast
      · obtain ⟨hpair, rfl⟩ := List.cons.inj heq
        obtain ⟨rfl, rfl⟩ := Prod.mk.inj hpair
        exact .inl ⟨hid, hout, UInt32.toNat_inj.mp hheight, hcb⟩
      · simp at hnil
  · intro h
    obtain ⟨hid, hout, rfl, hcb⟩ | ⟨⟨pre, n, t, post, rfl, hid, hout, hheight, hcb, hpost⟩,
      hkept⟩ := h
    · exact ⟨past, c.height.toNat, tx, [], rfl, hid, hout, rfl, hcb, by simp⟩
    · refine ⟨pre, n, t, post ++ [(height.toNat, tx)], by simp, hid, hout, hheight, hcb, ?_⟩
      intro later hl
      obtain hl | hl := List.mem_append.mp hl
      · exact hpost later hl
      · rw [List.mem_singleton.mp hl]
        exact hkept

theorem createdCoins_isSome {height : UInt32} {tx : Transaction} {o : OutPoint} :
    (createdCoins height tx o).isSome ↔ o.txid = tx.txid ∧ o.index.toNat < tx.outputs.length := by
  unfold createdCoins
  by_cases ht : o.txid = tx.txid
  · simp [ht]
  · simp [ht]

namespace Records
variable {past : List (Nat × Transaction)} {coins : OutPoint → Option Coin}

theorem nil : Records [] fun _ => none := by
  intro o c
  simp [Unspent]

theorem apply (h : Records past coins) {height : UInt32} {tx : Transaction}
    (hfits : SpendLog.Fits coins (txEvent height tx)) :
    Records (past ++ [(height.toNat, tx)]) (SpendLog.apply coins (txEvent height tx)) := by
  intro o c
  rw [unspent_concat, SpendLog.apply, ← h o c]
  change ((createdCoins height tx o).or _) = some c ↔ _
  cases hc : createdCoins height tx o with
  | some d =>
    have hfresh : o ∉ (txEvent height tx).spends → coins o = none :=
      (hfits.fresh o (by simp [txEvent, hc])).resolve_left
    constructor
    · intro hd
      exact .inl (by simpa using hd)
    · intro hd
      obtain hd | ⟨hsome, hkept⟩ := hd
      · simpa using hd
      · simp [hfresh hkept] at hsome
  | none =>
    by_cases hs : o ∈ (txEvent height tx).spends
    · simp [hs]
    · simp [hs]

theorem store (h : Records past coins) {more : List (Nat × Transaction)}
    (hheights : ∀ x ∈ more, x.1 < 2 ^ 32)
    (hadm : SpendLog.Admissible coins (more.map historyEvent)) :
    Records (past ++ more) (SpendLog.store coins (more.map historyEvent)) := by
  induction more generalizing past coins with
  | nil => simpa [SpendLog.store] using h
  | cons x more ih =>
    obtain ⟨n, tx⟩ := x
    have hn : (UInt32.ofNat n).toNat = n :=
      UInt32.toNat_ofNat_of_lt' (hheights (n, tx) List.mem_cons_self)
    have hone := h.apply hadm.1
    rw [hn] at hone
    have hall := ih hone (fun y hy => hheights y (List.mem_cons_of_mem _ hy)) hadm.2
    rwa [List.append_assoc, List.singleton_append] at hall

theorem fresh_iff (h : Records past coins) (height : UInt32) (tx : Transaction) :
    tx.Fresh past ↔ ∀ o, (createdCoins height tx o).isSome →
      o ∈ (txEvent height tx).spends ∨ coins o = none := by
  have hspends : ∀ o, o ∈ (txEvent height tx).spends ↔
      (tx.isCoinbase = false ∧ o ∈ tx.prevouts) := by
    intro o
    cases hc : tx.isCoinbase <;> simp [txEvent, hc]
  constructor
  · intro hf o ho
    obtain ⟨hid, hidx⟩ := createdCoins_isSome.mp ho
    cases hc : coins o with
    | none => exact .inr rfl
    | some c => exact .inl ((hspends o).mpr (hf o c ((h o c).mp hc) hid hidx))
  · intro hf o c hu hid hidx
    obtain hs | hn := hf o (createdCoins_isSome.mpr ⟨hid, hidx⟩)
    · exact (hspends o).mp hs
    · rw [(h o c).mpr hu] at hn
      exact absurd hn (by simp)

theorem unspent_iff (h : Records past coins) (os : List OutPoint) (cs : List Coin) :
    List.Forall₂ (Unspent past) os cs ↔ List.Forall₂ (fun o c => coins o = some c) os cs := by
  have heq : Unspent past = fun o c => coins o = some c := by
    funext o c
    exact propext (h o c).symm
  rw [heq]

end Records

/-! The code's checks against a UTXO set that records the past. -/

theorem coinValue_cons (c : Coin) (cs : List Coin) :
    coinValue (c :: cs) = c.output.value.toNat + coinValue cs := by
  simp [coinValue]

theorem sumInputs_eq_ok {utxos : UtxoSet} {acc total : UInt64} {inputs : List TxInput} :
    sumInputs utxos acc inputs = .ok total ↔
      ∃ coins, List.Forall₂ (fun o c => utxos.find o = some c) (inputs.map TxInput.prevout) coins ∧
        acc.toNat + coinValue coins < 2 ^ 64 ∧ total.toNat = acc.toNat + coinValue coins := by
  induction inputs generalizing acc with
  | nil =>
    have hlt := acc.toNat_lt
    simp [sumInputs, coinValue, ← UInt64.toNat_inj, eq_comm, hlt]
  | cons i is ih =>
    rw [sumInputs, List.map_cons]
    constructor
    · intro h
      cases hf : utxos.find i.prevout with
      | none => simp [hf] at h
      | some c =>
        cases hadd : checkedAdd acc c.output.value with
        | none => simp [hf, hadd] at h
        | some next =>
          simp only [hf, hadd] at h
          obtain ⟨coins, hall, hlt, htotal⟩ := ih.mp h
          rw [checkedAdd_toNat hadd, Nat.add_assoc, ← coinValue_cons] at hlt htotal
          exact ⟨c :: coins, .cons hf hall, hlt, htotal⟩
    · intro h
      obtain ⟨coins, hall, hlt, htotal⟩ := h
      cases hall with
      | @cons _ c _ coins hf hall =>
        rw [coinValue_cons] at hlt htotal
        have hadd : checkedAdd acc c.output.value = some (acc + c.output.value) :=
          checkedAdd_eq_some.mpr ⟨by omega, rfl⟩
        have hnat := checkedAdd_toNat hadd
        simp only [hf, hadd]
        exact ih.mpr ⟨coins, hall, by omega, by omega⟩

theorem checkTransactionInputs_eq_ok {tx : Transaction} (hs : tx.Sane) {utxos : UtxoSet}
    {fee : UInt64} :
    checkTransactionInputs tx utxos = .ok fee ↔
      ∃ coins, List.Forall₂ (fun o c => utxos.find o = some c) tx.prevouts coins ∧
        coinValue coins < 2 ^ 64 ∧ coinValue coins = outputValue tx.outputs + fee.toNat := by
  have hout := hs.totalOut_eq
  simp only [checkTransactionInputs, bind_eq_ok, sumInputs_eq_ok, guard_eq_ok, UInt64.not_lt,
    Except.ok.injEq, UInt64.toNat_zero, Nat.zero_add]
  constructor
  · intro h
    obtain ⟨total, ⟨coins, hall, hlt, htotal⟩, hle, rfl⟩ := h
    have hsub := UInt64.toNat_sub_of_le total (totalOut tx.outputs) hle
    have hle' := UInt64.le_iff_toNat_le.mp hle
    exact ⟨coins, hall, hlt, by omega⟩
  · intro h
    obtain ⟨coins, hall, hlt, hbalance⟩ := h
    have htotal : (UInt64.ofNat (coinValue coins)).toNat = coinValue coins :=
      UInt64.toNat_ofNat_of_lt' hlt
    have hle : totalOut tx.outputs ≤ UInt64.ofNat (coinValue coins) := by
      rw [UInt64.le_iff_toNat_le, htotal, hout]
      omega
    have hsub := UInt64.toNat_sub_of_le _ _ hle
    refine ⟨UInt64.ofNat (coinValue coins), ⟨coins, hall, hlt, htotal⟩, hle, ?_⟩
    exact UInt64.toNat_inj.mp (by omega)

theorem forall_found_iff {utxos : UtxoSet} {os : List OutPoint} {cs : List Coin}
    (h : List.Forall₂ (fun o c => utxos.find o = some c) os cs) (p : Coin → Prop) :
    (∀ o ∈ os, ∀ c, utxos.find o = some c → p c) ↔ ∀ c ∈ cs, p c := by
  induction h with
  | nil => simp
  | @cons o c os cs hf hall ih =>
    rw [List.forall_mem_cons, List.forall_mem_cons, ih]
    simp [hf]

theorem isSome_of_found {utxos : UtxoSet} {os : List OutPoint} {cs : List Coin}
    (h : List.Forall₂ (fun o c => utxos.find o = some c) os cs) :
    ∀ o ∈ os, (utxos.find o).isSome := by
  induction h with
  | nil => simp
  | cons hf _ ih => exact List.forall_mem_cons.mpr ⟨by simp [hf], ih⟩

theorem addFee_eq_ok {total fee sum : UInt64} :
    addFee total fee = .ok sum ↔ sum.toNat = total.toNat + fee.toNat := by
  constructor
  · exact addFee_ok
  · intro h
    have hlt := sum.toNat_lt
    have hadd : checkedAdd total fee = some (total + fee) :=
      checkedAdd_eq_some.mpr ⟨by omega, rfl⟩
    have hnat := checkedAdd_toNat hadd
    simp only [addFee, hadd, Except.ok.injEq]
    exact UInt64.toNat_inj.mp (by omega)

theorem addOutputs_succeeds {tx : Transaction} (hl : tx.WithinLimits) {height : UInt32}
    {working : UtxoSet} (hfree : ∀ o, (createdCoins height tx o).isSome → working.find o = none)
    (coinbase : Bool) :
    ∃ next, addOutputs tx height coinbase working = .ok next := by
  have hmax : kMaxOutputsPerTransaction.toNat ≤ 2 ^ 32 := by decide
  have hlen : 0 + tx.outputs.length ≤ 2 ^ 32 := by
    have hle := hl.2
    omega
  refine addOutputsFrom_succeeds hlen ?_
  intro j _ hj
  apply hfree
  have hidx : (UInt32.ofNat j).toNat = j := UInt32.toNat_ofNat_of_lt' (by rw [UInt32.size]; omega)
  exact createdCoins_isSome.mpr ⟨rfl, by rw [hidx]; omega⟩

section Refinement
variable {params : ConsensusParams} {past : List (Nat × Transaction)} {height : UInt32}

/-- The code's turn for one transaction succeeds exactly when the past allows it. -/
theorem connectTransaction_iff {tx : Transaction} (hs : tx.Sane) (hcb : tx.isCoinbase = false)
    {working : UtxoSet} (hrec : Records past working.find) {fees fees' : UInt64} :
    (∃ next, connectTransaction params height tx working fees = .ok (next, fees')) ↔
      ∃ coins fee, tx.Allowed params past height.toNat coins fee ∧
        fees'.toNat = fees.toNat + fee := by
  have hspends : (txEvent height tx).spends = tx.prevouts := by simp [txEvent, hcb]
  have hfresh := hrec.fresh_iff height tx
  rw [hspends] at hfresh
  constructor
  · intro h
    obtain ⟨next, h⟩ := h
    have hfits := (connectTransaction_ok hs hcb h).1
    unfold connectTransaction at h
    obtain ⟨fee, hfee, h⟩ := bind_eq_ok.mp h
    obtain ⟨_, hmature, h⟩ := bind_eq_ok.mp h
    obtain ⟨_, _, h⟩ := bind_eq_ok.mp h
    obtain ⟨_, _, h⟩ := bind_eq_ok.mp h
    obtain ⟨total, hadd, h⟩ := bind_eq_ok.mp h
    obtain ⟨_, rfl⟩ := Prod.mk.inj (Except.ok.inj h)
    obtain ⟨coins, hall, hlt, hbalance⟩ := (checkTransactionInputs_eq_ok hs).mp hfee
    have hm := (forall_found_iff hall _).mp (checkCoinbaseMaturity_eq_ok.mp hmature)
    have hf : tx.Fresh past := hfresh.mpr fun o ho => hspends ▸ hfits.fresh o ho
    exact ⟨coins, fee.toNat, ⟨(hrec.unspent_iff _ _).mpr hall, hm, hbalance, hlt, hf⟩,
      addFee_eq_ok.mp hadd⟩
  · intro h
    obtain ⟨coins, fee, hallow, hsum⟩ := h
    have hall := (hrec.unspent_iff _ _).mp hallow.unspent
    have hbalance := hallow.balance
    have hbounded := hallow.bounded
    have hfeeNat : (UInt64.ofNat fee).toNat = fee :=
      UInt64.toNat_ofNat_of_lt' (by rw [UInt64.size]; omega)
    have hfee : checkTransactionInputs tx working = .ok (UInt64.ofNat fee) :=
      (checkTransactionInputs_eq_ok hs).mpr ⟨coins, hall, hallow.bounded, by omega⟩
    have hmature : checkCoinbaseMaturity tx working height params.coinbaseMaturity = .ok () :=
      checkCoinbaseMaturity_eq_ok.mpr ((forall_found_iff hall _).mpr hallow.mature)
    obtain ⟨spent, hspend⟩ := spendInputs_succeeds hs.prevouts_nodup (isSome_of_found hall)
    have hfree : ∀ o, (createdCoins height tx o).isSome → spent.find o = none := by
      intro o ho
      rw [(spendInputs_ok hspend).2.1 o]
      obtain hin | hnone := hfresh.mp hallow.fresh o ho
      · exact if_pos hin
      · rw [hnone, ite_self]
    obtain ⟨next, hnext⟩ := addOutputs_succeeds hs.limits hfree false
    have hadd : addFee fees (UInt64.ofNat fee) = .ok fees' := addFee_eq_ok.mpr (by omega)
    refine ⟨next, ?_⟩
    rw [connectTransaction, hfee, ok_bind, hmature, ok_bind, hspend, ok_bind, hnext, ok_bind, hadd,
      ok_bind]

theorem connectTransactions_iff {txs : List Transaction} (hs : ∀ tx ∈ txs, tx.Sane)
    (hcb : ∀ tx ∈ txs, tx.isCoinbase = false) {working : UtxoSet}
    (hrec : Records past working.find) {fees fees' : UInt64} :
    (∃ next, connectTransactions params height txs working fees = .ok (next, fees')) ↔
      ∃ paid, AllowedInTurn params height.toNat past txs paid ∧
        fees'.toNat = fees.toNat + paid := by
  induction txs generalizing past working fees with
  | nil =>
    constructor
    · intro h
      obtain ⟨next, h⟩ := h
      obtain ⟨_, rfl⟩ := Prod.mk.inj (Except.ok.inj h)
      exact ⟨0, .nil, rfl⟩
    · intro h
      obtain ⟨paid, hturn, hsum⟩ := h
      cases hturn with
      | nil =>
        obtain rfl : fees' = fees := UInt64.toNat_inj.mp hsum
        exact ⟨working, rfl⟩
  | cons tx txs ih =>
    obtain ⟨hs₁, hs⟩ := List.forall_mem_cons.mp hs
    obtain ⟨hcb₁, hcb⟩ := List.forall_mem_cons.mp hcb
    have hone := @connectTransaction_iff params past height tx hs₁ hcb₁ working hrec fees
    constructor
    · intro h
      obtain ⟨next, h⟩ := h
      rw [connectTransactions] at h
      obtain ⟨⟨mid, fees₁⟩, hmid, h⟩ := bind_eq_ok.mp h
      obtain ⟨hfits, hfind, _⟩ := connectTransaction_ok hs₁ hcb₁ hmid
      have hrec₁ := hrec.apply hfits
      rw [← hfind] at hrec₁
      obtain ⟨coins, fee, hallow, hsum₁⟩ := hone.mp ⟨mid, hmid⟩
      obtain ⟨paid, hturn, hsum⟩ := (ih hs hcb hrec₁).mp ⟨next, h⟩
      exact ⟨fee + paid, .cons hallow hturn, by omega⟩
    · intro h
      obtain ⟨_, hturn, hsum⟩ := h
      cases hturn with
      | @cons _ _ _ coins fee paid hallow hturn =>
        have hlt := fees'.toNat_lt
        have hnat : (UInt64.ofNat (fees.toNat + fee)).toNat = fees.toNat + fee :=
          UInt64.toNat_ofNat_of_lt' (by rw [UInt64.size]; omega)
        obtain ⟨mid, hmid⟩ := hone.mpr ⟨coins, fee, hallow, hnat⟩
        obtain ⟨hfits, hfind, _⟩ := connectTransaction_ok hs₁ hcb₁ hmid
        have hrec₁ := hrec.apply hfits
        rw [← hfind] at hrec₁
        have hrest : ∃ next, connectTransactions params height txs mid
            (UInt64.ofNat (fees.toNat + fee)) = .ok (next, fees') :=
          (ih hs hcb hrec₁).mpr ⟨paid, hturn, by omega⟩
        obtain ⟨next, hnext⟩ := hrest
        exact ⟨next, by rw [connectTransactions, hmid, ok_bind]; exact hnext⟩

theorem Records.connectTransactions {txs : List Transaction} (hs : ∀ tx ∈ txs, tx.Sane)
    (hcb : ∀ tx ∈ txs, tx.isCoinbase = false) {working next : UtxoSet}
    (hrec : Records past working.find) {fees fees' : UInt64}
    (h : connectTransactions params height txs working fees = .ok (next, fees')) :
    Records (past ++ txs.map fun tx => (height.toNat, tx)) next.find := by
  obtain ⟨hadm, hfind, _⟩ := connectTransactions_ok hs hcb h
  have hevents : (txs.map fun tx => (height.toNat, tx)).map historyEvent =
      txs.map (txEvent height) := by
    simp [Function.comp_def, historyEvent]
  rw [← hevents] at hadm hfind
  rw [hfind]
  refine hrec.store ?_ hadm
  intro x hx
  obtain ⟨tx, _, rfl⟩ := List.mem_map.mp hx
  exact height.toNat_lt

theorem connectCoinbase_iff {tx : Transaction} (hs : tx.Sane) (hcb : tx.isCoinbase = true)
    {working : UtxoSet} (hrec : Records past working.find) {fees : UInt64} :
    (∃ next, connectCoinbase params height tx fees working = .ok next) ↔
      params.blockSubsidy.toNat + fees.toNat < 2 ^ 64 ∧
      outputValue tx.outputs ≤ params.blockSubsidy.toNat + fees.toNat ∧ tx.Fresh past := by
  have hspends : (txEvent height tx).spends = [] := by simp [txEvent, hcb]
  have hfresh := hrec.fresh_iff height tx
  simp only [hspends, List.not_mem_nil, false_or] at hfresh
  constructor
  · intro h
    obtain ⟨next, h⟩ := h
    obtain ⟨hfits, _, _, hle⟩ := connectCoinbase_ok hs hcb h
    have hf : tx.Fresh past := by
      refine hfresh.mpr fun o ho => ?_
      have hor := hfits.fresh o ho
      rw [hspends] at hor
      simpa using hor
    cases hadd : checkedAdd params.blockSubsidy fees with
    | none => simp [connectCoinbase, hadd] at h
    | some allowed => exact ⟨(checkedAdd_eq_some.mp hadd).1, hle, hf⟩
  · intro h
    obtain ⟨hlt, hle, hf⟩ := h
    have hadd : checkedAdd params.blockSubsidy fees = some (params.blockSubsidy + fees) :=
      checkedAdd_eq_some.mpr ⟨hlt, rfl⟩
    have hpay : ¬ totalOut tx.outputs > params.blockSubsidy + fees := by
      rw [gt_iff_lt, UInt64.not_lt, UInt64.le_iff_toNat_le, hs.totalOut_eq, checkedAdd_toNat hadd]
      exact hle
    obtain ⟨next, hnext⟩ := addOutputs_succeeds hs.limits (hfresh.mp hf) true
    exact ⟨next, by simp only [connectCoinbase, hadd, if_neg hpay, hnext]⟩

theorem connectBlock_iff {block : Block} {utxos : UtxoSet} (hrec : Records past utxos.find)
    {fees : UInt64} :
    (∃ next, connectBlock block utxos params = .ok (fees, next)) ↔
      block.Connects params past fees := by
  have hbody : block.Sane → ∀ tx ∈ block.body, tx.Sane ∧ tx.isCoinbase = false := by
    intro hs tx htx
    rw [hs.body_eq] at htx
    obtain ⟨hin, hcb⟩ := List.mem_filter.mp htx
    exact ⟨hs.txs_sane tx hin, by simpa using hcb⟩
  constructor
  · intro h
    obtain ⟨next, h⟩ := h
    unfold connectBlock at h
    obtain ⟨_, hsane, h⟩ := bind_eq_ok.mp h
    obtain ⟨⟨working, total⟩, hturns, h⟩ := bind_eq_ok.mp h
    have hs := (checkBlockSanity_ok block).mp hsane
    have hall := fun tx htx => (hbody hs tx htx).1
    have hcbs := fun tx htx => (hbody hs tx htx).2
    obtain ⟨paid, hturn, hsum⟩ := (connectTransactions_iff hall hcbs hrec).mp ⟨working, hturns⟩
    have hrec' := hrec.connectTransactions hall hcbs hturns
    obtain rfl : paid = total.toNat := by simpa using hsum.symm
    -- the coinbase is applied last, when the fees it may collect are known
    cases hc : block.coinbase? with
    | none =>
      simp only [hc, Except.ok.injEq, Prod.mk.injEq] at h
      obtain ⟨rfl, _⟩ := h
      exact ⟨hs, hturn, by simp [hc]⟩
    | some tx =>
      simp only [hc] at h
      obtain ⟨final, hlast, h⟩ := bind_eq_ok.mp h
      obtain ⟨rfl, _⟩ := Prod.mk.inj (Except.ok.inj h)
      obtain ⟨hin, hcb⟩ := Block.coinbase?_mem hc
      refine ⟨hs, hturn, ?_⟩
      intro t ht
      obtain rfl : t = tx := Option.some.inj (ht.symm.trans hc)
      exact (connectCoinbase_iff (hs.txs_sane t hin) hcb hrec').mp ⟨final, hlast⟩
  · intro h
    have hs := h.sane
    have hall := fun tx htx => (hbody hs tx htx).1
    have hcbs := fun tx htx => (hbody hs tx htx).2
    have hturns : ∃ working, connectTransactions params block.header.height block.body utxos 0 =
        .ok (working, fees) :=
      (connectTransactions_iff hall hcbs hrec).mpr ⟨fees.toNat, h.body, by simp⟩
    obtain ⟨working, hturns⟩ := hturns
    have hrec' := hrec.connectTransactions hall hcbs hturns
    rw [connectBlock, (checkBlockSanity_ok block).mpr hs, ok_bind, hturns, ok_bind]
    cases hc : block.coinbase? with
    | none => exact ⟨working, rfl⟩
    | some tx =>
      obtain ⟨hin, hcb⟩ := Block.coinbase?_mem hc
      obtain ⟨final, hlast⟩ :=
        (connectCoinbase_iff (hs.txs_sane tx hin) hcb hrec').mpr (h.coinbase tx hc)
      refine ⟨final, ?_⟩
      dsimp only
      rw [hlast, ok_bind]

end Refinement

namespace Accepted
variable {params : ConsensusParams} {blocks : List Block} {chain : Chain}

theorem records (h : Accepted params blocks chain) : Records (history blocks) chain.utxos.find := by
  obtain ⟨hadm, hfind⟩ := h.store_history
  rw [hfind]
  exact Records.nil.store (fun x hx => h.height_of_mem_history hx) hadm

/-- On an accepted chain a block is taken, with these fees, exactly when it is valid. -/
theorem submitBlock_iff (h : Accepted params blocks chain) (block : Block)
    (pool : Option Mempool) (fees : UInt64) :
    (∃ next pool', chain.submitBlock block pool = .ok (fees, next, pool')) ↔
      block.Valid params blocks fees := by
  have hconn := @connectBlock_iff params (history blocks) block chain.utxos h.records fees
  rw [← h.params_eq] at hconn ⊢
  obtain ⟨last, hlast, htip⟩ := Option.map_eq_some_iff.mp h.tip_eq
  have hne : blocks ≠ [] := by
    intro hnil
    simp [hnil] at hlast
  constructor
  · intro hb
    obtain ⟨next, pool', hb⟩ := hb
    obtain ⟨hlinks, ⟨utxos, hok, _⟩, _⟩ := Chain.submitBlock_ok.mp hb
    refine ⟨⟨fun hnil => absurd hnil hne, ?_⟩, hconn.mp ⟨utxos, hok⟩⟩
    intro last' hlast'
    obtain rfl : last' = last := Option.some.inj (hlast'.symm.trans hlast)
    rw [htip]
    exact hlinks
  · intro hv
    obtain ⟨utxos, hok⟩ := hconn.mpr hv.connects
    have hlinks := hv.follows.later last hlast
    rw [htip] at hlinks
    exact ⟨_, _, Chain.submitBlock_ok.mpr ⟨hlinks, ⟨utxos, hok, rfl⟩, rfl⟩⟩

end Accepted

theorem create_iff {params : ConsensusParams} {genesis : Block} :
    (∃ chain, Chain.create genesis params = .ok chain) ↔ ∃ fees, genesis.Valid params [] fees := by
  have hconn := fun fees => @connectBlock_iff params [] genesis UtxoSet.empty Records.nil fees
  constructor
  · intro h
    obtain ⟨chain, h⟩ := h
    obtain ⟨hv, hh, hp, fees, utxos, hok, _⟩ := Chain.create_ok.mp h
    exact ⟨fees, ⟨fun _ => ⟨hv, hh, hp⟩, by simp⟩, (hconn fees).mp ⟨utxos, hok⟩⟩
  · intro h
    obtain ⟨fees, hfollows, hc⟩ := h
    obtain ⟨utxos, hok⟩ := (hconn fees).mpr hc
    obtain ⟨hv, hh, hp⟩ := hfollows.first rfl
    exact ⟨_, Chain.create_ok.mpr ⟨hv, hh, hp, fees, utxos, hok, rfl⟩⟩

theorem validLedger_concat {params : ConsensusParams} {blocks : List Block} {block : Block} :
    ValidLedger params (blocks ++ [block]) ↔
      (blocks ≠ [] → ValidLedger params blocks) ∧ ∃ fees, block.Valid params blocks fees := by
  constructor
  · intro h
    refine ⟨fun hne => ⟨hne, ?_⟩, h.2 blocks block [] rfl⟩
    intro before b after hsplit
    exact h.2 before b (after ++ [block]) (by simp [hsplit])
  · intro h
    refine ⟨by simp, ?_⟩
    intro before b after hsplit
    obtain ⟨rest, hblocks, _⟩ | ⟨rest, hbefore, hlast⟩ := append_eq_append_cons hsplit
    · exact (h.1 (by simp [hblocks])).2 before b rest hblocks
    · obtain ⟨rfl, heq⟩ | ⟨_, _, hnil⟩ := List.cons_eq_append_iff.mp hlast
      · obtain ⟨rfl, _⟩ := List.cons.inj heq
        rw [List.append_nil] at hbefore
        rw [hbefore]
        exact h.2
      · simp at hnil

theorem Accepted.validLedger {params : ConsensusParams} {blocks : List Block} {chain : Chain}
    (h : Accepted params blocks chain) : ValidLedger params blocks := by
  induction h with
  | @create genesis chain h =>
    exact (@validLedger_concat params [] genesis).mpr ⟨by simp, create_iff.mp ⟨chain, h⟩⟩
  | @submit blocks chain next block fees pool pool' hacc hb ih =>
    have hvalid := (hacc.submitBlock_iff block pool fees).mp ⟨next, pool', hb⟩
    exact validLedger_concat.mpr ⟨fun _ => ih, fees, hvalid⟩

theorem ValidLedger.accepted {params : ConsensusParams} {blocks : List Block}
    (h : ValidLedger params blocks) : ∃ chain, Accepted params blocks chain := by
  induction blocks using List.reverseRecOn with
  | nil => exact absurd rfl h.1
  | append_singleton blocks block ih =>
    obtain ⟨hbefore, fees, hvalid⟩ := validLedger_concat.mp h
    by_cases hnil : blocks = []
    · rw [hnil] at hvalid ⊢
      obtain ⟨chain, hchain⟩ := create_iff.mpr ⟨fees, hvalid⟩
      exact ⟨chain, .create hchain⟩
    · obtain ⟨chain, hacc⟩ := ih (hbefore hnil)
      obtain ⟨next, pool', hb⟩ := (hacc.submitBlock_iff block none fees).mpr hvalid
      exact ⟨next, hacc.submit hb⟩

/-- The block lists the code can be brought to accept, one block after the other, are
exactly the lists the stateless rules allow. -/
theorem accepted_iff_validLedger (params : ConsensusParams) (blocks : List Block) :
    (∃ chain, Accepted params blocks chain) ↔ ValidLedger params blocks := by
  constructor
  · intro h
    obtain ⟨chain, h⟩ := h
    exact h.validLedger
  · exact fun h => h.accepted

namespace PeerState
variable {config : NodeConfig} {params : ConsensusParams} {state : PeerState}

theorem Inv.submitBlock_iff (h : state.Inv config params) (block : Block) (fees : UInt64) :
    (∃ chain pool, state.chain.submitBlock block (some state.mempool) = .ok (fees, chain, pool)) ↔
      block.Valid params state.ledgerBlocks fees := by
  obtain ⟨blocks, hacc, hcat⟩ := h.history
  have hvalues : state.ledgerBlocks = blocks := hcat.values_eq
  rw [hvalues]
  exact hacc.submitBlock_iff block _ fees

theorem handleMessage_delivers {msg : P2pMessage} {block : Block} (h : DeliversBlock msg block)
    (state : PeerState) :
    handleMessage msg state = (do connectBlock block; persistLedger : PeerAction Unit) state := by
  obtain ⟨htype, hcarried⟩ := h
  obtain ⟨parsed, hparsed, hblock⟩ := bind_eq_ok.mp hcarried
  have honBlock : onBlockAnnounce msg.payload state =
      (do connectBlock block; persistLedger : PeerAction Unit) state := by
    simp only [onBlockAnnounce, hparsed, hblock, Action.bind_run, Action.ofExcept_run,
      Process.bind_ret_left]
  rw [← honBlock]
  unfold handleMessage
  obtain htype | htype := htype
  · have hparse : parseBlockAnnounceMessage msg = .ok parsed := by
      simp [parseBlockAnnounceMessage, parseMessage, htype, hparsed]
    simp only [htype, hparse, Action.bind_run, Action.ofExcept_run, Process.bind_ret_left]
  · have hparse : parseBlockResponseMessage msg = .ok parsed := by
      simp [parseBlockResponseMessage, parseMessage, deserializeBlockResponse, htype, hparsed]
    simp only [htype, hparse, Action.bind_run, Action.ofExcept_run, Process.bind_ret_left,
      onBlockResponse]

end PeerState

/-- The ledger of a running node is always valid, and a block that a peer delivers is either
valid after it and appended, or not valid and without any effect. -/
theorem delivered_block_taken_iff_valid {config : NodeConfig} {dir : DataDir}
    {state next : PeerState}
    (h : Reached config dir anyOp state) {msg : P2pMessage} {block : Block}
    (hmsg : PeerState.DeliversBlock msg block) {result : Result Unit}
    (hrun : (PeerState.handleMessage msg state).Returns (result, next)) :
    ValidLedger (startParams config dir) state.ledgerBlocks ∧
    (((∃ fees, block.Valid (startParams config dir) state.ledgerBlocks fees) ∧
        next.ledgerBlocks = state.ledgerBlocks ++ [block]) ∨
      ((∀ fees, ¬ block.Valid (startParams config dir) state.ledgerBlocks fees) ∧
        next = state ∧ ∃ e, result = .error e)) := by
  have hinv := h.inv
  obtain ⟨blocks, hacc, hcat⟩ := hinv.history
  have hvalues : state.ledgerBlocks = blocks := hcat.values_eq
  refine ⟨by rw [hvalues]; exact hacc.validLedger, ?_⟩
  rw [PeerState.handleMessage_delivers hmsg, Action.bind_run] at hrun
  obtain ⟨e, hs, hconn⟩ | ⟨fees, chain, pool, hs, hconn⟩ := PeerState.connectBlock_run block state
  · rw [hconn, Process.bind_ret_left] at hrun
    obtain ⟨rfl, rfl⟩ := Prod.mk.inj (Process.returns_ret.mp hrun)
    refine .inr ⟨?_, rfl, e, rfl⟩
    intro fees hvalid
    obtain ⟨chain, pool, hok⟩ := (hinv.submitBlock_iff block fees).mpr hvalid
    rw [hs] at hok
    cases hok
  · rw [hconn, Process.bind_ret_left] at hrun
    refine .inl ⟨⟨fees, (hinv.submitBlock_iff block fees).mp ⟨chain, pool, hs⟩⟩, ?_⟩
    have hkept := PeerState.persistLedger_keeps (I := fun s => s = state.connected block chain)
      _ rfl result next hrun
    rw [hkept]
    exact hinv.ledgerBlocks_connected hs

/-- A block with a payment is valid after the reward that it spends, and is taken. -/
theorem payment_block_taken :
    ∃ next, Reached rewardConfig ⟨none, none⟩ anyOp rewardedNode ∧
      rivalBlock.transactions = [payment 1] ∧
      PeerState.DeliversBlock (PeerState.blockAnnounceMessage rivalBlock) rivalBlock ∧
      (∃ fees, rivalBlock.Valid ⟨50, 1⟩ rewardedNode.ledgerBlocks fees) ∧
      (PeerState.handleMessage (PeerState.blockAnnounceMessage rivalBlock) rewardedNode).Returns
        (.ok (), next) ∧
      next.ledgerBlocks = rewardedNode.ledgerBlocks ++ [rivalBlock] := by
  have hreached : Reached rewardConfig ⟨none, none⟩ anyOp rewardedNode :=
    rewardedNode_reached trivial
  have hsane : rivalBlock.Sane := singleton_block_sane (payment_sane 1) rfl
  have hlinks : rivalBlock.header.LinksTo rewardedNode.chain.tip :=
    ⟨rfl, rfl, rfl, UInt64.le_refl _⟩
  have hs : rewardedNode.chain.submitBlock rivalBlock (some rewardedNode.mempool) = .ok (0, _, _) :=
    Chain.submitBlock_ok.mpr ⟨hlinks, ⟨_, rivalBlock_connects, rfl⟩, rfl⟩
  have hdelivers : PeerState.DeliversBlock (PeerState.blockAnnounceMessage rivalBlock)
      rivalBlock := by
    refine ⟨.inl rfl, ?_⟩
    rw [carriedBlock, PeerState.blockAnnounceMessage, makeMessage,
      PeerState.deserializeBlockAnnounce_block hsane, ok_bind,
      PeerState.parseBlockBytes_toBytes hsane]
  have hrun : (PeerState.handleMessage (PeerState.blockAnnounceMessage rivalBlock)
      rewardedNode).Returns (.ok (), rewardedNode.connected rivalBlock
        ⟨rivalBlock.header, rivalCoins, ⟨50, 1⟩⟩) := by
    rw [PeerState.handleMessage_delivers hdelivers, PeerState.connect_and_persist rfl,
      PeerState.connectBlock_of_submit hs]
    exact .ret _
  obtain ⟨_, ⟨hvalid, hblocks⟩ | ⟨_, _, e, he⟩⟩ :=
    delivered_block_taken_iff_valid hreached hdelivers hrun
  · exact ⟨_, hreached, rfl, hdelivers, hvalid, hrun, hblocks⟩
  · cases he

end Blockchain
