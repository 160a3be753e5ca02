import Blockchain.BlockBuilder
import Blockchain.History
import Blockchain.MempoolInvariant
import Mathlib.Algebra.Order.BigOperators.Group.List

/-! Block production against block validation. The selection loop runs `connect_block`'s own
transaction step over what it selects, so a template fails only on its reward, and the block
it gives leaves the rest of the pool as valid as it was. -/
namespace Blockchain
open Lib

theorem applied_find {working next : UtxoSet} {tx : Transaction} {height : UInt32} (hs : tx.Sane)
    (hcb : tx.isCoinbase = false)
    (happly : (spendInputs tx.inputs working >>= addOutputs tx height false) = .ok next)
    {o : OutPoint} {c : Coin} (hc : next.find o = some c) :
    createdCoins height tx o = some c ∨ working.find o = some c := by
  obtain ⟨spent, hspend, hadd⟩ := bind_eq_ok.mp happly
  obtain ⟨_, hspent, _⟩ := spendInputs_ok hspend
  rw [← hcb] at hadd
  obtain ⟨_, hadded, _⟩ := addOutputs_ok hs.limits hadd
  rw [hadded o, Option.or_eq_some_iff] at hc
  cases hc with
  | inl hnew => exact .inl hnew
  | inr hold =>
    rw [hspent o] at hold
    split at hold
    · exact absurd hold.2 (by simp)
    · exact .inr hold.2

def UtxoSet.WithinMoney (utxos : UtxoSet) : Prop :=
  ∀ o c, utxos.find o = some c → c.output.value ≤ kMaxMoney

namespace UtxoSet.WithinMoney

theorem inputValue_le {utxos : UtxoSet} (h : utxos.WithinMoney) (prevouts : List OutPoint) :
    inputValue utxos prevouts ≤ prevouts.length * kMaxMoney.toNat := by
  induction prevouts with
  | nil => simp [inputValue]
  | cons o os ih =>
    have hone : utxos.valueAt o ≤ kMaxMoney.toNat := by
      cases hf : utxos.find o with
      | none => simp [valueAt, hf]
      | some c =>
        rw [valueAt_of_find hf]
        exact UInt64.le_iff_toNat_le.mp (h o c hf)
    simp only [inputValue, List.map_cons, List.sum_cons, List.length_cons] at ih ⊢
    rw [Nat.add_mul]
    omega

theorem createdCoins_le {tx : Transaction} {height : UInt32} {o : OutPoint} {c : Coin}
    (hs : tx.Sane) (h : createdCoins height tx o = some c) : c.output.value ≤ kMaxMoney := by
  obtain ⟨_, hout, _⟩ := createdCoins_eq_some.mp h
  have hmem : c.output.value.toNat ∈ tx.outputs.map fun o => o.value.toNat :=
    List.mem_map_of_mem (List.mem_of_getElem? hout)
  exact UInt64.le_iff_toNat_le.mpr ((List.le_sum_of_mem hmem).trans hs.value_le)

theorem applied {working next : UtxoSet} (h : working.WithinMoney) {tx : Transaction}
    {height : UInt32} (hs : tx.Sane) (hcb : tx.isCoinbase = false)
    (happly : (spendInputs tx.inputs working >>= addOutputs tx height false) = .ok next) :
    next.WithinMoney := by
  intro o c hc
  cases applied_find hs hcb happly hc with
  | inl hnew => exact createdCoins_le hs hnew
  | inr hold => exact h o c hold

/-- A fee only overflows a total that has already left the money range. -/
theorem fee_bound {working : UtxoSet} (h : working.WithinMoney) {tx : Transaction} (hs : tx.Sane)
    {total fee : UInt64} (hfee : checkTransactionInputs tx working = .ok fee)
    (hover : checkedAdd total fee = none) : kMaxMoney.toNat < total.toNat := by
  have hvalue := (checkTransactionInputs_ok hs hfee).2
  have hle := h.inputValue_le tx.prevouts
  have hcount : tx.prevouts.length ≤ kMaxInputsPerTransaction.toNat := by
    simpa [Transaction.prevouts] using hs.limits.1
  have hmoney : kMaxMoney.toNat = 2100000000000000 := by decide
  have hinputs : kMaxInputsPerTransaction.toNat = 4096 := by decide
  have hmul := Nat.mul_le_mul_right kMaxMoney.toNat hcount
  have hbig : ¬ total.toNat + fee.toNat < 2 ^ 64 := by
    intro hlt
    have hsome := checkedAdd_eq_some.mpr ⟨hlt, rfl⟩
    simp [hover] at hsome
  rw [hmoney] at hle hmul ⊢
  rw [hinputs] at hmul
  omega

end UtxoSet.WithinMoney

theorem Accepted.withinMoney {params : ConsensusParams} {blocks : List Block} {chain : Chain}
    (h : Accepted params blocks chain) : chain.utxos.WithinMoney := by
  obtain ⟨hadm, hfind⟩ := h.store_history
  intro o c hc
  rw [hfind, SpendLog.store_eq_some_iff hadm] at hc
  obtain ⟨pre, e, post, hsplit, hcreate, _⟩ := hc
  have hmem : e ∈ (history blocks).map historyEvent := by simp [hsplit]
  obtain ⟨⟨height, tx⟩, hx, rfl⟩ := List.mem_map.mp hmem
  have htx : tx ∈ (history blocks).map Prod.snd := List.mem_map_of_mem hx
  rw [history_snd, List.mem_flatMap] at htx
  obtain ⟨block, hb, htx⟩ := htx
  have hs := (h.block_sane block hb).txs_sane tx (Block.mem_ordered.mp htx)
  exact UtxoSet.WithinMoney.createdCoins_le hs hcreate

/-- The loop invariant of the selection, from a set and a starting size: what is selected
connects to the working set and the running total, unless the total has already left the
money range. -/
structure Selection.Agrees (params : BlockTemplateParams) (height : UInt32) (utxos : UtxoSet)
    (base : Nat) (sel : Selection) : Prop where
  connects : connectTransactions params.consensus height sel.chosen utxos 0 =
      .ok (sel.working, sel.totalFees) ∨ kMaxMoney.toNat < sel.totalFees.toNat
  size_eq : sel.currentSize = base + (sel.chosen.map fun tx => tx.toBytes.length).sum
  size_le : sel.chosen = [] ∨ sel.currentSize ≤ params.maxBlockSizeBytes.toNat
  coins : sel.working.WithinMoney

namespace Selection.Agrees
variable {params : BlockTemplateParams} {height : UInt32} {utxos : UtxoSet} {base : Nat}
  {sel : Selection}

theorem step (h : sel.Agrees params height utxos base) {entry : Entry}
    (hs : entry.transaction.Sane) (hcb : entry.transaction.isCoinbase = false)
    (hsize : entry.sizeBytes.toNat = entry.transaction.toBytes.length) :
    (considerEntry params height entry sel).Agrees params height utxos base := by
  obtain hskip | ⟨fee, working, hfits, hfee, hmature, happly,
      ⟨hover, hstep⟩ | ⟨fees, hadd, hstep⟩⟩ :=
    considerEntry_cases params height entry sel
  · rw [hskip]
    exact h
  · rw [hstep]
    exact ⟨.inr (h.coins.fee_bound hs hfee hover), h.size_eq, h.size_le,
      h.coins.applied hs hcb happly⟩
  · rw [hstep]
    refine ⟨?_, ?_, .inr hfits, h.coins.applied hs hcb happly⟩
    · cases h.connects with
      | inl hconn =>
        left
        obtain ⟨spent, hspend, houts⟩ := bind_eq_ok.mp happly
        simp only [connectTransactions_append, hconn, ok_bind, connectTransactions,
          connectTransaction, hfee, hmature, hspend, houts, addFee, hadd]
      | inr hbig =>
        right
        have hsum := checkedAdd_toNat hadd
        simp only
        omega
    · have hold := h.size_eq
      simp only [List.map_append, List.map_cons, List.map_nil, List.sum_append, List.sum_cons,
        List.sum_nil]
      omega

theorem run {entries : List Entry} (h : sel.Agrees params height utxos base)
    (hentries : ∀ e ∈ entries, e.transaction.Sane ∧ e.transaction.isCoinbase = false ∧
      e.sizeBytes.toNat = e.transaction.toBytes.length) :
    (selectTransactions params height entries sel).Agrees params height utxos base := by
  induction entries generalizing sel with
  | nil => exact h
  | cons entry rest ih =>
    rw [selectTransactions]
    split
    · exact h
    · obtain ⟨hs, hcb, hsize⟩ := hentries entry List.mem_cons_self
      exact ih (h.step hs hcb hsize) fun e he => hentries e (List.mem_cons_of_mem _ he)

end Selection.Agrees

theorem makeCoinbase_toBytes_length (height : UInt32) (value : UInt64) (recipient : Hash256) :
    (makeCoinbase height value recipient).toBytes.length = 92 := by
  rw [Transaction.toBytes_length]
  rfl

theorem heightBytes_injective {height height' : UInt32}
    (h : Hash256.ofBytes (leBytes 4 height.toNat) = Hash256.ofBytes (leBytes 4 height'.toNat)) :
    height = height' := by
  have hbytes := congrArg (fun id => leValue (Hash256.bytes id |>.take 4)) h
  have htake : ∀ n : Nat, (Hash256.ofBytes (leBytes 4 n)).bytes.take 4 = leBytes 4 n := by
    intro n
    simp [Hash256.ofBytes, List.take_append]
  simp only [htake] at hbytes
  rw [leValue_leBytes _ _ (by simpa using height.toNat_lt),
    leValue_leBytes _ _ (by simpa using height'.toNat_lt)] at hbytes
  exact UInt32.toNat_inj.mp hbytes

theorem makeCoinbase_height_injective {height height' : UInt32} {value value' : UInt64}
    {recipient recipient' : Hash256}
    (h : makeCoinbase height value recipient = makeCoinbase height' value' recipient') :
    height = height' := by
  have hinputs := congrArg Transaction.inputs h
  simp only [makeCoinbase, List.cons.injEq, TxInput.mk.injEq, OutPoint.mk.injEq, and_true]
    at hinputs
  exact heightBytes_injective hinputs

theorem Transaction.Sane.size_ge {tx : Transaction} (h : tx.Sane) : 92 ≤ tx.toBytes.length := by
  have hin := List.length_pos_iff.mpr h.inputs_ne
  have hout := List.length_pos_iff.mpr h.outputs_ne
  rw [Transaction.toBytes_length]
  omega

theorem block_count_le {block : Block} (hs : ∀ tx ∈ block.transactions, tx.Sane)
    (hsize : block.toBytes.length ≤ kMaxBlockSizeBytes.toNat) :
    block.transactions.length ≤ kMaxTransactionsPerBlock.toNat := by
  have hsum := List.card_nsmul_le_sum (block.transactions.map fun tx => tx.toBytes.length) 92 (by
    intro n hn
    obtain ⟨tx, htx, rfl⟩ := List.mem_map.mp hn
    exact (hs tx htx).size_ge)
  have hbytes : kMaxBlockSizeBytes.toNat = 1048576 := by decide
  have hcount : kMaxTransactionsPerBlock.toNat = 65536 := by decide
  rw [block_toBytes_length] at hsize
  simp only [List.length_map, nsmul_eq_mul, Nat.cast_id] at hsum
  omega

section Template
variable {tip : BlockHeader} {timestamp : UInt64} {pool : Mempool} {utxos : UtxoSet}
  {params : BlockTemplateParams}

theorem mem_entriesByFeerate {e : Entry} :
    e ∈ pool.entriesByFeerate ↔ ∃ id, pool.byTxid.find? id = some e := by
  rw [Mempool.entriesByFeerate, List.mem_insertionSort, OrderedMap.values, List.mem_map]
  constructor
  · intro h
    obtain ⟨⟨id, e'⟩, hin, rfl⟩ := h
    exact ⟨id, (pool.byTxid.find?_eq_some_iff _ _).mpr hin⟩
  · intro h
    obtain ⟨id, hfind⟩ := h
    exact ⟨(id, e), (pool.byTxid.find?_eq_some_iff _ _).mp hfind, rfl⟩

theorem templateSelection_eq : templateSelection tip timestamp pool utxos params =
    selectTransactions params (tip.height + 1) pool.entriesByFeerate ⟨utxos, 0, 176, []⟩ := by
  rw [templateSelection, block_toBytes_length, List.map_singleton, List.sum_singleton,
    makeCoinbase_toBytes_length]

theorem templateSelection_agrees (hrep : pool.RepInv) (hadm : pool.Admitted)
    (hcoins : utxos.WithinMoney) :
    (templateSelection tip timestamp pool utxos params).Agrees params (tip.height + 1)
      utxos 176 := by
  rw [templateSelection_eq]
  refine Selection.Agrees.run ⟨.inl rfl, by simp, .inl rfl, hcoins⟩ ?_
  intro e he
  obtain ⟨id, hfind⟩ := mem_entriesByFeerate.mp he
  obtain ⟨hs, hcb⟩ := hadm id e hfind
  exact ⟨hs, hcb, hrep.size_eq id e hfind⟩

theorem templateSelection_nodup (hrep : pool.RepInv) :
    ((templateSelection tip timestamp pool utxos params).chosen.map Transaction.txid).Nodup := by
  obtain ⟨picked, hsub, hchosen⟩ := selectTransactions_chosen params (tip.height + 1)
    pool.entriesByFeerate _
  rw [templateSelection, hchosen, List.nil_append]
  refine (hsub.map Transaction.txid).nodup ?_
  have hperm : pool.entriesByFeerate.Perm pool.byTxid.values := List.perm_insertionSort _ _
  rw [List.map_map]
  refine ((hperm.map _).nodup_iff).mpr ?_
  have heq : pool.byTxid.values.map (Transaction.txid ∘ Entry.transaction) =
      pool.byTxid.values.map Entry.txid := by
    refine List.map_congr_left fun e he => ?_
    exact (hrep.key_eq _ _ ((Mempool.mem_values_iff hrep).mp he)).2.symm
  rw [heq]
  exact hrep.txids_nodup

/-- No other transaction of the pool has the id of the coinbase. -/
def CoinbaseFresh (pool : Mempool) (coinbase : Transaction) : Prop :=
  ∀ id e, pool.byTxid.find? id = some e → coinbase.txid = e.transaction.txid →
    coinbase = e.transaction

theorem CoinbaseFresh.ne {height : UInt32} {value : UInt64} {recipient : Hash256}
    (h : CoinbaseFresh pool (makeCoinbase height value recipient)) (hadm : pool.Admitted)
    {id : Hash256} {e : Entry} (he : pool.byTxid.find? id = some e) :
    (makeCoinbase height value recipient).txid ≠ e.transaction.txid := by
  intro hid
  have hcb := (hadm id e he).2
  rw [← h id e he hid, makeCoinbase_isCoinbase] at hcb
  simp at hcb

theorem templateBlock_sane (hrep : pool.RepInv) (hadm : pool.Admitted)
    (hcoins : utxos.WithinMoney) (hsize : params.maxBlockSizeBytes ≤ kMaxBlockSizeBytes)
    {reward : UInt64} (hfresh : ∀ id e, pool.byTxid.find? id = some e →
      (makeCoinbase (tip.height + 1) reward params.coinbaseRecipient).txid ≠ e.transaction.txid)
    (hreward : reward ≤ kMaxMoney) :
    (templateBlock tip timestamp params reward
      (templateSelection tip timestamp pool utxos params).chosen).Sane := by
  have hagree : (templateSelection tip timestamp pool utxos params).Agrees params (tip.height + 1)
      utxos 176 := templateSelection_agrees hrep hadm hcoins
  have hpooled : ∀ tx ∈ (templateSelection tip timestamp pool utxos params).chosen,
      tx.Sane ∧ tx.isCoinbase = false := by
    intro tx htx
    obtain ⟨id, e, he, rfl⟩ := templateSelection_mem htx
    exact hadm id e he
  have hsane : ∀ tx ∈ (templateBlock tip timestamp params reward
      (templateSelection tip timestamp pool utxos params).chosen).transactions, tx.Sane := by
    intro tx htx
    cases List.mem_cons.mp htx with
    | inl hcb =>
      rw [hcb]
      exact single_sane rfl rfl hreward
    | inr hsel => exact (hpooled tx hsel).1
  have hlen : (templateBlock tip timestamp params reward
      (templateSelection tip timestamp pool utxos params).chosen).toBytes.length ≤
        kMaxBlockSizeBytes.toNat := by
    have htotal := hagree.size_eq
    rw [block_toBytes_length]
    simp only [templateBlock, List.map_cons, List.sum_cons, makeCoinbase_toBytes_length]
    cases hagree.size_le with
    | inl hnil =>
      rw [hnil, List.map_nil, List.sum_nil]
      decide
    | inr hle =>
      have hmax := UInt32.le_iff_toNat_le.mp hsize
      omega
  refine ⟨block_count_le hsane hlen, hlen, rfl, hsane, fun tx htx => (hpooled tx htx).2, ?_⟩
  refine List.nodup_cons.mpr ⟨?_, templateSelection_nodup hrep⟩
  intro hmem
  obtain ⟨tx, htx, hid⟩ := List.mem_map.mp hmem
  obtain ⟨id, e, he, rfl⟩ := templateSelection_mem htx
  exact hfresh id e he hid.symm

theorem templateBlock_coinbase? (reward : UInt64) (chosen : List Transaction) :
    (templateBlock tip timestamp params reward chosen).coinbase? =
      some (makeCoinbase (tip.height + 1) reward params.coinbaseRecipient) := by
  simp [Block.coinbase?, templateBlock, makeCoinbase_isCoinbase]

theorem templateBlock_body (reward : UInt64) (chosen : List Transaction) :
    (templateBlock tip timestamp params reward chosen).body = chosen := by
  rw [Block.body, templateBlock_coinbase?]
  rfl

theorem connectBlock_templateBlock {reward fees : UInt64} {chosen : List Transaction}
    {working : UtxoSet} (hsane : (templateBlock tip timestamp params reward chosen).Sane)
    (hconn : connectTransactions params.consensus (tip.height + 1) chosen utxos 0 =
      .ok (working, fees))
    (hreward : checkedAdd params.consensus.blockSubsidy fees = some reward) :
    connectBlock (templateBlock tip timestamp params reward chosen) utxos params.consensus =
      working.add ⟨(makeCoinbase (tip.height + 1) reward params.coinbaseRecipient).txid, 0⟩
        ⟨⟨reward, params.coinbaseRecipient⟩, tip.height + 1, true⟩ >>= fun next =>
          .ok (fees, next) := by
  have hheight : (templateBlock tip timestamp params reward chosen).header.height =
      tip.height + 1 := rfl
  have hpay : ¬ totalOut (makeCoinbase (tip.height + 1) reward params.coinbaseRecipient).outputs >
      reward := by
    simp [makeCoinbase, totalOut]
  rw [connectBlock, (checkBlockSanity_ok _).mpr hsane, ok_bind, templateBlock_body, hheight, hconn,
    ok_bind]
  simp only [templateBlock_coinbase?, connectCoinbase, hreward, if_neg hpay]
  rw [addOutputs_one rfl]

theorem templateBlock_reward_le {reward : UInt64} {chosen : List Transaction}
    (h : (templateBlock tip timestamp params reward chosen).Sane) : reward ≤ kMaxMoney := by
  have hvalue := (h.txs_sane _ List.mem_cons_self).value_le
  simpa [makeCoinbase, outputValue, UInt64.le_iff_toNat_le] using hvalue

section Selected
variable (hrep : pool.RepInv) (hadm : pool.Admitted) (hcoins : utxos.WithinMoney)
include hrep hadm hcoins

theorem templateSelection_connects {reward : UInt64}
    (hreward : checkedAdd params.consensus.blockSubsidy
      (templateSelection tip timestamp pool utxos params).totalFees = some reward)
    (hmoney : reward ≤ kMaxMoney) :
    connectTransactions params.consensus (tip.height + 1)
        (templateSelection tip timestamp pool utxos params).chosen utxos 0 =
      .ok ((templateSelection tip timestamp pool utxos params).working,
        (templateSelection tip timestamp pool utxos params).totalFees) := by
  have hagree : (templateSelection tip timestamp pool utxos params).Agrees params (tip.height + 1)
      utxos 176 := templateSelection_agrees hrep hadm hcoins
  refine hagree.connects.resolve_right fun hbig => ?_
  have hsum := checkedAdd_toNat hreward
  have hle := UInt64.le_iff_toNat_le.mp hmoney
  omega

theorem buildBlockTemplate_error (hheight : tip.height ≠ kUint32Max)
    (hsize : params.maxBlockSizeBytes ≤ kMaxBlockSizeBytes)
    (hfresh : ∀ id e, pool.byTxid.find? id = some e →
      (makeCoinbase (tip.height + 1) (params.consensus.blockSubsidy +
        (templateSelection tip timestamp pool utxos params).totalFees)
          params.coinbaseRecipient).txid ≠ e.transaction.txid) {e : Error}
    (h : buildBlockTemplate tip timestamp pool utxos params = .error e) :
    kMaxMoney.toNat < params.consensus.blockSubsidy.toNat +
      (templateSelection tip timestamp pool utxos params).totalFees.toNat ∨
    ((templateSelection tip timestamp pool utxos params).working.find
      ⟨(makeCoinbase (tip.height + 1) (params.consensus.blockSubsidy +
        (templateSelection tip timestamp pool utxos params).totalFees)
          params.coinbaseRecipient).txid, 0⟩).isSome := by
  by_contra hnot
  obtain ⟨hle, hfree⟩ := not_or.mp hnot
  have hmax : kMaxMoney.toNat < 2 ^ 64 := by decide
  have hreward := checkedAdd_eq_some.mpr ⟨lt_of_le_of_lt (Nat.not_lt.mp hle) hmax, rfl⟩
  have hmoney : params.consensus.blockSubsidy +
      (templateSelection tip timestamp pool utxos params).totalFees ≤ kMaxMoney := by
    rw [UInt64.le_iff_toNat_le, checkedAdd_toNat hreward]
    exact Nat.not_lt.mp hle
  have hblock := connectBlock_templateBlock
    (templateBlock_sane hrep hadm hcoins hsize hfresh hmoney)
    (templateSelection_connects hrep hadm hcoins hreward hmoney) hreward
  rw [UtxoSet.add_eq_ok.mpr ⟨Option.not_isSome_iff_eq_none.mp hfree, rfl⟩, ok_bind] at hblock
  rw [buildBlockTemplate_eq timestamp pool utxos params hheight] at h
  simp [hreward, hblock] at h

theorem buildBlockTemplate_room {tmpl : BlockTemplate}
    (h : buildBlockTemplate tip timestamp pool utxos params = .ok tmpl) :
    params.consensus.blockSubsidy.toNat +
      (templateSelection tip timestamp pool utxos params).totalFees.toNat ≤ kMaxMoney.toNat ∧
    (templateSelection tip timestamp pool utxos params).working.find
      ⟨(makeCoinbase (tip.height + 1) (params.consensus.blockSubsidy +
        (templateSelection tip timestamp pool utxos params).totalFees)
          params.coinbaseRecipient).txid, 0⟩ = none := by
  obtain ⟨_, reward, next, hreward, hconn, _⟩ := buildBlockTemplate_eq_ok.mp h
  obtain ⟨_, rfl⟩ := checkedAdd_eq_some.mp hreward
  have hsane := (connectBlock_ok hconn).1
  have hmoney := templateBlock_reward_le hsane
  have hblock := connectBlock_templateBlock hsane
    (templateSelection_connects hrep hadm hcoins hreward hmoney) hreward
  obtain ⟨added, hadd, _⟩ := bind_eq_ok.mp (hblock.symm.trans hconn)
  rw [UInt64.le_iff_toNat_le, checkedAdd_toNat hreward] at hmoney
  exact ⟨hmoney, (UtxoSet.add_eq_ok.mp hadd).1⟩

theorem buildBlockTemplate_connects {tmpl : BlockTemplate}
    (h : buildBlockTemplate tip timestamp pool utxos params = .ok tmpl) :
    checkedAdd params.consensus.blockSubsidy tmpl.totalFees = some (params.consensus.blockSubsidy +
      (templateSelection tip timestamp pool utxos params).totalFees) ∧
    tmpl = ⟨templateBlock tip timestamp params (params.consensus.blockSubsidy +
        (templateSelection tip timestamp pool utxos params).totalFees)
        (templateSelection tip timestamp pool utxos params).chosen,
      (templateSelection tip timestamp pool utxos params).totalFees,
      (templateSelection tip timestamp pool utxos params).chosen.length⟩ ∧
    connectBlock tmpl.block utxos params.consensus =
      .ok (tmpl.totalFees, (templateSelection tip timestamp pool utxos params).working.insert
        ⟨(makeCoinbase (tip.height + 1) (params.consensus.blockSubsidy +
          (templateSelection tip timestamp pool utxos params).totalFees)
          params.coinbaseRecipient).txid, 0⟩
        ⟨⟨params.consensus.blockSubsidy +
          (templateSelection tip timestamp pool utxos params).totalFees, params.coinbaseRecipient⟩,
          tip.height + 1, true⟩) := by
  obtain ⟨_, reward, next, hreward, hconn, htmpl⟩ := buildBlockTemplate_eq_ok.mp h
  obtain ⟨_, rfl⟩ := checkedAdd_eq_some.mp hreward
  have hsane := (connectBlock_ok hconn).1
  have hmoney := templateBlock_reward_le hsane
  have hblock := connectBlock_templateBlock hsane
    (templateSelection_connects hrep hadm hcoins hreward hmoney) hreward
  have hall := hblock.symm.trans hconn
  obtain ⟨added, hadd, hall⟩ := bind_eq_ok.mp hall
  obtain ⟨hfees, rfl⟩ := Prod.mk.inj (Except.ok.inj hall)
  obtain ⟨_, rfl⟩ := UtxoSet.add_eq_ok.mp hadd
  rw [← hfees] at htmpl hconn
  rw [htmpl]
  exact ⟨hreward, rfl, hconn⟩

end Selected
end Template

/-- The producer and the validator agree: over every pool made by admissions and removals,
a template is refused only for a reward outside the money range or a coinbase outpoint that
exists; one that is returned carries the builder's own total and reward, and connects to the
builder's working set plus the coinbase coin. -/
theorem template_agrees_with_validator (tip : BlockHeader) (timestamp : UInt64)
    (limits : MempoolLimits) (ops : List PoolOp) (utxos : UtxoSet) (params : BlockTemplateParams)
    (hheight : tip.height < kUint32Max) (hcoins : utxos.WithinMoney)
    (hsize : params.maxBlockSizeBytes ≤ kMaxBlockSizeBytes)
    (hfresh : CoinbaseFresh (ops.foldl PoolOp.apply (Mempool.new limits))
      (makeCoinbase (tip.height + 1)
        (params.consensus.blockSubsidy + (templateSelection tip timestamp
          (ops.foldl PoolOp.apply (Mempool.new limits)) utxos params).totalFees)
        params.coinbaseRecipient)) :
    let pool := ops.foldl PoolOp.apply (Mempool.new limits)
    let sel := templateSelection tip timestamp pool utxos params
    let reward := params.consensus.blockSubsidy + sel.totalFees
    let coinbase := makeCoinbase (tip.height + 1) reward params.coinbaseRecipient
    (∀ e, buildBlockTemplate tip timestamp pool utxos params = .error e →
      kMaxMoney.toNat < params.consensus.blockSubsidy.toNat + sel.totalFees.toNat ∨
      (sel.working.find ⟨coinbase.txid, 0⟩).isSome) ∧
    ∀ tmpl, buildBlockTemplate tip timestamp pool utxos params = .ok tmpl →
      tmpl.totalFees = sel.totalFees ∧
      tmpl.block.transactions = coinbase :: sel.chosen ∧
      coinbase.outputs.map (fun o => o.value.toNat) =
        [params.consensus.blockSubsidy.toNat + tmpl.totalFees.toNat] ∧
      connectBlock tmpl.block utxos params.consensus =
        .ok (tmpl.totalFees, sel.working.insert ⟨coinbase.txid, 0⟩
          ⟨⟨reward, params.coinbaseRecipient⟩, tip.height + 1, true⟩) := by
  intro pool sel reward coinbase
  have hrep : pool.RepInv := Mempool.run_repInv limits ops
  have hadm : pool.Admitted := Mempool.run_admitted limits ops
  have hne : tip.height ≠ kUint32Max := UInt32.ne_of_lt hheight
  refine ⟨fun e he => buildBlockTemplate_error hrep hadm hcoins hne hsize
    (fun _ _ hpooled => hfresh.ne hadm hpooled) he, ?_⟩
  intro tmpl htmpl
  obtain ⟨hreward, hshape, hconn⟩ := buildBlockTemplate_connects hrep hadm hcoins htmpl
  refine ⟨by rw [hshape], by rw [hshape]; rfl, ?_, hconn⟩
  rw [← checkedAdd_toNat hreward]
  rfl

/-! A template with room for one of the two payments. -/

def firstTip : BlockHeader := ⟨kBlockVersion, zeroHash, zeroHash, 0, 0⟩

def pairParams : BlockTemplateParams := ⟨kBlockVersion, 1000, 1, ⟨50, 0⟩, zeroHash⟩

def pairWorking : UtxoSet :=
  (twoCoins.erase ⟨zeroHash, 1⟩).insert ⟨paidPayment.txid, 0⟩ ⟨⟨0, zeroHash⟩, 1, false⟩

def pairCoinbase : Transaction := makeCoinbase 1 1050 zeroHash

theorem twoCoins_withinMoney : twoCoins.WithinMoney := by
  intro o c hc
  rw [(twoCoins_find hc).2]
  decide

theorem twoCoins_mature (tx : Transaction) (height maturity : UInt32) :
    checkCoinbaseMaturity tx twoCoins height maturity = .ok () := by
  rw [checkCoinbaseMaturity_eq_ok]
  intro o _ coin hcoin hflag
  rw [(twoCoins_find hcoin).2] at hflag
  exact absurd hflag (by simp)

theorem paidPayment_applies : tryApply paidPayment 1 twoCoins = some pairWorking := by
  have hspend : spendInputs paidPayment.inputs twoCoins = .ok (twoCoins.erase ⟨zeroHash, 1⟩) := by
    rfl
  have hfree : UtxoSet.find (twoCoins.erase ⟨zeroHash, 1⟩) ⟨paidPayment.txid, 0⟩ = none := by
    have hne : (⟨paidPayment.txid, 0⟩ : OutPoint) ≠ ⟨zeroHash, 1⟩ :=
      fun he => payment_ids_apart.2.2 (OutPoint.mk.inj he).1
    rw [UtxoSet.find, OrderedMap.find?_erase_of_ne _ hne]
    exact twoCoins_absent payment_ids_apart.2.2
  rw [tryApply, hspend, ok_bind, addOutputs_single rfl hfree]
  rfl

theorem pairTemplate_selection : templateSelection firstTip 0 pairPool twoCoins pairParams =
    ⟨pairWorking, 1000, 268, [paidPayment]⟩ := by
  have hturn : considerEntry pairParams (firstTip.height + 1) paidEntry ⟨twoCoins, 0, 176, []⟩ =
      ⟨pairWorking, 1000, 268, [paidPayment]⟩ :=
    considerEntry_takes (by decide) (validateForMempool_ok paidPayment_valid).2.2.1
      (twoCoins_mature _ _ _) paidPayment_applies rfl
  rw [templateSelection_eq, pairPool_entries, selectTransactions, if_neg (by decide), hturn,
    selectTransactions, if_pos (by decide)]

set_option maxRecDepth 100000 in
theorem pairCoinbase_ids : pairCoinbase.txid ≠ paidPayment.txid ∧
    pairCoinbase.txid ≠ freePayment.txid ∧ pairCoinbase.txid ≠ zeroHash := by
  refine ⟨WordState.sha256d_ne ?_, WordState.sha256d_ne ?_, WordState.sha256d_ne_zeroHash ?_⟩
  · decide +kernel
  · decide +kernel
  · decide +kernel

theorem pairCoinbase_fresh : CoinbaseFresh pairPool (makeCoinbase (firstTip.height + 1)
    (pairParams.consensus.blockSubsidy +
      (templateSelection firstTip 0 pairPool twoCoins pairParams).totalFees)
    pairParams.coinbaseRecipient) := by
  rw [pairTemplate_selection]
  intro id e he hid
  obtain rfl | rfl := pairPool_mem he
  · exact absurd hid pairCoinbase_ids.1
  · exact absurd hid pairCoinbase_ids.2.1

theorem pairTemplate_ok : ∃ tmpl,
    buildBlockTemplate firstTip 0 pairPool twoCoins pairParams = .ok tmpl := by
  have hinv : pairPool.RepInv := Mempool.run_repInv _ _
  have hadm : pairPool.Admitted := Mempool.run_admitted _ _
  cases hb : buildBlockTemplate firstTip 0 pairPool twoCoins pairParams with
  | ok tmpl => exact ⟨tmpl, rfl⟩
  | error e =>
    have herror := buildBlockTemplate_error hinv hadm twoCoins_withinMoney (by decide)
      (by decide) (fun _ _ he => pairCoinbase_fresh.ne hadm he) hb
    rw [pairTemplate_selection] at herror
    cases herror with
    | inl hbig => exact absurd hbig (by decide)
    | inr hused =>
      have hpaid : (⟨pairCoinbase.txid, 0⟩ : OutPoint) ≠ ⟨paidPayment.txid, 0⟩ :=
        fun he => pairCoinbase_ids.1 (OutPoint.mk.inj he).1
      have hspent : (⟨pairCoinbase.txid, 0⟩ : OutPoint) ≠ ⟨zeroHash, 1⟩ :=
        fun he => pairCoinbase_ids.2.2 (OutPoint.mk.inj he).1
      have hfree : pairWorking.find ⟨pairCoinbase.txid, 0⟩ = none := by
        rw [pairWorking, UtxoSet.find, OrderedMap.find?_insert_of_ne _ _ hpaid,
          OrderedMap.find?_erase_of_ne _ hspent]
        exact twoCoins_absent pairCoinbase_ids.2.2
      have hsome : (pairWorking.find ⟨pairCoinbase.txid, 0⟩).isSome := hused
      simp [hfree] at hsome

theorem pairTemplate_transactions {tmpl : BlockTemplate}
    (h : buildBlockTemplate firstTip 0 pairPool twoCoins pairParams = .ok tmpl) :
    tmpl.block.transactions = [pairCoinbase, paidPayment] := by
  have hinv : pairPool.RepInv := Mempool.run_repInv _ _
  obtain ⟨_, hshape, _⟩ := buildBlockTemplate_connects hinv (Mempool.run_admitted _ _)
    twoCoins_withinMoney h
  rw [hshape, pairTemplate_selection]
  rfl

/-- The template over the two payments takes the paid one, and its coinbase collects the
fee. -/
theorem template_agrees_paid :
    ∃ tmpl, buildBlockTemplate firstTip 0 pairPool twoCoins pairParams = .ok tmpl ∧
      tmpl.totalFees = 1000 ∧ tmpl.block.transactions = [pairCoinbase, paidPayment] ∧
      connectBlock tmpl.block twoCoins ⟨50, 0⟩ = .ok (1000,
        pairWorking.insert ⟨pairCoinbase.txid, 0⟩ ⟨⟨1050, zeroHash⟩, 1, true⟩) := by
  obtain ⟨tmpl, htmpl⟩ := pairTemplate_ok
  obtain ⟨hfees, htxs, _, hconn⟩ := (template_agrees_with_validator firstTip 0 ⟨2, 184⟩
    [PoolOp.accept paidPayment twoCoins {}, PoolOp.accept freePayment twoCoins {}] twoCoins
    pairParams (by decide) twoCoins_withinMoney (by decide) pairCoinbase_fresh).2 tmpl htmpl
  have hselection := pairTemplate_selection
  rw [pairPool] at hselection
  rw [hselection] at hfees htxs hconn
  rw [hfees] at hconn
  exact ⟨tmpl, htmpl, hfees, htxs, hconn⟩

/-! Mining against the rest of the pool. -/

section Mining
variable {tip : BlockHeader} {timestamp : UInt64} {pool : Mempool} {utxos : UtxoSet}
  {params : BlockTemplateParams} {tmpl : BlockTemplate}

theorem template_disjoint (hrep : pool.RepInv)
    (h : buildBlockTemplate tip timestamp pool utxos params = .ok tmpl) {id : Hash256} {e : Entry}
    (he : pool.byTxid.find? id = some e) (hid : id ∉ tmpl.block.transactions.map Transaction.txid) :
    ∀ tx ∈ tmpl.block.transactions, tx.isCoinbase = false →
      ∀ o ∈ e.transaction.prevouts, o ∉ tx.prevouts := by
  intro tx htx hcb o ho hshared
  obtain ⟨_, hpooled⟩ := buildBlockTemplate_ok h
  cases hpooled tx htx with
  | inl hcoinbase => simp [hcb] at hcoinbase
  | inr hentry =>
    obtain ⟨id', e', he', rfl⟩ := hentry
    have hsame : id = id' := hrep.no_conflict he he' ho hshared
    have hkey := hrep.key_eq _ _ he'
    refine hid (List.mem_map.mpr ⟨e'.transaction, htx, ?_⟩)
    rw [hsame, hkey.1, hkey.2]

theorem template_linksTo (hversion : params.version = kBlockVersion)
    (htime : tip.timestamp ≤ timestamp)
    (h : buildBlockTemplate tip timestamp pool utxos params = .ok tmpl) :
    tmpl.block.header.LinksTo tip := by
  obtain ⟨hne, reward, next, _, _, htmpl⟩ := buildBlockTemplate_eq_ok.mp h
  have hheight := (BlockHeader.emptyNext_linksTo hne).height_eq
  rw [htmpl]
  exact ⟨hversion, rfl, hheight, htime⟩

theorem template_selected (hrep : pool.RepInv)
    (h : buildBlockTemplate tip timestamp pool utxos params = .ok tmpl) :
    tmpl.block.transactions.tail.length = tmpl.selectedCount ∧
    ∀ tx ∈ tmpl.block.transactions.tail,
      ∃ e, pool.byTxid.find? tx.txid = some e ∧ e.transaction = tx := by
  obtain ⟨_, reward, next, _, _, htmpl⟩ := buildBlockTemplate_eq_ok.mp h
  rw [htmpl]
  refine ⟨rfl, ?_⟩
  intro tx htx
  obtain ⟨id, e, he, rfl⟩ := templateSelection_mem htx
  have hkey := hrep.key_eq id e he
  exact ⟨e, by rw [← hkey.2, ← hkey.1]; exact he, rfl⟩

/-- The coinbase of a template is no pooled transaction, so pruning by the block's ids removes
the selected ones only. -/
theorem template_prunes (hrep : pool.RepInv) (hadm : pool.Admitted)
    (hids : ∀ tx ∈ tmpl.block.transactions, ∀ id e, pool.byTxid.find? id = some e →
      tx.txid = e.transaction.txid → tx = e.transaction)
    (h : buildBlockTemplate tip timestamp pool utxos params = .ok tmpl) :
    pool.removeAll (tmpl.block.transactions.map Transaction.txid) =
      pool.removeAll (tmpl.block.transactions.tail.map Transaction.txid) := by
  obtain ⟨_, reward, next, _, _, htmpl⟩ := buildBlockTemplate_eq_ok.mp h
  have hmem : makeCoinbase (tip.height + 1) reward params.coinbaseRecipient ∈
      tmpl.block.transactions := by
    rw [htmpl]
    exact List.mem_cons_self
  have habsent : pool.byTxid.find?
      (makeCoinbase (tip.height + 1) reward params.coinbaseRecipient).txid = none := by
    refine Option.eq_none_iff_forall_ne_some.mpr fun e he => ?_
    have hkey := hrep.key_eq _ _ he
    have hcb := (hadm _ e he).2
    rw [← hids _ hmem _ e he (hkey.1.trans hkey.2), makeCoinbase_isCoinbase] at hcb
    simp at hcb
  rw [htmpl]
  exact Mempool.removeAll_cons_absent _ habsent

end Mining

/-- Mining keeps the rest of the pool: the template of a pool made by admissions and removals
is accepted with the template's fees, exactly the selected transactions leave the pool, and
an entry that stays passes the input check with the fee it had. -/
theorem mining_preserves_pool {chain : Chain} {limits : MempoolLimits} {ops : List PoolOp}
    {timestamp : UInt64} {params : BlockTemplateParams} {tmpl : BlockTemplate}
    (htime : chain.tip.timestamp ≤ timestamp) (hversion : params.version = kBlockVersion)
    (hparams : params.consensus = chain.params)
    (hids : ∀ tx ∈ tmpl.block.transactions, ∀ id e,
      (ops.foldl PoolOp.apply (Mempool.new limits)).byTxid.find? id = some e →
      tx.txid = e.transaction.txid → tx = e.transaction)
    (h : buildBlockTemplate chain.tip timestamp (ops.foldl PoolOp.apply (Mempool.new limits))
      chain.utxos params = .ok tmpl) :
    let pool := ops.foldl PoolOp.apply (Mempool.new limits)
    let selected := tmpl.block.transactions.tail
    ∃ next after,
      chain.submitBlock tmpl.block (some pool) = .ok (tmpl.totalFees, next, some after) ∧
      next.height.toNat = chain.height.toNat + 1 ∧
      selected.length = tmpl.selectedCount ∧
      (∀ tx ∈ selected, ∃ e, pool.byTxid.find? tx.txid = some e ∧ e.transaction = tx) ∧
      after = pool.removeAll (selected.map Transaction.txid) ∧
      (∀ id, after.byTxid.find? id =
        if id ∈ selected.map Transaction.txid then none else pool.byTxid.find? id) ∧
      ∀ id e fee, after.byTxid.find? id = some e →
        checkTransactionInputs e.transaction chain.utxos = .ok fee →
        checkTransactionInputs e.transaction next.utxos = .ok fee := by
  intro pool selected
  have hrep : pool.RepInv := Mempool.run_repInv limits ops
  have hadm : pool.Admitted := Mempool.run_admitted limits ops
  have hlinks := template_linksTo hversion htime h
  have hpruned := template_prunes hrep hadm hids h
  obtain ⟨hcount, hselected⟩ := template_selected hrep h
  obtain ⟨⟨utxos, hconn⟩, _⟩ := buildBlockTemplate_ok h
  rw [hparams] at hconn
  have hsubmit : chain.submitBlock tmpl.block (some pool) =
      .ok (tmpl.totalFees, { chain with tip := tmpl.block.header, utxos := utxos },
        some (pool.removeAll (tmpl.block.transactions.map Transaction.txid))) :=
    Chain.submitBlock_ok.mpr ⟨hlinks, ⟨utxos, hconn, rfl⟩, rfl⟩
  refine ⟨_, _, hsubmit, hlinks.height_eq, hcount, hselected, hpruned, ?_, ?_⟩
  · intro id
    rw [hpruned, Mempool.find?_removeAll_eq]
  · intro id e fee he hfee
    obtain ⟨hfind, hid⟩ := Mempool.find?_removeAll.mp he
    obtain ⟨hpresent, _⟩ := checkTransactionInputs_ok (hadm id e hfind).1 hfee
    rw [← hfee]
    refine checkTransactionInputs_congr _ fun o ho => ?_
    exact Mempool.find_of_connectBlock hconn (hpresent o ho) fun tx htx hcb =>
      template_disjoint hrep h hfind hid tx htx hcb o ho

/-- Of two pooled payments the paid one is mined; the free one stays, and is still valid. -/
theorem mining_keeps_free_payment :
    ∃ tmpl next after,
      buildBlockTemplate firstTip 0 pairPool twoCoins pairParams = .ok tmpl ∧
      (⟨firstTip, twoCoins, ⟨50, 0⟩⟩ : Chain).submitBlock tmpl.block (some pairPool) =
        .ok (tmpl.totalFees, next, some after) ∧
      next.height.toNat = 1 ∧
      after.byTxid.find? paidPayment.txid = none ∧
      after.byTxid.find? freePayment.txid = some freeEntry ∧
      checkTransactionInputs freePayment next.utxos = .ok 0 := by
  obtain ⟨tmpl, htmpl⟩ := pairTemplate_ok
  have htxs := pairTemplate_transactions htmpl
  have hids : ∀ tx ∈ tmpl.block.transactions, ∀ id e, pairPool.byTxid.find? id = some e →
      tx.txid = e.transaction.txid → tx = e.transaction := by
    intro tx htx id e he hid
    rw [htxs, List.mem_pair] at htx
    obtain rfl | rfl := htx
    · obtain rfl | rfl := pairPool_mem he
      · exact absurd hid pairCoinbase_ids.1
      · exact absurd hid pairCoinbase_ids.2.1
    · obtain rfl | rfl := pairPool_mem he
      · rfl
      · exact absurd hid payment_ids_apart.1
  obtain ⟨next, after, hsubmit, hheight, _, _, _, hafter, hvalid⟩ :=
    @mining_preserves_pool ⟨firstTip, twoCoins, ⟨50, 0⟩⟩ ⟨2, 184⟩
      [PoolOp.accept paidPayment twoCoins {}, PoolOp.accept freePayment twoCoins {}] 0 pairParams
      tmpl (UInt64.le_refl _) rfl rfl hids htmpl
  rw [htxs] at hafter
  have hpooled : pairPool.byTxid.find? freePayment.txid = some freeEntry := by
    have hself : freePayment.txid = freeEntry.txid := rfl
    rw [pairPool_eq, hself, Mempool.addEntry, OrderedMap.find?_emplace, pairPool_absent,
      Option.none_or, if_pos rfl]
  have hkept : after.byTxid.find? freePayment.txid = some freeEntry := by
    rw [hafter, if_neg (by simpa using payment_ids_apart.1.symm)]
    exact hpooled
  refine ⟨tmpl, next, after, htmpl, hsubmit, hheight, ?_, hkept, ?_⟩
  · rw [hafter, if_pos (by simp)]
  · exact hvalid _ _ 0 hkept (validateForMempool_ok freePayment_valid).2.2.1

/-! Payments of the first reward. -/

/-- The payments differ in their lock time only. -/
def payment (lockTime : UInt32) : Transaction :=
  ⟨kTransactionVersion, [⟨⟨reward.txid, 0⟩⟩], [⟨50, zeroHash⟩], lockTime⟩

theorem payment_sane (lockTime : UInt32) : (payment lockTime).Sane :=
  single_sane rfl rfl (by decide)

theorem payment_length (lockTime : UInt32) : (payment lockTime).toBytes.length = 92 := by
  rw [Transaction.toBytes_length]
  rfl

theorem payment_fee (lockTime : UInt32) :
    checkTransactionInputs (payment lockTime) rewardCoins = .ok 0 := by
  have hout : (payment lockTime).outputs = [⟨50, zeroHash⟩] := rfl
  exact checkTransactionInputs_single rfl hout rewardCoins_find (by decide)

theorem payment_admitted : validateForMempool (payment 0) rewardCoins ⟨0⟩ = .ok ⟨0, 92⟩ := by
  have hsane := (checkTransactionSanity_ok _).mpr (payment_sane 0)
  have hcb : (payment 0).isCoinbase = false := rfl
  simp only [validateForMempool, hsane, ok_bind, hcb, Bool.false_eq_true, if_false, payment_fee,
    checkMinRelayFeerate, true_or, if_true, payment_length]
  rfl

theorem payment_fits_new {limits : MempoolLimits} (hcount : 1 ≤ limits.maxTransactions)
    (hbytes : 92 ≤ limits.maxTotalBytes) :
    (Mempool.new limits).Fits (Mempool.entryOf (payment 0) ⟨0, 92⟩) := by
  refine ⟨rfl, (payment_length 0).symm, rfl, fun _ _ => rfl, ?_, hbytes⟩
  have hone : 1 ≤ limits.maxTransactions.toNat := UInt32.le_iff_toNat_le.mp hcount
  intro hover
  cases hover with
  | inl hmany => exact absurd hmany (Nat.not_lt.mpr hone)
  | inr hlarge => exact absurd hlarge UInt64.not_lt_zero

end Blockchain
