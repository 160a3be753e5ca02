import Blockchain.Chain

/-! Deterministic block production: a coinbase in slot 0 and pool entries selected in
fee-rate order against a working copy of the UTXO set. -/
namespace Blockchain
open Lib

structure BlockTemplateParams where
  version : UInt32 := 0
  maxBlockSizeBytes : UInt32 := 0
  maxTransactions : UInt32 := 0
  consensus : ConsensusParams := {}
  coinbaseRecipient : Hash256 := zeroHash
deriving DecidableEq

structure BlockTemplate where
  block : Block
  totalFees : UInt64
  selectedCount : Nat

/-- The updated set, or nothing when a spend or an addition fails. -/
def tryApply (tx : Transaction) (height : UInt32) (working : UtxoSet) : Option UtxoSet :=
  (spendInputs tx.inputs working >>= addOutputs tx height false).toOption

structure Selection where
  working : UtxoSet
  totalFees : UInt64
  currentSize : Nat
  chosen : List Transaction

/-- One turn of the selection loop. An entry whose fee would overflow the total is skipped
after its state transition has been applied to the working set. -/
def considerEntry (params : BlockTemplateParams) (height : UInt32) (entry : Entry)
    (sel : Selection) : Selection :=
  let projected := sel.currentSize + entry.sizeBytes.toNat
  if projected > params.maxBlockSizeBytes.toNat then sel
  else match checkTransactionInputs entry.transaction sel.working with
    | .error _ => sel
    | .ok fee =>
      match checkCoinbaseMaturity entry.transaction sel.working height
          params.consensus.coinbaseMaturity with
      | .error _ => sel
      | .ok () =>
        match tryApply entry.transaction height sel.working with
        | none => sel
        | some working =>
          match checkedAdd sel.totalFees fee with
          | none => { sel with working := working }
          | some newFees => ⟨working, newFees, projected, sel.chosen ++ [entry.transaction]⟩

def selectTransactions (params : BlockTemplateParams) (height : UInt32) :
    List Entry → Selection → Selection
  | [], sel => sel
  | entry :: rest, sel =>
    if sel.chosen.length ≥ params.maxTransactions.toNat then sel
    else selectTransactions params height rest (considerEntry params height entry sel)

def buildBlockTemplate (tip : BlockHeader) (timestamp : UInt64) (mempool : Mempool)
    (utxos : UtxoSet) (params : BlockTemplateParams) : Result BlockTemplate :=
  if tip.height = kUint32Max then makeError .invalidBlock "chain height would overflow"
  else
    let height := tip.height + 1
    let header : BlockHeader := ⟨params.version, tip.hash, zeroHash, timestamp, height⟩
    let placeholder := makeCoinbase height params.consensus.blockSubsidy params.coinbaseRecipient
    let start : Selection := ⟨utxos, 0, (⟨header, [placeholder]⟩ : Block).toBytes.length, []⟩
    let sel := selectTransactions params height mempool.entriesByFeerate start
    match checkedAdd params.consensus.blockSubsidy sel.totalFees with
    | none => makeError .invalidBlock "coinbase reward overflow"
    | some reward =>
      let transactions := makeCoinbase height reward params.coinbaseRecipient :: sel.chosen
      let block : Block :=
          ⟨{ header with merkleRoot := computeMerkleRoot transactions }, transactions⟩
      match connectBlock block utxos params.consensus with
      | .error e => makeError .invalidBlock ("produced block failed validation: " ++ e.message)
      | .ok (fees, _) => .ok ⟨block, fees, sel.chosen.length⟩

theorem makeCoinbase_isCoinbase (height : UInt32) (value : UInt64) (recipient : Hash256) :
    (makeCoinbase height value recipient).isCoinbase = true := by
  simp [makeCoinbase, Transaction.isCoinbase]

/-- What one turn can do: skip the entry, select it, or, when its fee would overflow the
total, only apply it to the working set. -/
theorem considerEntry_cases (params : BlockTemplateParams) (height : UInt32) (entry : Entry)
    (sel : Selection) :
    considerEntry params height entry sel = sel ∨
    ∃ fee working,
      sel.currentSize + entry.sizeBytes.toNat ≤ params.maxBlockSizeBytes.toNat ∧
      checkTransactionInputs entry.transaction sel.working = .ok fee ∧
      checkCoinbaseMaturity entry.transaction sel.working height
        params.consensus.coinbaseMaturity = .ok () ∧
      (spendInputs entry.transaction.inputs sel.working >>=
        addOutputs entry.transaction height false) = .ok working ∧
      ((checkedAdd sel.totalFees fee = none ∧
          considerEntry params height entry sel = { sel with working := working }) ∨
        ∃ fees, checkedAdd sel.totalFees fee = some fees ∧
          considerEntry params height entry sel =
            ⟨working, fees, sel.currentSize + entry.sizeBytes.toNat,
              sel.chosen ++ [entry.transaction]⟩) := by
  unfold considerEntry
  by_cases hsize : sel.currentSize + entry.sizeBytes.toNat > params.maxBlockSizeBytes.toNat
  · simp [hsize]
  · simp only [hsize, if_false]
    cases hfee : checkTransactionInputs entry.transaction sel.working with
    | error e => exact .inl rfl
    | ok fee =>
      cases hmature : checkCoinbaseMaturity entry.transaction sel.working height
          params.consensus.coinbaseMaturity with
      | error e => exact .inl rfl
      | ok u =>
        cases happly : spendInputs entry.transaction.inputs sel.working >>=
            addOutputs entry.transaction height false with
        | error e =>
          left
          simp [tryApply, happly, Except.toOption]
        | ok working =>
          refine .inr ⟨fee, working, Nat.not_lt.mp hsize, rfl, rfl, rfl, ?_⟩
          cases hadd : checkedAdd sel.totalFees fee with
          | none => simp [tryApply, happly, Except.toOption, hadd]
          | some fees => simp [tryApply, happly, Except.toOption, hadd]

theorem considerEntry_takes {params : BlockTemplateParams} {height : UInt32} {entry : Entry}
    {sel : Selection} {fee newFees : UInt64} {working : UtxoSet}
    (hsize : sel.currentSize + entry.sizeBytes.toNat ≤ params.maxBlockSizeBytes.toNat)
    (hfee : checkTransactionInputs entry.transaction sel.working = .ok fee)
    (hmature : checkCoinbaseMaturity entry.transaction sel.working height
      params.consensus.coinbaseMaturity = .ok ())
    (happly : tryApply entry.transaction height sel.working = some working)
    (hadd : checkedAdd sel.totalFees fee = some newFees) :
    considerEntry params height entry sel =
      ⟨working, newFees, sel.currentSize + entry.sizeBytes.toNat,
        sel.chosen ++ [entry.transaction]⟩ := by
  simp only [considerEntry, if_neg (Nat.not_lt.mpr hsize), hfee, hmature, happly, hadd]

theorem considerEntry_chosen (params : BlockTemplateParams) (height : UInt32) (entry : Entry)
    (sel : Selection) :
    (considerEntry params height entry sel).chosen = sel.chosen ∨
    (considerEntry params height entry sel).chosen = sel.chosen ++ [entry.transaction] := by
  obtain hskip | ⟨fee, working, _, _, _, _, ⟨_, hstep⟩ | ⟨fees, _, hstep⟩⟩ :=
    considerEntry_cases params height entry sel
  · exact .inl (by rw [hskip])
  · exact .inl (by rw [hstep])
  · exact .inr (by rw [hstep])

theorem selectTransactions_chosen (params : BlockTemplateParams) (height : UInt32)
    (entries : List Entry) (sel : Selection) :
    ∃ picked, picked.Sublist (entries.map Entry.transaction) ∧
      (selectTransactions params height entries sel).chosen = sel.chosen ++ picked := by
  induction entries generalizing sel with
  | nil => exact ⟨[], List.Sublist.refl _, by simp [selectTransactions]⟩
  | cons entry rest ih =>
    rw [selectTransactions]
    by_cases hfull : sel.chosen.length ≥ params.maxTransactions.toNat
    · exact ⟨[], List.nil_sublist _, by simp [hfull]⟩
    · obtain ⟨picked, hsub, hchosen⟩ := ih (considerEntry params height entry sel)
      rw [if_neg hfull, hchosen]
      cases considerEntry_chosen params height entry sel with
      | inl hsame => exact ⟨picked, hsub.cons _, by rw [hsame]⟩
      | inr hadd => exact ⟨entry.transaction :: picked, hsub.cons_cons _, by simp [hadd]⟩

/-! A template through the parts the builder computes. -/

def templateSelection (tip : BlockHeader) (timestamp : UInt64) (mempool : Mempool)
    (utxos : UtxoSet) (params : BlockTemplateParams) : Selection :=
  let height := tip.height + 1
  let header : BlockHeader := ⟨params.version, tip.hash, zeroHash, timestamp, height⟩
  let placeholder := makeCoinbase height params.consensus.blockSubsidy params.coinbaseRecipient
  selectTransactions params height mempool.entriesByFeerate
    ⟨utxos, 0, (⟨header, [placeholder]⟩ : Block).toBytes.length, []⟩

def templateBlock (tip : BlockHeader) (timestamp : UInt64) (params : BlockTemplateParams)
    (reward : UInt64) (chosen : List Transaction) : Block :=
  let transactions := makeCoinbase (tip.height + 1) reward params.coinbaseRecipient :: chosen
  ⟨⟨params.version, tip.hash, computeMerkleRoot transactions, timestamp, tip.height + 1⟩,
    transactions⟩

theorem buildBlockTemplate_eq {tip : BlockHeader} (timestamp : UInt64) (mempool : Mempool)
    (utxos : UtxoSet) (params : BlockTemplateParams) (h : tip.height ≠ kUint32Max) :
    buildBlockTemplate tip timestamp mempool utxos params =
      let sel := templateSelection tip timestamp mempool utxos params
      match checkedAdd params.consensus.blockSubsidy sel.totalFees with
      | none => makeError .invalidBlock "coinbase reward overflow"
      | some reward =>
        let block := templateBlock tip timestamp params reward sel.chosen
        match connectBlock block utxos params.consensus with
        | .error e => makeError .invalidBlock ("produced block failed validation: " ++ e.message)
        | .ok (fees, _) => .ok ⟨block, fees, sel.chosen.length⟩ := by
  rw [buildBlockTemplate, if_neg h]
  rfl

theorem buildBlockTemplate_eq_ok {tip : BlockHeader} {timestamp : UInt64} {mempool : Mempool}
    {utxos : UtxoSet} {params : BlockTemplateParams} {tmpl : BlockTemplate} :
    buildBlockTemplate tip timestamp mempool utxos params = .ok tmpl ↔
      tip.height ≠ kUint32Max ∧
      ∃ reward next,
        checkedAdd params.consensus.blockSubsidy
          (templateSelection tip timestamp mempool utxos params).totalFees = some reward ∧
        connectBlock (templateBlock tip timestamp params reward
          (templateSelection tip timestamp mempool utxos params).chosen) utxos params.consensus =
            .ok (tmpl.totalFees, next) ∧
        tmpl = ⟨templateBlock tip timestamp params reward
          (templateSelection tip timestamp mempool utxos params).chosen, tmpl.totalFees,
          (templateSelection tip timestamp mempool utxos params).chosen.length⟩ := by
  by_cases hmax : tip.height = kUint32Max
  · simp [buildBlockTemplate, hmax]
  · rw [buildBlockTemplate_eq timestamp mempool utxos params hmax]
    simp only [ne_eq, hmax, not_false_eq_true, true_and]
    cases hreward : checkedAdd params.consensus.blockSubsidy
        (templateSelection tip timestamp mempool utxos params).totalFees with
    | none => simp
    | some reward =>
      cases hconn : connectBlock (templateBlock tip timestamp params reward
          (templateSelection tip timestamp mempool utxos params).chosen) utxos params.consensus with
      | error e => simp [hconn]
      | ok r =>
        obtain ⟨fees, next⟩ := r
        simp only [hconn, Except.ok.injEq, Option.some.injEq]
        constructor
        · intro h
          exact ⟨reward, next, rfl, by simp [hconn, ← h], by simp [← h]⟩
        · intro h
          obtain ⟨_, _, rfl, hsame, h⟩ := h
          rw [hconn, Except.ok.injEq, Prod.mk.injEq] at hsame
          rw [hsame.1]
          exact h.symm

theorem templateSelection_mem {tip : BlockHeader} {timestamp : UInt64} {mempool : Mempool}
    {utxos : UtxoSet} {params : BlockTemplateParams} {tx : Transaction}
    (h : tx ∈ (templateSelection tip timestamp mempool utxos params).chosen) :
    ∃ id e, mempool.byTxid.find? id = some e ∧ e.transaction = tx := by
  obtain ⟨picked, hsub, hchosen⟩ := selectTransactions_chosen params (tip.height + 1)
    mempool.entriesByFeerate _
  rw [templateSelection, hchosen, List.nil_append] at h
  obtain ⟨e, he, rfl⟩ := List.mem_map.mp (hsub.subset h)
  obtain ⟨⟨id, e'⟩, hin, rfl⟩ := List.mem_map.mp (List.mem_insertionSort _ |>.mp he)
  exact ⟨id, e', (mempool.byTxid.find?_eq_some_iff _ _).mpr hin, rfl⟩

theorem buildBlockTemplate_ok {tip : BlockHeader} {timestamp : UInt64} {mempool : Mempool}
    {utxos : UtxoSet} {params : BlockTemplateParams} {tmpl : BlockTemplate}
    (h : buildBlockTemplate tip timestamp mempool utxos params = .ok tmpl) :
    (∃ next, connectBlock tmpl.block utxos params.consensus = .ok (tmpl.totalFees, next)) ∧
    ∀ tx ∈ tmpl.block.transactions, tx.isCoinbase = true ∨
      ∃ id e, mempool.byTxid.find? id = some e ∧ e.transaction = tx := by
  obtain ⟨_, reward, next, _, hconn, htmpl⟩ := buildBlockTemplate_eq_ok.mp h
  rw [htmpl]
  refine ⟨⟨next, hconn⟩, ?_⟩
  intro tx htx
  cases List.mem_cons.mp htx with
  | inl hcb => exact .inl (by rw [hcb]; exact makeCoinbase_isCoinbase _ _ _)
  | inr hsel => exact .inr (templateSelection_mem hsel)

theorem buildBlockTemplate_connected {tip : BlockHeader} {timestamp : UInt64} {mempool : Mempool}
    {utxos : UtxoSet} {params : BlockTemplateParams} {tmpl : BlockTemplate}
    (h : buildBlockTemplate tip timestamp mempool utxos params = .ok tmpl) :
    ∃ next, connectBlock tmpl.block utxos params.consensus = .ok (tmpl.totalFees, next) := by
  obtain ⟨_, reward, next, _, hconn, hshape⟩ := buildBlockTemplate_eq_ok.mp h
  have hblock := congrArg BlockTemplate.block hshape
  exact ⟨next, by rw [hblock]; exact hconn⟩

/-! The reward of the first height, and the coin it is. -/

def reward : Transaction := makeCoinbase 1 50 zeroHash

def rewardCoins : UtxoSet := UtxoSet.empty.insert ⟨reward.txid, 0⟩ ⟨⟨50, zeroHash⟩, 1, true⟩

theorem reward_sane : reward.Sane := single_sane rfl rfl (by decide)

theorem rewardCoins_find : rewardCoins.find ⟨reward.txid, 0⟩ = some ⟨⟨50, zeroHash⟩, 1, true⟩ :=
  OrderedMap.find?_insert_self _ _ _

end Blockchain
