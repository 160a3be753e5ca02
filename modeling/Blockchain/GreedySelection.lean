import Blockchain.Production
import Blockchain.Eviction

/-! The selection loop as a greedy choice. Pool entries that are valid on the set and whose
outputs are not in it do not touch each other, so the loop leaves one out only for its size,
its immature input or the count. -/
namespace Blockchain
open Lib

/-- Whether the template takes an entry after those it has taken: by count, by size with the
coinbase, and by maturity on the set the block connects to. -/
def templateTakes (params : BlockTemplateParams) (height : UInt32) (utxos : UtxoSet)
    (taken : List Entry) (entry : Entry) : Bool :=
  decide (taken.length < params.maxTransactions.toNat) &&
  decide (176 + (taken.map fun e => e.sizeBytes.toNat).sum + entry.sizeBytes.toNat ≤
    params.maxBlockSizeBytes.toNat) &&
  (checkCoinbaseMaturity entry.transaction utxos height params.consensus.coinbaseMaturity).isOk

theorem templateTakes_iff {params : BlockTemplateParams} {height : UInt32} {utxos : UtxoSet}
    {taken : List Entry} {entry : Entry} :
    templateTakes params height utxos taken entry = true ↔
      taken.length < params.maxTransactions.toNat ∧
      176 + (taken.map fun e => e.sizeBytes.toNat).sum + entry.sizeBytes.toNat ≤
        params.maxBlockSizeBytes.toNat ∧
      checkCoinbaseMaturity entry.transaction utxos height params.consensus.coinbaseMaturity =
        .ok () := by
  rw [templateTakes, Bool.and_eq_true, Bool.and_eq_true, decide_eq_true_eq, decide_eq_true_eq,
    and_assoc]
  cases checkCoinbaseMaturity entry.transaction utxos height params.consensus.coinbaseMaturity with
  | error e => simp [Except.isOk, Except.toBool]
  | ok u => simp [Except.isOk, Except.toBool]

/-- Entries that are each valid on the set with their recorded fee, and do not touch each
other's coins. -/
structure Independent (utxos : UtxoSet) (entries : List Entry) : Prop where
  sane : ∀ e ∈ entries, e.transaction.Sane ∧ e.transaction.isCoinbase = false
  valid : ∀ e ∈ entries, checkTransactionInputs e.transaction utxos = .ok e.fee
  fresh : ∀ e ∈ entries, ∀ j, j < e.transaction.outputs.length →
    utxos.find ⟨e.transaction.txid, UInt32.ofNat j⟩ = none
  inputs : entries.Pairwise fun a b => ∀ o ∈ a.transaction.prevouts, o ∉ b.transaction.prevouts
  ids : entries.Pairwise fun a b => a.transaction.txid ≠ b.transaction.txid

theorem Independent.tail {utxos : UtxoSet} {e : Entry} {rest : List Entry}
    (h : Independent utxos (e :: rest)) : Independent utxos rest where
  sane := fun x hx => h.sane x (List.mem_cons_of_mem _ hx)
  valid := fun x hx => h.valid x (List.mem_cons_of_mem _ hx)
  fresh := fun x hx => h.fresh x (List.mem_cons_of_mem _ hx)
  inputs := (List.pairwise_cons.mp h.inputs).2
  ids := (List.pairwise_cons.mp h.ids).2

theorem Independent.perm {utxos : UtxoSet} {entries entries' : List Entry}
    (h : Independent utxos entries) (hperm : entries.Perm entries') :
    Independent utxos entries' where
  sane := fun e he => h.sane e (hperm.mem_iff.mpr he)
  valid := fun e he => h.valid e (hperm.mem_iff.mpr he)
  fresh := fun e he => h.fresh e (hperm.mem_iff.mpr he)
  inputs := hperm.pairwise h.inputs fun hab o ho ho' => hab o ho' ho
  ids := hperm.pairwise h.ids Ne.symm

theorem Mempool.RepInv.independent {pool : Mempool} (h : pool.RepInv) (hadm : pool.Admitted)
    {utxos : UtxoSet}
    (hvalid : ∀ e ∈ pool.byTxid.values, checkTransactionInputs e.transaction utxos = .ok e.fee)
    (hfresh : ∀ e ∈ pool.byTxid.values, ∀ j, j < e.transaction.outputs.length →
      utxos.find ⟨e.transaction.txid, UInt32.ofNat j⟩ = none) :
    Independent utxos pool.entriesByFeerate := by
  have hmem : ∀ e, e ∈ pool.entriesByFeerate ↔ e ∈ pool.byTxid.values :=
    fun e => List.mem_insertionSort _
  have hfind : ∀ e ∈ pool.entriesByFeerate, pool.byTxid.find? e.txid = some e :=
    fun e he => (mem_values_iff h).mp ((hmem e).mp he)
  have hperm : pool.entriesByFeerate.Perm pool.byTxid.values := List.perm_insertionSort _ _
  have hids : pool.entriesByFeerate.Pairwise fun a b => a.txid ≠ b.txid :=
    List.pairwise_map.mp ((hperm.map _).nodup_iff.mpr h.txids_nodup)
  refine ⟨fun e he => hadm _ _ (hfind e he), fun e he => hvalid e ((hmem e).mp he),
    fun e he => hfresh e ((hmem e).mp he), ?_, ?_⟩
  · refine hids.imp_of_mem fun ha hb hne o ho ho' => hne ?_
    exact h.no_conflict (hfind _ ha) (hfind _ hb) ho ho'
  · refine hids.imp_of_mem fun ha hb hne heq => hne ?_
    rw [(h.key_eq _ _ (hfind _ ha)).2, (h.key_eq _ _ (hfind _ hb)).2, heq]

/-- The loop after it has taken `taken`, with `rest` still to come: what is taken connects,
each at its recorded fee, and the coins of the rest are as they were. -/
structure Selection.Follows (params : BlockTemplateParams) (height : UInt32) (utxos : UtxoSet)
    (taken rest : List Entry) (sel : Selection) : Prop where
  chosen_eq : sel.chosen = taken.map Entry.transaction
  connects : connectTransactions params.consensus height sel.chosen utxos 0 =
    .ok (sel.working, sel.totalFees)
  fees_eq : sel.totalFees.toNat = (taken.map fun e => e.fee.toNat).sum
  recorded : ∀ before e after, taken = before ++ e :: after → ∃ set fees,
    connectTransactions params.consensus height (before.map Entry.transaction) utxos 0 =
      .ok (set, fees) ∧ checkTransactionInputs e.transaction set = .ok e.fee
  size_eq : sel.currentSize = 176 + (taken.map fun e => e.sizeBytes.toNat).sum
  coins : sel.working.WithinMoney
  inputs_kept : ∀ e ∈ rest, ∀ o ∈ e.transaction.prevouts, sel.working.find o = utxos.find o
  outputs_free : ∀ e ∈ rest, ∀ j, j < e.transaction.outputs.length →
    sel.working.find ⟨e.transaction.txid, UInt32.ofNat j⟩ = none

namespace Selection.Follows
variable {params : BlockTemplateParams} {height : UInt32} {utxos : UtxoSet}
  {taken rest : List Entry} {entry : Entry} {sel : Selection}

theorem start (params : BlockTemplateParams) (height : UInt32) (hcoins : utxos.WithinMoney)
    (hind : Independent utxos rest) :
    Follows params height utxos [] rest ⟨utxos, 0, 176, []⟩ :=
  ⟨rfl, rfl, rfl, by simp, rfl, hcoins, fun _ _ _ _ => rfl, hind.fresh⟩

theorem weaken (h : sel.Follows params height utxos taken rest) :
    sel.Follows params height utxos taken [] :=
  { h with inputs_kept := by simp, outputs_free := by simp }

theorem tail (h : sel.Follows params height utxos taken (entry :: rest)) :
    sel.Follows params height utxos taken rest :=
  { h with
    inputs_kept := fun e he => h.inputs_kept e (List.mem_cons_of_mem _ he)
    outputs_free := fun e he => h.outputs_free e (List.mem_cons_of_mem _ he) }

theorem fee_ok (h : sel.Follows params height utxos taken (entry :: rest))
    (hind : Independent utxos (entry :: rest)) :
    checkTransactionInputs entry.transaction sel.working = .ok entry.fee := by
  rw [checkTransactionInputs_congr _ (h.inputs_kept entry List.mem_cons_self)]
  exact hind.valid entry List.mem_cons_self

theorem maturity_eq (h : sel.Follows params height utxos taken (entry :: rest)) :
    checkCoinbaseMaturity entry.transaction sel.working height params.consensus.coinbaseMaturity =
      checkCoinbaseMaturity entry.transaction utxos height params.consensus.coinbaseMaturity :=
  checkCoinbaseMaturity_congr _ _ _ (h.inputs_kept entry List.mem_cons_self)

theorem skip (h : sel.Follows params height utxos taken (entry :: rest))
    (hcount : taken.length < params.maxTransactions.toNat)
    (hnot : templateTakes params height utxos taken entry = false) :
    considerEntry params height entry sel = sel := by
  obtain hskip | ⟨fee, working, hfits, _, hmature, _⟩ := considerEntry_cases params height entry sel
  · exact hskip
  · rw [h.maturity_eq] at hmature
    rw [h.size_eq] at hfits
    have htakes := templateTakes_iff.mpr ⟨hcount, hfits, hmature⟩
    simp [htakes] at hnot

theorem apart (hind : Independent utxos (entry :: rest)) {e : Entry} (he : e ∈ rest) :
    (∀ o ∈ e.transaction.prevouts, o ∉ entry.transaction.prevouts ∧
      createdCoins height entry.transaction o = none) ∧
    ∀ j, createdCoins height entry.transaction ⟨e.transaction.txid, UInt32.ofNat j⟩ = none := by
  have hids := (List.pairwise_cons.mp hind.ids).1 e he
  constructor
  · intro o ho
    refine ⟨fun ho' => (List.pairwise_cons.mp hind.inputs).1 e he o ho' ho, ?_⟩
    by_contra hcreated
    obtain ⟨c, hc⟩ := Option.ne_none_iff_exists'.mp hcreated
    obtain ⟨hid, hout, _⟩ := createdCoins_eq_some.mp hc
    have hlt : o.index.toNat < entry.transaction.outputs.length :=
      (List.getElem?_eq_some_iff.mp hout).1
    have hnone := hind.fresh entry List.mem_cons_self _ hlt
    rw [hid, UInt32.ofNat_toNat] at hnone
    obtain ⟨hs, _⟩ := hind.sane e (List.mem_cons_of_mem _ he)
    have hsome := (checkTransactionInputs_ok hs (hind.valid e (List.mem_cons_of_mem _ he))).1 o ho
    simp [hnone] at hsome
  · intro j
    rw [createdCoins, if_neg (Ne.symm hids)]

theorem applied (h : sel.Follows params height utxos taken (entry :: rest))
    (hind : Independent utxos (entry :: rest)) :
    ∃ next, (spendInputs entry.transaction.inputs sel.working >>=
        addOutputs entry.transaction height false) = .ok next ∧ next.WithinMoney ∧
      (∀ e ∈ rest, ∀ o ∈ e.transaction.prevouts, next.find o = utxos.find o) ∧
      ∀ e ∈ rest, ∀ j, j < e.transaction.outputs.length →
        next.find ⟨e.transaction.txid, UInt32.ofNat j⟩ = none := by
  obtain ⟨hs, hcb⟩ := hind.sane entry List.mem_cons_self
  have hpresent := (checkTransactionInputs_ok hs (h.fee_ok hind)).1
  obtain ⟨next, happly⟩ :=
    hs.applies hpresent (h.outputs_free entry List.mem_cons_self) height false
  have hfind : ∀ o, next.find o = (createdCoins height entry.transaction o).or
      (if o ∈ entry.transaction.prevouts then none else sel.working.find o) := by
    obtain ⟨spent, hspend, hadd⟩ := bind_eq_ok.mp happly
    rw [← hcb] at hadd
    intro o
    rw [(addOutputs_ok hs.limits hadd).2.1 o, (spendInputs_ok hspend).2.1 o]
    rfl
  refine ⟨next, happly, h.coins.applied hs hcb happly, ?_, ?_⟩
  · intro e he o ho
    obtain ⟨hnot, hnone⟩ := (apart hind he).1 o ho
    rw [hfind, hnone, Option.none_or, if_neg hnot]
    exact h.inputs_kept e (List.mem_cons_of_mem _ he) o ho
  · intro e he j hj
    rw [hfind, (apart hind he).2 j, Option.none_or,
      h.outputs_free e (List.mem_cons_of_mem _ he) j hj]
    exact ite_self _

theorem connect (h : sel.Follows params height utxos taken (entry :: rest))
    (hind : Independent utxos (entry :: rest))
    (hmature : checkCoinbaseMaturity entry.transaction utxos height
      params.consensus.coinbaseMaturity = .ok ()) {fees : UInt64}
    (hadd : checkedAdd sel.totalFees entry.fee = some fees) :
    ∃ next, tryApply entry.transaction height sel.working = some next ∧
      Follows params height utxos (taken ++ [entry]) rest
        ⟨next, fees, sel.currentSize + entry.sizeBytes.toNat,
          sel.chosen ++ [entry.transaction]⟩ := by
  rw [← h.maturity_eq] at hmature
  have hfee := h.fee_ok hind
  have hconn := h.connects
  obtain ⟨next, happly, hcoins, hinputs, houtputs⟩ := h.applied hind
  refine ⟨next, by rw [tryApply, happly]; rfl, ?_, ?_, ?_, ?_, ?_, hcoins, hinputs, houtputs⟩
  · simp [h.chosen_eq]
  · obtain ⟨spent, hspend, houts⟩ := bind_eq_ok.mp happly
    simp only [connectTransactions_append, hconn, ok_bind, connectTransactions,
      connectTransaction, hfee, hmature, hspend, houts, addFee, hadd]
  · simp [checkedAdd_toNat hadd, h.fees_eq]
  · intro before e after hsplit
    -- the new entry is the last one, so it is the one looked at or stands behind it
    cases hafter : after.reverse with
    | nil =>
      obtain rfl := List.reverse_eq_nil_iff.mp hafter
      obtain ⟨rfl, heq⟩ := List.append_inj' hsplit rfl
      obtain rfl := List.singleton_inj.mp heq
      rw [← h.chosen_eq]
      exact ⟨sel.working, sel.totalFees, hconn, hfee⟩
    | cons y ys =>
      have hlast : after = ys.reverse ++ [y] := by
        rw [← List.reverse_reverse after, hafter, List.reverse_cons]
      rw [hlast, ← List.cons_append, ← List.append_assoc] at hsplit
      exact h.recorded before e ys.reverse (List.append_inj' hsplit rfl).1
  · simp [h.size_eq, Nat.add_assoc]

theorem take (h : sel.Follows params height utxos taken (entry :: rest))
    (hind : Independent utxos (entry :: rest))
    (htakes : templateTakes params height utxos taken entry = true) :
    (considerEntry params height entry sel).Follows params height utxos (taken ++ [entry]) rest ∨
      kMaxMoney.toNat < sel.totalFees.toNat := by
  obtain ⟨_, hfits, hmature⟩ := templateTakes_iff.mp htakes
  rw [← h.size_eq] at hfits
  have hfee := h.fee_ok hind
  cases hadd : checkedAdd sel.totalFees entry.fee with
  | none => exact Or.inr (h.coins.fee_bound (hind.sane entry List.mem_cons_self).1 hfee hadd)
  | some fees =>
    obtain ⟨next, happly, hnext⟩ := h.connect hind hmature hadd
    left
    rw [← h.maturity_eq] at hmature
    have hstep : considerEntry params height entry sel =
        ⟨next, fees, sel.currentSize + entry.sizeBytes.toNat,
          sel.chosen ++ [entry.transaction]⟩ := by
      simp only [considerEntry, if_neg (Nat.not_lt.mpr hfits), hfee, hmature, happly, hadd]
    rw [hstep]
    exact hnext

theorem connect_all (h : sel.Follows params height utxos taken rest) (hind : Independent utxos rest)
    (hmature : ∀ e ∈ rest, checkCoinbaseMaturity e.transaction utxos height
      params.consensus.coinbaseMaturity = .ok ())
    (hmoney : sel.totalFees.toNat + (rest.map fun e => e.fee.toNat).sum ≤ kMaxMoney.toNat) :
    ∃ sel' : Selection, sel'.Follows params height utxos (taken ++ rest) [] := by
  induction rest generalizing taken sel with
  | nil => exact ⟨sel, by rwa [List.append_nil]⟩
  | cons entry rest ih =>
    rw [List.map_cons, List.sum_cons] at hmoney
    have hmax : kMaxMoney.toNat < 2 ^ 64 := by decide
    have hadd := checkedAdd_eq_some.mpr
      ⟨(by omega : sel.totalFees.toNat + entry.fee.toNat < 2 ^ 64), rfl⟩
    obtain ⟨next, _, hnext⟩ := h.connect hind (hmature entry List.mem_cons_self) hadd
    have hmoney' : (sel.totalFees + entry.fee).toNat + (rest.map fun e => e.fee.toNat).sum ≤
        kMaxMoney.toNat := by
      rw [checkedAdd_toNat hadd]
      omega
    obtain ⟨sel', hsel'⟩ :=
      ih hnext hind.tail (fun e he => hmature e (List.mem_cons_of_mem _ he)) hmoney'
    exact ⟨sel', by rwa [List.append_assoc] at hsel'⟩

end Selection.Follows

theorem selectTransactions_totalFees (params : BlockTemplateParams) (height : UInt32)
    (entries : List Entry) (sel : Selection) :
    sel.totalFees.toNat ≤ (selectTransactions params height entries sel).totalFees.toNat := by
  induction entries generalizing sel with
  | nil => exact Nat.le_refl _
  | cons entry rest ih =>
    rw [selectTransactions]
    split
    · exact Nat.le_refl _
    · refine Nat.le_trans ?_ (ih (considerEntry params height entry sel))
      obtain hskip | ⟨fee, working, _, _, _, _, ⟨_, hstep⟩ | ⟨fees, hadd, hstep⟩⟩ :=
        considerEntry_cases params height entry sel
      · rw [hskip]
      · rw [hstep]
      · rw [hstep, checkedAdd_toNat hadd]
        exact Nat.le_add_right _ _

/-- The whole loop is the greedy choice, unless the total has left the money range. -/
theorem Selection.Follows.run {params : BlockTemplateParams} {height : UInt32} {utxos : UtxoSet}
    {taken entries : List Entry} {sel : Selection}
    (h : sel.Follows params height utxos taken entries) (hind : Independent utxos entries) :
    (selectTransactions params height entries sel).Follows params height utxos
        (greedy (templateTakes params height utxos) taken entries) [] ∨
      kMaxMoney.toNat < (selectTransactions params height entries sel).totalFees.toNat := by
  induction entries generalizing taken sel with
  | nil => exact Or.inl h
  | cons entry rest ih =>
    rw [selectTransactions]
    have hlen : sel.chosen.length = taken.length := by rw [h.chosen_eq, List.length_map]
    by_cases hfull : sel.chosen.length ≥ params.maxTransactions.toNat
    · rw [if_pos hfull, greedy_full]
      · exact Or.inl h.weaken
      · intro item
        rw [Bool.eq_false_iff, ne_eq, templateTakes_iff]
        omega
    · rw [if_neg hfull, greedy]
      by_cases htakes : templateTakes params height utxos taken entry = true
      · rw [if_pos htakes]
        obtain htaken | hbig := h.take hind htakes
        · exact ih htaken hind.tail
        · refine Or.inr (Nat.lt_of_lt_of_le hbig ?_)
          have hall := selectTransactions_totalFees params height (entry :: rest) sel
          rwa [selectTransactions, if_neg hfull] at hall
      · rw [if_neg htakes, h.skip (by omega) (Bool.eq_false_of_not_eq_true htakes)]
        exact ih h.tail hind.tail

def SpendsImmature (utxos : UtxoSet) (height maturity : UInt32) (tx : Transaction) : Prop :=
  ∃ o ∈ tx.prevouts, ∃ coin, utxos.find o = some coin ∧ coin.coinbase = true ∧
    height.toNat < coin.height.toNat + maturity.toNat

theorem checkCoinbaseMaturity_iff {tx : Transaction} {utxos : UtxoSet} {height maturity : UInt32} :
    checkCoinbaseMaturity tx utxos height maturity = .ok () ↔
      ¬ SpendsImmature utxos height maturity tx := by
  rw [checkCoinbaseMaturity_eq_ok, SpendsImmature]
  simp only [not_exists, not_and, Nat.not_lt]

theorem templateTakes_eq_false {params : BlockTemplateParams} {height : UInt32} {utxos : UtxoSet}
    {taken : List Entry} {entry : Entry}
    (h : templateTakes params height utxos taken entry = false) :
    SpendsImmature utxos height params.consensus.coinbaseMaturity entry.transaction ∨
      params.maxTransactions.toNat ≤ taken.length ∨
      params.maxBlockSizeBytes.toNat <
        176 + (taken.map fun e => e.sizeBytes.toNat).sum + entry.sizeBytes.toNat := by
  by_contra hnone
  simp only [not_or, Nat.not_le, Nat.not_lt] at hnone
  obtain ⟨hmature, hcount, hfits⟩ := hnone
  have htakes := templateTakes_iff.mpr ⟨hcount, hfits, checkCoinbaseMaturity_iff.mpr hmature⟩
  exact Bool.false_ne_true (h.symm.trans htakes)

section Template
variable {tip : BlockHeader} {timestamp : UInt64} {pool : Mempool} {utxos : UtxoSet}
  {params : BlockTemplateParams}

theorem templateSelection_greedy (hcoins : utxos.WithinMoney)
    (hind : Independent utxos pool.entriesByFeerate)
    {tmpl : BlockTemplate} (h : buildBlockTemplate tip timestamp pool utxos params = .ok tmpl) :
    (templateSelection tip timestamp pool utxos params).Follows params (tip.height + 1) utxos
      (greedy (templateTakes params (tip.height + 1) utxos) [] pool.entriesByFeerate) [] := by
  obtain hfollows | hbig := (Selection.Follows.start params (tip.height + 1) hcoins hind).run hind
  · rw [templateSelection_eq]
    exact hfollows
  · obtain ⟨_, reward, next, hreward, hconn, _⟩ := buildBlockTemplate_eq_ok.mp h
    have hvalue := ((connectBlock_ok hconn).1.txs_sane _ List.mem_cons_self).value_le
    have hsum := checkedAdd_toNat hreward
    rw [templateSelection_eq] at hsum
    simp [makeCoinbase, outputValue] at hvalue
    omega

theorem entries_block_length (header : BlockHeader) (height : UInt32) (value : UInt64)
    (recipient : Hash256) {entries : List Entry}
    (hsizes : ∀ e ∈ entries, e.sizeBytes.toNat = e.transaction.toBytes.length) :
    (⟨header, makeCoinbase height value recipient :: entries.map Entry.transaction⟩ :
      Block).toBytes.length = 176 + (entries.map fun e => e.sizeBytes.toNat).sum := by
  have hsum : (entries.map fun e => e.sizeBytes.toNat) =
      (entries.map Entry.transaction).map fun tx => tx.toBytes.length := by
    rw [List.map_map]
    exact List.map_congr_left hsizes
  rw [block_toBytes_length, hsum, List.map_cons, List.sum_cons, makeCoinbase_toBytes_length]
  omega

end Template

/-- Selection is greedy without unjustified omissions. Over a pool whose entries are valid on
the set, a template takes a subsequence of the fee-rate order, each entry at its recorded fee
and none immature; an entry is left out only if it is immature, if the count was reached
before it, or if it does not fit after those taken before it. -/
theorem template_selection_greedy (tip : BlockHeader) (timestamp : UInt64) (limits : MempoolLimits)
    (ops : List PoolOp) (utxos : UtxoSet) (params : BlockTemplateParams) (tmpl : BlockTemplate)
    (hcoins : utxos.WithinMoney)
    (hvalid : ∀ e ∈ (ops.foldl PoolOp.apply (Mempool.new limits)).byTxid.values,
      checkTransactionInputs e.transaction utxos = .ok e.fee)
    (hfresh : ∀ e ∈ (ops.foldl PoolOp.apply (Mempool.new limits)).byTxid.values,
      ∀ j, j < e.transaction.outputs.length →
        utxos.find ⟨e.transaction.txid, UInt32.ofNat j⟩ = none)
    (hbuild : buildBlockTemplate tip timestamp (ops.foldl PoolOp.apply (Mempool.new limits)) utxos
      params = .ok tmpl) :
    let entries := (ops.foldl PoolOp.apply (Mempool.new limits)).entriesByFeerate
    let height := tip.height + 1
    ∃ coinbase taken, tmpl.block.transactions = coinbase :: taken.map Entry.transaction ∧
      (∃ reward, coinbase = makeCoinbase height reward params.coinbaseRecipient) ∧
      taken.Sublist entries ∧
      (∀ before e after, taken = before ++ e :: after → ∃ set fees,
        connectTransactions params.consensus height (before.map Entry.transaction) utxos 0 =
          .ok (set, fees) ∧ checkTransactionInputs e.transaction set = .ok e.fee) ∧
      tmpl.totalFees.toNat = (taken.map fun e => e.fee.toNat).sum ∧
      (∀ e ∈ taken, ¬ SpendsImmature utxos height params.consensus.coinbaseMaturity e.transaction) ∧
      (∀ pre e post, entries = pre ++ e :: post → e ∉ taken →
        ∃ before after, taken = before ++ after ∧ before.Sublist pre ∧ after.Sublist post ∧
          (SpendsImmature utxos height params.consensus.coinbaseMaturity e.transaction ∨
            params.maxTransactions.toNat ≤ before.length ∨
            params.maxBlockSizeBytes.toNat < (⟨tmpl.block.header, coinbase ::
              before.map Entry.transaction⟩ : Block).toBytes.length + e.sizeBytes.toNat)) ∧
      ((⟨tmpl.block.header, [coinbase]⟩ : Block).toBytes.length ≤ params.maxBlockSizeBytes.toNat →
        tmpl.block.toBytes.length ≤ params.maxBlockSizeBytes.toNat) := by
  intro entries height
  have hrep := Mempool.run_repInv limits ops
  have hadm := Mempool.run_admitted limits ops
  have hind := hrep.independent hadm hvalid hfresh
  have hfollows := templateSelection_greedy hcoins hind hbuild
  obtain ⟨_, htmpl, _⟩ := buildBlockTemplate_connects hrep hadm hcoins hbuild
  obtain ⟨taken, hsub, htaken⟩ := greedy_sublist (templateTakes params height utxos) [] entries
  rw [List.nil_append] at htaken
  rw [htaken] at hfollows
  have hsizes : ∀ e ∈ entries, e.sizeBytes.toNat = e.transaction.toBytes.length := by
    intro e he
    obtain ⟨id, hfind⟩ := mem_entriesByFeerate.mp he
    exact hrep.size_eq id e hfind
  have hlength := fun (es : List Entry) (hes : es.Sublist entries) =>
    entries_block_length tmpl.block.header height (params.consensus.blockSubsidy +
      (templateSelection tip timestamp (ops.foldl PoolOp.apply (Mempool.new limits)) utxos
        params).totalFees) params.coinbaseRecipient fun e he => hsizes e (hes.subset he)
  have htransactions : tmpl.block.transactions = makeCoinbase height
      (params.consensus.blockSubsidy + (templateSelection tip timestamp
        (ops.foldl PoolOp.apply (Mempool.new limits)) utxos params).totalFees)
      params.coinbaseRecipient :: taken.map Entry.transaction := by
    rw [htmpl, ← hfollows.chosen_eq]
    rfl
  refine ⟨_, taken, htransactions, ⟨_, rfl⟩, hsub, hfollows.recorded, ?_, ?_, ?_, ?_⟩
  · rw [htmpl]
    exact hfollows.fees_eq
  · intro e he
    rw [← htaken] at he
    obtain ⟨before, htakes⟩ := greedy_takes (by simp) e he
    exact checkCoinbaseMaturity_iff.mp (templateTakes_iff.mp htakes).2.2
  · intro pre e post hsplit hout
    -- `before` is what had been taken when `e` was looked at, so its tests are read there
    rw [← htaken, hsplit] at hout
    obtain ⟨before, after, hpre, hpost, hall, hnot⟩ := greedy_left_out hout
    rw [← hsplit, htaken] at hall
    refine ⟨before, after, hall, hpre, hpost, ?_⟩
    have hbefore : before.Sublist entries := by
      rw [hsplit]
      exact hpre.trans (List.sublist_append_left _ _)
    rw [hlength before hbefore]
    exact templateTakes_eq_false hnot
  · intro hbase
    have hagree : (templateSelection tip timestamp (ops.foldl PoolOp.apply (Mempool.new limits))
        utxos params).Agrees params height utxos 176 := templateSelection_agrees hrep hadm hcoins
    have hwhole : tmpl.block.toBytes.length = 176 + (taken.map fun e => e.sizeBytes.toNat).sum := by
      rw [← hlength taken hsub, ← htransactions]
    rw [hwhole, ← hfollows.size_eq]
    obtain hnil | hle := hagree.size_le
    · obtain rfl : taken = [] := List.map_eq_nil_iff.mp (hfollows.chosen_eq.symm.trans hnil)
      rw [hfollows.size_eq, ← hlength [] (List.nil_sublist _)]
      exact hbase
    · exact hle

/-- Of two pooled payments the paid one is taken: it is mature, it fits and nothing was
taken before it. -/
theorem template_takes_payment : ∃ tmpl coinbase, ∃ taken : List Entry,
    buildBlockTemplate firstTip 0 pairPool twoCoins pairParams = .ok tmpl ∧
    tmpl.block.transactions = coinbase :: taken.map Entry.transaction ∧
    taken.Sublist [paidEntry, freeEntry] ∧ paidEntry ∈ taken ∧
    tmpl.totalFees.toNat = (taken.map fun e => e.fee.toNat).sum := by
  obtain ⟨tmpl, hbuild⟩ := pairTemplate_ok
  have hmem : ∀ e ∈ pairPool.byTxid.values, e = freeEntry ∨ e = paidEntry :=
    fun e he => List.mem_pair.mp (pairPool_values.mem_iff.mp he)
  have hvalid : ∀ e ∈ pairPool.byTxid.values,
      checkTransactionInputs e.transaction twoCoins = .ok e.fee := by
    intro e he
    obtain rfl | rfl := hmem e he
    · exact (validateForMempool_ok freePayment_valid).2.2.1
    · exact (validateForMempool_ok paidPayment_valid).2.2.1
  have hfresh : ∀ e ∈ pairPool.byTxid.values, ∀ j, j < e.transaction.outputs.length →
      twoCoins.find ⟨e.transaction.txid, UInt32.ofNat j⟩ = none := by
    intro e he j _
    obtain rfl | rfl := hmem e he
    · exact twoCoins_absent payment_ids_apart.2.1
    · exact twoCoins_absent payment_ids_apart.2.2
  obtain ⟨coinbase, taken, htxs, ⟨reward, rfl⟩, hsub, _, hfees, _, hleft, _⟩ :=
    template_selection_greedy firstTip 0 ⟨2, 184⟩
      [PoolOp.accept paidPayment twoCoins {}, PoolOp.accept freePayment twoCoins {}] twoCoins
      pairParams tmpl twoCoins_withinMoney hvalid hfresh hbuild
  have hentries := pairPool_entries
  rw [pairPool] at hentries
  rw [hentries] at hsub hleft
  refine ⟨tmpl, _, taken, hbuild, htxs, hsub, ?_, hfees⟩
  by_contra hout
  obtain ⟨before, after, _, hnil, _, himmature | hcount | hsize⟩ := hleft [] _ _ rfl hout
  · obtain ⟨o, _, coin, hcoin, hflag, _⟩ := himmature
    rw [(twoCoins_find hcoin).2] at hflag
    exact absurd hflag (by simp)
  · rw [List.sublist_nil.mp hnil] at hcount
    exact absurd hcount (by decide)
  · rw [List.sublist_nil.mp hnil, entries_block_length _ _ _ _ (by simp)] at hsize
    exact absurd hsize (by decide)

end Blockchain
