import Blockchain.DoubleSpend
import Blockchain.FeeRate
import Blockchain.Simulator

/-! Accounting over whole simulator runs: every mined block issues exactly the subsidy, and
every admission ends in a block, in the pool or in an eviction. -/
namespace Blockchain
open Lib

/-! Sizes of the pool. -/

namespace Mempool

theorem size_remove {pool : Mempool} {id : Hash256} {e : Entry}
    (h : pool.byTxid.find? id = some e) :
    (pool.remove id).size + 1 = pool.size := by
  have hlen := (pool.byTxid.erase_perm h).length_eq
  simp only [size, OrderedMap.size, remove_byTxid, List.length_cons] at hlen ⊢
  omega

theorem size_removeAll {pool : Mempool} {ids : List Hash256} (hnodup : ids.Nodup)
    (hall : ∀ id ∈ ids, ∃ e, pool.byTxid.find? id = some e) :
    (pool.removeAll ids).size + ids.length = pool.size := by
  induction ids generalizing pool with
  | nil => rfl
  | cons id ids ih =>
    obtain ⟨hnew, hnodup⟩ := List.nodup_cons.mp hnodup
    obtain ⟨e, he⟩ := hall id List.mem_cons_self
    have hone := size_remove he
    have hrest : ((pool.remove id).removeAll ids).size + ids.length = (pool.remove id).size := by
      refine ih hnodup fun id' hid' => ?_
      obtain ⟨e', he'⟩ := hall id' (List.mem_cons_of_mem _ hid')
      exact ⟨e', find?_remove.mpr ⟨he', fun heq => hnew (heq ▸ hid')⟩⟩
    change ((pool.remove id).removeAll ids).size + (ids.length + 1) = _
    omega

theorem mem_lost {pool after : Mempool} (h : pool.RepInv) {e : Entry} :
    e ∈ pool.lost after ↔ pool.byTxid.find? e.txid = some e ∧ after.byTxid.find? e.txid = none := by
  simp [lost, mem_values_iff h, contains]

theorem RepInv.accept_size {pool after : Mempool} (h : pool.RepInv) {tx : Transaction}
    {utxos : UtxoSet} {policy : MempoolPolicy}
    (ha : pool.accept tx utxos policy = (.ok (), after)) :
    after.size + (pool.lost after).length = pool.size + 1 := by
  obtain ⟨_, _, habsent, _⟩ := accept_ok ha
  obtain ⟨evicted, ⟨⟨e, herror⟩, _⟩ | ⟨admission, _, hfits, hpool⟩⟩ :=
    pool.accept_cases tx utxos policy
  · simp [ha] at herror
  have hafter : after = (pool.removeAll evicted).addEntry (entryOf tx admission) := by
    rw [ha] at hpool
    exact (Prod.mk.inj hpool).2
  have hrest := h.removeAll evicted
  -- what stays is what the admission did not remove
  have hkept : (pool.removeAll evicted).byTxid.values.Perm
      (pool.byTxid.values.filter fun e => after.contains e.txid) := by
    refine (List.perm_ext_iff_of_nodup hrest.txids_nodup.of_map
      (h.txids_nodup.of_map.filter _)).mpr fun e => ?_
    rw [mem_values_iff hrest, List.mem_filter, mem_values_iff h, contains, Option.isSome_iff_exists]
    simp only [hafter, find?_addEntry hfits, find?_removeAll]
    constructor
    · intro he
      exact ⟨he.1, e, .inl he⟩
    · intro he
      obtain ⟨hin, e', ⟨_, hnot⟩ | ⟨hid, _⟩⟩ := he
      · exact ⟨hin, hnot⟩
      · rw [hid] at hin
        have hnone : pool.byTxid.find? (entryOf tx admission).txid = none := habsent
        simp [hnone] at hin
  have hins : after.byTxid = (pool.removeAll evicted).byTxid.insert (entryOf tx admission).txid
      (entryOf tx admission) := by
    rw [hafter]
    exact OrderedMap.emplace_of_none _ hfits.absent
  have hsize := ((pool.removeAll evicted).byTxid.insert_perm (entryOf tx admission)
    hfits.absent).length_eq
  have hsplit := pool.byTxid.values.length_eq_length_filter_add fun e => after.contains e.txid
  have hlen := hkept.length_eq
  have hvalues : ∀ p : Mempool, p.byTxid.values.length = p.size := fun p => by
    simp [OrderedMap.values, size, OrderedMap.size]
  rw [hvalues] at hsplit hlen
  simp only [lost, size, OrderedMap.size, hins] at hsplit hlen ⊢
  rw [List.length_cons] at hsize
  omega

theorem accept_kept {pool after : Mempool} {tx : Transaction} {utxos : UtxoSet}
    {policy : MempoolPolicy} (ha : pool.accept tx utxos policy = (.ok (), after)) {id : Hash256}
    {e : Entry} (he : pool.byTxid.find? id = some e) (hstay : after.byTxid.find? id ≠ none) :
    after.byTxid.find? id = some e := by
  obtain ⟨_, _, habsent, _⟩ := accept_ok ha
  obtain ⟨evicted, ⟨⟨_, herror⟩, _⟩ | ⟨admission, _, hfits, hpool⟩⟩ :=
    pool.accept_cases tx utxos policy
  · simp [ha] at herror
  · rw [ha] at hpool
    rw [(Prod.mk.inj hpool).2] at hstay ⊢
    obtain ⟨e', he'⟩ := Option.ne_none_iff_exists'.mp hstay
    obtain hold | ⟨hid, _⟩ := (find?_addEntry hfits).mp he'
    · have hsame : e' = e := Option.some.inj ((find?_removeAll.mp hold).1.symm.trans he)
      rw [he', hsame]
    · have hnone : pool.byTxid.find? (entryOf tx admission).txid = none := habsent
      rw [hid, hnone] at he
      simp at he

theorem RepInv.evicted_lower {pool after : Mempool} (h : pool.RepInv) {tx : Transaction}
    {utxos : UtxoSet} {policy : MempoolPolicy} {entry e : Entry}
    (ha : pool.accept tx utxos policy = (.ok (), after))
    (hentry : after.byTxid.find? tx.txid = some entry) (he : e ∈ pool.lost after) :
    entry.txid ≠ e.txid ∧
      e.fee.toNat * entry.sizeBytes.toNat < entry.fee.toNat * e.sizeBytes.toNat := by
  obtain ⟨hin, hgone⟩ := (mem_lost h).mp he
  obtain ⟨admission, hval, hfind⟩ := accept_entry ha
  obtain ⟨admission', hval', habsent, hafter⟩ := accept_ok ha
  have hsame : admission' = admission := Except.ok.inj (hval'.symm.trans hval)
  have hnew : entry = entryOf tx admission := Option.some.inj (hentry.symm.trans hfind)
  rw [hsame] at hafter
  rw [hnew]
  refine ⟨?_, ?_⟩
  · intro hid
    rw [← hid] at hin
    have hnone : pool.byTxid.find? (entryOf tx admission).txid = none := habsent
    simp [hnone] at hin
  · rw [← strictlyHigherFeerate_iff]
    rw [hafter] at hgone
    simp only [Mempool.addEntry, OrderedMap.find?_emplace, Option.or_eq_none_iff] at hgone
    exact makeRoom_evicts h hin hgone.1

end Mempool

/-! Supply and coinbases. -/

/-- What mining adds to the invariant of a run: the supply, and coinbases of its own heights. -/
structure SimState.Accounts (config : NodeConfig) (recipient : Hash256)
    (state : SimState) : Prop where
  supply : state.chain.utxos.totalValue =
    state.chain.height.toNat * (buildConsensusParams config).blockSubsidy.toNat
  own : ∀ tx ∈ coinbases state.ledger, ∃ height value,
    height.toNat ≤ state.chain.height.toNat ∧ tx = makeCoinbase height value recipient
  nodup : (coinbases state.ledger).Nodup

theorem coinbases_concat (blocks : List Block) (block : Block) :
    coinbases (blocks ++ [block]) =
      coinbases blocks ++ block.transactions.filter fun tx => tx.isCoinbase := by
  simp [coinbases, confirmed]

section Mined
variable {config : NodeConfig} {recipient : Hash256} {limits : MempoolLimits} {state : SimState}
  {tmpl : BlockTemplate} {fees : UInt64} {chain : Chain} {pool : Mempool}

theorem mined_coinbase
    (htmpl : buildBlockTemplate state.chain.tip
      (blockTimestamp config.genesisTimestamp (state.chain.height + 1)) state.pool
      state.chain.utxos (simTemplate config recipient) = .ok tmpl) :
    ∃ value, tmpl.block.transactions.filter (fun tx => tx.isCoinbase) =
      [makeCoinbase (state.chain.height + 1) value recipient] := by
  obtain ⟨_, reward, next, _, hconn, hshape⟩ := buildBlockTemplate_eq_ok.mp htmpl
  obtain ⟨hsane, _⟩ := connectBlock_ok hconn
  have hlist := hsane.coinbase?_eq
  rw [templateBlock_coinbase?] at hlist
  refine ⟨reward, ?_⟩
  rw [hshape]
  exact hlist.symm

theorem mined_supply (hinv : state.Inv config limits)
    (htmpl : buildBlockTemplate state.chain.tip
      (blockTimestamp config.genesisTimestamp (state.chain.height + 1)) state.pool
      state.chain.utxos (simTemplate config recipient) = .ok tmpl)
    (hs : state.chain.submitBlock tmpl.block (some state.pool) = .ok (fees, chain, some pool)) :
    chain.utxos.totalValue =
      state.chain.utxos.totalValue + (buildConsensusParams config).blockSubsidy.toNat := by
  obtain ⟨_, ⟨utxos, hconn, hchain⟩, _⟩ := Chain.submitBlock_ok.mp hs
  obtain ⟨hreward, hshape, hconn'⟩ :=
    buildBlockTemplate_connects hinv.pool hinv.valid.admitted hinv.accepted.withinMoney htmpl
  rw [hinv.accepted.params_eq] at hconn
  have hsame := hconn.symm.trans hconn'
  obtain ⟨hfees, _⟩ := Prod.mk.inj (Except.ok.inj hsame)
  obtain ⟨_, _, _, htotal, _⟩ := connectBlock_ok hconn
  have hcoinbase : tmpl.block.coinbaseValue =
      (buildConsensusParams config).blockSubsidy.toNat + tmpl.totalFees.toNat := by
    have hblock := congrArg BlockTemplate.block hshape
    rw [Block.coinbaseValue, hblock, templateBlock_coinbase?]
    exact checkedAdd_toNat hreward
  rw [hchain]
  simp only
  rw [hfees, hcoinbase] at htotal
  omega

end Mined

theorem SimState.Accounts.step {config : NodeConfig} {recipient : Hash256} {limits : MempoolLimits}
    {state next : SimState} {event : SimEvent} (h : state.Accounts config recipient)
    (hinv : state.Inv config limits) (hstep : SimTransition config recipient state event next) :
    next.Accounts config recipient := by
  cases hstep with
  | accept ha hentry => exact ⟨h.supply, h.own, h.nodup⟩
  | @mine tmpl fees chain pool htmpl hs =>
    obtain ⟨value, hcb⟩ := mined_coinbase htmpl
    have hsupply := mined_supply hinv htmpl hs
    obtain ⟨hlinks, ⟨utxos, _, hchain⟩, _⟩ := Chain.submitBlock_ok.mp hs
    have hheight : chain.height.toNat = state.chain.height.toNat + 1 := by
      rw [hchain]
      exact hlinks.height_eq
    have hnext : (state.chain.height + 1).toNat = state.chain.height.toNat + 1 := by
      obtain ⟨hne, _⟩ := buildBlockTemplate_eq_ok.mp htmpl
      exact (BlockHeader.emptyNext_linksTo hne).height_eq
    have hledger : coinbases (state.mined tmpl chain pool).ledger =
        coinbases state.ledger ++ [makeCoinbase (state.chain.height + 1) value recipient] := by
      rw [SimState.mined, coinbases_concat, hcb]
    refine ⟨?_, ?_, ?_⟩
    · simp only [SimState.mined, hsupply, hheight, h.supply, Nat.succ_mul]
    · intro tx htx
      rw [hledger, List.mem_append, List.mem_singleton] at htx
      cases htx with
      | inl hold =>
        obtain ⟨height, v, hle, htx⟩ := h.own tx hold
        exact ⟨height, v, by simp only [SimState.mined]; omega, htx⟩
      | inr hnew => exact ⟨_, value, by simp only [SimState.mined]; omega, hnew⟩
    · rw [hledger]
      refine List.nodup_append.mpr ⟨h.nodup, List.nodup_singleton _, ?_⟩
      intro a ha b hb hab
      obtain ⟨height, v, hle, hown⟩ := h.own a ha
      rw [List.mem_singleton.mp hb, hown] at hab
      have hsame := makeCoinbase_height_injective hab
      rw [hsame] at hle
      omega

/-! Counting. -/

def evictionCount (events : List SimEvent) : Nat :=
  (events.map fun
    | .admitted _ evicted => evicted.length
    | .mined _ => 0).sum

def inclusionCount (events : List SimEvent) : Nat :=
  ((minedTemplates events).map BlockTemplate.selectedCount).sum

structure Involves (txs : List Transaction) (state : SimState) (events : List SimEvent) : Prop where
  pool : ∀ id e, state.pool.byTxid.find? id = some e → e.transaction ∈ txs
  admitted : ∀ e ∈ admittedEntries events, e.transaction ∈ txs
  mined : ∀ tmpl ∈ minedTemplates events, ∀ tx ∈ tmpl.block.transactions, tx ∈ txs

section Runs
variable {config : NodeConfig} {recipient : Hash256} {limits : MempoolLimits}
  {state final : SimState} {events : List SimEvent} {txs : List Transaction}

theorem Involves.next {next : SimState} {event : SimEvent}
    (h : Involves txs state (event :: events))
    (hstep : SimTransition config recipient state event next) : Involves txs next events := by
  cases hstep with
  | @accept tx pool entry ha hentry =>
    refine ⟨?_, fun e he => h.admitted e (List.mem_cons_of_mem _ he), h.mined⟩
    intro id e he
    obtain ⟨evicted, ⟨⟨_, herror⟩, _⟩ | ⟨admission, _, hfits, hpool⟩⟩ :=
      state.pool.accept_cases tx state.chain.utxos (resolvedMempoolPolicy config)
    · simp [ha] at herror
    · rw [ha] at hpool
      have hafter := (Prod.mk.inj hpool).2
      have hnew := (Mempool.find?_addEntry hfits).mpr (.inr ⟨rfl, rfl⟩)
      rw [← hafter] at hnew
      change pool.byTxid.find? id = some e at he
      rw [hafter] at he
      obtain he | ⟨_, rfl⟩ := (Mempool.find?_addEntry hfits).mp he
      · exact h.pool id e (Mempool.find?_removeAll.mp he).1
      · have hsame : entry = Mempool.entryOf tx admission :=
          Option.some.inj (hentry.symm.trans hnew)
        rw [← hsame]
        exact h.admitted entry List.mem_cons_self
  | @mine tmpl fees chain pool htmpl hs =>
    obtain ⟨_, _, hpool⟩ := Chain.submitBlock_ok.mp hs
    refine ⟨?_, h.admitted, fun t ht => h.mined t (List.mem_cons_of_mem _ ht)⟩
    intro id e he
    change pool.byTxid.find? id = some e at he
    rw [Option.some.inj hpool] at he
    exact h.pool id e (Mempool.find?_removeAll.mp he).1

theorem Involves.run {es : List SimEvent}
    (hrun : Run (SimTransition config recipient) state es final)
    (h : Involves txs state (es ++ events)) : Involves txs final events := by
  induction hrun with
  | done => exact h
  | next hstep _ ih => exact ih (h.next hstep)

theorem Involves.block_ids {tmpl : BlockTemplate} (h : Involves txs state (.mined tmpl :: events))
    (hcol : DistinctIds txs) :
    ∀ tx ∈ tmpl.block.transactions, ∀ id e, state.pool.byTxid.find? id = some e →
      tx.txid = e.transaction.txid → tx = e.transaction :=
  fun tx htx id e he hid => hcol tx (h.mined tmpl List.mem_cons_self tx htx) e.transaction
    (h.pool id e he) hid

theorem mined_pool_size (hinv : state.Inv config limits) {tmpl : BlockTemplate} {fees : UInt64}
    {chain : Chain} {pool : Mempool}
    (hids : ∀ tx ∈ tmpl.block.transactions, ∀ id e, state.pool.byTxid.find? id = some e →
      tx.txid = e.transaction.txid → tx = e.transaction)
    (htmpl : buildBlockTemplate state.chain.tip
      (blockTimestamp config.genesisTimestamp (state.chain.height + 1)) state.pool
      state.chain.utxos (simTemplate config recipient) = .ok tmpl)
    (hs : state.chain.submitBlock tmpl.block (some state.pool) = .ok (fees, chain, some pool)) :
    pool.size + tmpl.selectedCount = state.pool.size := by
  obtain ⟨_, ⟨utxos, hconn, _⟩, hpool⟩ := Chain.submitBlock_ok.mp hs
  obtain ⟨hcount, hselected⟩ := template_selected hinv.pool htmpl
  have hnodup : (tmpl.block.transactions.tail.map Transaction.txid).Nodup := by
    rw [List.map_tail]
    exact (connectBlock_ok hconn).1.txids_nodup.tail
  have hpruned : pool =
      state.pool.removeAll (tmpl.block.transactions.tail.map Transaction.txid) := by
    rw [Option.some.inj hpool]
    exact template_prunes hinv.pool hinv.valid.admitted hids htmpl
  have hall : ∀ id ∈ tmpl.block.transactions.tail.map Transaction.txid,
      ∃ e, state.pool.byTxid.find? id = some e := by
    intro id hid
    obtain ⟨tx, htx, rfl⟩ := List.mem_map.mp hid
    obtain ⟨e, he, _⟩ := hselected tx htx
    exact ⟨e, he⟩
  rw [hpruned, ← hcount]
  simpa using Mempool.size_removeAll hnodup hall

/-- Every admission is still pooled, was included, or was evicted: the counts agree. -/
theorem run_counts (hrun : Run (SimTransition config recipient) state events final)
    (hinv : state.Inv config limits) (htxs : Involves txs state events) (hcol : DistinctIds txs) :
    state.pool.size + (admittedEntries events).length =
      inclusionCount events + final.pool.size + evictionCount events := by
  induction hrun with
  | done => simp [admittedEntries, inclusionCount, minedTemplates, evictionCount]
  | next hstep _ ih =>
    have hrest := ih (hinv.step hstep) (htxs.next hstep)
    cases hstep with
    | @accept tx pool entry ha hentry =>
      have hsize := hinv.pool.accept_size ha
      simp only [SimState.admitted] at hrest
      simp only [admittedEntries, inclusionCount, minedTemplates, evictionCount,
        List.filterMap_cons, List.length_cons, List.map_cons, List.sum_cons] at hrest ⊢
      omega
    | @mine tmpl fees chain pool htmpl hs =>
      have hsize := mined_pool_size hinv (htxs.block_ids hcol) htmpl hs
      simp only [SimState.mined] at hrest
      simp only [admittedEntries, inclusionCount, minedTemplates, evictionCount,
        List.filterMap_cons, List.map_cons, List.sum_cons] at hrest ⊢
      omega

theorem run_stats (hrun : Run (SimTransition config recipient) state events final) :
    final.stats.txsAdmitted = state.stats.txsAdmitted +
      UInt32.ofNat (admittedEntries events).length ∧
    final.stats.txsIncluded = state.stats.txsIncluded + UInt32.ofNat (inclusionCount events) := by
  induction hrun with
  | done => simp [admittedEntries, inclusionCount, minedTemplates]
  | next hstep _ ih =>
    cases hstep with
    | accept ha hentry =>
      refine ⟨?_, ih.2⟩
      simp only [admittedEntries, List.filterMap_cons, List.length_cons, UInt32.ofNat_add] at ih ⊢
      rw [ih.1, SimState.admitted, UInt32.add_assoc, UInt32.add_comm 1]
      rfl
    | mine htmpl hs =>
      refine ⟨ih.1, ?_⟩
      simp only [inclusionCount, minedTemplates, List.filterMap_cons, List.map_cons, List.sum_cons,
        UInt32.ofNat_add] at ih ⊢
      rw [ih.2, SimState.mined, UInt32.add_assoc]

theorem run_ledger (hrun : Run (SimTransition config recipient) state events final) :
    final.ledger = state.ledger ++ (minedTemplates events).map BlockTemplate.block := by
  induction hrun with
  | done => simp [minedTemplates]
  | next hstep _ ih =>
    cases hstep with
    | accept ha hentry => exact ih
    | mine htmpl hs =>
      rw [ih]
      simp [SimState.mined, minedTemplates]

end Runs

/-! How an admission ends. -/

inductive Fate where
  | pooled
  | included (block : Block)
  | evicted (rival : Entry)

/-- What becomes of a pooled transaction over the events that follow: the first event that
takes it out of the pool decides. -/
def fate (txid : Hash256) : List SimEvent → Fate
  | [] => .pooled
  | .admitted rival evicted :: rest =>
    if txid ∈ evicted.map Entry.txid then .evicted rival else fate txid rest
  | .mined tmpl :: rest =>
    if txid ∈ tmpl.block.transactions.map Transaction.txid then .included tmpl.block
    else fate txid rest

/-- What each end means at the end of the run. -/
def SimState.Settled (final : SimState) (entry : Entry) : Fate → Prop
  | .pooled => final.pool.byTxid.find? entry.txid = some entry ∧
      entry.transaction ∉ confirmed final.ledger
  | .included block =>
      final.ledger.filter (fun b => entry.transaction ∈ b.transactions) = [block] ∧
      final.pool.byTxid.find? entry.txid = none
  | .evicted rival => rival.txid ≠ entry.txid ∧
      entry.fee.toNat * rival.sizeBytes.toNat < rival.fee.toNat * entry.sizeBytes.toNat

section Fates
variable {config : NodeConfig} {recipient : Hash256} {limits : MempoolLimits}
  {state final : SimState} {events : List SimEvent} {txs : List Transaction}

/-- The event that decides the fate of an entry, or the pool if there is none. -/
theorem run_fate {entry : Entry} (hrun : Run (SimTransition config recipient) state events final)
    (hinv : state.Inv config limits) (htxs : Involves txs state events) (hcol : DistinctIds txs)
    (hentry : state.pool.byTxid.find? entry.txid = some entry) :
    match fate entry.txid events with
    | .pooled => final.pool.byTxid.find? entry.txid = some entry
    | .included block => block ∈ (minedTemplates events).map BlockTemplate.block ∧
        entry.transaction ∈ block.transactions
    | .evicted rival => rival.txid ≠ entry.txid ∧
        entry.fee.toNat * rival.sizeBytes.toNat < rival.fee.toNat * entry.sizeBytes.toNat := by
  -- on the run: the first event that takes the entry out decides, and until then it is pooled
  induction hrun with
  | done => exact hentry
  | @next s t u event es hstep _ ih =>
    have hnext := ih (hinv.step hstep) (htxs.next hstep)
    cases hstep with
    | @accept tx pool rival ha hrival =>
      by_cases hlost : entry.txid ∈ (s.pool.lost pool).map Entry.txid
      · obtain ⟨e, he, hid⟩ := List.mem_map.mp hlost
        have hsame : e = entry := by
          have hfind := ((Mempool.mem_lost hinv.pool).mp he).1
          rw [hid, hentry] at hfind
          exact (Option.some.inj hfind).symm
        simp only [fate, if_pos hlost]
        exact hsame ▸ hinv.pool.evicted_lower ha hrival he
      · simp only [fate, if_neg hlost]
        refine hnext (Mempool.accept_kept ha hentry fun hgone => hlost ?_)
        exact List.mem_map_of_mem ((Mempool.mem_lost hinv.pool).mpr ⟨hentry, hgone⟩)
    | @mine tmpl fees chain pool htmpl hs =>
      have hkey := hinv.pool.key_eq _ _ hentry
      by_cases hid : entry.txid ∈ tmpl.block.transactions.map Transaction.txid
      · obtain ⟨tx, htx, heq⟩ := List.mem_map.mp hid
        have hsame := htxs.block_ids hcol tx htx _ entry hentry (heq.trans hkey.2)
        simp only [fate, if_pos hid]
        exact ⟨List.mem_cons_self, hsame ▸ htx⟩
      · obtain ⟨_, _, hpool⟩ := Chain.submitBlock_ok.mp hs
        have hkept : pool.byTxid.find? entry.txid = some entry := by
          rw [Option.some.inj hpool]
          exact Mempool.find?_removeAll.mpr ⟨hentry, hid⟩
        have hrest := hnext hkept
        simp only [fate, if_neg hid]
        cases hf : fate entry.txid es with
        | pooled => simpa [hf] using hrest
        | evicted rival => simpa [hf] using hrest
        | included block =>
          rw [hf] at hrest
          exact ⟨List.mem_cons_of_mem _ hrest.1, hrest.2⟩

theorem only_block {blocks : List Block} {block : Block} {tx : Transaction}
    (hnodup : ((confirmed blocks).map Transaction.txid).Nodup) (hb : block ∈ blocks)
    (htx : tx ∈ block.transactions) : blocks.filter (fun b => tx ∈ b.transactions) = [block] := by
  obtain ⟨pre, post, rfl⟩ := List.append_of_mem hb
  have hconf := hnodup.of_map
  simp only [confirmed, List.flatMap_append, List.flatMap_cons] at hconf
  obtain ⟨_, hrest, hpre⟩ := List.nodup_append.mp hconf
  obtain ⟨_, _, hpost⟩ := List.nodup_append.mp hrest
  have hpre' : pre.filter (fun b => tx ∈ b.transactions) = [] := by
    refine List.filter_eq_nil_iff.mpr fun b hb hin => ?_
    exact hpre tx (List.mem_flatMap.mpr ⟨b, hb, by simpa using hin⟩) tx
      (List.mem_append_left _ htx) rfl
  have hpost' : post.filter (fun b => tx ∈ b.transactions) = [] := by
    refine List.filter_eq_nil_iff.mpr fun b hb hin => ?_
    exact hpost tx htx tx (List.mem_flatMap.mpr ⟨b, hb, by simpa using hin⟩) rfl
  simp [List.filter_append, hpre', hpost', htx]

theorem pooled_unconfirmed (hinv : final.Inv config limits) (hcol : DistinctIds txs)
    (hids : (((history final.ledger).map historyEvent).map SpendEvent.ident).Nodup)
    (hchain : ∀ tx ∈ confirmed final.ledger, tx ∈ txs) {id : Hash256} {e : Entry}
    (he : final.pool.byTxid.find? id = some e) (hin : e.transaction ∈ txs) :
    ∀ tx ∈ confirmed final.ledger, tx.txid ≠ e.transaction.txid := by
  intro tx htx hid
  have hsame := hcol tx (hchain tx htx) e.transaction hin hid
  obtain ⟨hs, hcb, hinputs, _⟩ := validateForMempool_ok (hinv.valid id e he)
  obtain ⟨hpresent, _⟩ := checkTransactionInputs_ok hs hinputs
  obtain ⟨input, hinput⟩ := List.exists_mem_of_ne_nil _ hs.inputs_ne
  have ho : input.prevout ∈ e.transaction.prevouts := List.mem_map_of_mem hinput
  have hsome := hpresent _ ho
  rw [hinv.accepted.spent_input_gone hids (hsame ▸ htx) hcb ho] at hsome
  simp at hsome

theorem run_settles (hrun : Run (SimTransition config recipient) state events final)
    (hinv : state.Inv config limits) (haccounts : final.Accounts config recipient)
    (htxs : Involves txs state events) (hcol : DistinctIds txs)
    (hchain : ∀ tx ∈ confirmed final.ledger, tx ∈ txs) {before after : List SimEvent}
    {entry : Entry} {evicted : List Entry}
    (hevents : events = before ++ .admitted entry evicted :: after) :
    final.Settled entry (fate entry.txid after) := by
  rw [hevents] at hrun htxs
  obtain ⟨s, t, hbefore, hstep, hafter⟩ := hrun.cut
  have hs := hinv.run hbefore
  have ht := hs.step hstep
  have hrest := (htxs.run hbefore).next hstep
  have hfinal := ht.run hafter
  have hids := hfinal.accepted.idents_nodup
    (fun a ha b hb => hcol a (hchain a ha) b (hchain b hb)) haccounts.nodup
  have hin : t.pool.byTxid.find? entry.txid = some entry := by
    cases hstep with
    | @accept tx pool _ ha hentry =>
      have hkey := (ht.pool.key_eq _ _ hentry).1
      rw [← hkey]
      exact hentry
  have hpooled : ∀ id e, final.pool.byTxid.find? id = some e →
      ∀ tx ∈ confirmed final.ledger, tx.txid ≠ e.transaction.txid :=
    fun id e he => pooled_unconfirmed hfinal hcol hids hchain he
      (((List.append_nil after).symm ▸ hrest).run hafter |>.pool id e he)
  have hend := run_fate hafter ht hrest hcol hin
  cases hf : fate entry.txid after with
  | pooled =>
    rw [hf] at hend
    exact ⟨hend, fun hconf => hpooled _ _ hend _ hconf rfl⟩
  | evicted rival =>
    rw [hf] at hend
    exact hend
  | included block =>
    rw [hf] at hend
    have hb : block ∈ final.ledger := by
      rw [run_ledger hafter]
      exact List.mem_append_right _ hend.1
    refine ⟨only_block (txids_nodup_of_idents hids) hb hend.2, ?_⟩
    refine Option.eq_none_iff_forall_ne_some.mpr fun e he => ?_
    have hkey := hfinal.pool.key_eq _ _ he
    have hkey' := ht.pool.key_eq _ _ hin
    refine hpooled _ e he entry.transaction (List.mem_flatMap.mpr ⟨block, hb, hend.2⟩) ?_
    rw [← hkey'.2, hkey.1, hkey.2]

end Fates

theorem genesis_accounts (config : NodeConfig) (recipient : Hash256) (limits : MempoolLimits) :
    SimState.Accounts config recipient ⟨⟨(buildGenesisBlock config).header, UtxoSet.empty,
      buildConsensusParams config⟩, Mempool.new limits, [buildGenesisBlock config], {}⟩ where
  supply := by simp [UtxoSet.totalValue, UtxoSet.empty, Chain.height, buildGenesisBlock]
  own := by simp [coinbases, confirmed, buildGenesisBlock]
  nodup := by simp [coinbases, confirmed, buildGenesisBlock]

/-- The books of a successful run from genesis. The supply is the subsidy of every height;
each admission ends in exactly one block, in the pool, or by eviction through an entry of a
strictly higher fee rate; and the counters add up. -/
theorem simulator_accounting {config : NodeConfig} {options : SimulatorOptions} {env : SaveEnv}
    {dir : DataDir} {summary : SimulatorSummary} {final : SimState}
    (hgenesis : config.restore = false)
    (hrun : (runSimulator config options env dir).1 = .ok summary)
    (hfinal : simulate config options dir = .ok final)
    (hcol : DistinctIds (confirmed final.ledger ++ options.steps.flatMap SimulatorStep.submitTxs)) :
    final.chain.utxos.totalValue =
      summary.height.toNat * (buildConsensusParams config).blockSubsidy.toNat ∧
    ∃ recipient start events,
      openState config options dir = .ok start ∧
      Run (SimTransition config recipient) start events final ∧
      (admittedEntries events).map Entry.transaction =
        options.steps.flatMap SimulatorStep.submitTxs ∧
      (∀ before entry evicted after, events = before ++ .admitted entry evicted :: after →
        final.Settled entry (fate entry.txid after)) ∧
      summary.txsAdmitted = UInt32.ofNat (admittedEntries events).length ∧
      summary.txsIncluded = UInt32.ofNat (inclusionCount events) ∧
      (admittedEntries events).length =
        inclusionCount events + final.pool.size + evictionCount events := by
  obtain ⟨final', hfinal', hsummary, _⟩ := runSimulator_ok.mp hrun
  have hsame : final' = final := Except.ok.inj (hfinal'.symm.trans hfinal)
  rw [hsame] at hsummary
  obtain ⟨recipient, start, events, _, hstart, hevents, htxs⟩ := simulate_run hfinal
  have hopen := hstart
  rw [openState_genesis _ _ hgenesis] at hopen
  have hstart' := (Except.ok.inj hopen).symm
  have hinv : start.Inv config (resolveMempoolLimits config options) := by
    rw [hstart']
    exact .genesisState _
  have hboth : final.Inv config (resolveMempoolLimits config options) ∧
      final.Accounts config recipient :=
    hevents.keeps (P := fun state => state.Inv config (resolveMempoolLimits config options) ∧
        state.Accounts config recipient)
      (fun _ _ _ hs hstep => ⟨hs.1.step hstep, hs.2.step hs.1 hstep⟩)
      ⟨hinv, by rw [hstart']; exact genesis_accounts _ _ _⟩
  have hledger := run_ledger hevents
  -- what the run deals with is confirmed in the end or was submitted, so ids tell it apart
  have hinvolved : Involves
      (confirmed final.ledger ++ options.steps.flatMap SimulatorStep.submitTxs)
      start events := by
    refine ⟨?_, ?_, ?_⟩
    · rw [hstart']
      simp [Mempool.new]
    · intro e he
      rw [← htxs]
      exact List.mem_append_right _ (List.mem_map_of_mem he)
    · intro tmpl htmpl tx htx
      refine List.mem_append_left _ (List.mem_flatMap.mpr ⟨tmpl.block, ?_, htx⟩)
      rw [hledger]
      exact List.mem_append_right _ (List.mem_map_of_mem htmpl)
  have hempty : start.pool.size = 0 := by
    rw [hstart']
    rfl
  have hcounts := run_counts hevents hinv hinvolved hcol
  obtain ⟨hadmitted, hincluded⟩ := run_stats hevents
  refine ⟨?_, recipient, start, events, hstart, hevents, htxs, ?_, ?_, ?_, by omega⟩
  · rw [hboth.2.supply, hsummary]
    rfl
  · intro before entry evicted after hsplit
    exact run_settles hevents hinv hboth.2 hinvolved hcol
      (fun tx htx => List.mem_append_left _ htx) hsplit
  · rw [hsummary, summaryFromChain, hadmitted, hstart']
    simp
  · rw [hsummary, summaryFromChain, hincluded, hstart']
    simp

/-! The run that confirms a payment. -/

theorem confirmedRun_simulated : simulate rewardConfig ⟨[⟨[], 1⟩, ⟨[payment 0], 1⟩], {}⟩
    ⟨none, none⟩ = .ok confirmedRun := by
  rw [simulate_opened, runSteps_earned, runSteps_confirmed, runSteps]

theorem confirmedRun_transactions :
    confirmed confirmedRun.ledger = [reward, nextReward, payment 0] := rfl

set_option maxRecDepth 100000 in
theorem confirmedRun_distinct : DistinctIds [reward, nextReward, payment 0] := by
  have hid : reward.txid = _ := WordState.sha256d_eq reward.toBytes
  apply distinctIds_of_hashes
  rw [payment, hid]
  decide +kernel

/-- Two subsidies are in circulation, and the payment is on the chain. -/
theorem simulator_accounting_payment :
    ∃ summary, (runSimulator rewardConfig ⟨[⟨[], 1⟩, ⟨[payment 0], 1⟩], {}⟩ {} ⟨none, none⟩).1 =
        .ok summary ∧
      summary.height = 2 ∧ summary.txsAdmitted = 1 ∧ summary.txsIncluded = 1 ∧
      confirmedRun.chain.utxos.totalValue = 2 * 50 ∧
      confirmedRun.pool.size = 0 ∧
      ∃ events, (admittedEntries events).map Entry.transaction = [payment 0] ∧
        1 = inclusionCount events + evictionCount events := by
  have hrun : (runSimulator rewardConfig ⟨[⟨[], 1⟩, ⟨[payment 0], 1⟩], {}⟩ {} ⟨none, none⟩).1 =
      .ok (summaryFromChain (buildGenesisBlock rewardConfig) confirmedRun false) :=
    runSimulator_ok.mpr ⟨confirmedRun, confirmedRun_simulated, rfl, fun h => absurd h (by decide)⟩
  have hcol : DistinctIds (confirmed confirmedRun.ledger ++ [payment 0]) := by
    rw [confirmedRun_transactions]
    intro tx htx tx' htx' hid
    have hmem : ∀ tx ∈ [reward, nextReward, payment 0] ++ [payment 0],
        tx ∈ [reward, nextReward, payment 0] := by
      simp
    exact confirmedRun_distinct tx (hmem tx htx) tx' (hmem tx' htx') hid
  obtain ⟨hsupply, _, _, events, _, _, htxs, _, _, _, hcount⟩ :=
    simulator_accounting rfl hrun confirmedRun_simulated hcol
  have hlength : (admittedEntries events).length = 1 := by
    rw [← List.length_map (f := Entry.transaction), htxs]
    rfl
  rw [hlength, confirmedRun_size, Nat.add_zero] at hcount
  exact ⟨_, hrun, rfl, rfl, rfl, hsupply, confirmedRun_size, events, htxs, hcount⟩

end Blockchain
