import Blockchain.Handling
import Blockchain.Mining
import Blockchain.P2pCanonical
import Blockchain.PoolConsistency

/-! What a message leaves behind when handling it fails. Admission and each mined block take
effect at once, so a transaction announce that is admitted and then fails to mine is not
undone; in a run that leaves room for the blocks it has to mine, mining does not fail. -/
namespace Blockchain
open Lib

namespace Mempool
variable {pool : Mempool}

theorem values_removeAll_sublist (pool : Mempool) (txids : List Hash256) :
    (pool.removeAll txids).byTxid.values.Sublist pool.byTxid.values := by
  induction txids generalizing pool with
  | nil => exact List.Sublist.refl _
  | cons id txids ih =>
    refine (ih (pool.remove id)).trans ?_
    cases hfind : pool.byTxid.find? id with
    | none => simp [remove, hfind]
    | some e =>
      simp only [remove, hfind]
      exact List.filter_sublist.map _

theorem pooledFees_removeAll_le (pool : Mempool) (txids : List Hash256) :
    (pool.removeAll txids).pooledFees ≤ pool.pooledFees :=
  ((pool.values_removeAll_sublist txids).map _).sum_le_sum fun _ _ => Nat.zero_le _

theorem mem_pooledTransactions_removeAll {txids : List Hash256} {tx : Transaction}
    (h : tx ∈ (pool.removeAll txids).pooledTransactions) : tx ∈ pool.pooledTransactions :=
  ((pool.values_removeAll_sublist txids).map _).subset h

theorem accept_ok_grows {tx : Transaction} {utxos : UtxoSet} {policy : MempoolPolicy}
    (h : (pool.accept tx utxos policy).1 = .ok ()) :
    ∃ fee, checkTransactionInputs tx utxos = .ok fee ∧
      (pool.accept tx utxos policy).2.pooledFees ≤ pool.pooledFees + fee.toNat ∧
      ∀ t ∈ (pool.accept tx utxos policy).2.pooledTransactions,
        t ∈ tx :: pool.pooledTransactions := by
  obtain ⟨evicted, ⟨⟨e, he⟩, _⟩ | ⟨admission, hval, hfits, hpool⟩⟩ :=
    pool.accept_cases tx utxos policy
  · rw [he] at h
    cases h
  · have hvalues := values_addEntry hfits.absent
    refine ⟨admission.fee, (validateForMempool_ok hval).2.2.1, ?_, ?_⟩
    · have hle := pool.pooledFees_removeAll_le evicted
      have hsum := (hvalues.map fun e => e.fee.toNat).sum_eq
      have htotal : ((pool.removeAll evicted).addEntry (entryOf tx admission)).pooledFees =
          admission.fee.toNat + (pool.removeAll evicted).pooledFees := hsum
      rw [hpool, htotal]
      omega
    · intro t ht
      rw [hpool] at ht
      obtain htx | hold := List.mem_cons.mp ((hvalues.map Entry.transaction).mem_iff.mp ht)
      · exact List.mem_cons.mpr (.inl htx)
      · exact List.mem_cons_of_mem _ (mem_pooledTransactions_removeAll hold)

theorem accept_error_contains {tx : Transaction} {utxos : UtxoSet} {policy : MempoolPolicy}
    {e : Error} (h : (pool.accept tx utxos policy).1 = .error e) {id : Hash256}
    (hid : (pool.accept tx utxos policy).2.contains id = true) : pool.contains id = true := by
  obtain ⟨evicted, ⟨_, hpool⟩ | ⟨admission, _, _, hpool⟩⟩ := pool.accept_cases tx utxos policy
  · rw [hpool] at hid
    obtain ⟨entry, hentry⟩ := Option.isSome_iff_exists.mp hid
    exact Option.isSome_iff_exists.mpr ⟨entry, (find?_removeAll.mp hentry).1⟩
  · rw [hpool] at h
    cases h

end Mempool

namespace PeerState

/-! Mining several blocks. -/

/-- What a node deals with while it mines `count` blocks: the transactions it knows, and the
coinbases of the next heights. -/
def Dealt (state : PeerState) (count : Nat) (known : List Transaction) (fees : Nat)
    (tx : Transaction) : Prop :=
  tx ∈ known ∨ ∃ i value, i < count ∧ state.Reward fees value ∧
    tx = makeCoinbase (state.height + UInt32.ofNat (i + 1)) value state.tmplParams.coinbaseRecipient

/-- Height, clock and money leave room for `count` blocks that collect `fees` at most, and no
two of the transactions dealt with share an id. -/
structure RoomToMine (state : PeerState) (count : Nat) (known : List Transaction) (fees : Nat) :
    Prop where
  height_lt : state.height.toNat + count < 2 ^ 32
  time_lt : state.genesisTimestamp.toNat + state.height.toNat + count < 2 ^ 64
  money_le : state.chain.params.blockSubsidy.toNat + fees ≤ kMaxMoney.toNat
  distinct : ∀ tx tx', state.Dealt count known fees tx → state.Dealt count known fees tx' →
    tx.txid = tx'.txid → tx = tx'

theorem RoomToMine.connected {state : PeerState} {count fees : Nat} {known : List Transaction}
    (h : state.RoomToMine (count + 1) known fees) {block : Block} {chain : Chain} {value : UInt64}
    (hvalue : state.Reward fees value) (hheight : chain.height = state.height + 1)
    (hup : chain.height.toNat = state.height.toNat + 1)
    (hparams : chain.params = state.chain.params) :
    (state.connected block chain).RoomToMine count
      (makeCoinbase (state.height + 1) value state.tmplParams.coinbaseRecipient :: known) fees := by
  have hnext : (state.connected block chain).height = chain.height := rfl
  have hsame : (state.connected block chain).chain.params = state.chain.params := hparams
  have hdealt : ∀ tx, (state.connected block chain).Dealt count
      (makeCoinbase (state.height + 1) value state.tmplParams.coinbaseRecipient :: known) fees tx →
        state.Dealt (count + 1) known fees tx := by
    intro tx htx
    cases htx with
    | inl hknown =>
      obtain heq | hold := List.mem_cons.mp hknown
      · exact .inr ⟨0, value, Nat.succ_pos _, hvalue, heq⟩
      · exact .inl hold
    | inr hcoinbase =>
      obtain ⟨i, v, hi, hv, heq⟩ := hcoinbase
      refine .inr ⟨i + 1, v, Nat.succ_lt_succ hi, ?_, ?_⟩
      · rw [Reward, hsame] at hv
        exact hv
      · have hat : chain.height + UInt32.ofNat (i + 1) =
            state.height + UInt32.ofNat (i + 1 + 1) := by
          rw [hheight, UInt32.add_assoc, UInt32.ofNat_add (i + 1) 1,
            UInt32.add_comm (UInt32.ofNat (i + 1))]
          rfl
        rw [heq, hnext, hat]
        rfl
  have hheight_lt := h.height_lt
  have htime_lt := h.time_lt
  refine ⟨?_, ?_, ?_, fun tx tx' htx htx' => h.distinct tx tx' (hdealt tx htx) (hdealt tx' htx')⟩
  · rw [hnext, hup]
    omega
  · change state.genesisTimestamp.toNat + chain.height.toNat + count < 2 ^ 64
    omega
  · rw [hsame]
    exact h.money_le

theorem Mineable.mineLoop_ok {config : NodeConfig} {state : PeerState} (h : state.Mineable config)
    (hsize : config.maxBlockSizeBytes ≤ kMaxBlockSizeBytes) {count fees : Nat}
    {known : List Transaction} (hroom : state.RoomToMine count known fees)
    (hknown : ∀ tx ∈ state.involved, tx ∈ known) (hfees : state.mempool.pooledFees ≤ fees) :
    ∃ next, mineLoop count state = .ret (.ok (), next) ∧ next.persist = state.persist := by
  -- on the blocks to mine: the coinbase of each joins the known transactions
  induction count generalizing state known with
  | zero => exact ⟨state, rfl, rfl⟩
  | succ count ih =>
    have hmax : kUint32Max.toNat = 2 ^ 32 - 1 := rfl
    have hheight_lt := hroom.height_lt
    have htime_lt := hroom.time_lt
    have hmoney_le := hroom.money_le
    have hids : DistinctIds state.involved := fun tx htx tx' htx' =>
      hroom.distinct tx tx' (.inl (hknown tx htx)) (.inl (hknown tx' htx'))
    have hreward : ∀ value, state.Reward state.mempool.pooledFees value → state.Reward fees value :=
      fun value hv => ⟨hv.1, hv.2.trans (Nat.add_le_add_left hfees _)⟩
    have hcoinbase : ∀ value, state.Reward state.mempool.pooledFees value → ∀ tx ∈ state.involved,
        (makeCoinbase (state.height + 1) value state.tmplParams.coinbaseRecipient).txid = tx.txid →
          makeCoinbase (state.height + 1) value state.tmplParams.coinbaseRecipient = tx :=
      fun value hv tx htx => hroom.distinct _ tx
        (.inr ⟨0, value, Nat.succ_pos _, hreward value hv, rfl⟩) (.inl (hknown tx htx))
    obtain ⟨tmpl, chain, pool, htmpl, hs, hup⟩ := h.submit_ok hsize hids hcoinbase
      (UInt32.lt_iff_toNat_lt.mpr (by omega)) (by omega) (by omega)
    obtain ⟨value, hvalue, htxs⟩ := h.template_transactions hids htmpl
    obtain ⟨_, ⟨utxos, _, hchain⟩, _⟩ := Chain.submitBlock_ok.mp hs
    have hstep := h.connected (h.template_timely htmpl) hs
    have hnext : chain.height = state.height + 1 := by
      rw [← UInt32.toNat_inj, hup, next_height (UInt32.lt_iff_toNat_lt.mpr (by omega))]
    have hroom' : (state.connected tmpl.block chain).RoomToMine count _ fees :=
      hroom.connected (hreward value hvalue) hnext hup (by rw [hchain])
    have hknown' : ∀ tx ∈ (state.connected tmpl.block chain).involved,
        tx ∈ makeCoinbase (state.height + 1) value state.tmplParams.coinbaseRecipient :: known := by
      intro tx htx
      rw [involved, h.inv.ledgerBlocks_connected hs, confirmed, List.flatMap_append,
        List.flatMap_singleton] at htx
      obtain hchained | hpooled := List.mem_append.mp htx
      · obtain hold | hnew := List.mem_append.mp hchained
        · exact List.mem_cons_of_mem _ (hknown tx (List.mem_append_left _ hold))
        · obtain heq | hpooled := htxs tx hnew
          · exact List.mem_cons.mpr (.inl heq)
          · exact List.mem_cons_of_mem _ (hknown tx (List.mem_append_right _ hpooled))
      · exact List.mem_cons_of_mem _ (hknown tx (List.mem_append_right _
          (Mempool.mem_pooledTransactions_removeAll hpooled)))
    have hfees' : (state.connected tmpl.block chain).mempool.pooledFees ≤ fees :=
      (state.mempool.pooledFees_removeAll_le _).trans hfees
    obtain ⟨next, hrun, hpersist⟩ := ih hstep hroom' hknown' hfees'
    refine ⟨next, ?_, hpersist⟩
    simp only [mineLoop, Action.bind_run, Action.state_run, Process.bind_ret_left,
      Action.ofExcept_run, htmpl, connectBlock_of_submit hs, hrun]

theorem Mineable.mineBlocks_ok {config : NodeConfig} {state : PeerState} (h : state.Mineable config)
    (hpersist : state.persist = false) (hsize : config.maxBlockSizeBytes ≤ kMaxBlockSizeBytes)
    {count : UInt32} {fees : Nat} {known : List Transaction}
    (hroom : state.RoomToMine count.toNat known fees)
    (hknown : ∀ tx ∈ state.involved, tx ∈ known) (hfees : state.mempool.pooledFees ≤ fees) :
    ∃ next, mineBlocks count state = .ret (.ok (), next) := by
  obtain ⟨next, hrun, hkept⟩ := h.mineLoop_ok hsize hroom hknown hfees
  refine ⟨next, ?_⟩
  simp only [mineBlocks, Action.bind_run, hrun, Process.bind_ret_left]
  exact persistLedger_off (hkept.trans hpersist)

/-! What a failed message leaves. -/

/-- The chain and the catalog are as before, and nothing has entered the pool. -/
structure Untouched (before after : PeerState) : Prop where
  chain_eq : after.chain = before.chain
  catalog_eq : after.catalog = before.catalog
  pool : ∀ id, after.mempool.contains id = true → before.mempool.contains id = true

theorem Untouched.refl (state : PeerState) : state.Untouched state := ⟨rfl, rfl, fun _ h => h⟩

def FailsCleanly (before : PeerState) (result : Result Unit) (after : PeerState) : Prop :=
  ∀ e, result = .error e → before.Untouched after

def offered (state : PeerState) (tx : Transaction) : PeerState :=
  { state with mempool := (state.mempool.accept tx state.chain.utxos state.mempoolPolicy).2 }

def carriedTransaction (message : P2pMessage) : Result Transaction := do
  let parsed ← deserializeTxAnnounce message.payload
  parseTransactionBytes parsed.txBytes

def AnnouncesTransaction (message : P2pMessage) (tx : Transaction) : Prop :=
  message.type = .txAnnounce ∧ carriedTransaction message = .ok tx

theorem failsCleanly_of_keeps {state : PeerState} {work : PeerAction Unit}
    (h : work.Keeps (state.Untouched ·)) : work.Ensures state state.FailsCleanly :=
  (h state (Untouched.refl state)).mono fun _ _ hkept _ _ => hkept

theorem onBlockAnnounce_failsCleanly {state : PeerState} (hpersist : state.persist = false)
    (payload : Bytes) : (onBlockAnnounce payload).Ensures state state.FailsCleanly := by
  refine Action.ensures_check (fun _ _ _ _ => Untouched.refl state) fun parsed _ =>
    Action.ensures_check (fun _ _ _ _ => Untouched.refl state) fun block _ => ?_
  intro result next hrun
  rw [connect_and_persist hpersist] at hrun
  refine connectBlock_ensures (fun _ _ _ => Untouched.refl state) (fun _ _ _ _ e he => ?_) _ _ hrun
  cases he

theorem onTxAnnounce_run {message : P2pMessage} {tx : Transaction}
    (h : carriedTransaction message = .ok tx) (state : PeerState) :
    onTxAnnounce message.payload state =
      match (state.mempool.accept tx state.chain.utxos state.mempoolPolicy).1 with
      | .error e => .ret (.error e, state.offered tx)
      | .ok () =>
        if state.mineAfterTx > 0 then mineBlocks state.mineAfterTx (state.offered tx)
        else .ret (.ok (), state.offered tx) := by
  obtain ⟨parsed, hparsed, htx⟩ := bind_eq_ok.mp h
  rw [onTxAnnounce, hparsed, Action.bind_run, Action.ofExcept_run, Process.bind_ret_left]
  simp only [htx, Action.bind_run, Action.ofExcept_run, Process.bind_ret_left, acceptTransaction]
  cases (state.mempool.accept tx state.chain.utxos state.mempoolPolicy).1 with
  | error e => rfl
  | ok u =>
    simp only [Action.state_run, Process.bind_ret_left, offered]
    split
    · rfl
    · rfl

section Announced
variable {message : P2pMessage} {tx : Transaction} {state next : PeerState}
  (h : AnnouncesTransaction message tx)
include h

theorem AnnouncesTransaction.parse : ∃ parsed, parseTxAnnounceMessage message = .ok parsed := by
  obtain ⟨parsed, hparsed, _⟩ := bind_eq_ok.mp h.2
  exact ⟨parsed, by simp [parseTxAnnounceMessage, parseMessage, h.1, hparsed]⟩

theorem handleMessage_announced_ok
    (hrun : onTxAnnounce message.payload state = .ret (.ok (), next)) :
    handleMessage message state = .ret (.ok (), next) := by
  obtain ⟨parsed, hparse⟩ := h.parse
  simp only [handleMessage, h.1, hparse, Action.bind_run, Action.ofExcept_run,
    Process.bind_ret_left, Action.attempt, hrun, Action.pure_run]

theorem handleMessage_announced_error {e : Error}
    (hrun : onTxAnnounce message.payload state = .ret (.error e, next)) :
    handleMessage message state =
      (sendReject .invalidMessage e.message >>= fun _ => Action.fail e) next := by
  obtain ⟨parsed, hparse⟩ := h.parse
  simp only [handleMessage, h.1, hparse, Action.bind_run, Action.ofExcept_run,
    Process.bind_ret_left, Action.attempt, hrun]

end Announced

theorem onTxAnnounce_failsCleanly {state : PeerState} {message : P2pMessage}
    (hmine : ∀ tx, carriedTransaction message = .ok tx →
      (state.mempool.accept tx state.chain.utxos state.mempoolPolicy).1 = .ok () →
      state.mineAfterTx ≠ 0 →
        ∃ next, mineBlocks state.mineAfterTx (state.offered tx) = .ret (.ok (), next)) :
    (onTxAnnounce message.payload).Ensures state state.FailsCleanly := by
  cases hcarried : carriedTransaction message with
  | error e =>
    refine Action.ensures_check (fun _ _ _ _ => Untouched.refl state) fun parsed hparsed =>
      Action.ensures_check (fun _ _ _ _ => Untouched.refl state) fun tx htx => ?_
    rw [carriedTransaction, hparsed, ok_bind, htx] at hcarried
    cases hcarried
  | ok tx =>
    intro result next hrun e he
    rw [onTxAnnounce_run hcarried, he] at hrun
    cases haccept : (state.mempool.accept tx state.chain.utxos state.mempoolPolicy).1 with
    | error e' =>
      rw [haccept] at hrun
      cases hrun
      exact ⟨rfl, rfl, fun id => Mempool.accept_error_contains haccept⟩
    | ok u =>
      simp only [haccept] at hrun
      split at hrun
      · rename_i hpos
        obtain ⟨mined, hmined⟩ := hmine tx hcarried haccept (UInt32.pos_iff_ne_zero.mp hpos)
        rw [hmined] at hrun
        cases hrun
      · cases hrun

theorem handleMessage_failsCleanly {state : PeerState} (hpersist : state.persist = false)
    {message : P2pMessage}
    (hmine : ∀ tx, AnnouncesTransaction message tx →
      (state.mempool.accept tx state.chain.utxos state.mempoolPolicy).1 = .ok () →
      state.mineAfterTx ≠ 0 →
        ∃ next, mineBlocks state.mineAfterTx (state.offered tx) = .ret (.ok (), next)) :
    (handleMessage message).Ensures state state.FailsCleanly := by
  have hdefault : (do
      sendReject .invalidMessage "unsupported message type"
      Action.fail ⟨.invalidMessage, "unsupported message type"⟩ : PeerAction Unit).Ensures
        state state.FailsCleanly :=
    failsCleanly_of_keeps (Action.keeps_bind (sendReject_keeps _ _) fun _ => Action.keeps_fail)
  unfold handleMessage
  cases htype : message.type with
  | txAnnounce =>
    refine Action.ensures_check (fun _ _ _ _ => Untouched.refl state) fun _ _ => ?_
    refine Action.ensures_attempt_bind ((onTxAnnounce_failsCleanly fun tx htx =>
      hmine tx ⟨htype, htx⟩).mono fun outcome next h => ?_)
    cases outcome with
    | ok u => exact Action.ensures_pure fun _ he => by cases he
    | error e =>
      -- the announce has failed with the state untouched, and the reject does not change it
      have hkeeps : (do sendReject .invalidMessage e.message; Action.fail e : PeerAction Unit).Keeps
          (state.Untouched ·) := Action.keeps_bind (sendReject_keeps _ _) fun _ => Action.keeps_fail
      exact (hkeeps next (h e rfl)).mono fun _ _ hkept _ _ => hkept
  | blockAnnounce =>
    exact Action.ensures_check (fun _ _ _ _ => Untouched.refl state) fun _ _ =>
      onBlockAnnounce_failsCleanly hpersist _
  | blockRequest =>
    exact failsCleanly_of_keeps
      (Action.keeps_bind Action.keeps_ofExcept fun parsed => onBlockRequest_keeps parsed)
  | blockResponse =>
    exact Action.ensures_check (fun _ _ _ _ => Untouched.refl state) fun _ _ =>
      onBlockAnnounce_failsCleanly hpersist _
  | ping =>
    exact failsCleanly_of_keeps (Action.keeps_bind Action.keeps_ofExcept fun ping =>
      Action.keeps_bind Action.keeps_ofExcept fun pong => sendMessage_keeps pong)
  | pong => exact failsCleanly_of_keeps Action.keeps_pure
  | handshake => exact hdefault
  | peerInfo => exact hdefault
  | txRequest => exact hdefault
  | txResponse => exact hdefault
  | reject => exact hdefault

/-- The node can mine the blocks it owes an announced transaction: it runs on timely blocks
and there is room for them once the transaction's own fee is counted. -/
structure CanMineFor (config : NodeConfig) (dir : DataDir) (state : PeerState)
    (message : P2pMessage) : Prop where
  ledger : TimelyLedger config dir
  reached : Reached config dir (TimelyBlocks config) state
  size_le : config.maxBlockSizeBytes ≤ kMaxBlockSizeBytes
  room : ∀ tx fee, AnnouncesTransaction message tx →
    checkTransactionInputs tx state.chain.utxos = .ok fee →
      state.RoomToMine state.mineAfterTx.toNat (tx :: state.involved)
        (state.mempool.pooledFees + fee.toNat)

theorem CanMineFor.mines {config : NodeConfig} {dir : DataDir} {state : PeerState}
    {message : P2pMessage} (h : CanMineFor config dir state message)
    (hpersist : state.persist = false) {tx : Transaction} (htx : AnnouncesTransaction message tx)
    (haccept : (state.mempool.accept tx state.chain.utxos state.mempoolPolicy).1 = .ok ()) :
    ∃ next, mineBlocks state.mineAfterTx (state.offered tx) = .ret (.ok (), next) := by
  obtain ⟨fee, hfee, hfees, hpooled⟩ := Mempool.accept_ok_grows haccept
  have hroom := h.room tx fee htx hfee
  have hmineable : (state.offered tx).Mineable config :=
    Mineable.accept tx state (h.reached.mineable h.ledger) _ _ (.ret _)
  have hoffered : (state.offered tx).RoomToMine state.mineAfterTx.toNat (tx :: state.involved)
      (state.mempool.pooledFees + fee.toNat) :=
    ⟨hroom.height_lt, hroom.time_lt, hroom.money_le, hroom.distinct⟩
  refine hmineable.mineBlocks_ok hpersist h.size_le hoffered ?_ hfees
  intro t ht
  obtain hchain | hpool := List.mem_append.mp ht
  · exact List.mem_cons_of_mem _ (List.mem_append_left _ hchain)
  · obtain heq | hold := List.mem_cons.mp (hpooled t hpool)
    · exact List.mem_cons.mpr (.inl heq)
    · exact List.mem_cons_of_mem _ (List.mem_append_right _ hold)

end PeerState

/-- When handling a message fails, the tip, the coins and the catalog are as before and
nothing has entered the pool, whatever the sends answer; only for a message that announces a
transaction the node must mine nothing on it, or be able to mine what it has to. -/
theorem failed_message_untouched {config : NodeConfig} {dir : DataDir} {state next : PeerState}
    {message : P2pMessage} {e : Error} (hpersist : config.persist = false)
    (h : Reached config dir anyOp state)
    (hmine : ∀ tx, PeerState.AnnouncesTransaction message tx →
      state.mineAfterTx = 0 ∨ PeerState.CanMineFor config dir state message)
    (hrun : (PeerState.handleMessage message state).Returns (.error e, next)) :
    next.chain.tip = state.chain.tip ∧ next.chain.utxos = state.chain.utxos ∧
    next.catalog = state.catalog ∧
    ∀ id, next.mempool.contains id = true → state.mempool.contains id = true := by
  have hoff : state.persist = false := h.inv.persist_eq.trans hpersist
  have hclean : (PeerState.handleMessage message).Ensures state state.FailsCleanly :=
    PeerState.handleMessage_failsCleanly hoff fun tx htx hok hne =>
      ((hmine tx htx).resolve_left hne).mines hoff htx hok
  obtain ⟨hchain, hcatalog, hpool⟩ := hclean _ _ hrun e rfl
  exact ⟨by rw [hchain], by rw [hchain], hcatalog, hpool⟩

/-! An announced payment, refused or admitted in vain. -/

namespace PeerState

def txAnnounceMessage (tx : Transaction) : P2pMessage :=
  makeMessage .txAnnounce (putVarBytes tx.toBytes)

theorem deserializeTxAnnounce_transaction {tx : Transaction} (h : tx.Sane) :
    deserializeTxAnnounce (putVarBytes tx.toBytes) = .ok ⟨tx.toBytes⟩ := by
  have hpos : 0 < tx.toBytes.length := by
    rw [Transaction.toBytes_length]
    omega
  have hempty : tx.toBytes.isEmpty = false :=
    List.isEmpty_eq_false_iff.mpr (List.length_pos_iff.mp hpos)
  refine txAnnounce_roundTrips.decode ⟨tx.toBytes⟩ _ trivial ?_
  simp only [serializeTxAnnounce, putBlob, hempty, Bool.false_eq_true, if_false, gt_iff_lt,
    if_neg (Nat.not_lt.mpr h.size_le)]

theorem carriedTransaction_announce {tx : Transaction} (h : tx.Sane) :
    carriedTransaction (txAnnounceMessage tx) = .ok tx := by
  rw [carriedTransaction, txAnnounceMessage, makeMessage,
    deserializeTxAnnounce_transaction h, ok_bind]
  exact ByteReader.parse_exactly Transaction.deserialize_decodes h.limits

theorem announcesTransaction_announce {tx : Transaction} (h : tx.Sane) :
    AnnouncesTransaction (txAnnounceMessage tx) tx :=
  ⟨rfl, carriedTransaction_announce h⟩

theorem handled_announce_error {tx : Transaction} (h : tx.Sane) {state next : PeerState} {e : Error}
    (hstop : onTxAnnounce (txAnnounceMessage tx).payload state = .ret (.error e, next)) :
    ∃ e', state.handled (txAnnounceMessage tx) = (.error e', next) := by
  have hparse : parseTxAnnounceMessage (txAnnounceMessage tx) = .ok ⟨tx.toBytes⟩ := by
    rw [parseTxAnnounceMessage, txAnnounceMessage, parseMessage_makeMessage,
      deserializeTxAnnounce_transaction h]
  have hensures : (handleMessage (txAnnounceMessage tx)).Ensures state
      fun result after => (∃ e', result = .error e') ∧ after = next := by
    refine Action.ensures_check (fun e he => by simp [hparse] at he) fun _ _ =>
      Action.ensures_attempt_bind fun outcome after hrun => ?_
    rw [hstop] at hrun
    cases hrun
    refine Action.ensures_bind (sendReject_keeps (I := (· = next)) _ _ next rfl)
      (fun e' _ hsame => ⟨⟨e', rfl⟩, hsame⟩) fun _ _ hsame => Action.ensures_fail ⟨⟨e, rfl⟩, hsame⟩
  obtain ⟨⟨e', herr⟩, hsame⟩ := hensures _ _
    (Process.returns_play platformReply (handleMessage (txAnnounceMessage tx) state))
  exact ⟨e', Prod.ext herr hsame⟩

end PeerState

def eagerConfig : NodeConfig := { blockSubsidy := 50, coinbaseMaturity := 1, mineAfterTx := 1 }

/-- A refused announce: the payment's input does not exist yet. -/
theorem failed_message_refused_payment :
    Reached eagerConfig ⟨none, none⟩ anyOp (genesisNode eagerConfig) ∧
    ∃ e next, (genesisNode eagerConfig).handled (PeerState.txAnnounceMessage (payment 0)) =
        (.error e, next) ∧
      next.chain.tip = (genesisNode eagerConfig).chain.tip ∧
      next.mempool.contains (payment 0).txid = false := by
  have hsane := payment_sane 0
  have hreached : ∀ allowed, Reached eagerConfig ⟨none, none⟩ allowed (genesisNode eagerConfig) :=
    fun allowed => genesisNode_reached rfl rfl rfl rfl _ _
  have hmissing : ∀ fee, checkTransactionInputs (payment 0) UtxoSet.empty ≠ .ok fee := by
    intro fee hfee
    have hsome := (checkTransactionInputs_ok hsane hfee).1 _ (List.mem_singleton.mpr rfl)
    simp [UtxoSet.empty, UtxoSet.find] at hsome
  have hcarried := PeerState.carriedTransaction_announce hsane
  have hcan : PeerState.CanMineFor eagerConfig ⟨none, none⟩ (genesisNode eagerConfig)
      (PeerState.txAnnounceMessage (payment 0)) := by
    refine ⟨fun hrestore => by simp [eagerConfig] at hrestore, hreached _, by decide, ?_⟩
    intro tx fee htx hfee
    rw [Except.ok.inj (htx.2.symm.trans hcarried)] at hfee
    exact absurd hfee (hmissing fee)
  have hstop := PeerState.onTxAnnounce_run hcarried (genesisNode eagerConfig)
  cases haccept : ((genesisNode eagerConfig).mempool.accept (payment 0)
      (genesisNode eagerConfig).chain.utxos (genesisNode eagerConfig).mempoolPolicy).1 with
  | ok u =>
    obtain ⟨fee, hfee, _⟩ := Mempool.accept_ok_grows haccept
    exact absurd hfee (hmissing fee)
  | error e =>
    simp only [haccept] at hstop
    obtain ⟨e', hrun⟩ := PeerState.handled_announce_error hsane hstop
    have hreturns : (PeerState.handleMessage (PeerState.txAnnounceMessage (payment 0))
        (genesisNode eagerConfig)).Returns
          (.error e', (genesisNode eagerConfig).offered (payment 0)) := by
      rw [← hrun]
      exact Process.returns_play _ _
    obtain ⟨htip, _, _, hpool⟩ := failed_message_untouched rfl (hreached _)
      (fun _ _ => .inr hcan) hreturns
    refine ⟨hreached _, e', _, hrun, htip, ?_⟩
    exact Bool.eq_false_of_not_eq_true fun hin => absurd (hpool _ hin) (by decide)

def lateRewardBlock : Block :=
  ⟨⟨kBlockVersion, (buildGenesisBlock eagerConfig).header.hash, computeMerkleRoot [reward], 5, 1⟩,
    [reward]⟩

def lateNode : PeerState :=
  (genesisNode eagerConfig).connected lateRewardBlock ⟨lateRewardBlock.header, rewardCoins, ⟨50, 1⟩⟩

theorem lateNode_reached : Reached eagerConfig ⟨none, none⟩ anyOp lateNode := by
  have hgenesis : Reached eagerConfig ⟨none, none⟩ anyOp (genesisNode eagerConfig) :=
    genesisNode_reached rfl rfl rfl rfl _ _
  have hconnect : connectBlock lateRewardBlock UtxoSet.empty ⟨50, 1⟩ = .ok (0, rewardCoins) :=
    connectBlock_coinbase reward_sane rfl rfl rfl (by decide) rfl
  exact hgenesis.announce rfl (singleton_block_sane reward_sane rfl) trivial
    ⟨rfl, rfl, rfl, UInt64.le_iff_toNat_le.mpr (Nat.zero_le _)⟩ hconnect

/-- On a tip ahead of its clock the node admits an announced payment, fails to mine on it and
rejects the announce; the payment stays in the pool. -/
theorem rejected_announce_stays_pooled :
    eagerConfig.persist = false ∧ Reached eagerConfig ⟨none, none⟩ anyOp lateNode ∧
    PeerState.AnnouncesTransaction (PeerState.txAnnounceMessage (payment 0)) (payment 0) ∧
    lateNode.mempool.contains (payment 0).txid = false ∧
    ∃ e next, lateNode.handled (PeerState.txAnnounceMessage (payment 0)) = (.error e, next) ∧
      next.mempool.contains (payment 0).txid = true := by
  have hsane := payment_sane 0
  have hcarried := PeerState.carriedTransaction_announce hsane
  have haccept : lateNode.mempool.accept (payment 0) lateNode.chain.utxos lateNode.mempoolPolicy =
      (.ok (), lateNode.mempool.addEntry (Mempool.entryOf (payment 0) ⟨0, 92⟩)) :=
    Mempool.accept_of_fits payment_admitted payment_fits
  have hrefused : ∀ tmpl, (lateNode.offered (payment 0)).nextTemplate = .ok tmpl →
      ¬ tmpl.block.header.LinksTo (lateNode.offered (payment 0)).chain.tip := by
    intro tmpl htmpl hlinks
    obtain ⟨_, _, _, _, _, hshape⟩ := buildBlockTemplate_eq_ok.mp htmpl
    have htime := hlinks.timestamp_le
    rw [hshape] at htime
    have hahead : ¬ (5 : UInt64) ≤ blockTimestamp 0 2 := by decide
    exact hahead htime
  obtain ⟨e, hmine⟩ := PeerState.mineBlocks_one_refused hrefused
  have hstop : PeerState.onTxAnnounce (PeerState.txAnnounceMessage (payment 0)).payload lateNode =
      .ret (.error e, lateNode.offered (payment 0)) := by
    rw [PeerState.onTxAnnounce_run hcarried, haccept]
    exact hmine
  obtain ⟨e', hrun⟩ := PeerState.handled_announce_error hsane hstop
  refine ⟨rfl, lateNode_reached, ⟨rfl, hcarried⟩, rfl, e', _, hrun, ?_⟩
  have hin : (lateNode.mempool.addEntry (Mempool.entryOf (payment 0) ⟨0, 92⟩)).byTxid.find?
      (payment 0).txid = some (Mempool.entryOf (payment 0) ⟨0, 92⟩) :=
    (Mempool.find?_addEntry payment_fits).mpr (.inr ⟨rfl, rfl⟩)
  rw [PeerState.offered, haccept]
  exact Option.isSome_iff_exists.mpr ⟨_, hin⟩

end Blockchain
