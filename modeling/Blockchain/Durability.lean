import Blockchain.LedgerSaving
import Blockchain.Lib.Runs
import Blockchain.RestorePaths
import Blockchain.Startup

/-! A persisting node, its data directory and crashes. Sends, receives and saves may fail in
any way that is reported; the machine may stop at any point and be started again from the
ledger. -/
namespace Blockchain
open Lib

/-- The platform as far as it touches the data directory: peers answer as they like, a save
fails at any step that reports it. -/
def diskEnv : Env NodeOp (LinkOp.Answer Error StoreOp.Answer) DataDir
  | .send _, dir, _, dir' => dir' = dir
  | .recv _, dir, _, dir' => dir' = dir
  | .loc (.writeLedger _ bytes), dir, answer, dir' =>
    ∃ env : SaveEnv, env.closeStops = none ∧ writeLedger bytes env dir = (answer, dir')

/-- The ledger file holds the blocks of a chain under the configured parameters. -/
structure HoldsBlocks (config : NodeConfig) (dir : DataDir) (blocks : List Block) : Prop where
  stored : ∃ bytes pool, dir.ledger = some bytes ∧
    decodeLedger bytes = .ok ⟨blocks, buildConsensusParams config, pool⟩
  replays : ∃ chain, Accepted (buildConsensusParams config) blocks chain

theorem HoldsBlocks.of_ledger {config : NodeConfig} {dir dir' : DataDir} {blocks : List Block}
    (h : HoldsBlocks config dir blocks) (hsame : dir'.ledger = dir.ledger) :
    HoldsBlocks config dir' blocks := by
  obtain ⟨bytes, pool, hledger, hdecode⟩ := h.stored
  exact ⟨⟨bytes, pool, hsame.trans hledger, hdecode⟩, h.replays⟩

def KeepsBlocks (config : NodeConfig) (base : List Block) (dir : DataDir) : Prop :=
  ∃ saved, HoldsBlocks config dir saved ∧ base <+: saved

/-- A node in step with its file: what is saved is an initial part of what it has confirmed,
and holds at least `base`. -/
structure InStep (config : NodeConfig) (base : List Block) (state : PeerState) (dir : DataDir) :
    Prop where
  inv : state.Inv config (buildConsensusParams config)
  saved : ∃ saved, HoldsBlocks config dir saved ∧ base <+: saved ∧ saved <+: state.ledgerBlocks

theorem InStep.keeps {config : NodeConfig} {base : List Block} {state : PeerState} {dir : DataDir}
    (h : InStep config base state dir) : KeepsBlocks config base dir := by
  obtain ⟨saved, hholds, hbase, _⟩ := h.saved
  exact ⟨saved, hholds, hbase⟩

theorem InStep.grow {config : NodeConfig} {base : List Block} {state next : PeerState}
    {dir : DataDir} (h : InStep config base state dir)
    (hinv : next.Inv config (buildConsensusParams config))
    (hblocks : state.ledgerBlocks <+: next.ledgerBlocks) : InStep config base next dir := by
  obtain ⟨saved, hholds, hbase, hsaved⟩ := h.saved
  exact ⟨hinv, saved, hholds, hbase, hsaved.trans hblocks⟩

theorem InStep.written {config : NodeConfig} {base : List Block} {state : PeerState}
    {dir dir' : DataDir} (h : InStep config base state dir)
    (hdir : dir'.ledger = dir.ledger ∨ HoldsBlocks config dir' state.ledgerBlocks) :
    InStep config base state dir' := by
  obtain ⟨saved, hholds, hbase, hsaved⟩ := h.saved
  cases hdir with
  | inl hsame => exact ⟨h.inv, saved, hholds.of_ledger hsame, hbase, hsaved⟩
  | inr hnew => exact ⟨h.inv, _, hnew, hbase.trans hsaved, List.prefix_refl _⟩

namespace PeerState
variable {config : NodeConfig} {base : List Block} {state : PeerState} {dir : DataDir}

theorem Inv.saved_decodes {params : ConsensusParams} (h : state.Inv config params) {bytes : Bytes}
    (hbytes : ledgerBytes state.ledgerBlocks state.consensus state.mempool.sortedTransactions =
      .ok bytes) :
    Accepted params state.ledgerBlocks state.chain ∧ decodeLedger bytes =
      .ok ⟨state.ledgerBlocks, buildConsensusParams config, state.mempool.sortedTransactions⟩ := by
  have hlimits := (ledgerBytes_eq_ok.mp hbytes).1.limits
  have hpool := hlimits.mempool_le
  rw [h.pool.sortedTransactions_length] at hpool
  obtain ⟨hacc, hstore⟩ := h.storable ⟨hlimits.blocks_le, hpool⟩
  have henc := (ledgerBytes_ok.mp hbytes).2
  rw [h.consensus_eq] at henc
  exact ⟨hacc, decodeLedger_encodeLedger hstore (fun _ _ hi => hacc.block_height hi) henc⟩

theorem Inv.saves (h : state.Inv config (buildConsensusParams config)) {bytes : Bytes}
    (hbytes : ledgerBytes state.ledgerBlocks state.consensus state.mempool.sortedTransactions =
      .ok bytes) {temp : Option Bytes} :
    HoldsBlocks config ⟨some bytes, temp⟩ state.ledgerBlocks := by
  obtain ⟨hacc, hdecode⟩ := h.saved_decodes hbytes
  exact ⟨⟨bytes, _, rfl, hdecode⟩, _, hacc⟩

theorem saveLedger_guards (h : state.Inv config (buildConsensusParams config)) {C : DataDir → Prop}
    (hC : ∀ dir', dir'.ledger = dir.ledger ∨ HoldsBlocks config dir' state.ledgerBlocks → C dir') :
    PeerState.saveLedger.Guards diskEnv state dir C fun r next dir' => next = state ∧
      (dir'.ledger = dir.ledger ∨ HoldsBlocks config dir' state.ledgerBlocks) ∧
      (r = .ok () → HoldsBlocks config dir' state.ledgerBlocks) := by
  refine Action.guards_state_bind (Action.guards_check (hC dir (.inl rfl)) ?_ ?_)
  · intro e _
    exact ⟨rfl, .inl rfl, fun he => by cases he⟩
  · intro bytes hbytes
    have hwrite : (Action.perform (LinkOp.loc (StoreOp.writeLedger state.dataDir bytes)) :
        PeerAction (Result Unit)).Guards diskEnv state dir C fun r next dir' =>
          ∃ answer, r = .ok answer ∧ next = state ∧
          (dir'.ledger = dir.ledger ∨ HoldsBlocks config dir' state.ledgerBlocks) ∧
          (answer = .ok () → HoldsBlocks config dir' state.ledgerBlocks) := by
      refine Action.guards_perform (hC dir (.inl rfl)) ?_
      intro answer dir' hop
      obtain ⟨env, hclose, hwritten⟩ := hop
      have hend : (dir'.ledger = dir.ledger ∨ HoldsBlocks config dir' state.ledgerBlocks) ∧
          (answer = .ok () → HoldsBlocks config dir' state.ledgerBlocks) := by
        obtain ⟨_, hall⟩ | ⟨_, e, hall⟩ := writeLedger_cases bytes env
        · rw [hall dir, env.flushed_of_closed hclose] at hwritten
          cases hwritten
          exact ⟨.inr (h.saves hbytes), fun _ => h.saves hbytes⟩
        · obtain ⟨temp, hdir⟩ := hall dir
          rw [hdir] at hwritten
          cases hwritten
          exact ⟨.inl rfl, fun he => by cases he⟩
      exact ⟨hC dir' hend.1, answer, rfl, rfl, hend⟩
    refine Action.guards_bind hwrite ?_ ?_
    · intro e s' dir' hr
      obtain ⟨answer, hanswer, _⟩ := hr
      cases hanswer
    · intro answer s' dir' hr
      obtain ⟨answer', hanswer, hsame, hend⟩ := hr
      cases hanswer
      rw [hsame]
      exact Action.guards_ret rfl (hC dir' hend.1) ⟨rfl, hend⟩

theorem persistLedger_guards (hpersist : config.persist = true)
    (h : state.Inv config (buildConsensusParams config)) {C : DataDir → Prop}
    (hC : ∀ dir', dir'.ledger = dir.ledger ∨ HoldsBlocks config dir' state.ledgerBlocks → C dir') :
    persistLedger.Guards diskEnv state dir C fun r next dir' => next = state ∧
      (dir'.ledger = dir.ledger ∨ HoldsBlocks config dir' state.ledgerBlocks) ∧
      (r = .ok () → HoldsBlocks config dir' state.ledgerBlocks) := by
  refine Action.guards_state_bind ?_
  rw [h.persist_eq, if_pos hpersist]
  exact saveLedger_guards h hC

/-! What neither writes nor changes the node. -/

/-- The action leaves the node and the file as they are. -/
def Inert {α : Type} (m : PeerAction α) : Prop :=
  ∀ (state : PeerState) (dir : DataDir) (C : DataDir → Prop), C dir →
    m.Guards diskEnv state dir C fun _ next dir' => next = state ∧ dir' = dir

theorem Inert.bind {α β : Type} {m : PeerAction α} {f : α → PeerAction β} (hm : Inert m)
    (hf : ∀ a, Inert (f a)) : Inert (m >>= f) := by
  intro state dir C hC
  refine Action.guards_bind (hm state dir C hC) (fun _ _ _ h => h) ?_
  intro a s' dir' h
  rw [h.1, h.2]
  exact hf a state dir C hC

theorem inert_ret {α : Type} {m : PeerAction α} (h : ∀ state, ∃ r, m state = .ret (r, state)) :
    Inert m := by
  intro state dir C hC
  obtain ⟨r, hr⟩ := h state
  exact Action.guards_ret hr hC ⟨rfl, rfl⟩

theorem inert_ofExcept {α : Type} (x : Result α) : Inert (Action.ofExcept x) :=
  inert_ret fun _ => ⟨x, rfl⟩

theorem inert_send (data : Bytes) : Inert (sendAllNative data) := by
  refine Inert.bind ?_ fun r => inert_ofExcept r
  intro state dir C hC
  refine Action.guards_perform hC ?_
  intro answer dir' hop
  have hsame : dir' = dir := hop
  rw [hsame]
  exact ⟨hC, rfl, rfl⟩

theorem inert_sendMessage (message : P2pMessage) : Inert (sendMessage message) := by
  unfold sendMessage sendFramed
  split
  · exact inert_ret fun _ => ⟨_, rfl⟩
  · refine (inert_send _).bind fun _ => ?_
    split
    · exact inert_ret fun _ => ⟨_, rfl⟩
    · exact inert_send _

theorem inert_sendReject (code : RejectCode) (reason : String) : Inert (sendReject code reason) :=
  (inert_ofExcept _).bind fun message => inert_sendMessage message

theorem inert_onBlockRequest (request : BlockRequestPayload) : Inert (onBlockRequest request) := by
  refine Inert.bind (inert_ret fun state => ⟨.ok state, rfl⟩) fun state => ?_
  cases state.blockAtHeight request.height with
  | none => exact inert_sendReject _ _
  | some block => exact (inert_ofExcept _).bind fun message => inert_sendMessage message

/-! What an operation leaves. -/

/-- The node is in step with its file, and a success has saved what it has confirmed unless
nothing was confirmed. -/
def Leaves (config : NodeConfig) (base : List Block) (before : List Block) (r : Result Unit)
    (next : PeerState) (dir : DataDir) : Prop :=
  InStep config base next dir ∧
    (r = .ok () → HoldsBlocks config dir next.ledgerBlocks ∨ next.ledgerBlocks = before)

theorem leaves_error {before : List Block} {e : Error} (h : InStep config base state dir) :
    Leaves config base before (.error e) state dir :=
  ⟨h, fun he => by cases he⟩

theorem leaves_idle {m : PeerAction Unit} (hm : Inert m) (h : InStep config base state dir) :
    m.Guards diskEnv state dir (KeepsBlocks config base)
      (Leaves config base state.ledgerBlocks) := by
  refine (hm state dir _ h.keeps).mono (fun _ hc => hc) ?_
  intro r next dir' hr
  rw [hr.1, hr.2]
  exact ⟨h, fun _ => .inr rfl⟩

theorem connectBlock_guards (block : Block) {C : DataDir → Prop} (hC : C dir)
    (h : state.Inv config (buildConsensusParams config)) :
    (connectBlock block).Guards diskEnv state dir C fun _ next dir' => dir' = dir ∧
      next.Inv config (buildConsensusParams config) ∧ state.ledgerBlocks <+: next.ledgerBlocks := by
  obtain ⟨e, _, hrun⟩ | ⟨fees, chain, pool, hs, hrun⟩ := connectBlock_run block state
  · exact Action.guards_ret hrun hC ⟨rfl, h, List.prefix_refl _⟩
  · refine Action.guards_ret hrun hC ⟨rfl, h.connected hs, ?_⟩
    rw [h.ledgerBlocks_connected hs]
    exact List.prefix_append _ _

theorem mineLoop_guards (n : Nat) {C : DataDir → Prop} (hC : C dir)
    (h : state.Inv config (buildConsensusParams config)) :
    (mineLoop n).Guards diskEnv state dir C fun _ next dir' => dir' = dir ∧
      next.Inv config (buildConsensusParams config) ∧ state.ledgerBlocks <+: next.ledgerBlocks := by
  induction n generalizing state with
  | zero => exact Action.guards_ret rfl hC ⟨rfl, h, List.prefix_refl _⟩
  | succ n ih =>
    refine Action.guards_state_bind (Action.guards_check hC
      (fun _ _ => ⟨rfl, h, List.prefix_refl _⟩) fun tmpl _ => ?_)
    refine Action.guards_bind (connectBlock_guards tmpl.block hC h) (fun _ _ _ hr => hr) ?_
    intro _ next dir' hr
    obtain ⟨rfl, hinv, hblocks⟩ := hr
    refine (ih hinv).mono (fun _ hc => hc) ?_
    intro r last dir'' hlast
    exact ⟨hlast.1, hlast.2.1, hblocks.trans hlast.2.2⟩

theorem persist_after {m : PeerAction Unit} (hpersist : config.persist = true) (before : List Block)
    (h : InStep config base state dir)
    (hm : m.Guards diskEnv state dir (KeepsBlocks config base) fun _ next dir' => dir' = dir ∧
      next.Inv config (buildConsensusParams config) ∧ state.ledgerBlocks <+: next.ledgerBlocks) :
    (do m; persistLedger : PeerAction Unit).Guards diskEnv state dir (KeepsBlocks config base)
      (Leaves config base before) := by
  refine Action.guards_bind hm ?_ ?_
  · intro e next dir' hr
    obtain ⟨rfl, hinv, hblocks⟩ := hr
    exact leaves_error (h.grow hinv hblocks)
  · intro _ next dir' hr
    obtain ⟨rfl, hinv, hblocks⟩ := hr
    have hnext := h.grow hinv hblocks
    refine (persistLedger_guards hpersist hinv fun _ hdir => (hnext.written hdir).keeps).mono
      (fun _ hc => hc) ?_
    intro r next' dir'' hr
    rw [hr.1]
    exact ⟨hnext.written hr.2.1, fun hok => .inl (hr.2.2 hok)⟩

theorem mineBlocks_guards (hpersist : config.persist = true) (count : UInt32) (before : List Block)
    (h : InStep config base state dir) :
    (mineBlocks count).Guards diskEnv state dir (KeepsBlocks config base)
      (Leaves config base before) :=
  persist_after hpersist before h (mineLoop_guards _ h.keeps h.inv)

theorem acceptTransaction_guards (tx : Transaction) (h : InStep config base state dir) :
    (acceptTransaction tx).Guards diskEnv state dir (KeepsBlocks config base) fun _ next dir' =>
      InStep config base next dir' ∧ next.ledgerBlocks = state.ledgerBlocks := by
  have hinv : ({ state with mempool :=
      (state.mempool.accept tx state.chain.utxos state.mempoolPolicy).2 }).Inv config
        (buildConsensusParams config) :=
    Inv.accept tx state h.inv _ _ (.ret _)
  exact Action.guards_ret rfl h.keeps ⟨⟨hinv, h.saved⟩, rfl⟩

theorem onTxAnnounce_guards (hpersist : config.persist = true) (payload : Bytes)
    (h : InStep config base state dir) :
    (onTxAnnounce payload).Guards diskEnv state dir (KeepsBlocks config base)
      (Leaves config base state.ledgerBlocks) := by
  refine Action.guards_check h.keeps (fun _ _ => leaves_error h) fun parsed _ =>
    Action.guards_check h.keeps (fun _ _ => leaves_error h) fun tx _ => ?_
  refine Action.guards_bind (acceptTransaction_guards tx h) (fun _ _ _ h' => leaves_error h'.1) ?_
  intro _ next dir' h'
  refine Action.guards_state_bind ?_
  split
  · exact mineBlocks_guards hpersist _ _ h'.1
  · exact Action.guards_ret rfl h'.1.keeps ⟨h'.1, fun _ => .inr h'.2⟩

theorem onBlockAnnounce_guards (hpersist : config.persist = true) (payload : Bytes)
    (h : InStep config base state dir) :
    (onBlockAnnounce payload).Guards diskEnv state dir (KeepsBlocks config base)
      (Leaves config base state.ledgerBlocks) := by
  refine Action.guards_check h.keeps (fun _ _ => leaves_error h) fun parsed _ =>
    Action.guards_check h.keeps (fun _ _ => leaves_error h) fun block _ => ?_
  exact persist_after hpersist _ h (connectBlock_guards block h.keeps h.inv)

theorem reject_guards {before : List Block} (reason : String) (e : Error)
    (h : InStep config base state dir) :
    (do sendReject .invalidMessage reason; Action.fail e : PeerAction Unit).Guards diskEnv state dir
      (KeepsBlocks config base) (Leaves config base before) := by
  refine Action.guards_bind (inert_sendReject _ _ state dir _ h.keeps) ?_ ?_
  · intro e' s' dir' hr
    rw [hr.1, hr.2]
    exact leaves_error h
  · intro _ s' dir' hr
    rw [hr.1, hr.2]
    exact Action.guards_ret rfl h.keeps (leaves_error h)

theorem handleMessage_guards (hpersist : config.persist = true) (msg : P2pMessage)
    (h : InStep config base state dir) :
    (handleMessage msg).Guards diskEnv state dir (KeepsBlocks config base)
      (Leaves config base state.ledgerBlocks) := by
  have hblock : (onBlockAnnounce msg.payload).Guards diskEnv state dir (KeepsBlocks config base)
      (Leaves config base state.ledgerBlocks) := onBlockAnnounce_guards hpersist _ h
  have hdefault : (do
      sendReject .invalidMessage "unsupported message type"
      Action.fail ⟨.invalidMessage, "unsupported message type"⟩ : PeerAction Unit).Guards diskEnv
        state dir (KeepsBlocks config base) (Leaves config base state.ledgerBlocks) :=
    reject_guards _ _ h
  unfold handleMessage
  cases msg.type with
  | txAnnounce =>
    refine Action.guards_check h.keeps (fun _ _ => leaves_error h) fun _ _ =>
      Action.guards_attempt_bind ((onTxAnnounce_guards hpersist _ h).mono (fun _ hc => hc) ?_)
    intro r next dir' hr
    cases r with
    | ok u => exact Action.guards_ret rfl hr.1.keeps hr
    | error e => exact reject_guards e.message e hr.1
  | blockAnnounce => exact Action.guards_check h.keeps (fun _ _ => leaves_error h) fun _ _ => hblock
  | blockRequest =>
    exact Action.guards_check h.keeps (fun _ _ => leaves_error h) fun parsed _ =>
      leaves_idle (inert_onBlockRequest parsed) h
  | blockResponse => exact Action.guards_check h.keeps (fun _ _ => leaves_error h) fun _ _ => hblock
  | ping =>
    exact Action.guards_check h.keeps (fun _ _ => leaves_error h) fun ping _ =>
      Action.guards_check h.keeps (fun _ _ => leaves_error h) fun pong _ =>
        leaves_idle (inert_sendMessage pong) h
  | pong => exact leaves_idle (inert_ret fun _ => ⟨_, rfl⟩) h
  | handshake => exact hdefault
  | peerInfo => exact hdefault
  | txRequest => exact hdefault
  | txResponse => exact hdefault
  | reject => exact hdefault

end PeerState

/-- Every operation keeps a persisting node in step with its file, wherever it is cut off. -/
theorem PeerOp.run_guards {config : NodeConfig} {base : List Block} {state : PeerState}
    {dir : DataDir} (hpersist : config.persist = true) (op : PeerOp)
    (h : InStep config base state dir) :
    op.run.Guards diskEnv state dir (KeepsBlocks config base)
      (PeerState.Leaves config base state.ledgerBlocks) := by
  cases op with
  | accept tx =>
    refine (PeerState.acceptTransaction_guards tx h).mono (fun _ hc => hc) ?_
    intro r next dir' hr
    exact ⟨hr.1, fun _ => .inr hr.2⟩
  | mine count => exact PeerState.mineBlocks_guards hpersist count _ h
  | message msg => exact PeerState.handleMessage_guards hpersist msg h

/-! The life of a node. -/

structure Machine where
  node : Option PeerState
  dir : DataDir

/-- An operation runs to its end, or the process stops somewhere inside it, with anything in
the temporary file; a stopped node is started again from its ledger. -/
inductive LifeStep (config : NodeConfig) : Machine → Machine → Prop where
  | operate {state next : PeerState} {dir dir' : DataDir} {op : PeerOp} {ops : List NodeOp}
      {result : Result Unit}
      (h : (op.run state).RunsTo diskEnv dir ops (.ret (result, next)) dir') :
      LifeStep config ⟨some state, dir⟩ ⟨some next, dir'⟩
  | crash {state : PeerState} {dir dir' : DataDir} {op : PeerOp} {ops : List NodeOp}
      {rest : Process NodeOp (LinkOp.Answer Error StoreOp.Answer) (Result Unit × PeerState)}
      (h : (op.run state).RunsTo diskEnv dir ops rest dir') (temp : Option Bytes) :
      LifeStep config ⟨some state, dir⟩ ⟨none, { dir' with temp := temp }⟩
  | restart {state : PeerState} {dir dir' : DataDir} {ops : List NodeOp}
      (h : (PeerState.fromConfig { config with restore := true } dir).RunsTo diskEnv dir ops
        (.ret (.ok state)) dir') : LifeStep config ⟨none, dir⟩ ⟨some state, dir'⟩

/-- The life of a node from its first start, which does not restore. -/
inductive Life (config : NodeConfig) : Machine → Prop where
  | start {state : PeerState} {dir dir' : DataDir} {ops : List NodeOp}
      (h : (PeerState.fromConfig { config with restore := false } dir).RunsTo diskEnv dir ops
        (.ret (.ok state)) dir') : Life config ⟨some state, dir'⟩
  | step {machine next : Machine} (h : Life config machine) (hstep : LifeStep config machine next) :
      Life config next

structure Machine.Keeps (config : NodeConfig) (base : List Block) (machine : Machine) : Prop where
  file : KeepsBlocks config base machine.dir
  node : ∀ state, machine.node = some state → InStep config base state machine.dir

theorem InStep.machine {config : NodeConfig} {base : List Block} {state : PeerState} {dir : DataDir}
    (h : InStep config base state dir) : Machine.Keeps config base ⟨some state, dir⟩ := by
  refine ⟨h.keeps, ?_⟩
  intro node hnode
  cases hnode
  exact h

namespace PeerState
variable {config : NodeConfig} {state : PeerState} {dir dir' : DataDir} {ops : List NodeOp}

theorem Inv.of_restore {restore : Bool} {params : ConsensusParams}
    (h : state.Inv { config with restore := restore } params) : state.Inv config params :=
  ⟨h.history, h.pool, h.limits_eq, h.sane, h.policy_eq, h.consensus_eq, h.persist_eq, h.nodeId_eq⟩

theorem restoreTransactions_ret (txs : List Transaction) (state : PeerState) :
    ∃ out, restoreTransactions txs state = .ret out := by
  induction txs generalizing state with
  | nil => exact ⟨_, rfl⟩
  | cons tx rest ih =>
    simp only [restoreTransactions, Action.bind_run, Action.attempt, acceptTransaction,
      Process.bind_ret_left]
    cases (state.mempool.accept tx state.chain.utxos state.mempoolPolicy).1 with
    | error e => exact ⟨_, rfl⟩
    | ok u => exact ih _

theorem restart_ret (hrestore : config.restore = true) (dir : DataDir) :
    ∃ out, fromConfig config dir = .ret out := by
  simp only [fromConfig, hrestore, if_true]
  cases resolveCoinbaseRecipient config with
  | error e => exact ⟨_, rfl⟩
  | ok recipient =>
    by_cases hexists : ledgerExists dir = false
    · exact ⟨_, if_pos hexists⟩
    · simp only [if_neg hexists]
      cases loadChain dir with
      | error e => exact ⟨_, rfl⟩
      | ok chain =>
        cases loadLedger dir with
        | error e => exact ⟨_, rfl⟩
        | ok ledger =>
          obtain ⟨out, hout⟩ := restoreTransactions_ret ledger.mempoolTransactions
            ((start config recipient chain).storeBlocks ledger.blocks)
          exact ⟨_, congrArg (Process.bind · _) hout⟩

theorem restart_blocks (hrestore : config.restore = true)
    (h : (fromConfig config dir).Returns (.ok state)) :
    ∃ ledger, loadLedger dir = .ok ledger ∧ state.ledgerBlocks = ledger.blocks := by
  obtain ⟨recipient, ledger, chain, pool, _, hr, rfl⟩ := (fromConfig_restores hrestore).mp h
  have hempty : CatalogOf [] (start config recipient chain).catalog := rfl
  exact ⟨ledger, hr.loads,
    (storeBlocks_catalog hempty fun i b hi => hr.replays.block_height hi).values_eq⟩

theorem restart_inStep {base : List Block} (hfile : KeepsBlocks config base dir)
    (h : (fromConfig { config with restore := true } dir).RunsTo diskEnv dir ops (.ret (.ok state))
      dir') : InStep config base state dir' := by
  have hissued : ∃ out, fromConfig { config with restore := true } dir = .ret out :=
    restart_ret rfl dir
  obtain ⟨out, hout⟩ := hissued
  have hreturns := h.returns
  rw [hout] at h
  obtain ⟨_, _, rfl⟩ := Process.runsTo_ret.mp h
  obtain ⟨ledger, hload, hblocks⟩ := restart_blocks rfl hreturns
  obtain ⟨saved, hholds, hbase⟩ := hfile
  obtain ⟨bytes, pool, hledger, hdecode⟩ := hholds.stored
  have hsaved : ledger = ⟨saved, buildConsensusParams config, pool⟩ := by
    obtain ⟨bytes', hread, hload⟩ := bind_eq_ok.mp hload
    simp only [readFile, hledger, guard_eq_ok] at hread
    cases hread.2
    exact Except.ok.inj (hload.symm.trans hdecode)
  have hreached : Reached { config with restore := true } dir' anyOp state := .start hreturns
  have hinv := hreached.inv
  have hparams : startParams { config with restore := true } dir' =
      buildConsensusParams config := by
    simp [startParams, hload, hsaved]
  rw [hparams] at hinv
  rw [hsaved] at hblocks
  exact ⟨hinv.of_restore, saved, hholds, hbase, by rw [hblocks]⟩

theorem mineAndPersist_guards (hpersist : config.persist = true)
    (h : state.Inv config (buildConsensusParams config)) :
    (mineAndPersist config).Guards diskEnv state dir (fun _ => True) fun r next dir' =>
      r = .ok () → InStep config next.ledgerBlocks next dir' := by
  have hsave : ∀ (state : PeerState) (dir : DataDir),
      state.Inv config (buildConsensusParams config) →
      persistLedger.Guards diskEnv state dir (fun _ => True) fun r next dir' =>
        next.Inv config (buildConsensusParams config) ∧
        (r = .ok () → InStep config next.ledgerBlocks next dir') := by
    intro state dir hinv
    refine (persistLedger_guards hpersist hinv fun _ _ => trivial).mono (fun _ hc => hc) ?_
    intro r next dir' hr
    rw [hr.1]
    exact ⟨hinv, fun hok => ⟨hinv, _, hr.2.2 hok, List.prefix_refl _, List.prefix_refl _⟩⟩
  have hmined : (mineBlocks config.mineBlocks).Guards diskEnv state dir (fun _ => True)
      fun r next dir' => r = .ok () → next.Inv config (buildConsensusParams config) := by
    refine Action.guards_bind (mineLoop_guards _ trivial h) (fun _ _ _ _ he => by cases he) ?_
    intro _ next dir' hr
    exact (hsave next dir' hr.2.1).mono (fun _ hc => hc) fun _ _ _ hr _ => hr.1
  refine Action.guards_bind hmined (fun _ _ _ _ he => by cases he) ?_
  intro _ next dir' hr
  rw [if_pos hpersist]
  exact (hsave next dir' (hr rfl)).mono (fun _ hc => hc) fun _ _ _ hr => hr.2

theorem start_inStep (hpersist : config.persist = true)
    (h : (fromConfig { config with restore := false } dir).RunsTo diskEnv dir ops (.ret (.ok state))
      dir') : InStep config state.ledgerBlocks state dir' := by
  have hgenesis : ∀ recipient, (fresh config recipient).Inv config (buildConsensusParams config) :=
    fun recipient => start_inv recipient (.create (create_genesis config _)) rfl
  unfold fromConfig at h
  cases hrec : resolveCoinbaseRecipient { config with restore := false } with
  | error e =>
    simp only [hrec] at h
    cases (Process.runsTo_ret.mp h).2.1
  | ok recipient =>
    have hcreate : Chain.create (buildGenesisBlock { config with restore := false })
        (buildConsensusParams { config with restore := false }) = _ := create_genesis config _
    simp only [hrec, Bool.false_eq_true, if_false, hcreate] at h
    obtain ⟨out, dir₁, first, second, _, hfirst, hsecond⟩ := h.bind_ret
    obtain ⟨_, hout, rfl⟩ := Process.runsTo_ret.mp hsecond
    obtain ⟨r, next⟩ := out
    cases r with
    | error e => cases hout
    | ok u =>
      cases hout
      exact (mineAndPersist_guards hpersist (hgenesis recipient) _ _ _ hfirst).2 _ _ rfl rfl

end PeerState

theorem LifeStep.keeps {config : NodeConfig} {base : List Block} {machine next : Machine}
    (hpersist : config.persist = true) (hstep : LifeStep config machine next)
    (h : machine.Keeps config base) : next.Keeps config base := by
  cases hstep with
  | @operate state next dir dir' op ops result hrun =>
    obtain ⟨_, hend⟩ := PeerOp.run_guards hpersist op (h.node _ rfl) _ _ _ hrun
    exact (hend _ _ rfl).1.machine
  | @crash state dir dir' op ops rest hrun temp =>
    obtain ⟨⟨saved, hholds, hbase⟩, _⟩ := PeerOp.run_guards hpersist op (h.node _ rfl) _ _ _ hrun
    refine ⟨⟨saved, hholds.of_ledger rfl, hbase⟩, ?_⟩
    intro state hnone
    cases hnone
  | restart hrun => exact (PeerState.restart_inStep h.file hrun).machine

theorem Life.inStep {config : NodeConfig} {machine : Machine} (hpersist : config.persist = true)
    (h : Life config machine) : machine.Keeps config [] := by
  induction h with
  | start hrun =>
    have hstart := PeerState.start_inStep hpersist hrun
    obtain ⟨saved, hholds, _, hsaved⟩ := hstart.saved
    exact (InStep.mk hstart.inv ⟨saved, hholds, List.nil_prefix, hsaved⟩).machine
  | step _ hstep ih => exact hstep.keeps hpersist ih

/-- Blocks that an operation has confirmed and acknowledged stay: whatever operations, failed
saves, crashes and restarts follow, the ledger file still decodes to a list of blocks that
begins with them, and so does the node whenever it runs. -/
theorem acknowledged_blocks_survive {config : NodeConfig} (hpersist : config.persist = true)
    {state next : PeerState} {dir dir' : DataDir} {op : PeerOp} {ops : List NodeOp}
    (hlife : Life config ⟨some state, dir⟩)
    (hrun : (op.run state).RunsTo diskEnv dir ops (.ret (.ok (), next)) dir')
    (hnew : next.ledgerBlocks ≠ state.ledgerBlocks) {later : Machine}
    (hlater : Relation.ReflTransGen (LifeStep config) ⟨some next, dir'⟩ later) :
    (∃ bytes ledger, later.dir.ledger = some bytes ∧ decodeLedger bytes = .ok ledger ∧
      next.ledgerBlocks <+: ledger.blocks) ∧
    ∀ node, later.node = some node → next.ledgerBlocks <+: node.ledgerBlocks := by
  obtain ⟨hstep, hsaved⟩ :=
    (PeerOp.run_guards hpersist op ((hlife.inStep hpersist).node _ rfl) _ _ _
    hrun).2 _ _ rfl
  obtain hholds | hsame := hsaved rfl
  · have hnow : Machine.Keeps config next.ledgerBlocks ⟨some next, dir'⟩ :=
      (InStep.mk hstep.inv ⟨_, hholds, List.prefix_refl _, List.prefix_refl _⟩).machine
    have hthen : later.Keeps config next.ledgerBlocks := by
      induction hlater with
      | refl => exact hnow
      | tail _ hlast ih => exact hlast.keeps hpersist ih
    obtain ⟨saved, hfile, hbase⟩ := hthen.file
    obtain ⟨bytes, pool, hledger, hdecode⟩ := hfile.stored
    refine ⟨⟨bytes, _, hledger, hdecode, hbase⟩, ?_⟩
    intro node hnode
    obtain ⟨saved', _, hbase', hblocks⟩ := (hthen.node node hnode).saved
    exact hbase'.trans hblocks
  · exact absurd hsame hnew

/-! A node that saves its genesis block, mines a block, crashes in the middle of the next one
and comes up again. -/

theorem PeerState.saveLedger_call {state : PeerState} {bytes : Bytes}
    (hbytes : ledgerBytes state.ledgerBlocks state.consensus state.mempool.sortedTransactions =
      .ok bytes) :
    PeerState.saveLedger state =
      .call (.loc (.writeLedger state.dataDir bytes)) fun r => .ret (r, state) := by
  simp only [PeerState.saveLedger, Action.bind_run, Action.state_run, Process.bind_ret_left, hbytes,
    Action.ofExcept_run]
  rfl

theorem PeerState.persistLedger_runs {state : PeerState} {dir : DataDir} {bytes : Bytes}
    (hpersist : state.persist = true)
    (hbytes : ledgerBytes state.ledgerBlocks state.consensus state.mempool.sortedTransactions =
      .ok bytes) :
    (persistLedger state).RunsTo diskEnv dir [.loc (.writeLedger state.dataDir bytes)]
      (.ret (.ok (), state)) ⟨some bytes, none⟩ := by
  rw [persistLedger, Action.bind_run, Action.state_run, Process.bind_ret_left]
  dsimp only
  rw [if_pos hpersist, saveLedger_call hbytes]
  exact .step ⟨{}, rfl, rfl⟩ (.refl _ _)

theorem LifeStep.of_restored {config : NodeConfig} {dir : DataDir} {node : PeerState}
    (h : PeerState.fromConfig { config with restore := true } dir = .ret (.ok node)) :
    LifeStep config ⟨none, dir⟩ ⟨some node, dir⟩ := by
  have hruns : (PeerState.fromConfig { config with restore := true } dir).RunsTo diskEnv dir []
      (.ret (.ok node)) dir := by
    rw [h]
    exact .refl _ _
  exact .restart hruns

theorem PeerState.Inv.restarts {config : NodeConfig} {state : PeerState} {bytes : Bytes}
    (h : state.Inv config (buildConsensusParams config)) (hhex : config.coinbaseRecipientHex = [])
    (hbytes : ledgerBytes state.ledgerBlocks state.consensus state.mempool.sortedTransactions =
      .ok bytes) (hsize : bytes.length ≤ kMaxLedgerFileBytes)
    (hpool : state.mempool.sortedTransactions = []) (temp : Option Bytes) :
    ∃ node, LifeStep config ⟨none, ⟨some bytes, temp⟩⟩ ⟨some node, ⟨some bytes, temp⟩⟩ := by
  obtain ⟨hacc, hdecode⟩ := h.saved_decodes hbytes
  have hload : loadLedger ⟨some bytes, temp⟩ = _ := (loadLedger_of_fits rfl hsize).trans hdecode
  have hpos : 0 < bytes.length := by
    rw [(ledgerBytes_eq_ok.mp hbytes).2, encodedLedger_length, ledgerSize]
    omega
  have hexists : ledgerExists ⟨some bytes, temp⟩ = true := decide_eq_true hpos
  have hrestore : { config with restore := true }.restore = true := rfl
  have hup := fromConfig_restored hrestore hhex hexists hload hpool hacc
  exact ⟨_, .of_restored hup⟩

theorem PeerState.soloBlock_length (state : PeerState) : state.soloBlock.toBytes.length = 176 := by
  have htxs : state.soloBlock.transactions = [state.soloCoinbase] := rfl
  rw [block_toBytes_length, htxs, List.map_singleton, soloCoinbase, makeCoinbase_toBytes_length]
  rfl

def savingNode : PeerState := PeerState.fresh { persist := true } zeroHash

theorem savingNode_risen : PeerState.Risen { persist := true } zeroHash 0 savingNode :=
  PeerState.fresh_risen { persist := true } zeroHash 0

theorem savingNode_inv :
    savingNode.Inv { persist := true } (buildConsensusParams { persist := true }) :=
  PeerState.start_inv zeroHash (.create (create_genesis { persist := true } _)) rfl

theorem savingNode_ready : savingNode.SoloReady :=
  (savingNode_risen.soloReady_iff (by decide)).mpr
    ⟨by decide, by decide, fun j hj => absurd hj (Nat.not_lt_zero j), by decide⟩

theorem savingNode_mined :
    savingNode.solo.Inv { persist := true } (buildConsensusParams { persist := true }) ∧
      savingNode.solo.ledgerBlocks = savingNode.ledgerBlocks ++ [savingNode.soloBlock] := by
  have hready := savingNode_ready
  have hidle := savingNode_risen.idle
  have hconn := hidle.connect_solo.mpr ⟨hready.subsidy_le, hready.fresh, rfl, rfl⟩
  have hs : savingNode.chain.submitBlock savingNode.soloBlock (some savingNode.mempool) =
      .ok (0, ⟨savingNode.soloBlock.header, savingNode.soloCoins, savingNode.chain.params⟩, _) :=
    Chain.submitBlock_ok.mpr
      ⟨(hidle.soloBlock_linksTo hready.height_ne).mpr hready.time_le, ⟨_, hconn, rfl⟩, rfl⟩
  exact ⟨savingNode_inv.connected hs, savingNode_inv.ledgerBlocks_connected hs⟩

theorem savingNode_emptyPool : savingNode.solo.mempool.sortedTransactions = [] := by
  rw [savingNode_mined.1.pool.sortedTransactions_eq, savingNode_risen.solo.pool]
  rfl

theorem savingNode_saves : ∃ bytes,
    ledgerBytes savingNode.solo.ledgerBlocks savingNode.solo.consensus
      savingNode.solo.mempool.sortedTransactions = .ok bytes ∧ bytes.length = 300 := by
  obtain ⟨hinv, hblocks⟩ := savingNode_mined
  have hfits : savingNode.solo.FitsLedger := by
    refine ⟨?_, ?_⟩
    · rw [hblocks]
      exact (by decide : 2 ≤ kMaxLedgerBlocks.toNat)
    · rw [Mempool.size, savingNode_risen.solo.pool]
      exact Nat.zero_le _
  obtain ⟨_, bytes, _, hbytes, _⟩ := hinv.ledger_round_trip hfits
  have hgenesis : savingNode.ledgerBlocks = [buildGenesisBlock { persist := true }] := rfl
  refine ⟨bytes, hbytes, ?_⟩
  rw [(ledgerBytes_eq_ok.mp hbytes).2, encodedLedger_length, ledgerSize, hblocks, hgenesis,
    savingNode_emptyPool, List.singleton_append, List.map_cons, List.map_singleton,
    genesis_toBytes_length, PeerState.soloBlock_length]
  rfl

theorem acknowledged_mined_block_survives :
    ∃ dir dir' ops restarted, Life { persist := true } ⟨some savingNode, dir⟩ ∧
      ((PeerOp.mine 1).run savingNode).RunsTo diskEnv dir ops
        (.ret (.ok (), savingNode.solo)) dir' ∧
      Relation.ReflTransGen (LifeStep { persist := true }) ⟨some savingNode.solo, dir'⟩
        ⟨some restarted, { dir' with temp := some [0] }⟩ ∧
      savingNode.ledgerBlocks ++ [savingNode.soloBlock] <+: restarted.ledgerBlocks := by
  obtain ⟨_, bytes, _, hbytes, _⟩ :=
    savingNode_inv.ledger_round_trip (genesisNode_fits { persist := true })
  obtain ⟨hinv, hblocks⟩ := savingNode_mined
  obtain ⟨bytes', hbytes', hlen⟩ := savingNode_saves
  have hsave : ∀ dir : DataDir, (PeerState.persistLedger savingNode).RunsTo diskEnv dir
      [.loc (.writeLedger savingNode.dataDir bytes)] (.ret (.ok (), savingNode))
      ⟨some bytes, none⟩ := fun _ => PeerState.persistLedger_runs rfl hbytes
  have hwork : (PeerState.mineAndPersist { persist := true } savingNode).RunsTo diskEnv ⟨none, none⟩
      _ (.ret (.ok (), savingNode)) ⟨some bytes, none⟩ := (hsave _).bind.trans (hsave _)
  have hstart : (PeerState.fromConfig { persist := true } ⟨none, none⟩).RunsTo diskEnv ⟨none, none⟩
      _ (.ret (.ok savingNode)) ⟨some bytes, none⟩ := hwork.bind
  have hrun : ((PeerOp.mine 1).run savingNode).RunsTo diskEnv ⟨some bytes, none⟩
      [.loc (.writeLedger savingNode.solo.dataDir bytes')] (.ret (.ok (), savingNode.solo))
      ⟨some bytes', none⟩ := by
    have hmine : PeerState.mineLoop (1 : UInt32).toNat savingNode =
        .ret (.ok (), savingNode.solo) :=
      (savingNode_risen.idle.mineLoop_succ 0).1 savingNode_ready
    simp only [PeerOp.run, PeerState.mineBlocks, Action.bind_run, hmine, Process.bind_ret_left]
    exact PeerState.persistLedger_runs hinv.persist_eq hbytes'
  have hlife : Life { persist := true } ⟨some savingNode, ⟨some bytes, none⟩⟩ := .start hstart
  -- the machine stops while the next block is mined, before anything is saved
  have hstopped : ((PeerOp.mine 1).run savingNode.solo).RunsTo diskEnv ⟨some bytes', none⟩ [] _ _ :=
    .refl _ _
  have hcrash : LifeStep { persist := true } _ ⟨none, ⟨some bytes', some [0]⟩⟩ :=
    .crash hstopped (some [0])
  obtain ⟨restarted, hrestart⟩ := hinv.restarts rfl hbytes' (by rw [hlen]; decide)
    savingNode_emptyPool (some [0])
  have hlater := (Relation.ReflTransGen.single hcrash).tail hrestart
  have hnew : savingNode.solo.ledgerBlocks ≠ savingNode.ledgerBlocks := by
    rw [hblocks]
    simp
  have hkept := (acknowledged_blocks_survive rfl hlife hrun hnew hlater).2 restarted rfl
  rw [hblocks] at hkept
  exact ⟨_, _, _, restarted, hlife, hrun, hlater, hkept⟩

end Blockchain
