import Blockchain.Durability
import Blockchain.Resources
import Blockchain.SyncBound

/-! The relay client and its data directory. The client works on a state that does not persist
and saves it itself when the session is over, so a session that fails or is cut off leaves
the ledger file as it was. -/
namespace Blockchain
open Lib

section Budgets
variable {persist : Bool}

def pullCalls : Nat := frameCalls + (frameCalls + messageCalls)

theorem exchangeRelayHandshake_within :
    exchangeRelayHandshake.Within (·.persist = persist) (NodePermitted persist) LinkOp.calls
      (frameCalls + frameCalls) := by
  refine Action.Within.state_bind fun state => Action.Within.check fun outbound => ?_
  refine (sendMessage_within outbound).bind (PeerState.sendMessage_keeps _) fun _ => ?_
  exact Action.Within.bind (k := 0) recvMessage_within recvMessage_keeps fun _ =>
    Action.within_ofExcept _ _

theorem requestBlock_within (height : UInt32) :
    (requestBlock height).Within (·.persist = persist) (NodePermitted persist) LinkOp.calls
      pullCalls := by
  refine Action.Within.check fun request => ?_
  refine (sendMessage_within request).bind (PeerState.sendMessage_keeps _) fun _ => ?_
  exact recvMessage_within.bind recvMessage_keeps PeerState.handleMessage_within

theorem sendTxAnnounces_within (txs : List Transaction) :
    (sendTxAnnounces txs).Within (·.persist = persist) (NodePermitted persist) LinkOp.calls
      (txs.length * frameCalls) := by
  induction txs with
  | nil => exact Action.within_pure _ _
  | cons tx rest ih =>
    have hbudget : (tx :: rest).length * frameCalls = frameCalls + rest.length * frameCalls := by
      rw [List.length_cons]
      ring
    rw [hbudget]
    refine Action.Within.check fun message => ?_
    exact (sendMessage_within message).bind (PeerState.sendMessage_keeps _) fun _ => ih

theorem requestBlocksAfterTx_within (n : Nat) :
    (requestBlocksAfterTx n).Within (·.persist = persist) (NodePermitted persist) LinkOp.calls
      (n * pullCalls) := by
  induction n with
  | zero => exact Action.within_pure _ _
  | succ n ih =>
    have hbudget : (n + 1) * pullCalls = pullCalls + n * pullCalls := by ring
    rw [hbudget]
    refine Action.Within.state_bind fun state => ?_
    exact (requestBlock_within _).bind (requestBlock_keeps PeerState.handleMessage_keeps_persist _)
      fun _ => ih

end Budgets

def afterSync (options : RelayClientOptions) : PeerAction Unit := do
  sendTxAnnounces options.txsAfterSync
  requestBlocksAfterTx options.blocksAfterTx.toNat

def reportRelayClient : PeerAction RelayClientResult := do
  let state ← Action.state
  pure ⟨state.height, state.tipHash⟩

theorem finishRelayClient_saves (options : RelayClientOptions) :
    finishRelayClient true options =
      (afterSync options >>= fun _ => PeerState.saveLedger >>= fun _ => reportRelayClient) := by
  rw [afterSync, Action.bind_assoc]
  rfl

theorem finishRelayClient_reports (options : RelayClientOptions) :
    finishRelayClient false options = (afterSync options >>= fun _ => reportRelayClient) := by
  rw [afterSync, Action.bind_assoc]
  rfl

theorem afterSync_within {persist : Bool} (options : RelayClientOptions) :
    (afterSync options).Within (·.persist = persist) (NodePermitted persist) LinkOp.calls
      (options.txsAfterSync.length * frameCalls + options.blocksAfterTx.toNat * pullCalls) :=
  (sendTxAnnounces_within _).bind (sendTxAnnounces_keeps _) fun _ => requestBlocksAfterTx_within _

theorem afterSync_keeps {I : PeerState → Prop}
    (hmessage : ∀ message, (PeerState.handleMessage message).Keeps I)
    (options : RelayClientOptions) :
    (afterSync options).Keeps I :=
  Action.keeps_bind (sendTxAnnounces_keeps _) fun _ => requestBlocksAfterTx_keeps hmessage _

/-! What neither touches the file nor depends on it. -/

theorem diskEnv_unchanged (op : NodeOp) (dir : DataDir)
    (answer : LinkOp.Answer Error StoreOp.Answer op) (dir' : DataDir) (hok : NodePermitted false op)
    (h : diskEnv op dir answer dir') : dir' = dir := by
  cases op with
  | send data => exact h
  | recv count => exact h
  | loc op =>
    cases op
    cases hok.1

theorem diskEnv_ledger (op : NodeOp) (dir : DataDir)
    (answer : LinkOp.Answer Error StoreOp.Answer op) (dir' : DataDir) (hok : NodePermitted false op)
    (h : diskEnv op dir answer dir') : dir'.ledger = dir.ledger :=
  congrArg DataDir.ledger (diskEnv_unchanged op dir answer dir' hok h)

theorem diskEnv_answers (op : NodeOp) (dir : DataDir)
    (answer : LinkOp.Answer Error StoreOp.Answer op) (hok : NodePermitted false op) :
    ∃ dir', diskEnv op dir answer dir' := by
  cases op with
  | send data => exact ⟨dir, rfl⟩
  | recv count => exact ⟨dir, rfl⟩
  | loc op =>
    cases op
    cases hok.1

theorem clientStep_within {α : Type} {m : PeerAction α} {state : PeerState}
    {turn : α → PeerState → Turn ClientPoint (Result RelayClientResult)} {ok : NodeOp → Prop}
    {n : Nat} (h : (m state).Within ok LinkOp.calls n) :
    (clientStep m state turn).Within ok LinkOp.calls n := by
  refine h.bind (m := 0) fun out _ => ?_
  obtain ⟨r, next⟩ := out
  cases r with
  | ok a => trivial
  | error e => trivial

def ClientPoint.MaySave (persist : Bool) : ClientPoint → Prop
  | .synced _ _ => persist = true
  | _ => False

theorem relayClient_within {persist : Bool} {options : RelayClientOptions} {point : ClientPoint}
    (hstate : point.state.persist = false) (hpoint : ¬ point.MaySave persist) :
    ∃ n, (relayClient persist options point).Within (NodePermitted false) LinkOp.calls n := by
  cases point with
  | connected state =>
    rw [relayClient]
    exact ⟨_, clientStep_within (exchangeRelayHandshake_within state hstate)⟩
  | syncing peer next state =>
    rw [relayClient]
    split
    · exact ⟨_, clientStep_within (requestBlock_within next state hstate)⟩
    · split
      · exact ⟨0, trivial⟩
      · exact ⟨0, trivial⟩
  | synced peer state =>
    have hpersist : persist = false := Bool.eq_false_iff.mpr hpoint
    rw [relayClient, hpersist, finishRelayClient_reports]
    have hreport : reportRelayClient.Within (·.persist = false) (NodePermitted false) LinkOp.calls
        0 := Action.within_ret (fun state => ⟨_, rfl⟩) 0
    have hfinish := (afterSync_within options).bind
      (afterSync_keeps PeerState.handleMessage_keeps_persist options) fun _ => hreport
    exact ⟨_, clientStep_within (hfinish state hstate)⟩

structure SavedReport (config : NodeConfig) (params : ConsensusParams) (base : List Block)
    (result : RelayClientResult) (dir : DataDir) : Prop where
  ledger : ∃ bytes ledger chain, dir.ledger = some bytes ∧ decodeLedger bytes = .ok ledger ∧
    ledger.params = buildConsensusParams config ∧ base <+: ledger.blocks ∧
    Accepted params ledger.blocks chain ∧ chain.height = result.height ∧
    chain.tipHash = result.tipHash

def Succeeded (turn : Turn ClientPoint (Result RelayClientResult)) : Prop :=
  ∃ result, turn = .done (.ok result)

def SavedTurn (config : NodeConfig) (params : ConsensusParams) (base : List Block)
    (turn : Turn ClientPoint (Result RelayClientResult)) (dir : DataDir) : Prop :=
  ∃ result, turn = .done (.ok result) ∧ SavedReport config params base result dir

theorem not_succeeded_error (e : Error) : ¬ Succeeded (.done (.error e)) := by
  intro h
  obtain ⟨result, hresult⟩ := h
  cases hresult

theorem not_succeeded_again (point : ClientPoint) : ¬ Succeeded (.again point) := by
  intro h
  obtain ⟨result, hresult⟩ := h
  cases hresult

section Commits
variable {config : NodeConfig} {params : ConsensusParams} {base : List Block}

theorem saving_commits {state : PeerState}
    (h : state.Extends (bootstrapConfig config) params base) :
    (clientStep (PeerState.saveLedger >>= fun _ => reportRelayClient) state fun result _ =>
      .done (.ok result)).CommitsLast diskEnv DataDir.ledger Succeeded
        (SavedTurn config params base) := by
  rw [clientStep_bind]
  cases hbytes : ledgerBytes state.ledgerBlocks state.consensus
    state.mempool.sortedTransactions with
  | error e =>
    have hrun : PeerState.saveLedger state = .ret (.error e, state) := by
      simp only [PeerState.saveLedger, Action.bind_run, Action.state_run, Process.bind_ret_left,
        hbytes, Action.ofExcept_run]
    rw [hrun]
    exact Process.commitsLast_ret (not_succeeded_error e)
  | ok bytes =>
    rw [PeerState.saveLedger_call hbytes, Process.call_bind]
    refine Process.commitsLast_call fun dir answer dir' hop => ?_
    obtain ⟨env, hclose, hwritten⟩ := hop
    obtain ⟨_, hall⟩ | ⟨_, e, hall⟩ := writeLedger_cases bytes env
    · rw [hall dir, env.flushed_of_closed hclose] at hwritten
      cases hwritten
      obtain ⟨hacc, hdecode⟩ := h.inv.saved_decodes hbytes
      exact .inr ⟨_, rfl, ⟨_, rfl⟩, _, rfl,
        ⟨bytes, _, state.chain, rfl, hdecode, rfl, h.blocks, hacc, rfl, rfl⟩⟩
    · obtain ⟨temp, hdir⟩ := hall dir
      rw [hdir] at hwritten
      cases hwritten
      exact .inl ⟨rfl, Process.commitsLast_ret (not_succeeded_error e)⟩

theorem relayClient_commits (options : RelayClientOptions) {point : ClientPoint}
    (h : point.state.Extends (bootstrapConfig config) params base) :
    (relayClient true options point).CommitsLast diskEnv DataDir.ledger Succeeded
      (SavedTurn config params base) := by
  have hstate : point.state.persist = false := h.inv.persist_eq
  have hagain : ∀ {α : Type} (out : Result α × PeerState) (next : α → PeerState → ClientPoint),
      (onOk (fun a s => .ret (.again (next a s))) out).CommitsLast diskEnv DataDir.ledger Succeeded
        (SavedTurn config params base) := by
    intro α out next
    obtain ⟨r, last⟩ := out
    cases r with
    | ok a => exact Process.commitsLast_ret (not_succeeded_again _)
    | error e => exact Process.commitsLast_ret (not_succeeded_error e)
  cases point with
  | connected state =>
    rw [relayClient, clientStep_eq]
    exact (exchangeRelayHandshake_within state hstate).commitsLast diskEnv_ledger
      fun out _ => hagain out _
  | syncing peer next state =>
    rw [relayClient]
    split
    · rw [clientStep_eq]
      exact (requestBlock_within next state hstate).commitsLast diskEnv_ledger
        fun out _ => hagain out _
    · split
      · exact Process.commitsLast_ret (not_succeeded_error _)
      · exact Process.commitsLast_ret (not_succeeded_again _)
  | synced peer state =>
    rw [relayClient, finishRelayClient_saves, clientStep_bind]
    refine (afterSync_within options state hstate).commitsLast diskEnv_ledger fun out hout => ?_
    obtain ⟨r, last⟩ := out
    cases r with
    | error e => exact Process.commitsLast_ret (not_succeeded_error e)
    | ok _ =>
      exact saving_commits
        (afterSync_keeps PeerState.Extends.handleMessage options state h _ _ hout)

theorem relayClient_runs {persist : Bool} {options : RelayClientOptions} {point : ClientPoint}
    (h : point.state.Extends (bootstrapConfig config) params base) {dir dir' : DataDir}
    {ops : List NodeOp} {rest : ClientParty}
    (hrun : (relayClient persist options point).RunsTo diskEnv dir ops rest dir') :
    (dir'.ledger = dir.ledger ∧
      (persist = true → ∀ result, rest ≠ .ret (.done (.ok result)))) ∨
    (persist = true ∧ ∃ result, rest = .ret (.done (.ok result)) ∧
      SavedReport config params base result dir') := by
  cases persist with
  | true =>
    obtain ⟨hsame, hrest⟩ | ⟨turn, hturn, _, result, rfl, hsaved⟩ :=
      relayClient_commits options h _ _ _ _ hrun
    · exact .inl ⟨hsame, fun _ result hresult => hrest _ hresult ⟨result, rfl⟩⟩
    · exact .inr ⟨rfl, result, hturn, hsaved⟩
  | false =>
    have hmay : ¬ point.MaySave false := by
      cases point with
      | connected state => exact id
      | syncing peer next state => exact id
      | synced peer state => exact Bool.false_ne_true
    have hquiet : ∃ n, (relayClient false options point).Within (NodePermitted false)
        LinkOp.calls n := relayClient_within h.inv.persist_eq hmay
    obtain ⟨n, hwithin⟩ := hquiet
    exact .inl ⟨hwithin.view_eq diskEnv_ledger hrun, fun hfalse => by cases hfalse⟩

end Commits

/-- What is left to do of a client that was started on `dir`, and its data directory. -/
inductive ClientRun (config : NodeConfig) (options : RelayClientOptions) (dir : DataDir) :
    ClientParty → DataDir → Prop where
  | build {ops : List NodeOp} {rest : ClientParty} {dir' : DataDir}
      (h : (runRelayClient config dir).RunsTo diskEnv dir ops rest dir') :
      ClientRun config options dir rest dir'
  | turn {point : ClientPoint} {ops : List NodeOp} {rest : ClientParty} {dir₁ dir₂ : DataDir}
      (h : ClientRun config options dir (.ret (.again point)) dir₁)
      (hrun : (relayClient config.persist options point).RunsTo diskEnv dir₁ ops rest dir₂) :
      ClientRun config options dir rest dir₂

theorem runRelayClient_runs {config : NodeConfig} {dir dir' : DataDir} {ops : List NodeOp}
    {rest : ClientParty} (h : (runRelayClient config dir).RunsTo diskEnv dir ops rest dir') :
    dir'.ledger = dir.ledger ∧ ∀ turn, rest = .ret turn → ¬ Succeeded turn ∧
      ∀ point, turn = .again point → ∃ start, point = .connected start ∧
        (PeerState.fromConfig (bootstrapConfig config) dir).Returns (.ok start) := by
  have hwithin : (runRelayClient config dir).Within (NodePermitted false) LinkOp.calls 2 := by
    refine (PeerState.fromConfig_within (bootstrapConfig config) dir).bind (m := 0)
      fun built _ => ?_
    cases built with
    | ok state => trivial
    | error e => trivial
  refine ⟨hwithin.view_eq diskEnv_ledger h, ?_⟩
  intro turn hturn
  rw [hturn] at h
  obtain ⟨built, hbuilt, hreturns⟩ := Process.returns_bind.mp h.returns
  cases built with
  | error e =>
    cases Process.returns_ret.mp hreturns
    exact ⟨not_succeeded_error e, nofun⟩
  | ok state =>
    cases Process.returns_ret.mp hreturns
    refine ⟨not_succeeded_again _, ?_⟩
    intro point hpoint
    cases hpoint
    exact ⟨state, rfl, hbuilt⟩

/-- Between its turns a client has touched nothing and still holds what it started with. -/
theorem ClientRun.between {config : NodeConfig} {options : RelayClientOptions} {dir dir' : DataDir}
    {rest : ClientParty} (h : ClientRun config options dir rest dir') {point : ClientPoint}
    (hpoint : rest = .ret (.again point)) :
    dir'.ledger = dir.ledger ∧
    ∃ start, (PeerState.fromConfig (bootstrapConfig config) dir).Returns (.ok start) ∧
      point.state.Extends (bootstrapConfig config) (startParams config dir) start.ledgerBlocks := by
  induction h generalizing point with
  | build h =>
    obtain ⟨hsame, hrest⟩ := runRelayClient_runs h
    obtain ⟨start, rfl, hstart⟩ := (hrest _ hpoint).2 point rfl
    have hreached : Reached (bootstrapConfig config) dir anyOp start := .start hstart
    exact ⟨hsame, start, hstart, hreached.inv, List.prefix_refl _⟩
  | turn _ hrun ih =>
    obtain ⟨hsame, start, hstart, hextends⟩ := ih rfl
    rw [hpoint] at hrun
    have hmove : ClientMove config.persist options _ point := hrun.returns
    obtain ⟨hthen, _⟩ | ⟨_, result, hresult, _⟩ := relayClient_runs hextends hrun
    · exact ⟨hthen.trans hsame, start, hstart, hmove.keeps PeerState.Extends.handleMessage hextends⟩
    · cases hresult

/-- A client saves all or nothing. Whatever the server sends, whatever fails and wherever the
client is cut off, the ledger file is what it was when the client started, unless the client
is to persist and has ended with success: then the file holds the chain it reports, which
begins with the blocks it started from and replays under the rules it started with. -/
theorem client_saves_all_or_nothing {config : NodeConfig} {options : RelayClientOptions}
    {dir dir' : DataDir} {rest : ClientParty} (h : ClientRun config options dir rest dir') :
    (dir'.ledger = dir.ledger ∧
      (config.persist = true → ∀ result, rest ≠ .ret (.done (.ok result)))) ∨
    (config.persist = true ∧ ∃ start result,
      (PeerState.fromConfig (bootstrapConfig config) dir).Returns (.ok start) ∧
      rest = .ret (.done (.ok result)) ∧
      SavedReport config (startParams config dir) start.ledgerBlocks result dir') := by
  cases h with
  | build h =>
    obtain ⟨hsame, hrest⟩ := runRelayClient_runs h
    exact .inl ⟨hsame, fun _ result hresult => (hrest _ hresult).1 ⟨result, rfl⟩⟩
  | turn h hrun =>
    obtain ⟨hsame, start, hstart, hextends⟩ := h.between rfl
    obtain ⟨hthen, hrest⟩ | ⟨hpersist, result, hresult, hsaved⟩ := relayClient_runs hextends hrun
    · exact .inl ⟨hthen.trans hsame, hrest⟩
    · exact .inr ⟨hpersist, start, result, hstart, hresult, hsaved⟩

theorem exchangeRelayHandshake_returns {state : PeerState} (hid : ValidNodeId state.nodeId) :
    (exchangeRelayHandshake state).Returns (.ok state.localHandshake, state) := by
  obtain ⟨message, hmake, hsendable, hparse⟩ := makeHandshake_of_valid hid
  rw [exchangeRelayHandshake, Action.bind_run, Action.state_run, Process.bind_ret_left]
  dsimp only
  rw [hmake, Action.bind_run, Action.ofExcept_run, Process.bind_ret_left]
  refine Process.returns_bind.mpr ⟨_, sendMessage_returns hsendable state, ?_⟩
  refine Process.returns_bind.mpr ⟨_, recvMessage_returns hsendable state, ?_⟩
  dsimp only
  rw [hparse]
  exact .ret _

/-- A fresh client that persists meets a server at the genesis block. -/
theorem genesis_client_saves :
    ∃ rest dir' bytes, ClientRun { persist := true } {} ⟨none, none⟩ rest dir' ∧
      dir'.ledger = some bytes := by
  let config : NodeConfig := { persist := true }
  let node := genesisNode {}
  have hinv : node.Inv {} (startParams {} ⟨none, none⟩) :=
    (genesisNode_reached rfl rfl rfl rfl ⟨none, none⟩ anyOp).inv
  obtain ⟨_, bytes, _, hbytes, _⟩ := hinv.ledger_round_trip (genesisNode_fits {})
  have hbuilt : ClientRun config {} ⟨none, none⟩ (.ret (.again (.connected node)))
      ⟨none, none⟩ := by
    have hstart : PeerState.fromConfig (bootstrapConfig config) ⟨none, none⟩ = .ret (.ok node) :=
      fromConfig_genesis rfl rfl rfl rfl _
    have hclient : runRelayClient config ⟨none, none⟩ = .ret (.again (.connected node)) := by
      rw [runRelayClient, hstart]
      rfl
    have hrun : (runRelayClient config ⟨none, none⟩).RunsTo diskEnv ⟨none, none⟩ []
        (.ret (.again (.connected node))) ⟨none, none⟩ := by
      rw [hclient]
      exact .refl _ _
    exact .build hrun
  have hgreeted : ∃ dir₁, ClientRun config {} ⟨none, none⟩
      (.ret (.again (.syncing node.localHandshake (node.height + 1) node))) dir₁ := by
    have hturn : (relayClient true {} (.connected node)).Returns
        (.again (.syncing node.localHandshake (node.height + 1) node)) := by
      rw [relayClient]
      exact Process.returns_bind.mpr
        ⟨_, exchangeRelayHandshake_returns defaultNodeId_valid, .ret _⟩
    have hquiet : ∃ n, (relayClient true {} (.connected node)).Within (NodePermitted false)
        LinkOp.calls n := relayClient_within rfl id
    obtain ⟨n, hwithin⟩ := hquiet
    obtain ⟨ops, dir₁, hrun⟩ := hwithin.runsTo diskEnv_answers hturn ⟨none, none⟩
    exact ⟨dir₁, .turn hbuilt hrun⟩
  obtain ⟨dir₁, hgreeted⟩ := hgreeted
  have hsynced : ClientRun config {} ⟨none, none⟩
      (.ret (.again (.synced node.localHandshake node))) dir₁ := by
    have hheight : ¬ node.height ≠ node.localHandshake.height := not_not.mpr rfl
    have hrun : (relayClient true {} (.syncing node.localHandshake (node.height + 1) node)).RunsTo
        diskEnv dir₁ [] (.ret (.again (.synced node.localHandshake node))) dir₁ := by
      rw [relayClient, if_neg (by decide), if_neg hheight]
      exact .refl _ _
    exact .turn hgreeted hrun
  have hsaved : ClientRun config {} ⟨none, none⟩
      (.ret (.done (.ok ⟨node.height, node.tipHash⟩))) ⟨some bytes, none⟩ := by
    have hturn : relayClient true {} (.synced node.localHandshake node) =
        .call (.loc (.writeLedger node.dataDir bytes)) fun r =>
          onOk (fun _ s => clientStep reportRelayClient s fun result _ => .done (.ok result))
            (r, node) := by
      have hidle : afterSync {} node = .ret (.ok (), node) := rfl
      rw [relayClient, finishRelayClient_saves, clientStep_bind, hidle, Process.bind_ret_left, onOk,
        clientStep_bind, PeerState.saveLedger_call hbytes]
      rfl
    have hrun : (relayClient true {} (.synced node.localHandshake node)).RunsTo diskEnv dir₁
        [.loc (.writeLedger node.dataDir bytes)] (.ret (.done (.ok ⟨node.height, node.tipHash⟩)))
        ⟨some bytes, none⟩ := by
      rw [hturn]
      exact .step (r := .ok ()) ⟨{}, rfl, rfl⟩ (.refl _ _)
    exact .turn hsynced hrun
  obtain ⟨_, hnone⟩ | ⟨_, _, _, _, _, bytes', _, _, hledger, _⟩ :=
    client_saves_all_or_nothing hsaved
  · exact absurd rfl (hnone rfl _)
  · exact ⟨_, _, bytes', hsaved, hledger⟩

end Blockchain
