import Blockchain.Delivery

/-! A relay session in which the server refuses an announced transaction. The server answers
with a reject and closes; the client may still be sending then, so its sends can fail. If it
asks for a block afterwards it fails in every interleaving. -/
namespace Blockchain
open Lib

/-! A failed send ends whatever the client is doing. -/

section FailsFast
variable {ρ : Type}

theorem sendMessage_failsFast (message : P2pMessage) :
    (sendMessage message : NodeAction ρ Unit).FailsFast := by
  have hnative : ∀ data, (sendAllNative data : NodeAction ρ Unit).FailsFast :=
    fun data s => .send (fun e => ⟨e, s, rfl⟩) fun r => .ret _
  unfold sendMessage sendFramed
  split
  · exact Action.silent_fail.failsFast
  · refine (hnative _).bind fun _ => ?_
    split
    · exact Action.silent_pure.failsFast
    · exact hnative _

theorem recvMessage_silent : (recvMessage : NodeAction ρ P2pMessage).Silent := by
  have hnative : ∀ count, (recvAllNative count : NodeAction ρ Bytes).Silent :=
    fun count s => .recv fun r => .ret _
  refine Action.Silent.bind ?_ fun _ => Action.silent_ofExcept
  refine (hnative 4).bind fun lenBytes => ?_
  dsimp only
  split
  · exact Action.silent_fail
  · split
    · refine (hnative _).attempt.bind fun body => ?_
      cases body with
      | ok bytes => exact Action.silent_pure
      | error e =>
        dsimp only
        split
        · exact Action.silent_fail
        · exact Action.silent_fail
    · exact Action.silent_pure

end FailsFast

namespace PeerState

theorem saveLedger_silent : saveLedger.Silent :=
  Action.silent_state.bind fun _ => Action.silent_ofExcept.bind fun _ =>
    Action.Silent.bind (fun _ => .loc fun _ => .ret _) fun _ => Action.silent_ofExcept

theorem persistLedger_silent : persistLedger.Silent := by
  refine Action.silent_state.bind fun state => ?_
  split
  · exact saveLedger_silent
  · exact Action.silent_pure

theorem connectBlock_silent (block : Block) : (connectBlock block).Silent := by
  refine Action.silent_of_ret fun state => ?_
  obtain ⟨e, _, hrun⟩ | ⟨fees, chain, pool, _, hrun⟩ := connectBlock_run block state
  · exact ⟨_, hrun⟩
  · exact ⟨_, hrun⟩

theorem mineBlocks_silent (count : UInt32) : (mineBlocks count).Silent := by
  have hloop : (mineLoop count.toNat).Silent := by
    refine Action.silent_of_ret fun state => ?_
    obtain ⟨r, next, hrun, _⟩ := mineLoop_ret count.toNat state
    exact ⟨_, hrun⟩
  exact hloop.bind fun _ => persistLedger_silent

theorem onTxAnnounce_silent (payload : Bytes) : (onTxAnnounce payload).Silent := by
  refine Action.silent_ofExcept.bind fun parsed => Action.silent_ofExcept.bind fun tx =>
    Action.Silent.bind (fun _ => .ret _) fun _ => Action.silent_state.bind fun state => ?_
  split
  · exact mineBlocks_silent _
  · exact Action.silent_pure

theorem onBlockAnnounce_silent (payload : Bytes) : (onBlockAnnounce payload).Silent :=
  Action.silent_ofExcept.bind fun _ => Action.silent_ofExcept.bind fun block =>
    (connectBlock_silent block).bind fun _ => persistLedger_silent

theorem sendReject_failsFast (code : RejectCode) (reason : String) :
    (sendReject code reason).FailsFast :=
  Action.silent_ofExcept.failsFast.bind fun message => sendMessage_failsFast message

theorem handleMessage_failsFast (message : P2pMessage) : (handleMessage message).FailsFast := by
  have hcheck : ∀ {α : Type} (x : Result α), (Action.ofExcept x : PeerAction α).FailsFast :=
    fun _ => Action.silent_ofExcept.failsFast
  have hdefault : (do
      sendReject .invalidMessage "unsupported message type"
      Action.fail ⟨.invalidMessage, "unsupported message type"⟩ : PeerAction Unit).FailsFast :=
    (sendReject_failsFast _ _).bind fun _ => Action.silent_fail.failsFast
  unfold handleMessage
  cases message.type with
  | txAnnounce =>
    refine (hcheck _).bind fun _ => (onTxAnnounce_silent _).attempt.failsFast.bind fun outcome => ?_
    cases outcome with
    | ok u => exact Action.silent_pure.failsFast
    | error e => exact (sendReject_failsFast _ _).bind fun _ => Action.silent_fail.failsFast
  | blockAnnounce => exact (hcheck _).bind fun _ => (onBlockAnnounce_silent _).failsFast
  | blockRequest =>
    refine (hcheck _).bind fun request => Action.silent_state.failsFast.bind fun state => ?_
    cases state.blockAtHeight request.height with
    | none => exact sendReject_failsFast _ _
    | some block => exact (hcheck _).bind fun reply => sendMessage_failsFast reply
  | blockResponse => exact (hcheck _).bind fun _ => (onBlockAnnounce_silent _).failsFast
  | ping => exact (hcheck _).bind fun _ => (hcheck _).bind fun pong => sendMessage_failsFast pong
  | pong => exact Action.silent_pure.failsFast
  | handshake => exact hdefault
  | peerInfo => exact hdefault
  | txRequest => exact hdefault
  | txResponse => exact hdefault
  | reject => exact hdefault

end PeerState

theorem requestBlock_failsFast (height : UInt32) : (requestBlock height).FailsFast :=
  Action.silent_ofExcept.failsFast.bind fun _ => (sendMessage_failsFast _).bind fun _ =>
    recvMessage_silent.failsFast.bind PeerState.handleMessage_failsFast

theorem finishRelayClient_failsFast (persist : Bool) (options : RelayClientOptions) :
    (finishRelayClient persist options).FailsFast := by
  have hannounces : ∀ txs, (sendTxAnnounces txs).FailsFast := by
    intro txs
    induction txs with
    | nil => exact Action.silent_pure.failsFast
    | cons tx rest ih =>
      exact Action.silent_ofExcept.failsFast.bind fun _ =>
        (sendMessage_failsFast _).bind fun _ => ih
  have hpulls : ∀ n, (requestBlocksAfterTx n).FailsFast := by
    intro n
    induction n with
    | zero => exact Action.silent_pure.failsFast
    | succ n ih =>
      exact Action.silent_state.failsFast.bind fun _ => (requestBlock_failsFast _).bind fun _ => ih
  have hreport : (do
      let state ← Action.state
      pure ⟨state.height, state.tipHash⟩ : PeerAction RelayClientResult).FailsFast :=
    Action.silent_state.failsFast.bind fun _ => Action.silent_pure.failsFast
  refine (hannounces _).bind fun _ => (hpulls _).bind fun _ => ?_
  dsimp only
  split
  · exact PeerState.saveLedger_silent.failsFast.bind fun _ => hreport
  · exact hreport

def GaveUp (p : ClientParty) : Prop := ∃ e, p = .ret (.done (.error e))

theorem clientStep_stops {α : Type} {m : PeerAction α} (hm : m.FailsFast) (state : PeerState)
    (next : α → PeerState → Turn ClientPoint (Result RelayClientResult)) :
    (clientStep m state next).SendStops GaveUp := by
  refine (hm state).bind ?_ ?_
  · intro q hq
    obtain ⟨e, s, rfl⟩ := hq
    exact ⟨e, rfl⟩
  · intro out
    obtain ⟨r, s⟩ := out
    cases r with
    | ok a => exact .ret _
    | error e => exact .ret _

theorem relayClient_stops (persist : Bool) (options : RelayClientOptions) (point : ClientPoint) :
    (relayClient persist options point).SendStops GaveUp := by
  cases point with
  | connected state =>
    rw [relayClient]
    refine clientStep_stops ?_ _ _
    exact Action.silent_state.failsFast.bind fun _ => Action.silent_ofExcept.failsFast.bind fun _ =>
      (sendMessage_failsFast _).bind fun _ => recvMessage_silent.failsFast.bind fun _ =>
        Action.silent_ofExcept.failsFast
  | syncing peer next state =>
    rw [relayClient]
    split
    · exact clientStep_stops (requestBlock_failsFast _) _ _
    · split
      · exact .ret _
      · exact .ret _
  | synced peer state =>
    rw [relayClient]
    exact clientStep_stops (finishRelayClient_failsFast _ _) _ _

/-! The schedule in which the client goes on sending until it needs an answer. -/

theorem makeRejectMessage_sendable {payload : RejectPayload} {message : P2pMessage}
    (h : makeRejectMessage payload = .ok message) : message.Sendable ∧ message.type = .reject := by
  obtain ⟨bytes, hbytes, hmessage⟩ := bind_eq_ok.mp h
  obtain ⟨reason, hreason, hwhole⟩ := bind_eq_ok.mp hbytes
  cases hmessage
  cases hwhole
  simp only [putReason, guard_eq_ok, Except.ok.injEq] at hreason
  obtain ⟨hlen, rfl⟩ := hreason
  have hlimit : kMaxRejectReasonBytes.toNat + 6 ≤ kMaxP2pPayloadBytes.toNat := by decide
  refine ⟨⟨rfl, ?_⟩, rfl⟩
  simp only [makeMessage, List.length_append, putU16_length, putVarBytes_length]
  omega

theorem sendTxAnnounces_append (first second : List Transaction) :
    sendTxAnnounces (first ++ second) =
      (sendTxAnnounces first >>= fun _ => sendTxAnnounces second) := by
  induction first with
  | nil => rfl
  | cons tx rest ih =>
    simp only [List.cons_append, sendTxAnnounces, Action.bind_assoc, ih]

section Moves
variable {lbody : ClientPoint → ClientParty} {rbody : Empty → ServerParty}
  {client server : PeerState}

theorem sendTxAnnounces_moves (txs : List Transaction) (hsane : ∀ tx ∈ txs, tx.Sane)
    {F : Result Unit × PeerState → ClientParty} {right : ServerParty} {toLeft toRight : Bytes} :
    ∃ sent, Moves lbody rbody ⟨(sendTxAnnounces txs client).bind F, right, toLeft, toRight⟩
      ⟨F (.ok (), client), right, toLeft, sent⟩ := by
  induction txs generalizing toRight with
  | nil => exact ⟨toRight, .refl⟩
  | cons tx rest ih =>
    have htx := hsane tx List.mem_cons_self
    have hsend : sendTxAnnounces (tx :: rest) client =
        (sendMessage (PeerState.txAnnounceMessage tx) >>= fun _ => sendTxAnnounces rest)
          client := by
      rw [sendTxAnnounces, PeerState.makeTxAnnounceMessage_ok htx]
      rfl
    rw [hsend, Action.bind_run, Process.bind_assoc]
    obtain ⟨sent, hrest⟩ := ih (fun t ht => hsane t (List.mem_cons_of_mem _ ht))
    exact ⟨sent, (send_moves (PeerState.txAnnounceMessage_sendable htx)).trans hrest⟩

theorem rejected_moves {message : P2pMessage} (htype : message.type = .reject)
    {F : Result Unit × PeerState → ClientParty} {right : ServerParty} {toRight : Bytes} :
    ∃ e sent, Moves lbody rbody
      ⟨(PeerState.handleMessage message client).bind F, right, [], toRight⟩
      ⟨F (.error e, client), right, [], sent⟩ := by
  obtain ⟨reply, hreply⟩ : ∃ reply, makeRejectMessage
      ⟨.invalidMessage, textBytes "unsupported message type"⟩ = .ok reply := ⟨_, rfl⟩
  have hbody : PeerState.handleMessage message client =
      (sendMessage reply >>= fun _ =>
        Action.fail ⟨.invalidMessage, "unsupported message type"⟩ : PeerAction Unit) client := by
    simp only [PeerState.handleMessage, htype, sendReject, hreply, Action.bind_assoc]
    rfl
  rw [hbody, Action.bind_run, Process.bind_assoc]
  exact ⟨_, _, send_moves (makeRejectMessage_sendable hreply).1⟩

variable (lbody rbody) in
theorem refuse_moves {tx : Transaction} (hsane : tx.Sane) (hpersist : server.persist = false)
    (hrefused : ∃ e next, server.handled (PeerState.txAnnounceMessage tx) = (.error e, next))
    (n : Nat) :
    ∃ closed : ServerParty, closed.Closed ∧
      (serverParty (PeerState.handleMessage (PeerState.txAnnounceMessage tx) >>= fun _ =>
          serveRelayMessages n) server = closed ∨
        ∃ message : P2pMessage, message.Sendable ∧ message.type = .reject ∧
          ∀ (left : ClientParty) (toRight : Bytes), Moves lbody rbody
            ⟨left,
              serverParty (PeerState.handleMessage (PeerState.txAnnounceMessage tx) >>= fun _ =>
                serveRelayMessages n) server, [], toRight⟩
            ⟨left, closed, frame message.toBytes, toRight⟩) := by
  have hannounces := PeerState.announcesTransaction_announce hsane
  obtain ⟨r, next, hrun⟩ := PeerState.onTxAnnounce_ret hpersist hsane
  cases r with
  | ok u =>
    obtain ⟨e, next', hhandled⟩ := hrefused
    rw [PeerState.handled, PeerState.handleMessage_announced_ok hannounces hrun] at hhandled
    cases hhandled
  | error e =>
    have hparty : serverParty (PeerState.handleMessage (PeerState.txAnnounceMessage tx) >>= fun _ =>
        serveRelayMessages n) server =
        serverParty (sendReject .invalidMessage e.message >>= fun _ => Action.fail e) next := by
      rw [serverParty_bind, PeerState.handleMessage_announced_error hannounces hrun,
        serverParty_bind, Action.bind_run, Process.bind_assoc]
      congr 1
      funext out
      obtain ⟨r, s⟩ := out
      cases r <;> rfl
    rw [hparty, sendReject, Action.bind_assoc]
    cases hreply : makeRejectMessage ⟨.invalidMessage, textBytes e.message⟩ with
    | error e' => exact ⟨_, ⟨.error e', rfl⟩, .inl (serverParty_check_error rfl _ _)⟩
    | ok message =>
      obtain ⟨hsend, htype⟩ := makeRejectMessage_sendable hreply
      refine ⟨.ret (.done (.error e)), ⟨_, rfl⟩, .inr ⟨message, hsend, htype, ?_⟩⟩
      intro left toRight
      rw [serverParty_check rfl, serverParty_bind]
      have hsent : Moves rbody lbody
          ⟨(sendMessage message next).bind (onOk fun _ s => serverParty (Action.fail e) s), left,
            toRight, []⟩
          ⟨.ret (.done (.error e)), left, toRight, [] ++ frame message.toBytes⟩ := send_moves hsend
      rw [List.nil_append] at hsent
      exact hsent.swap

theorem asking_moves (txs : List Transaction) (hsane : ∀ tx ∈ txs, tx.Sane) (k : Nat)
    (rest : PeerAction RelayClientResult)
    (last : RelayClientResult → PeerState → Turn ClientPoint (Result RelayClientResult))
    (right : ServerParty) (toLeft toRight : Bytes) :
    ∃ sent, Moves lbody rbody
      ⟨clientStep (sendTxAnnounces txs >>= fun _ => requestBlocksAfterTx (k + 1) >>= fun _ => rest)
        client last, right, toLeft, toRight⟩
      ⟨clientStep (recvMessage >>= fun inbound => PeerState.handleMessage inbound >>= fun _ =>
        requestBlocksAfterTx k >>= fun _ => rest) client last, right, toLeft, sent⟩ := by
  have hask : (requestBlocksAfterTx (k + 1) >>= fun _ => rest) = (Action.state >>= fun state =>
      sendMessage (blockRequestMessage (state.height + 1)) >>= fun _ =>
      recvMessage >>= fun inbound =>
        PeerState.handleMessage inbound >>= fun _ => requestBlocksAfterTx k >>= fun _ => rest) := by
    simp only [requestBlocksAfterTx, requestBlock_eq, Action.bind_assoc]
  rw [clientStep_bind]
  obtain ⟨sent, hsent⟩ := sendTxAnnounces_moves txs hsane
  refine ⟨sent ++ frame (blockRequestMessage (client.height + 1)).toBytes, hsent.trans ?_⟩
  rw [onOk, hask, clientStep_state, clientStep_bind]
  exact send_moves (blockRequestMessage_sendable _)

theorem waiting_gives_up {persist : Bool} {options : RelayClientOptions}
    {rest : PeerAction RelayClientResult}
    {last : RelayClientResult → PeerState → Turn ClientPoint (Result RelayClientResult)}
    {closed : ServerParty} (hclosed : closed.Closed) {sent : Bytes} :
    Until (Session.Step socketFaults (relayClient persist options) rbody) (fun _ => True)
      (fun s => GaveUp s.left)
      ⟨clientStep (recvMessage >>= fun inbound => PeerState.handleMessage inbound >>= fun _ => rest)
        client last, closed, [], sent⟩ := by
  rw [clientStep_bind]
  exact recv_from_closed hclosed (fun _ _ _ => trivial) fun e => .now ⟨e, rfl⟩

theorem rejected_gives_up {rest : PeerAction RelayClientResult}
    {last : RelayClientResult → PeerState → Turn ClientPoint (Result RelayClientResult)}
    {right : ServerParty} {message : P2pMessage} (hsend : message.Sendable)
    (htype : message.type = .reject) (sent : Bytes) :
    ∃ e sent', Moves lbody rbody
      ⟨clientStep (recvMessage >>= fun inbound => PeerState.handleMessage inbound >>= fun _ => rest)
        client last, right, frame message.toBytes, sent⟩
      ⟨.ret (.done (.error e)), right, [], sent'⟩ := by
  have hread : Moves lbody rbody
      ⟨clientStep (recvMessage >>= fun inbound => PeerState.handleMessage inbound >>= fun _ => rest)
        client last, right, frame message.toBytes ++ [], sent⟩
      ⟨clientStep (PeerState.handleMessage message >>= fun _ => rest) client last,
        right, [], sent⟩ := by
    rw [clientStep_bind]
    exact recv_moves hsend
  rw [List.append_nil] at hread
  rw [clientStep_bind _ _ (fun _ => rest)] at hread
  obtain ⟨e, sent', hrejected⟩ := rejected_moves htype
  exact ⟨e, sent', hread.trans hrejected⟩

theorem refused_after_sync {persist : Bool} {options : RelayClientOptions} {peer : HandshakePayload}
    {refusing : PeerState} {before after : List Transaction} {tx : Transaction}
    (htxs : options.txsAfterSync = before ++ tx :: after)
    (hsane : ∀ tx ∈ options.txsAfterSync, tx.Sane) (hasks : options.blocksAfterTx ≠ 0)
    (hpersist : server.persist = false) (hoff : refusing.persist = false)
    (htaken : server.handleAll (before.map PeerState.txAnnounceMessage) = some refusing)
    (hrefused : ∃ e next, refusing.handled (PeerState.txAnnounceMessage tx) = (.error e, next))
    (n : Nat) :
    Until (Session.Step socketFaults (relayClient persist options) rbody) (fun _ => True)
      (fun s => GaveUp s.left)
      ⟨.ret (.again (.synced peer client)),
        serverParty (serveRelayMessages (before.length + (n + 1))) server, [], []⟩ := by
  obtain ⟨tail, htail⟩ : ∃ tail, finishRelayClient persist options =
      (sendTxAnnounces options.txsAfterSync >>= fun _ =>
        requestBlocksAfterTx options.blocksAfterTx.toNat >>= fun _ => tail) := ⟨_, rfl⟩
  obtain ⟨k, hk⟩ : ∃ k, options.blocksAfterTx.toNat = k + 1 :=
    Nat.exists_eq_succ_of_ne_zero fun he => hasks (UInt32.toNat_inj.mp he)
  rw [htxs] at hsane
  have hbefore : ∀ t ∈ before, t.Sane := fun t ht => hsane t (List.mem_append_left _ ht)
  have htx : tx.Sane := hsane tx (List.mem_append_right _ List.mem_cons_self)
  have hafter : ∀ t ∈ after, t.Sane :=
    fun t ht => hsane t (List.mem_append_right _ (List.mem_cons_of_mem _ ht))
  let last : RelayClientResult → PeerState → Turn ClientPoint (Result RelayClientResult) :=
    fun result _ => .done (.ok result)
  let ask : PeerAction RelayClientResult := requestBlocksAfterTx (k + 1) >>= fun _ => tail
  have hbody : relayClient persist options (.synced peer client) =
      clientStep (sendTxAnnounces before >>= fun _ =>
        sendMessage (PeerState.txAnnounceMessage tx) >>= fun _ => sendTxAnnounces after >>= fun _ =>
          ask) client last := by
    have hfirst : sendTxAnnounces (tx :: after) =
        (sendMessage (PeerState.txAnnounceMessage tx) >>= fun _ => sendTxAnnounces after) := by
      rw [sendTxAnnounces, PeerState.makeTxAnnounceMessage_ok htx]
      rfl
    rw [relayClient, htail, htxs, hk, sendTxAnnounces_append, hfirst, Action.bind_assoc]
    simp only [Action.bind_assoc]
    rfl
  have hread : Moves (relayClient persist options) rbody
      ⟨.ret (.again (.synced peer client)),
        serverParty (serveRelayMessages (before.length + (n + 1))) server, [], []⟩
      ⟨clientStep (sendTxAnnounces after >>= fun _ => ask) client last,
        serverParty (PeerState.handleMessage (PeerState.txAnnounceMessage tx) >>= fun _ =>
          serveRelayMessages n) refusing, [], []⟩ := by
    refine .head (.left rfl) ?_
    rw [hbody, clientStep_bind]
    refine (announce_moves before hbefore hpersist htaken (n + 1)).trans ?_
    rw [onOk, clientStep_bind, serverParty_messages]
    exact moves_right (PeerState.txAnnounceMessage_sendable htx)
  obtain ⟨closed, hclosed, hrefuse⟩ :=
    refuse_moves (relayClient persist options) rbody htx hoff hrefused n
  -- the server closes with or without a reject, and the client waits for its block in vain
  cases hrefuse with
  | inl hsilent =>
    rw [hsilent] at hread
    obtain ⟨sent, hasked⟩ := asking_moves after hafter k tail last closed [] []
    exact Session.until_moves (relayClient_stops persist options) (.ret _) (hread.trans hasked)
      (waiting_gives_up hclosed)
  | inr hreject =>
    obtain ⟨message, hsend, htype, hrefuse⟩ := hreject
    obtain ⟨sent, hasked⟩ := asking_moves after hafter k tail last closed (frame message.toBytes) []
    obtain ⟨e, sent', hfailed⟩ := rejected_gives_up hsend htype sent
    exact Session.until_moves (relayClient_stops persist options) (.ret _)
      (hread.trans ((hrefuse _ _).trans (hasked.trans hfailed))) (.now ⟨e, rfl⟩)

end Moves

/-- A client that asks for a block after announcing its transactions never reports success if
the server has refused one of them: in every interleaving, whichever of its sends still go
through, it ends with an error. -/
theorem refused_transaction_noticed {sconfig cconfig : NodeConfig} {sdir cdir : DataDir}
    {server client refusing : PeerState} (hserver : Reached sconfig sdir anyOp server)
    (hclient : Reached (bootstrapConfig cconfig) cdir anyOp client) (options : RelayClientOptions)
    (hpersist : server.persist = false) (hcid : ValidNodeId client.nodeId)
    (hsid : ValidNodeId server.nodeId) (hpart : client.ledgerBlocks <+: server.ledgerBlocks)
    (hparams : client.chain.params = server.chain.params) (hmax : server.height ≠ kUint32Max)
    {before after : List Transaction} {tx : Transaction}
    (htxs : options.txsAfterSync = before ++ tx :: after)
    (hsane : ∀ tx ∈ options.txsAfterSync, tx.Sane) (hasks : options.blocksAfterTx ≠ 0)
    (htaken : server.handleAll (before.map PeerState.txAnnounceMessage) = some refusing)
    (hrefused : ∃ e next, refusing.handled (PeerState.txAnnounceMessage tx) = (.error e, next))
    (hbudget : server.height.toNat + before.length < client.height.toNat + kMaxRelayMessages)
    (hfit : ∀ block ∈ server.ledgerBlocks.drop client.ledgerBlocks.length,
      block.toBytes.length + 4 ≤ kMaxP2pPayloadBytes.toNat) :
    Until (RelayStep cconfig.persist options) (fun _ => True) ClientFailed
      (relaySession client server) := by
  have hmid := handleAll_unharmed (unharmed_refl hserver) htaken
  have hoff : refusing.persist = false := by
    rw [hmid.reached.inv.persist_eq, ← hserver.inv.persist_eq, hpersist]
  obtain ⟨n, hn⟩ : ∃ n, server.height.toNat + (before.length + (n + 1)) =
      client.height.toNat + kMaxRelayMessages :=
    ⟨client.height.toNat + kMaxRelayMessages - (server.height.toNat + before.length) - 1, by omega⟩
  obtain ⟨synced, _, _, hsynced⟩ :=
    synced_moves hserver hclient hcid hsid hpart hparams hmax hfit hn
  exact Session.until_moves (relayClient_stops cconfig.persist options) (.ret _) hsynced
    (refused_after_sync htxs hsane hasks hpersist hoff htaken hrefused n)

/-- A payment of a coin that a fresh server does not have. -/
theorem missing_payment_noticed :
    (∃ e next, (genesisNode {}).handled (PeerState.txAnnounceMessage (payment 0)) =
      (.error e, next)) ∧
    Until (RelayStep false { txsAfterSync := [payment 0], blocksAfterTx := 1 }) (fun _ => True)
      ClientFailed (relaySession (genesisNode {}) (genesisNode {})) := by
  have hreached : Reached {} ⟨none, none⟩ anyOp (genesisNode {}) :=
    genesisNode_reached rfl rfl rfl rfl _ _
  have hbootstrap : Reached (bootstrapConfig {}) ⟨none, none⟩ anyOp (genesisNode {}) := hreached
  have hsane := payment_sane 0
  have hmissing : ∀ fee, checkTransactionInputs (payment 0) (genesisNode {}).chain.utxos ≠
      .ok fee := by
    intro fee hfee
    have hsome := (checkTransactionInputs_ok hsane hfee).1 _ (List.mem_singleton.mpr rfl)
    cases hsome
  have hrefused : ∃ e next,
      (genesisNode {}).handled (PeerState.txAnnounceMessage (payment 0)) = (.error e, next) := by
    have hstop := PeerState.onTxAnnounce_run (PeerState.carriedTransaction_announce hsane)
      (genesisNode {})
    cases haccept : ((genesisNode {}).mempool.accept (payment 0) (genesisNode {}).chain.utxos
        (genesisNode {}).mempoolPolicy).1 with
    | ok u =>
      obtain ⟨fee, hfee, _⟩ := Mempool.accept_ok_grows haccept
      exact absurd hfee (hmissing fee)
    | error e =>
      simp only [haccept] at hstop
      obtain ⟨e', hrun⟩ := PeerState.handled_announce_error hsane hstop
      exact ⟨e', _, hrun⟩
  have hmax : (genesisNode {}).height ≠ kUint32Max := by
    change (0 : UInt32) ≠ kUint32Max
    decide
  have htxs :
      ({ txsAfterSync := [payment 0], blocksAfterTx := 1 } : RelayClientOptions).txsAfterSync =
        [] ++ payment 0 :: [] := rfl
  refine ⟨hrefused, refused_transaction_noticed hreached hbootstrap
    { txsAfterSync := [payment 0], blocksAfterTx := 1 } rfl defaultNodeId_valid defaultNodeId_valid
    (List.prefix_refl _) rfl hmax htxs (List.forall_mem_singleton.mpr hsane) (by decide)
    rfl hrefused ?_ ?_⟩
  · change 0 + 0 < 0 + 64
    decide
  · rw [List.drop_length]
    exact List.forall_mem_nil _

end Blockchain
