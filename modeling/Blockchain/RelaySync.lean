import Blockchain.Relay
import Blockchain.PeerInvariant

/-! Runs of a relay session up to the client's height check. A message that one end sends
and the other waits for arrives in every interleaving, so a session is followed message by
message: the handshake, then one round for each block the client asks for. -/
namespace Blockchain
open Lib

/-! Whole messages. -/

section Messages
variable {ρ ρ' σ α τ β : Type}

def frameLength (message : P2pMessage) : Bytes :=
  leBytes 4 (UInt32.ofNat message.toBytes.length).toNat

theorem P2pMessage.toBytes_pos (message : P2pMessage) : 0 < message.toBytes.length := by
  rw [message.toBytes_length]
  exact Nat.lt_of_lt_of_le (by decide) (Nat.le_add_left _ _)

theorem P2pMessage.Sendable.frame_le {message : P2pMessage} (h : message.Sendable) :
    message.toBytes.length ≤ kMaxP2pFrameBytes.toNat := by
  have hpayload := h.payload_le
  have hlimit : kMaxP2pPayloadBytes.toNat + kP2pEnvelopeOverhead = kMaxP2pFrameBytes.toNat :=
    by decide
  rw [message.toBytes_length]
  omega

theorem P2pMessage.Sendable.frame_toNat {message : P2pMessage} (h : message.Sendable) :
    (UInt32.ofNat message.toBytes.length).toNat = message.toBytes.length := by
  have hle := h.frame_le
  have hmax : kMaxP2pFrameBytes.toNat < UInt32.size := by decide
  exact UInt32.toNat_ofNat_of_lt' (by omega)

theorem sendMessage_call {message : P2pMessage} (h : message.Sendable) (s : ρ) :
    (sendMessage message : NodeAction ρ Unit) s =
      .call (.send (frameLength message)) fun r =>
        match r with
        | .ok () => .call (.send message.toBytes) fun r => .ret (r, s)
        | .error e => .ret (.error e, s) := by
  have hne : message.toBytes.isEmpty = false := by
    simpa [List.isEmpty_iff] using List.length_pos_iff.mp message.toBytes_pos
  simp only [sendMessage, sendFramed, gt_iff_lt, if_neg (Nat.not_lt.mpr h.frame_le), hne,
    Bool.false_eq_true, if_false, sendAllNative, Action.bind_run, Action.perform_run,
    Process.call_bind, Process.bind_ret_left, Action.ofExcept_run, frameLength]
  congr 1
  funext r
  cases r <;> rfl

theorem sendMessage_oversize {message : P2pMessage}
    (h : kMaxP2pPayloadBytes.toNat < message.payload.length) (s : ρ) :
    (sendMessage message : NodeAction ρ Unit) s =
      .ret (.error ⟨.resourceLimitExceeded, "frame exceeds maximum size"⟩, s) := by
  have hlimit : kMaxP2pPayloadBytes.toNat + kP2pEnvelopeOverhead = kMaxP2pFrameBytes.toNat :=
    by decide
  have hlong : message.toBytes.length > kMaxP2pFrameBytes.toNat := by
    rw [message.toBytes_length]
    omega
  simp only [sendMessage, sendFramed, if_pos hlong, Action.fail_run]

theorem call_recv_congr {γ : Type} {n m : Nat} (h : n = m)
    (k : Result Bytes → Process NodeOp (LinkOp.Answer Error StoreOp.Answer) γ) :
    (Process.call (LinkOp.recv n) k : Process NodeOp (LinkOp.Answer Error StoreOp.Answer) γ) =
      .call (LinkOp.recv m) k := by
  subst h
  rfl

theorem recvMessage_call (t : ρ) :
    ∃ k, (recvMessage : NodeAction ρ P2pMessage) t = .call (.recv 4) k ∧
      (∀ e, k (.error e) = .ret (.error e, t)) ∧
      ∀ message : P2pMessage, message.Sendable →
        ∃ k', k (.ok (frameLength message)) = .call (.recv message.toBytes.length) k' ∧
          k' (.ok message.toBytes) = .ret (.ok message, t) := by
  refine ⟨_, rfl, fun e => rfl, ?_⟩
  intro message h
  have hvalue : UInt32.ofNat (leValue (frameLength message)) =
      UInt32.ofNat message.toBytes.length := by
    rw [frameLength, leValue_leBytes 4 _ (UInt32.toNat_lt _), UInt32.ofNat_toNat]
  have hle : ¬ UInt32.ofNat message.toBytes.length > kMaxP2pFrameBytes := by
    rw [gt_iff_lt, UInt32.lt_iff_toNat_lt, h.frame_toNat]
    exact Nat.not_lt.mpr h.frame_le
  have hpos : UInt32.ofNat message.toBytes.length > 0 := by
    rw [gt_iff_lt, UInt32.lt_iff_toNat_lt, h.frame_toNat]
    exact message.toBytes_pos
  have hnat : (UInt32.ofNat (leValue (frameLength message))).toNat = message.toBytes.length := by
    rw [hvalue, h.frame_toNat]
  rw [← hvalue] at hle hpos
  simp only [recvAllNative, Action.bind_run, Action.perform_run, Action.ofExcept_run,
    Process.call_bind, Process.bind_ret_left, if_neg hle, if_pos hpos, Action.attempt]
  refine ⟨_, call_recv_congr hnat _, ?_⟩
  simp only [Action.pure_run, Process.bind_ret_left, P2pMessage.deserialize_toBytes h]

theorem recvMessage_quiet (t : ρ) (G : Result P2pMessage × ρ → NodeParty τ β) :
    Process.Quiet ((recvMessage t).bind G) := by
  obtain ⟨k, hk, _⟩ := recvMessage_call t
  rw [hk]
  exact .inl ⟨3, _, rfl⟩

variable {lbody : σ → NodeParty σ α} {rbody : τ → NodeParty τ β}
  {Q P : Session Error StoreOp.Answer σ α τ β → Prop}

theorem deliver {message : P2pMessage} (h : message.Sendable) {s : ρ} {t : ρ'}
    {F : Result Unit × ρ → NodeParty σ α} {G : Result P2pMessage × ρ' → NodeParty τ β}
    (hquiet : (F (.ok (), s)).Quiet)
    (hQ : ∀ s : Session Error StoreOp.Answer σ α τ β, s.left.OffPoint → s.right.OffPoint → Q s)
    (hnext : Until (Session.Step socketFaults lbody rbody) Q P
      ⟨F (.ok (), s), G (.ok message, t), [], []⟩) :
    Until (Session.Step socketFaults lbody rbody) Q P
      ⟨(sendMessage message s).bind F, (recvMessage t).bind G, [], []⟩ := by
  obtain ⟨k, hk, _, hbody⟩ := recvMessage_call t
  obtain ⟨k', hk', hdone⟩ := hbody message h
  rw [sendMessage_call h, hk]
  have hlen : (frameLength message).length = 4 := leBytes_length _ _
  simp only [Process.call_bind]
  rw [call_recv_congr hlen.symm]
  refine Session.transfer (by rw [hlen]; decide) message.toBytes_pos rfl
    (by rw [hk']; rfl) hquiet hQ ?_
  rw [hdone]
  exact hnext

theorem send_to_closed {message : P2pMessage} (h : message.Sendable) {s : ρ}
    {F : Result Unit × ρ → NodeParty σ α} {right : NodeParty τ β} (hclosed : right.Closed)
    (hQ : ∀ s : Session Error StoreOp.Answer σ α τ β, s.left.OffPoint → s.right.OffPoint → Q s)
    (hok : ∀ toRight, Until (Session.Step socketFaults lbody rbody) Q P
      ⟨F (.ok (), s), right, [], toRight⟩)
    (herr : ∀ e toRight, Until (Session.Step socketFaults lbody rbody) Q P
      ⟨F (.error e, s), right, [], toRight⟩) :
    Until (Session.Step socketFaults lbody rbody) Q P
      ⟨(sendMessage message s).bind F, right, [], []⟩ := by
  have hoff : right.OffPoint := Process.Quiet.offPoint (.inr hclosed)
  rw [sendMessage_call h]
  refine Session.send_closed hclosed (hQ _ Process.offPoint_call hoff) ?_ (fun e _ => herr e _)
  exact Session.send_closed hclosed (hQ _ Process.offPoint_call hoff) (hok _) (fun e _ => herr e _)

theorem recv_from_closed {s : ρ} {F : Result P2pMessage × ρ → NodeParty σ α}
    {right : NodeParty τ β} {toRight : Bytes} (hclosed : right.Closed)
    (hQ : ∀ s : Session Error StoreOp.Answer σ α τ β, s.left.OffPoint → s.right.OffPoint → Q s)
    (herr : ∀ e, Until (Session.Step socketFaults lbody rbody) Q P
      ⟨F (.error e, s), right, [], toRight⟩) :
    Until (Session.Step socketFaults lbody rbody) Q P
      ⟨(recvMessage s).bind F, right, [], toRight⟩ := by
  have hoff : right.OffPoint := Process.Quiet.offPoint (.inr hclosed)
  obtain ⟨k, hk, hfail, _⟩ := recvMessage_call s
  rw [hk]
  refine Session.recv_closed hclosed (hQ _ Process.offPoint_call hoff) ⟨_, 0, rfl⟩ ?_
  intro e _
  rw [hfail]
  exact herr e

end Messages

/-! The two ends as sequences of actions. -/

def onOk {σ α β : Type} (k : α → PeerState → NodeParty σ (Result β)) (out : Result α × PeerState) :
    NodeParty σ (Result β) :=
  match out.1 with
  | .ok a => k a out.2
  | .error e => .ret (.done (.error e))

section Parties
variable {α β : Type} (m : PeerAction α) (state : PeerState)

theorem clientStep_eq (next : α → PeerState → Turn ClientPoint (Result RelayClientResult)) :
    clientStep m state next = (m state).bind (onOk fun a s => .ret (next a s)) := rfl

theorem clientStep_bind (k : α → PeerAction β)
    (next : β → PeerState → Turn ClientPoint (Result RelayClientResult)) :
    clientStep (m >>= k) state next = (m state).bind (onOk fun a s => clientStep (k a) s next) := by
  rw [clientStep, Action.bind_run, Process.bind_assoc]
  congr 1
  funext out
  obtain ⟨r, s⟩ := out
  cases r <;> rfl

theorem serverParty_bind (k : α → PeerAction RelaySessionSummary) :
    serverParty (m >>= k) state = (m state).bind (onOk fun a s => serverParty (k a) s) := by
  rw [serverParty, Action.bind_run, Process.bind_assoc]
  congr 1
  funext out
  obtain ⟨r, s⟩ := out
  cases r <;> rfl

theorem serverParty_messages (n : Nat) :
    serverParty (serveRelayMessages (n + 1)) state = (recvMessage state).bind fun out =>
      match out.1 with
      | .ok message =>
        serverParty (PeerState.handleMessage message >>= fun _ => serveRelayMessages n) out.2
      | .error e =>
        serverParty ((if peerDisconnected e then pure () else Action.fail e) >>= fun _ => do
          PeerState.persistLedger
          let state ← Action.state
          pure ⟨state.height, state.mempool.size⟩) out.2 := by
  rw [serveRelayMessages, relayMessageLoop, Action.bind_assoc, serverParty_bind, Action.attempt,
    Process.bind_assoc]
  congr 1
  funext out
  obtain ⟨r, s⟩ := out
  cases r with
  | error e => rfl
  | ok message =>
    change serverParty
      ((PeerState.handleMessage message >>= fun _ => relayMessageLoop n) >>= _) s = _
    rw [Action.bind_assoc]
    rfl

theorem serverParty_exhausted : (serverParty (serveRelayMessages 0) state).Closed := ⟨_, rfl⟩

theorem serverParty_quiet (n : Nat) : (serverParty (serveRelayMessages n) state).Quiet := by
  cases n with
  | zero => exact .inr (serverParty_exhausted state)
  | succ n =>
    rw [serverParty_messages]
    exact recvMessage_quiet _ _

end Parties

/-! Rounds of the sync loop. -/

def NotSynced (s : RelaySession) : Prop := ∀ peer state, s.left ≠ .ret (.again (.synced peer state))

def ClientFailed (s : RelaySession) : Prop := ∃ e, s.left = .ret (.done (.error e))

theorem notSynced_offPoint (s : RelaySession) (h : s.left.OffPoint) (_ : s.right.OffPoint) :
    NotSynced s := fun peer state => h (.synced peer state)

theorem requestBlock_eq (height : UInt32) :
    requestBlock height = (sendMessage (blockRequestMessage height) >>= fun _ =>
      recvMessage >>= PeerState.handleMessage) := rfl

/-- The client after it has tried to connect a block it asked for. -/
def pulled (peer : HandshakePayload) (next : UInt32) (client : PeerState) (block : Block) :
    ClientParty :=
  clientStep (PeerState.connectBlock block) client fun _ client =>
    .again (.syncing peer (next + 1) client)

section Rounds
variable {persist : Bool} {options : RelayClientOptions} {P : RelaySession → Prop}
  {peer : HandshakePayload} {next : UInt32} {client server : PeerState} {block : Block}

theorem round_request (hnext : next ≤ peer.height) (n : Nat)
    (h : Until (RelayStep persist options) NotSynced P
      ⟨clientStep (recvMessage >>= PeerState.handleMessage) client
          fun _ client => .again (.syncing peer (next + 1) client),
        serverParty (PeerState.onBlockRequest ⟨next⟩ >>= fun _ => serveRelayMessages n) server,
        [], []⟩) :
    Until (RelayStep persist options) NotSynced P
      ⟨.ret (.again (.syncing peer next client)), serverParty (serveRelayMessages (n + 1)) server,
        [], []⟩ := by
  refine Session.enter_left (serverParty_quiet server _) (fun _ _ he => by cases he) ?_
  rw [relayClient, if_pos hnext, requestBlock_eq, clientStep_bind, serverParty_messages]
  refine deliver (blockRequestMessage_sendable next) ?_ notSynced_offPoint ?_
  · rw [onOk, clientStep_bind]
    exact recvMessage_quiet _ _
  · rw [← PeerState.handleMessage_blockRequest] at h
    exact h

theorem round_reply (hnext : next ≤ peer.height) (hpersist : client.persist = false)
    (hfound : server.blockAtHeight next = some block) (hsane : block.Sane)
    (hfit : block.toBytes.length + 4 ≤ kMaxP2pPayloadBytes.toNat) {n : Nat}
    (h : Until (RelayStep persist options) NotSynced P
      ⟨pulled peer next client block, serverParty (serveRelayMessages n) server, [], []⟩) :
    Until (RelayStep persist options) NotSynced P
      ⟨.ret (.again (.syncing peer next client)), serverParty (serveRelayMessages (n + 1)) server,
        [], []⟩ := by
  refine round_request hnext n ?_
  rw [clientStep_bind, serverParty_bind, PeerState.onBlockRequest_found hfound hsane]
  refine Session.until_swap (deliver (blockResponseMessage_sendable hfit)
    (serverParty_quiet server n) (fun s hl hr => notSynced_offPoint s.swap hr hl) ?_)
  refine Session.until_swap ?_
  rw [pulled, clientStep_eq, ← PeerState.connect_and_persist hpersist,
    ← PeerState.handleMessage_blockResponse hsane] at h
  exact h

theorem round_closed (hnext : next ≤ peer.height) (hfail : ∀ s, ClientFailed s → P s)
    {right : ServerParty} (hclosed : right.Closed) :
    Until (RelayStep persist options) NotSynced P
      ⟨.ret (.again (.syncing peer next client)), right, [], []⟩ := by
  refine Session.enter_left (.inr hclosed) (fun _ _ he => by cases he) ?_
  rw [relayClient, if_pos hnext, requestBlock_eq, clientStep_bind]
  refine send_to_closed (blockRequestMessage_sendable next) hclosed notSynced_offPoint ?_
    (fun e _ => .now (hfail _ ⟨e, rfl⟩))
  intro toRight
  rw [onOk, clientStep_bind]
  exact recv_from_closed hclosed notSynced_offPoint fun e => .now (hfail _ ⟨e, rfl⟩)

theorem round_oversize (hnext : next ≤ peer.height) (hfail : ∀ s, ClientFailed s → P s)
    (hfound : server.blockAtHeight next = some block) (hsane : block.Sane)
    (hbig : ¬ block.toBytes.length + 4 ≤ kMaxP2pPayloadBytes.toNat) {n : Nat} :
    Until (RelayStep persist options) NotSynced P
      ⟨.ret (.again (.syncing peer next client)), serverParty (serveRelayMessages (n + 1)) server,
        [], []⟩ := by
  refine round_request hnext n ?_
  have hlong : kMaxP2pPayloadBytes.toNat < (blockResponseMessage block.toBytes).payload.length := by
    simpa [blockResponseMessage, makeMessage, putVarBytes_length] using hbig
  rw [clientStep_bind, serverParty_bind, PeerState.onBlockRequest_found hfound hsane,
    sendMessage_oversize hlong]
  exact recv_from_closed ⟨_, rfl⟩ notSynced_offPoint fun e => .now (hfail _ ⟨e, rfl⟩)

theorem sync_passed (hnext : ¬ next ≤ peer.height) (hheight : client.height = peer.height)
    {right : ServerParty} (hquiet : right.Quiet)
    (h : P ⟨.ret (.again (.synced peer client)), right, [], []⟩) :
    Until (RelayStep persist options) NotSynced P
      ⟨.ret (.again (.syncing peer next client)), right, [], []⟩ := by
  refine Session.enter_left hquiet (fun _ _ he => by cases he) ?_
  rw [relayClient, if_neg hnext, if_neg (not_not.mpr hheight)]
  exact .now h

theorem sync_refused (hnext : ¬ next ≤ peer.height) (hheight : client.height ≠ peer.height)
    {right : ServerParty} (hquiet : right.Quiet) (hfail : ∀ s, ClientFailed s → P s) :
    Until (RelayStep persist options) NotSynced P
      ⟨.ret (.again (.syncing peer next client)), right, [], []⟩ := by
  refine Session.enter_left hquiet (fun _ _ he => by cases he) ?_
  rw [relayClient, if_neg hnext, if_pos hheight]
  exact .now (hfail _ ⟨_, rfl⟩)

end Rounds

/-! The handshake. -/

section Handshake
variable {persist : Bool} {options : RelayClientOptions} {P : RelaySession → Prop}
  {client server : PeerState}

theorem makeHandshake_of_valid {state : PeerState} (h : ValidNodeId state.nodeId) :
    ∃ message, makeHandshakeMessage state.localHandshake = .ok message ∧ message.Sendable ∧
      parseHandshakeMessage message = .ok state.localHandshake := by
  have hmake : makeHandshakeMessage state.localHandshake = .ok _ :=
    makeHandshakeMessage_ok.mpr ⟨h, rfl⟩
  exact ⟨_, hmake, makeHandshakeMessage_sendable hmake, parseHandshakeMessage_make rfl hmake⟩

theorem makeHandshake_of_invalid {state : PeerState} (h : ¬ ValidNodeId state.nodeId) :
    ∃ e, makeHandshakeMessage state.localHandshake = .error e := by
  cases hmake : makeHandshakeMessage state.localHandshake with
  | error e => exact ⟨e, rfl⟩
  | ok message => exact absurd (makeHandshakeMessage_ok.mp hmake).1 h

theorem clientStep_state {β : Type} (k : PeerState → PeerAction β) (state : PeerState)
    (next : β → PeerState → Turn ClientPoint (Result RelayClientResult)) :
    clientStep (Action.state >>= k) state next = clientStep (k state) state next := rfl

theorem clientStep_check {α β : Type} {x : Result α} {a : α} (h : x = .ok a) (k : α → PeerAction β)
    (state : PeerState) (next : β → PeerState → Turn ClientPoint (Result RelayClientResult)) :
    clientStep (Action.ofExcept x >>= k) state next = clientStep (k a) state next := by
  rw [h]
  rfl

theorem clientStep_check_error {α β : Type} {x : Result α} {e : Error} (h : x = .error e)
    (k : α → PeerAction β) (state : PeerState)
    (next : β → PeerState → Turn ClientPoint (Result RelayClientResult)) :
    clientStep (Action.ofExcept x >>= k) state next = .ret (.done (.error e)) := by
  rw [h]
  rfl

theorem serverParty_check {α : Type} {x : Result α} {a : α} (h : x = .ok a)
    (k : α → PeerAction RelaySessionSummary) (state : PeerState) :
    serverParty (Action.ofExcept x >>= k) state = serverParty (k a) state := by
  rw [h]
  rfl

theorem serverParty_check_error {α : Type} {x : Result α} {e : Error} (h : x = .error e)
    (k : α → PeerAction RelaySessionSummary) (state : PeerState) :
    serverParty (Action.ofExcept x >>= k) state = .ret (.done (.error e)) := by
  rw [h]
  rfl

theorem serverParty_state (k : PeerState → PeerAction RelaySessionSummary) (state : PeerState) :
    serverParty (Action.state >>= k) state = serverParty (k state) state := rfl

theorem serverParty_connection :
    serverParty serveRelayConnection server = (recvMessage server).bind (onOk fun inbound server =>
      serverParty (Action.ofExcept (parseHandshakeMessage inbound) >>= fun _ =>
        Action.ofExcept (makeHandshakeMessage server.localHandshake) >>= fun outbound =>
          sendMessage outbound >>= fun _ => serveRelayMessages kMaxRelayMessages) server) := by
  rw [serveRelayConnection, serveRelayHandshake, Action.bind_assoc, serverParty_bind]
  congr 1
  funext out
  obtain ⟨r, s⟩ := out
  cases r with
  | error e => rfl
  | ok inbound =>
    simp only [onOk, Action.bind_assoc]
    cases hparse : parseHandshakeMessage inbound with
    | error e => rw [serverParty_check_error rfl, serverParty_check_error rfl]
    | ok peer => rw [serverParty_check rfl, serverParty_check rfl, serverParty_state]

theorem serverParty_connection_quiet : (serverParty serveRelayConnection server).Quiet := by
  rw [serverParty_connection]
  exact recvMessage_quiet _ _

theorem handshake_request (hclient : ValidNodeId client.nodeId)
    (h : Until (RelayStep persist options) NotSynced P
      ⟨clientStep (recvMessage >>= fun inbound => Action.ofExcept (parseHandshakeMessage inbound))
          client fun peer client => .again (.syncing peer (client.height + 1) client),
        serverParty
          (Action.ofExcept (makeHandshakeMessage server.localHandshake) >>= fun outbound =>
          sendMessage outbound >>= fun _ => serveRelayMessages kMaxRelayMessages) server,
        [], []⟩) :
    Until (RelayStep persist options) NotSynced P (relaySession client server) := by
  obtain ⟨message, hmake, hsend, hparse⟩ := makeHandshake_of_valid hclient
  refine Session.enter_left serverParty_connection_quiet (fun _ _ he => by cases he) ?_
  have hbody : relayClient persist options (.connected client) =
      (sendMessage message client).bind (onOk fun _ client =>
        clientStep (recvMessage >>= fun inbound => Action.ofExcept (parseHandshakeMessage inbound))
          client fun peer client => .again (.syncing peer (client.height + 1) client)) := by
    rw [relayClient, exchangeRelayHandshake, clientStep_state, clientStep_check hmake,
      clientStep_bind]
  rw [hbody, serverParty_connection]
  refine deliver hsend ?_ notSynced_offPoint ?_
  · rw [onOk, clientStep_bind]
    exact recvMessage_quiet _ _
  · simp only [onOk]
    rw [serverParty_check hparse]
    exact h

theorem handshake_done (hclient : ValidNodeId client.nodeId) (hserver : ValidNodeId server.nodeId)
    (h : Until (RelayStep persist options) NotSynced P
      ⟨.ret (.again (.syncing server.localHandshake (client.height + 1) client)),
        serverParty (serveRelayMessages kMaxRelayMessages) server, [], []⟩) :
    Until (RelayStep persist options) NotSynced P (relaySession client server) := by
  obtain ⟨message, hmake, hsend, hparse⟩ := makeHandshake_of_valid hserver
  refine handshake_request hclient ?_
  rw [clientStep_bind, serverParty_check hmake, serverParty_bind]
  refine Session.until_swap (deliver hsend (serverParty_quiet server _)
    (fun s hl hr => notSynced_offPoint s.swap hr hl) (Session.until_swap ?_))
  simp only [Session.swap, onOk, clientStep_eq, Action.ofExcept_run, Process.bind_ret_left, hparse]
  exact h

theorem handshake_failed (h : ¬ (ValidNodeId client.nodeId ∧ ValidNodeId server.nodeId)) :
    Until (RelayStep persist options) NotSynced ClientFailed (relaySession client server) := by
  by_cases hclient : ValidNodeId client.nodeId
  · have hserver : ¬ ValidNodeId server.nodeId := fun hs => h ⟨hclient, hs⟩
    obtain ⟨e, he⟩ := makeHandshake_of_invalid hserver
    refine handshake_request hclient ?_
    rw [clientStep_bind]
    exact recv_from_closed ⟨_, serverParty_check_error he _ server⟩ notSynced_offPoint
      fun e => .now ⟨e, rfl⟩
  · obtain ⟨e, he⟩ := makeHandshake_of_invalid hclient
    have hbody : relayClient persist options (.connected client) = .ret (.done (.error e)) := by
      rw [relayClient, exchangeRelayHandshake, clientStep_state, clientStep_check_error he]
    exact Session.enter_left serverParty_connection_quiet (fun _ _ he => by cases he)
      (.now ⟨e, hbody⟩)

end Handshake

/-! What an honest server has to offer. -/

theorem PeerState.Inv.served {config : NodeConfig} {params : ConsensusParams} {server : PeerState}
    (h : server.Inv config params) {height : UInt32} (hle : height ≤ server.height) :
    ∃ block, server.blockAtHeight height = some block ∧ block.Sane ∧ block.header.height = height ∧
      (height = server.height → block.header = server.chain.tip) := by
  obtain ⟨blocks, hacc, hcat⟩ := h.history
  have hheights : ∀ i (b : Block), blocks[i]? = some b → b.header.height.toNat = i :=
    fun _ _ hi => hacc.block_height hi
  have hlen := hacc.height_eq
  have hlt : height.toNat < blocks.length := by
    have hle' := UInt32.le_iff_toNat_le.mp hle
    simp only [PeerState.height] at hle'
    omega
  have hget : blocks[height.toNat]? = some blocks[height.toNat] := List.getElem?_eq_getElem hlt
  refine ⟨blocks[height.toNat], ?_, hacc.block_sane _ (List.getElem_mem hlt),
    UInt32.toNat_inj.mp (hheights _ _ hget), ?_⟩
  · rw [PeerState.blockAtHeight, hcat.find?_eq hheights, hget]
  · intro htop
    have htip := hacc.tip_eq
    have hlast : height.toNat = blocks.length - 1 := by
      rw [htop, PeerState.height]
      omega
    rw [List.getLast?_eq_getElem?, ← hlast, hget] at htip
    exact Option.some.inj htip

theorem pulled_cases (peer : HandshakePayload) (next : UInt32) (client : PeerState)
    (block : Block) :
    (∃ e, client.chain.submitBlock block (some client.mempool) = .error e ∧
      pulled peer next client block = .ret (.done (.error e))) ∨
    ∃ fees chain pool, client.chain.submitBlock block (some client.mempool) =
      .ok (fees, chain, pool) ∧
      chain.tip = block.header ∧
      pulled peer next client block =
        .ret (.again (.syncing peer (next + 1) (client.connected block chain))) := by
  obtain ⟨e, hs, hrun⟩ | ⟨fees, chain, pool, hs, hrun⟩ := PeerState.connectBlock_run block client
  · left
    refine ⟨e, hs, ?_⟩
    rw [pulled, clientStep, hrun]
    rfl
  · right
    obtain ⟨_, ⟨utxos, _, hchain⟩, _⟩ := Chain.submitBlock_ok.mp hs
    refine ⟨fees, chain, pool, hs, by rw [hchain], ?_⟩
    rw [pulled, clientStep, hrun]
    rfl

end Blockchain
