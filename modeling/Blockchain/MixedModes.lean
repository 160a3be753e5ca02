import Blockchain.Ping
import Blockchain.RelayCompleteness

/-! The two modes against each other: a ping client at a relay server, and a relay client at a
ping server. -/
namespace Blockchain
open Lib

theorem PeerState.handleMessage_ping (nonce : UInt64) :
    handleMessage (pingMessage nonce) = sendMessage (pongMessage nonce) := by
  funext state
  change (Action.ofExcept (parsePingMessage (pingMessage nonce)) >>= fun ping =>
    Action.ofExcept (makePongMessage ⟨ping.nonce⟩) >>= fun pong => sendMessage pong) state = _
  rw [parsePingMessage_make]
  rfl

/-! A ping client at a relay server. -/

abbrev PingRelaySession :=
  Session Error StoreOp.Answer Empty (Result Unit) Empty (Result RelaySessionSummary)

def pingRelaySession (client : NodeConfig) (server : PeerState) : PingRelaySession :=
  ⟨party (runPingClient client) (), serverParty serveRelayConnection server, [], []⟩

section PingClient
variable {client : NodeConfig} {server : PeerState}

theorem ping_moves_relay (n : Nat) :
    Moves Empty.elim Empty.elim
      (⟨party (pingPhase client) (), serverParty (serveRelayMessages (n + 1)) server, [], []⟩ :
        PingRelaySession)
      ⟨.ret (.done (.ok ())), serverParty (serveRelayMessages n) server, [], []⟩ := by
  rw [pingPhase, party_bind, serverParty_messages]
  refine (moves_right (pingMessage_sendable _)).trans ?_
  simp only [onSuccess]
  rw [party_bind, PeerState.handleMessage_ping, serverParty_bind]
  refine (moves_left (pongMessage_sendable _)).trans ?_
  simp only [onSuccess, onOk]
  rw [party_check (parsePongMessage_make _), if_neg (not_not.mpr rfl)]
  exact .refl

theorem pingRelaySession_moves (hclient : ValidNodeId client.nodeId)
    (hserver : ValidNodeId server.nodeId) :
    Moves Empty.elim Empty.elim (pingRelaySession client server)
      ⟨.ret (.done (.ok ())), serverParty (serveRelayMessages (kMaxRelayMessages - 1)) server,
        [], []⟩ := by
  obtain ⟨hello, hmake, hsend, hparse⟩ := handshake_of_valid hclient
  obtain ⟨reply, hmake', hsend', hparse'⟩ := makeHandshake_of_valid hserver
  rw [pingRelaySession, runPingClient_eq, party_check hmake, party_bind, serverParty_connection]
  refine (moves_right hsend).trans ?_
  simp only [onSuccess, onOk]
  rw [serverParty_check hparse, serverParty_check hmake', serverParty_bind, party_bind]
  refine (moves_left hsend').trans ?_
  simp only [onSuccess, onOk]
  rw [party_check hparse']
  exact ping_moves_relay (kMaxRelayMessages - 1)

end PingClient

/-- A relay server serves a ping client like any other peer: in every interleaving the client
gets its echo and the server ends the session with its chain and its pool as they were. -/
theorem ping_client_at_relay_server {client : NodeConfig} {server : PeerState}
    (hclient : ValidNodeId client.nodeId) (hserver : ValidNodeId server.nodeId)
    (hpersist : server.persist = false) :
    Until (Session.Step socketFaults Empty.elim Empty.elim) (fun _ => True)
      (fun s => s.left = .ret (.done (.ok ())) ∧
        s.right = .ret (.done (.ok ⟨server.height, server.mempool.size⟩)))
      (pingRelaySession client server) := by
  have hrest : Session.AtRest (⟨.ret (.done (.ok ())),
      serverParty (serveRelayMessages (kMaxRelayMessages - 1)) server,
      [], []⟩ : PingRelaySession) :=
    ⟨.inr ⟨_, rfl⟩, serverParty_quiet server _, rfl, rfl⟩
  refine (Session.until_rest (pingRelaySession_moves hclient hserver) hrest).trans ?_
  intro s hs
  rw [hs]
  exact serverParty_peer_closed ⟨_, rfl⟩ (kMaxRelayMessages - 2) hpersist ⟨rfl, rfl⟩

/-- A default client at a fresh server. -/
theorem ping_client_at_genesis_server :
    ValidNodeId (textBytes "node-0") ∧
    Until (Session.Step socketFaults Empty.elim Empty.elim) (fun _ => True)
      (fun s => s.left = .ret (.done (.ok ())) ∧
        s.right = .ret (.done (.ok ⟨(genesisNode {}).height, (genesisNode {}).mempool.size⟩)))
      (pingRelaySession {} (genesisNode {})) :=
  ⟨defaultNodeId_valid, ping_client_at_relay_server defaultNodeId_valid defaultNodeId_valid rfl⟩

/-! A relay client at a ping server. -/

abbrev RelayPingSession :=
  Session Error StoreOp.Answer ClientPoint (Result RelayClientResult) Empty (Result Unit)

/-- The client has nothing to announce and does not persist. -/
abbrev RelayPingStep : RelayPingSession → RelayPingSession → Prop :=
  Session.Step socketFaults (relayClient false {}) Empty.elim

def relayPingSession (client : PeerState) (server : NodeConfig) : RelayPingSession :=
  ⟨.ret (.again (.connected client)), party (servePingConnection server) (), [], []⟩

/-- Both ends have returned, the server with an error, the client with a success exactly when
it has no blocks beyond its genesis block. -/
def Mismatched (client : PeerState) (s : RelayPingSession) : Prop :=
  (∃ e, s.right = .ret (.done (.error e))) ∧
    ∃ result, s.left = .ret (.done result) ∧
      (result = .ok ⟨client.height, client.tipHash⟩ ↔ client.height = 0) ∧
      (client.height ≠ 0 → ∃ e, result = .error e)

section RelayClient
variable {client : PeerState} {server : NodeConfig}

theorem mismatched_error (hheight : client.height ≠ 0) (e e' : Error) (toLeft toRight : Bytes) :
    Mismatched client ⟨.ret (.done (.error e)), .ret (.done (.error e')), toLeft, toRight⟩ :=
  ⟨⟨e', rfl⟩, _, rfl, iff_of_false (by simp) hheight, fun _ => ⟨e, rfl⟩⟩

theorem moves_point {point : ClientPoint} {party : ClientParty}
    {right : NodeParty Empty (Result Unit)}
    (h : relayClient false {} point = party) :
    Moves (relayClient false {}) Empty.elim
      (⟨.ret (.again point), right, [], []⟩ : RelayPingSession)
      ⟨party, right, [], []⟩ := by
  rw [← h]
  exact .single (.left rfl)

theorem relayPing_handshake (hclient : ValidNodeId client.nodeId)
    (hserver : ValidNodeId server.nodeId) :
    Moves (relayClient false {}) Empty.elim (relayPingSession client server)
      ⟨.ret (.again (.syncing server.localHandshake (client.height + 1) client)),
        party pongPhase (), [], []⟩ := by
  obtain ⟨hello, hmake, hsend, hparse⟩ := makeHandshake_of_valid hclient
  obtain ⟨reply, hmake', hsend', hparse'⟩ := handshake_of_valid hserver
  have hbody : relayClient false {} (.connected client) =
      (sendMessage hello client).bind (onOk fun _ client =>
        clientStep (recvMessage >>= fun inbound => Action.ofExcept (parseHandshakeMessage inbound))
          client fun peer client => .again (.syncing peer (client.height + 1) client)) := by
    rw [relayClient, exchangeRelayHandshake, clientStep_state, clientStep_check hmake,
      clientStep_bind]
  refine (moves_point hbody).trans ?_
  rw [servePingConnection_eq, party_bind]
  refine (moves_right hsend).trans ?_
  simp only [onSuccess, onOk]
  rw [party_check hparse, party_check hmake', clientStep_bind, party_bind]
  refine (moves_left hsend').trans ?_
  simp only [onSuccess, onOk, clientStep_eq, Action.ofExcept_run, Process.bind_ret_left, hparse']
  exact .refl

theorem pongPhase_peer_closed {P : RelayPingSession → Prop}
    {left : NodeParty ClientPoint (Result RelayClientResult)} (hclosed : left.Closed)
    (h : ∀ e, P ⟨left, .ret (.done (.error e)), [], []⟩) :
    Until RelayPingStep (fun _ => True) P ⟨left, party pongPhase (), [], []⟩ := by
  rw [pongPhase, party_bind]
  exact Session.until_swap (recv_from_closed hclosed (fun _ _ _ => trivial) fun e => .now (h e))

theorem mismatched_done {result : Result RelayClientResult}
    (hmoves : Moves (relayClient false {}) Empty.elim (relayPingSession client server)
      ⟨.ret (.done result), party pongPhase (), [], []⟩)
    (h : ∀ e, Mismatched client ⟨.ret (.done result), .ret (.done (.error e)), [], []⟩) :
    Until RelayPingStep (fun _ => True) (Mismatched client) (relayPingSession client server) := by
  have hrest : Session.AtRest
      (⟨.ret (.done result), party pongPhase (), [], []⟩ : RelayPingSession) :=
    ⟨.inr ⟨_, rfl⟩, party_recv_quiet _ _, rfl, rfl⟩
  refine (Session.until_rest hmoves hrest).trans ?_
  intro s hs
  rw [hs]
  exact pongPhase_peer_closed ⟨_, rfl⟩ h

/-- At the largest height the next one is zero, which the server is said to have. -/
theorem mismatched_wrapped (hclient : ValidNodeId client.nodeId)
    (hserver : ValidNodeId server.nodeId)
    (hmax : client.height = kUint32Max) :
    Until RelayPingStep (fun _ => True) (Mismatched client) (relayPingSession client server) := by
  have hne : client.height ≠ 0 := by
    rw [hmax]
    decide
  have hnext : client.height + 1 ≤ server.localHandshake.height := by
    rw [hmax]
    change kUint32Max + 1 ≤ 0
    decide
  obtain ⟨e, he⟩ : ∃ e, parsePingMessage (blockRequestMessage (client.height + 1)) = .error e :=
    ⟨_, rfl⟩
  have hasked : Moves (relayClient false {}) Empty.elim (relayPingSession client server)
      ⟨clientStep (recvMessage >>= PeerState.handleMessage) client fun _ state =>
          .again (.syncing server.localHandshake (client.height + 1 + 1) state),
        .ret (.done (.error e)), [], []⟩ := by
    refine (relayPing_handshake hclient hserver).trans ((moves_point rfl).trans ?_)
    rw [relayClient, if_pos hnext, requestBlock_eq, clientStep_bind, pongPhase, party_bind]
    refine (moves_right (blockRequestMessage_sendable _)).trans ?_
    simp only [onSuccess, onOk]
    rw [party_check_error he]
  have hrest : Session.AtRest (⟨clientStep (recvMessage >>= PeerState.handleMessage) client
      fun _ state => .again (.syncing server.localHandshake (client.height + 1 + 1) state),
      .ret (.done (.error e)), [], []⟩ : RelayPingSession) := by
    refine ⟨?_, .inr ⟨_, rfl⟩, rfl, rfl⟩
    rw [clientStep_bind]
    exact recvMessage_quiet _ _
  refine (Session.until_rest hasked hrest).trans ?_
  intro s hs
  rw [hs, clientStep_bind]
  exact recv_from_closed ⟨_, rfl⟩ (fun _ _ _ => trivial) fun e' =>
    .now (mismatched_error hne e' e _ _)

end RelayClient

/-- A relay client at a ping server: in every interleaving the server fails, and the client
fails too unless its chain is its genesis block alone, when it does not notice. -/
theorem relay_client_at_ping_server {client : PeerState} {server : NodeConfig}
    (hclient : ValidNodeId client.nodeId) (hserver : ValidNodeId server.nodeId) :
    Until RelayPingStep (fun _ => True) (Mismatched client) (relayPingSession client server) := by
  have hnext : client.height ≠ kUint32Max → ¬ client.height + 1 ≤ server.localHandshake.height := by
    intro hmax
    have hlt : client.height.toNat < kUint32Max.toNat := by
      have hle := client.height.toNat_lt
      have hne : client.height.toNat ≠ kUint32Max.toNat := fun he => hmax (UInt32.toNat_inj.mp he)
      have hval : kUint32Max.toNat = 2 ^ 32 - 1 := by decide
      omega
    change ¬ client.height + 1 ≤ 0
    rw [UInt32.le_iff_toNat_le, toNat_succ_of_lt hlt]
    simp
  have hheight : server.localHandshake.height = 0 := rfl
  by_cases hzero : client.height = 0
  · have hmax : client.height ≠ kUint32Max := by
      rw [hzero]
      decide
    have hsynced : relayClient false {}
        (.syncing server.localHandshake (client.height + 1) client) =
        .ret (.again (.synced server.localHandshake client)) := by
      rw [relayClient, if_neg (hnext hmax), hheight, if_neg (not_not.mpr hzero)]
    have hdone : relayClient false {} (.synced server.localHandshake client) =
        .ret (.done (.ok ⟨client.height, client.tipHash⟩)) := rfl
    refine mismatched_done
      ((relayPing_handshake hclient hserver).trans
        ((moves_point hsynced).trans (moves_point hdone))) ?_
    intro e
    exact ⟨⟨e, rfl⟩, _, rfl, iff_of_true rfl hzero, fun hne => absurd hzero hne⟩
  · by_cases hmax : client.height = kUint32Max
    · exact mismatched_wrapped hclient hserver hmax
    · have hrefused : relayClient false {}
          (.syncing server.localHandshake (client.height + 1) client) =
          .ret (.done (makeError .invalidBlock
            ("relay client did not reach target height " ++ toString (0 : UInt32).toNat))) := by
        rw [relayClient, if_neg (hnext hmax), hheight, if_pos hzero]
      refine mismatched_done ((relayPing_handshake hclient hserver).trans (moves_point hrefused)) ?_
      intro e
      exact mismatched_error hzero _ e _ _

/-- A fresh client at a server with the default configuration. -/
theorem genesis_client_at_ping_server :
    ValidNodeId (textBytes "node-0") ∧
    Until RelayPingStep (fun _ => True) (Mismatched (genesisNode {}))
      (relayPingSession (genesisNode {}) {}) :=
  ⟨defaultNodeId_valid, relay_client_at_ping_server defaultNodeId_valid defaultNodeId_valid⟩

end Blockchain
