import Blockchain.Exchange

/-! The ping mode: a handshake without a chain behind it, then one ping that the server
echoes. -/
namespace Blockchain
open Lib

def NodeConfig.localHandshake (config : NodeConfig) : HandshakePayload :=
  ⟨kNetworkMagic, 0, zeroHash, config.nodeId⟩

def expectHandshake (message : P2pMessage) : Result HandshakePayload :=
  parseHandshakeMessage message

def exchangeHandshake (config : NodeConfig) : NodeAction Unit Unit := do
  let outbound ← Action.ofExcept (makeHandshakeMessage config.localHandshake)
  sendMessage outbound
  let inbound ← recvMessage
  let _ ← Action.ofExcept (expectHandshake inbound)
  pure ()

def serveHandshake (config : NodeConfig) : NodeAction Unit Unit := do
  let inbound ← recvMessage
  let _ ← Action.ofExcept (expectHandshake inbound)
  let outbound ← Action.ofExcept (makeHandshakeMessage config.localHandshake)
  sendMessage outbound

/-- The nonce comes from the configuration, not from a clock. -/
def pingNonce (config : NodeConfig) : UInt64 :=
  if config.genesisTimestamp ≠ 0 then config.genesisTimestamp else 1

def servePingConnection (config : NodeConfig) : NodeAction Unit Unit := do
  serveHandshake config
  let inbound ← recvMessage
  let ping ← Action.ofExcept (parsePingMessage inbound)
  let pong ← Action.ofExcept (makePongMessage ⟨ping.nonce⟩)
  sendMessage pong

def runPingClient (config : NodeConfig) : NodeAction Unit Unit := do
  exchangeHandshake config
  let ping ← Action.ofExcept (makePingMessage ⟨pingNonce config⟩)
  sendMessage ping
  let inbound ← recvMessage
  let pong ← Action.ofExcept (parsePongMessage inbound)
  if pong.nonce ≠ pingNonce config then
    Action.fail ⟨.invalidMessage, "pong nonce does not match ping"⟩
  else pure ()

/-! The messages of an exchange. -/

def pingMessage (nonce : UInt64) : P2pMessage := makeMessage .ping (serializePing ⟨nonce⟩)

def pongMessage (nonce : UInt64) : P2pMessage := makeMessage .pong (serializePong ⟨nonce⟩)

theorem nonce_sendable (type : P2pMessageType) (nonce : UInt64) :
    (makeMessage type (serializePing ⟨nonce⟩)).Sendable :=
  ⟨rfl, by simp [makeMessage, serializePing, kMaxP2pPayloadBytes]⟩

theorem pingMessage_sendable (nonce : UInt64) : (pingMessage nonce).Sendable := nonce_sendable _ _

theorem pongMessage_sendable (nonce : UInt64) : (pongMessage nonce).Sendable := nonce_sendable _ _

theorem deserializePing_serialize (nonce : UInt64) :
    deserializePing (serializePing ⟨nonce⟩) = .ok ⟨nonce⟩ :=
  ping_roundTrips.decode ⟨nonce⟩ _ trivial rfl

theorem parsePingMessage_make (nonce : UInt64) :
    parsePingMessage (pingMessage nonce) = .ok ⟨nonce⟩ := by
  rw [parsePingMessage, pingMessage, parseMessage_makeMessage, deserializePing_serialize]

theorem parsePongMessage_make (nonce : UInt64) :
    parsePongMessage (pongMessage nonce) = .ok ⟨nonce⟩ := by
  rw [parsePongMessage, pongMessage, parseMessage_makeMessage, deserializePong, serializePong,
    deserializePing_serialize]

theorem handshake_of_valid {config : NodeConfig} (h : ValidNodeId config.nodeId) :
    ∃ message, makeHandshakeMessage config.localHandshake = .ok message ∧ message.Sendable ∧
      parseHandshakeMessage message = .ok config.localHandshake := by
  have hmake : makeHandshakeMessage config.localHandshake = .ok _ :=
    makeHandshakeMessage_ok.mpr ⟨h, rfl⟩
  exact ⟨_, hmake, makeHandshakeMessage_sendable hmake, parseHandshakeMessage_make rfl hmake⟩

theorem handshake_of_invalid {config : NodeConfig} (h : ¬ ValidNodeId config.nodeId) :
    ∃ e, makeHandshakeMessage config.localHandshake = .error e := by
  cases hmake : makeHandshakeMessage config.localHandshake with
  | error e => exact ⟨e, rfl⟩
  | ok message => exact absurd (makeHandshakeMessage_ok.mp hmake).1 h

/-! A client and a server. -/

abbrev PingSession := Session Error StoreOp.Answer Empty (Result Unit) Empty (Result Unit)

abbrev PingStep : PingSession → PingSession → Prop :=
  Session.Step socketFaults Empty.elim Empty.elim

def pingSession (client server : NodeConfig) : PingSession :=
  ⟨party (runPingClient client) (), party (servePingConnection server) (), [], []⟩

section Phases
variable (config : NodeConfig)

def pingPhase : NodeAction Unit Unit := do
  sendMessage (pingMessage (pingNonce config))
  let inbound ← recvMessage
  let pong ← Action.ofExcept (parsePongMessage inbound)
  if pong.nonce ≠ pingNonce config then
    Action.fail ⟨.invalidMessage, "pong nonce does not match ping"⟩
  else pure ()

def pongPhase : NodeAction Unit Unit := do
  let inbound ← recvMessage
  let ping ← Action.ofExcept (parsePingMessage inbound)
  let pong ← Action.ofExcept (makePongMessage ⟨ping.nonce⟩)
  sendMessage pong

theorem runPingClient_eq : runPingClient config = (do
    let outbound ← Action.ofExcept (makeHandshakeMessage config.localHandshake)
    sendMessage outbound
    let inbound ← recvMessage
    let _ ← Action.ofExcept (parseHandshakeMessage inbound)
    pingPhase config) := by
  simp only [runPingClient, exchangeHandshake, Action.bind_assoc]
  rfl

theorem servePingConnection_eq : servePingConnection config = (do
    let inbound ← recvMessage
    let _ ← Action.ofExcept (parseHandshakeMessage inbound)
    let outbound ← Action.ofExcept (makeHandshakeMessage config.localHandshake)
    sendMessage outbound
    pongPhase) := by
  simp only [servePingConnection, serveHandshake, Action.bind_assoc]
  rfl

theorem ping_moves :
    Moves Empty.elim Empty.elim
      (⟨party (pingPhase config) (), party pongPhase (), [], []⟩ : PingSession)
      ⟨.ret (.done (.ok ())), .ret (.done (.ok ())), [], []⟩ := by
  have hserver : party (Action.ofExcept (parsePingMessage (pingMessage (pingNonce config))) >>=
      fun ping => Action.ofExcept (makePongMessage ⟨ping.nonce⟩) >>= fun pong =>
        (sendMessage pong : NodeAction Unit Unit)) () =
      (sendMessage (pongMessage (pingNonce config)) ()).bind fun out => .ret (.done out.1) := by
    rw [party_check (parsePingMessage_make _)]
    rfl
  have hclient : party (Action.ofExcept (parsePongMessage (pongMessage (pingNonce config))) >>=
      fun pong => (if pong.nonce ≠ pingNonce config then
        Action.fail ⟨.invalidMessage, "pong nonce does not match ping"⟩
        else pure () : NodeAction Unit Unit)) () = .ret (.done (.ok ())) := by
    rw [party_check (parsePongMessage_make _), if_neg (not_not.mpr rfl)]
    rfl
  rw [pingPhase, pongPhase, party_bind, party_bind]
  refine (moves_right (pingMessage_sendable _)).trans ?_
  simp only [onSuccess]
  rw [hserver, party_bind]
  refine (moves_left (pongMessage_sendable _)).trans ?_
  simp only [onSuccess]
  rw [hclient]

end Phases

def PingEnded (good : Prop) (s : PingSession) : Prop :=
  ∃ client server, s.left = .ret (.done client) ∧ s.right = .ret (.done server) ∧
    (client = .ok () ↔ good) ∧ (server = .ok () ↔ good)

section Outcome
variable {client server : NodeConfig}

theorem pingEnded_error {good : Prop} (h : ¬ good) (e e' : Error) (toLeft toRight : Bytes) :
    PingEnded good ⟨.ret (.done (.error e)), .ret (.done (.error e')), toLeft, toRight⟩ := by
  have hfailed : ∀ e : Error, (.error e : Result Unit) = .ok () ↔ good :=
    fun e => iff_of_false (by simp) h
  exact ⟨_, _, rfl, rfl, hfailed e, hfailed e'⟩

theorem pingSession_moves (hclient : ValidNodeId client.nodeId)
    (hserver : ValidNodeId server.nodeId) :
    Moves Empty.elim Empty.elim (pingSession client server)
      ⟨.ret (.done (.ok ())), .ret (.done (.ok ())), [], []⟩ := by
  obtain ⟨hello, hmake, hsend, hparse⟩ := handshake_of_valid hclient
  obtain ⟨reply, hmake', hsend', hparse'⟩ := handshake_of_valid hserver
  rw [pingSession, runPingClient_eq, servePingConnection_eq, party_check hmake,
    party_bind, party_bind]
  refine (moves_right hsend).trans ?_
  simp only [onSuccess]
  rw [party_check hparse, party_check hmake', party_bind, party_bind]
  refine (moves_left hsend').trans ?_
  simp only [onSuccess]
  rw [party_check hparse']
  exact ping_moves client

theorem unnamed_client (hclient : ¬ ValidNodeId client.nodeId) :
    Until PingStep (fun _ => True)
      (PingEnded (ValidNodeId client.nodeId ∧ ValidNodeId server.nodeId))
      (pingSession client server) := by
  obtain ⟨e, he⟩ := handshake_of_invalid hclient
  rw [pingSession, runPingClient_eq, servePingConnection_eq, party_check_error he, party_bind]
  refine Session.until_swap (recv_from_closed ⟨_, rfl⟩ (fun _ _ _ => trivial) ?_)
  intro e'
  exact .now (pingEnded_error (fun h => hclient h.1) e e' _ _)

theorem unnamed_server (hclient : ValidNodeId client.nodeId)
    (hserver : ¬ ValidNodeId server.nodeId) :
    Until PingStep (fun _ => True)
      (PingEnded (ValidNodeId client.nodeId ∧ ValidNodeId server.nodeId))
      (pingSession client server) := by
  obtain ⟨hello, hmake, hsend, hparse⟩ := handshake_of_valid hclient
  obtain ⟨e, he⟩ := handshake_of_invalid hserver
  rw [pingSession, runPingClient_eq, servePingConnection_eq, party_check hmake,
    party_bind, party_bind]
  refine deliver hsend (party_recv_quiet _ _) (fun _ _ _ => trivial) ?_
  simp only [onSuccess]
  rw [party_check hparse, party_check_error he, party_bind]
  refine recv_from_closed ⟨_, rfl⟩ (fun _ _ _ => trivial) ?_
  intro e'
  exact .now (pingEnded_error (fun h => hserver h.2) e' e _ _)

end Outcome

/-- Whatever the two configurations and however the two programs are interleaved, both come
to their end, and each succeeds exactly when both have a name that fits a handshake. -/
theorem ping_session_outcome (client server : NodeConfig) :
    Until PingStep (fun _ => True)
      (PingEnded (ValidNodeId client.nodeId ∧ ValidNodeId server.nodeId))
      (pingSession client server) := by
  by_cases hclient : ValidNodeId client.nodeId
  · by_cases hserver : ValidNodeId server.nodeId
    · have hrest : Session.AtRest
          (⟨.ret (.done (.ok ())), .ret (.done (.ok ())), [], []⟩ : PingSession) :=
        ⟨.inr ⟨_, rfl⟩, .inr ⟨_, rfl⟩, rfl, rfl⟩
      refine (Session.until_rest (pingSession_moves hclient hserver) hrest).mono (fun _ h => h) ?_
      intro s hs
      rw [hs]
      exact ⟨_, _, rfl, rfl, ⟨fun _ => ⟨hclient, hserver⟩, fun _ => rfl⟩,
        ⟨fun _ => ⟨hclient, hserver⟩, fun _ => rfl⟩⟩
    · exact unnamed_server hclient hserver
  · exact unnamed_client hclient

/-! Each end on its own, against a peer that sends what it likes. -/

theorem nextFrame_eq_message {inbound rest : Bytes} {message : P2pMessage} :
    nextFrame inbound = .message message rest ↔
      message.Sendable ∧ inbound = frame message.toBytes ++ rest := by
  constructor
  · exact nextFrame_message
  · intro h
    rw [h.2]
    exact nextFrame_frame h.1 rest

theorem nonce_message {type : P2pMessageType} {message : P2pMessage} {payload : PingPayload}
    (hsend : message.Sendable) (h : parseMessage type deserializePing message = .ok payload) :
    message = makeMessage type (serializePing payload) := by
  obtain ⟨htype, hpayload⟩ := guard_eq_ok.mp h
  have hbytes : serializePing payload = message.payload :=
    Except.ok.inj (ping_roundTrips.encode _ _ hpayload)
  obtain ⟨version, mtype, mpayload⟩ := message
  have hversion : version = kProtocolVersion := hsend.version_eq
  rw [makeMessage, hbytes, hversion, ← not_not.mp htype]

/-- Receive a message and check it: the program goes on with what was checked, or fails on a
stream that does not open with such a message. -/
theorem recv_checked {σ α β : Type} {check : P2pMessage → Result α} {k : α → NodeAction σ β} {s : σ}
    {w : Wire} {Q : Result β × σ → Wire → Prop}
    (hgood : ∀ message a rest, message.Sendable → w.inbound = frame message.toBytes ++ rest →
      check message = .ok a → (k a s).Always bufferEnv (w.left rest) Q)
    (hbad : (∀ message a rest, message.Sendable → w.inbound = frame message.toBytes ++ rest →
      check message ≠ .ok a) → ∀ e v, Q (.error e, s) v) :
    ((do
      let message ← recvMessage
      let a ← Action.ofExcept (check message)
      k a : NodeAction σ β) s).Always bufferEnv w Q := by
  rw [Action.always_bind, recvMessage_always]
  cases hnext : nextFrame w.inbound with
  | message message rest =>
    obtain ⟨hsend, hin⟩ := nextFrame_eq_message.mp hnext
    dsimp only
    rw [Action.always_bind, Action.ofExcept_run, Process.always_ret]
    cases hcheck : check message with
    | ok a => exact hgood message a rest hsend hin hcheck
    | error e =>
      refine hbad ?_ e _
      intro message' a rest' hsend' hin' hok
      have hsame := nextFrame_eq_message.mpr ⟨hsend', hin'⟩
      rw [hnext] at hsame
      cases hsame
      rw [hcheck] at hok
      cases hok
  | refused e rest =>
    refine hbad ?_ e _
    intro message a rest' hsend hin
    rw [nextFrame_eq_message.mpr ⟨hsend, hin⟩] at hnext
    cases hnext
  | closed =>
    intro errno
    refine hbad ?_ _ _
    intro message a rest' hsend hin
    rw [nextFrame_eq_message.mpr ⟨hsend, hin⟩] at hnext
    cases hnext

def OpensWith (stream : Bytes) (message : P2pMessage) : Prop :=
  ∃ hello peer rest, hello.Sendable ∧ parseHandshakeMessage hello = .ok peer ∧
    stream = frame hello.toBytes ++ (frame message.toBytes ++ rest)

def SentByEnd (config : NodeConfig) (message : P2pMessage) (sent : Bytes) : Prop :=
  ∃ hello, makeHandshakeMessage config.localHandshake = .ok hello ∧
    sent = frame hello.toBytes ++ frame message.toBytes

theorem opensWith_split {hello message : P2pMessage} {rest : Bytes} (hsend : hello.Sendable)
    (h : OpensWith (frame hello.toBytes ++ rest) message) :
    ∃ rest', rest = frame message.toBytes ++ rest' := by
  obtain ⟨hello', peer, rest', hsend', _, hstream⟩ := h
  have hnext := nextFrame_eq_message.mpr ⟨hsend', hstream⟩
  rw [nextFrame_frame hsend] at hnext
  cases hnext
  exact ⟨rest', rfl⟩

theorem opensWith_nonce {type : P2pMessageType} {hello message : P2pMessage} {nonce : UInt64}
    {payload : PingPayload} {rest rest' : Bytes} (hhello : hello.Sendable)
    (hsend : message.Sendable)
    (hin : rest = frame message.toBytes ++ rest')
    (hparse : parseMessage type deserializePing message = .ok payload)
    (h : OpensWith (frame hello.toBytes ++ rest) (makeMessage type (serializePing ⟨nonce⟩))) :
    payload.nonce = nonce := by
  obtain ⟨rest'', hrest⟩ := opensWith_split hhello h
  have hpayload := nonce_sendable type nonce
  have hnext := nextFrame_eq_message.mpr ⟨hpayload, hrest⟩
  rw [nextFrame_eq_message.mpr ⟨hsend, hin⟩] at hnext
  cases hnext
  rw [parseMessage_makeMessage, deserializePing_serialize] at hparse
  cases hparse
  rfl

theorem unnamed_verdict {config : NodeConfig} (hid : ¬ ValidNodeId config.nodeId)
    (k : P2pMessage → NodeAction Unit Unit) {w : Wire} {Q : Result Unit × Unit → Wire → Prop}
    (h : ∀ e v, Q (.error e, ()) v) :
    ((Action.ofExcept (makeHandshakeMessage config.localHandshake) >>= k) ()).Always
      bufferEnv w Q := by
  obtain ⟨e, he⟩ := handshake_of_invalid hid
  rw [Action.always_bind, Action.ofExcept_run, Process.always_ret, he]
  exact h e w

theorem send_then {σ β : Type} {message : P2pMessage} (h : message.Sendable) {k : NodeAction σ β}
    {s : σ} {w : Wire} (hw : w.deaf = false) {Q : Result β × σ → Wire → Prop}
    (hnext : (k s).Always bufferEnv (w.push (frame message.toBytes)) Q) :
    ((do
      sendMessage message
      k : NodeAction σ β) s).Always bufferEnv w Q := by
  rw [Action.always_bind, sendMessage_always h hw]
  exact hnext

theorem check_then {σ α β : Type} {x : Result α} {a : α} (h : x = .ok a) {k : α → NodeAction σ β}
    {s : σ} {w : Wire} {Q : Result β × σ → Wire → Prop} (hnext : (k a s).Always bufferEnv w Q) :
    ((Action.ofExcept x >>= k) s).Always bufferEnv w Q := by
  rw [Action.always_bind, Action.ofExcept_run, Process.always_ret, h]
  exact hnext

/-- An end succeeds on good streams only, and then has sent what it should. -/
def Verdict (good : Prop) (sent : Bytes → Prop) (out : Result Unit × Unit) (w : Wire) : Prop :=
  (out.1 = .ok () ↔ good) ∧ (out.1 = .ok () → sent w.sent)

theorem sent_once (stream a b rest rest' : Bytes) :
    ((((Wire.left ⟨stream, [], false⟩ rest).push a).left rest').push b).sent = a ++ b := rfl

theorem sent_twice (stream a b rest rest' : Bytes) :
    ((((Wire.push ⟨stream, [], false⟩ a).left rest).push b).left rest').sent = a ++ b := rfl

theorem Verdict.fails {good : Prop} {sent : Bytes → Prop} (h : ¬ good) (e : Error) (w : Wire) :
    Verdict good sent (.error e, ()) w :=
  ⟨iff_of_false (by simp) h, by simp⟩

theorem ping_client_always (config : NodeConfig) (stream : Bytes) :
    (runPingClient config ()).Always bufferEnv ⟨stream, [], false⟩
      (Verdict (ValidNodeId config.nodeId ∧ OpensWith stream (pongMessage (pingNonce config)))
        (SentByEnd config (pingMessage (pingNonce config)))) := by
  rw [runPingClient_eq]
  by_cases hid : ValidNodeId config.nodeId
  · obtain ⟨hello, hmake, hsend, _⟩ := handshake_of_valid hid
    refine check_then hmake (send_then hsend rfl (recv_checked ?_ ?_))
    · intro reply peer rest hreply hin hparse
      cases (show stream = frame reply.toBytes ++ rest from hin)
      refine send_then (pingMessage_sendable _) rfl (recv_checked ?_ ?_)
      · intro message pong rest' hmessage hin' hpong
        by_cases hnonce : pong.nonce = pingNonce config
        · rw [if_neg (not_not.mpr hnonce), Action.pure_run, Process.always_ret]
          have hecho : message = pongMessage (pingNonce config) := by
            rw [nonce_message hmessage hpong, ← hnonce]
            rfl
          rw [hecho] at hin'
          cases (show rest = _ from hin')
          exact ⟨iff_of_true rfl ⟨hid, reply, peer, rest', hreply, hparse, rfl⟩,
            fun _ => ⟨hello, hmake, sent_twice _ _ _ _ _⟩⟩
        · rw [if_pos hnonce, Action.fail_run, Process.always_ret]
          exact Verdict.fails (fun h => hnonce (opensWith_nonce hreply hmessage hin' hpong h.2)) _ _
      · intro hnone
        refine Verdict.fails fun h => ?_
        obtain ⟨rest', hrest⟩ := opensWith_split hreply h.2
        exact hnone _ _ rest' (pongMessage_sendable _) hrest (parsePongMessage_make _)
    · intro hnone
      refine Verdict.fails fun h => ?_
      obtain ⟨reply, peer, rest, hreply, hparse, hstream⟩ := h.2
      exact hnone reply peer _ hreply hstream hparse
  · exact unnamed_verdict hid _ (Verdict.fails fun h => hid h.1)

theorem ping_server_always (config : NodeConfig) (stream : Bytes) :
    (servePingConnection config ()).Always bufferEnv ⟨stream, [], false⟩
      (Verdict (ValidNodeId config.nodeId ∧ ∃ nonce, OpensWith stream (pingMessage nonce))
        fun sent => ∀ nonce, OpensWith stream (pingMessage nonce) →
          SentByEnd config (pongMessage nonce) sent) := by
  rw [servePingConnection_eq]
  refine recv_checked ?_ ?_
  · intro hello peer rest hhello hin hparse
    cases (show stream = frame hello.toBytes ++ rest from hin)
    by_cases hid : ValidNodeId config.nodeId
    · obtain ⟨reply, hmake, hsend, _⟩ := handshake_of_valid hid
      refine check_then hmake (send_then hsend rfl (recv_checked ?_ ?_))
      · intro message ping rest' hmessage hin' hping
        have hping' : message = pingMessage ping.nonce := nonce_message hmessage hping
        have hmade : makePongMessage ⟨ping.nonce⟩ = .ok (pongMessage ping.nonce) := rfl
        refine check_then hmade ?_
        rw [sendMessage_always (pongMessage_sendable _) rfl]
        refine ⟨iff_of_true rfl ⟨hid, ping.nonce, hello, peer, rest', hhello, hparse, ?_⟩, ?_⟩
        · rw [← hping', ← show rest = _ from hin']
        · intro _ nonce hopens
          rw [← opensWith_nonce hhello hmessage hin' hping hopens]
          exact ⟨reply, hmake, sent_once _ _ _ _ _⟩
      · intro hnone
        refine Verdict.fails fun h => ?_
        obtain ⟨nonce, hopens⟩ := h.2
        obtain ⟨rest', hrest⟩ := opensWith_split hhello hopens
        exact hnone _ _ rest' (pingMessage_sendable nonce) hrest (parsePingMessage_make nonce)
    · exact unnamed_verdict hid _ (Verdict.fails fun h => hid h.1)
  · intro hnone
    refine Verdict.fails fun h => ?_
    obtain ⟨nonce, hello, peer, rest, hhello, hparse, hstream⟩ := h.2
    exact hnone hello peer _ hhello hstream hparse

/-- Against any stream, in any chunking, the client succeeds exactly when it has a name and is
sent a handshake and then the echo of its own nonce; the server succeeds exactly when it has a
name and is sent a handshake and then some ping, whose nonce is the one it echoes. -/
theorem ping_ends_verdict (config : NodeConfig) (stream : Bytes) :
    (onSocket (runPingClient config ())).Always socketEnv ⟨stream, [], false⟩
      (Verdict (ValidNodeId config.nodeId ∧ OpensWith stream (pongMessage (pingNonce config)))
        (SentByEnd config (pingMessage (pingNonce config)))) ∧
    (onSocket (servePingConnection config ())).Always socketEnv ⟨stream, [], false⟩
      (Verdict (ValidNodeId config.nodeId ∧ ∃ nonce, OpensWith stream (pingMessage nonce))
        fun sent => ∀ nonce, OpensWith stream (pingMessage nonce) →
          SentByEnd config (pongMessage nonce) sent) :=
  ⟨onSocket_always.mpr (ping_client_always config stream),
    onSocket_always.mpr (ping_server_always config stream)⟩

end Blockchain
