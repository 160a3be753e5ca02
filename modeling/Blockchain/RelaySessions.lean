import Blockchain.RelayServer

/-! The relay server: one accept after the other, each session run on the state the last one
left. -/
namespace Blockchain
open Lib

structure RelayServerOptions where
  maxSessions : UInt32 := 0

structure RelayServerResult where
  sessionsCompleted : UInt32 := 0
  listenPort : UInt16 := 0
  lastSession : RelaySessionSummary := ⟨0, 0⟩

/-- What the server asks of the platform besides its connection. -/
inductive ServerOp where
  | bind (host : Bytes) (port : UInt16)
  | boundPort
  | writePortFile (path : Bytes) (port : UInt16)
  | accept
  | conn (op : NativeOp StoreOp)

@[reducible] def ServerOp.Answer : ServerOp → Type
  | .bind _ _ => Result Unit
  | .boundPort => Result UInt16
  | .writePortFile _ _ => Result Unit
  | .accept => Result Unit
  | .conn op => NativeOp.Answer StoreOp.Answer op

abbrev ServerProcess (α : Type) := Process ServerOp ServerOp.Answer α

abbrev ServerAction (α : Type) := Action ServerOp ServerOp.Answer Error PeerState α

def onConnection {α : Type} (p : NodeProcess α) : ServerProcess α :=
  (onSocket p).interp fun op => .call (.conn op) .ret

def withClient {α : Type} (m : PeerAction α) : ServerAction α := fun state => onConnection (m state)

def serveNext : ServerAction RelaySessionSummary := do
  let client ← Action.perform .accept
  Action.ofExcept client
  withClient serveRelayConnection

def acceptLoop : Nat → UInt32 → RelayServerResult → ServerAction RelayServerResult
  | 0, _, result => pure result
  | k + 1, n, result => do
    -- the error of a session ends the loop
    let session ← serveNext
    acceptLoop k (n + 1) { result with lastSession := session, sessionsCompleted := n + 1 }

def publishListenPort (config : NodeConfig) (port : UInt16) : ServerProcess (Result Unit) :=
  if config.portFile.isEmpty then .ret (.ok ())
  else .call (.writePortFile config.portFile port) .ret

def serverStep {α β : Type} (p : ServerProcess (Result α)) (next : α → ServerProcess (Result β)) :
    ServerProcess (Result β) :=
  p.bind fun r =>
    match r with
    | .ok a => next a
    | .error e => .ret (.error e)

def runRelayServer (config : NodeConfig) (options : RelayServerOptions) (dir : DataDir) :
    ServerProcess (Result RelayServerResult) :=
  let maxSessions :=
    if options.maxSessions ≠ 0 then options.maxSessions else config.relayMaxSessions
  if maxSessions = 0 then .ret (makeError .invalidConfig "relay max sessions must be at least 1")
  else
    serverStep (.call (.bind config.listenHost config.listenPort) .ret) fun _ =>
    serverStep (.call .boundPort .ret) fun port =>
    serverStep (publishListenPort config port) fun _ =>
    serverStep (onConnection (PeerState.fromConfig config dir)) fun state =>
    (acceptLoop maxSessions.toNat 0 { listenPort := port } state).bind fun out => .ret out.1

/-! The peers of a server, and the platform they meet. -/

/-- What a peer sends before it closes, and whether it may stop taking bytes. -/
structure Connection where
  stream : Bytes
  deaf : Bool

structure ServerWorld where
  waiting : List Connection
  wire : Wire

/-- Accepting succeeds while there are peers, and so do the operations on files. -/
def serverEnv : Env ServerOp ServerOp.Answer ServerWorld
  | .bind _ _, w, answer, w' => answer = .ok () ∧ w' = w
  | .boundPort, w, answer, w' => (∃ port, answer = .ok port) ∧ w' = w
  | .writePortFile _ _, w, answer, w' => answer = .ok () ∧ w' = w
  | .accept, w, answer, w' => ∃ c rest, w.waiting = c :: rest ∧ answer = .ok () ∧
      w' = ⟨rest, ⟨c.stream, [], c.deaf⟩⟩
  | .conn op, w, answer, w' => ∃ v, socketEnv op w.wire answer v ∧ w' = ⟨w.waiting, v⟩

def wirePart : Part ServerWorld Wire where
  get w := w.wire
  put w v := ⟨w.waiting, v⟩
  get_put _ _ := rfl
  put_put _ _ _ := rfl
  put_get _ := rfl

theorem connection_implements :
    Implements wirePart serverEnv socketEnv fun op => .call (.conn op) .ret := by
  intro op w Q
  rw [Process.always_call]
  simp only [Process.always_ret]
  constructor
  · intro h
    obtain ⟨⟨r, w', v, hv, _⟩, hall⟩ := h
    exact ⟨⟨r, v, hv⟩, fun r v hv => hall r _ ⟨v, hv, rfl⟩⟩
  · intro h
    obtain ⟨⟨r, v, hv⟩, hall⟩ := h
    refine ⟨⟨r, _, v, hv, rfl⟩, ?_⟩
    intro r w' hr
    obtain ⟨v, hv, rfl⟩ := hr
    exact hall r v hv

theorem onConnection_always {α : Type} {p : NodeProcess α} {w : ServerWorld}
    {Q : α → ServerWorld → Prop} :
    (onConnection p).Always serverEnv w Q ↔
      p.Always bufferEnv w.wire fun a v => Q a ⟨w.waiting, v⟩ := by
  rw [onConnection, connection_implements.always]
  exact onSocket_always

theorem serveNext_always {state : PeerState} {c : Connection} {rest : List Connection} {v : Wire}
    {Q : Result RelaySessionSummary × PeerState → ServerWorld → Prop} :
    (serveNext state).Always serverEnv ⟨c :: rest, v⟩ Q ↔
      (serveRelayConnection state).Always bufferEnv ⟨c.stream, [], c.deaf⟩ fun out v' =>
        Q out ⟨rest, v'⟩ := by
  rw [serveNext, Action.always_bind, Action.perform_run, Process.always_call]
  simp only [Process.always_ret]
  have honly : ∀ answer w', serverEnv .accept ⟨c :: rest, v⟩ answer w' ↔
      answer = .ok () ∧ w' = ⟨rest, ⟨c.stream, [], c.deaf⟩⟩ := by
    intro answer w'
    constructor
    · intro h
      obtain ⟨c', rest', hwaiting, hanswer, hw'⟩ := h
      cases hwaiting
      exact ⟨hanswer, hw'⟩
    · intro h
      exact ⟨c, rest, rfl, h⟩
  have hsession : ((Action.ofExcept (.ok ()) >>= fun _ => withClient serveRelayConnection :
      ServerAction RelaySessionSummary) state).Always serverEnv ⟨rest, ⟨c.stream, [], c.deaf⟩⟩ Q ↔
      (serveRelayConnection state).Always bufferEnv ⟨c.stream, [], c.deaf⟩ fun out v' =>
        Q out ⟨rest, v'⟩ := by
    rw [Action.always_bind, Action.ofExcept_run, Process.always_ret]
    exact onConnection_always
  constructor
  · intro h
    exact hsession.mp (h.2 (.ok ()) _ ((honly _ _).mpr ⟨rfl, rfl⟩))
  · intro h
    refine ⟨⟨_, _, (honly _ _).mpr ⟨rfl, rfl⟩⟩, ?_⟩
    intro answer w' hanswer
    obtain ⟨rfl, rfl⟩ := (honly _ _).mp hanswer
    exact hsession.mpr h

theorem acceptLoop_always {k : Nat} {n : UInt32} {result : RelayServerResult} {state : PeerState}
    {c : Connection} {rest : List Connection} {v : Wire}
    {Q : Result RelayServerResult × PeerState → ServerWorld → Prop} :
    (acceptLoop (k + 1) n result state).Always serverEnv ⟨c :: rest, v⟩ Q ↔
      (serveRelayConnection state).Always bufferEnv ⟨c.stream, [], c.deaf⟩ fun out v' =>
        match out.1 with
        | .ok session =>
          (acceptLoop k (n + 1) { result with lastSession := session, sessionsCompleted := n + 1 }
            out.2).Always serverEnv ⟨rest, v'⟩ Q
        | .error e => Q (.error e, out.2) ⟨rest, v'⟩ := by
  rw [acceptLoop, Action.always_bind, serveNext_always]
  refine ⟨fun h => h.mono ?_, fun h => h.mono ?_⟩
  · intro out v' hout
    obtain ⟨x, next⟩ := out
    cases x <;> exact hout
  · intro out v' hout
    obtain ⟨x, next⟩ := out
    cases x <;> exact hout

/-! Peers that a server serves to their end. -/

/-- The state that the messages handled successfully in a session have led to. -/
def successful : Nat → PeerState → Bytes → PeerState
  | 0, state, _ => state
  | n + 1, state, inbound =>
    match nextFrame inbound with
    | .message message rest =>
      match state.handled message with
      | (.ok (), next) => successful n next rest
      | (.error _, _) => state
    | _ => state

def leftBySession (state : PeerState) (c : Connection) : PeerState :=
  match nextFrame c.stream with
  | .message hello rest =>
    match parseHandshakeMessage hello, makeHandshakeMessage state.localHandshake with
    | .ok _, .ok _ => successful kMaxRelayMessages state rest
    | _, _ => state
  | _ => state

/-- A peer that takes what is sent to it, opens with a handshake, sends fewer messages than
the budget, each of them handled without error, and stops at a frame boundary or within a
length; the node has a name that fits a handshake and a ledger that can be written. -/
structure PoliteSession (state : PeerState) (c : Connection) (next : PeerState) : Prop where
  takes : c.deaf = false
  named : ValidNodeId state.nodeId
  stream : ∃ hello messages tail, c.stream = frame hello.toBytes ++ (frames messages ++ tail) ∧
    ServedStream state hello messages ∧ state.handleAll messages = some next ∧ tail.length < 4
  saves : next.persist = false ∨ ∃ bytes,
    ledgerBytes next.ledgerBlocks next.consensus next.mempool.sortedTransactions = .ok bytes

inductive PoliteSessions : PeerState → List Connection → Prop where
  | nil (state : PeerState) : PoliteSessions state []
  | cons {state next : PeerState} {c : Connection} {rest : List Connection}
      (h : PoliteSession state c next) (hrest : PoliteSessions next rest) :
      PoliteSessions state (c :: rest)

theorem savedState_eq_some {state next : PeerState} :
    savedState state = some next ↔ next = state ∧ (state.persist = false ∨ ∃ bytes,
      ledgerBytes state.ledgerBlocks state.consensus state.mempool.sortedTransactions =
        .ok bytes) := by
  cases hpersist : state.persist with
  | false =>
    rw [savedState_off hpersist, Option.some.injEq, eq_comm]
    simp
  | true =>
    rw [savedState, PeerState.persistLedger, Action.bind_run, Action.state_run,
      Process.bind_ret_left]
    dsimp only
    rw [if_pos hpersist]
    cases hbytes : ledgerBytes state.ledgerBlocks state.consensus
      state.mempool.sortedTransactions with
    | error e =>
      simp only [PeerState.saveLedger, Action.bind_run, Action.state_run, Process.bind_ret_left,
        Action.ofExcept_run, hbytes, Process.play_ret]
      simp
    | ok bytes =>
      simp only [PeerState.saveLedger, Action.bind_run, Action.state_run, Process.bind_ret_left,
        Action.ofExcept_run, hbytes, Action.perform_run, Process.call_bind, Process.play_call,
        PeerState.platformReply, linkReply, Process.play_ret]
      simp [eq_comm]

theorem politeSession_iff {state next : PeerState} {c : Connection} :
    PoliteSession state c next ↔ c.deaf = false ∧ sessionState state c.stream = some next := by
  constructor
  · intro h
    obtain ⟨hello, messages, tail, hstream, hserved, hhandled, htail⟩ := h.stream
    obtain ⟨peer, hpeer⟩ := hserved.hello_parses
    obtain ⟨reply, hreply, _⟩ := makeHandshake_of_valid h.named
    refine ⟨h.takes, ?_⟩
    rw [hstream, sessionState, nextFrame_frame hserved.hello_sendable]
    dsimp only
    rw [hpeer, hreply]
    dsimp only
    rw [served_eq_some.mpr ⟨messages, tail, rfl, hserved.sendable, hserved.budget_lt,
      hhandled, htail⟩, Option.bind_some]
    exact savedState_eq_some.mpr ⟨rfl, h.saves⟩
  · intro h
    obtain ⟨htakes, hsession⟩ := h
    rw [sessionState] at hsession
    cases hnext : nextFrame c.stream with
    | closed => simp [hnext] at hsession
    | refused e rest => simp [hnext] at hsession
    | message hello rest =>
      rw [hnext] at hsession
      dsimp only at hsession
      cases hpeer : parseHandshakeMessage hello with
      | error e => simp [hpeer] at hsession
      | ok peer =>
        cases hreply : makeHandshakeMessage state.localHandshake with
        | error e => simp [hpeer, hreply] at hsession
        | ok reply =>
          rw [hpeer, hreply] at hsession
          obtain ⟨next', hserved, hsaved⟩ := Option.bind_eq_some_iff.mp hsession
          obtain ⟨rfl, hsaves⟩ := savedState_eq_some.mp hsaved
          obtain ⟨messages, tail, hhandles⟩ := served_eq_some.mp hserved
          obtain ⟨hhello, hstream⟩ := nextFrame_message hnext
          refine ⟨htakes, (makeHandshakeMessage_ok.mp hreply).1, ?_, hsaves⟩
          exact ⟨hello, messages, tail, by rw [hstream, hhandles.stream_eq],
            ⟨hhello, ⟨peer, hpeer⟩, hhandles.sendable, hhandles.budget_lt, _, hhandles.handled⟩,
            hhandles.handled, hhandles.tail_lt⟩

theorem PoliteSession.left {state next : PeerState} {c : Connection}
    (h : PoliteSession state c next) :
    leftBySession state c = next := by
  have hsuccessful : ∀ n (state : PeerState) stream next, served n state stream = some next →
      successful n state stream = next := by
    intro n
    induction n with
    | zero =>
      intro state stream next hserved
      cases hserved
    | succ n ih =>
      intro state stream next hserved
      rw [served] at hserved
      rw [successful]
      cases hnext : nextFrame stream with
      | closed =>
        rw [hnext] at hserved
        exact Option.some.inj hserved
      | refused e rest => simp [hnext] at hserved
      | message m rest =>
        rw [hnext] at hserved
        dsimp only at hserved ⊢
        cases hhandled : state.handled m with
        | mk outcome state' =>
          rw [hhandled] at hserved
          cases outcome with
          | ok u => exact ih state' rest next hserved
          | error e => cases hserved
  obtain ⟨hello, messages, tail, hstream, hserved, hhandled, htail⟩ := h.stream
  obtain ⟨peer, hpeer⟩ := hserved.hello_parses
  obtain ⟨reply, hreply, _⟩ := makeHandshake_of_valid h.named
  rw [leftBySession, hstream, nextFrame_frame hserved.hello_sendable]
  dsimp only
  rw [hpeer, hreply]
  exact hsuccessful _ _ _ _ (served_eq_some.mpr
    ⟨messages, tail, rfl, hserved.sendable, hserved.budget_lt, hhandled, htail⟩)

theorem sendMessage_deaf {σ : Type} {s : σ} {w : Wire} {message : P2pMessage} (h : message.Sendable)
    (hw : w.deaf = true) {Q : Result Unit × σ → Wire → Prop}
    (hall : (sendMessage message s).Always bufferEnv w Q) : ∃ e w', Q (.error e, s) w' := by
  have hne : frameLength message ≠ [] := by
    rw [← List.length_pos_iff, frameLength, leBytes_length]
    decide
  rw [sendMessage_call h, Process.always_call] at hall
  have hfail := hall.2 (.error (nativeErrors.send 0)) w
    (.inr ⟨hw, 0, [], frameLength message, rfl, rfl, hne, w.push_nil.symm⟩)
  dsimp only at hfail
  rw [Process.always_ret] at hfail
  exact ⟨_, _, hfail⟩

theorem deaf_session_fails {state : PeerState} {w : Wire} (hw : w.deaf = true)
    (h : (serveRelayConnection state).Always bufferEnv w fun out _ =>
      ∃ summary, out.1 = .ok summary) :
    False := by
  rw [serveRelayConnection, Action.always_bind, serveRelayHandshake, Action.always_bind,
    recvMessage_always] at h
  cases hnext : nextFrame w.inbound with
  | closed => simp [hnext] at h
  | refused e rest => simp [hnext] at h
  | message hello rest =>
    rw [hnext] at h
    dsimp only at h
    rw [Action.always_bind, Action.ofExcept_run, Process.always_ret] at h
    cases hpeer : parseHandshakeMessage hello with
    | error e => simp [hpeer] at h
    | ok peer =>
      rw [hpeer] at h
      dsimp only at h
      rw [Action.always_bind, Action.state_run, Process.always_ret] at h
      dsimp only at h
      rw [Action.always_bind, Action.ofExcept_run, Process.always_ret] at h
      cases hmake : makeHandshakeMessage state.localHandshake with
      | error e => simp [hmake] at h
      | ok reply =>
        rw [hmake] at h
        have hleft : (w.left rest).deaf = true := hw
        obtain ⟨e, w', hfail⟩ := sendMessage_deaf (makeHandshakeMessage_sendable hmake) hleft h
        simp at hfail

/-- A session ends without error in every run just if its peer is polite. -/
theorem session_completes_iff {state : PeerState} {c : Connection} :
    ((serveRelayConnection state).Always bufferEnv ⟨c.stream, [], c.deaf⟩ fun out _ =>
      ∃ summary, out.1 = .ok summary) ↔ ∃ next, PoliteSession state c next := by
  simp only [politeSession_iff]
  cases hdeaf : c.deaf with
  | true => exact ⟨fun h => (deaf_session_fails rfl h).elim, fun ⟨_, h, _⟩ => by cases h⟩
  | false =>
    have hsession := session_ok_iff state (w := ⟨c.stream, [], false⟩) rfl
    rw [onSocket_always] at hsession
    rw [hsession, Option.ne_none_iff_exists']
    simp

theorem PoliteSession.serves {state next : PeerState} {c : Connection}
    (h : PoliteSession state c next) :
    (serveRelayConnection state).Always bufferEnv ⟨c.stream, [], c.deaf⟩ fun out _ =>
      out = (.ok ⟨next.height, next.mempool.size⟩, next) := by
  obtain ⟨htakes, hstate⟩ := politeSession_iff.mp h
  have hsession := serveRelayConnection_session state (w := ⟨c.stream, [], c.deaf⟩) htakes
  rw [hstate] at hsession
  exact hsession

theorem acceptLoop_completes {state : PeerState} {connections : List Connection} {n : UInt32}
    {result : RelayServerResult} {v : Wire} :
    ((acceptLoop connections.length n result state).Always serverEnv ⟨connections, v⟩ fun out _ =>
      ∃ r, out.1 = .ok r) ↔ PoliteSessions state connections := by
  induction connections generalizing state n result v with
  | nil =>
    rw [List.length_nil, acceptLoop, Action.pure_run, Process.always_ret]
    exact ⟨fun _ => .nil state, fun _ => ⟨result, rfl⟩⟩
  | cons c rest ih =>
    rw [List.length_cons, acceptLoop_always]
    constructor
    · intro h
      have hcompletes := h.mono (R := fun out _ => ∃ summary, out.1 = .ok summary) (by
        intro out v' hout
        cases hresult : out.1 with
        | ok summary => exact ⟨summary, rfl⟩
        | error e => simp [hresult] at hout)
      obtain ⟨next, hpolite⟩ := session_completes_iff.mp hcompletes
      obtain ⟨out, v', hout, hrest⟩ := (hpolite.serves.and h).exists
      rw [hout] at hrest
      exact .cons hpolite (ih.mp hrest)
    · intro h
      cases h with
      | cons hpolite hrest =>
        refine hpolite.serves.mono ?_
        intro out v' hout
        rw [hout]
        exact ih.mpr hrest

theorem PoliteSessions.serves {connections : List Connection} (k : Nat) {state : PeerState}
    (h : PoliteSessions state connections) (hk : k ≤ connections.length) {n : UInt32}
    (result : RelayServerResult) (hresult : result.sessionsCompleted = n) (v : Wire) :
    (acceptLoop k n result state).Always serverEnv ⟨connections, v⟩ fun out w' =>
      (∃ r, out.1 = .ok r ∧ r.sessionsCompleted = n + UInt32.ofNat k) ∧
      out.2 = (connections.take k).foldl leftBySession state ∧ w'.waiting = connections.drop k := by
  induction k generalizing state connections n result v with
  | zero =>
    rw [acceptLoop, Action.pure_run, Process.always_ret]
    exact ⟨⟨result, rfl, by simpa using hresult⟩, rfl, rfl⟩
  | succ k ih =>
    cases h with
    | nil => simp at hk
    | @cons _ next c rest hpolite hrest =>
      rw [acceptLoop_always]
      refine hpolite.serves.mono ?_
      intro out v' hout
      rw [hout]
      refine (ih hrest (by simpa using hk) { result with
        lastSession := ⟨next.height, next.mempool.size⟩,
        sessionsCompleted := n + 1 } rfl v').mono ?_
      intro out' w' hout'
      obtain ⟨⟨r, hr, hcount⟩, hstate, hwaiting⟩ := hout'
      refine ⟨⟨r, hr, ?_⟩, ?_, hwaiting⟩
      · rw [hcount, UInt32.ofNat_add, UInt32.add_assoc, UInt32.add_comm 1]
        rfl
      · rw [hstate, List.take_succ_cons, List.foldl_cons, hpolite.left]

theorem PoliteSessions.serves_upto {connections : List Connection} {state : PeerState}
    {n k : UInt32}
    (h : PoliteSessions state connections) (hn : connections.length = n.toNat) (port : UInt16)
    (hk : k ≤ n) :
    (acceptLoop k.toNat 0 { listenPort := port } state).Always serverEnv
      ⟨connections, ⟨[], [], false⟩⟩ fun out w' =>
        (∃ r, out.1 = .ok r ∧ r.sessionsCompleted = k) ∧
        out.2 = (connections.take k.toNat).foldl leftBySession state ∧
        w'.waiting = connections.drop k.toNat := by
  have hle : k.toNat ≤ connections.length := by
    rw [hn]
    exact UInt32.le_iff_toNat_le.mp hk
  refine (h.serves k.toNat hle { listenPort := port } rfl _).mono ?_
  intro out w' hout
  obtain ⟨⟨r, hr, hcount⟩, hrest⟩ := hout
  refine ⟨⟨r, hr, ?_⟩, hrest⟩
  rw [hcount, UInt32.ofNat_toNat]
  exact UInt32.zero_add k

theorem serverStep_always {α β : Type} {p : ServerProcess (Result α)}
    {next : α → ServerProcess (Result β)} {w : ServerWorld} {Q : Result β → ServerWorld → Prop} :
    (serverStep p next).Always serverEnv w Q ↔ p.Always serverEnv w fun r w' =>
      match r with
      | .ok a => (next a).Always serverEnv w' Q
      | .error e => Q (.error e) w' := by
  rw [serverStep, Process.always_bind]
  refine ⟨fun h => h.mono ?_, fun h => h.mono ?_⟩
  · intro r w' hr
    cases r with
    | ok a => exact hr
    | error e => simpa only [Process.always_ret] using hr
  · intro r w' hr
    cases r with
    | ok a => exact hr
    | error e => simpa only [Process.always_ret] using hr

theorem publishListenPort_always (config : NodeConfig) (port : UInt16) {w : ServerWorld}
    {Q : Result Unit → ServerWorld → Prop} :
    (publishListenPort config port).Always serverEnv w Q ↔ Q (.ok ()) w := by
  by_cases hfile : config.portFile.isEmpty
  · rw [publishListenPort, if_pos hfile, Process.always_ret]
  · rw [publishListenPort, if_neg hfile, Process.always_call]
    simp only [Process.always_ret]
    constructor
    · intro h
      exact h.2 _ _ ⟨rfl, rfl⟩
    · intro h
      refine ⟨⟨_, _, rfl, rfl⟩, ?_⟩
      intro r w' hr
      obtain ⟨rfl, rfl⟩ := hr
      exact h

/-- Every start of the node succeeds in this state. -/
def ComesUp (config : NodeConfig) (dir : DataDir) (state : PeerState) : Prop :=
  ∀ v R, (PeerState.fromConfig config dir).Always bufferEnv v R ↔ R (.ok state) v

/-- `run_relay_server` is its accept loop, once it listens and has built its state. -/
theorem runRelayServer_always {config : NodeConfig} {options : RelayServerOptions} {dir : DataDir}
    {state : PeerState} {w : ServerWorld} {Q : Result RelayServerResult → ServerWorld → Prop}
    (hsessions :
      (if options.maxSessions ≠ 0 then options.maxSessions else config.relayMaxSessions) ≠ 0)
    (hstart : ComesUp config dir state) :
    (runRelayServer config options dir).Always serverEnv w Q ↔
      ∀ port, (acceptLoop (if options.maxSessions ≠ 0 then options.maxSessions
        else config.relayMaxSessions).toNat 0 { listenPort := port } state).Always serverEnv w
          fun out w' => Q out.1 w' := by
  rw [runRelayServer, if_neg hsessions, serverStep_always, Process.always_call]
  simp only [Process.always_ret, serverStep_always, publishListenPort_always, onConnection_always,
    hstart _ _, Process.always_bind, Process.always_call]
  constructor
  · intro h port
    exact (h.2 (.ok ()) w ⟨rfl, rfl⟩).2 (.ok port) w ⟨⟨port, rfl⟩, rfl⟩
  · intro h
    refine ⟨⟨_, _, rfl, rfl⟩, ?_⟩
    intro r w' hr
    obtain ⟨rfl, rfl⟩ := hr
    refine ⟨⟨.ok 0, w', ⟨0, rfl⟩, rfl⟩, ?_⟩
    intro r w'' hr
    obtain ⟨⟨port, rfl⟩, rfl⟩ := hr
    exact h port

/-- One bad peer stops the server: its accept loop serves all its sessions, each on the state
that the messages handled before have led to, just if every peer is polite; and so does the
whole server, once it has come up in that state. -/
theorem sessions_isolated_iff (state : PeerState) (connections : List Connection) (n : UInt32)
    (hn : connections.length = n.toNat) (port : UInt16) :
    ((∀ k : UInt32, k ≤ n →
      (acceptLoop k.toNat 0 { listenPort := port } state).Always serverEnv
        ⟨connections, ⟨[], [], false⟩⟩ fun out w' =>
          (∃ r, out.1 = .ok r ∧ r.sessionsCompleted = k) ∧
          out.2 = (connections.take k.toNat).foldl leftBySession state ∧
          w'.waiting = connections.drop k.toNat) ↔
      PoliteSessions state connections) ∧
    ∀ (config : NodeConfig) (options : RelayServerOptions) (dir : DataDir), n ≠ 0 →
      (if options.maxSessions ≠ 0 then options.maxSessions else config.relayMaxSessions) = n →
      ComesUp config dir state →
      ((runRelayServer config options dir).Always serverEnv ⟨connections, ⟨[], [], false⟩⟩
          (fun out w' => (∃ r, out = .ok r ∧ r.sessionsCompleted = n) ∧ w'.waiting = []) ↔
        PoliteSessions state connections) := by
  refine ⟨⟨?_, fun h k hk => h.serves_upto hn port hk⟩, ?_⟩
  · intro h
    have hall := h n (UInt32.le_refl n)
    rw [← hn] at hall
    refine acceptLoop_completes.mp (hall.mono ?_)
    intro out w' hout
    obtain ⟨⟨r, hr, _⟩, _⟩ := hout
    exact ⟨r, hr⟩
  · intro config options dir hzero hsessions hup
    rw [runRelayServer_always (hsessions ▸ hzero) hup, hsessions]
    constructor
    · intro h
      have hall := h 0
      rw [← hn] at hall
      refine acceptLoop_completes.mp (hall.mono ?_)
      intro out w' hout
      obtain ⟨⟨r, hr, _⟩, _⟩ := hout
      exact ⟨r, hr⟩
    · intro h port'
      refine (h.serves_upto hn port' (UInt32.le_refl n)).mono ?_
      intro out w' hout
      obtain ⟨hr, _, hwaiting⟩ := hout
      rw [← hn, List.drop_length] at hwaiting
      exact ⟨hr, hwaiting⟩

/-! Two polite peers, of which the first announces a block. -/

theorem rewardBlock_handled :
    (genesisNode rewardConfig).handled (PeerState.blockAnnounceMessage rewardBlock) =
      (.ok (), rewardedNode) := by
  have hs : (genesisNode rewardConfig).chain.submitBlock rewardBlock
      (some (genesisNode rewardConfig).mempool) = .ok (0, rewardedNode.chain, _) :=
    Chain.submitBlock_ok.mpr ⟨rewardBlock_linksTo, ⟨_, rewardBlock_connects, rfl⟩, rfl⟩
  rw [PeerState.handled, PeerState.handleMessage_blockAnnounce rewardBlock_sane,
    PeerState.connect_and_persist rfl, PeerState.connectBlock_of_submit hs]
  rfl

theorem announcing_peer_polite : ∃ hello : P2pMessage,
    PoliteSession (genesisNode rewardConfig) ⟨frame hello.toBytes ++
      frames [PeerState.blockAnnounceMessage rewardBlock], false⟩ rewardedNode ∧
    PoliteSession rewardedNode ⟨frame hello.toBytes ++ frames [], false⟩ rewardedNode := by
  have hid : ValidNodeId (genesisNode rewardConfig).nodeId := defaultNodeId_valid
  obtain ⟨hello, _, hsendable, hparse⟩ := makeHandshake_of_valid hid
  have hannounce : (PeerState.blockAnnounceMessage rewardBlock).Sendable := by
    refine ⟨rfl, ?_⟩
    rw [PeerState.blockAnnounceMessage, makeMessage, putVarBytes_length, rewardBlock_fits]
    decide
  have hall : (genesisNode rewardConfig).handleAll [PeerState.blockAnnounceMessage rewardBlock] =
      some rewardedNode := by
    rw [PeerState.handleAll, rewardBlock_handled]
    rfl
  have hfirst : ServedStream (genesisNode rewardConfig) hello
      [PeerState.blockAnnounceMessage rewardBlock] :=
    ⟨hsendable, ⟨_, hparse⟩, List.forall_mem_singleton.mpr hannounce, by decide, _, hall⟩
  have hsecond : ServedStream rewardedNode hello [] :=
    ⟨hsendable, ⟨_, hparse⟩, by simp, by decide, _, rfl⟩
  exact ⟨hello,
    ⟨rfl, hid, ⟨hello, _, [], by rw [List.append_nil], hfirst, hall, by decide⟩, .inl rfl⟩,
    ⟨rfl, defaultNodeId_valid, ⟨hello, [], [], by rw [List.append_nil], hsecond, rfl, by decide⟩,
      .inl rfl⟩⟩

theorem announcing_pair_polite : ∃ first second : Connection,
    PoliteSessions (genesisNode rewardConfig) [first, second] ∧
    leftBySession (genesisNode rewardConfig) first = rewardedNode := by
  obtain ⟨hello, hfirst, hsecond⟩ := announcing_peer_polite
  exact ⟨_, _, .cons hfirst (.cons hsecond (.nil _)), hfirst.left⟩

theorem rewardConfig_comesUp : ComesUp rewardConfig ⟨none, none⟩ (genesisNode rewardConfig) := by
  intro v R
  rw [fromConfig_genesis rfl rfl rfl rfl, Process.always_ret]

/-- The server completes both sessions, the second one on the block of the first. -/
theorem sessions_isolated_pair :
    ∃ first second : Connection,
      PoliteSessions (genesisNode rewardConfig) [first, second] ∧
      (runRelayServer rewardConfig ⟨2⟩ ⟨none, none⟩).Always serverEnv
        ⟨[first, second], ⟨[], [], false⟩⟩
        (fun out w' => (∃ r, out = .ok r ∧ r.sessionsCompleted = 2) ∧ w'.waiting = []) ∧
      leftBySession (genesisNode rewardConfig) first = rewardedNode := by
  obtain ⟨first, second, hsessions, hleft⟩ := announcing_pair_polite
  exact ⟨first, second, hsessions,
    ((sessions_isolated_iff _ _ 2 rfl 9000).2 rewardConfig ⟨2⟩ ⟨none, none⟩ (by decide) rfl
      rewardConfig_comesUp).mpr hsessions, hleft⟩

/-! Two peers of a fresh node: the first announces a frame that is too long. -/

theorem genesis_polite :
    ∃ hello, PoliteSession (genesisNode {}) ⟨frame hello, false⟩ (genesisNode {}) := by
  obtain ⟨hello, h⟩ := genesis_hello
  refine ⟨hello.toBytes, rfl, defaultNodeId_valid, ⟨hello, [], [], ?_, h, rfl, by decide⟩, .inl rfl⟩
  rw [frames, List.flatMap_nil, List.append_nil, List.append_nil]

/-- The server ends with the error of the first session and never accepts the second peer. -/
theorem bad_peer_stops_server :
    ∃ hello, PoliteSession (genesisNode {}) ⟨frame hello, false⟩ (genesisNode {}) ∧
      (runRelayServer {} ⟨2⟩ ⟨none, none⟩).Always serverEnv
        ⟨[⟨[0xFF, 0xFF, 0xFF, 0xFF], false⟩, ⟨frame hello, false⟩], ⟨[], [], false⟩⟩ fun out w' =>
          (∃ e, out = .error e) ∧ w'.waiting = [⟨frame hello, false⟩] := by
  obtain ⟨hello, hpolite⟩ := genesis_polite
  have hup : ComesUp {} ⟨none, none⟩ (genesisNode {}) := by
    intro v R
    rw [fromConfig_genesis rfl rfl rfl rfl, Process.always_ret]
  refine ⟨hello, hpolite, (runRelayServer_always (by decide) hup).mpr fun port => ?_⟩
  refine acceptLoop_always.mpr ?_
  have hnone : sessionState (genesisNode {}) [0xFF, 0xFF, 0xFF, 0xFF] = none := by
    rw [sessionState, nextFrame, if_neg (by decide), if_pos (by decide)]
  have hsession := serveRelayConnection_session (genesisNode {})
    (w := ⟨[0xFF, 0xFF, 0xFF, 0xFF], [], false⟩) rfl
  rw [hnone] at hsession
  refine hsession.mono ?_
  intro out v' hout
  obtain ⟨e, he⟩ := hout
  rw [he]
  exact ⟨⟨e, rfl⟩, rfl⟩

end Blockchain
