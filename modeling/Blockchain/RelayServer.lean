import Blockchain.Handling

/-! What a relay session makes of the byte stream it is given, and the server that serves
one session after the other. -/
namespace Blockchain
open Lib

/-! Errors of the message readers are not the platform's, so none of them is taken for a
disconnect. -/

/-- Readers whose errors are their own. -/
def OwnErrors {α : Type} (reader : ByteReader α) : Prop :=
  ∀ data e, reader.run data = .error e → e.code ≠ .peerMisbehavior

theorem OwnErrors.bind {α β : Type} {reader : ByteReader α} {next : α → ByteReader β}
    (h : OwnErrors reader) (hnext : ∀ a, OwnErrors (next a)) : OwnErrors (reader >>= next) := by
  intro data e he
  rw [StateT.run_bind] at he
  cases hrun : reader.run data with
  | error e' =>
    rw [hrun, error_bind, Except.error.injEq] at he
    exact he ▸ h data e' hrun
  | ok r =>
    rw [hrun, ok_bind] at he
    exact hnext r.1 r.2 e he

theorem ownErrors_pure {α : Type} (a : α) : OwnErrors (pure a) := by
  intro data e he
  cases he

theorem ownErrors_throw {α : Type} {e : Error} (h : e.code ≠ .peerMisbehavior) :
    OwnErrors (throw e : ByteReader α) := by
  intro data e' he
  cases he
  exact h

theorem ownErrors_lift {α : Type} {x : Result α}
    (h : ∀ e, x = .error e → e.code ≠ .peerMisbehavior) :
    OwnErrors (StateT.lift x : ByteReader α) := by
  intro data e he
  cases x with
  | ok a => cases he
  | error e' =>
    cases he
    exact h e rfl

theorem ownErrors_get : OwnErrors (get : ByteReader Bytes) := by
  intro data e he
  cases he

theorem ownErrors_set (data : Bytes) : OwnErrors (set data : ByteReader PUnit) := by
  intro data' e he
  cases he

theorem OwnErrors.check {α : Type} {c : Prop} [Decidable c] {e : Error} {reader : ByteReader α}
    (he : e.code ≠ .peerMisbehavior) (h : OwnErrors reader) :
    OwnErrors (if c then throw e else reader) := by
  by_cases hc : c
  · rw [if_pos hc]
    exact ownErrors_throw he
  · rw [if_neg hc]
    exact h

theorem ownErrors_getBytes (count : Nat) : OwnErrors (ByteReader.getBytes count) := by
  have hremaining : OwnErrors ByteReader.remaining := ownErrors_get.bind fun _ => ownErrors_pure _
  have hensure : OwnErrors (ByteReader.ensure count) :=
    hremaining.bind fun _ => OwnErrors.check (by simp) (ownErrors_pure _)
  exact hensure.bind fun _ => ownErrors_get.bind fun _ => (ownErrors_set _).bind fun _ =>
    ownErrors_pure _

theorem ownErrors_getU16 : OwnErrors ByteReader.getU16 :=
  (ownErrors_getBytes 2).bind fun _ => ownErrors_pure _

theorem ownErrors_getU32 : OwnErrors ByteReader.getU32 :=
  (ownErrors_getBytes 4).bind fun _ => ownErrors_pure _

theorem ownErrors_getVarBytes (maxLen : UInt32) : OwnErrors (ByteReader.getVarBytes maxLen) := by
  have hlength : OwnErrors (ByteReader.getLength maxLen) :=
    ownErrors_getU32.bind fun _ => OwnErrors.check (by simp) (ownErrors_pure _)
  exact hlength.bind fun _ => ownErrors_getBytes _

theorem OwnErrors.parse_exactly {α : Type} {reader : ByteReader α} (h : OwnErrors reader)
    {data : Bytes} {e : Error} (he : ByteReader.parse (ByteReader.exactly reader) data = .error e) :
    e.code ≠ .peerMisbehavior := by
  have hremaining : OwnErrors ByteReader.remaining := ownErrors_get.bind fun _ => ownErrors_pure _
  have hend : OwnErrors ByteReader.expectEnd :=
    hremaining.bind fun _ => OwnErrors.check (by simp) (ownErrors_pure _)
  have hexactly : OwnErrors (ByteReader.exactly reader) :=
    h.bind fun _ => hend.bind fun _ => ownErrors_pure _
  cases hrun : (ByteReader.exactly reader).run data with
  | ok r => simp [ByteReader.parse, hrun, Except.map] at he
  | error e' =>
    rw [ByteReader.parse, hrun] at he
    cases he
    exact hexactly data e hrun

theorem makeError_code {α : Type} {code : ErrorCode} {detail : String} {e : Error}
    (h : (makeError code detail : Result α) = .error e) : e.code = code := by
  cases h
  rfl

theorem choose_error {α : Type} {c : Prop} [Decidable c] {b : α} {x : Result α} {e : Error}
    (h : (if c then .ok b else x) = .error e) : x = .error e := by
  by_cases hc : c
  · simp [hc] at h
  · rwa [if_neg hc] at h

theorem parseMessageType_error {raw : UInt16} {e : Error} (h : parseMessageType raw = .error e) :
    e.code ≠ .peerMisbehavior := by
  rw [parseMessageType] at h
  iterate 11 replace h := choose_error h
  rw [makeError_code h]
  decide

theorem deserialize_error {wire : Bytes} {e : Error} (h : P2pMessage.deserialize wire = .error e) :
    e.code ≠ .peerMisbehavior := by
  have hfields : OwnErrors P2pMessage.getFields :=
    ownErrors_getU32.bind fun _ => OwnErrors.check (by decide) <|
      ownErrors_getU32.bind fun _ => OwnErrors.check (by decide) <|
        ownErrors_getU16.bind fun _ =>
          (ownErrors_lift fun _ => parseMessageType_error).bind fun _ =>
          (ownErrors_getVarBytes _).bind fun _ => ownErrors_getU32.bind fun _ => ownErrors_pure _
  rw [P2pMessage.deserialize] at h
  by_cases hshort : wire.length < kP2pEnvelopeOverhead
  · rw [if_pos hshort] at h
    rw [makeError_code h]
    decide
  · rw [if_neg hshort] at h
    cases hparse : ByteReader.parse (ByteReader.exactly P2pMessage.getFields) wire with
    | error e' =>
      rw [hparse, error_bind, Except.error.injEq] at h
      exact h ▸ hfields.parse_exactly hparse
    | ok r =>
      rw [hparse, ok_bind] at h
      dsimp only at h
      split at h
      · rw [makeError_code h]
        decide
      · cases h

theorem nextFrame_refused {inbound rest : Bytes} {e : Error}
    (h : nextFrame inbound = .refused e rest) : peerDisconnected e = false := by
  have hcode : e.code ≠ .peerMisbehavior := by
    simp only [nextFrame] at h
    split_ifs at h with h1 h2 h3
    · cases h
      decide
    · cases h
      decide
    · split at h
      · cases h
      · rename_i hd
        cases h
        exact deserialize_error hd
  simp [peerDisconnected, recvClosed, hcode]

/-! The frames of a stream. -/

theorem nextFrame_closed {inbound : Bytes} : nextFrame inbound = .closed ↔ inbound.length < 4 := by
  simp only [nextFrame]
  constructor
  · intro h
    split_ifs at h with h1 h2 h3
    · exact h1
    · split at h <;> cases h
  · intro h
    rw [if_pos h]

theorem nextFrame_message {inbound rest : Bytes} {message : P2pMessage}
    (h : nextFrame inbound = .message message rest) :
    message.Sendable ∧ inbound = frame message.toBytes ++ rest := by
  simp only [nextFrame] at h
  split_ifs at h with hshort hbig hbody
  split at h
  · rename_i message' hd
    cases h
    obtain ⟨hsendable, hbytes⟩ := P2pMessage.deserialize_eq_ok hd
    refine ⟨hsendable, ?_⟩
    have hlen : message.toBytes.length = (UInt32.ofNat (leValue (inbound.take 4))).toNat := by
      rw [hbytes, List.length_take]
      omega
    have hfour : (inbound.take 4).length = 4 := by
      rw [List.length_take]
      omega
    have hvalue : leValue (inbound.take 4) < 4294967296 := by
      have hlt := leValue_lt (inbound.take 4)
      rw [hfour] at hlt
      exact hlt
    have hhead : leBytes 4 (UInt32.ofNat message.toBytes.length).toNat = inbound.take 4 := by
      have hword := leBytes_leValue (inbound.take 4)
      rw [hfour] at hword
      rw [hlen, UInt32.ofNat_toNat, UInt32.toNat_ofNat_of_lt' hvalue, hword]
    rw [frame, hhead, hbytes, List.append_assoc, List.take_append_drop, List.take_append_drop]
  · cases h

theorem nextFrame_cut {body cut : Bytes} (hbody : body.length < 4294967296)
    (hcut : cut <+: frame body) (hproper : cut ≠ frame body) (hlong : 4 ≤ cut.length) :
    ∃ e rest, nextFrame cut = .refused e rest := by
  obtain ⟨missing, hmissing⟩ := hcut
  have hne : missing ≠ [] := by
    intro hnil
    rw [hnil, List.append_nil] at hmissing
    exact hproper hmissing
  have htake : cut.take 4 = leBytes 4 (UInt32.ofNat body.length).toNat := by
    have htake' : (frame body).take 4 = leBytes 4 (UInt32.ofNat body.length).toNat := by
      rw [frame, List.take_left' (leBytes_length _ _)]
    rw [← htake', ← hmissing, List.take_append_of_le_length hlong]
  have hlen : (UInt32.ofNat (leValue (cut.take 4))).toNat = body.length := by
    rw [htake, leValue_leBytes 4 _ (UInt32.toNat_lt _), UInt32.ofNat_toNat,
      UInt32.toNat_ofNat_of_lt' hbody]
  have hshort : (cut.drop 4).length < body.length := by
    have hwhole := congrArg List.length hmissing
    have hpos := List.length_pos_iff.mpr hne
    rw [frame, List.length_append, List.length_append, leBytes_length] at hwhole
    rw [List.length_drop]
    omega
  simp only [nextFrame, if_neg (Nat.not_lt.mpr hlong), hlen, if_pos hshort]
  by_cases hbig : UInt32.ofNat (leValue (cut.take 4)) > kMaxP2pFrameBytes
  · exact ⟨_, _, if_pos hbig⟩
  · exact ⟨_, _, if_neg hbig⟩

/-! The message loop on a stream whose sends are taken. -/

def served : Nat → PeerState → Bytes → Option PeerState
  | 0, _, _ => none
  | n + 1, state, inbound =>
    match nextFrame inbound with
    | .closed => some state
    | .refused _ _ => none
    | .message message rest =>
      match state.handled message with
      | (.ok (), next) => served n next rest
      | (.error _, _) => none

theorem relayMessageLoop_served (n : Nat) (state : PeerState) {w : Wire} (hw : w.deaf = false) :
    (relayMessageLoop n state).Always bufferEnv w fun out w' =>
      w'.deaf = false ∧
      match served n state w.inbound with
      | some next => out = (.ok (), next)
      | none => ∃ e, out.1 = .error e := by
  induction n generalizing state w with
  | zero =>
    rw [relayMessageLoop, Action.fail_run, Process.always_ret, served]
    exact ⟨hw, _, rfl⟩
  | succ n ih =>
    rw [relayMessageLoop, Action.always_bind, Action.always_attempt, recvMessage_always, served]
    cases hnext : nextFrame w.inbound with
    | closed =>
      intro errno
      have hclosed : peerDisconnected (socketError "socket recv failed" errno) = true :=
        socketError_recvClosed errno
      dsimp only
      rw [if_pos hclosed, Action.pure_run, Process.always_ret]
      exact ⟨hw, rfl⟩
    | refused e rest =>
      have hopen : ¬ peerDisconnected e = true := by simp [nextFrame_refused hnext]
      dsimp only
      rw [if_neg hopen, Action.fail_run, Process.always_ret]
      exact ⟨hw, e, rfl⟩
    | message message rest =>
      obtain ⟨out, hout⟩ := PeerState.handleMessage_always state message
      dsimp only
      rw [Action.always_bind, hout _ _ (show (w.left rest).deaf = false from hw)]
      obtain ⟨outcome, next⟩ := state.handled message
      cases outcome with
      | ok u => exact ih next (show ((w.left rest).push out).deaf = false from hw)
      | error e => exact ⟨hw, e, rfl⟩

theorem served_frames {messages : List P2pMessage} (hsendable : ∀ m ∈ messages, m.Sendable)
    {state next : PeerState} (h : state.handleAll messages = some next) (n : Nat) (rest : Bytes) :
    served (messages.length + n) state (frames messages ++ rest) = served n next rest := by
  induction messages generalizing state with
  | nil =>
    cases h
    rw [List.length_nil, Nat.zero_add]
    rfl
  | cons m messages ih =>
    obtain ⟨hm, hmessages⟩ := List.forall_mem_cons.mp hsendable
    have hnext : nextFrame (frames (m :: messages) ++ rest) =
        .message m (frames messages ++ rest) := by
      rw [frames, List.flatMap_cons, List.append_assoc, nextFrame_frame hm]
      rfl
    rw [PeerState.handleAll] at h
    rw [List.length_cons, Nat.succ_add, served, hnext]
    dsimp only
    cases hhandled : state.handled m with
    | mk outcome state' =>
      rw [hhandled] at h
      cases outcome with
      | ok u => exact ih hmessages h
      | error e => cases h

/-- A stream that the message loop takes to its end: frames it handles, fewer than its budget,
and at most a part of a length. -/
structure Handles (budget : Nat) (state : PeerState) (stream : Bytes) (next : PeerState)
    (messages : List P2pMessage) (tail : Bytes) : Prop where
  stream_eq : stream = frames messages ++ tail
  sendable : ∀ m ∈ messages, m.Sendable
  budget_lt : messages.length < budget
  handled : state.handleAll messages = some next
  tail_lt : tail.length < 4

theorem served_eq_some {n : Nat} {state next : PeerState} {stream : Bytes} :
    served n state stream = some next ↔
      ∃ messages tail, Handles n state stream next messages tail := by
  constructor
  · intro h
    induction n generalizing state stream with
    | zero => cases h
    | succ n ih =>
      rw [served] at h
      cases hnext : nextFrame stream with
      | closed =>
        rw [hnext] at h
        exact ⟨[], stream, rfl, by simp, by simp, h, nextFrame_closed.mp hnext⟩
      | refused e rest =>
        rw [hnext] at h
        cases h
      | message m rest =>
        rw [hnext] at h
        dsimp only at h
        obtain ⟨hm, hstream⟩ := nextFrame_message hnext
        cases hhandled : state.handled m with
        | mk outcome state' =>
          rw [hhandled] at h
          cases outcome with
          | error e => cases h
          | ok u =>
            obtain ⟨messages, tail, hrest⟩ := ih h
            refine ⟨m :: messages, tail, ?_, List.forall_mem_cons.mpr ⟨hm, hrest.sendable⟩, ?_, ?_,
              hrest.tail_lt⟩
            · rw [hstream, hrest.stream_eq, frames, frames, List.flatMap_cons, List.append_assoc]
            · have hlt := hrest.budget_lt
              rw [List.length_cons]
              omega
            · rw [PeerState.handleAll, hhandled]
              exact hrest.handled
  · intro h
    obtain ⟨messages, tail, h⟩ := h
    obtain ⟨k, rfl⟩ : ∃ k, n = messages.length + (k + 1) :=
      ⟨n - messages.length - 1, by have := h.budget_lt; omega⟩
    rw [h.stream_eq, served_frames h.sendable h.handled, served, nextFrame_closed.mpr h.tail_lt]

/-! A whole session. -/

def savedState (state : PeerState) : Option PeerState :=
  match (PeerState.persistLedger state).play PeerState.platformReply with
  | (.ok (), next) => some next
  | (.error _, _) => none

def sessionState (state : PeerState) (stream : Bytes) : Option PeerState :=
  match nextFrame stream with
  | .message hello rest =>
    match parseHandshakeMessage hello, makeHandshakeMessage state.localHandshake with
    | .ok _, .ok _ => (served kMaxRelayMessages state rest).bind savedState
    | _, _ => none
  | _ => none

theorem serveRelayMessages_served (n : Nat) (state : PeerState) {w : Wire} (hw : w.deaf = false) :
    (serveRelayMessages n state).Always bufferEnv w fun out _ =>
      match (served n state w.inbound).bind savedState with
      | some next => out = (.ok ⟨next.height, next.mempool.size⟩, next)
      | none => ∃ e, out.1 = .error e := by
  rw [serveRelayMessages, Action.always_bind]
  refine (relayMessageLoop_served n state hw).mono ?_
  intro out w' hout
  obtain ⟨hw', hout⟩ := hout
  cases hserved : served n state w.inbound with
  | none =>
    rw [hserved] at hout
    obtain ⟨e, he⟩ := hout
    rw [he]
    exact ⟨e, rfl⟩
  | some next =>
    rw [hserved] at hout
    dsimp only at hout
    obtain ⟨sent, hsaved⟩ := PeerState.persistLedger_always next
    rw [hout, Option.bind_some, savedState]
    dsimp only
    rw [Action.always_bind, hsaved w' _ hw']
    obtain ⟨outcome, next'⟩ := (PeerState.persistLedger next).play PeerState.platformReply
    cases outcome with
    | error e => exact ⟨e, rfl⟩
    | ok u =>
      dsimp only
      rw [Action.always_bind, Action.state_run, Process.always_ret]
      dsimp only
      rw [Action.pure_run, Process.always_ret]

theorem serveRelayConnection_session (state : PeerState) {w : Wire} (hw : w.deaf = false) :
    (serveRelayConnection state).Always bufferEnv w fun out _ =>
      match sessionState state w.inbound with
      | some next => out = (.ok ⟨next.height, next.mempool.size⟩, next)
      | none => ∃ e, out.1 = .error e := by
  rw [serveRelayConnection, Action.always_bind, serveRelayHandshake, Action.always_bind,
    recvMessage_always, sessionState]
  cases hnext : nextFrame w.inbound with
  | closed => exact fun errno => ⟨_, rfl⟩
  | refused e rest => exact ⟨e, rfl⟩
  | message hello rest =>
    dsimp only
    rw [Action.always_bind, Action.ofExcept_run, Process.always_ret]
    cases parseHandshakeMessage hello with
    | error e => exact ⟨e, rfl⟩
    | ok peer =>
      dsimp only
      rw [Action.always_bind, Action.state_run, Process.always_ret]
      dsimp only
      rw [Action.always_bind, Action.ofExcept_run, Process.always_ret]
      cases hmake : makeHandshakeMessage state.localHandshake with
      | error e => exact ⟨e, rfl⟩
      | ok reply =>
        have hleft : (w.left rest).deaf = false := hw
        have hsent : ((w.left rest).push (frame reply.toBytes)).deaf = false := hw
        dsimp only
        rw [sendMessage_always (makeHandshakeMessage_sendable hmake) hleft]
        exact serveRelayMessages_served kMaxRelayMessages state hsent

/-- A session always ends without error, or always with one. -/
theorem session_ok_iff (state : PeerState) {w : Wire} (hw : w.deaf = false) :
    ((onSocket (serveRelayConnection state)).Always socketEnv w fun out _ =>
      ∃ summary, out.1 = .ok summary) ↔ sessionState state w.inbound ≠ none := by
  rw [onSocket_always]
  have hsession := serveRelayConnection_session state hw
  cases hstate : sessionState state w.inbound with
  | some next =>
    rw [hstate] at hsession
    exact ⟨fun _ => by simp, fun _ => hsession.mono fun _ _ hout => ⟨_, congrArg Prod.fst hout⟩⟩
  | none =>
    rw [hstate] at hsession
    have hnot : ¬ (serveRelayConnection state).Always bufferEnv w fun out _ =>
        ∃ summary, out.1 = .ok summary := by
      refine hsession.consistent ?_
      intro out _ he hok
      obtain ⟨e, he⟩ := he
      obtain ⟨summary, hok⟩ := hok
      simp [he] at hok
    exact ⟨fun h => absurd h hnot, fun h => absurd rfl h⟩

theorem session_error_iff (state : PeerState) {w : Wire} (hw : w.deaf = false) :
    ((onSocket (serveRelayConnection state)).Always socketEnv w fun out _ =>
      ∃ e, out.1 = .error e) ↔ sessionState state w.inbound = none := by
  rw [onSocket_always]
  have hsession := serveRelayConnection_session state hw
  cases hstate : sessionState state w.inbound with
  | none =>
    rw [hstate] at hsession
    exact ⟨fun _ => rfl, fun _ => hsession⟩
  | some next =>
    rw [hstate] at hsession
    have hnot : ¬ (serveRelayConnection state).Always bufferEnv w fun out _ =>
        ∃ e, out.1 = .error e := by
      refine hsession.consistent ?_
      intro out _ hout he
      obtain ⟨e, he⟩ := he
      simp [hout] at he
    exact ⟨fun h => absurd h hnot, fun h => by cases h⟩

/-! Streams that stop early. -/

/-- What a peer has sent before its last frame: a handshake, and fewer messages than the
budget, which the server handles without error. -/
structure ServedStream (server : PeerState) (hello : P2pMessage) (messages : List P2pMessage) :
    Prop where
  hello_sendable : hello.Sendable
  hello_parses : ∃ peer, parseHandshakeMessage hello = .ok peer
  sendable : ∀ m ∈ messages, m.Sendable
  budget_lt : messages.length < kMaxRelayMessages
  handled : ∃ next, server.handleAll messages = some next

theorem handleAll_persist {state next : PeerState} {messages : List P2pMessage}
    (h : state.handleAll messages = some next) : next.persist = state.persist := by
  induction messages generalizing state with
  | nil =>
    cases h
    rfl
  | cons m messages ih =>
    have hsame := (state.handled_settings m).1
    rw [PeerState.handleAll] at h
    cases hhandled : state.handled m with
    | mk outcome state' =>
      rw [hhandled] at h hsame
      cases outcome with
      | ok u => exact (ih h).trans hsame
      | error e => cases h

theorem savedState_off {state : PeerState} (h : state.persist = false) :
    savedState state = some state := by
  rw [savedState, PeerState.persistLedger_off h]
  rfl

theorem sessionState_nameless {state : PeerState} (h : ¬ ValidNodeId state.nodeId)
    (stream : Bytes) : sessionState state stream = none := by
  obtain ⟨e, he⟩ := makeHandshake_of_invalid h
  rw [sessionState, he]
  cases nextFrame stream with
  | closed => rfl
  | refused e rest => rfl
  | message hello rest =>
    dsimp only
    cases parseHandshakeMessage hello <;> rfl

section
variable {server : PeerState} {hello : P2pMessage} {messages : List P2pMessage}

theorem ServedStream.session (h : ServedStream server hello messages)
    (hid : ValidNodeId server.nodeId) (hpersist : server.persist = false) (tail : Bytes) :
    ∃ next : PeerState, next.persist = false ∧
      sessionState server (frame hello.toBytes ++ (frames messages ++ tail)) =
        match nextFrame tail with
        | .closed => some next
        | .refused _ _ => none
        | .message _ _ =>
          (served (kMaxRelayMessages - messages.length) next tail).bind savedState := by
  obtain ⟨next, hnext⟩ := h.handled
  obtain ⟨peer, hpeer⟩ := h.hello_parses
  obtain ⟨reply, hreply, _⟩ := makeHandshake_of_valid hid
  have hoff : next.persist = false := (handleAll_persist hnext).trans hpersist
  obtain ⟨k, hk⟩ : ∃ k, kMaxRelayMessages = messages.length + (k + 1) :=
    ⟨kMaxRelayMessages - messages.length - 1, by have := h.budget_lt; omega⟩
  refine ⟨next, hoff, ?_⟩
  rw [sessionState, nextFrame_frame h.hello_sendable, hk, Nat.add_sub_cancel_left]
  dsimp only
  rw [hpeer, hreply]
  dsimp only
  rw [served_frames h.sendable hnext]
  cases htail : nextFrame tail with
  | closed => rw [served, htail, Option.bind_some, savedState_off hoff]
  | refused e rest =>
    rw [served, htail]
    rfl
  | message m rest => rfl

/-- How a session has to end: with an error if its last frame is incomplete, and without one
if there is no such frame. -/
def DetectsTruncation (server : PeerState) (stream cut : Bytes) : Prop :=
  (cut ≠ [] → (onSocket (serveRelayConnection server)).Always socketEnv ⟨stream ++ cut, [], false⟩
    fun out _ => ∃ e, out.1 = .error e) ∧
  (cut = [] → (onSocket (serveRelayConnection server)).Always socketEnv ⟨stream ++ cut, [], false⟩
    fun out _ => ∃ summary, out.1 = .ok summary)

/-- A truncated stream is told from one that ends between two frames, however it is received,
just if the cut is behind the four bytes of the frame's length. -/
theorem truncation_detected_iff (h : ServedStream server hello messages)
    (hpersist : server.persist = false) {body cut : Bytes} (hbody : body.length < 4294967296)
    (hcut : cut <+: frame body) (hproper : cut ≠ frame body) :
    DetectsTruncation server (frame hello.toBytes ++ frames messages) cut ↔
      (ValidNodeId server.nodeId → cut = [] ∨ 4 ≤ cut.length) ∧
      (¬ ValidNodeId server.nodeId → cut ≠ []) := by
  rw [DetectsTruncation, session_error_iff server rfl, session_ok_iff server rfl, List.append_assoc]
  by_cases hid : ValidNodeId server.nodeId
  · obtain ⟨next, _, hsession⟩ := h.session hid hpersist cut
    simp only [hid, true_implies, not_true_eq_false, false_implies, and_true]
    rw [hsession]
    by_cases hlong : 4 ≤ cut.length
    · obtain ⟨e, rest, hrefused⟩ := nextFrame_cut hbody hcut hproper hlong
      have hne : cut ≠ [] := by
        rw [← List.length_pos_iff]
        omega
      rw [hrefused]
      exact ⟨fun _ => .inr hlong, fun _ => ⟨fun _ => rfl, fun hnil => absurd hnil hne⟩⟩
    · rw [nextFrame_closed.mpr (Nat.lt_of_not_le hlong)]
      constructor
      · intro hdetects
        by_contra hne
        rw [not_or] at hne
        cases hdetects.1 hne.1
      · intro hends
        have hnil := hends.resolve_right hlong
        exact ⟨fun hne => absurd hnil hne, fun _ => by simp⟩
  · rw [sessionState_nameless hid]
    constructor
    · intro hdetects
      exact ⟨fun hid' => absurd hid' hid, fun _ hnil => hdetects.2 hnil rfl⟩
    · intro hends
      exact ⟨fun _ => rfl, fun hnil => absurd hnil (hends.2 hid)⟩

end

/-! A peer of a fresh node that sends its handshake and the beginning of a five-byte frame. -/

theorem genesis_hello : ∃ hello, ServedStream (genesisNode {}) hello [] := by
  have hid : ValidNodeId (genesisNode {}).nodeId := defaultNodeId_valid
  obtain ⟨hello, _, hsendable, hparse⟩ := makeHandshake_of_valid hid
  exact ⟨hello, hsendable, ⟨_, hparse⟩, by simp, by decide, _, rfl⟩

/-- The length has arrived. -/
theorem truncation_detected_genesis :
    ∃ hello, ServedStream (genesisNode {}) hello [] ∧
      DetectsTruncation (genesisNode {}) (frame hello.toBytes ++ frames []) [5, 0, 0, 0] := by
  obtain ⟨hello, h⟩ := genesis_hello
  have hcut : [5, 0, 0, 0] <+: frame [1, 2, 3, 4, 5] := ⟨[1, 2, 3, 4, 5], by decide⟩
  exact ⟨hello, h, (truncation_detected_iff h rfl (by decide) hcut (by decide)).mpr
    ⟨fun _ => .inr (by decide), fun _ => by simp⟩⟩

/-- One byte of the length has arrived, and the session ends as if nothing was missing. -/
theorem truncated_length_accepted :
    ∃ hello, ServedStream (genesisNode {}) hello [] ∧ [5] <+: frame [1, 2, 3, 4, 5] ∧
      (onSocket (serveRelayConnection (genesisNode {}))).Always socketEnv
        ⟨frame hello.toBytes ++ [5], [], false⟩ fun out _ => ∃ summary, out.1 = .ok summary := by
  obtain ⟨hello, h⟩ := genesis_hello
  refine ⟨hello, h, ⟨_, rfl⟩, (session_ok_iff _ rfl).mpr ?_⟩
  obtain ⟨next, _, hsession⟩ := h.session defaultNodeId_valid rfl [5]
  have hend : sessionState (genesisNode {}) (frame hello.toBytes ++ [5]) = some next := hsession
  simp [hend]

end Blockchain
