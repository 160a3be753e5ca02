import Blockchain.RelaySync
import Blockchain.P2pCanonical
import Blockchain.Lib.Transport

/-! Frames over a native socket that moves any number of bytes per call. -/
namespace Blockchain
open Lib

def nativeErrors : SocketErrors Error where
  send := socketError "socket send failed"
  recv := socketError "socket recv failed"

abbrev NodeProcess (α : Type) := Process NodeOp (LinkOp.Answer Error StoreOp.Answer) α

abbrev SocketProcess (α : Type) :=
  Process (NativeOp StoreOp) (NativeOp.Answer StoreOp.Answer) α

def storeWrites (op : StoreOp) (answer : StoreOp.Answer op) : Prop := answer = .ok ()

/-- A socket that cuts the stream as it likes. -/
abbrev socketEnv : Env (NativeOp StoreOp) (NativeOp.Answer StoreOp.Answer) Wire :=
  nativeEnv storeWrites

abbrev bufferEnv : Env NodeOp (LinkOp.Answer Error StoreOp.Answer) Wire :=
  linkEnv nativeErrors storeWrites

/-- A program with its sends and receives carried out by `send_all_native` and
`recv_all_native`. -/
def onSocket {α : Type} (p : NodeProcess α) : SocketProcess α := p.interp (nativeIo nativeErrors)

theorem onSocket_always {α : Type} {p : NodeProcess α} {w : Wire} {Q : α → Wire → Prop} :
    (onSocket p).Always socketEnv w Q ↔ p.Always bufferEnv w Q :=
  (nativeIo_implements nativeErrors storeWrites).always

def frame (body : Bytes) : Bytes := leBytes 4 (UInt32.ofNat body.length).toNat ++ body

/-- What a receiver finds at the front of the stream. -/
inductive Incoming where
  | message (message : P2pMessage) (rest : Bytes)
  | refused (error : Error) (rest : Bytes)
  | closed

def nextFrame (inbound : Bytes) : Incoming :=
  if inbound.length < 4 then .closed
  else
    let len := UInt32.ofNat (leValue (inbound.take 4))
    let rest := inbound.drop 4
    if len > kMaxP2pFrameBytes then
      .refused ⟨.resourceLimitExceeded, "frame length exceeds maximum"⟩ rest
    else if rest.length < len.toNat then .refused ⟨.invalidMessage, "incomplete frame body"⟩ []
    else
      match P2pMessage.deserialize (rest.take len.toNat) with
      | .ok message => .message message (rest.drop len.toNat)
      | .error e => .refused e (rest.drop len.toNat)

theorem socketError_recvClosed (errno : Int) :
    recvClosed (socketError "socket recv failed" errno) = true := by
  have hinfix : "socket recv failed".toList <:+:
      (socketError "socket recv failed" errno).message.toList := by
    simp only [socketError, String.toList_append, List.append_assoc]
    exact (List.prefix_append _ _).isInfix
  rw [recvClosed, decide_eq_true hinfix, Bool.and_true]
  rfl

section
variable {σ : Type} {s : σ} {w : Wire}

theorem sendMessage_always {message : P2pMessage} (h : message.Sendable) (hw : w.deaf = false)
    {Q : Result Unit × σ → Wire → Prop} :
    (sendMessage message s).Always bufferEnv w Q ↔
      Q (.ok (), s) (w.push (frame message.toBytes)) := by
  rw [sendMessage_call h, always_send hw, always_send (by simpa using hw), Wire.push_push,
    Process.always_ret]
  rfl

theorem recvMessage_always {Q : Result P2pMessage × σ → Wire → Prop} :
    (recvMessage s).Always bufferEnv w Q ↔
      match nextFrame w.inbound with
      | .message message rest => Q (.ok message, s) (w.left rest)
      | .refused e rest => Q (.error e, s) (w.left rest)
      | .closed => ∀ errno, Q (.error (socketError "socket recv failed" errno), s) (w.left []) := by
  simp only [recvMessage, recvFramed, recvAllNative, Action.bind_run, Action.perform_run,
    Process.call_bind, Process.bind_ret_left, Action.ofExcept_run, nextFrame]
  by_cases hshort : w.inbound.length < 4
  · rw [if_pos hshort, always_recv_closed hshort]
    simp only [Process.bind_ret_left, Process.always_ret, nativeErrors]
  · rw [if_neg hshort, always_recv (Nat.not_lt.mp hshort)]
    dsimp only
    generalize UInt32.ofNat (leValue (w.inbound.take 4)) = len
    generalize w.inbound.drop 4 = rest
    by_cases hbig : len > kMaxP2pFrameBytes
    · simp only [if_pos hbig, Action.fail_run, Process.bind_ret_left, Process.always_ret]
    · simp only [if_neg hbig]
      by_cases hzero : len > 0
      · simp only [if_pos hzero, Action.attempt, Action.bind_run, Action.perform_run,
          Process.call_bind, Process.bind_ret_left, Action.ofExcept_run]
        by_cases hbody : rest.length < len.toNat
        · have hclosed : ∀ errno, recvClosed (nativeErrors.recv errno) = true :=
            socketError_recvClosed
          rw [if_pos hbody, always_recv_closed (by simpa using hbody)]
          simp only [if_pos (hclosed _), Action.fail_run, Process.bind_ret_left, Process.always_ret,
            Wire.left_left, forall_const]
        · rw [if_neg hbody, always_recv (by simpa using hbody)]
          simp only [Action.pure_run, Process.bind_ret_left, Process.always_ret, Wire.left_inbound,
            Wire.left_left]
          cases P2pMessage.deserialize (rest.take len.toNat) <;> rfl
      · have hlen : len.toNat = 0 := by
          rw [gt_iff_lt, UInt32.lt_iff_toNat_lt] at hzero
          simpa using hzero
        simp only [if_neg hzero, Action.pure_run, Process.bind_ret_left, Process.always_ret, hlen,
          Nat.not_lt_zero, if_false, List.take_zero, List.drop_zero]
        cases P2pMessage.deserialize [] <;> rfl

theorem nextFrame_frame {message : P2pMessage} (h : message.Sendable) (rest : Bytes) :
    nextFrame (frame message.toBytes ++ rest) = .message message rest := by
  have hlen := h.frame_toNat
  have hle : ¬ UInt32.ofNat message.toBytes.length > kMaxP2pFrameBytes := by
    rw [gt_iff_lt, UInt32.lt_iff_toNat_lt, hlen]
    exact Nat.not_lt.mpr h.frame_le
  have hvalue : UInt32.ofNat (leValue ((frame message.toBytes ++ rest).take 4)) =
      UInt32.ofNat message.toBytes.length := by
    rw [frame, List.append_assoc, List.take_left' (leBytes_length _ _),
      leValue_leBytes 4 _ (UInt32.toNat_lt _), UInt32.ofNat_toNat]
  have hdrop : (frame message.toBytes ++ rest).drop 4 = message.toBytes ++ rest := by
    rw [frame, List.append_assoc, List.drop_left' (leBytes_length _ _)]
  have hlong : ¬ (frame message.toBytes ++ rest).length < 4 := by
    rw [frame, List.length_append, List.length_append, leBytes_length]
    omega
  have hbody : ¬ (message.toBytes ++ rest).length < message.toBytes.length := by
    rw [List.length_append]
    omega
  simp only [nextFrame, if_neg hlong, hvalue, hdrop, if_neg hle, hlen, if_neg hbody, List.take_left,
    List.drop_left, P2pMessage.deserialize_toBytes h]

def sendMessages : List P2pMessage → NodeAction σ Unit
  | [] => pure ()
  | message :: rest => do
    sendMessage message
    sendMessages rest

def recvMessages : Nat → NodeAction σ (List P2pMessage)
  | 0 => pure []
  | n + 1 => do
    let message ← recvMessage
    let rest ← recvMessages n
    return message :: rest

def frames (messages : List P2pMessage) : Bytes := messages.flatMap fun m => frame m.toBytes

theorem sendMessages_always {messages : List P2pMessage} (h : ∀ m ∈ messages, m.Sendable)
    (hw : w.deaf = false) {Q : Result Unit × σ → Wire → Prop} :
    (sendMessages messages s).Always bufferEnv w Q ↔ Q (.ok (), s) (w.push (frames messages)) := by
  induction messages generalizing w with
  | nil =>
    rw [sendMessages, Action.pure_run, Process.always_ret, frames, List.flatMap_nil, Wire.push_nil]
  | cons m rest ih =>
    obtain ⟨hm, hrest⟩ := List.forall_mem_cons.mp h
    have hpushed : (w.push (frame m.toBytes)).deaf = false := hw
    rw [sendMessages, Action.always_bind, sendMessage_always hm hw]
    dsimp only
    rw [ih hrest hpushed, Wire.push_push]
    rfl

theorem recvMessages_always {messages : List P2pMessage} (h : ∀ m ∈ messages, m.Sendable)
    {rest : Bytes} (hw : w.inbound = frames messages ++ rest)
    {Q : Result (List P2pMessage) × σ → Wire → Prop} :
    (recvMessages messages.length s).Always bufferEnv w Q ↔ Q (.ok messages, s) (w.left rest) := by
  induction messages generalizing w Q with
  | nil =>
    have hsame : w.left rest = w := by
      rw [frames, List.flatMap_nil, List.nil_append] at hw
      rw [← hw]
      rfl
    rw [List.length_nil, recvMessages, Action.pure_run, Process.always_ret, hsame]
  | cons m messages ih =>
    obtain ⟨hm, hmessages⟩ := List.forall_mem_cons.mp h
    have hnext : nextFrame w.inbound = .message m (frames messages ++ rest) := by
      rw [hw, frames, List.flatMap_cons, List.append_assoc, nextFrame_frame hm]
      rfl
    rw [List.length_cons, recvMessages, Action.always_bind, recvMessage_always, hnext]
    dsimp only
    rw [Action.always_bind, ih hmessages rfl]
    dsimp only
    rw [Action.pure_run, Process.always_ret]
    rfl

end

/-- Messages go over a socket unharmed: however it splits what is sent and what is received,
the first messages come out as they went in, and the bytes of the others are still there. -/
theorem framing_survives_chunking {messages : List P2pMessage} (h : ∀ m ∈ messages, m.Sendable)
    {σ τ : Type} (s : σ) (t : τ) (w : Wire) (hw : w.deaf = false) :
    (onSocket (sendMessages messages s)).Always socketEnv w (fun out w' =>
      out = (.ok (), s) ∧ w' = w.push (frames messages)) ∧
    ∀ (k : Nat) (rest : Bytes) (v : Wire), k ≤ messages.length →
      v.inbound = frames messages ++ rest →
      (onSocket (recvMessages k t)).Always socketEnv v fun out v' =>
        out = (.ok (messages.take k), t) ∧ v' = v.left (frames (messages.drop k) ++ rest) := by
  refine ⟨onSocket_always.mpr ((sendMessages_always h hw).mpr ⟨rfl, rfl⟩), ?_⟩
  intro k rest v hk hv
  have hsplit : v.inbound = frames (messages.take k) ++ (frames (messages.drop k) ++ rest) := by
    rw [hv, ← List.append_assoc, frames, frames, frames, ← List.flatMap_append,
      List.take_append_drop]
  have hlen : (messages.take k).length = k := by rw [List.length_take]; omega
  have hrecv : (recvMessages (messages.take k).length t).Always bufferEnv v fun out v' =>
      out = (.ok (messages.take k), t) ∧ v' = v.left (frames (messages.drop k) ++ rest) :=
    (recvMessages_always (fun m hm => h m (List.mem_of_mem_take hm)) hsplit).mpr ⟨rfl, rfl⟩
  rw [hlen] at hrecv
  exact onSocket_always.mpr hrecv

/-- Two requests through a socket, the first one read. -/
theorem framing_survives_two_requests :
    (∀ m ∈ [blockRequestMessage 1, blockRequestMessage 2], m.Sendable) ∧
    (onSocket (sendMessages [blockRequestMessage 1, blockRequestMessage 2] ())).Always socketEnv
      ⟨[], [], false⟩ (fun out w' => out = (.ok (), ()) ∧
        w' = Wire.push ⟨[], [], false⟩ (frames [blockRequestMessage 1, blockRequestMessage 2])) ∧
    (onSocket (recvMessages 1 ())).Always socketEnv
      ⟨frames [blockRequestMessage 1, blockRequestMessage 2], [], false⟩ fun out v' =>
        out = (.ok [blockRequestMessage 1], ()) ∧
          v' = ⟨frames [blockRequestMessage 2], [], false⟩ := by
  have hsendable : ∀ m ∈ [blockRequestMessage 1, blockRequestMessage 2], m.Sendable := by
    intro m hm
    simp only [List.mem_cons, List.not_mem_nil, or_false] at hm
    obtain rfl | rfl := hm
    · exact blockRequestMessage_sendable 1
    · exact blockRequestMessage_sendable 2
  have h := framing_survives_chunking hsendable () () ⟨[], [], false⟩ rfl
  refine ⟨hsendable, h.1, (h.2 1 [] _ (by decide) (List.append_nil _).symm).mono ?_⟩
  intro out v' hout
  exact ⟨hout.1, hout.2.trans (by rw [List.append_nil]; rfl)⟩

end Blockchain
