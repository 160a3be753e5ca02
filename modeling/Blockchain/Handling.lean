import Blockchain.NativeSocket

/-! Handling a message when the platform does its part: every send is taken and every file
is written. A handler never receives, so its outcome is then a function of the message and
the state. -/
namespace Blockchain
open Lib

section
variable {σ : Type}

theorem sendAllNative_noRecv (data : Bytes) : (sendAllNative data : NodeAction σ Unit).NoRecv :=
  Action.NoRecv.bind (fun _ => .send fun _ => .ret _) fun _ => Action.noRecv_ofExcept _

theorem sendMessage_noRecv (message : P2pMessage) :
    (sendMessage message : NodeAction σ Unit).NoRecv := by
  unfold sendMessage sendFramed
  split
  · exact Action.noRecv_fail _
  · refine (sendAllNative_noRecv _).bind fun _ => ?_
    split
    · exact Action.noRecv_pure _
    · exact sendAllNative_noRecv _

end

namespace PeerState

theorem sendReject_noRecv (code : RejectCode) (reason : String) : (sendReject code reason).NoRecv :=
  (Action.noRecv_ofExcept _).bind fun msg => sendMessage_noRecv msg

theorem persistLedger_noRecv : persistLedger.NoRecv := by
  refine Action.noRecv_state.bind fun state => ?_
  split
  · exact Action.noRecv_state.bind fun _ => (Action.noRecv_ofExcept _).bind fun _ =>
      Action.NoRecv.bind (fun _ => .loc fun _ => .ret _) fun _ => Action.noRecv_ofExcept _
  · exact Action.noRecv_pure _

theorem connectBlock_noRecv (block : Block) : (connectBlock block).NoRecv := by
  intro state
  obtain ⟨e, _, hrun⟩ | ⟨fees, chain, pool, _, hrun⟩ := connectBlock_run block state
  · rw [hrun]
    exact .ret _
  · rw [hrun]
    exact .ret _

theorem mineLoop_noRecv (n : Nat) : (mineLoop n).NoRecv := by
  induction n with
  | zero => exact Action.noRecv_pure _
  | succ n ih =>
    exact Action.noRecv_state.bind fun _ => (Action.noRecv_ofExcept _).bind fun tmpl =>
      (connectBlock_noRecv tmpl.block).bind fun _ => ih

theorem onTxAnnounce_noRecv (payload : Bytes) : (onTxAnnounce payload).NoRecv := by
  have haccept : ∀ tx, (acceptTransaction tx).NoRecv := fun _ _ => .ret _
  refine (Action.noRecv_ofExcept _).bind fun parsed => (Action.noRecv_ofExcept _).bind fun tx =>
    (haccept tx).bind fun _ => Action.noRecv_state.bind fun state => ?_
  split
  · exact (mineLoop_noRecv _).bind fun _ => persistLedger_noRecv
  · exact Action.noRecv_pure _

theorem onBlockAnnounce_noRecv (payload : Bytes) : (onBlockAnnounce payload).NoRecv :=
  (Action.noRecv_ofExcept _).bind fun _ => (Action.noRecv_ofExcept _).bind fun block =>
    (connectBlock_noRecv block).bind fun _ => persistLedger_noRecv

theorem onBlockRequest_noRecv (request : BlockRequestPayload) :
    (onBlockRequest request).NoRecv := by
  refine Action.noRecv_state.bind fun state => ?_
  cases state.blockAtHeight request.height with
  | none => exact sendReject_noRecv _ _
  | some block => exact (Action.noRecv_ofExcept _).bind fun msg => sendMessage_noRecv msg

theorem handleMessage_noRecv (message : P2pMessage) : (handleMessage message).NoRecv := by
  have hdefault : (do
      sendReject .invalidMessage "unsupported message type"
      Action.fail ⟨.invalidMessage, "unsupported message type"⟩ : PeerAction Unit).NoRecv :=
    (sendReject_noRecv _ _).bind fun _ => Action.noRecv_fail _
  unfold handleMessage
  cases message.type with
  | txAnnounce =>
    refine (Action.noRecv_ofExcept _).bind fun _ =>
      (onTxAnnounce_noRecv _).attempt.bind fun outcome => ?_
    cases outcome with
    | ok u => exact Action.noRecv_pure _
    | error e => exact (sendReject_noRecv _ _).bind fun _ => Action.noRecv_fail _
  | blockAnnounce => exact (Action.noRecv_ofExcept _).bind fun _ => onBlockAnnounce_noRecv _
  | blockRequest => exact (Action.noRecv_ofExcept _).bind fun _ => onBlockRequest_noRecv _
  | blockResponse => exact (Action.noRecv_ofExcept _).bind fun _ => onBlockAnnounce_noRecv _
  | ping =>
    exact (Action.noRecv_ofExcept _).bind fun _ => (Action.noRecv_ofExcept _).bind fun pong =>
      sendMessage_noRecv pong
  | pong => exact Action.noRecv_pure _
  | handshake => exact hdefault
  | peerInfo => exact hdefault
  | txRequest => exact hdefault
  | txResponse => exact hdefault
  | reject => exact hdefault

/-- Sends are taken, files are written. -/
def platformReply : (op : NodeOp) → LinkOp.Answer Error StoreOp.Answer op :=
  linkReply fun _ => .ok ()

def handled (state : PeerState) (message : P2pMessage) : Result Unit × PeerState :=
  (handleMessage message state).play platformReply

def handleAll : PeerState → List P2pMessage → Option PeerState
  | state, [] => some state
  | state, message :: rest =>
    match state.handled message with
    | (.ok (), next) => handleAll next rest
    | (.error _, _) => none

theorem handleMessage_always (state : PeerState) (message : P2pMessage) :
    ∃ out, ∀ (w : Wire) (Q : Result Unit × PeerState → Wire → Prop), w.deaf = false →
      ((handleMessage message state).Always bufferEnv w Q ↔
        Q (state.handled message) (w.push out)) :=
  (handleMessage_noRecv message state).outcome nativeErrors fun _ => .ok ()

theorem persistLedger_always (state : PeerState) :
    ∃ out, ∀ (w : Wire) (Q : Result Unit × PeerState → Wire → Prop), w.deaf = false →
      ((persistLedger state).Always bufferEnv w Q ↔
        Q ((persistLedger state).play platformReply) (w.push out)) :=
  (persistLedger_noRecv state).outcome nativeErrors fun _ => .ok ()

theorem handled_settings (state : PeerState) (message : P2pMessage) :
    (state.handled message).2.persist = state.persist ∧
      (state.handled message).2.nodeId = state.nodeId := by
  have hconnect : ∀ block (s : PeerState), s.persist = state.persist ∧ s.nodeId = state.nodeId →
      (connectBlock block).Ensures s fun _ next =>
        next.persist = state.persist ∧ next.nodeId = state.nodeId :=
    fun block s hs => connectBlock_ensures (fun _ => hs) fun _ _ _ _ => hs
  have haccept : ∀ tx, (acceptTransaction tx).Keeps fun s =>
      s.persist = state.persist ∧ s.nodeId = state.nodeId := by
    intro tx s hs r next hr
    cases hr
    exact hs
  have hkept : (handleMessage message).Ensures state fun _ next =>
      next.persist = state.persist ∧ next.nodeId = state.nodeId :=
    handleMessage_ensures (I := fun s => s.persist = state.persist ∧ s.nodeId = state.nodeId)
      ⟨rfl, rfl⟩ haccept (fun s tmpl hs _ => hconnect tmpl.block s hs)
      fun block _ => hconnect block state ⟨rfl, rfl⟩
  exact hkept _ _ (Process.returns_play platformReply _)

end PeerState
end Blockchain
