import Blockchain.RelayServer
import Blockchain.Lib.Schedule

/-! Messages between two programs, along the schedule in which each message is read as soon
as it has been sent. By the schedule theorem of the library this is the only one that has to
be followed. -/
namespace Blockchain
open Lib

section Moves
variable {ρ ρ' σ α τ β : Type} {lbody : σ → NodeParty σ α} {rbody : τ → NodeParty τ β}

abbrev Moves (lbody : σ → NodeParty σ α) (rbody : τ → NodeParty τ β) :
    Session Error StoreOp.Answer σ α τ β → Session Error StoreOp.Answer σ α τ β → Prop :=
  Relation.ReflTransGen (Session.Move lbody rbody)

theorem Moves.swap {s t : Session Error StoreOp.Answer σ α τ β} (h : Moves lbody rbody s t) :
    Moves rbody lbody s.swap t.swap := by
  induction h with
  | refl => exact .refl
  | tail _ hm ih => exact ih.tail hm.swap

theorem frameLength_ne_nil (message : P2pMessage) : frameLength message ≠ [] := by
  have hlen : (frameLength message).length = 4 := leBytes_length _ _
  intro h
  rw [h] at hlen
  cases hlen

theorem frame_toBytes (message : P2pMessage) :
    frame message.toBytes = frameLength message ++ message.toBytes := by
  rw [frame, frameLength]

theorem send_moves {message : P2pMessage} (h : message.Sendable) {s : ρ}
    {F : Result Unit × ρ → NodeParty σ α} {right : NodeParty τ β} {toLeft toRight : Bytes} :
    Moves lbody rbody ⟨(sendMessage message s).bind F, right, toLeft, toRight⟩
      ⟨F (.ok (), s), right, toLeft, toRight ++ frame message.toBytes⟩ := by
  have hbytes : message.toBytes ≠ [] := List.length_pos_iff.mp message.toBytes_pos
  rw [sendMessage_call h, frame_toBytes, ← List.append_assoc]
  simp only [Process.call_bind]
  refine .head (.left (by rw [Process.advance, if_neg (frameLength_ne_nil message)])) ?_
  refine .head (.left (by rw [Process.call_bind, Process.advance, if_neg hbytes])) ?_
  exact .refl

theorem recv_moves {message : P2pMessage} (h : message.Sendable) {s : ρ}
    {F : Result P2pMessage × ρ → NodeParty σ α} {right : NodeParty τ β} {toLeft toRight : Bytes} :
    Moves lbody rbody ⟨(recvMessage s).bind F, right, frame message.toBytes ++ toLeft, toRight⟩
      ⟨F (.ok message, s), right, toLeft, toRight⟩ := by
  obtain ⟨k, hk, _, hbody⟩ := recvMessage_call s
  obtain ⟨k', hk', hdone⟩ := hbody message h
  have hlen : (frameLength message).length = 4 := leBytes_length _ _
  rw [frame_toBytes, List.append_assoc, hk, Process.call_bind]
  have hfirst : (Process.call (.recv 4) fun r => (k r).bind F : NodeParty σ α).advance lbody
      (frameLength message ++ (message.toBytes ++ toLeft)) =
        some ((k (.ok (frameLength message))).bind F, message.toBytes ++ toLeft, []) := by
    rw [Process.advance, if_pos (by rw [List.length_append]; omega), List.take_left' hlen,
      List.drop_left' hlen]
  have hsecond : ((k (.ok (frameLength message))).bind F).advance lbody
      (message.toBytes ++ toLeft) = some ((k' (.ok message.toBytes)).bind F, toLeft, []) := by
    rw [hk', Process.call_bind, Process.advance, if_pos (by rw [List.length_append]; omega),
      List.take_left, List.drop_left]
  refine .head (.left hfirst) (.head (.left hsecond) ?_)
  rw [hdone, List.append_nil, List.append_nil]
  exact .refl

theorem moves_right {message : P2pMessage} (h : message.Sendable) {s : ρ} {t : ρ'}
    {F : Result Unit × ρ → NodeParty σ α} {G : Result P2pMessage × ρ' → NodeParty τ β} :
    Moves lbody rbody ⟨(sendMessage message s).bind F, (recvMessage t).bind G, [], []⟩
      ⟨F (.ok (), s), G (.ok message, t), [], []⟩ := by
  have hsent : Moves lbody rbody ⟨(sendMessage message s).bind F, (recvMessage t).bind G, [], []⟩
      ⟨F (.ok (), s), (recvMessage t).bind G, [], [] ++ frame message.toBytes⟩ := send_moves h
  have hread : Moves rbody lbody
      ⟨(recvMessage t).bind G, F (.ok (), s), frame message.toBytes ++ [], []⟩
      ⟨G (.ok message, t), F (.ok (), s), [], []⟩ := recv_moves h
  rw [List.nil_append] at hsent
  rw [List.append_nil] at hread
  exact hsent.trans hread.swap

theorem moves_left {message : P2pMessage} (h : message.Sendable) {s : ρ} {t : ρ'}
    {F : Result P2pMessage × ρ → NodeParty σ α} {G : Result Unit × ρ' → NodeParty τ β} :
    Moves lbody rbody ⟨(recvMessage s).bind F, (sendMessage message t).bind G, [], []⟩
      ⟨F (.ok message, s), G (.ok (), t), [], []⟩ :=
  Moves.swap (moves_right h)

end Moves

/-! Programs that run to their end without a loop head. -/

section Party
variable {ρ α β : Type}

def party (m : NodeAction ρ α) (s : ρ) : NodeParty Empty (Result α) :=
  (m s).bind fun out => .ret (.done out.1)

def onSuccess {σ : Type} (k : α → ρ → NodeParty σ (Result β)) (out : Result α × ρ) :
    NodeParty σ (Result β) :=
  match out.1 with
  | .ok a => k a out.2
  | .error e => .ret (.done (.error e))

theorem party_bind (m : NodeAction ρ α) (k : α → NodeAction ρ β) (s : ρ) :
    party (m >>= k) s = (m s).bind (onSuccess fun a s => party (k a) s) := by
  rw [party, Action.bind_run, Process.bind_assoc]
  congr 1
  funext out
  obtain ⟨r, s⟩ := out
  cases r <;> rfl

theorem party_check {x : Result α} {a : α} (h : x = .ok a) (k : α → NodeAction ρ β) (s : ρ) :
    party (Action.ofExcept x >>= k) s = party (k a) s := by
  rw [h]
  rfl

theorem party_check_error {x : Result α} {e : Error} (h : x = .error e) (k : α → NodeAction ρ β)
    (s : ρ) : party (Action.ofExcept x >>= k) s = .ret (.done (.error e)) := by
  rw [h]
  rfl

theorem party_recv_quiet (k : P2pMessage → NodeAction ρ β) (s : ρ) :
    (party (recvMessage >>= k) s).Quiet := by
  rw [party_bind]
  exact recvMessage_quiet _ _

end Party

theorem serverParty_peer_closed {σ α : Type} {lbody : σ → NodeParty σ α}
    {rbody : Empty → ServerParty} {server : PeerState}
    {P : Session Error StoreOp.Answer σ α Empty (Result RelaySessionSummary) → Prop}
    {left : NodeParty σ α} (hclosed : left.Closed) (n : Nat) (hpersist : server.persist = false)
    (h : P ⟨left, .ret (.done (.ok ⟨server.height, server.mempool.size⟩)), [], []⟩) :
    Until (Session.Step socketFaults lbody rbody) (fun _ => True) P
      ⟨left, serverParty (serveRelayMessages (n + 1)) server, [], []⟩ := by
  obtain ⟨k, hk, hfail, _⟩ := recvMessage_call server
  rw [serverParty_messages, hk]
  refine Session.until_swap (Session.recv_closed hclosed trivial ⟨_, 0, rfl⟩ ?_)
  intro e he
  obtain ⟨errno, rfl⟩ := he
  refine .now ?_
  have hend : serverParty
    ((if peerDisconnected (socketError "socket recv failed" errno) then pure ()
      else Action.fail (socketError "socket recv failed" errno)) >>= fun _ => do
        PeerState.persistLedger
        let state ← Action.state
        pure ⟨state.height, state.mempool.size⟩) server =
      .ret (.done (.ok ⟨server.height, server.mempool.size⟩)) := by
    rw [peerDisconnected, socketError_recvClosed, if_pos rfl]
    change serverParty (PeerState.persistLedger >>= fun _ => do
      let state ← Action.state
      pure ⟨state.height, state.mempool.size⟩) server = _
    rw [serverParty_bind, PeerState.persistLedger_off hpersist]
    rfl
  rw [hfail, Process.bind_ret_left]
  dsimp only
  rw [hend]
  exact h

end Blockchain
