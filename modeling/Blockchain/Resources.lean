import Blockchain.Delivery
import Blockchain.Lib.Cost

/-! What a node can be brought to ask of the platform. Every session has a budget of system
calls that no peer can exceed, what is sent, received or saved has a largest size, and a node
that does not persist never writes a ledger. -/
namespace Blockchain
open Lib

/-- Buffers are no larger than a frame; a ledger is no larger than its format allows, and is
written only if the node persists. -/
def NodePermitted (persist : Bool) : NodeOp → Prop
  | .send data => data.length ≤ kMaxP2pFrameBytes.toNat
  | .recv count => count ≤ kMaxP2pFrameBytes.toNat
  | .loc (.writeLedger _ bytes) => persist = true ∧ bytes.length ≤ maxLedgerBytes

def frameCalls : Nat := 4 + kMaxP2pFrameBytes.toNat

/-- Handling a message takes at most a save and an answer. -/
def messageCalls : Nat := 1 + frameCalls

/-- The calls of a session: the handshake, the messages with what is done about each, and a
last save. -/
def sessionCalls : Nat :=
  (frameCalls + frameCalls) + (kMaxRelayMessages * (frameCalls + messageCalls) + 1)

section Messages
variable {persist : Bool} {I : PeerState → Prop}

theorem sendAllNative_within {data : Bytes} (h : data.length ≤ kMaxP2pFrameBytes.toNat) :
    (sendAllNative data : PeerAction Unit).Within I (NodePermitted persist) LinkOp.calls
      data.length := by
  have hok : NodePermitted persist (.send data) := h
  exact Action.within_perform_bind hok fun r => Action.within_ofExcept r 0

theorem recvAllNative_within {count : Nat} (h : count ≤ kMaxP2pFrameBytes.toNat) :
    (recvAllNative count : PeerAction Bytes).Within I (NodePermitted persist) LinkOp.calls
      count := by
  have hok : NodePermitted persist (.recv count) := h
  exact Action.within_perform_bind hok fun r => Action.within_ofExcept r 0

theorem sendMessage_within (message : P2pMessage) :
    (sendMessage message : PeerAction Unit).Within I (NodePermitted persist) LinkOp.calls
      frameCalls := by
  have hsend : ∀ data : Bytes, (sendAllNative data : PeerAction Unit).Keeps I :=
    fun data => Action.keeps_bind Action.keeps_perform fun _ => Action.keeps_ofExcept
  have hlen : (leBytes 4 (UInt32.ofNat message.toBytes.length).toNat).length = 4 :=
    leBytes_length _ _
  have hmin : 4 ≤ kMaxP2pFrameBytes.toNat := by decide
  unfold sendMessage sendFramed
  by_cases hbig : message.toBytes.length > kMaxP2pFrameBytes.toNat
  · rw [if_pos hbig]
    exact Action.within_fail _ _
  · have hfits := Nat.not_lt.mp hbig
    rw [if_neg hbig]
    refine Action.Within.bind ((sendAllNative_within (by omega)).mono hlen.le) (hsend _) fun _ => ?_
    split
    · exact Action.within_pure _ _
    · exact (sendAllNative_within hfits).mono hfits

theorem recvFramed_within :
    (recvFramed kMaxP2pFrameBytes : PeerAction Bytes).Within I (NodePermitted persist)
      LinkOp.calls frameCalls := by
  have hrecv : ∀ count, (recvAllNative count : PeerAction Bytes).Keeps I :=
    fun count => Action.keeps_bind Action.keeps_perform fun _ => Action.keeps_ofExcept
  refine Action.Within.bind (recvAllNative_within (by decide)) (hrecv 4) fun lenBytes => ?_
  dsimp only
  by_cases hbig : UInt32.ofNat (leValue lenBytes) > kMaxP2pFrameBytes
  · rw [if_pos hbig]
    exact Action.within_fail _ _
  · have hfits : (UInt32.ofNat (leValue lenBytes)).toNat ≤ kMaxP2pFrameBytes.toNat :=
      UInt32.le_iff_toNat_le.mp (UInt32.not_lt.mp hbig)
    rw [if_neg hbig]
    split
    · refine Action.Within.bind (k := 0) ((recvAllNative_within hfits).attempt.mono hfits)
        (Action.keeps_attempt (hrecv _)) fun body => ?_
      cases body with
      | ok bytes => exact Action.within_pure _ _
      | error e =>
        dsimp only
        split
        · exact Action.within_fail _ _
        · exact Action.within_fail _ _
    · exact Action.within_pure _ _

theorem recvMessage_within :
    (recvMessage : PeerAction P2pMessage).Within I (NodePermitted persist) LinkOp.calls
      frameCalls :=
  Action.Within.bind (k := 0) recvFramed_within (recvFramed_keeps _) fun _ =>
    Action.within_ofExcept _ _

theorem sendReject_within (code : RejectCode) (reason : String) :
    (sendReject code reason).Within I (NodePermitted persist) LinkOp.calls frameCalls :=
  Action.Within.check fun message => sendMessage_within message

end Messages

namespace PeerState
variable {persist : Bool}

/-! Nothing a node does changes whether it persists. -/

theorem connectBlock_keeps_persist (block : Block) :
    (connectBlock block).Keeps (·.persist = persist) :=
  fun _ hs => connectBlock_ensures (fun _ => hs) fun _ _ _ _ => hs

theorem acceptTransaction_keeps_persist (tx : Transaction) :
    (acceptTransaction tx).Keeps (·.persist = persist) := by
  intro state hstate r next hr
  cases hr
  exact hstate

theorem minedKeep_persist : MinedKeep (·.persist = persist) :=
  fun state tmpl hstate _ => connectBlock_keeps_persist tmpl.block state hstate

theorem handleMessage_keeps_persist (message : P2pMessage) :
    (handleMessage message).Keeps (·.persist = persist) :=
  fun state hstate => handleMessage_ensures hstate acceptTransaction_keeps_persist
    minedKeep_persist fun block _ => connectBlock_keeps_persist block state hstate

/-! Budgets of what a node does. -/

theorem saveLedger_within (I : PeerState → Prop) :
    saveLedger.Within I (NodePermitted true) LinkOp.calls 1 := by
  refine Action.Within.state_bind fun state => Action.Within.check_ok fun bytes hbytes => ?_
  obtain ⟨hsavable, rfl⟩ := ledgerBytes_eq_ok.mp hbytes
  have hsize := hsavable.limits.size_le
  rw [← encodedLedger_length _ state.consensus] at hsize
  have hok : NodePermitted true (.loc (.writeLedger state.dataDir _)) := ⟨rfl, hsize⟩
  exact Action.within_perform_bind hok fun r => Action.within_ofExcept r 0

theorem persistLedger_within :
    persistLedger.Within (·.persist = persist) (NodePermitted persist) LinkOp.calls 1 := by
  intro state hstate
  cases persist with
  | false =>
    rw [persistLedger_off hstate]
    trivial
  | true =>
    have hsave : persistLedger state = saveLedger state := by
      simp only [persistLedger, Action.bind_run, Action.state_run, Process.bind_ret_left, hstate,
        if_true]
    rw [hsave]
    exact saveLedger_within (·.persist = true) state hstate

theorem connectBlock_within (block : Block) :
    (connectBlock block).Within (·.persist = persist) (NodePermitted persist) LinkOp.calls 0 := by
  refine Action.within_ret (fun state => ?_) 0
  obtain ⟨e, _, hrun⟩ | ⟨fees, chain, pool, _, hrun⟩ := connectBlock_run block state
  · exact ⟨_, hrun⟩
  · exact ⟨_, hrun⟩

theorem mineBlocks_within (count : UInt32) :
    (mineBlocks count).Within (·.persist = persist) (NodePermitted persist) LinkOp.calls 1 := by
  have hloop : (mineLoop count.toNat).Within (·.persist = persist) (NodePermitted persist)
      LinkOp.calls 0 := by
    refine Action.within_ret (fun state => ?_) 0
    obtain ⟨r, next, hrun, _⟩ := mineLoop_ret count.toNat state
    exact ⟨_, hrun⟩
  exact hloop.bind (mineLoop_keeps minedKeep_persist _) fun _ => persistLedger_within

theorem onTxAnnounce_within (payload : Bytes) :
    (onTxAnnounce payload).Within (·.persist = persist) (NodePermitted persist) LinkOp.calls 1 := by
  refine Action.Within.check fun parsed => Action.Within.check fun tx => ?_
  have haccept : (acceptTransaction tx).Within (·.persist = persist) (NodePermitted persist)
      LinkOp.calls 0 := Action.within_ret (fun _ => ⟨_, rfl⟩) 0
  refine Action.Within.bind (k := 1) haccept (acceptTransaction_keeps_persist tx) fun _ => ?_
  refine Action.Within.state_bind fun state => ?_
  split
  · exact mineBlocks_within _
  · exact Action.within_pure _ _

theorem onBlockAnnounce_within (payload : Bytes) :
    (onBlockAnnounce payload).Within (·.persist = persist) (NodePermitted persist) LinkOp.calls
      1 := by
  refine Action.Within.check fun parsed => Action.Within.check fun block => ?_
  exact (connectBlock_within block).bind (connectBlock_keeps_persist block) fun _ =>
    persistLedger_within

theorem onBlockRequest_within (request : BlockRequestPayload) :
    (onBlockRequest request).Within (·.persist = persist) (NodePermitted persist) LinkOp.calls
      frameCalls := by
  refine Action.Within.state_bind fun state => ?_
  cases state.blockAtHeight request.height with
  | none => exact sendReject_within _ _
  | some block => exact Action.Within.check sendMessage_within

theorem handleMessage_within (message : P2pMessage) :
    (handleMessage message).Within (·.persist = persist) (NodePermitted persist) LinkOp.calls
      messageCalls := by
  have hblock : (onBlockAnnounce message.payload).Within (·.persist = persist)
      (NodePermitted persist) LinkOp.calls messageCalls :=
    (onBlockAnnounce_within message.payload).mono (Nat.le_add_right 1 frameCalls)
  have hsend : frameCalls ≤ messageCalls := Nat.le_add_left frameCalls 1
  have hrefuse : ∀ e reason, (sendReject .invalidMessage reason >>= fun _ => Action.fail e :
      PeerAction Unit).Within (·.persist = persist) (NodePermitted persist) LinkOp.calls
        frameCalls :=
    fun e reason => Action.Within.bind (k := 0) (sendReject_within _ _) (sendReject_keeps _ _)
      fun _ => Action.within_fail _ _
  unfold handleMessage
  split
  · refine Action.Within.check fun _ => ?_
    have hkeeps : (onTxAnnounce message.payload).Keeps (·.persist = persist) :=
      onTxAnnounce_keeps acceptTransaction_keeps_persist minedKeep_persist _
    refine Action.Within.bind (onTxAnnounce_within message.payload).attempt
      (Action.keeps_attempt hkeeps) fun outcome => ?_
    cases outcome with
    | ok _ => exact Action.within_pure _ _
    | error e => exact hrefuse e _
  · exact Action.Within.check fun _ => hblock
  · exact Action.Within.check fun _ => (onBlockRequest_within _).mono hsend
  · exact Action.Within.check fun _ => hblock
  · exact Action.Within.check fun _ => Action.Within.check fun _ =>
      (sendMessage_within _).mono hsend
  · exact Action.within_pure _ _
  · exact (hrefuse _ _).mono hsend

theorem restoreTransactions_within (txs : List Transaction) :
    (restoreTransactions txs).Within (·.persist = persist) (NodePermitted persist) LinkOp.calls
      2 := by
  refine Action.Within.mono (n := 0) ?_ (Nat.zero_le 2)
  induction txs with
  | nil => exact Action.within_pure _ _
  | cons tx rest ih =>
    have haccept : (acceptTransaction tx).Within (·.persist = persist) (NodePermitted persist)
        LinkOp.calls 0 := Action.within_ret (fun _ => ⟨_, rfl⟩) 0
    refine Action.Within.bind (k := 0) haccept.attempt
      (Action.keeps_attempt (acceptTransaction_keeps_persist tx)) fun outcome => ?_
    cases outcome with
    | ok _ => exact ih
    | error e => exact Action.within_fail _ _

theorem mineAndPersist_within (config : NodeConfig) :
    (mineAndPersist config).Within (·.persist = config.persist) (NodePermitted config.persist)
      LinkOp.calls 2 := by
  refine Action.Within.bind (k := 1) (mineBlocks_within _) (mineBlocks_keeps minedKeep_persist _)
    fun _ => ?_
  split
  · exact persistLedger_within
  · exact Action.within_pure _ _

end PeerState

/-! The server. -/

section Sessions
variable {persist : Bool}

theorem serveRelayHandshake_within :
    serveRelayHandshake.Within (·.persist = persist) (NodePermitted persist) LinkOp.calls
      (frameCalls + frameCalls) := by
  refine Action.Within.bind recvMessage_within recvMessage_keeps fun inbound => ?_
  refine Action.Within.check fun _ => Action.Within.state_bind fun state => ?_
  exact Action.Within.check sendMessage_within

theorem relayMessageLoop_within (n : Nat) :
    (relayMessageLoop n).Within (·.persist = persist) (NodePermitted persist) LinkOp.calls
      (n * (frameCalls + messageCalls)) := by
  induction n with
  | zero => exact Action.within_fail _ _
  | succ n ih =>
    have hturn : (n + 1) * (frameCalls + messageCalls) =
        frameCalls + (messageCalls + n * (frameCalls + messageCalls)) := by ring
    rw [hturn]
    refine Action.Within.bind recvMessage_within.attempt (Action.keeps_attempt recvMessage_keeps)
      fun inbound => ?_
    cases inbound with
    | ok message =>
      exact (PeerState.handleMessage_within message).bind
        (PeerState.handleMessage_keeps_persist message) fun _ => ih
    | error e =>
      dsimp only
      split
      · exact Action.within_pure _ _
      · exact Action.within_fail _ _

theorem serveRelayConnection_within :
    serveRelayConnection.Within (·.persist = persist) (NodePermitted persist) LinkOp.calls
      sessionCalls := by
  refine serveRelayHandshake_within.bind serveRelayHandshake_keeps fun _ => ?_
  refine (relayMessageLoop_within kMaxRelayMessages).bind
    (relayMessageLoop_keeps PeerState.handleMessage_keeps_persist _) fun _ => ?_
  refine Action.Within.bind (k := 0) PeerState.persistLedger_within PeerState.persistLedger_keeps
    fun _ => ?_
  exact Action.Within.state_bind fun state => Action.within_pure _ _

end Sessions

def ServerPermitted (persist : Bool) : ServerOp → Prop
  | .conn (.send data) => data.length ≤ kMaxP2pFrameBytes.toNat
  | .conn (.recv room) => room ≤ kMaxP2pFrameBytes.toNat
  | .conn (.loc (.writeLedger _ bytes)) => persist = true ∧ bytes.length ≤ maxLedgerBytes
  | _ => True

theorem onConnection_within {α : Type} {persist : Bool} {p : NodeProcess α} {n : Nat}
    (h : p.Within (NodePermitted persist) LinkOp.calls n) :
    (onConnection p).Within (ServerPermitted persist) (fun _ => 1) n := by
  have hnative : (onSocket p).Within (fun op => ServerPermitted persist (.conn op)) (fun _ => 1)
      n := by
    refine Process.Within.interp (nativeIo_within nativeErrors ?_ ?_ ?_) h
    · exact fun data chunk hdata hchunk => hchunk.trans hdata
    · exact fun count room hcount hroom => hroom.trans hcount
    · intro op hop
      cases op
      exact hop
  have hcall : ∀ op, ServerPermitted persist (.conn op) →
      (Process.call (.conn op) .ret : ServerProcess (NativeOp.Answer StoreOp.Answer op)).Within
        (ServerPermitted persist) (fun _ => 1) 1 := fun op hop => ⟨hop, le_rfl, fun _ => trivial⟩
  exact hnative.interp hcall

theorem acceptLoop_within {persist : Bool} (k : Nat) (n : UInt32) (result : RelayServerResult) :
    (acceptLoop k n result).Within (·.persist = persist) (ServerPermitted persist) (fun _ => 1)
      (k * (1 + sessionCalls)) := by
  induction k generalizing n result with
  | zero => exact Action.within_pure _ _
  | succ k ih =>
    have hnext : serveNext.Within (·.persist = persist) (ServerPermitted persist) (fun _ => 1)
        (1 + sessionCalls) := by
      have hok : ServerPermitted persist .accept := trivial
      refine Action.within_perform_bind hok fun client => Action.Within.check fun _ => ?_
      exact fun state hstate => onConnection_within (serveRelayConnection_within state hstate)
    have hbudget : (1 + sessionCalls) + k * (1 + sessionCalls) = (k + 1) * (1 + sessionCalls) := by
      ring
    rw [← hbudget]
    exact hnext.bind (serveNext_keeps PeerState.handleMessage_keeps_persist) fun session => ih _ _

theorem PeerState.fromConfig_within (config : NodeConfig) (dir : DataDir) :
    (fromConfig config dir).Within (NodePermitted config.persist) LinkOp.calls 2 := by
  have hlaunch : ∀ {work : PeerAction Unit} {state : PeerState},
      work.Within (·.persist = config.persist) (NodePermitted config.persist) LinkOp.calls 2 →
      state.persist = config.persist →
      (launch work state).Within (NodePermitted config.persist) LinkOp.calls 2 :=
    fun hwork hstate => (hwork _ hstate).map _
  unfold fromConfig
  split
  · trivial
  · split
    · split
      · trivial
      · split
        · trivial
        · split
          · trivial
          · refine hlaunch (restoreTransactions_within _) ?_
            rw [storeBlocks_eq]
            rfl
    · split
      · trivial
      · exact hlaunch (mineAndPersist_within config) rfl

theorem serverStep_within {α β : Type} {ok : ServerOp → Prop} {p : ServerProcess (Result α)}
    {next : α → ServerProcess (Result β)} {n m : Nat} (hp : p.Within ok (fun _ => 1) n)
    (hnext : ∀ a, p.Returns (.ok a) → (next a).Within ok (fun _ => 1) m) :
    (serverStep p next).Within ok (fun _ => 1) (n + m) := by
  refine hp.bind fun r hr => ?_
  cases r with
  | ok a => exact hnext a hr
  | error e => trivial

def sessionLimit (config : NodeConfig) (options : RelayServerOptions) : UInt32 :=
  if options.maxSessions ≠ 0 then options.maxSessions else config.relayMaxSessions

theorem runRelayServer_within (config : NodeConfig) (options : RelayServerOptions) (dir : DataDir) :
    (runRelayServer config options dir).Within (ServerPermitted config.persist) (fun _ => 1)
      (1 + (1 + (1 + (2 + (sessionLimit config options).toNat * (1 + sessionCalls))))) := by
  have hcall : ∀ op, ServerPermitted config.persist op →
      (Process.call op .ret : ServerProcess (ServerOp.Answer op)).Within
        (ServerPermitted config.persist) (fun _ => 1) 1 :=
    fun op hop => ⟨hop, le_rfl, fun _ => trivial⟩
  have hpublish : ∀ port, (publishListenPort config port).Within (ServerPermitted config.persist)
      (fun _ => 1) 1 := by
    intro port
    unfold publishListenPort
    split
    · trivial
    · exact hcall (.writePortFile config.portFile port) trivial
  have hlimit : (if options.maxSessions ≠ 0 then options.maxSessions else config.relayMaxSessions) =
      sessionLimit config options := rfl
  unfold runRelayServer
  rw [hlimit]
  dsimp only
  by_cases hnone : sessionLimit config options = 0
  · rw [if_pos hnone]
    trivial
  · rw [if_neg hnone]
    refine serverStep_within (hcall (.bind _ _) trivial) fun _ _ => ?_
    refine serverStep_within (hcall .boundPort trivial) fun port _ => ?_
    refine serverStep_within (hpublish port) fun _ _ => ?_
    refine serverStep_within (onConnection_within (PeerState.fromConfig_within config dir))
      fun state hstate => ?_
    have hbuilt := Process.Returns.of_interp (Process.Returns.of_interp hstate)
    have hreached : Reached config dir anyOp state := .start hbuilt
    exact (acceptLoop_within _ _ _ state hreached.inv.persist_eq).map _

/-- Whatever its peers send and however the platform answers, a server issues no more calls
than its configuration fixes, never hands the sockets a buffer larger than a frame, and writes
no ledger unless it is to persist, and then none larger than the format allows. -/
theorem relay_server_bounded {W : Type} {env : Env ServerOp ServerOp.Answer W} {config : NodeConfig}
    {options : RelayServerOptions} {dir : DataDir} {w v : W} {ops : List ServerOp}
    {rest : ServerProcess (Result RelayServerResult)}
    (h : (runRelayServer config options dir).RunsTo env w ops rest v) :
    ops.length ≤ 5 + (sessionLimit config options).toNat * (1 + sessionCalls) ∧
    ∀ op ∈ ops, ServerPermitted config.persist op := by
  obtain ⟨hall, hsum⟩ := (runRelayServer_within config options dir).runs h
  rw [List.map_const', List.sum_replicate_nat, Nat.mul_one] at hsum
  exact ⟨by omega, hall⟩

/-- A server that has served two peers. -/
theorem pair_server_bounded :
    ∃ first second ops result v, (runRelayServer rewardConfig ⟨2⟩ ⟨none, none⟩).RunsTo serverEnv
        ⟨[first, second], ⟨[], [], false⟩⟩ ops (.ret (.ok result)) v ∧
      result.sessionsCompleted = 2 ∧ ops.length ≤ 5 + 2 * (1 + sessionCalls) ∧
      ∀ op ∈ ops, ServerPermitted false op := by
  obtain ⟨first, second, hsessions, _⟩ := announcing_pair_polite
  have hserved : (runRelayServer rewardConfig ⟨2⟩ ⟨none, none⟩).Always serverEnv
      ⟨[first, second], ⟨[], [], false⟩⟩ fun out _ =>
        ∃ r, out = .ok r ∧ r.sessionsCompleted = 2 := by
    refine (runRelayServer_always (by decide) rewardConfig_comesUp).mpr fun port => ?_
    refine (hsessions.serves_upto rfl port (UInt32.le_refl 2)).mono ?_
    exact fun _ _ hout => hout.1
  obtain ⟨ops, _, v, hrun, result, rfl, hcount⟩ := hserved.runs
  have hlimit : (sessionLimit rewardConfig ⟨2⟩).toNat = 2 := rfl
  obtain ⟨hcalls, hpermitted⟩ := relay_server_bounded hrun
  rw [hlimit] at hcalls
  exact ⟨first, second, ops, result, v, hrun, hcount, hcalls, hpermitted⟩

end Blockchain
