import Blockchain.RelaySync

/-! The client's block-request loop against any server. A server is free to answer each
request as it likes, so the heights asked for are read off the loop heads that the client
can reach, whatever its link answers. -/
namespace Blockchain
open Lib

/-- The heights that the sync loop has asked for on some way from a loop head. -/
inductive Requests (persist : Bool) (options : RelayClientOptions) (peer : HandshakePayload) :
    UInt32 → PeerState → List UInt32 → Prop where
  | none (next : UInt32) (client : PeerState) : Requests persist options peer next client []
  | sent {next : UInt32} {client : PeerState} (h : next ≤ peer.height) :
      Requests persist options peer next client [next]
  | answered {next next' : UInt32} {client client' : PeerState} {heights : List UInt32}
      (h : next ≤ peer.height)
      (hagain : (relayClient persist options (.syncing peer next client)).Returns
        (.again (.syncing peer next' client')))
      (hrest : Requests persist options peer next' client' heights) :
      Requests persist options peer next client (next :: heights)

section
variable {persist : Bool} {options : RelayClientOptions} {peer : HandshakePayload}
  {next next' : UInt32} {client client' : PeerState} {heights : List UInt32}

theorem syncing_again (h : next ≤ peer.height) :
    (relayClient persist options (.syncing peer next client)).Returns
        (.again (.syncing peer next' client')) ↔
      next' = next + 1 ∧ (requestBlock next client).Returns (.ok (), client') := by
  rw [relayClient, if_pos h, clientStep, Process.returns_bind]
  constructor
  · intro hret
    obtain ⟨⟨x, s⟩, hx, hret⟩ := hret
    cases x with
    | error e => cases hret
    | ok u =>
      cases hret
      exact ⟨rfl, hx⟩
  · intro hret
    obtain ⟨rfl, hx⟩ := hret
    exact ⟨(.ok (), client'), hx, .ret _⟩

theorem Requests.bounded (hpeer : peer.height ≠ kUint32Max)
    (h : Requests persist options peer next client heights) :
    heights.length ≤ peer.height.toNat + 1 - next.toNat ∧ heights.Pairwise (· < ·) ∧
      ∀ height ∈ heights, next ≤ height := by
  induction h with
  | none next client => simp
  | @sent next client hle =>
    rw [UInt32.le_iff_toNat_le] at hle
    exact ⟨by simp; omega, by simp, by simp⟩
  | @answered next next' client client' heights hle hagain _ ih =>
    obtain ⟨rfl, _⟩ := (syncing_again hle).mp hagain
    obtain ⟨hlen, hsorted, hle'⟩ := ih
    rw [UInt32.le_iff_toNat_le] at hle
    have hmax : peer.height.toNat < 4294967295 := by
      have hlt := peer.height.toNat_lt
      have hne : peer.height.toNat ≠ 4294967295 := fun heq => hpeer (UInt32.toNat_inj.mp heq)
      omega
    have hnext : (next + 1).toNat = next.toNat + 1 := by
      rw [UInt32.toNat_add, UInt32.toNat_one]
      exact Nat.mod_eq_of_lt (by omega)
    have hbelow : ∀ height ∈ heights, next < height := by
      intro height hmem
      have hge := hle' height hmem
      rw [UInt32.le_iff_toNat_le, hnext] at hge
      exact UInt32.lt_iff_toNat_lt.mpr hge
    refine ⟨?_, List.pairwise_cons.mpr ⟨hbelow, hsorted⟩, ?_⟩
    · rw [List.length_cons]
      omega
    · intro height hmem
      obtain rfl | hmem := List.mem_cons.mp hmem
      · exact UInt32.le_refl _
      · exact UInt32.le_of_lt (hbelow height hmem)

theorem sendMessage_returns {message : P2pMessage} (h : message.Sendable) (state : PeerState) :
    (sendMessage message state).Returns (.ok (), state) := by
  rw [sendMessage_call h, Process.returns_call]
  exact ⟨.ok (), .call (r := .ok ()) (.ret _)⟩

theorem recvMessage_returns {message : P2pMessage} (h : message.Sendable) (state : PeerState) :
    (recvMessage state).Returns (.ok message, state) := by
  obtain ⟨k, hk, _, hbody⟩ := recvMessage_call state
  obtain ⟨k', hk', hret⟩ := hbody message h
  rw [hk]
  refine .call (r := .ok (frameLength message)) ?_
  rw [hk']
  refine .call (r := .ok message.toBytes) ?_
  rw [hret]
  exact .ret _

theorem requestBlock_pong (next : UInt32) (client : PeerState) :
    (requestBlock next client).Returns (.ok (), client) := by
  have hpong : (makeMessage .pong (serializePong ⟨0⟩)).Sendable :=
    ⟨rfl, by simp [makeMessage, serializePong, serializePing, kMaxP2pPayloadBytes]⟩
  rw [requestBlock_eq, Action.bind_run, Process.returns_bind]
  refine ⟨_, sendMessage_returns (blockRequestMessage_sendable next) client, ?_⟩
  simp only [Action.bind_run, Process.returns_bind]
  exact ⟨_, recvMessage_returns hpong client, .ret _⟩

theorem requests_pongs (n : Nat) (h : ∀ i < n, next + UInt32.ofNat i ≤ peer.height) :
    ∃ heights, heights.length = n ∧ Requests persist options peer next client heights := by
  induction n generalizing next with
  | zero => exact ⟨[], rfl, .none next client⟩
  | succ n ih =>
    have hhead : next ≤ peer.height := by simpa using h 0 (by omega)
    have hrest : ∀ i < n, next + 1 + UInt32.ofNat i ≤ peer.height := by
      intro i hi
      have hle := h (i + 1) (by omega)
      rw [UInt32.ofNat_add, UInt32.add_comm (UInt32.ofNat i), ← UInt32.add_assoc] at hle
      exact hle
    obtain ⟨heights, hlen, hrest⟩ := ih hrest
    refine ⟨next :: heights, by rw [List.length_cons, hlen], .answered hhead ?_ hrest⟩
    exact (syncing_again hhead).mpr ⟨rfl, requestBlock_pong next client⟩

/-- No height is above the largest one, so nothing stops the loop there. -/
theorem requests_forever (hpeer : peer.height = kUint32Max) (n : Nat) :
    ∃ heights, heights.length = n ∧ Requests persist options peer next client heights :=
  requests_pongs n fun i _ => hpeer ▸ UInt32.le_iff_toNat_le.mpr (by
    have hlt := (next + UInt32.ofNat i).toNat_lt
    have hmax : kUint32Max.toNat = 4294967295 := rfl
    omega)

end

/-- The requests of the sync loop are bounded by the announced height and increase, against
every server, exactly if neither end stands at the largest height. -/
theorem sync_requests_bounded_iff (persist : Bool) (options : RelayClientOptions)
    (peer : HandshakePayload) (client : PeerState) :
    (∀ heights, Requests persist options peer (client.height + 1) client heights →
      heights.length ≤ peer.height.toNat - client.height.toNat ∧ heights.Pairwise (· < ·)) ↔
    client.height ≠ kUint32Max ∧ peer.height ≠ kUint32Max := by
  constructor
  · intro h
    constructor
    · intro hclient
      -- the next height wraps to zero, which every server is asked for
      have hzero : client.height + 1 ≤ peer.height := by
        rw [hclient]
        exact UInt32.le_iff_toNat_le.mpr (Nat.zero_le _)
      have hle := (h [_] (.sent hzero)).1
      rw [hclient] at hle
      have hlt := peer.height.toNat_lt
      have hmax : kUint32Max.toNat = 4294967295 := rfl
      simp only [List.length_cons, List.length_nil] at hle
      omega
    · intro hpeer
      obtain ⟨heights, hlen, hreq⟩ : ∃ heights, heights.length = peer.height.toNat + 1 ∧
          Requests persist options peer (client.height + 1) client heights :=
        requests_forever hpeer _
      have hle := (h heights hreq).1
      omega
  · intro h heights hreq
    obtain ⟨hlen, hsorted, _⟩ := hreq.bounded h.2
    have hnext : (client.height + 1).toNat = client.height.toNat + 1 := by
      have hlt := client.height.toNat_lt
      have hne : client.height.toNat ≠ 4294967295 := fun heq => h.1 (UInt32.toNat_inj.mp heq)
      rw [UInt32.toNat_add, UInt32.toNat_one]
      exact Nat.mod_eq_of_lt (by omega)
    exact ⟨by omega, hsorted⟩

/-- A fresh client asks a server at the largest height for more blocks than there are
heights above its own. -/
theorem sync_never_stops :
    ∃ heights, kUint32Max.toNat - (genesisNode {}).height.toNat < heights.length ∧
      Requests false {} ⟨kNetworkMagic, kUint32Max, zeroHash, [0x61]⟩
        ((genesisNode {}).height + 1) (genesisNode {}) heights := by
  obtain ⟨heights, hlen, hreq⟩ : ∃ heights, heights.length = kUint32Max.toNat + 1 ∧
      Requests false {} ⟨kNetworkMagic, kUint32Max, zeroHash, [0x61]⟩
        ((genesisNode {}).height + 1) (genesisNode {}) heights := requests_forever rfl _
  exact ⟨heights, by omega, hreq⟩

end Blockchain
