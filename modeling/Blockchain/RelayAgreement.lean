import Blockchain.RelayCompleteness
import Blockchain.Sha256Eval

/-! Agreement after the sync phase. The client compares heights only, so it ends on the
server's tip whenever it has pulled a block; two chains of one height are never compared. -/
namespace Blockchain
open Lib

/-- At the server's height the client stands on the server's tip. -/
def AgreesAtTop (client server : PeerState) : Prop :=
  client.height = server.height → server.height ≠ kUint32Max → client.tipHash = server.tipHash

/-- The client has failed, or has passed its height check on the announced tip. -/
def SyncSettled (server : PeerState) (s : RelaySession) : Prop :=
  ClientFailed s ∨ ∃ client, s.left = .ret (.again (.synced server.localHandshake client)) ∧
    client.tipHash = server.tipHash

theorem ne_max_of_not_le {n m : UInt32} (h : ¬ n ≤ m) : m ≠ kUint32Max := by
  intro he
  rw [he, UInt32.le_iff_toNat_le] at h
  have hmax : kUint32Max.toNat = 2 ^ 32 - 1 := by decide
  have hlt := n.toNat_lt
  omega

section Rounds
variable {persist : Bool} {options : RelayClientOptions} {config : NodeConfig}
  {params : ConsensusParams} {server : PeerState}

theorem sync_exit (n : Nat) {next : UInt32} (client : PeerState)
    (hnext : ¬ next ≤ server.localHandshake.height) (hagrees : AgreesAtTop client server) :
    Until (RelayStep persist options) NotSynced (SyncSettled server)
      ⟨.ret (.again (.syncing server.localHandshake next client)),
        serverParty (serveRelayMessages n) server, [], []⟩ := by
  by_cases hheight : client.height = server.localHandshake.height
  · refine sync_passed hnext hheight (serverParty_quiet server _) (.inr ⟨client, rfl, ?_⟩)
    exact hagrees hheight (ne_max_of_not_le hnext)
  · exact sync_refused hnext hheight (serverParty_quiet server _) fun s h => .inl h

theorem sync_settles (hserver : server.Inv config params) (n : Nat) (next : UInt32)
    (client : PeerState) (hpersist : client.persist = false) (hagrees : AgreesAtTop client server) :
    Until (RelayStep persist options) NotSynced (SyncSettled server)
      ⟨.ret (.again (.syncing server.localHandshake next client)),
        serverParty (serveRelayMessages n) server, [], []⟩ := by
  have hfail : ∀ s, ClientFailed s → SyncSettled server s := fun s h => .inl h
  -- on the messages the server may still take: each round fails the client or puts it on a block
  -- of the server
  induction n generalizing next client with
  | zero =>
    by_cases hnext : next ≤ server.localHandshake.height
    · exact round_closed hnext hfail (serverParty_exhausted server)
    · exact sync_exit 0 client hnext hagrees
  | succ n ih =>
    by_cases hnext : next ≤ server.localHandshake.height
    · obtain ⟨block, hfound, hsane, hblock, htop⟩ := hserver.served hnext
      by_cases hfit : block.toBytes.length + 4 ≤ kMaxP2pPayloadBytes.toNat
      · refine round_reply hnext hpersist hfound hsane hfit ?_
        obtain ⟨e, _, hrun⟩ | ⟨fees, chain, pool, _, htip, hrun⟩ :=
          pulled_cases server.localHandshake next client block
        · exact .now (.inl ⟨e, hrun⟩)
        · rw [hrun]
          refine ih (next + 1) _ hpersist ?_
          intro hheight _
          have hat : next = server.height := by
            rw [← hblock, ← htip]
            exact hheight
          change chain.tip.hash = server.chain.tip.hash
          rw [htip, htop hat]
      · exact round_oversize hnext hfail hfound hsane hfit
    · exact sync_exit (n + 1) client hnext hagrees

theorem session_settles (hserver : server.Inv config params) {client : PeerState}
    (hpersist : client.persist = false)
    (hagrees : ValidNodeId client.nodeId → ValidNodeId server.nodeId → AgreesAtTop client server) :
    Until (RelayStep persist options) NotSynced (SyncSettled server)
      (relaySession client server) := by
  by_cases hids : ValidNodeId client.nodeId ∧ ValidNodeId server.nodeId
  · exact handshake_done hids.1 hids.2
      (sync_settles hserver _ _ client hpersist (hagrees hids.1 hids.2))
  · exact (handshake_failed hids).mono (fun _ h => h) (fun _ h => .inl h)

end Rounds

/-! What follows the height check. -/

theorem clientStep_ends {α : Type} (m : PeerAction α) (state : PeerState)
    (result : α → PeerState → Result RelayClientResult) :
    (clientStep m state fun a s => .done (result a s)).Ends := by
  intro point h
  obtain ⟨⟨r, s⟩, _, hr⟩ := Process.returns_bind.mp h
  cases r with
  | ok a => cases hr
  | error e => cases hr

theorem SyncSettled.run {persist : Bool} {options : RelayClientOptions} {server client : PeerState}
    {peer : HandshakePayload} {s t : RelaySession} (h : SyncSettled server s)
    (hrun : Relation.ReflTransGen (RelayStep persist options) s t)
    (hsynced : t.left = .ret (.again (.synced peer client))) : client.tipHash = peer.tipHash := by
  have hnot : ¬ t.left.Ends := by
    intro hends
    refine hends (.synced peer client) ?_
    rw [hsynced]
    exact .ret _
  cases h with
  | inl hfailed =>
    obtain ⟨e, he⟩ := hfailed
    have hends : s.left.Ends := by
      intro point hr
      rw [he] at hr
      cases hr
    exact absurd (Session.ends_left hends hrun) hnot
  | inr hagreed =>
    obtain ⟨agreed, hleft, htip⟩ := hagreed
    have hbody : (relayClient persist options (.synced server.localHandshake agreed)).Ends :=
      clientStep_ends _ agreed fun result _ => .ok result
    cases Session.last_point_left hleft hbody hrun with
    | inl hpoint =>
      rw [hsynced] at hpoint
      cases hpoint
      exact htip
    | inr hends => exact absurd hends hnot

theorem equal_heights_pass {persist : Bool} {options : RelayClientOptions}
    {client server : PeerState}
    (hheight : client.height = server.height) (hmax : server.height ≠ kUint32Max)
    (hclient : ValidNodeId client.nodeId) (hserver : ValidNodeId server.nodeId) :
    ∃ t, Relation.ReflTransGen (RelayStep persist options) (relaySession client server) t ∧
      t.left = .ret (.again (.synced server.localHandshake client)) := by
  have hnext : ¬ client.height + 1 ≤ server.localHandshake.height := by
    have hlt := server.height.toNat_lt
    have hne : server.height.toNat ≠ kUint32Max.toNat := fun he => hmax (UInt32.toNat_inj.mp he)
    have hval : kUint32Max.toNat = 2 ^ 32 - 1 := by decide
    have hone : (1 : UInt32).toNat = 1 := rfl
    change ¬ client.height + 1 ≤ server.height
    rw [hheight, UInt32.le_iff_toNat_le, UInt32.toNat_add, hone]
    omega
  have hrun : Until (RelayStep persist options) NotSynced
      (fun s => s.left = .ret (.again (.synced server.localHandshake client)))
      (relaySession client server) :=
    handshake_done hclient hserver (sync_passed hnext hheight (serverParty_quiet server _) rfl)
  exact hrun.reaches

/-- Every run that passes the height check agrees with the announced tip exactly when the
two nodes do not stand at one height with different tips. -/
theorem relay_agreement_iff {sconfig cconfig : NodeConfig} {sdir cdir : DataDir}
    {server client : PeerState} (hserver : Reached sconfig sdir anyOp server)
    (hclient : Reached (bootstrapConfig cconfig) cdir anyOp client) (options : RelayClientOptions) :
    (∀ t peer state,
      Relation.ReflTransGen (RelayStep cconfig.persist options) (relaySession client server) t →
      t.left = .ret (.again (.synced peer state)) → state.tipHash = peer.tipHash) ↔
    ¬ (client.height = server.height ∧ server.height ≠ kUint32Max ∧
      client.tipHash ≠ server.tipHash ∧
      ValidNodeId client.nodeId ∧ ValidNodeId server.nodeId) := by
  constructor
  · intro hall hdiff
    obtain ⟨hheight, hmax, htips, hcid, hsid⟩ := hdiff
    obtain ⟨t, ht, hleft⟩ := equal_heights_pass hheight hmax hcid hsid
    exact htips (hall t _ client ht hleft)
  · intro hnot t peer state ht hleft
    have hagrees : ValidNodeId client.nodeId → ValidNodeId server.nodeId →
        AgreesAtTop client server := by
      intro hcid hsid hheight hmax
      by_contra htips
      exact hnot ⟨hheight, hmax, htips, hcid, hsid⟩
    have hsettled : Until (RelayStep cconfig.persist options) NotSynced (SyncSettled server)
        (relaySession client server) :=
      session_settles hserver.inv hclient.inv.persist_eq hagrees
    cases hsettled.safe ht with
    | inl hq => exact absurd hleft (hq peer state)
    | inr hu =>
      obtain ⟨u, hu, hut⟩ := hu
      exact hu.run hut hleft

theorem rewarded_server_synced :
    ∃ t, Relation.ReflTransGen (RelayStep false {})
      (relaySession (genesisNode rewardConfig) rewardedNode) t ∧ SyncedWith rewardedNode t := by
  have hreached : Reached rewardConfig ⟨none, none⟩ anyOp rewardedNode :=
    rewardedNode_reached trivial
  obtain ⟨blocks, hacc, hcat⟩ := hreached.inv.history
  obtain rfl : [buildGenesisBlock rewardConfig] ++ [rewardBlock] = blocks := hcat.values_eq
  have hclient : Accepted ⟨50, 1⟩ [buildGenesisBlock rewardConfig]
      (genesisNode rewardConfig).chain :=
    .create (create_genesis rewardConfig _)
  have hmax : rewardedNode.height ≠ kUint32Max := by
    change (1 : UInt32) ≠ kUint32Max
    decide
  have hfit : rewardBlock.toBytes.length + 4 ≤ kMaxP2pPayloadBytes.toNat := by
    rw [rewardBlock_fits]
    decide
  have hrun : Until (RelayStep false {}) NotSynced (SyncedWith rewardedNode)
      (relaySession (genesisNode rewardConfig) rewardedNode) :=
    handshake_done defaultNodeId_valid defaultNodeId_valid
      (sync_completes [rewardBlock] _ _ _ _ hacc
      hcat hmax hclient rfl rfl (by decide) (List.forall_mem_singleton.mpr hfit))
  exact hrun.reaches

/-- The client passes its height check one block higher, on the announced tip. -/
theorem relay_agreement_pulled :
    Reached rewardConfig ⟨none, none⟩ anyOp rewardedNode ∧
    (genesisNode rewardConfig).height = 0 ∧
    ∃ t peer state,
      Relation.ReflTransGen (RelayStep false {})
        (relaySession (genesisNode rewardConfig) rewardedNode) t ∧
      t.left = .ret (.again (.synced peer state)) ∧ state.height = 1 ∧
      state.tipHash = peer.tipHash := by
  have hreached : Reached rewardConfig ⟨none, none⟩ anyOp rewardedNode :=
    rewardedNode_reached trivial
  have hclient : Reached (bootstrapConfig rewardConfig) ⟨none, none⟩ anyOp
      (genesisNode rewardConfig) := genesisNode_reached rfl rfl rfl rfl _ _
  obtain ⟨t, ht, state, hleft, htip, _⟩ := rewarded_server_synced
  have hheights : (genesisNode rewardConfig).height ≠ rewardedNode.height := by
    change (0 : UInt32) ≠ 1
    decide
  refine ⟨hreached, rfl, t, _, state, ht, hleft, ?_, ?_⟩
  · change state.chain.tip.height = 1
    rw [htip]
    rfl
  · exact (relay_agreement_iff hreached hclient {}).mpr (fun h => hheights h.1) t _ state ht hleft

/-! Two networks that differ in the time of their genesis block. -/

def laterGenesis : NodeConfig := { genesisTimestamp := 1 }

set_option maxRecDepth 100000 in
theorem laterGenesis_hash :
    (buildGenesisBlock {}).header.hash ≠ (buildGenesisBlock laterGenesis).header.hash := by
  apply WordState.sha256d_ne
  decide +kernel

/-- A client of one network passes the height check against a server of the other. -/
theorem forked_genesis_passes :
    Reached laterGenesis ⟨none, none⟩ anyOp (genesisNode laterGenesis) ∧
    Reached (bootstrapConfig {}) ⟨none, none⟩ anyOp (genesisNode {}) ∧
    ∃ t peer state,
      Relation.ReflTransGen (RelayStep false {})
        (relaySession (genesisNode {}) (genesisNode laterGenesis)) t ∧
      t.left = .ret (.again (.synced peer state)) ∧ state.tipHash ≠ peer.tipHash := by
  have hmax : (genesisNode laterGenesis).height ≠ kUint32Max := by
    change (0 : UInt32) ≠ kUint32Max
    decide
  have hheight : (genesisNode {}).height = (genesisNode laterGenesis).height := rfl
  obtain ⟨t, ht, hleft⟩ := equal_heights_pass hheight hmax defaultNodeId_valid defaultNodeId_valid
  exact ⟨genesisNode_reached rfl rfl rfl rfl _ _, genesisNode_reached rfl rfl rfl rfl _ _,
    t, _, _, ht, hleft, laterGenesis_hash⟩

end Blockchain
