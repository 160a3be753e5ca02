import Blockchain.RelaySync

/-! Completeness of the sync phase. Each missing block costs the server one message of its
budget: a client that is missing no more than that always ends on the server's chain, a
client that is missing more always fails. -/
namespace Blockchain
open Lib

/-- The client has passed its height check on the server's chain. -/
def SyncedWith (server : PeerState) (s : RelaySession) : Prop :=
  ∃ client, s.left = .ret (.again (.synced server.localHandshake client)) ∧
    client.chain.tip = server.chain.tip ∧ client.chain.utxos = server.chain.utxos

theorem toNat_succ_of_lt {n m : UInt32} (h : n.toNat < m.toNat) : (n + 1).toNat = n.toNat + 1 := by
  have hlt := m.toNat_lt
  have hone : (1 : UInt32).toNat = 1 := rfl
  rw [UInt32.toNat_add, hone]
  omega

section Rounds
variable {persist : Bool} {options : RelayClientOptions} {params : ConsensusParams}
  {server : PeerState}

theorem sync_completes (missing : List Block) (held : List Block) (n : Nat) (next : UInt32)
    (client : PeerState) (hserver : Accepted params (held ++ missing) server.chain)
    (hcat : CatalogOf (held ++ missing) server.catalog) (hmax : server.height ≠ kUint32Max)
    (hclient : Accepted params held client.chain) (hpersist : client.persist = false)
    (hnext : next.toNat = held.length) (hbudget : missing.length ≤ n)
    (hfit : ∀ block ∈ missing, block.toBytes.length + 4 ≤ kMaxP2pPayloadBytes.toNat) :
    Until (RelayStep persist options) NotSynced (SyncedWith server)
      ⟨.ret (.again (.syncing server.localHandshake next client)),
        serverParty (serveRelayMessages n) server, [], []⟩ := by
  have hlen : server.height.toNat + 1 = (held ++ missing).length := hserver.height_eq
  -- on the missing blocks: the server has the next one and the client's chain accepts it
  induction missing generalizing held n next client with
  | nil =>
    rw [List.append_nil] at hserver hlen
    have hsame : client.chain = server.chain := hclient.unique hserver
    have hover : ¬ next ≤ server.localHandshake.height := by
      change ¬ next ≤ server.height
      rw [UInt32.le_iff_toNat_le]
      omega
    have hheight : client.height = server.localHandshake.height := congrArg Chain.height hsame
    exact sync_passed hover hheight (serverParty_quiet server _)
      ⟨client, rfl, congrArg Chain.tip hsame, congrArg Chain.utxos hsame⟩
  | cons block rest ih =>
    cases n with
    | zero => simp at hbudget
    | succ n =>
      rw [List.length_append, List.length_cons] at hlen
      have hle : next ≤ server.localHandshake.height := by
        change next ≤ server.height
        rw [UInt32.le_iff_toNat_le]
        omega
      have hfound : server.blockAtHeight next = some block := by
        rw [PeerState.blockAtHeight, hcat.find?_eq fun _ _ hi => hserver.block_height hi, hnext]
        simp
      have hsane : block.Sane := hserver.block_sane block (by simp)
      refine round_reply hle hpersist hfound hsane (hfit block (by simp)) ?_
      obtain ⟨fees, chain, hs⟩ := hclient.next_block hserver
      obtain ⟨hlinks, hconnect, _⟩ := Chain.submitBlock_ok.mp hs
      have hpool : client.chain.submitBlock block (some client.mempool) = .ok (fees, chain, _) :=
        Chain.submitBlock_ok.mpr ⟨hlinks, hconnect, rfl⟩
      obtain ⟨e, herr, _⟩ | ⟨fees', chain', pool, hs', _, hrun⟩ :=
        pulled_cases server.localHandshake next client block
      · rw [hpool] at herr
        cases herr
      · rw [hpool] at hs'
        cases hs'
        rw [hrun]
        have happ : held ++ block :: rest = held ++ [block] ++ rest := by simp
        rw [happ] at hserver hcat
        have hbelow : next.toNat < kUint32Max.toNat := by
          have hlt := server.height.toNat_lt
          have hne : server.height.toNat ≠ kUint32Max.toNat :=
            fun he => hmax (UInt32.toNat_inj.mp he)
          have hval : kUint32Max.toNat = 2 ^ 32 - 1 := by decide
          omega
        refine ih (held ++ [block]) n (next + 1) _ hserver hcat (hclient.submit hs) hpersist ?_
          (by simpa using hbudget) (fun b hb => hfit b (List.mem_cons_of_mem _ hb))
          hserver.height_eq
        rw [toNat_succ_of_lt hbelow, hnext, List.length_append, List.length_singleton]

theorem sync_exhausts {config : NodeConfig} (hserver : server.Inv config params) (n : Nat)
    (next : UInt32) (client : PeerState) (hpersist : client.persist = false)
    (hlong : next.toNat + n ≤ server.height.toNat) :
    Until (RelayStep persist options) NotSynced ClientFailed
      ⟨.ret (.again (.syncing server.localHandshake next client)),
        serverParty (serveRelayMessages n) server, [], []⟩ := by
  have hnext : next ≤ server.localHandshake.height := by
    change next ≤ server.height
    rw [UInt32.le_iff_toNat_le]
    omega
  -- on the budget: it is spent before the loop is over
  induction n generalizing next client with
  | zero => exact round_closed hnext (fun _ h => h) (serverParty_exhausted server)
  | succ n ih =>
    obtain ⟨block, hfound, hsane, _, _⟩ := hserver.served hnext
    by_cases hfit : block.toBytes.length + 4 ≤ kMaxP2pPayloadBytes.toNat
    · refine round_reply hnext hpersist hfound hsane hfit ?_
      obtain ⟨e, _, hrun⟩ | ⟨fees, chain, pool, _, _, hrun⟩ :=
        pulled_cases server.localHandshake next client block
      · exact .now ⟨e, hrun⟩
      · rw [hrun]
        have hsucc : (next + 1).toNat = next.toNat + 1 :=
          toNat_succ_of_lt (m := server.height) (by omega)
        have hle : next + 1 ≤ server.localHandshake.height := by
          change next + 1 ≤ server.height
          rw [UInt32.le_iff_toNat_le]
          omega
        exact ih (next + 1) _ hpersist (by omega) hle
    · exact round_oversize hnext (fun _ h => h) hfound hsane hfit

end Rounds

/-- A client whose catalog is an initial part of the server's and that is missing at most as
many blocks as the server takes messages always ends on the server's chain. -/
theorem relay_sync_completes {sconfig cconfig : NodeConfig} {sdir cdir : DataDir}
    {server client : PeerState} (hserver : Reached sconfig sdir anyOp server)
    (hclient : Reached (bootstrapConfig cconfig) cdir anyOp client) (options : RelayClientOptions)
    (hpart : client.ledgerBlocks <+: server.ledgerBlocks)
    (hparams : client.chain.params = server.chain.params)
    (hcid : ValidNodeId client.nodeId) (hsid : ValidNodeId server.nodeId)
    (hmax : server.height ≠ kUint32Max)
    (hgap : server.height.toNat ≤ client.height.toNat + kMaxRelayMessages)
    (hfit : ∀ block ∈ server.ledgerBlocks.drop client.ledgerBlocks.length,
      block.toBytes.length + 4 ≤ kMaxP2pPayloadBytes.toNat) :
    Until (RelayStep cconfig.persist options) NotSynced (SyncedWith server)
      (relaySession client server) := by
  obtain ⟨sblocks, hsacc, hscat⟩ := hserver.inv.history
  obtain ⟨cblocks, hcacc, hccat⟩ := hclient.inv.history
  have hsvalues : server.ledgerBlocks = sblocks := hscat.values_eq
  have hcvalues : client.ledgerBlocks = cblocks := hccat.values_eq
  rw [hsvalues, hcvalues] at hpart hfit
  obtain ⟨missing, rfl⟩ := hpart
  rw [List.drop_left] at hfit
  have hsame : startParams sconfig sdir = startParams (bootstrapConfig cconfig) cdir := by
    rw [← hsacc.params_eq, ← hcacc.params_eq, hparams]
  rw [hsame] at hsacc
  have hslen : server.height.toNat + 1 = (cblocks ++ missing).length := hsacc.height_eq
  have hclen : client.height.toNat + 1 = cblocks.length := hcacc.height_eq
  rw [List.length_append] at hslen
  have hne : server.height.toNat ≠ kUint32Max.toNat := fun he => hmax (UInt32.toNat_inj.mp he)
  have hval : kUint32Max.toNat = 2 ^ 32 - 1 := by decide
  have hlt := server.height.toNat_lt
  have hnext : (client.height + 1).toNat = cblocks.length := by
    rw [toNat_succ_of_lt (m := kUint32Max) (by omega), hclen]
  exact handshake_done hcid hsid (sync_completes missing cblocks _ _ client hsacc hscat hmax hcacc
    hclient.inv.persist_eq hnext (by omega) hfit)

/-! Servers that have grown by empty blocks. -/

def PeerState.grown (state : PeerState) : PeerState :=
  state.connected ⟨state.chain.tip.emptyNext, []⟩
    { state.chain with tip := state.chain.tip.emptyNext }

def PeerState.grownBy (state : PeerState) : Nat → PeerState
  | 0 => state
  | n + 1 => (state.grownBy n).grown

section Growth
variable {config : NodeConfig} {dir : DataDir} {state : PeerState}

theorem Reached.grown (h : Reached config dir anyOp state) (hpersist : state.persist = false)
    (hmax : state.height ≠ kUint32Max) : Reached config dir anyOp state.grown := by
  have hconnect := connectBlock_nil state.chain.tip.emptyNext state.chain.utxos
    state.chain.params rfl
  exact h.announce hpersist (connectBlock_ok hconnect).1 trivial
    (BlockHeader.emptyNext_linksTo hmax) hconnect

theorem Reached.grown_blocks (h : Reached config dir anyOp state)
    (hmax : state.height ≠ kUint32Max) :
    state.grown.ledgerBlocks = state.ledgerBlocks ++ [⟨state.chain.tip.emptyNext, []⟩] := by
  obtain ⟨blocks, hacc, hcat⟩ := h.inv.history
  have hlt : ∀ b ∈ blocks, b.header.height < state.chain.tip.emptyNext.height :=
    hacc.height_lt (BlockHeader.emptyNext_linksTo hmax)
  have hstore : CatalogOf (blocks ++ [⟨state.chain.tip.emptyNext, []⟩]) state.grown.catalog :=
    hcat.store hlt
  have hbefore : state.ledgerBlocks = blocks := hcat.values_eq
  have hafter : state.grown.ledgerBlocks = blocks ++ [⟨state.chain.tip.emptyNext, []⟩] :=
    hstore.values_eq
  rw [hbefore, hafter]

theorem grown_height (hmax : state.height ≠ kUint32Max) :
    state.grown.height.toNat = state.height.toNat + 1 :=
  (BlockHeader.emptyNext_linksTo hmax).height_eq

structure GrownFrom (config : NodeConfig) (dir : DataDir) (state : PeerState) (n : Nat)
    (server : PeerState) : Prop where
  reached : Reached config dir anyOp server
  persist_eq : server.persist = false
  params_eq : server.chain.params = state.chain.params
  height_eq : server.height.toNat = state.height.toNat + n
  blocks : ∃ added, server.ledgerBlocks = state.ledgerBlocks ++ added ∧
    ∀ block ∈ added, block.transactions = []

theorem grownBy_from (h : Reached config dir anyOp state)
    (hpersist : state.persist = false) (n : Nat)
    (hroom : state.height.toNat + n < kUint32Max.toNat) :
    GrownFrom config dir state n (state.grownBy n) := by
  induction n with
  | zero => exact ⟨h, hpersist, rfl, rfl, [], (List.append_nil _).symm, by simp⟩
  | succ n ih =>
    have hn := ih (by omega)
    have hmax : (state.grownBy n).height ≠ kUint32Max := by
      intro he
      have hheight := hn.height_eq
      rw [he] at hheight
      omega
    obtain ⟨added, hadded, hempty⟩ := hn.blocks
    refine ⟨hn.reached.grown hn.persist_eq hmax, hn.persist_eq, hn.params_eq, ?_,
      added ++ [⟨(state.grownBy n).chain.tip.emptyNext, []⟩], ?_, ?_⟩
    · rw [PeerState.grownBy, grown_height hmax, hn.height_eq]
      omega
    · rw [PeerState.grownBy, hn.reached.grown_blocks hmax, hadded, List.append_assoc]
    · exact List.forall_mem_append.mpr ⟨hempty, List.forall_mem_singleton.mpr rfl⟩

theorem GrownFrom.continues {n : Nat} {server : PeerState}
    (h : GrownFrom config dir state n server) :
    state.ledgerBlocks <+: server.ledgerBlocks := by
  obtain ⟨added, hadded, _⟩ := h.blocks
  exact ⟨added, hadded.symm⟩

theorem GrownFrom.fits {n : Nat} {server : PeerState} (h : GrownFrom config dir state n server) :
    ∀ block ∈ server.ledgerBlocks.drop state.ledgerBlocks.length,
      block.toBytes.length + 4 ≤ kMaxP2pPayloadBytes.toNat := by
  obtain ⟨added, hadded, hempty⟩ := h.blocks
  rw [hadded, List.drop_left]
  intro block hblock
  rw [block_toBytes_length, hempty block hblock]
  decide

theorem grown_genesis {n : Nat} (hn : n < kUint32Max.toNat) :
    GrownFrom {} ⟨none, none⟩ (genesisNode {}) n ((genesisNode {}).grownBy n) ∧
      ((genesisNode {}).grownBy n).height.toNat = n ∧
      ValidNodeId ((genesisNode {}).grownBy n).nodeId := by
  have hreached : Reached {} ⟨none, none⟩ anyOp (genesisNode {}) :=
    genesisNode_reached rfl rfl rfl rfl _ _
  have hzero : (genesisNode {}).height.toNat = 0 := rfl
  have hgrown := grownBy_from hreached rfl n (by rw [hzero, Nat.zero_add]; exact hn)
  refine ⟨hgrown, by rw [hgrown.height_eq, hzero, Nat.zero_add], ?_⟩
  rw [hgrown.reached.inv.nodeId_eq]
  exact defaultNodeId_valid

end Growth

/-- A fresh client pulls the 64 blocks that it is missing. -/
theorem relay_sync_completes_grown :
    ∃ server, Reached {} ⟨none, none⟩ anyOp server ∧ server.height.toNat = 64 ∧
      (genesisNode {}).height.toNat = 0 ∧
      Until (RelayStep false {}) NotSynced (SyncedWith server)
        (relaySession (genesisNode {}) server) := by
  have hbootstrap : Reached (bootstrapConfig {}) ⟨none, none⟩ anyOp (genesisNode {}) :=
    genesisNode_reached rfl rfl rfl rfl _ _
  obtain ⟨hgrown, hheight, hid⟩ := grown_genesis (n := 64) (by decide)
  have hmax : ((genesisNode {}).grownBy 64).height ≠ kUint32Max := by
    intro he
    rw [he] at hheight
    exact absurd hheight (by decide)
  exact ⟨_, hgrown.reached, hheight, rfl, relay_sync_completes hgrown.reached hbootstrap {}
    hgrown.continues hgrown.params_eq.symm defaultNodeId_valid hid hmax
    (by rw [hheight]; decide) hgrown.fits⟩

/-- A fresh client that is missing 65 blocks of an otherwise equal server always fails. -/
theorem relay_budget_exceeded :
    ∃ server, Reached {} ⟨none, none⟩ anyOp server ∧
      Reached (bootstrapConfig {}) ⟨none, none⟩ anyOp (genesisNode {}) ∧
      (genesisNode {}).ledgerBlocks <+: server.ledgerBlocks ∧
      (genesisNode {}).chain.params = server.chain.params ∧ server.height.toNat = 65 ∧
      Until (RelayStep false {}) NotSynced ClientFailed (relaySession (genesisNode {}) server) := by
  obtain ⟨hgrown, hheight, hid⟩ := grown_genesis (n := 65) (by decide)
  refine ⟨_, hgrown.reached, genesisNode_reached rfl rfl rfl rfl _ _, hgrown.continues,
    hgrown.params_eq.symm, hheight, handshake_done defaultNodeId_valid hid
      (sync_exhausts hgrown.reached.inv _ _ _ rfl ?_)⟩
  rw [hheight]
  decide

end Blockchain
