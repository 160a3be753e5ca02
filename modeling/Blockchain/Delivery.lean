import Blockchain.Exchange
import Blockchain.Finality
import Blockchain.NodeSimulation
import Blockchain.RelayCompleteness

/-! A whole relay session of two honest nodes: the client catches up, announces its
transactions, and pulls the blocks that the server has mined on them. -/
namespace Blockchain
open Lib

namespace PeerState

/-! A node that does not persist, told of a transaction: it issues no operation unless it
refuses. -/

theorem mineLoop_ret (n : Nat) (state : PeerState) :
    ∃ r next, mineLoop n state = .ret (r, next) ∧ next.persist = state.persist := by
  induction n generalizing state with
  | zero => exact ⟨.ok (), state, rfl, rfl⟩
  | succ n ih =>
    have hturn : mineLoop (n + 1) state = (Action.ofExcept state.nextTemplate >>= fun tmpl =>
        connectBlock tmpl.block >>= fun _ => mineLoop n) state := by
      rw [mineLoop, Action.bind_run, Action.state_run, Process.bind_ret_left]
    rw [hturn, Action.bind_run, Action.ofExcept_run, Process.bind_ret_left]
    cases state.nextTemplate with
    | error e => exact ⟨.error e, state, rfl, rfl⟩
    | ok tmpl =>
      obtain ⟨e, _, hrun⟩ | ⟨fees, chain, pool, _, hrun⟩ := connectBlock_run tmpl.block state
      · exact ⟨.error e, state, by simp only [Action.bind_run, hrun, Process.bind_ret_left], rfl⟩
      · simp only [Action.bind_run, hrun, Process.bind_ret_left]
        exact ih _

theorem mineBlocks_ret {state : PeerState} (hpersist : state.persist = false) (count : UInt32) :
    ∃ r next, mineBlocks count state = .ret (r, next) := by
  obtain ⟨r, next, hrun, hkept⟩ := mineLoop_ret count.toNat state
  rw [mineBlocks, Action.bind_run, hrun, Process.bind_ret_left]
  cases r with
  | error e => exact ⟨.error e, next, rfl⟩
  | ok u => exact ⟨.ok (), next, persistLedger_off (hkept.trans hpersist)⟩

theorem onTxAnnounce_ret {state : PeerState} (hpersist : state.persist = false) {tx : Transaction}
    (hsane : tx.Sane) :
    ∃ r next, onTxAnnounce (txAnnounceMessage tx).payload state = .ret (r, next) := by
  rw [onTxAnnounce_run (carriedTransaction_announce hsane)]
  cases (state.mempool.accept tx state.chain.utxos state.mempoolPolicy).1 with
  | error e => exact ⟨.error e, _, rfl⟩
  | ok u =>
    by_cases hmine : state.mineAfterTx > 0
    · have hoffered : (state.offered tx).persist = false := hpersist
      simp only [if_pos hmine]
      exact mineBlocks_ret hoffered _
    · simp only [if_neg hmine]
      exact ⟨.ok (), _, rfl⟩

theorem makeTxAnnounceMessage_ok {tx : Transaction} (h : tx.Sane) :
    makeTxAnnounceMessage ⟨tx.toBytes⟩ = .ok (txAnnounceMessage tx) := by
  have hpos : 0 < tx.toBytes.length := by
    rw [Transaction.toBytes_length]
    omega
  have hempty : tx.toBytes.isEmpty = false :=
    List.isEmpty_eq_false_iff.mpr (List.length_pos_iff.mp hpos)
  simp only [makeTxAnnounceMessage, serializeTxAnnounce, putBlob, hempty, Bool.false_eq_true,
    if_false, gt_iff_lt, if_neg (Nat.not_lt.mpr h.size_le), ok_bind, txAnnounceMessage]

theorem txAnnounceMessage_sendable {tx : Transaction} (h : tx.Sane) :
    (txAnnounceMessage tx).Sendable := by
  have hsize := h.size_le
  have hlimit : kMaxTransactionSizeBytes.toNat + 4 ≤ kMaxP2pPayloadBytes.toNat := by decide
  refine ⟨rfl, ?_⟩
  simp only [txAnnounceMessage, makeMessage, putVarBytes_length]
  omega

theorem handleMessage_announce_ok {state next : PeerState} (hpersist : state.persist = false)
    {tx : Transaction} (hsane : tx.Sane)
    (h : state.handled (txAnnounceMessage tx) = (.ok (), next)) :
    handleMessage (txAnnounceMessage tx) state = .ret (.ok (), next) := by
  obtain ⟨r, last, hrun⟩ := onTxAnnounce_ret hpersist hsane
  cases r with
  | error e =>
    obtain ⟨e', he'⟩ := handled_announce_error hsane hrun
    rw [he'] at h
    cases h
  | ok u =>
    have hsilent := handleMessage_announced_ok (announcesTransaction_announce hsane) hrun
    rw [handled, hsilent] at h
    cases h
    exact hsilent

end PeerState

section Moves
variable {lbody : ClientPoint → ClientParty} {rbody : Empty → ServerParty}
  {client server : PeerState} {params : ConsensusParams}

theorem requestBlock_moves {height : UInt32} {block : Block} {fees : UInt64} {chain : Chain}
    {pool : Option Mempool} {F : Result Unit × PeerState → ClientParty} (n : Nat)
    (hpersist : client.persist = false) (hfound : server.blockAtHeight height = some block)
    (hsane : block.Sane) (hfit : block.toBytes.length + 4 ≤ kMaxP2pPayloadBytes.toNat)
    (hs : client.chain.submitBlock block (some client.mempool) = .ok (fees, chain, pool)) :
    Moves lbody rbody
      ⟨(requestBlock height client).bind F, serverParty (serveRelayMessages (n + 1)) server, [], []⟩
      ⟨F (.ok (), client.connected block chain), serverParty (serveRelayMessages n) server,
        [], []⟩ := by
  rw [requestBlock_eq, Action.bind_run, Process.bind_assoc, serverParty_messages]
  refine (moves_right (blockRequestMessage_sendable height)).trans ?_
  simp only [Action.bind_run, Process.bind_assoc]
  rw [PeerState.handleMessage_blockRequest, serverParty_bind,
    PeerState.onBlockRequest_found hfound hsane]
  refine (moves_left (blockResponseMessage_sendable hfit)).trans ?_
  simp only [onOk]
  rw [PeerState.handleMessage_blockResponse hsane, PeerState.connect_and_persist hpersist,
    PeerState.connectBlock_of_submit hs]
  exact .refl

theorem next_pull {held rest : List Block} {block : Block} {height : UInt32}
    (hserver : Accepted params (held ++ block :: rest) server.chain)
    (hcat : CatalogOf (held ++ block :: rest) server.catalog)
    (hclient : Accepted params held client.chain) (hheight : height.toNat = held.length) :
    server.blockAtHeight height = some block ∧ block.Sane ∧
      ∃ fees chain pool, client.chain.submitBlock block (some client.mempool) =
        .ok (fees, chain, pool) ∧ Accepted params (held ++ [block]) chain := by
  refine ⟨?_, hserver.block_sane block (by simp), ?_⟩
  · rw [PeerState.blockAtHeight, hcat.find?_eq fun _ _ hi => hserver.block_height hi, hheight]
    simp
  · obtain ⟨fees, chain, hs⟩ := hclient.next_block hserver
    obtain ⟨hlinks, hconnect, _⟩ := Chain.submitBlock_ok.mp hs
    exact ⟨fees, chain, _, Chain.submitBlock_ok.mpr ⟨hlinks, hconnect, rfl⟩, hclient.submit hs⟩

theorem sync_moves {persist : Bool} {options : RelayClientOptions} (missing held : List Block)
    (n : Nat) (next : UInt32) (client : PeerState)
    (hserver : Accepted params (held ++ missing) server.chain)
    (hcat : CatalogOf (held ++ missing) server.catalog) (hmax : server.height ≠ kUint32Max)
    (hclient : Accepted params held client.chain) (hpersist : client.persist = false)
    (hnext : next.toNat = held.length)
    (hfit : ∀ block ∈ missing, block.toBytes.length + 4 ≤ kMaxP2pPayloadBytes.toNat) :
    ∃ last : PeerState, last.chain = server.chain ∧ last.persist = false ∧
      Moves (relayClient persist options) rbody
        ⟨.ret (.again (.syncing server.localHandshake next client)),
          serverParty (serveRelayMessages (missing.length + n)) server, [], []⟩
        ⟨.ret (.again (.synced server.localHandshake last)),
          serverParty (serveRelayMessages n) server, [], []⟩ := by
  have hlen : server.height.toNat + 1 = (held ++ missing).length := hserver.height_eq
  -- on the missing blocks: each costs the server one message
  induction missing generalizing held next client with
  | nil =>
    rw [List.append_nil] at hserver hlen
    have hsame : client.chain = server.chain := hclient.unique hserver
    have hover : ¬ next ≤ server.localHandshake.height := by
      change ¬ next ≤ server.height
      rw [UInt32.le_iff_toNat_le]
      omega
    have hheight : client.height = server.localHandshake.height := congrArg Chain.height hsame
    refine ⟨client, hsame, hpersist, ?_⟩
    rw [List.length_nil, Nat.zero_add]
    refine .head (.left rfl) ?_
    rw [relayClient, if_neg hover, if_neg (not_not.mpr hheight)]
    exact .refl
  | cons block rest ih =>
    rw [List.length_append, List.length_cons] at hlen
    have hle : next ≤ server.localHandshake.height := by
      change next ≤ server.height
      rw [UInt32.le_iff_toNat_le]
      omega
    obtain ⟨hfound, hsane, fees, chain, pool, hs, hacc⟩ := next_pull hserver hcat hclient hnext
    have happ : held ++ block :: rest = held ++ [block] ++ rest := by simp
    rw [happ] at hserver hcat
    have hbelow : next.toNat < kUint32Max.toNat := by
      have hlt := server.height.toNat_lt
      have hne : server.height.toNat ≠ kUint32Max.toNat := fun he => hmax (UInt32.toNat_inj.mp he)
      have hval : kUint32Max.toNat = 2 ^ 32 - 1 := by decide
      omega
    have hnext' : (next + 1).toNat = (held ++ [block]).length := by
      rw [toNat_succ_of_lt hbelow, hnext, List.length_append, List.length_singleton]
    obtain ⟨last, hchain, hlast, hmoves⟩ := ih (held ++ [block]) (next + 1)
      (client.connected block chain) hserver hcat hacc hpersist hnext'
      (fun b hb => hfit b (List.mem_cons_of_mem _ hb)) hserver.height_eq
    refine ⟨last, hchain, hlast, .trans (.head (.left rfl) ?_) hmoves⟩
    have hcount : (block :: rest).length + n = rest.length + n + 1 := by
      rw [List.length_cons]
      omega
    rw [relayClient, if_pos hle, clientStep_eq, hcount]
    exact requestBlock_moves _ hpersist hfound hsane (hfit block List.mem_cons_self) hs

theorem announce_moves (txs : List Transaction) (hsane : ∀ tx ∈ txs, tx.Sane)
    (hpersist : server.persist = false) {final : PeerState}
    (hall : server.handleAll (txs.map PeerState.txAnnounceMessage) = some final) (n : Nat)
    {F : Result Unit × PeerState → ClientParty} :
    Moves lbody rbody
      ⟨(sendTxAnnounces txs client).bind F,
        serverParty (serveRelayMessages (txs.length + n)) server, [], []⟩
      ⟨F (.ok (), client), serverParty (serveRelayMessages n) final, [], []⟩ := by
  -- on the transactions: each is taken before the next is read
  induction txs generalizing server with
  | nil =>
    cases hall
    rw [List.length_nil, Nat.zero_add]
    exact .refl
  | cons tx rest ih =>
    have htx := hsane tx List.mem_cons_self
    rw [List.map_cons, PeerState.handleAll] at hall
    cases hhandled : server.handled (PeerState.txAnnounceMessage tx) with
    | mk r next =>
      cases r with
      | error e => simp [hhandled] at hall
      | ok u =>
        simp only [hhandled] at hall
        have hkept := (server.handled_settings (PeerState.txAnnounceMessage tx)).1
        rw [hhandled] at hkept
        have hcount : (tx :: rest).length + n = rest.length + n + 1 := by
          rw [List.length_cons]
          omega
        have hsend : sendTxAnnounces (tx :: rest) client =
            (sendMessage (PeerState.txAnnounceMessage tx) >>= fun _ => sendTxAnnounces rest)
              client := by
          rw [sendTxAnnounces, PeerState.makeTxAnnounceMessage_ok htx]
          rfl
        rw [hsend, Action.bind_run, Process.bind_assoc, hcount, serverParty_messages]
        refine (moves_right (PeerState.txAnnounceMessage_sendable htx)).trans ?_
        simp only []
        rw [serverParty_bind, PeerState.handleMessage_announce_ok hpersist htx hhandled]
        exact ih (fun t ht => hsane t (List.mem_cons_of_mem _ ht)) (hkept.trans hpersist) hall

theorem pull_moves (wanted held rest : List Block) (n : Nat) (client : PeerState)
    (hserver : Accepted params (held ++ wanted ++ rest) server.chain)
    (hcat : CatalogOf (held ++ wanted ++ rest) server.catalog)
    (hclient : Accepted params held client.chain) (hpersist : client.persist = false)
    (hfit : ∀ block ∈ wanted, block.toBytes.length + 4 ≤ kMaxP2pPayloadBytes.toNat)
    {F : Result Unit × PeerState → ClientParty} :
    ∃ last : PeerState, Accepted params (held ++ wanted) last.chain ∧ last.persist = false ∧
      Moves lbody rbody
        ⟨(requestBlocksAfterTx wanted.length client).bind F,
          serverParty (serveRelayMessages (wanted.length + n)) server, [], []⟩
        ⟨F (.ok (), last), serverParty (serveRelayMessages n) server, [], []⟩ := by
  -- on the blocks that the client asks for
  induction wanted generalizing held client with
  | nil =>
    rw [List.append_nil, List.length_nil, Nat.zero_add]
    exact ⟨client, hclient, hpersist, .refl⟩
  | cons block wanted ih =>
    have happ : held ++ block :: wanted ++ rest = held ++ block :: (wanted ++ rest) := by simp
    have happ' : held ++ block :: (wanted ++ rest) = held ++ [block] ++ wanted ++ rest := by simp
    rw [happ] at hserver hcat
    have hheight : (client.height + 1).toNat = held.length := by
      have hslen : server.height.toNat + 1 = (held ++ block :: (wanted ++ rest)).length :=
        hserver.height_eq
      have hclen : client.height.toNat + 1 = held.length := hclient.height_eq
      rw [List.length_append, List.length_cons] at hslen
      have hbelow : client.height.toNat < server.height.toNat := by omega
      rw [toNat_succ_of_lt hbelow, hclen]
    obtain ⟨hfound, hsane, fees, chain, pool, hs, hacc⟩ := next_pull hserver hcat hclient hheight
    rw [happ'] at hserver hcat
    obtain ⟨last, hlast, hoff, hmoves⟩ := ih (held ++ [block]) (client.connected block chain)
      hserver hcat hacc hpersist (fun b hb => hfit b (List.mem_cons_of_mem _ hb))
    have hcount : (block :: wanted).length + n = wanted.length + n + 1 := by
      rw [List.length_cons]
      omega
    have hpull : requestBlocksAfterTx (block :: wanted).length client =
        (requestBlock (client.height + 1) >>= fun _ => requestBlocksAfterTx wanted.length)
          client := rfl
    refine ⟨last, by simpa using hlast, hoff, .trans ?_ hmoves⟩
    rw [hpull, Action.bind_run, Process.bind_assoc, hcount]
    exact requestBlock_moves _ hpersist hfound hsane (hfit block List.mem_cons_self) hs

theorem relay_handshake_moves {persist : Bool} {options : RelayClientOptions}
    (hclient : ValidNodeId client.nodeId) (hserver : ValidNodeId server.nodeId) :
    Moves (relayClient persist options) rbody (relaySession client server)
      ⟨.ret (.again (.syncing server.localHandshake (client.height + 1) client)),
        serverParty (serveRelayMessages kMaxRelayMessages) server, [], []⟩ := by
  obtain ⟨hello, hmake, hsend, hparse⟩ := makeHandshake_of_valid hclient
  obtain ⟨reply, hmake', hsend', hparse'⟩ := makeHandshake_of_valid hserver
  refine .head (.left rfl) ?_
  have hbody : relayClient persist options (.connected client) =
      (sendMessage hello client).bind (onOk fun _ client =>
        clientStep (recvMessage >>= fun inbound => Action.ofExcept (parseHandshakeMessage inbound))
          client fun peer client => .again (.syncing peer (client.height + 1) client)) := by
    rw [relayClient, exchangeRelayHandshake, clientStep_state, clientStep_check hmake,
      clientStep_bind]
  rw [hbody, relaySession, serverParty_connection]
  refine (moves_right hsend).trans ?_
  simp only [onOk]
  rw [serverParty_check hparse, serverParty_check hmake', serverParty_bind, clientStep_bind]
  refine (moves_left hsend').trans ?_
  simp only [onOk, clientStep_eq, Action.ofExcept_run, Process.bind_ret_left, hparse']
  exact .refl

end Moves

theorem handleAll_unharmed {config : NodeConfig} {dir : DataDir} {before state final : PeerState}
    {messages : List P2pMessage} (h : Unharmed config dir before state)
    (hall : state.handleAll messages = some final) : Unharmed config dir before final := by
  induction messages generalizing state with
  | nil =>
    cases hall
    exact h
  | cons message rest ih =>
    have hnext := unharmed_handleMessage message state h _ _
      (Process.returns_play PeerState.platformReply (PeerState.handleMessage message state))
    rw [PeerState.handleAll] at hall
    cases hhandled : state.handled message with
    | mk r next =>
      cases r with
      | error e => simp [hhandled] at hall
      | ok u =>
        simp only [hhandled] at hall
        rw [← PeerState.handled, hhandled] at hnext
        exact ih hnext hall

theorem synced_moves {sconfig cconfig : NodeConfig} {sdir cdir : DataDir}
    {server client : PeerState}
    {persist : Bool} {options : RelayClientOptions} {rbody : Empty → ServerParty}
    (hserver : Reached sconfig sdir anyOp server)
    (hclient : Reached (bootstrapConfig cconfig) cdir anyOp client)
    (hcid : ValidNodeId client.nodeId) (hsid : ValidNodeId server.nodeId)
    (hpart : client.ledgerBlocks <+: server.ledgerBlocks)
    (hparams : client.chain.params = server.chain.params) (hmax : server.height ≠ kUint32Max)
    (hfit : ∀ block ∈ server.ledgerBlocks.drop client.ledgerBlocks.length,
      block.toBytes.length + 4 ≤ kMaxP2pPayloadBytes.toNat)
    {n : Nat} (hbudget : server.height.toNat + n = client.height.toNat + kMaxRelayMessages) :
    ∃ last : PeerState, last.chain = server.chain ∧ last.persist = false ∧
      Moves (relayClient persist options) rbody (relaySession client server)
        ⟨.ret (.again (.synced server.localHandshake last)),
          serverParty (serveRelayMessages n) server, [], []⟩ := by
  obtain ⟨cblocks, hcacc, hccat⟩ := hclient.inv.history
  obtain ⟨sblocks, hsacc, hscat⟩ := hserver.inv.history
  have hsvalues : server.ledgerBlocks = sblocks := hscat.values_eq
  have hcvalues : client.ledgerBlocks = cblocks := hccat.values_eq
  rw [hsvalues, hcvalues] at hpart hfit
  obtain ⟨missing, rfl⟩ := hpart
  rw [List.drop_left] at hfit
  have hsame : startParams (bootstrapConfig cconfig) cdir = startParams sconfig sdir := by
    rw [← hcacc.params_eq, ← hsacc.params_eq, hparams]
  rw [hsame] at hcacc
  have hclen : client.height.toNat + 1 = cblocks.length := hcacc.height_eq
  have hslen : server.height.toNat + 1 = (cblocks ++ missing).length := hsacc.height_eq
  rw [List.length_append] at hslen
  have hnext : (client.height + 1).toNat = cblocks.length := by
    have hne : server.height.toNat ≠ kUint32Max.toNat := fun he => hmax (UInt32.toNat_inj.mp he)
    have hval : kUint32Max.toNat = 2 ^ 32 - 1 := by decide
    have hlt := server.height.toNat_lt
    have hbelow : client.height.toNat < kUint32Max.toNat := by omega
    rw [toNat_succ_of_lt hbelow, hclen]
  have hcount : kMaxRelayMessages = missing.length + n := by omega
  have hsync : ∃ last : PeerState, last.chain = server.chain ∧ last.persist = false ∧
      Moves (relayClient persist options) rbody
        ⟨.ret (.again (.syncing server.localHandshake (client.height + 1) client)),
          serverParty (serveRelayMessages kMaxRelayMessages) server, [], []⟩
        ⟨.ret (.again (.synced server.localHandshake last)),
          serverParty (serveRelayMessages n) server, [], []⟩ := by
    rw [hcount]
    exact sync_moves missing cblocks _ _ client hsacc hscat hmax hcacc
      hclient.inv.persist_eq hnext hfit
  obtain ⟨last, hchain, hoff, hsynced⟩ := hsync
  exact ⟨last, hchain, hoff, (relay_handshake_moves hcid hsid).trans hsynced⟩

theorem finish_moves {rbody : Empty → ServerParty} {options : RelayClientOptions}
    {peer : HandshakePayload} {client server final : PeerState} {params : ConsensusParams}
    {held wanted rest : List Block} (n : Nat) (hsane : ∀ tx ∈ options.txsAfterSync, tx.Sane)
    (hpersist : server.persist = false)
    (hall : server.handleAll (options.txsAfterSync.map PeerState.txAnnounceMessage) = some final)
    (hfinal : Accepted params (held ++ wanted ++ rest) final.chain)
    (hcat : CatalogOf (held ++ wanted ++ rest) final.catalog)
    (hclient : Accepted params held client.chain) (hoff : client.persist = false)
    (hcount : options.blocksAfterTx.toNat = wanted.length)
    (hfit : ∀ block ∈ wanted, block.toBytes.length + 4 ≤ kMaxP2pPayloadBytes.toNat) :
    ∃ last : PeerState, Accepted params (held ++ wanted) last.chain ∧
      Moves (relayClient false options) rbody
        ⟨.ret (.again (.synced peer client)),
          serverParty (serveRelayMessages (options.txsAfterSync.length + (wanted.length + n)))
            server, [], []⟩
        ⟨.ret (.done (.ok ⟨last.height, last.tipHash⟩)), serverParty (serveRelayMessages n) final,
          [], []⟩ := by
  let report : PeerAction RelayClientResult := do
    let state ← Action.state
    pure ⟨state.height, state.tipHash⟩
  have hfinish : finishRelayClient false options =
      (sendTxAnnounces options.txsAfterSync >>= fun _ =>
        requestBlocksAfterTx options.blocksAfterTx.toNat >>= fun _ => report) := rfl
  let done : Result Unit × PeerState → ClientParty :=
    onOk fun _ state => clientStep report state fun result _ => .done (.ok result)
  have hpull : ∃ last : PeerState, Accepted params (held ++ wanted) last.chain ∧
      last.persist = false ∧ Moves (relayClient false options) rbody
        ⟨(requestBlocksAfterTx wanted.length client).bind done,
          serverParty (serveRelayMessages (wanted.length + n)) final, [], []⟩
        ⟨done (.ok (), last), serverParty (serveRelayMessages n) final, [], []⟩ :=
    pull_moves wanted held rest n client hfinal hcat hclient hoff hfit
  obtain ⟨last, hlast, _, hpulled⟩ := hpull
  refine ⟨last, hlast, .trans (.head (.left rfl) ?_) hpulled⟩
  rw [relayClient, hfinish, clientStep_bind]
  refine (announce_moves _ hsane hpersist hall (wanted.length + n)).trans ?_
  rw [onOk, clientStep_bind, hcount]

/-- Two honest nodes, whole session: the client catches up with the server, its transactions
are taken and mined on, and it pulls the blocks it asks for. In every interleaving it ends
with success on the server's block at the height it was to reach, and the server ends with
success on what the transactions have made of it. -/
theorem relay_session_delivers {sconfig cconfig : NodeConfig} {sdir cdir : DataDir}
    {server client final : PeerState} (hserver : Reached sconfig sdir anyOp server)
    (hclient : Reached (bootstrapConfig cconfig) cdir anyOp client) (options : RelayClientOptions)
    (hpersist : server.persist = false) (hcid : ValidNodeId client.nodeId)
    (hsid : ValidNodeId server.nodeId) (hpart : client.ledgerBlocks <+: server.ledgerBlocks)
    (hparams : client.chain.params = server.chain.params) (hmax : server.height ≠ kUint32Max)
    (hsane : ∀ tx ∈ options.txsAfterSync, tx.Sane)
    (hall : server.handleAll (options.txsAfterSync.map PeerState.txAnnounceMessage) = some final)
    (hwanted : server.height.toNat + options.blocksAfterTx.toNat ≤ final.height.toNat)
    (hbudget : server.height.toNat + options.txsAfterSync.length + options.blocksAfterTx.toNat <
      client.height.toNat + kMaxRelayMessages)
    (hfit : ∀ block ∈ final.ledgerBlocks.drop client.ledgerBlocks.length,
      block.toBytes.length + 4 ≤ kMaxP2pPayloadBytes.toNat) :
    Until (RelayStep false options) (fun _ => True)
      (fun s => (∃ block,
          final.ledgerBlocks[server.height.toNat + options.blocksAfterTx.toNat]? = some block ∧
          s.left = .ret (.done (.ok ⟨block.header.height, block.header.hash⟩))) ∧
        s.right = .ret (.done (.ok ⟨final.height, final.mempool.size⟩)))
      (relaySession client server) := by
  have hgrown := handleAll_unharmed (unharmed_refl hserver) hall
  have hfoff : final.persist = false := by
    rw [hgrown.reached.inv.persist_eq, ← hserver.inv.persist_eq, hpersist]
  obtain ⟨added, hadded⟩ := hgrown.blocks
  obtain ⟨sblocks, hsacc, hscat⟩ := hserver.inv.history
  obtain ⟨fblocks, hfacc, hfcat⟩ := hgrown.reached.inv.history
  have hsvalues : server.ledgerBlocks = sblocks := hscat.values_eq
  have hfvalues : final.ledgerBlocks = fblocks := hfcat.values_eq
  rw [← hfvalues, ← hadded, hsvalues] at hfacc hfcat
  have hslen : server.height.toNat + 1 = sblocks.length := hsacc.height_eq
  have hflen : final.height.toNat + 1 = (sblocks ++ added).length := hfacc.height_eq
  rw [List.length_append] at hflen
  have hdrop : final.ledgerBlocks.drop client.ledgerBlocks.length =
      server.ledgerBlocks.drop client.ledgerBlocks.length ++ added := by
    rw [← hadded, List.drop_append_of_le_length hpart.length_le]
  rw [hdrop] at hfit
  rw [← hadded, hsvalues]
  -- the blocks mined on the transactions, up to the last one the client asks for
  obtain ⟨wanted, rest, rfl, hcount⟩ : ∃ wanted rest, added = wanted ++ rest ∧
      options.blocksAfterTx.toNat = wanted.length := by
    refine ⟨added.take options.blocksAfterTx.toNat, added.drop options.blocksAfterTx.toNat,
      (List.take_append_drop _ _).symm, ?_⟩
    rw [List.length_take]
    omega
  rw [← List.append_assoc] at hfacc hfcat ⊢
  obtain ⟨n, hn⟩ : ∃ n, server.height.toNat +
      (options.txsAfterSync.length + (wanted.length + (n + 1))) =
        client.height.toNat + kMaxRelayMessages :=
    ⟨client.height.toNat + kMaxRelayMessages -
      (server.height.toNat + options.txsAfterSync.length + wanted.length) - 1, by omega⟩
  obtain ⟨synced, hchain, hsoff, hsynced⟩ :=
    synced_moves hserver hclient hcid hsid hpart hparams hmax
    (fun block hb => hfit block (List.mem_append_left _ hb)) hn
  rw [← hchain] at hsacc
  obtain ⟨last, hlast, hfinished⟩ :=
    finish_moves (n + 1) hsane hpersist hall hfacc hfcat hsacc hsoff
    hcount fun block hb => hfit block (List.mem_append_right _ (List.mem_append_left _ hb))
  have hrest : Session.AtRest (⟨.ret (.done (.ok ⟨last.height, last.tipHash⟩)),
      serverParty (serveRelayMessages (n + 1)) final, [], []⟩ : RelaySession) :=
    ⟨.inr ⟨_, rfl⟩, serverParty_quiet final _, rfl, rfl⟩
  refine (Session.until_rest (hsynced.trans hfinished) hrest).trans ?_
  intro s hs
  rw [hs]
  refine serverParty_peer_closed ⟨_, rfl⟩ n hfoff ⟨?_, rfl⟩
  obtain ⟨block, hblock, hheader⟩ := Option.map_eq_some_iff.mp hlast.tip_eq
  refine ⟨block, ?_, ?_⟩
  · have hplace : (sblocks ++ wanted).length - 1 =
        server.height.toNat + options.blocksAfterTx.toNat := by
      rw [List.length_append]
      omega
    rw [List.getLast?_eq_getElem?, hplace] at hblock
    rw [List.getElem?_append_left (by rw [List.length_append]; omega), hblock]
  · rw [hheader]
    rfl

/-- A client with the genesis block: it pulls the server's block, pays with its reward, and
pulls the block that confirms the payment. -/
theorem payment_delivered :
    ∃ server final, Reached (minerConfig false) ⟨none, none⟩ anyOp server ∧
      server.ledgerBlocks = [buildGenesisBlock rewardConfig, minedReward] ∧
      server.handleAll [PeerState.txAnnounceMessage (payment 0)] = some final ∧
      Until (RelayStep false { txsAfterSync := [payment 0], blocksAfterTx := 1 }) (fun _ => True)
        (fun s => s.left = .ret (.done (.ok ⟨2, minedPayment.header.hash⟩)) ∧
          s.right = .ret (.done (.ok ⟨2, 0⟩)))
        (relaySession (genesisNode rewardConfig) server) := by
  have hclient : Reached (bootstrapConfig rewardConfig) ⟨none, none⟩ anyOp
      (genesisNode rewardConfig) := genesisNode_reached rfl rfl rfl rfl _ _
  obtain ⟨server, final, hup, hall, hearned, hconfirmed⟩ := payment_mined
  have hserver : Reached (minerConfig false) ⟨none, none⟩ anyOp server := by
    refine .start ?_
    rw [hup]
    exact .ret _
  have hsid : ValidNodeId server.nodeId := hearned.inv.nodeId_eq ▸ defaultNodeId_valid
  have hheight : server.height = 1 := congrArg Chain.height hearned.chain_eq
  have hfheight : final.height = 2 := congrArg Chain.height hconfirmed.chain_eq
  have hcheight : (genesisNode rewardConfig).height = 0 := rfl
  have hcblocks : (genesisNode rewardConfig).ledgerBlocks = [buildGenesisBlock rewardConfig] := rfl
  have hblocks : server.ledgerBlocks = [buildGenesisBlock rewardConfig, minedReward] :=
    hearned.ledger_eq
  have hfblocks : final.ledgerBlocks =
      [buildGenesisBlock rewardConfig, minedReward, minedPayment] := hconfirmed.ledger_eq
  have hpart : (genesisNode rewardConfig).ledgerBlocks <+: server.ledgerBlocks := by
    rw [hcblocks, hblocks]
    exact ⟨[minedReward], rfl⟩
  have hfit : ∀ block ∈ final.ledgerBlocks.drop (genesisNode rewardConfig).ledgerBlocks.length,
      block.toBytes.length + 4 ≤ kMaxP2pPayloadBytes.toNat := by
    rw [hcblocks, hfblocks, List.length_singleton, List.drop_one, List.tail_cons,
      List.forall_mem_cons, List.forall_mem_singleton, minedReward_length, minedPayment_length]
    decide
  have hparams : (genesisNode rewardConfig).chain.params = server.chain.params := by
    rw [hearned.chain_eq]
    rfl
  have hdone := relay_session_delivers hserver hclient
    { txsAfterSync := [payment 0], blocksAfterTx := 1 } hearned.inv.persist_eq defaultNodeId_valid
    hsid hpart hparams (by rw [hheight]; decide)
    (List.forall_mem_singleton.mpr (payment_sane 0)) hall
    (by rw [hheight, hfheight]; decide) (by rw [hheight, hcheight]; decide) hfit
  refine ⟨server, final, hserver, hblocks, hall, hdone.mono (fun _ _ => trivial) ?_⟩
  intro s hs
  obtain ⟨⟨block, hblock, hleft⟩, hright⟩ := hs
  rw [hfblocks, hheight] at hblock
  cases hblock
  rw [hfheight, hconfirmed.pool_eq, confirmedRun_size] at hright
  exact ⟨hleft, hright⟩

end Blockchain
