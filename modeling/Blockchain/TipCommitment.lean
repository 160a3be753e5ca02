import Blockchain.Chain

/-! The tip hash commits to the whole chain. Two accepted block sequences with the same tip
hash are the same sequence, unless among the strings they hash there is a collision or a
preimage of the zero hash. -/
namespace Blockchain
open Lib

/-- The strings hashed for a block: its header, its transactions and its Merkle nodes. -/
def Block.hashedStrings (block : Block) : List Bytes :=
  block.header.serialize ::
    (block.transactions.map Transaction.toBytes ++ merkleNodeStrings block.transactions)

def hashedStrings (blocks : List Block) : List Bytes := blocks.flatMap Block.hashedStrings

theorem mem_hashedStrings {blocks : List Block} {block : Block} {x : Bytes} (hb : block ∈ blocks)
    (hx : x ∈ block.hashedStrings) : x ∈ hashedStrings blocks :=
  List.mem_flatMap.mpr ⟨block, hb, hx⟩

theorem map_txid (txs : List Transaction) :
    txs.map Transaction.txid = (txs.map Transaction.toBytes).map sha256d := by
  rw [List.map_map]
  rfl

theorem merkleNodeStrings_eq (txs : List Transaction) :
    merkleNodeStrings txs = HashTree.nodeStrings sha256d merkleNode
      (txs.map Transaction.toBytes).length ((txs.map Transaction.toBytes).map sha256d) := by
  rw [merkleNodeStrings, map_txid, List.length_map]

theorem computeMerkleRoot_eq {txs : List Transaction} (h : txs ≠ []) :
    computeMerkleRoot txs = HashTree.root sha256d merkleNode zeroHash
      (txs.map Transaction.toBytes).length ((txs.map Transaction.toBytes).map sha256d) := by
  simp only [computeMerkleRoot, List.isEmpty_iff, h, if_false, map_txid, List.length_map]

/-- A transaction encoding is never a Merkle node string. -/
theorem Transaction.Sane.ne_merkleNode {tx : Transaction} (h : tx.Sane) (a b : Hash256) :
    tx.toBytes ≠ merkleNode a b := by
  intro he
  have hlen := congrArg List.length he
  rw [merkleNode_length, Transaction.toBytes_length] at hlen
  have hin := List.length_pos_iff.mpr h.inputs_ne
  have hout := List.length_pos_iff.mpr h.outputs_ne
  omega

section Binding
variable {S : Set Bytes} (hinj : Set.InjOn sha256d S) (hzero : ∀ x ∈ S, sha256d x ≠ zeroHash)

include hzero in
theorem computeMerkleRoot_ne_zero {block : Block} (hS : ∀ x ∈ block.hashedStrings, x ∈ S)
    (h : block.transactions ≠ []) : computeMerkleRoot block.transactions ≠ zeroHash := by
  have hne : block.transactions.map Transaction.toBytes ≠ [] := by simpa using h
  obtain ⟨x, hx, hroot⟩ := HashTree.root_is_hash sha256d merkleNode zeroHash hne
  rw [computeMerkleRoot_eq h, hroot]
  apply hzero x
  apply hS x
  rw [← merkleNodeStrings_eq] at hx
  exact List.mem_cons_of_mem _ (List.mem_append.mpr hx)

include hinj hzero in
theorem transactions_eq_of_header_eq {b b' : Block} (hs : b.Sane) (hs' : b'.Sane)
    (hS : ∀ x ∈ b.hashedStrings, x ∈ S) (hS' : ∀ x ∈ b'.hashedStrings, x ∈ S)
    (h : b.header = b'.header) : b.transactions = b'.transactions := by
  have hroot : computeMerkleRoot b.transactions = computeMerkleRoot b'.transactions := by
    rw [← hs.merkle_eq, ← hs'.merkle_eq, h]
  by_cases hb : b.transactions = []
  · by_cases hb' : b'.transactions = []
    · rw [hb, hb']
    · rw [hb] at hroot
      exact absurd hroot.symm (computeMerkleRoot_ne_zero hzero hS' hb')
  · by_cases hb' : b'.transactions = []
    · rw [hb'] at hroot
      exact absurd hroot (computeMerkleRoot_ne_zero hzero hS hb)
    · rw [computeMerkleRoot_eq hb, computeMerkleRoot_eq hb'] at hroot
      have hleaf : ∀ {b : Block}, b.Sane → ∀ x ∈ b.transactions.map Transaction.toBytes,
          ∀ l r, x ≠ merkleNode l r := by
        intro b hs x hx l r
        obtain ⟨tx, htx, rfl⟩ := List.mem_map.mp hx
        exact (hs.txs_sane tx htx).ne_merkleNode l r
      have hids : ∀ {b : Block}, b.Sane →
          ((b.transactions.map Transaction.toBytes).map sha256d).Nodup := by
        intro b hs
        rw [← map_txid]
        exact hs.txids_nodup
      have hbytes := HashTree.leaves_eq_of_root_eq merkleNode_injective hinj zeroHash
        (by simpa using hb) (by simpa using hb') (hleaf hs) (hleaf hs')
        (fun x hx => hS x (List.mem_cons_of_mem _ (List.mem_append_left _ hx)))
        (fun x hx => hS' x (List.mem_cons_of_mem _ (List.mem_append_left _ hx)))
        (fun x hx => hS x (List.mem_cons_of_mem _
          (List.mem_append_right _ (merkleNodeStrings_eq _ ▸ hx))))
        (fun x hx => hS' x (List.mem_cons_of_mem _
          (List.mem_append_right _ (merkleNodeStrings_eq _ ▸ hx))))
        (hids hs) (hids hs') hroot
      refine HashTree.map_eq_of_injOn (S := {tx : Transaction | tx.WithinLimits}) ?_
        (fun tx htx => (hs.txs_sane tx htx).limits) (fun tx htx => (hs'.txs_sane tx htx).limits)
        hbytes
      intro t ht t' ht' he
      exact Transaction.toBytes_injective ht ht' he

include hinj hzero in
theorem block_eq_of_hash_eq {b b' : Block} (hs : b.Sane) (hs' : b'.Sane)
    (hS : ∀ x ∈ b.hashedStrings, x ∈ S) (hS' : ∀ x ∈ b'.hashedStrings, x ∈ S)
    (h : b.header.hash = b'.header.hash) : b = b' := by
  have hbytes := hinj (hS _ List.mem_cons_self) (hS' _ List.mem_cons_self) h
  have hheader := BlockHeader.serialize_injective hbytes
  have htxs := transactions_eq_of_header_eq hinj hzero hs hs' hS hS' hheader
  cases b
  cases b'
  simp_all

include hinj hzero in
theorem blocks_eq_of_tipHash_eq {params params' : ConsensusParams} {blocks blocks' : List Block}
    {chain chain' : Chain} (h : Accepted params blocks chain) (h' : Accepted params' blocks' chain')
    (hS : ∀ x ∈ hashedStrings blocks, x ∈ S) (hS' : ∀ x ∈ hashedStrings blocks', x ∈ S)
    (htip : chain.tipHash = chain'.tipHash) : blocks = blocks' := by
  -- from the tip backwards: equal hashes give equal blocks, and their links equal hashes
  induction blocks using List.reverseRecOn generalizing blocks' chain chain' with
  | nil =>
    obtain ⟨before, block, hsplit, _⟩ := h.last_block
    simp at hsplit
  | append_singleton before block ih =>
    obtain ⟨before₀, block₀, hsplit, hsane, hheader, hprev⟩ := h.last_block
    obtain ⟨rfl, hblock⟩ := List.append_inj' hsplit rfl
    obtain rfl := List.singleton_inj.mp hblock
    obtain ⟨before', block', rfl, hsane', hheader', hprev'⟩ := h'.last_block
    have he : block = block' := by
      refine block_eq_of_hash_eq hinj hzero hsane hsane'
        (fun x hx => hS x (mem_hashedStrings (by simp) hx))
        (fun x hx => hS' x (mem_hashedStrings (by simp) hx)) ?_
      rw [← hheader, ← hheader']
      exact htip
    subst he
    obtain ⟨rfl, h0⟩ | ⟨prev, hacc, hlinks⟩ := hprev
    · obtain ⟨rfl, _⟩ | ⟨prev', _, hlinks'⟩ := hprev'
      · rfl
      · have hpos := hlinks'.height_eq
        omega
    · obtain ⟨rfl, h0⟩ | ⟨prev', hacc', hlinks'⟩ := hprev'
      · have hpos := hlinks.height_eq
        omega
      · have hlink : prev.tipHash = prev'.tipHash := hlinks.prev_eq.symm.trans hlinks'.prev_eq
        have hsub : ∀ {bs : List Block}, (∀ x ∈ hashedStrings (bs ++ [block]), x ∈ S) →
            ∀ x ∈ hashedStrings bs, x ∈ S := by
          intro bs hall x hx
          exact hall x (by rw [hashedStrings, List.flatMap_append]; exact List.mem_append_left _ hx)
        rw [ih hacc hacc' (hsub hS) (hsub hS') hlink]

end Binding

/-- Equal tip hashes mean equal chains, or the two runs show a collision of the double hash
or a string that hashes to zero. -/
theorem tip_hash_commits {params params' : ConsensusParams} {blocks blocks' : List Block}
    {chain chain' : Chain} (h : Accepted params blocks chain) (h' : Accepted params' blocks' chain')
    (htip : chain.tipHash = chain'.tipHash) :
    (blocks.length = blocks'.length ∧ blocks = blocks') ∨
    (∃ x ∈ hashedStrings blocks ++ hashedStrings blocks',
      ∃ y ∈ hashedStrings blocks ++ hashedStrings blocks', x ≠ y ∧ sha256d x = sha256d y) ∨
    ∃ x ∈ hashedStrings blocks ++ hashedStrings blocks', sha256d x = zeroHash := by
  by_contra hno
  simp only [not_or, not_exists, not_and] at hno
  obtain ⟨hne, hcol, hzero⟩ := hno
  have hinj : Set.InjOn sha256d {x | x ∈ hashedStrings blocks ++ hashedStrings blocks'} := by
    intro x hx y hy hxy
    by_contra hd
    exact hcol x hx y hy hd hxy
  have heq := blocks_eq_of_tipHash_eq hinj hzero h h' (fun x hx => List.mem_append_left _ hx)
    (fun x hx => List.mem_append_right _ hx) htip
  exact hne (by rw [heq]) heq

/-- Two chains of a mint and a block with two transactions, under different maturities. -/
theorem tip_hash_commits_fee_block :
    Accepted ⟨50, 0⟩ [mintGenesis, feeBlock] ⟨feeBlock.header, feeUtxos, ⟨50, 0⟩⟩ ∧
    Accepted ⟨50, 1⟩ [mintGenesis, feeBlock] ⟨feeBlock.header, feeUtxos, ⟨50, 1⟩⟩ ∧
    (([mintGenesis, feeBlock].length = [mintGenesis, feeBlock].length ∧
        [mintGenesis, feeBlock] = [mintGenesis, feeBlock]) ∨
      (∃ x ∈ hashedStrings [mintGenesis, feeBlock] ++ hashedStrings [mintGenesis, feeBlock],
        ∃ y ∈ hashedStrings [mintGenesis, feeBlock] ++ hashedStrings [mintGenesis, feeBlock],
          x ≠ y ∧ sha256d x = sha256d y) ∨
      ∃ x ∈ hashedStrings [mintGenesis, feeBlock] ++ hashedStrings [mintGenesis, feeBlock],
        sha256d x = zeroHash) := by
  have h := mint_fee_accepted (by decide : (0 : UInt32) ≤ 1)
  have h' := mint_fee_accepted (by decide : (1 : UInt32) ≤ 1)
  exact ⟨h, h', tip_hash_commits h h' rfl⟩

end Blockchain
