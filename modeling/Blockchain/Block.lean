import Blockchain.Transaction
import Blockchain.Lib.HashTree

/-! Block headers, blocks, and the Merkle root over transaction ids. -/
namespace Blockchain
open Lib

def kBlockVersion : UInt32 := 1
def kMaxBlockSizeBytes : UInt32 := 1048576
def kMaxTransactionsPerBlock : UInt32 := 65536

structure BlockHeader where
  version : UInt32
  prevBlock : Hash256
  merkleRoot : Hash256
  timestamp : UInt64
  height : UInt32
deriving DecidableEq

structure Block where
  header : BlockHeader
  transactions : List Transaction
deriving DecidableEq

namespace BlockHeader

def serialize (header : BlockHeader) : Bytes :=
  putU32 header.version ++ putHash header.prevBlock ++ putHash header.merkleRoot ++
  putU64 header.timestamp ++ putU32 header.height

def deserialize : ByteReader BlockHeader := do
  let version ← ByteReader.getU32
  let prevBlock ← ByteReader.getHash
  let merkleRoot ← ByteReader.getHash
  let timestamp ← ByteReader.getU64
  let height ← ByteReader.getU32
  return ⟨version, prevBlock, merkleRoot, timestamp, height⟩

def hash (header : BlockHeader) : Hash256 := sha256d header.serialize

theorem deserialize_decodes : Decodes deserialize serialize (fun _ => True) := by
  intro header rest _
  rw [deserialize, serialize]
  simp only [List.append_assoc]
  rw [run_bind_of_ok (ByteReader.getU32_decodes _ _ trivial),
    run_bind_of_ok (ByteReader.getHash_decodes _ _ trivial),
    run_bind_of_ok (ByteReader.getHash_decodes _ _ trivial),
    run_bind_of_ok (ByteReader.getU64_decodes _ _ trivial),
    run_bind_of_ok (ByteReader.getU32_decodes _ _ trivial)]
  rfl

theorem deserialize_canonical : Canonical deserialize serialize (fun _ => True) := by
  intro data header rest h
  obtain ⟨version, data1, hversion, h⟩ := run_bind_eq_ok h
  obtain ⟨prevBlock, data2, hprev, h⟩ := run_bind_eq_ok h
  obtain ⟨merkleRoot, data3, hroot, h⟩ := run_bind_eq_ok h
  obtain ⟨timestamp, data4, htime, h⟩ := run_bind_eq_ok h
  obtain ⟨height, data5, hheight, h⟩ := run_bind_eq_ok h
  obtain ⟨hheader, hrest⟩ := run_pure_eq_ok h
  subst hheader hrest
  refine ⟨?_, trivial⟩
  rw [(ByteReader.getU32_canonical _ _ _ hversion).1, (ByteReader.getHash_canonical _ _ _ hprev).1,
    (ByteReader.getHash_canonical _ _ _ hroot).1, (ByteReader.getU64_canonical _ _ _ htime).1,
    (ByteReader.getU32_canonical _ _ _ hheight).1]
  simp only [serialize, List.append_assoc]

theorem serialize_injective {a b : BlockHeader} (h : a.serialize = b.serialize) : a = b :=
  deserialize_decodes.enc_injective trivial trivial h

@[simp] theorem serialize_length (header : BlockHeader) : header.serialize.length = 80 := by
  simp [serialize]

end BlockHeader

namespace Block

def serialize (block : Block) : Bytes :=
  block.header.serialize ++
  (putU32 (UInt32.ofNat block.transactions.length) ++
    block.transactions.flatMap Transaction.serialize)

def deserialize : ByteReader Block := do
  let header ← BlockHeader.deserialize
  let txCount ← ByteReader.getLength kMaxTransactionsPerBlock
  let transactions ← repeatDecode Transaction.deserialize txCount.toNat
  return ⟨header, transactions⟩

def toBytes (block : Block) : Bytes := block.serialize

def WithinLimits (block : Block) : Prop :=
  block.transactions.length ≤ kMaxTransactionsPerBlock.toNat ∧
  ∀ tx ∈ block.transactions, tx.WithinLimits

theorem deserialize_decodes : Decodes deserialize serialize WithinLimits := by
  intro block rest hv
  have hn : (UInt32.ofNat block.transactions.length).toNat = block.transactions.length :=
    UInt32.toNat_ofNat_of_lt' (lt_of_le_of_lt hv.1 (by decide))
  rw [deserialize, serialize]
  simp only [List.append_assoc]
  rw [run_bind_of_ok (BlockHeader.deserialize_decodes _ _ trivial),
    run_bind_of_ok (ByteReader.getLength_ofNat _ _ _ hv.1), hn,
    run_bind_of_ok (Transaction.deserialize_decodes.repeat _ _ hv.2)]
  rfl

theorem deserialize_canonical : Canonical deserialize serialize WithinLimits := by
  intro data block rest h
  obtain ⟨header, data1, hheader, h⟩ := run_bind_eq_ok h
  obtain ⟨transactions, data2, htxs, hn, hlimits, h⟩ :=
    ByteReader.counted_canonical Transaction.deserialize_canonical h
  obtain ⟨hblock, hrest⟩ := run_pure_eq_ok h
  subst hblock hrest
  refine ⟨?_, hn, hlimits⟩
  rw [(BlockHeader.deserialize_canonical _ _ _ hheader).1, htxs]
  simp only [serialize, List.append_assoc]

theorem toBytes_length_pos (block : Block) : 0 < block.toBytes.length := by
  simp [toBytes, serialize]

end Block

theorem block_toBytes_length (block : Block) :
    block.toBytes.length = 84 + (block.transactions.map fun tx => tx.toBytes.length).sum := by
  simp only [Block.toBytes, Block.serialize, List.length_append, BlockHeader.serialize_length,
    putU32_length, List.length_flatMap, Transaction.toBytes]
  omega

/-- Transactions and blocks are read back from their encodings with the rest unread, and
every accepted input begins with the encoding of what was read. So encodings are injective,
none continues another, and a value has one accepted encoding. -/
theorem encoding_canonical :
    (∀ (tx : Transaction) (rest : Bytes),
      tx.inputs.length ≤ 4096 → tx.outputs.length ≤ 4096 →
      Transaction.deserialize.run (tx.toBytes ++ rest) = .ok (tx, rest)) ∧
    (∀ (block : Block) (rest : Bytes), block.transactions.length ≤ 65536 →
      (∀ tx ∈ block.transactions, tx.inputs.length ≤ 4096 ∧ tx.outputs.length ≤ 4096) →
      Block.deserialize.run (block.toBytes ++ rest) = .ok (block, rest)) ∧
    (∀ (data rest : Bytes) (tx : Transaction),
      Transaction.deserialize.run data = .ok (tx, rest) → data = tx.toBytes ++ rest) ∧
    (∀ (data rest : Bytes) (block : Block),
      Block.deserialize.run data = .ok (block, rest) → data = block.toBytes ++ rest) ∧
    (∀ (tx tx' : Transaction) (rest rest' : Bytes), tx.WithinLimits → tx'.WithinLimits →
      tx.toBytes ++ rest = tx'.toBytes ++ rest' → tx = tx' ∧ rest = rest') ∧
    (∀ (block block' : Block) (rest rest' : Bytes), block.WithinLimits → block'.WithinLimits →
      block.toBytes ++ rest = block'.toBytes ++ rest' → block = block' ∧ rest = rest') ∧
    (∀ (data data' : Bytes) (tx : Transaction), Transaction.deserialize.run data = .ok (tx, []) →
      Transaction.deserialize.run data' = .ok (tx, []) → data = data') ∧
    (∀ (data data' : Bytes) (block : Block), Block.deserialize.run data = .ok (block, []) →
      Block.deserialize.run data' = .ok (block, []) → data = data') :=
  ⟨fun tx rest hi ho => Transaction.deserialize_decodes tx rest ⟨hi, ho⟩,
    fun block rest hn htxs => Block.deserialize_decodes block rest ⟨hn, htxs⟩,
    fun data rest tx h => (Transaction.deserialize_canonical data tx rest h).1,
    fun data rest block h => (Block.deserialize_canonical data block rest h).1,
    fun _ _ _ _ h h' he => Transaction.deserialize_decodes.enc_append_inj h h' he,
    fun _ _ _ _ h h' he => Block.deserialize_decodes.enc_append_inj h h' he,
    fun _ _ _ h h' => Transaction.deserialize_canonical.input_unique h h',
    fun _ _ _ h h' => Block.deserialize_canonical.input_unique h h'⟩

theorem encoding_canonical_coinbase :
    Transaction.deserialize.run ((makeCoinbase 1 50 zeroHash).toBytes ++ [7]) =
      .ok (makeCoinbase 1 50 zeroHash, [7]) ∧
    Block.deserialize.run
      ((Block.mk ⟨1, zeroHash, zeroHash, 0, 1⟩ [makeCoinbase 1 50 zeroHash]).toBytes ++ [7]) =
      .ok (⟨⟨1, zeroHash, zeroHash, 0, 1⟩, [makeCoinbase 1 50 zeroHash]⟩, [7]) :=
  ⟨encoding_canonical.1 _ _ (by decide) (by decide),
    encoding_canonical.2.1 _ _ (by decide) (by decide)⟩

def merkleNode (left right : Hash256) : Bytes := putHash left ++ putHash right

def computeMerkleRoot (transactions : List Transaction) : Hash256 :=
  if transactions.isEmpty then zeroHash
  else HashTree.root sha256d merkleNode zeroHash transactions.length
    (transactions.map Transaction.txid)

/-- The node strings hashed while computing the Merkle root. -/
def merkleNodeStrings (transactions : List Transaction) : List Bytes :=
  HashTree.nodeStrings sha256d merkleNode transactions.length (transactions.map Transaction.txid)

theorem merkleNode_length (a b : Hash256) : (merkleNode a b).length = 64 := by
  simp [merkleNode]

theorem merkleNode_injective (a b a' b' : Hash256) (h : merkleNode a b = merkleNode a' b') :
    a = a' ∧ b = b' := by
  have hs := List.append_inj h (by simp)
  exact ⟨putHash_injective hs.1, putHash_injective hs.2⟩

end Blockchain
