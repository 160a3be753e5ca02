import Blockchain.Chain

/-! The ledger file: its checksummed format, how it is written through a temporary file and
read back, and how a chain is rebuilt from it by replaying every block. -/
namespace Blockchain
open Lib

def kLedgerMagic : UInt32 := 0xBC570001
def kLedgerFormatVersion : UInt32 := 2
def kLedgerFormatVersion1 : UInt32 := 1
def kMaxLedgerBlocks : UInt32 := 1000000
def kMaxLedgerMempoolTransactions : UInt32 := 10000

structure LedgerData where
  blocks : List Block
  params : ConsensusParams
  mempoolTransactions : List Transaction
deriving DecidableEq

def leadingWord (digest : Hash256) : UInt32 := UInt32.ofNat (leValue (digest.bytes.take 4))

def ledgerChecksum (body : Bytes) : UInt32 := leadingWord (sha256 body)

def withLedgerChecksum (body : Bytes) : Bytes := putBytes body ++ putU32 (ledgerChecksum body)

def putBlock (block : Block) : Result Bytes :=
  if block.toBytes.length > kMaxBlockSizeBytes.toNat then
    makeError .resourceLimitExceeded "block exceeds maximum encoded size"
  else .ok (putVarBytes block.toBytes)

def getBlock : ByteReader Block := ByteReader.getNested kMaxBlockSizeBytes Block.deserialize

def putTransaction (tx : Transaction) : Result Bytes :=
  if tx.toBytes.length > kMaxTransactionSizeBytes.toNat then
    makeError .resourceLimitExceeded "transaction exceeds maximum encoded size"
  else .ok (putVarBytes tx.toBytes)

def getTransaction : ByteReader Transaction :=
  ByteReader.getNested kMaxTransactionSizeBytes Transaction.deserialize

def putEach {α : Type} (put : α → Result Bytes) : List α → Result Bytes
  | [] => .ok []
  | a :: rest => do
    let bytes ← put a
    let more ← putEach put rest
    .ok (bytes ++ more)

def checkContiguous : Block → List Block → Result Unit
  | _, [] => .ok ()
  | prev, block :: rest =>
    if block.header.height ≠ prev.header.height + 1 then
      makeError .storageCorruption "block heights are not contiguous"
    else checkContiguous block rest

def validateBlockSequence : List Block → Result Unit
  | [] => makeError .storageCorruption "ledger contains no blocks"
  | genesis :: rest =>
    if genesis.header.height ≠ 0 then makeError .storageCorruption "genesis must be at height 0"
    else checkContiguous genesis rest

def replayBlocks (chain : Chain) : List Block → Result Chain
  | [] => .ok chain
  | block :: rest => do
    let (_, next, _) ← chain.submitBlock block none
    replayBlocks next rest

def replaySequence (params : ConsensusParams) : List Block → Result Chain
  | [] => makeError .storageCorruption "ledger contains no blocks"
  | genesis :: rest => do
    let chain ← Chain.create genesis params
    replayBlocks chain rest

def replayChain (blocks : List Block) (params : ConsensusParams) : Result Chain := do
  validateBlockSequence blocks
  replaySequence params blocks

def encodeLedger (blocks : List Block) (params : ConsensusParams) (mempool : List Transaction) :
    Result Bytes :=
  if blocks.length > kMaxLedgerBlocks.toNat then
    makeError .resourceLimitExceeded "too many blocks for ledger"
  else if mempool.length > kMaxLedgerMempoolTransactions.toNat then
    makeError .resourceLimitExceeded "too many mempool transactions for ledger"
  else do
    let blockBytes ← putEach putBlock blocks
    let mempoolBytes ← putEach putTransaction mempool
    .ok (withLedgerChecksum
      (putU32 kLedgerMagic ++ putU32 kLedgerFormatVersion ++ putU64 params.blockSubsidy ++
        putU32 params.coinbaseMaturity ++ putU32 (UInt32.ofNat blocks.length) ++ blockBytes ++
        putU32 (UInt32.ofNat mempool.length) ++ mempoolBytes))

/-- Too few bytes for the magic are reported as a wrong magic. -/
def getLedgerMagic : ByteReader Unit := fun data =>
  match ByteReader.getU32.run data with
  | .error _ => makeError .storageCorruption "ledger magic mismatch"
  | .ok (magic, rest) =>
    if magic ≠ kLedgerMagic then makeError .storageCorruption "ledger magic mismatch"
    else .ok ((), rest)

/-- The mempool snapshot, which version 1 does not have. -/
def getMempoolSnapshot (version : UInt32) : ByteReader (List Transaction) :=
  if version ≥ kLedgerFormatVersion then do
    let mempoolCount ← ByteReader.getU32
    if mempoolCount > kMaxLedgerMempoolTransactions then
      throw ⟨.storageCorruption, "ledger mempool count out of range"⟩
    else repeatDecode getTransaction mempoolCount.toNat
  else return []

def getLedger : ByteReader LedgerData := do
  getLedgerMagic
  let version ← ByteReader.getU32
  if version ≠ kLedgerFormatVersion ∧ version ≠ kLedgerFormatVersion1 then
    throw ⟨.unsupportedVersion, "unsupported ledger format version"⟩
  else do
    let subsidy ← ByteReader.getU64
    let maturity ← ByteReader.getU32
    let count ← ByteReader.getU32
    if count = 0 ∨ count > kMaxLedgerBlocks then
      throw ⟨.storageCorruption, "ledger block count out of range"⟩
    else do
      let blocks ← repeatDecode getBlock count.toNat
      let mempool ← getMempoolSnapshot version
      return ⟨blocks, ⟨subsidy, maturity⟩, mempool⟩

def decodeLedger (bytes : Bytes) : Result LedgerData :=
  if bytes.length < 4 then makeError .storageCorruption "ledger file is too short"
  else
    let body := bytes.take (bytes.length - 4)
    let actual := UInt32.ofNat (leValue (bytes.drop (bytes.length - 4)))
    if actual ≠ ledgerChecksum body then
      makeError .storageCorruption "ledger checksum mismatch"
    else do
      let ledger ← ByteReader.parse (ByteReader.exactly getLedger) body
      validateBlockSequence ledger.blocks
      .ok ledger

/-! The data directory. -/

/-- The ledger file and the temporary file next to it; `none` cannot be opened. -/
structure DataDir where
  ledger : Option Bytes
  temp : Option Bytes
deriving DecidableEq

/-- What the platform does during a save: the text of a failed directory creation, whether
the temporary file opens, how many bytes a failing write leaves behind, how many bytes a
flush on closing keeps when it fails (which nothing reports), and the text of a failed
rename. -/
structure SaveEnv where
  directoryError : Option String := none
  tempOpens : Bool := true
  writeStops : Option Nat := none
  closeStops : Option Nat := none
  renameError : Option String := none

def createDirectory (env : SaveEnv) : Result Unit :=
  match env.directoryError with
  | none => .ok ()
  | some reason => makeError .storageCorruption ("cannot create data directory: " ++ reason)

/-- What closing the temporary file leaves in it. -/
def SaveEnv.flushed (env : SaveEnv) (bytes : Bytes) : Bytes :=
  match env.closeStops with
  | none => bytes
  | some kept => bytes.take kept

def writeFileAtomic (bytes : Bytes) (env : SaveEnv) (dir : DataDir) : Result Unit × DataDir :=
  if env.tempOpens = false then
    (makeError .storageCorruption "cannot open ledger temp file for write", dir)
  else match env.writeStops with
    | some kept =>
      (makeError .storageCorruption "ledger temp file write failed",
        { dir with temp := some (bytes.take kept) })
    | none =>
      match env.renameError with
      | some reason =>
        (makeError .storageCorruption ("ledger atomic rename failed: " ++ reason),
          { dir with temp := some (env.flushed bytes) })
      -- the stream's destructor closes the file, so a failed flush is not noticed
      | none => (.ok (), ⟨some (env.flushed bytes), none⟩)

/-- The part of `save_ledger` that touches the disk. -/
def writeLedger (bytes : Bytes) (env : SaveEnv) (dir : DataDir) : Result Unit × DataDir :=
  match createDirectory env with
  | .error e => (.error e, dir)
  | .ok () => writeFileAtomic bytes env dir

/-- The part of `save_ledger` before the disk is touched. -/
def ledgerBytes (blocks : List Block) (params : ConsensusParams) (mempool : List Transaction) :
    Result Bytes := do
  validateBlockSequence blocks
  encodeLedger blocks params mempool

def saveLedger (blocks : List Block) (params : ConsensusParams) (mempool : List Transaction)
    (env : SaveEnv) (dir : DataDir) : Result Unit × DataDir :=
  match ledgerBytes blocks params mempool with
  | .error e => (.error e, dir)
  | .ok bytes => writeLedger bytes env dir

def kMaxLedgerFileBytes : Nat := kMaxBlockSizeBytes.toNat * kMaxLedgerBlocks.toNat + 1024

def readFile (dir : DataDir) : Result Bytes :=
  match dir.ledger with
  | none => makeError .storageCorruption "ledger file is missing or unreadable"
  | some bytes =>
    if bytes.length > kMaxLedgerFileBytes then
      makeError .resourceLimitExceeded "ledger file is too large"
    else .ok bytes

def ledgerExists (dir : DataDir) : Bool :=
  match dir.ledger with
  | none => false
  | some bytes => decide (0 < bytes.length)

def loadLedger (dir : DataDir) : Result LedgerData := do
  let bytes ← readFile dir
  decodeLedger bytes

def loadChain (dir : DataDir) : Result Chain := do
  let ledger ← loadLedger dir
  replayChain ledger.blocks ledger.params

theorem loadLedger_of_fits {dir : DataDir} {bytes : Bytes} (h : dir.ledger = some bytes)
    (hlen : bytes.length ≤ kMaxLedgerFileBytes) : loadLedger dir = decodeLedger bytes := by
  simp only [loadLedger, readFile, h, gt_iff_lt, if_neg (Nat.not_lt.mpr hlen), ok_bind]

/-! The format round trip. -/

def Block.Fits (block : Block) : Prop :=
  block.WithinLimits ∧ block.toBytes.length ≤ kMaxBlockSizeBytes.toNat

def Transaction.Fits (tx : Transaction) : Prop :=
  tx.WithinLimits ∧ tx.toBytes.length ≤ kMaxTransactionSizeBytes.toNat

theorem Block.Sane.withinLimits {block : Block} (h : block.Sane) : block.WithinLimits :=
  ⟨h.count_le, fun tx htx => (h.txs_sane tx htx).limits⟩

theorem Block.Sane.fits {block : Block} (h : block.Sane) : block.Fits :=
  ⟨h.withinLimits, h.size_le⟩

theorem Transaction.Sane.fits {tx : Transaction} (h : tx.Sane) : tx.Fits := ⟨h.limits, h.size_le⟩

theorem getBlock_decodes : Decodes getBlock (fun b => putVarBytes b.toBytes) Block.Fits :=
  ByteReader.getNested_decodes Block.deserialize_decodes kMaxBlockSizeBytes

theorem getTransaction_decodes :
    Decodes getTransaction (fun tx => putVarBytes tx.toBytes) Transaction.Fits :=
  ByteReader.getNested_decodes Transaction.deserialize_decodes kMaxTransactionSizeBytes

theorem putEach_eq_ok {α : Type} {put : α → Result Bytes} {enc : α → Bytes} {fits : α → Prop}
    (hput : ∀ a bytes, put a = .ok bytes ↔ fits a ∧ enc a = bytes) {as : List α} {bytes : Bytes} :
    putEach put as = .ok bytes ↔ (∀ a ∈ as, fits a) ∧ as.flatMap enc = bytes := by
  induction as generalizing bytes with
  | nil => simp [putEach]
  | cons a as ih =>
    rw [putEach, bind_eq_ok, List.forall_mem_cons, List.flatMap_cons]
    constructor
    · intro h
      obtain ⟨head, ha, h⟩ := h
      obtain ⟨tail, has, h⟩ := bind_eq_ok.mp h
      obtain ⟨hfit, hhead⟩ := (hput a head).mp ha
      obtain ⟨hfits, htail⟩ := ih.mp has
      rw [hhead, htail]
      exact ⟨⟨hfit, hfits⟩, Except.ok.inj h⟩
    · intro h
      obtain ⟨⟨hfit, hfits⟩, hbytes⟩ := h
      refine ⟨enc a, (hput a _).mpr ⟨hfit, rfl⟩, ?_⟩
      rw [ih.mpr ⟨hfits, rfl⟩, ok_bind, hbytes]

theorem putBlocks_ok {blocks : List Block} {bytes : Bytes} :
    putEach putBlock blocks = .ok bytes ↔
      (∀ b ∈ blocks, b.toBytes.length ≤ kMaxBlockSizeBytes.toNat) ∧
        (blocks.flatMap fun b => putVarBytes b.toBytes) = bytes :=
  putEach_eq_ok fun b bytes => by rw [putBlock, guard_eq_ok, gt_iff_lt, Nat.not_lt, Except.ok.injEq]

theorem putTransactions_ok {txs : List Transaction} {bytes : Bytes} :
    putEach putTransaction txs = .ok bytes ↔
      (∀ tx ∈ txs, tx.toBytes.length ≤ kMaxTransactionSizeBytes.toNat) ∧
        (txs.flatMap fun tx => putVarBytes tx.toBytes) = bytes :=
  putEach_eq_ok fun tx bytes => by
    rw [putTransaction, guard_eq_ok, gt_iff_lt, Nat.not_lt, Except.ok.injEq]

structure Storable (blocks : List Block) (mempool : List Transaction) : Prop where
  blocks_ne : blocks ≠ []
  blocks_le : blocks.length ≤ kMaxLedgerBlocks.toNat
  blocks_sane : ∀ b ∈ blocks, b.Sane
  mempool_le : mempool.length ≤ kMaxLedgerMempoolTransactions.toNat
  mempool_sane : ∀ tx ∈ mempool, tx.Sane

/-- The blocks and transactions the format itself can hold, sane or not. -/
structure Encodable (blocks : List Block) (mempool : List Transaction) : Prop where
  blocks_ne : blocks ≠ []
  blocks_le : blocks.length ≤ kMaxLedgerBlocks.toNat
  blocks_fit : ∀ b ∈ blocks, b.Fits
  mempool_le : mempool.length ≤ kMaxLedgerMempoolTransactions.toNat
  mempool_fit : ∀ tx ∈ mempool, tx.Fits

theorem Storable.encodable {blocks : List Block} {mempool : List Transaction}
    (h : Storable blocks mempool) : Encodable blocks mempool :=
  ⟨h.blocks_ne, h.blocks_le, fun b hb => (h.blocks_sane b hb).fits, h.mempool_le,
    fun tx htx => (h.mempool_sane tx htx).fits⟩

def ledgerBody (blocks : List Block) (params : ConsensusParams)
    (mempool : List Transaction) : Bytes :=
  putU32 kLedgerMagic ++ putU32 kLedgerFormatVersion ++ putU64 params.blockSubsidy ++
    putU32 params.coinbaseMaturity ++ putU32 (UInt32.ofNat blocks.length) ++
    blocks.flatMap (fun b => putVarBytes b.toBytes) ++
    putU32 (UInt32.ofNat mempool.length) ++ mempool.flatMap (fun tx => putVarBytes tx.toBytes)

/-- The limits under which a ledger is written. -/
structure WithinLedgerLimits (blocks : List Block) (mempool : List Transaction) : Prop where
  blocks_le : blocks.length ≤ kMaxLedgerBlocks.toNat
  mempool_le : mempool.length ≤ kMaxLedgerMempoolTransactions.toNat
  block_size : ∀ b ∈ blocks, b.toBytes.length ≤ kMaxBlockSizeBytes.toNat
  tx_size : ∀ tx ∈ mempool, tx.toBytes.length ≤ kMaxTransactionSizeBytes.toNat

theorem Encodable.withinLedgerLimits {blocks : List Block} {mempool : List Transaction}
    (h : Encodable blocks mempool) : WithinLedgerLimits blocks mempool :=
  ⟨h.blocks_le, h.mempool_le, fun b hb => (h.blocks_fit b hb).2,
    fun tx htx => (h.mempool_fit tx htx).2⟩

theorem encodeLedger_eq_ok {blocks : List Block} {params : ConsensusParams}
    {mempool : List Transaction} {bytes : Bytes} :
    encodeLedger blocks params mempool = .ok bytes ↔
      WithinLedgerLimits blocks mempool ∧
        bytes = withLedgerChecksum (ledgerBody blocks params mempool) := by
  rw [encodeLedger, guard_eq_ok, guard_eq_ok, gt_iff_lt, gt_iff_lt, Nat.not_lt, Nat.not_lt]
  constructor
  · intro h
    obtain ⟨hblocks, hmempool, h⟩ := h
    obtain ⟨blockBytes, hb, h⟩ := bind_eq_ok.mp h
    obtain ⟨mempoolBytes, hm, h⟩ := bind_eq_ok.mp h
    obtain ⟨hbsize, hbbytes⟩ := putBlocks_ok.mp hb
    obtain ⟨hmsize, hmbytes⟩ := putTransactions_ok.mp hm
    rw [← Except.ok.inj h, ← hbbytes, ← hmbytes]
    exact ⟨⟨hblocks, hmempool, hbsize, hmsize⟩, rfl⟩
  · intro h
    obtain ⟨hl, hbytes⟩ := h
    refine ⟨hl.blocks_le, hl.mempool_le, ?_⟩
    rw [putBlocks_ok.mpr ⟨hl.block_size, rfl⟩, putTransactions_ok.mpr ⟨hl.tx_size, rfl⟩, hbytes]
    rfl

theorem encodeLedger_ok {blocks : List Block} {mempool : List Transaction}
    (h : Encodable blocks mempool) (params : ConsensusParams) :
    encodeLedger blocks params mempool =
      .ok (withLedgerChecksum (ledgerBody blocks params mempool)) :=
  encodeLedger_eq_ok.mpr ⟨h.withinLedgerLimits, rfl⟩

def ledgerSize (blocks : List Block) (mempool : List Transaction) : Nat :=
  32 + (blocks.map fun b => b.toBytes.length + 4).sum +
    (mempool.map fun tx => tx.toBytes.length + 4).sum

theorem encodedLedger_length (blocks : List Block) (params : ConsensusParams)
    (mempool : List Transaction) :
    (withLedgerChecksum (ledgerBody blocks params mempool)).length = ledgerSize blocks mempool := by
  simp only [withLedgerChecksum, ledgerBody, putBytes, List.length_append, putU32_length,
    putU64_length, List.length_flatMap, putVarBytes_length, ledgerSize]
  omega

theorem single_ledger_length (block : Block) (params : ConsensusParams) :
    (withLedgerChecksum (ledgerBody [block] params [])).length = block.toBytes.length + 36 := by
  rw [encodedLedger_length, ledgerSize, List.map_singleton, List.sum_singleton, List.map_nil,
    List.sum_nil]
  omega

theorem getLedgerMagic_run (rest : Bytes) :
    getLedgerMagic.run (putU32 kLedgerMagic ++ rest) = .ok ((), rest) := by
  change getLedgerMagic (putU32 kLedgerMagic ++ rest) = _
  simp only [getLedgerMagic, ByteReader.getU32_decodes kLedgerMagic rest trivial, ne_eq,
    not_true_eq_false, if_false]

theorem toNat_ofNat_le {n : Nat} {bound : UInt32} (h : n ≤ bound.toNat) :
    (UInt32.ofNat n).toNat = n :=
  UInt32.toNat_ofNat_of_lt' (lt_of_le_of_lt h bound.toNat_lt)

theorem getMempoolSnapshot_run {mempool : List Transaction}
    (hle : mempool.length ≤ kMaxLedgerMempoolTransactions.toNat) (hfit : ∀ tx ∈ mempool, tx.Fits)
    (rest : Bytes) :
    (getMempoolSnapshot kLedgerFormatVersion).run
      (putU32 (UInt32.ofNat mempool.length) ++
        (mempool.flatMap (fun tx => putVarBytes tx.toBytes) ++ rest)) = .ok (mempool, rest) := by
  have hn := toNat_ofNat_le hle
  have hcount : ¬ UInt32.ofNat mempool.length > kMaxLedgerMempoolTransactions := by
    rw [gt_iff_lt, UInt32.lt_iff_toNat_lt, hn]
    exact Nat.not_lt.mpr hle
  rw [getMempoolSnapshot, if_pos (UInt32.le_refl _),
    run_bind_of_ok (ByteReader.getU32_decodes _ _ trivial), if_neg hcount, hn]
  exact getTransaction_decodes.repeat mempool rest hfit

theorem getLedger_versioned {version : UInt32}
    (hversion : version = kLedgerFormatVersion ∨ version = kLedgerFormatVersion1)
    {blocks : List Block} {mempool : List Transaction} (h : Encodable blocks mempool)
    (params : ConsensusParams) {snapshot : Bytes}
    (hmempool : (getMempoolSnapshot version).run snapshot = .ok (mempool, [])) :
    getLedger.run (putU32 kLedgerMagic ++ (putU32 version ++ (putU64 params.blockSubsidy ++
      (putU32 params.coinbaseMaturity ++ (putU32 (UInt32.ofNat blocks.length) ++
        (blocks.flatMap (fun b => putVarBytes b.toBytes) ++ snapshot)))))) =
      .ok (⟨blocks, params, mempool⟩, []) := by
  have hn := toNat_ofNat_le h.blocks_le
  have hpos : 0 < blocks.length := List.length_pos_iff.mpr h.blocks_ne
  have hcount : ¬ (UInt32.ofNat blocks.length = 0 ∨
      UInt32.ofNat blocks.length > kMaxLedgerBlocks) := by
    rw [← UInt32.toNat_inj, gt_iff_lt, UInt32.lt_iff_toNat_lt, hn]
    have hle := h.blocks_le
    simp only [UInt32.toNat_zero]
    omega
  have hblocks := getBlock_decodes.repeat blocks snapshot h.blocks_fit
  have hknown : ¬ (version ≠ kLedgerFormatVersion ∧ version ≠ kLedgerFormatVersion1) := by
    rw [not_and_or, not_not, not_not]
    exact hversion
  rw [getLedger, run_bind_of_ok (getLedgerMagic_run _),
    run_bind_of_ok (ByteReader.getU32_decodes _ _ trivial), if_neg hknown,
    run_bind_of_ok (ByteReader.getU64_decodes _ _ trivial),
    run_bind_of_ok (ByteReader.getU32_decodes _ _ trivial),
    run_bind_of_ok (ByteReader.getU32_decodes _ _ trivial), if_neg hcount, hn,
    run_bind_of_ok hblocks, run_bind_of_ok hmempool]
  rfl

theorem getLedger_run {blocks : List Block} {mempool : List Transaction}
    (h : Encodable blocks mempool) (params : ConsensusParams) :
    getLedger.run (ledgerBody blocks params mempool) = .ok (⟨blocks, params, mempool⟩, []) := by
  have hmempool := getMempoolSnapshot_run h.mempool_le h.mempool_fit []
  rw [List.append_nil] at hmempool
  rw [ledgerBody]
  simp only [List.append_assoc]
  exact getLedger_versioned (.inl rfl) h params hmempool

theorem decodeLedger_checksum (body : Bytes) :
    decodeLedger (withLedgerChecksum body) = (do
      let ledger ← ByteReader.parse (ByteReader.exactly getLedger) body
      validateBlockSequence ledger.blocks
      .ok ledger) := by
  have hlen : (withLedgerChecksum body).length = body.length + 4 := by
    simp [withLedgerChecksum, putBytes]
  have htake : (withLedgerChecksum body).take ((withLedgerChecksum body).length - 4) = body := by
    rw [hlen]
    simp [withLedgerChecksum, putBytes]
  have hdrop : (withLedgerChecksum body).drop ((withLedgerChecksum body).length - 4) =
      putU32 (ledgerChecksum body) := by
    rw [hlen]
    simp [withLedgerChecksum, putBytes]
  have hword : UInt32.ofNat (leValue (putU32 (ledgerChecksum body))) = ledgerChecksum body := by
    rw [putU32, leValue_leBytes _ _ (by simpa using (ledgerChecksum body).toNat_lt)]
    simp
  simp only [decodeLedger, htake, hdrop, hword, ne_eq, not_true_eq_false, if_false]
  rw [if_neg (by omega)]

theorem checkContiguous_ok {prev : Block} {rest : List Block} {n : Nat}
    (hprev : prev.header.height.toNat = n) (hlen : n + rest.length < 2 ^ 32) :
    checkContiguous prev rest = .ok () ↔
      ∀ i (b : Block), rest[i]? = some b → b.header.height.toNat = n + 1 + i := by
  induction rest generalizing prev n with
  | nil => simp [checkContiguous]
  | cons block rest ih =>
    rw [List.length_cons] at hlen
    have hone : (1 : UInt32).toNat = 1 := rfl
    have hnext : block.header.height = prev.header.height + 1 ↔
        block.header.height.toNat = n + 1 := by
      rw [← UInt32.toNat_inj, UInt32.toNat_add, hone, hprev, Nat.mod_eq_of_lt (by omega)]
    rw [checkContiguous, guard_eq_ok, not_not, hnext]
    constructor
    · intro h
      obtain ⟨hblock, h⟩ := h
      intro i b hb
      cases i with
      | zero =>
        have heq : block = b := by simpa using hb
        rw [← heq]
        exact hblock
      | succ i =>
        have hi := (ih hblock (by omega)).mp h i b (by simpa using hb)
        omega
    · intro h
      have hblock := h 0 block rfl
      refine ⟨hblock, (ih hblock (by omega)).mpr ?_⟩
      intro i b hb
      have hi := h (i + 1) b (by simpa using hb)
      omega

theorem validateBlockSequence_ok {blocks : List Block} (hlen : blocks.length ≤ 2 ^ 32) :
    validateBlockSequence blocks = .ok () ↔
      blocks ≠ [] ∧ ∀ i (b : Block), blocks[i]? = some b → b.header.height.toNat = i := by
  cases blocks with
  | nil => simp [validateBlockSequence]
  | cons genesis rest =>
    rw [List.length_cons] at hlen
    have hzero : genesis.header.height = 0 ↔ genesis.header.height.toNat = 0 := by
      rw [← UInt32.toNat_inj]
      rfl
    rw [validateBlockSequence, guard_eq_ok, not_not, hzero]
    constructor
    · intro h
      obtain ⟨hgenesis, h⟩ := h
      refine ⟨by simp, ?_⟩
      intro i b hb
      cases i with
      | zero =>
        have heq : genesis = b := by simpa using hb
        rw [← heq]
        exact hgenesis
      | succ i =>
        have hi := (checkContiguous_ok hgenesis (by omega)).mp h i b (by simpa using hb)
        omega
    · intro h
      have hgenesis := h.2 0 genesis rfl
      refine ⟨hgenesis, (checkContiguous_ok hgenesis (by omega)).mpr ?_⟩
      intro i b hb
      have hi := h.2 (i + 1) b (by simpa using hb)
      omega

theorem validateBlockSequence_of_heights {blocks : List Block} (hne : blocks ≠ [])
    (h : ∀ i (b : Block), blocks[i]? = some b → b.header.height.toNat = i) :
    validateBlockSequence blocks = .ok () := by
  have hpos := List.length_pos_iff.mpr hne
  obtain ⟨last, hlast⟩ : ∃ b, blocks[blocks.length - 1]? = some b :=
    ⟨_, List.getElem?_eq_getElem (by omega)⟩
  have hheight := h _ last hlast
  have hlt := last.header.height.toNat_lt
  exact (validateBlockSequence_ok (by omega)).mpr ⟨hne, h⟩

theorem decodeLedger_body {blocks : List Block} {mempool : List Transaction}
    (h : Encodable blocks mempool) (params : ConsensusParams)
    (hseq : validateBlockSequence blocks = .ok ()) :
    decodeLedger (withLedgerChecksum (ledgerBody blocks params mempool)) =
      .ok ⟨blocks, params, mempool⟩ := by
  rw [decodeLedger_checksum,
    ByteReader.parse_of_run (ByteReader.run_exactly (getLedger_run h params)), ok_bind, hseq]
  rfl

theorem decodeLedger_encodeLedger {blocks : List Block} {mempool : List Transaction} {bytes : Bytes}
    (h : Storable blocks mempool) {params : ConsensusParams}
    (hheights : ∀ i (b : Block), blocks[i]? = some b → b.header.height.toNat = i)
    (henc : encodeLedger blocks params mempool = .ok bytes) :
    decodeLedger bytes = .ok ⟨blocks, params, mempool⟩ := by
  rw [encodeLedger_ok h.encodable] at henc
  rw [← Except.ok.inj henc]
  exact decodeLedger_body h.encodable params (validateBlockSequence_of_heights h.blocks_ne hheights)

/-! Replay. -/

theorem replayBlocks_append (chain : Chain) (xs ys : List Block) :
    replayBlocks chain (xs ++ ys) = replayBlocks chain xs >>= fun c => replayBlocks c ys := by
  induction xs generalizing chain with
  | nil => rfl
  | cons block xs ih =>
    rw [List.cons_append, replayBlocks, replayBlocks]
    cases chain.submitBlock block none with
    | error e => rfl
    | ok r => exact ih r.2.1

theorem Chain.submitBlock_none {chain next : Chain} {block : Block} {pool pool' : Option Mempool}
    {fees : UInt64} (h : chain.submitBlock block pool = .ok (fees, next, pool')) :
    chain.submitBlock block none = .ok (fees, next, none) := by
  obtain ⟨hlinks, hconn, _⟩ := Chain.submitBlock_ok.mp h
  exact Chain.submitBlock_ok.mpr ⟨hlinks, hconn, rfl⟩

theorem Accepted.ne_nil {params : ConsensusParams} {blocks : List Block} {chain : Chain}
    (h : Accepted params blocks chain) : blocks ≠ [] := by
  have hlen := h.height_eq
  intro hnil
  rw [hnil] at hlen
  simp at hlen

theorem Accepted.replaySequence {params : ConsensusParams} {blocks : List Block} {chain : Chain}
    (h : Accepted params blocks chain) : replaySequence params blocks = .ok chain := by
  induction h with
  | create h =>
    rw [Blockchain.replaySequence, h]
    rfl
  | @submit bs chain next block fees pool pool' hacc hb ih =>
    cases bs with
    | nil => exact absurd rfl hacc.ne_nil
    | cons genesis rest =>
      rw [Blockchain.replaySequence] at ih
      obtain ⟨start, hstart, hrest⟩ := bind_eq_ok.mp ih
      rw [List.cons_append, Blockchain.replaySequence, hstart, ok_bind, replayBlocks_append, hrest,
        ok_bind, replayBlocks, Chain.submitBlock_none hb]
      rfl

theorem Accepted.unique {params : ConsensusParams} {blocks : List Block} {chain chain' : Chain}
    (h : Accepted params blocks chain) (h' : Accepted params blocks chain') : chain = chain' :=
  Except.ok.inj (h.replaySequence.symm.trans h'.replaySequence)

theorem Accepted.next_block {params : ConsensusParams} {blocks rest : List Block} {block : Block}
    {chain final : Chain} (h : Accepted params blocks chain)
    (hall : Accepted params (blocks ++ block :: rest) final) :
    ∃ fees next, chain.submitBlock block none = .ok (fees, next, none) := by
  have hreplay := hall.replaySequence
  have hpart := h.replaySequence
  cases blocks with
  | nil => exact absurd rfl h.ne_nil
  | cons genesis blocks =>
    rw [List.cons_append, Blockchain.replaySequence] at hreplay
    rw [Blockchain.replaySequence] at hpart
    obtain ⟨start, hstart, hrest⟩ := bind_eq_ok.mp hpart
    rw [hstart, ok_bind, replayBlocks_append, hrest, ok_bind, Blockchain.replayBlocks] at hreplay
    obtain ⟨⟨fees, next, pool⟩, hs, _⟩ := bind_eq_ok.mp hreplay
    exact ⟨fees, next, Chain.submitBlock_none hs⟩

theorem Accepted.replayBlocks {params : ConsensusParams} {blocks rest : List Block}
    {chain final : Chain} (h : Accepted params blocks chain)
    (hr : replayBlocks chain rest = .ok final) : Accepted params (blocks ++ rest) final := by
  induction rest generalizing blocks chain with
  | nil =>
    rw [List.append_nil]
    have heq : chain = final := Except.ok.inj hr
    rwa [← heq]
  | cons block rest ih =>
    rw [Blockchain.replayBlocks] at hr
    obtain ⟨⟨fees, next, pool⟩, hs, hr⟩ := bind_eq_ok.mp hr
    have happ : blocks ++ block :: rest = blocks ++ [block] ++ rest := by simp
    rw [happ]
    exact ih (h.submit hs) hr

theorem replaySequence_accepted {params : ConsensusParams} {blocks : List Block} {chain : Chain}
    (h : replaySequence params blocks = .ok chain) : Accepted params blocks chain := by
  cases blocks with
  | nil => simp [replaySequence] at h
  | cons genesis rest =>
    rw [replaySequence] at h
    obtain ⟨start, hstart, hrest⟩ := bind_eq_ok.mp h
    exact (Accepted.create hstart).replayBlocks hrest

theorem replayChain_ok {params : ConsensusParams} {blocks : List Block} {chain : Chain} :
    replayChain blocks params = .ok chain ↔ Accepted params blocks chain := by
  rw [replayChain, seq_eq_ok]
  constructor
  · intro h
    exact replaySequence_accepted h.2
  · intro h
    exact ⟨validateBlockSequence_of_heights h.ne_nil fun _ _ hi => h.block_height hi,
      h.replaySequence⟩

theorem Accepted.storable {params : ConsensusParams} {blocks : List Block} {chain : Chain}
    {mempool : List Transaction} (h : Accepted params blocks chain)
    (hblocks : blocks.length ≤ kMaxLedgerBlocks.toNat)
    (hmempool : mempool.length ≤ kMaxLedgerMempoolTransactions.toNat)
    (hsane : ∀ tx ∈ mempool, tx.Sane) : Storable blocks mempool :=
  ⟨h.ne_nil, hblocks, h.block_sane, hmempool, hsane⟩

/-! Saving and loading. -/

theorem ledgerBytes_ok {blocks : List Block} {params : ConsensusParams} {mempool : List Transaction}
    {bytes : Bytes} : ledgerBytes blocks params mempool = .ok bytes ↔
      validateBlockSequence blocks = .ok () ∧ encodeLedger blocks params mempool = .ok bytes := by
  rw [ledgerBytes, seq_eq_ok]

def SaveEnv.Completes (env : SaveEnv) : Prop :=
  env.directoryError = none ∧ env.tempOpens = true ∧ env.writeStops = none ∧ env.renameError = none

theorem SaveEnv.flushed_of_closed {env : SaveEnv} (h : env.closeStops = none) (bytes : Bytes) :
    env.flushed bytes = bytes := by
  rw [flushed, h]

theorem writeFileAtomic_cases (bytes : Bytes) (env : SaveEnv) :
    ((env.tempOpens = true ∧ env.writeStops = none ∧ env.renameError = none) ∧
      ∀ dir, writeFileAtomic bytes env dir = (.ok (), ⟨some (env.flushed bytes), none⟩)) ∨
    (¬ (env.tempOpens = true ∧ env.writeStops = none ∧ env.renameError = none) ∧
      ∃ e, ∀ dir, ∃ temp,
        writeFileAtomic bytes env dir = (.error e, { dir with temp := temp })) := by
  unfold writeFileAtomic
  cases env.tempOpens with
  | false => exact .inr ⟨by simp, _, fun dir => ⟨dir.temp, rfl⟩⟩
  | true =>
    cases env.writeStops with
    | some kept => exact .inr ⟨by simp, _, fun dir => ⟨_, rfl⟩⟩
    | none =>
      cases env.renameError with
      | some reason => exact .inr ⟨by simp, _, fun dir => ⟨_, rfl⟩⟩
      | none => exact .inl ⟨by simp, fun dir => rfl⟩

/-- A save either goes through every step and leaves what the close flushed, or fails in the
same way for every directory and does not touch the ledger. -/
theorem writeLedger_cases (bytes : Bytes) (env : SaveEnv) :
    (env.Completes ∧
      ∀ dir, writeLedger bytes env dir = (.ok (), ⟨some (env.flushed bytes), none⟩)) ∨
    (¬ env.Completes ∧
      ∃ e, ∀ dir, ∃ temp, writeLedger bytes env dir = (.error e, { dir with temp := temp })) := by
  unfold writeLedger createDirectory SaveEnv.Completes
  cases env.directoryError with
  | some reason => exact .inr ⟨by simp, _, fun dir => ⟨dir.temp, rfl⟩⟩
  | none => simpa using writeFileAtomic_cases bytes env

theorem writeLedger_ok {bytes : Bytes} {env : SaveEnv} {dir dir' : DataDir}
    (hclose : env.closeStops = none) (h : writeLedger bytes env dir = (.ok (), dir')) :
    dir' = ⟨some bytes, none⟩ := by
  obtain ⟨_, hall⟩ | ⟨_, e, hall⟩ := writeLedger_cases bytes env
  · rw [hall dir, env.flushed_of_closed hclose, Prod.mk.injEq] at h
    exact h.2.symm
  · obtain ⟨temp, hdir⟩ := hall dir
    simp [hdir] at h

end Blockchain
