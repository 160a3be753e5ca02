import Blockchain.BlockValidation
import Blockchain.Mempool
import Blockchain.Sha256Eval

/-! The active chain: tip header, confirmed UTXO set and consensus parameters. A chain is
created from a genesis block and only grows through blocks that link to the tip and
connect; `Accepted` is the relation between such block sequences and their chains. -/
namespace Blockchain
open Lib

def kUint32Max : UInt32 := 0xFFFFFFFF

structure Chain where
  tip : BlockHeader
  utxos : UtxoSet
  params : ConsensusParams
deriving DecidableEq

def checkLinksTo (tip next : BlockHeader) : Result Unit :=
  if next.version ≠ kBlockVersion then
    makeError .unsupportedVersion "unsupported block version"
  else if next.prevBlock ≠ tip.hash then
    makeError .invalidBlock "block does not extend the current tip"
  else if tip.height = kUint32Max then
    makeError .invalidBlock "chain height would overflow"
  else if next.height ≠ tip.height + 1 then
    makeError .invalidBlock "block height does not follow the tip"
  else if next.timestamp < tip.timestamp then
    makeError .invalidBlock "block timestamp precedes the tip"
  else .ok ()

namespace Chain

def height (chain : Chain) : UInt32 := chain.tip.height

def tipHash (chain : Chain) : Hash256 := chain.tip.hash

def create (genesis : Block) (params : ConsensusParams) : Result Chain :=
  if genesis.header.version ≠ kBlockVersion then
    makeError .unsupportedVersion "unsupported genesis block version"
  else if genesis.header.height ≠ 0 then
    makeError .invalidBlock "genesis block must have height 0"
  else if genesis.header.prevBlock ≠ zeroHash then
    makeError .invalidBlock "genesis block must reference the zero hash"
  else do
    checkBlockSanity genesis
    let (_, utxos) ← connectBlock genesis UtxoSet.empty params
    .ok ⟨genesis.header, utxos, params⟩

/-- The fees, the grown chain, and the caller's pool without the block's transactions. -/
def submitBlock (chain : Chain) (block : Block) (mempool : Option Mempool) :
    Result (UInt64 × Chain × Option Mempool) := do
  checkLinksTo chain.tip block.header
  checkBlockSanity block
  let (fees, utxos) ← connectBlock block chain.utxos chain.params
  .ok (fees, { chain with tip := block.header, utxos := utxos },
    mempool.map fun pool => pool.removeAll (block.transactions.map Transaction.txid))

/-- A sequence of submitted blocks; a rejected block leaves the chain as it was. -/
def feed (chain : Chain) (blocks : List Block) : Chain :=
  blocks.foldl (fun chain block =>
    match chain.submitBlock block none with
    | .ok (_, next, _) => next
    | .error _ => chain) chain

end Chain

/-- What links a header to the tip before it. -/
structure BlockHeader.LinksTo (next tip : BlockHeader) : Prop where
  version_eq : next.version = kBlockVersion
  prev_eq : next.prevBlock = tip.hash
  height_eq : next.height.toNat = tip.height.toNat + 1
  timestamp_le : tip.timestamp ≤ next.timestamp

theorem checkLinksTo_ok (tip next : BlockHeader) :
    checkLinksTo tip next = .ok () ↔ next.LinksTo tip := by
  have hmax : kUint32Max.toNat = 2 ^ 32 - 1 := by decide
  have hlt := tip.height.toNat_lt
  have hlt' := next.height.toNat_lt
  have hone : (1 : UInt32).toNat = 1 := rfl
  have hsum : (tip.height + 1).toNat = (tip.height.toNat + 1) % 2 ^ 32 := by
    rw [UInt32.toNat_add, hone]
  have hheight : (tip.height ≠ kUint32Max ∧ next.height = tip.height + 1) ↔
      next.height.toNat = tip.height.toNat + 1 := by
    rw [ne_eq, ← UInt32.toNat_inj, ← UInt32.toNat_inj, hmax, hsum]
    omega
  simp only [checkLinksTo, guard_eq_ok, ne_eq, not_not, UInt64.not_lt, and_true]
  constructor
  · intro h
    exact ⟨h.1, h.2.1, hheight.mp ⟨h.2.2.1, h.2.2.2.1⟩, h.2.2.2.2⟩
  · intro h
    obtain ⟨hmax', hnext⟩ := hheight.mpr h.height_eq
    exact ⟨h.version_eq, h.prev_eq, hmax', hnext, h.timestamp_le⟩

namespace Chain

theorem create_ok {genesis : Block} {params : ConsensusParams} {chain : Chain} :
    create genesis params = .ok chain ↔
      genesis.header.version = kBlockVersion ∧ genesis.header.height = 0 ∧
      genesis.header.prevBlock = zeroHash ∧
      ∃ fees utxos, connectBlock genesis UtxoSet.empty params = .ok (fees, utxos) ∧
        chain = ⟨genesis.header, utxos, params⟩ := by
  simp only [create, guard_eq_ok, ne_eq, not_not]
  refine and_congr_right fun _ => and_congr_right fun _ => and_congr_right fun _ => ?_
  rw [seq_eq_ok, bind_eq_ok]
  constructor
  · intro h
    obtain ⟨_, ⟨fees, utxos⟩, hconn, h⟩ := h
    exact ⟨fees, utxos, hconn, (Except.ok.inj h).symm⟩
  · intro h
    obtain ⟨fees, utxos, hconn, rfl⟩ := h
    exact ⟨(checkBlockSanity_ok genesis).mpr (connectBlock_ok hconn).1, _, hconn, rfl⟩

theorem submitBlock_ok {chain next : Chain} {block : Block} {pool pool' : Option Mempool}
    {fees : UInt64} :
    chain.submitBlock block pool = .ok (fees, next, pool') ↔
      block.header.LinksTo chain.tip ∧
      (∃ utxos, connectBlock block chain.utxos chain.params = .ok (fees, utxos) ∧
        next = { chain with tip := block.header, utxos := utxos }) ∧
      pool' = pool.map fun p => p.removeAll (block.transactions.map Transaction.txid) := by
  rw [submitBlock, seq_eq_ok, seq_eq_ok, bind_eq_ok, checkLinksTo_ok]
  refine and_congr_right fun _ => ?_
  constructor
  · intro h
    obtain ⟨_, ⟨fees', utxos⟩, hconn, h⟩ := h
    simp only [Except.ok.injEq, Prod.mk.injEq] at h
    obtain ⟨rfl, rfl, rfl⟩ := h
    exact ⟨⟨utxos, hconn, rfl⟩, rfl⟩
  · intro h
    obtain ⟨⟨utxos, hconn, rfl⟩, rfl⟩ := h
    exact ⟨(checkBlockSanity_ok block).mpr (connectBlock_ok hconn).1, _, hconn, rfl⟩

theorem feed_accepted {chain next : Chain} {block : Block} {fees : UInt64} {pool : Option Mempool}
    (h : chain.submitBlock block none = .ok (fees, next, pool)) (fed : List Block) :
    chain.feed (block :: fed) = next.feed fed := by
  rw [feed, List.foldl_cons, h]
  rfl

theorem feed_rejected {chain : Chain} {block : Block} {e : Error}
    (h : chain.submitBlock block none = .error e) (fed : List Block) :
    chain.feed (block :: fed) = chain.feed fed := by
  rw [feed, List.foldl_cons, h]
  rfl

end Chain

/-- The block sequences a chain can be built from: a genesis block and blocks accepted one
after the other, with or without a pool to prune. -/
inductive Accepted (params : ConsensusParams) : List Block → Chain → Prop where
  | create {genesis : Block} {chain : Chain} (h : Chain.create genesis params = .ok chain) :
      Accepted params [genesis] chain
  | submit {blocks : List Block} {chain next : Chain} {block : Block} {fees : UInt64}
      {pool pool' : Option Mempool} (h : Accepted params blocks chain)
      (hb : chain.submitBlock block pool = .ok (fees, next, pool')) :
      Accepted params (blocks ++ [block]) next

namespace Accepted
variable {params : ConsensusParams} {blocks : List Block} {chain : Chain}

theorem params_eq (h : Accepted params blocks chain) : chain.params = params := by
  induction h with
  | create h =>
    obtain ⟨_, _, _, fees, utxos, _, rfl⟩ := Chain.create_ok.mp h
    rfl
  | submit _ hb ih =>
    obtain ⟨_, ⟨utxos, _, rfl⟩, _⟩ := Chain.submitBlock_ok.mp hb
    exact ih

theorem tip_eq (h : Accepted params blocks chain) :
    blocks.getLast?.map Block.header = some chain.tip := by
  cases h with
  | create h =>
    obtain ⟨_, _, _, fees, utxos, _, rfl⟩ := Chain.create_ok.mp h
    rfl
  | submit _ hb =>
    obtain ⟨_, ⟨utxos, _, rfl⟩, _⟩ := Chain.submitBlock_ok.mp hb
    simp

theorem height_eq (h : Accepted params blocks chain) :
    chain.height.toNat + 1 = blocks.length := by
  induction h with
  | create h =>
    obtain ⟨_, hzero, _, fees, utxos, _, rfl⟩ := Chain.create_ok.mp h
    simp [Chain.height, hzero]
  | submit _ hb ih =>
    obtain ⟨hlinks, ⟨utxos, _, rfl⟩, _⟩ := Chain.submitBlock_ok.mp hb
    have hheight := hlinks.height_eq
    simp only [Chain.height, List.length_append, List.length_singleton] at ih ⊢
    omega

theorem block_height (h : Accepted params blocks chain) {i : Nat} {block : Block}
    (hi : blocks[i]? = some block) : block.header.height.toNat = i := by
  induction h with
  | create h =>
    obtain ⟨_, hzero, _⟩ := Chain.create_ok.mp h
    obtain ⟨hlt, rfl⟩ := List.getElem?_eq_some_iff.mp hi
    have h0 : i = 0 := by simpa using hlt
    subst h0
    simp [hzero]
  | @submit bs chain next b fees pool pool' hacc hb ih =>
    obtain ⟨hlinks, _⟩ := Chain.submitBlock_ok.mp hb
    have hheight := hlinks.height_eq
    have hlen := hacc.height_eq
    obtain hlt | hge := Nat.lt_or_ge i bs.length
    · rw [List.getElem?_append_left hlt] at hi
      exact ih hi
    · rw [List.getElem?_append_right hge] at hi
      obtain ⟨hlt, rfl⟩ := List.getElem?_eq_some_iff.mp hi
      have h0 : i = bs.length := by
        simp only [List.length_singleton] at hlt
        omega
      simp only [List.getElem_singleton]
      simp only [Chain.height] at hlen
      omega

theorem block_sane (h : Accepted params blocks chain) : ∀ block ∈ blocks, block.Sane := by
  induction h with
  | create h =>
    obtain ⟨_, _, _, fees, utxos, hconn, rfl⟩ := Chain.create_ok.mp h
    intro block hb
    rw [List.mem_singleton.mp hb]
    exact (connectBlock_ok hconn).1
  | submit _ hb ih =>
    obtain ⟨_, ⟨utxos, hconn, _⟩, _⟩ := Chain.submitBlock_ok.mp hb
    intro block hmem
    obtain hmem | hmem := List.mem_append.mp hmem
    · exact ih block hmem
    · rw [List.mem_singleton.mp hmem]
      exact (connectBlock_ok hconn).1

theorem last_block (h : Accepted params blocks chain) :
    ∃ before block, blocks = before ++ [block] ∧ block.Sane ∧ chain.tip = block.header ∧
      ((before = [] ∧ block.header.height.toNat = 0) ∨
        ∃ prev, Accepted params before prev ∧ block.header.LinksTo prev.tip) := by
  cases h with
  | create h =>
    obtain ⟨_, hzero, _, fees, utxos, hconn, rfl⟩ := Chain.create_ok.mp h
    exact ⟨[], _, rfl, (connectBlock_ok hconn).1, rfl, .inl ⟨rfl, by simp [hzero]⟩⟩
  | submit hacc hb =>
    obtain ⟨hlinks, ⟨utxos, hconn, rfl⟩, _⟩ := Chain.submitBlock_ok.mp hb
    exact ⟨_, _, rfl, (connectBlock_ok hconn).1, rfl, .inr ⟨_, hacc, hlinks⟩⟩

theorem feed (h : Accepted params blocks chain) (fed : List Block) :
    ∃ blocks', Accepted params blocks' (chain.feed fed) := by
  induction fed generalizing blocks chain with
  | nil => exact ⟨blocks, h⟩
  | cons block fed ih =>
    cases hs : chain.submitBlock block none with
    | error e =>
      rw [Chain.feed_rejected hs]
      exact ih h
    | ok r =>
      obtain ⟨fees, next, pool⟩ := r
      rw [Chain.feed_accepted hs]
      exact ih (h.submit hs)

end Accepted

/-! Blocks without transactions. -/

def BlockHeader.emptyNext (tip : BlockHeader) : BlockHeader :=
  ⟨kBlockVersion, tip.hash, zeroHash, tip.timestamp, tip.height + 1⟩

theorem BlockHeader.emptyNext_linksTo {tip : BlockHeader} (h : tip.height ≠ kUint32Max) :
    tip.emptyNext.LinksTo tip := by
  refine ⟨rfl, rfl, ?_, UInt64.le_refl _⟩
  have hmax : kUint32Max.toNat = 2 ^ 32 - 1 := by decide
  have hlt := tip.height.toNat_lt
  have hone : (1 : UInt32).toNat = 1 := rfl
  have hne : tip.height.toNat ≠ kUint32Max.toNat := fun he => h (UInt32.toNat_inj.mp he)
  change (tip.height + 1).toNat = _
  rw [UInt32.toNat_add, hone]
  omega

theorem Chain.create_nil (params : ConsensusParams) {header : BlockHeader}
    (hv : header.version = kBlockVersion) (hh : header.height = 0)
    (hp : header.prevBlock = zeroHash) (hm : header.merkleRoot = zeroHash) :
    Chain.create ⟨header, []⟩ params = .ok ⟨header, UtxoSet.empty, params⟩ :=
  Chain.create_ok.mpr ⟨hv, hh, hp, _, _, connectBlock_nil header _ params hm, rfl⟩

/-! A genesis block that mints one coin, and two blocks that pay it on: one without a fee, and
one whose coinbase collects the fee. -/

def mint : Transaction := makeCoinbase 0 50 zeroHash

def mintGenesis : Block := ⟨⟨kBlockVersion, zeroHash, computeMerkleRoot [mint], 0, 0⟩, [mint]⟩

def mintCoin : Coin := ⟨⟨50, zeroHash⟩, 0, true⟩

def mintChain : Chain :=
  ⟨mintGenesis.header, UtxoSet.empty.insert ⟨mint.txid, 0⟩ mintCoin, ⟨50, 0⟩⟩

def spendMint : Transaction := ⟨kTransactionVersion, [⟨⟨mint.txid, 0⟩⟩], [⟨50, zeroHash⟩], 0⟩

def spendBlock : Block :=
  ⟨⟨kBlockVersion, mintGenesis.header.hash, computeMerkleRoot [spendMint], 0, 1⟩, [spendMint]⟩

def spentUtxos : UtxoSet := UtxoSet.empty.insert ⟨spendMint.txid, 0⟩ ⟨⟨50, zeroHash⟩, 1, false⟩

def feeMint : Transaction := ⟨kTransactionVersion, [⟨⟨mint.txid, 0⟩⟩], [⟨40, zeroHash⟩], 0⟩

def feeCollect : Transaction := makeCoinbase 1 60 zeroHash

def feeBlock : Block :=
  ⟨⟨kBlockVersion, mintGenesis.header.hash, computeMerkleRoot [feeCollect, feeMint], 0, 1⟩,
    [feeCollect, feeMint]⟩

def feeUtxos : UtxoSet :=
  (UtxoSet.empty.insert ⟨feeMint.txid, 0⟩ ⟨⟨40, zeroHash⟩, 1, false⟩).insert ⟨feeCollect.txid, 0⟩
    ⟨⟨60, zeroHash⟩, 1, true⟩

theorem mint_sane : mint.Sane := single_sane rfl rfl (by decide)

theorem spendMint_sane : spendMint.Sane := single_sane rfl rfl (by decide)

set_option maxRecDepth 100000 in
theorem feeMint_id : feeCollect.txid ≠ feeMint.txid := by
  have hid : mint.txid = _ := WordState.sha256d_eq mint.toBytes
  apply WordState.sha256d_ne
  rw [feeMint, hid]
  decide +kernel

section Mint
variable {maturity : UInt32}

theorem mint_created : Chain.create mintGenesis ⟨50, maturity⟩ =
    .ok ⟨mintGenesis.header, mintChain.utxos, ⟨50, maturity⟩⟩ := by
  have hconn : connectBlock mintGenesis UtxoSet.empty ⟨50, maturity⟩ = .ok (0, mintChain.utxos) :=
    connectBlock_coinbase mint_sane rfl rfl rfl (by decide : (50 : UInt64) ≤ 50) rfl
  exact Chain.create_ok.mpr ⟨rfl, rfl, rfl, _, _, hconn, rfl⟩

theorem mint_matured (h : maturity ≤ 1) :
    ¬ (mintCoin.coinbase = true ∧ (1 : UInt32).toUInt64 <
      mintCoin.height.toUInt64 + maturity.toUInt64) := by
  intro hlate
  have hzero : mintCoin.height.toUInt64 + maturity.toUInt64 = maturity.toUInt64 := UInt64.zero_add _
  have hlt := hlate.2
  rw [hzero, UInt64.lt_iff_toNat_lt] at hlt
  have hle := UInt32.le_iff_toNat_le.mp h
  exact absurd hlt (Nat.not_lt.mpr hle)

theorem spendBlock_connects (h : maturity ≤ 1) :
    connectBlock spendBlock mintChain.utxos ⟨50, maturity⟩ = .ok (0, spentUtxos) :=
  connectBlock_spend spendMint_sane rfl rfl rfl rfl (by decide) (mint_matured h)

theorem feeBlock_connects (h : maturity ≤ 1) :
    connectBlock feeBlock mintChain.utxos ⟨50, maturity⟩ = .ok (10, feeUtxos) :=
  connectBlock_pair (single_sane rfl rfl (by decide)) (single_sane rfl rfl (by decide)) rfl rfl
    feeMint_id rfl rfl rfl (by decide) (mint_matured h) rfl rfl
    (by decide : (60 : UInt64) ≤ 50 + (50 - 40))

theorem Accepted.after_mint {block : Block} {fees : UInt64} {utxos : UtxoSet}
    (hlinks : block.header.LinksTo mintGenesis.header)
    (hconn : connectBlock block mintChain.utxos ⟨50, maturity⟩ = .ok (fees, utxos)) :
    Accepted ⟨50, maturity⟩ [mintGenesis, block] ⟨block.header, utxos, ⟨50, maturity⟩⟩ := by
  have hsubmit : (⟨mintGenesis.header, mintChain.utxos, ⟨50, maturity⟩⟩ : Chain).submitBlock
      block none =
      .ok (fees, ⟨block.header, utxos, ⟨50, maturity⟩⟩, none) :=
    Chain.submitBlock_ok.mpr ⟨hlinks, ⟨_, hconn, rfl⟩, rfl⟩
  exact (Accepted.create mint_created).submit hsubmit

theorem mint_spent_accepted (h : maturity ≤ 1) :
    Accepted ⟨50, maturity⟩ [mintGenesis, spendBlock]
      ⟨spendBlock.header, spentUtxos, ⟨50, maturity⟩⟩ :=
  .after_mint ⟨rfl, rfl, rfl, UInt64.le_refl _⟩ (spendBlock_connects h)

theorem mint_fee_accepted (h : maturity ≤ 1) :
    Accepted ⟨50, maturity⟩ [mintGenesis, feeBlock] ⟨feeBlock.header, feeUtxos, ⟨50, maturity⟩⟩ :=
  .after_mint ⟨rfl, rfl, rfl, UInt64.le_refl _⟩ (feeBlock_connects h)

end Mint

end Blockchain
