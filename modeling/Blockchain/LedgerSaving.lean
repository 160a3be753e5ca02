import Blockchain.LedgerFormat
import Mathlib.Algebra.Order.BigOperators.Group.List

/-! What a save leaves in the ledger file, for every way the platform can fail. The stream is
closed by its destructor, so a flush that fails there is not seen and the shortened temporary
file is renamed over the ledger. -/
namespace Blockchain
open Lib

structure Savable (blocks : List Block) (mempool : List Transaction) : Prop where
  blocks_ne : blocks ≠ []
  heights : ∀ i (b : Block), blocks[i]? = some b → b.header.height.toNat = i
  limits : WithinLedgerLimits blocks mempool

def maxLedgerBytes : Nat :=
  32 + kMaxLedgerBlocks.toNat * (kMaxBlockSizeBytes.toNat + 4) +
    kMaxLedgerMempoolTransactions.toNat * (kMaxTransactionSizeBytes.toNat + 4)

theorem framed_sum_le {α : Type} {size : α → Nat} {items : List α} {count limit : Nat}
    (hcount : items.length ≤ count) (hsize : ∀ a ∈ items, size a ≤ limit) :
    (items.map fun a => size a + 4).sum ≤ count * (limit + 4) := by
  have hsum : _ ≤ (items.map fun a => size a + 4).length * (limit + 4) :=
    List.sum_le_card_nsmul _ (limit + 4)
      (List.forall_mem_map.mpr fun a ha => Nat.add_le_add_right (hsize a ha) 4)
  rw [List.length_map] at hsum
  exact hsum.trans (Nat.mul_le_mul_right _ hcount)

theorem WithinLedgerLimits.size_le {blocks : List Block} {mempool : List Transaction}
    (h : WithinLedgerLimits blocks mempool) : ledgerSize blocks mempool ≤ maxLedgerBytes := by
  have hblocks := framed_sum_le h.blocks_le h.block_size
  have hpool := framed_sum_le h.mempool_le h.tx_size
  exact Nat.add_le_add (Nat.add_le_add_left hblocks 32) hpool

theorem ledgerBytes_eq_ok {blocks : List Block} {params : ConsensusParams}
    {mempool : List Transaction} {bytes : Bytes} :
    ledgerBytes blocks params mempool = .ok bytes ↔
      Savable blocks mempool ∧ bytes = withLedgerChecksum (ledgerBody blocks params mempool) := by
  rw [ledgerBytes_ok, encodeLedger_eq_ok]
  constructor
  · intro h
    obtain ⟨hseq, hlimits, hbytes⟩ := h
    have hlen : blocks.length ≤ 2 ^ 32 := hlimits.blocks_le.trans (by decide)
    obtain ⟨hne, hheights⟩ := (validateBlockSequence_ok hlen).mp hseq
    exact ⟨⟨hne, hheights, hlimits⟩, hbytes⟩
  · intro h
    exact ⟨validateBlockSequence_of_heights h.1.blocks_ne h.1.heights, h.1.limits, h.2⟩

theorem flushed_eq_iff {env : SaveEnv} {bytes : Bytes} :
    env.flushed bytes = bytes ↔ ∀ kept, env.closeStops = some kept → bytes.length ≤ kept := by
  unfold SaveEnv.flushed
  cases env.closeStops with
  | none => simp
  | some stop => simp [List.take_eq_self_iff]

/-- A failed save leaves the ledger as it was and a successful one leaves the new encoding. -/
def SaveFaithful (blocks : List Block) (params : ConsensusParams) (mempool : List Transaction)
    (env : SaveEnv) (dir : DataDir) : Prop :=
  (∀ e after, saveLedger blocks params mempool env dir = (.error e, after) →
    after.ledger = dir.ledger) ∧
  ∀ after, saveLedger blocks params mempool env dir = (.ok (), after) →
    ∃ bytes, encodeLedger blocks params mempool = .ok bytes ∧ after.ledger = some bytes

/-- Saving is faithful unless every reported step succeeds while the flush on closing keeps
only a part of the encoding. -/
theorem save_faithful_iff (blocks : List Block) (params : ConsensusParams)
    (mempool : List Transaction) (env : SaveEnv) (dir : DataDir) :
    SaveFaithful blocks params mempool env dir ↔
      (Savable blocks mempool → env.Completes →
        ∀ kept, env.closeStops = some kept → ledgerSize blocks mempool ≤ kept) := by
  unfold SaveFaithful saveLedger
  cases hbytes : ledgerBytes blocks params mempool with
  | error e =>
    have hnot : ¬ Savable blocks mempool := by
      intro h
      have hok : ledgerBytes blocks params mempool = .ok _ := ledgerBytes_eq_ok.mpr ⟨h, rfl⟩
      rw [hbytes] at hok
      cases hok
    simp [hnot, eq_comm]
  | ok bytes =>
    obtain ⟨hsavable, hbody⟩ := ledgerBytes_eq_ok.mp hbytes
    have henc := (ledgerBytes_ok.mp hbytes).2
    obtain ⟨hcomplete, hall⟩ | ⟨hstopped, e, hall⟩ := writeLedger_cases bytes env
    · rw [← encodedLedger_length blocks params mempool, ← hbody, ← flushed_eq_iff]
      simp [hall dir, henc, hsavable, hcomplete, eq_comm]
    · obtain ⟨temp, hdir⟩ := hall dir
      simp [hdir, hstopped, eq_comm]

def bareGenesis : Block := ⟨⟨kBlockVersion, zeroHash, zeroHash, 0, 0⟩, []⟩

theorem bareGenesis_heights (i : Nat) (b : Block) (hb : [bareGenesis][i]? = some b) :
    b.header.height.toNat = i := by
  obtain ⟨hi, hb⟩ := List.getElem?_eq_some_iff.mp hb
  have hzero : i = 0 := by simpa using hi
  subst hzero
  rw [← hb]
  rfl

theorem bareGenesis_savable : Savable [bareGenesis] [] :=
  ⟨by simp, bareGenesis_heights, by decide, by decide, by decide, by simp⟩

/-- A flush that keeps nothing: the save reports success and an empty file has replaced a
good ledger. -/
theorem save_loses_ledger :
    ∃ old, encodeLedger [bareGenesis] {} [] = .ok old ∧
      saveLedger [bareGenesis] {} [] { closeStops := some 0 } ⟨some old, none⟩ =
        (.ok (), ⟨some [], none⟩) ∧
      ¬ SaveFaithful [bareGenesis] {} [] { closeStops := some 0 } ⟨some old, none⟩ := by
  have hbytes : ledgerBytes [bareGenesis] {} [] = .ok _ :=
    ledgerBytes_eq_ok.mpr ⟨bareGenesis_savable, rfl⟩
  have henc := (ledgerBytes_ok.mp hbytes).2
  have hsave (dir : DataDir) : saveLedger [bareGenesis] {} [] { closeStops := some 0 } dir =
      (.ok (), ⟨some [], none⟩) := by
    rw [saveLedger, hbytes]
    rfl
  refine ⟨_, henc, hsave _, ?_⟩
  intro hfaithful
  obtain ⟨bytes, hnew, hledger⟩ := hfaithful.2 _ (hsave _)
  have hnil : bytes = [] := (Option.some.inj hledger).symm
  have hlen := encodedLedger_length [bareGenesis] {} []
  rw [← (encodeLedger_eq_ok.mp hnew).2, hnil, ledgerSize] at hlen
  simp at hlen

end Blockchain
