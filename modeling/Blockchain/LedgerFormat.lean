import Blockchain.ChainStore

/-! The ledger format is canonical: a version 2 file that decodes is the encoding of what it
decodes to, and a version 1 file is migrated by encoding it again. -/
namespace Blockchain
open Lib

def ledgerVersion (bytes : Bytes) : UInt32 := UInt32.ofNat (leValue ((bytes.drop 4).take 4))

def versionedBody (version : UInt32) (ledger : LedgerData) : Bytes :=
  putU32 kLedgerMagic ++ putU32 version ++ putU64 ledger.params.blockSubsidy ++
    putU32 ledger.params.coinbaseMaturity ++ putU32 (UInt32.ofNat ledger.blocks.length) ++
    ledger.blocks.flatMap (fun b => putVarBytes b.toBytes) ++
    if version = kLedgerFormatVersion then
      putU32 (UInt32.ofNat ledger.mempoolTransactions.length) ++
        ledger.mempoolTransactions.flatMap (fun tx => putVarBytes tx.toBytes)
    else []

theorem versionedBody_current (ledger : LedgerData) :
    versionedBody kLedgerFormatVersion ledger =
      ledgerBody ledger.blocks ledger.params ledger.mempoolTransactions := by
  simp only [versionedBody, ledgerBody, if_true, List.append_assoc]

theorem ledgerVersion_body (version : UInt32) (ledger : LedgerData) :
    ledgerVersion (withLedgerChecksum (versionedBody version ledger)) = version := by
  simp only [ledgerVersion, withLedgerChecksum, putBytes, versionedBody, List.append_assoc]
  rw [List.drop_left' (putU32_length _), List.take_left' (putU32_length _), putU32,
    leValue_leBytes _ _ (by simpa using version.toNat_lt), UInt32.ofNat_toNat]

theorem getBlock_canonical : Canonical getBlock (fun b => putVarBytes b.toBytes) Block.Fits :=
  ByteReader.getNested_canonical Block.deserialize_canonical kMaxBlockSizeBytes

theorem getTransaction_canonical :
    Canonical getTransaction (fun tx => putVarBytes tx.toBytes) Transaction.Fits :=
  ByteReader.getNested_canonical Transaction.deserialize_canonical kMaxTransactionSizeBytes

theorem getLedgerMagic_eq_ok {data rest : Bytes} {u : Unit}
    (h : getLedgerMagic.run data = .ok (u, rest)) : data = putU32 kLedgerMagic ++ rest := by
  change getLedgerMagic data = _ at h
  rw [getLedgerMagic] at h
  cases hword : ByteReader.getU32.run data with
  | error e => simp [hword] at h
  | ok r =>
    by_cases hmagic : r.1 = kLedgerMagic
    · simp only [hword, hmagic, ne_eq, not_true_eq_false, if_false, Except.ok.injEq,
        Prod.mk.injEq] at h
      rw [(ByteReader.getU32_canonical data r.1 r.2 hword).1, hmagic, h.2]
    · simp [hword, hmagic] at h

theorem ofNat_length_eq {α : Type} {items : List α} {count bound : UInt32}
    (hlen : items.length = count.toNat) (hle : ¬ count > bound) :
    UInt32.ofNat items.length = count ∧ items.length ≤ bound.toNat := by
  rw [hlen, UInt32.ofNat_toNat]
  exact ⟨rfl, UInt32.le_iff_toNat_le.mp (UInt32.not_lt.mp hle)⟩

theorem getMempoolSnapshot_eq_ok {version : UInt32} {data rest : Bytes} {mempool : List Transaction}
    (hversion : version = kLedgerFormatVersion ∨ version = kLedgerFormatVersion1)
    (h : (getMempoolSnapshot version).run data = .ok (mempool, rest)) :
    data = (if version = kLedgerFormatVersion then
        putU32 (UInt32.ofNat mempool.length) ++
          mempool.flatMap (fun tx => putVarBytes tx.toBytes)
      else []) ++ rest ∧
    mempool.length ≤ kMaxLedgerMempoolTransactions.toNat ∧ (∀ tx ∈ mempool, tx.Fits) ∧
    (version = kLedgerFormatVersion1 → mempool = []) := by
  cases hversion with
  | inl hversion =>
    subst hversion
    rw [getMempoolSnapshot, if_pos (UInt32.le_refl _)] at h
    obtain ⟨count, data1, hcount, h⟩ := run_bind_eq_ok h
    by_cases hgt : count > kMaxLedgerMempoolTransactions
    · simp [hgt] at h
    · rw [if_neg hgt] at h
      obtain ⟨hdata1, hlen, hfit⟩ := getTransaction_canonical.repeat h
      obtain ⟨hn, hle⟩ := ofNat_length_eq hlen hgt
      refine ⟨?_, hle, hfit, fun hold => absurd hold (by decide)⟩
      rw [if_pos rfl, hn, (ByteReader.getU32_canonical _ _ _ hcount).1, hdata1, List.append_assoc]
  | inr hversion =>
    subst hversion
    rw [getMempoolSnapshot, if_neg (by decide)] at h
    obtain ⟨hnil, hrest⟩ := run_pure_eq_ok h
    subst hnil hrest
    exact ⟨rfl, Nat.zero_le _, by simp, fun _ => rfl⟩

/-- What an accepted ledger body looks like. -/
structure WellFormed (version : UInt32) (ledger : LedgerData) : Prop where
  known : version = kLedgerFormatVersion ∨ version = kLedgerFormatVersion1
  encodable : Encodable ledger.blocks ledger.mempoolTransactions
  snapshot : version = kLedgerFormatVersion1 → ledger.mempoolTransactions = []

theorem getLedger_eq_ok {data rest : Bytes} {ledger : LedgerData}
    (h : getLedger.run data = .ok (ledger, rest)) :
    ∃ version, WellFormed version ledger ∧ data = versionedBody version ledger ++ rest := by
  obtain ⟨_, data1, hmagic, h⟩ := run_bind_eq_ok h
  obtain ⟨version, data2, hversion, h⟩ := run_bind_eq_ok h
  by_cases hbad : version ≠ kLedgerFormatVersion ∧ version ≠ kLedgerFormatVersion1
  · simp [hbad] at h
  · rw [if_neg hbad] at h
    obtain ⟨subsidy, data3, hsubsidy, h⟩ := run_bind_eq_ok h
    obtain ⟨maturity, data4, hmaturity, h⟩ := run_bind_eq_ok h
    obtain ⟨count, data5, hcount, h⟩ := run_bind_eq_ok h
    by_cases hrange : count = 0 ∨ count > kMaxLedgerBlocks
    · simp [hrange] at h
    · rw [if_neg hrange] at h
      obtain ⟨blocks, data6, hblocks, h⟩ := run_bind_eq_ok h
      obtain ⟨mempool, data7, hmempool, h⟩ := run_bind_eq_ok h
      obtain ⟨hledger, hrest⟩ := run_pure_eq_ok h
      subst hledger hrest
      have hknown : version = kLedgerFormatVersion ∨ version = kLedgerFormatVersion1 := by tauto
      obtain ⟨hdata5, hlen, hfit⟩ := getBlock_canonical.repeat hblocks
      obtain ⟨hdata6, hmle, hmfit, hnone⟩ := getMempoolSnapshot_eq_ok hknown hmempool
      obtain ⟨hzero, hle⟩ := not_or.mp hrange
      obtain ⟨hn, hle⟩ := ofNat_length_eq hlen hle
      have hne : blocks ≠ [] := by
        intro hnil
        rw [hnil] at hn
        exact hzero hn.symm
      refine ⟨version, ⟨hknown, ⟨hne, hle, hfit, hmle, hmfit⟩, hnone⟩, ?_⟩
      rw [getLedgerMagic_eq_ok hmagic, (ByteReader.getU32_canonical _ _ _ hversion).1,
        (ByteReader.getU64_canonical _ _ _ hsubsidy).1,
        (ByteReader.getU32_canonical _ _ _ hmaturity).1,
        (ByteReader.getU32_canonical _ _ _ hcount).1, hdata5, hdata6, ← hn]
      simp only [versionedBody, List.append_assoc]

theorem withLedgerChecksum_of_match {bytes : Bytes} (hlen : ¬ bytes.length < 4)
    (hsum : UInt32.ofNat (leValue (bytes.drop (bytes.length - 4))) =
      ledgerChecksum (bytes.take (bytes.length - 4))) :
    bytes = withLedgerChecksum (bytes.take (bytes.length - 4)) := by
  have hfour : (bytes.drop (bytes.length - 4)).length = 4 := by
    rw [List.length_drop]
    omega
  have hword : putU32 (UInt32.ofNat (leValue (bytes.drop (bytes.length - 4)))) =
      bytes.drop (bytes.length - 4) := by
    have hlt := leValue_lt (bytes.drop (bytes.length - 4))
    rw [hfour] at hlt
    rw [putU32, UInt32.toNat_ofNat_of_lt' hlt]
    have h := leBytes_leValue (bytes.drop (bytes.length - 4))
    rwa [hfour] at h
  rw [withLedgerChecksum, putBytes, ← hsum, hword, List.take_append_drop]

theorem decodeLedger_eq_ok {bytes : Bytes} {ledger : LedgerData}
    (h : decodeLedger bytes = .ok ledger) :
    ∃ version, WellFormed version ledger ∧
      bytes = withLedgerChecksum (versionedBody version ledger) ∧
      validateBlockSequence ledger.blocks = .ok () := by
  by_cases hlen : bytes.length < 4
  · simp [decodeLedger, hlen] at h
  · rw [decodeLedger, if_neg hlen] at h
    by_cases hsum : UInt32.ofNat (leValue (bytes.drop (bytes.length - 4))) ≠
        ledgerChecksum (bytes.take (bytes.length - 4))
    · simp [hsum] at h
    · simp only [if_neg hsum] at h
      obtain ⟨ledger', hparse, h⟩ := bind_eq_ok.mp h
      obtain ⟨hseq, h⟩ := seq_eq_ok.mp h
      obtain ⟨rfl⟩ := Except.ok.inj h
      obtain ⟨version, hwf, hbody⟩ := getLedger_eq_ok (ByteReader.parse_exactly_eq_ok hparse)
      rw [List.append_nil] at hbody
      refine ⟨version, hwf, ?_, hseq⟩
      rw [← hbody]
      exact withLedgerChecksum_of_match hlen (not_not.mp hsum)

/-- The ledger round trip. Storable blocks with heights from zero up are encoded and decoded
again; a version 2 file that decodes is what its content encodes to; and a version 1 file
that decodes has no pool and encodes to a version 2 file with the same content. -/
theorem ledger_format :
    (∀ (blocks : List Block) (params : ConsensusParams) (mempool : List Transaction),
      blocks ≠ [] → blocks.length ≤ kMaxLedgerBlocks.toNat →
      (∀ b ∈ blocks, checkBlockSanity b = .ok ()) →
      (∀ i (b : Block), blocks[i]? = some b → b.header.height.toNat = i) →
      mempool.length ≤ kMaxLedgerMempoolTransactions.toNat →
      (∀ tx ∈ mempool, checkTransactionSanity tx = .ok ()) →
      ∃ bytes, encodeLedger blocks params mempool = .ok bytes ∧
        decodeLedger bytes = .ok ⟨blocks, params, mempool⟩) ∧
    (∀ (bytes : Bytes) (ledger : LedgerData), decodeLedger bytes = .ok ledger →
      ledgerVersion bytes = kLedgerFormatVersion →
      encodeLedger ledger.blocks ledger.params ledger.mempoolTransactions = .ok bytes) ∧
    (∀ (bytes : Bytes) (ledger : LedgerData), decodeLedger bytes = .ok ledger →
      ledgerVersion bytes = kLedgerFormatVersion1 →
      ∃ bytes', encodeLedger ledger.blocks ledger.params ledger.mempoolTransactions = .ok bytes' ∧
        ledgerVersion bytes' = kLedgerFormatVersion ∧
        decodeLedger bytes' = .ok ⟨ledger.blocks, ledger.params, []⟩) := by
  refine ⟨?_, ?_, ?_⟩
  · intro blocks params mempool hne hle hsane hheights hmle hmsane
    have hstore : Storable blocks mempool :=
      ⟨hne, hle, fun b hb => (checkBlockSanity_ok b).mp (hsane b hb), hmle,
        fun tx htx => (checkTransactionSanity_ok tx).mp (hmsane tx htx)⟩
    have henc := encodeLedger_ok hstore.encodable params
    exact ⟨_, henc, decodeLedger_encodeLedger hstore hheights henc⟩
  · intro bytes ledger hdecode hversion
    obtain ⟨version, hwf, hbytes, _⟩ := decodeLedger_eq_ok hdecode
    rw [hbytes, ledgerVersion_body] at hversion
    rw [hbytes, hversion, versionedBody_current]
    exact encodeLedger_ok hwf.encodable ledger.params
  · intro bytes ledger hdecode hversion
    obtain ⟨version, hwf, hbytes, hseq⟩ := decodeLedger_eq_ok hdecode
    rw [hbytes, ledgerVersion_body] at hversion
    have hnone := hwf.snapshot hversion
    refine ⟨_, encodeLedger_ok hwf.encodable ledger.params, ?_, ?_⟩
    · rw [← versionedBody_current]
      exact ledgerVersion_body _ _
    · rw [← hnone]
      exact decodeLedger_body hwf.encodable ledger.params hseq

theorem decodeLedger_version1 {blocks : List Block} (h : Encodable blocks [])
    (params : ConsensusParams) (hseq : validateBlockSequence blocks = .ok ()) :
    decodeLedger (withLedgerChecksum (versionedBody kLedgerFormatVersion1 ⟨blocks, params, []⟩)) =
      .ok ⟨blocks, params, []⟩ := by
  have hsnapshot : (getMempoolSnapshot kLedgerFormatVersion1).run [] = .ok ([], []) := rfl
  have hrun : getLedger.run (versionedBody kLedgerFormatVersion1 ⟨blocks, params, []⟩) =
      .ok (⟨blocks, params, []⟩, []) := by
    rw [versionedBody, if_neg (by decide)]
    simp only [List.append_assoc]
    exact getLedger_versioned (.inr rfl) h params hsnapshot
  rw [decodeLedger_checksum, ByteReader.parse_of_run (ByteReader.run_exactly hrun), ok_bind, hseq]
  rfl

/-- A mint and a block that pays it on, with a payment in the pool; and the two blocks in a
version 1 file. -/
theorem ledger_format_migrates :
    (∃ bytes, encodeLedger [mintGenesis, spendBlock] ⟨50, 0⟩ [feeMint] = .ok bytes ∧
      decodeLedger bytes = .ok ⟨[mintGenesis, spendBlock], ⟨50, 0⟩, [feeMint]⟩) ∧
    ∃ old new, ledgerVersion old = kLedgerFormatVersion1 ∧
      decodeLedger old = .ok ⟨[mintGenesis, spendBlock], ⟨50, 0⟩, []⟩ ∧
      encodeLedger [mintGenesis, spendBlock] ⟨50, 0⟩ [] = .ok new ∧
      ledgerVersion new = kLedgerFormatVersion ∧
      decodeLedger new = .ok ⟨[mintGenesis, spendBlock], ⟨50, 0⟩, []⟩ := by
  have hacc := mint_spent_accepted (by decide : (0 : UInt32) ≤ 1)
  have hsane : ∀ b ∈ [mintGenesis, spendBlock], checkBlockSanity b = .ok () :=
    fun b hb => (checkBlockSanity_ok b).mpr (hacc.block_sane b hb)
  have hpooled : checkTransactionSanity feeMint = .ok () :=
    (checkTransactionSanity_ok _).mpr (single_sane rfl rfl (by decide))
  refine ⟨ledger_format.1 _ ⟨50, 0⟩ [feeMint] (by simp) (by decide) hsane
    (fun _ _ hi => hacc.block_height hi) (by decide) (List.forall_mem_singleton.mpr hpooled), ?_⟩
  have hversion := ledgerVersion_body kLedgerFormatVersion1 ⟨[mintGenesis, spendBlock], ⟨50, 0⟩, []⟩
  have hstore : Storable [mintGenesis, spendBlock] [] :=
    hacc.storable (by decide) (by decide) (by simp)
  have hold := decodeLedger_version1 hstore.encodable ⟨50, 0⟩ rfl
  obtain ⟨new, hnew⟩ := ledger_format.2.2 _ _ hold hversion
  exact ⟨_, new, hversion, hold, hnew⟩

end Blockchain
