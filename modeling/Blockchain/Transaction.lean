import Blockchain.ByteIo

/-! Transactions, their canonical encoding and their ids. -/
namespace Blockchain
open Lib

def kTransactionVersion : UInt32 := 1
def kMaxTransactionSizeBytes : UInt32 := 65536
def kMaxInputsPerTransaction : UInt32 := 4096
def kMaxOutputsPerTransaction : UInt32 := 4096
def kMaxMoney : UInt64 := 21000000 * 100000000
def kCoinUnit : UInt64 := 100000000
def kNullPrevoutIndex : UInt32 := 0xFFFFFFFF

structure OutPoint where
  txid : Hash256
  index : UInt32
deriving DecidableEq

structure TxInput where
  prevout : OutPoint
deriving DecidableEq

structure TxOutput where
  value : UInt64
  recipient : Hash256
deriving DecidableEq

structure Transaction where
  version : UInt32
  inputs : List TxInput
  outputs : List TxOutput
  lockTime : UInt32
deriving DecidableEq

/-- `OutPointLess`: txid bytes first, then the output index. -/
def outPointLess (lhs rhs : OutPoint) : Bool :=
  if lhs.txid ≠ rhs.txid then less lhs.txid rhs.txid else decide (lhs.index < rhs.index)

instance : KeyOrder OutPoint where
  less := outPointLess
  irrefl a := by simp [outPointLess]
  trans a b c hab hbc := by
    simp only [outPointLess] at hab hbc ⊢
    by_cases h1 : a.txid = b.txid
    · by_cases h2 : b.txid = c.txid
      · simp only [h1, h2, ne_eq, not_true_eq_false, if_false, decide_eq_true_eq] at hab hbc ⊢
        exact UInt32.lt_trans hab hbc
      · simpa [h1, h2] using hbc
    · by_cases h2 : b.txid = c.txid
      · simpa [h1, ← h2] using hab
      · simp only [h1, h2, ne_eq, not_false_eq_true, if_true] at hab hbc
        have hac := KeyOrder.trans _ _ _ hab hbc
        simp [ne_of_less hac, hac]
  connected a b hab hba := by
    simp only [outPointLess] at hab hba
    by_cases h : a.txid = b.txid
    · simp only [h, ne_eq, not_true_eq_false, if_false, decide_eq_false_iff_not,
        UInt32.not_lt] at hab hba
      have hi : a.index = b.index := UInt32.le_antisymm hba hab
      cases a
      cases b
      simp_all
    · have hba' : less b.txid a.txid = false := by simpa [Ne.symm h] using hba
      have hab' : less a.txid b.txid = false := by simpa [h] using hab
      exact absurd (KeyOrder.connected _ _ hab' hba') h

def TxInput.serialize (input : TxInput) : Bytes :=
  putHash input.prevout.txid ++ putU32 input.prevout.index

def TxOutput.serialize (output : TxOutput) : Bytes :=
  putU64 output.value ++ putHash output.recipient

def TxInput.deserialize : ByteReader TxInput := do
  let txid ← ByteReader.getHash
  let index ← ByteReader.getU32
  return ⟨⟨txid, index⟩⟩

def TxOutput.deserialize : ByteReader TxOutput := do
  let value ← ByteReader.getU64
  let recipient ← ByteReader.getHash
  return ⟨value, recipient⟩

namespace Transaction

def serialize (tx : Transaction) : Bytes :=
  putU32 tx.version ++
  (putU32 (UInt32.ofNat tx.inputs.length) ++ tx.inputs.flatMap TxInput.serialize) ++
  (putU32 (UInt32.ofNat tx.outputs.length) ++ tx.outputs.flatMap TxOutput.serialize) ++
  putU32 tx.lockTime

def deserialize : ByteReader Transaction := do
  let version ← ByteReader.getU32
  let inputCount ← ByteReader.getLength kMaxInputsPerTransaction
  let inputs ← repeatDecode TxInput.deserialize inputCount.toNat
  let outputCount ← ByteReader.getLength kMaxOutputsPerTransaction
  let outputs ← repeatDecode TxOutput.deserialize outputCount.toNat
  let lockTime ← ByteReader.getU32
  return ⟨version, inputs, outputs, lockTime⟩

def toBytes (tx : Transaction) : Bytes := tx.serialize

def txid (tx : Transaction) : Hash256 := sha256d tx.toBytes

def isCoinbase (tx : Transaction) : Bool :=
  match tx.inputs with
  | [input] => input.prevout.index == kNullPrevoutIndex
  | _ => false

def prevouts (tx : Transaction) : List OutPoint := tx.inputs.map TxInput.prevout

def WithinLimits (tx : Transaction) : Prop :=
  tx.inputs.length ≤ kMaxInputsPerTransaction.toNat ∧
  tx.outputs.length ≤ kMaxOutputsPerTransaction.toNat

instance (tx : Transaction) : Decidable tx.WithinLimits := inferInstanceAs (Decidable (_ ∧ _))

end Transaction

/-- The height is written into the leading bytes of the coinbase outpoint's txid. -/
def makeCoinbase (height : UInt32) (value : UInt64) (recipient : Hash256) : Transaction where
  version := kTransactionVersion
  inputs := [⟨⟨Hash256.ofBytes (leBytes 4 height.toNat), kNullPrevoutIndex⟩⟩]
  outputs := [⟨value, recipient⟩]
  lockTime := 0

theorem TxInput.deserialize_decodes :
    Decodes TxInput.deserialize TxInput.serialize (fun _ => True) := by
  intro input rest _
  rw [TxInput.deserialize, TxInput.serialize, List.append_assoc,
    run_bind_of_ok (ByteReader.getHash_decodes _ _ trivial),
    run_bind_of_ok (ByteReader.getU32_decodes _ _ trivial)]
  rfl

theorem TxOutput.deserialize_decodes :
    Decodes TxOutput.deserialize TxOutput.serialize (fun _ => True) := by
  intro output rest _
  rw [TxOutput.deserialize, TxOutput.serialize, List.append_assoc,
    run_bind_of_ok (ByteReader.getU64_decodes _ _ trivial),
    run_bind_of_ok (ByteReader.getHash_decodes _ _ trivial)]
  rfl

theorem TxInput.deserialize_canonical :
    Canonical TxInput.deserialize TxInput.serialize (fun _ => True) := by
  intro data input rest h
  obtain ⟨txid, data1, htxid, h⟩ := run_bind_eq_ok h
  obtain ⟨index, data2, hindex, h⟩ := run_bind_eq_ok h
  obtain ⟨hinput, hrest⟩ := run_pure_eq_ok h
  subst hinput hrest
  rw [(ByteReader.getHash_canonical _ _ _ htxid).1, (ByteReader.getU32_canonical _ _ _ hindex).1,
    TxInput.serialize, List.append_assoc]
  exact ⟨rfl, trivial⟩

theorem TxOutput.deserialize_canonical :
    Canonical TxOutput.deserialize TxOutput.serialize (fun _ => True) := by
  intro data output rest h
  obtain ⟨value, data1, hvalue, h⟩ := run_bind_eq_ok h
  obtain ⟨recipient, data2, hrecipient, h⟩ := run_bind_eq_ok h
  obtain ⟨houtput, hrest⟩ := run_pure_eq_ok h
  subst houtput hrest
  rw [(ByteReader.getU64_canonical _ _ _ hvalue).1,
    (ByteReader.getHash_canonical _ _ _ hrecipient).1, TxOutput.serialize, List.append_assoc]
  exact ⟨rfl, trivial⟩

namespace Transaction

theorem deserialize_decodes : Decodes deserialize serialize WithinLimits := by
  intro tx rest hv
  have hni : (UInt32.ofNat tx.inputs.length).toNat = tx.inputs.length :=
    UInt32.toNat_ofNat_of_lt' (lt_of_le_of_lt hv.1 (by decide))
  have hno : (UInt32.ofNat tx.outputs.length).toNat = tx.outputs.length :=
    UInt32.toNat_ofNat_of_lt' (lt_of_le_of_lt hv.2 (by decide))
  rw [deserialize, serialize]
  simp only [List.append_assoc]
  rw [run_bind_of_ok (ByteReader.getU32_decodes _ _ trivial),
    run_bind_of_ok (ByteReader.getLength_ofNat _ _ _ hv.1), hni,
    run_bind_of_ok (TxInput.deserialize_decodes.repeat _ _ (fun _ _ => trivial)),
    run_bind_of_ok (ByteReader.getLength_ofNat _ _ _ hv.2), hno,
    run_bind_of_ok (TxOutput.deserialize_decodes.repeat _ _ (fun _ _ => trivial)),
    run_bind_of_ok (ByteReader.getU32_decodes _ _ trivial)]
  rfl

theorem deserialize_canonical : Canonical deserialize serialize WithinLimits := by
  intro data tx rest h
  obtain ⟨version, data1, hversion, h⟩ := run_bind_eq_ok h
  obtain ⟨inputs, data2, hinputs, hni, _, h⟩ :=
    ByteReader.counted_canonical TxInput.deserialize_canonical h
  obtain ⟨outputs, data3, houtputs, hno, _, h⟩ :=
    ByteReader.counted_canonical TxOutput.deserialize_canonical h
  obtain ⟨lockTime, data4, hlock, h⟩ := run_bind_eq_ok h
  obtain ⟨htx, hrest⟩ := run_pure_eq_ok h
  subst htx hrest
  refine ⟨?_, hni, hno⟩
  rw [(ByteReader.getU32_canonical _ _ _ hversion).1, hinputs, houtputs,
    (ByteReader.getU32_canonical _ _ _ hlock).1]
  simp only [serialize, List.append_assoc]

theorem toBytes_injective {t t' : Transaction} (h : t.WithinLimits) (h' : t'.WithinLimits)
    (he : t.toBytes = t'.toBytes) : t = t' :=
  deserialize_decodes.enc_injective h h' he

theorem inputs_length (inputs : List TxInput) :
    (inputs.flatMap TxInput.serialize).length = 36 * inputs.length := by
  induction inputs with
  | nil => rfl
  | cons i is ih =>
    simp only [List.flatMap_cons, List.length_append, TxInput.serialize, putHash_length,
      putU32_length, ih, List.length_cons]
    omega

theorem outputs_length (outputs : List TxOutput) :
    (outputs.flatMap TxOutput.serialize).length = 40 * outputs.length := by
  induction outputs with
  | nil => rfl
  | cons o os ih =>
    simp only [List.flatMap_cons, List.length_append, TxOutput.serialize, putHash_length,
      putU64_length, ih, List.length_cons]
    omega

theorem toBytes_length (tx : Transaction) :
    tx.toBytes.length = 16 + 36 * tx.inputs.length + 40 * tx.outputs.length := by
  simp only [toBytes, serialize, List.length_append, putU32_length, inputs_length, outputs_length]
  omega

end Transaction
end Blockchain
