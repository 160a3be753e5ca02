import Blockchain.NativeSocket
import Blockchain.Production
import Blockchain.Sha256Eval

/-! A block on its way to a peer, through the limits of blob, payload, frame and reader. -/
namespace Blockchain
open Lib

/-- The answer to a request for `block` is made, sent whole, received whole and read back as
the same block. -/
def Relayable (block : Block) : Prop :=
  ∃ message, makeBlockResponseMessage ⟨block.toBytes⟩ = .ok message ∧
    (∀ w : Wire, w.deaf = false →
      (onSocket (sendMessage message ())).Always socketEnv w fun out w' =>
        out.1 = .ok () ∧ w' = w.push (frame message.toBytes)) ∧
    (∀ (w : Wire) (rest : Bytes), w.inbound = frame message.toBytes ++ rest →
      (onSocket (recvMessage ())).Always socketEnv w fun out w' =>
        out.1 = .ok message ∧ w' = w.left rest) ∧
    (parseBlockResponseMessage message >>= fun payload => parseBlockBytes payload.blockBytes) =
      .ok block

theorem parseBlockResponse_block {block : Block} (h : block.Sane) :
    (parseBlockResponseMessage (blockResponseMessage block.toBytes) >>= fun payload =>
      parseBlockBytes payload.blockBytes) = .ok block := by
  have hparse : parseBlockResponseMessage (blockResponseMessage block.toBytes) =
      .ok ⟨block.toBytes⟩ := by
    rw [parseBlockResponseMessage, blockResponseMessage, parseMessage_makeMessage]
    exact PeerState.deserializeBlockAnnounce_block h
  rw [hparse, ok_bind]
  exact PeerState.parseBlockBytes_toBytes h

theorem relayable_of_fits {block : Block} (h : block.Sane)
    (hfit : block.toBytes.length + 4 ≤ kMaxP2pPayloadBytes.toNat) : Relayable block := by
  have hsend := blockResponseMessage_sendable hfit
  refine ⟨blockResponseMessage block.toBytes, ?_, ?_, ?_, parseBlockResponse_block h⟩
  · exact makeBlockResponseMessage_ok (List.length_pos_iff.mp block.toBytes_length_pos) h.size_le
  · intro w hw
    rw [onSocket_always, sendMessage_always hsend hw]
    exact ⟨rfl, rfl⟩
  · intro w rest hw
    rw [onSocket_always, recvMessage_always, hw, nextFrame_frame hsend]
    exact ⟨rfl, rfl⟩

theorem relayable_fits {block : Block} (h : block.Sane) (hrelay : Relayable block) :
    block.toBytes.length + 4 ≤ kMaxP2pPayloadBytes.toNat := by
  obtain ⟨message, hmake, hsent, -, -⟩ := hrelay
  rw [makeBlockResponseMessage_ok (List.length_pos_iff.mp block.toBytes_length_pos) h.size_le]
    at hmake
  cases hmake
  by_contra hlong
  have hbig : kMaxP2pPayloadBytes.toNat < (blockResponseMessage block.toBytes).payload.length := by
    simpa [blockResponseMessage, makeMessage, putVarBytes_length] using hlong
  have hout := hsent ⟨[], [], false⟩ rfl
  rw [onSocket_always, sendMessage_oversize hbig, Process.always_ret] at hout
  cases hout.1

/-- A block that passes the sanity check can be relayed exactly when the payload limit leaves
room for its length field. -/
theorem block_relayable_iff {block : Block} (h : checkBlockSanity block = .ok ()) :
    Relayable block ↔ block.toBytes.length + 4 ≤ kMaxP2pPayloadBytes.toNat :=
  have hsane := (checkBlockSanity_ok block).mp h
  ⟨relayable_fits hsane, relayable_of_fits hsane⟩

/-- A coinbase and a payment fit in a message. -/
theorem fee_block_relayable : checkBlockSanity feeBlock = .ok () ∧ Relayable feeBlock := by
  have hsane : checkBlockSanity feeBlock = .ok () :=
    (checkBlockSanity_ok _).mpr
      (connectBlock_ok (feeBlock_connects (by decide : (0 : UInt32) ≤ 1))).1
  have hlength : ∀ tx ∈ [feeCollect, feeMint], tx.toBytes.length = 92 := by
    intro tx htx
    rw [Transaction.toBytes_length]
    obtain rfl | rfl := List.mem_pair.mp htx
    · rfl
    · rfl
  refine ⟨hsane, (block_relayable_iff hsane).mpr ?_⟩
  rw [block_toBytes_length, feeBlock, List.map_congr_left hlength]
  decide

/-- Five inputs and 1537 empty outputs: 61676 bytes, of which the lock time is the last. -/
def widePayment (lockTime : UInt32) : Transaction where
  version := 1
  inputs := [⟨⟨zeroHash, 0⟩⟩, ⟨⟨zeroHash, 1⟩⟩, ⟨⟨zeroHash, 2⟩⟩, ⟨⟨zeroHash, 3⟩⟩, ⟨⟨zeroHash, 4⟩⟩]
  outputs := List.replicate 1537 ⟨0, zeroHash⟩
  lockTime := lockTime

namespace WidePayment

/-- The three blocks before the outputs. -/
def head : Bytes :=
  putU32 1 ++ (putU32 5 ++ (widePayment 0).inputs.flatMap TxInput.serialize) ++ putU32 1537

/-- The last block of the padded message. -/
def tail (lockTime : UInt32) : Bytes :=
  List.replicate 40 0 ++
    (putU32 lockTime ++ 0x80 :: (List.replicate 11 0 ++ Sha256.lengthBytes 493408))

theorem toBytes_eq (lockTime : UInt32) :
    (widePayment lockTime).toBytes = head ++ List.replicate 61480 0 ++ putU32 lockTime := by
  have hout : TxOutput.serialize ⟨0, zeroHash⟩ = List.replicate 40 0 := by decide
  have houts : (widePayment lockTime).outputs.flatMap TxOutput.serialize =
      List.replicate 61480 0 := by
    rw [widePayment, List.flatMap_replicate, hout, List.flatten_replicate_replicate]
  rw [Transaction.toBytes, Transaction.serialize, houts, head]
  simp only [widePayment, List.length_replicate, List.append_assoc]
  rfl

theorem inputs_length (lockTime : UInt32) : (widePayment lockTime).inputs.length = 5 := rfl

theorem outputs_length (lockTime : UInt32) : (widePayment lockTime).outputs.length = 1537 :=
  List.length_replicate

theorem toBytes_length (lockTime : UInt32) : (widePayment lockTime).toBytes.length = 61676 := by
  rw [Transaction.toBytes_length, inputs_length, outputs_length]

theorem padded_eq (lockTime : UInt32) :
    paddedMessage (widePayment lockTime).toBytes =
      head ++ (List.replicate (kBlockSize * 960) 0 ++ tail lockTime) := by
  have hzeros : List.replicate 61480 (0 : UInt8) =
      List.replicate (kBlockSize * 960) 0 ++ List.replicate 40 0 := by
    rw [List.replicate_append_replicate]
    rfl
  have hgap : (119 - 61676 % kBlockSize) % kBlockSize = 11 := by decide
  have hbits : UInt64.ofNat 61676 * 8 = 493408 := by decide
  rw [paddedMessage, toBytes_length, toBytes_eq, hzeros, hgap, hbits]
  simp only [List.append_assoc, tail]

/-- The state before the last block, which is the same for all lock times. -/
def middle : Nat :=
  WordState.absorbZeros 960 (WordState.absorbWords 3 (WordState.wordsOf head) WordState.start)

theorem txid_number (lockTime : UInt32) :
    (widePayment lockTime).txid.number =
      WordState.double (WordState.absorbWords 1 (WordState.wordsOf (tail lockTime)) middle) := by
  have hlength : head.length = kBlockSize * 3 := by decide +kernel
  have hhead : residue kBlockSize head = [] := by
    rw [← List.length_eq_zero_iff, residue_length, hlength, Nat.mul_mod_right]
  obtain ⟨s, habsorb, hpack⟩ := WordState.absorbZeros_eq 960 (tail lockTime)
    (absorb kBlockSize processBlock head ShaState.initial)
  have hmiddle : WordState.pack s.nats = middle := by
    rw [hpack, WordState.absorbWords_eq, hlength, Nat.mul_div_cancel_left _ kBlockSize_pos]
    rfl
  have htail : (tail lockTime).length / kBlockSize = 1 := by
    simp only [tail, List.length_append, List.length_replicate, putU32_length, List.length_cons]
    rfl
  rw [Transaction.txid, WordState.sha256d_number,
    WordState.number_of_digest (sha256_eq_absorb _), padded_eq, absorb_append kBlockSize_pos, hhead,
    List.nil_append, habsorb, WordState.absorbWords_eq, htail, hmiddle]

def lockTimes : List UInt32 := [0, 1, 2, 3, 4, 5, 6, 7, 8, 9, 10, 11, 12, 13, 14, 15, 16]

set_option maxRecDepth 100000 in
theorem numbers_nodup :
    (lockTimes.map fun lockTime =>
      WordState.double (WordState.absorbWords 1 (WordState.wordsOf (tail lockTime))
        middle)).Nodup := by
  have hforce : WordState.force middle (fun m => decide (lockTimes.map fun lockTime =>
      WordState.double (WordState.absorbWords 1 (WordState.wordsOf (tail lockTime)) m)).Nodup) =
        true := by
    decide +kernel
  rw [WordState.force_eq] at hforce
  exact of_decide_eq_true hforce

theorem txids_nodup : (lockTimes.map fun lockTime => (widePayment lockTime).txid).Nodup := by
  apply List.Nodup.of_map Hash256.number
  simp only [List.map_map, Function.comp_def, txid_number]
  exact numbers_nodup

theorem value_eq (lockTime : UInt32) : outputValue (widePayment lockTime).outputs = 0 := by
  rw [outputValue]
  apply List.sum_eq_zero
  intro value hvalue
  obtain ⟨output, houtput, rfl⟩ := List.mem_map.mp hvalue
  rw [List.eq_of_mem_replicate houtput]
  rfl

theorem prevouts_eq (lockTime : UInt32) :
    (widePayment lockTime).prevouts =
      [⟨zeroHash, 0⟩, ⟨zeroHash, 1⟩, ⟨zeroHash, 2⟩, ⟨zeroHash, 3⟩, ⟨zeroHash, 4⟩] := rfl

theorem sane (lockTime : UInt32) : (widePayment lockTime).Sane where
  inputs_ne := List.cons_ne_nil _ _
  outputs_ne := by
    apply List.ne_nil_of_length_pos
    rw [outputs_length]
    decide
  limits := by
    rw [Transaction.WithinLimits, inputs_length, outputs_length]
    decide
  reserved := by
    intro _
    rw [prevouts_eq]
    decide
  prevouts_nodup := by
    rw [prevouts_eq]
    decide
  value_le := by
    rw [value_eq]
    exact Nat.zero_le _
  size_le := by
    rw [toBytes_length]
    decide

end WidePayment

/-- Seventeen such payments fill a block to the last byte. -/
def fullBlock : Block where
  header := ⟨kBlockVersion, zeroHash,
    computeMerkleRoot (WidePayment.lockTimes.map widePayment), 0, 0⟩
  transactions := WidePayment.lockTimes.map widePayment

theorem WidePayment.sizes_sum :
    ((lockTimes.map widePayment).map fun tx => tx.toBytes.length).sum = 1048492 := by
  have hcount : lockTimes.length = 17 := rfl
  rw [List.map_map, Function.comp_def]
  simp only [toBytes_length, List.map_const', List.sum_replicate_nat, hcount]

theorem fullBlock_toBytes_length : fullBlock.toBytes.length = 1048576 := by
  have hsum : (fullBlock.transactions.map fun tx => tx.toBytes.length).sum = 1048492 :=
    WidePayment.sizes_sum
  rw [block_toBytes_length, hsum]

theorem fullBlock_sane : fullBlock.Sane where
  count_le := by decide
  size_le := Nat.le_of_eq fullBlock_toBytes_length
  merkle_eq := by simp only [fullBlock]
  txs_sane := by
    intro tx htx
    obtain ⟨lockTime, -, rfl⟩ := List.mem_map.mp htx
    exact WidePayment.sane lockTime
  coinbase_first := by
    intro tx htx
    obtain ⟨lockTime, -, rfl⟩ := List.mem_map.mp (List.mem_of_mem_tail htx)
    rfl
  txids_nodup := by
    rw [fullBlock, List.map_map, Function.comp_def]
    exact WidePayment.txids_nodup

/-- A block of the largest size passes the sanity check and cannot be relayed: its length
field no longer fits the payload. -/
theorem full_block_not_relayable :
    checkBlockSanity fullBlock = .ok () ∧ fullBlock.toBytes.length = 1048576 ∧
      ¬ Relayable fullBlock := by
  have hsane := (checkBlockSanity_ok fullBlock).mpr fullBlock_sane
  refine ⟨hsane, fullBlock_toBytes_length, ?_⟩
  intro hrelay
  have hfits := relayable_fits fullBlock_sane hrelay
  rw [fullBlock_toBytes_length] at hfits
  revert hfits
  decide

end Blockchain
