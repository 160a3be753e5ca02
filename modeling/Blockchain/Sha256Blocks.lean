import Blockchain.Sha256
import Blockchain.Lib.BlockFold

/-! The streaming context computes the digest of the padded message, 64 bytes at a time. -/
namespace Blockchain
open Lib

/-- The message, a marker bit, zeros up to the last eight bytes of a block, its bit length. -/
def paddedMessage (data : Bytes) : Bytes :=
  data ++ 0x80 :: (List.replicate ((119 - data.length % kBlockSize) % kBlockSize) 0 ++
    Sha256.lengthBytes (UInt64.ofNat data.length * 8))

def digestBytes (s : ShaState) : Bytes := s.words.flatMap Sha256.wordBytes

theorem kBlockSize_pos : 0 < kBlockSize := by decide

namespace Sha256

/-- The context has compressed into `s` and holds `pending` at the start of its buffer. -/
structure Holds (ctx : Sha256) (s : ShaState) (pending : Bytes) : Prop where
  state_eq : ctx.state = s
  size_eq : ctx.buffer.length = kBlockSize
  len_eq : ctx.bufferLen = pending.length
  buffer_eq : ctx.buffer.take pending.length = pending

variable {ctx : Sha256} {s : ShaState} {pending : Bytes}

theorem Holds.write (h : ctx.Holds s pending) (hlt : pending.length < kBlockSize) (byte : UInt8) :
    (ctx.write byte).Holds s (pending ++ [byte]) where
  state_eq := h.state_eq
  size_eq := by simpa [Sha256.write] using h.size_eq
  len_eq := by simpa [Sha256.write] using h.len_eq
  buffer_eq := by
    have hroom : pending.length < ctx.buffer.length := h.size_eq ▸ hlt
    simp only [Sha256.write, h.len_eq, List.length_append, List.length_singleton]
    rw [List.take_add_one, List.take_set_of_le (Nat.le_refl _), h.buffer_eq]
    simp [hroom]

theorem Holds.writes (bytes : Bytes) (h : ctx.Holds s pending)
    (hle : pending.length + bytes.length ≤ kBlockSize) :
    (bytes.foldl Sha256.write ctx).Holds s (pending ++ bytes) := by
  induction bytes generalizing ctx pending with
  | nil => simpa using h
  | cons byte bytes ih =>
    simp only [List.length_cons] at hle
    have hroom : (pending ++ [byte]).length + bytes.length ≤ kBlockSize := by
      rw [List.length_append, List.length_singleton]
      omega
    simpa using ih (h.write (by omega) byte) hroom

theorem writeZeros_eq (n : Nat) (ctx : Sha256) :
    writeZeros n ctx = (List.replicate n 0).foldl Sha256.write ctx := by
  induction n generalizing ctx with
  | zero => rfl
  | succ n ih => exact ih (ctx.write 0)

theorem Holds.zeroFill (h : ctx.Holds s pending) {limit : Nat} (hle : limit ≤ kBlockSize)
    (hlen : pending.length ≤ limit) :
    (ctx.zeroFill limit).Holds s (pending ++ List.replicate (limit - pending.length) 0) := by
  rw [Sha256.zeroFill, writeZeros_eq, h.len_eq]
  exact h.writes _ (by rw [List.length_replicate]; omega)

theorem flush_mk (state : ShaState) (buffer : Bytes) (len : Nat) (total : UInt64) :
    (⟨state, buffer, len, total⟩ : Sha256).flush =
      ⟨processBlock buffer state, buffer, 0, total⟩ := by
  rw [Sha256.flush]

theorem Holds.flush (h : ctx.Holds s pending) (hfull : pending.length = kBlockSize) :
    ctx.flush.Holds (processBlock pending s) [] := by
  obtain ⟨state, buffer, len, total⟩ := ctx
  obtain ⟨rfl, hsize, -, hbuffer⟩ := h
  rw [hfull, ← hsize, List.take_length] at hbuffer
  subst hbuffer
  rw [flush_mk]
  exact ⟨rfl, hsize, rfl, List.take_zero⟩

theorem flush_totalBytes (ctx : Sha256) : ctx.flush.totalBytes = ctx.totalBytes := by
  obtain ⟨state, buffer, len, total⟩ := ctx
  rw [flush_mk]

theorem Holds.count (h : ctx.Holds s pending) (total : UInt64) :
    ({ ctx with totalBytes := total } : Sha256).Holds s pending :=
  ⟨h.state_eq, h.size_eq, h.len_eq, h.buffer_eq⟩

theorem Holds.updateByte (h : ctx.Holds s pending) (hlt : pending.length < kBlockSize)
    (byte : UInt8) :
    (ctx.updateByte byte).Holds (absorb kBlockSize processBlock (pending ++ [byte]) s)
      (residue kBlockSize (pending ++ [byte])) := by
  have hwritten := h.write hlt byte
  by_cases hfull : (pending ++ [byte]).length = kBlockSize
  · rw [absorb_full kBlockSize_pos hfull, residue_full hfull, Sha256.updateByte,
      if_pos (hwritten.len_eq.trans hfull)]
    exact (hwritten.flush hfull).count _
  · have hshort : (pending ++ [byte]).length < kBlockSize := by
      simp only [List.length_append, List.length_singleton] at hfull ⊢
      omega
    rw [absorb_short hshort, residue_short hshort, Sha256.updateByte,
      if_neg (hwritten.len_eq ▸ hfull)]
    exact hwritten.count _

theorem Holds.update (data : Bytes) (h : ctx.Holds s pending) (hlt : pending.length < kBlockSize) :
    (ctx.update data).Holds (absorb kBlockSize processBlock (pending ++ data) s)
      (residue kBlockSize (pending ++ data)) := by
  induction data generalizing ctx s pending with
  | nil => simpa [absorb_short hlt, residue_short hlt, Sha256.update] using h
  | cons byte data ih =>
    have hstep := ih (h.updateByte hlt byte) (residue_length_lt kBlockSize_pos _)
    rw [← absorb_append kBlockSize_pos, ← residue_append kBlockSize_pos] at hstep
    simpa [Sha256.update] using hstep

theorem updateByte_totalBytes (ctx : Sha256) (byte : UInt8) :
    (ctx.updateByte byte).totalBytes = ctx.totalBytes + 1 := by
  simp only [Sha256.updateByte]
  split
  · rw [flush_totalBytes, write]
  · rw [write]

theorem update_totalBytes (ctx : Sha256) (data : Bytes) :
    (ctx.update data).totalBytes = ctx.totalBytes + UInt64.ofNat data.length := by
  induction data generalizing ctx with
  | nil => simp [Sha256.update]
  | cons byte data ih =>
    have hrest := ih (ctx.updateByte byte)
    rw [updateByte_totalBytes] at hrest
    rw [List.length_cons, UInt64.ofNat_add, UInt64.add_comm (UInt64.ofNat _), ← UInt64.add_assoc]
    exact hrest

theorem lengthBytes_length (bitLength : UInt64) : (lengthBytes bitLength).length = 8 := rfl

theorem Holds.finish (h : ctx.Holds s pending) (hle : pending.length ≤ kBlockSize - 8)
    (bitLength : UInt64) :
    (((lengthBytes bitLength).foldl Sha256.write (ctx.zeroFill (kBlockSize - 8))).flush).state =
      processBlock (pending ++ List.replicate (kBlockSize - 8 - pending.length) 0 ++
        lengthBytes bitLength) s := by
  have hlen : (pending ++ List.replicate (kBlockSize - 8 - pending.length) 0).length =
      kBlockSize - 8 := by
    rw [List.length_append, List.length_replicate]
    omega
  have hwritten := (h.zeroFill (Nat.sub_le _ _) hle).writes (lengthBytes bitLength)
    (by rw [hlen, lengthBytes_length]; decide)
  refine (hwritten.flush ?_).state_eq
  rw [List.length_append, hlen, lengthBytes_length]
  rfl

theorem paddingZeros_le {n : Nat} (h : n < 56) :
    (119 - n) % kBlockSize = kBlockSize - 8 - (n + 1) := by
  change (119 - n) % 64 = 64 - 8 - (n + 1)
  omega

theorem paddingZeros_spill {n : Nat} (h : 56 ≤ n) (hlt : n < 64) :
    (119 - n) % kBlockSize = (kBlockSize - (n + 1)) + (kBlockSize - 8) := by
  change (119 - n) % 64 = (64 - (n + 1)) + (64 - 8)
  omega

theorem Holds.finalState_eq (h : ctx.Holds s pending) (hlt : pending.length < kBlockSize) :
    ctx.finalState = absorb kBlockSize processBlock (pending ++ 0x80 ::
      (List.replicate ((119 - pending.length) % kBlockSize) 0 ++
        lengthBytes (ctx.totalBytes * 8))) s := by
  have hmarked := h.write hlt 0x80
  have hmarkedLen : (pending ++ [(0x80 : UInt8)]).length = pending.length + 1 := by simp
  have hsize : kBlockSize = 64 := rfl
  rw [Sha256.finalState]
  by_cases hspill : (ctx.write 0x80).bufferLen > kBlockSize - 8
  · -- no room for the length behind the marker: it goes into a block of its own
    have hge : 56 ≤ pending.length := by
      rw [hmarked.len_eq, hmarkedLen, hsize] at hspill
      omega
    have hfirst := hmarked.zeroFill (Nat.le_refl kBlockSize) (by rw [hmarkedLen]; exact hlt)
    have hfull : (pending ++ [0x80] ++
        List.replicate (kBlockSize - (pending ++ [(0x80 : UInt8)]).length) 0).length =
          kBlockSize := by
      rw [List.length_append, List.length_replicate, hmarkedLen]
      omega
    have hlast : ([] ++ List.replicate (kBlockSize - 8 - ([] : Bytes).length) 0 ++
        lengthBytes (ctx.totalBytes * 8)).length = kBlockSize := by
      rw [List.length_append, lengthBytes_length]
      rfl
    have hwhole : pending ++ 0x80 :: (List.replicate ((119 - pending.length) % kBlockSize) 0 ++
        lengthBytes (ctx.totalBytes * 8)) =
        (pending ++ [0x80] ++
          List.replicate (kBlockSize - (pending ++ [(0x80 : UInt8)]).length) 0) ++
          ([] ++ List.replicate (kBlockSize - 8 - ([] : Bytes).length) 0 ++
            lengthBytes (ctx.totalBytes * 8)) := by
      rw [paddingZeros_spill hge hlt, ← List.replicate_append_replicate, hmarkedLen]
      simp only [List.append_assoc, List.nil_append, List.cons_append, List.length_nil,
        Nat.sub_zero]
    simp only [if_pos hspill]
    rw [(hfirst.flush hfull).finish (Nat.zero_le _), hwhole, absorb_block kBlockSize_pos hfull,
      absorb_full kBlockSize_pos hlast]
  · have hle : pending.length < 56 := by
      rw [hmarked.len_eq, hmarkedLen, hsize] at hspill
      omega
    have hfull : (pending ++ [0x80] ++ List.replicate
        (kBlockSize - 8 - (pending ++ [(0x80 : UInt8)]).length) 0 ++
          lengthBytes (ctx.totalBytes * 8)).length = kBlockSize := by
      rw [List.length_append, List.length_append, List.length_replicate, lengthBytes_length,
        hmarkedLen]
      omega
    have hwhole : pending ++ 0x80 :: (List.replicate ((119 - pending.length) % kBlockSize) 0 ++
        lengthBytes (ctx.totalBytes * 8)) =
        pending ++ [0x80] ++ List.replicate
          (kBlockSize - 8 - (pending ++ [(0x80 : UInt8)]).length) 0 ++
            lengthBytes (ctx.totalBytes * 8) := by
      rw [paddingZeros_le hle, hmarkedLen]
      simp only [List.append_assoc, List.cons_append, List.nil_append]
    simp only [if_neg hspill]
    rw [hmarked.finish (by rw [hmarkedLen]; exact hle), hwhole, absorb_full kBlockSize_pos hfull]

theorem finalize_bytes (ctx : Sha256) : ctx.finalize.bytes = digestBytes ctx.finalState := by
  rw [finalize, digestBytes]

theorem initial_holds : initial.Holds ShaState.initial [] := ⟨rfl, by simp [initial], rfl, rfl⟩

end Sha256

theorem sha256_eq_absorb (data : Bytes) :
    (sha256 data).bytes =
      digestBytes (absorb kBlockSize processBlock (paddedMessage data) ShaState.initial) := by
  have hfed := Sha256.initial_holds.update data kBlockSize_pos
  have htotal : (Sha256.initial.update data).totalBytes = UInt64.ofNat data.length := by
    rw [Sha256.update_totalBytes, Sha256.initial, UInt64.zero_add]
  have hfinal := hfed.finalState_eq (residue_length_lt kBlockSize_pos _)
  rw [List.nil_append, htotal, residue_length, ← absorb_append kBlockSize_pos] at hfinal
  rw [sha256, Sha256.finalize_bytes, hfinal, paddedMessage]

end Blockchain
