import Blockchain.Sha256Eval
import Blockchain.Lib.Fips180

/-! The in-tree SHA-256 is the standard one. The compression function is compared with the
standard's on bit vectors, the padding with the standard's least number of zeros, and the
streaming context is run once more with a check before each write to its buffer. -/
namespace Blockchain
open Lib

def ShaState.standard (s : ShaState) : Fips180.HashValue :=
  ⟨s.a.toBitVec, s.b.toBitVec, s.c.toBitVec, s.d.toBitVec, s.e.toBitVec, s.f.toBitVec,
    s.g.toBitVec, s.h.toBitVec⟩

theorem initial_standard : ShaState.initial.standard = Fips180.initialValue := by decide +kernel

theorem kRoundConstants_standard :
    kRoundConstants.map UInt32.toBitVec = (List.range 64).map Fips180.roundConstant := by
  decide +kernel

theorem rotr_toBitVec (x r : UInt32) (hpos : 0 < r.toNat) (hlt : r.toNat < 32) :
    (rotr x r).toBitVec = x.toBitVec.rotateRight r.toNat := by
  have hsub : (32 - r).toNat = 32 - r.toNat :=
    UInt32.toNat_sub_of_le 32 r (UInt32.le_iff_toNat_le.mpr hlt.le)
  apply BitVec.eq_of_toNat_eq
  rw [BitVec.rotateRight_def, Nat.mod_eq_of_lt hlt, BitVec.toNat_or, BitVec.toNat_ushiftRight,
    BitVec.toNat_shiftLeft]
  change (rotr x r).toNat = _
  rw [rotr, UInt32.toNat_or, UInt32.toNat_shiftRight, UInt32.toNat_shiftLeft, hsub,
    Nat.mod_eq_of_lt hlt, Nat.mod_eq_of_lt (by omega : 32 - r.toNat < 32)]
  rfl

theorem rotations_toBitVec (x i j k : UInt32) (hi : 0 < i.toNat ∧ i.toNat < 32)
    (hj : 0 < j.toNat ∧ j.toNat < 32) (hk : 0 < k.toNat ∧ k.toNat < 32) :
    (rotr x i ^^^ rotr x j ^^^ rotr x k).toBitVec = x.toBitVec.rotateRight i.toNat ^^^
      x.toBitVec.rotateRight j.toNat ^^^ x.toBitVec.rotateRight k.toNat := by
  rw [UInt32.toBitVec_xor, UInt32.toBitVec_xor, rotr_toBitVec x i hi.1 hi.2,
    rotr_toBitVec x j hj.1 hj.2, rotr_toBitVec x k hk.1 hk.2]

theorem scheduleShifts_toBitVec (x i j k : UInt32) (hi : 0 < i.toNat ∧ i.toNat < 32)
    (hj : 0 < j.toNat ∧ j.toNat < 32) (hk : k.toNat < 32) :
    (rotr x i ^^^ rotr x j ^^^ (x >>> k)).toBitVec = x.toBitVec.rotateRight i.toNat ^^^
      x.toBitVec.rotateRight j.toNat ^^^ (x.toBitVec >>> k.toNat) := by
  have hshift : (x >>> k).toBitVec = x.toBitVec >>> k.toNat := by
    apply BitVec.eq_of_toNat_eq
    rw [BitVec.toNat_ushiftRight]
    change (x >>> k).toNat = _
    rw [UInt32.toNat_shiftRight, Nat.mod_eq_of_lt hk]
    rfl
  rw [UInt32.toBitVec_xor, UInt32.toBitVec_xor, rotr_toBitVec x i hi.1 hi.2,
    rotr_toBitVec x j hj.1 hj.2, hshift]

theorem shaRound_standard (s : ShaState) (k w : UInt32) :
    (shaRound s k w).standard = Fips180.round s.standard k.toBitVec w.toBitVec := by
  have hs1 : (rotr s.e 6 ^^^ rotr s.e 11 ^^^ rotr s.e 25).toBitVec =
      Fips180.bigSigma1 s.e.toBitVec :=
    rotations_toBitVec s.e 6 11 25 (by decide) (by decide) (by decide)
  have hs0 : (rotr s.a 2 ^^^ rotr s.a 13 ^^^ rotr s.a 22).toBitVec =
      Fips180.bigSigma0 s.a.toBitVec :=
    rotations_toBitVec s.a 2 13 22 (by decide) (by decide) (by decide)
  simp only [shaRound, ShaState.standard, Fips180.round, UInt32.toBitVec_add, hs0, hs1]
  rfl

theorem shaRounds_standard (ks ws : List UInt32) (s : ShaState) :
    (shaRounds ks ws s).standard =
      ((ks.map UInt32.toBitVec).zip (ws.map UInt32.toBitVec)).foldl
        (fun v p => Fips180.round v p.1 p.2) s.standard := by
  induction ks generalizing ws s with
  | nil => simp [shaRounds]
  | cons k ks ih =>
    cases ws with
    | nil => simp [shaRounds]
    | cons w ws =>
      rw [shaRounds, ih, shaRound_standard, List.map_cons, List.map_cons, List.zip_cons_cons,
        List.foldl_cons]

theorem getD_standard {w : List UInt32} {f : Nat → Fips180.Word}
    (h : w.map UInt32.toBitVec = (List.range w.length).map f) {i : Nat} (hi : i < w.length) :
    (w.getD i 0).toBitVec = f i := by
  have hat := congrArg (fun l => l.getD i 0) h
  simpa [List.getD_eq_getElem?_getD, hi] using hat

theorem extendSchedule_standard (first : Nat → Fips180.Word) (n : Nat) (w : List UInt32)
    (hlen : 16 ≤ w.length)
    (h : w.map UInt32.toBitVec = (List.range w.length).map (Fips180.schedule first)) :
    (extendSchedule n w).map UInt32.toBitVec =
      (List.range (w.length + n)).map (Fips180.schedule first) := by
  induction n generalizing w with
  | zero => rw [extendSchedule, Nat.add_zero, h]
  | succ n ih =>
    have hs0 : (rotr (w.getD (w.length - 15) 0) 7 ^^^ rotr (w.getD (w.length - 15) 0) 18 ^^^
        (w.getD (w.length - 15) 0 >>> 3)).toBitVec =
          Fips180.sigma0 (Fips180.schedule first (w.length - 15)) := by
      rw [← getD_standard h (by omega : w.length - 15 < w.length)]
      exact scheduleShifts_toBitVec _ 7 18 3 (by decide) (by decide) (by decide)
    have hs1 : (rotr (w.getD (w.length - 2) 0) 17 ^^^ rotr (w.getD (w.length - 2) 0) 19 ^^^
        (w.getD (w.length - 2) 0 >>> 10)).toBitVec =
          Fips180.sigma1 (Fips180.schedule first (w.length - 2)) := by
      rw [← getD_standard h (by omega : w.length - 2 < w.length)]
      exact scheduleShifts_toBitVec _ 17 19 10 (by decide) (by decide) (by decide)
    rw [extendSchedule, Nat.add_comm n 1, ← Nat.add_assoc]
    have hgrown := ih (w ++ [w.getD (w.length - 16) 0 +
      (rotr (w.getD (w.length - 15) 0) 7 ^^^ rotr (w.getD (w.length - 15) 0) 18 ^^^
        (w.getD (w.length - 15) 0 >>> 3)) + w.getD (w.length - 7) 0 +
      (rotr (w.getD (w.length - 2) 0) 17 ^^^ rotr (w.getD (w.length - 2) 0) 19 ^^^
        (w.getD (w.length - 2) 0 >>> 10))])
      (by rw [List.length_append]; omega) ?_
    · rwa [List.length_append] at hgrown
    rw [List.length_append, List.length_singleton, List.range_succ, List.map_append,
      List.map_append, h, List.map_singleton, List.map_singleton, Fips180.schedule_step _ hlen,
      UInt32.toBitVec_add, UInt32.toBitVec_add, UInt32.toBitVec_add, hs0, hs1,
      getD_standard h (by omega), getD_standard h (by omega)]
    congr 2
    ac_rfl

theorem take_four {bytes : Bytes} (h : 4 ≤ bytes.length) :
    bytes.take 4 = [bytes.getD 0 0, bytes.getD 1 0, bytes.getD 2 0, bytes.getD 3 0] := by
  obtain _ | ⟨a, _ | ⟨b, _ | ⟨c, _ | ⟨d, rest⟩⟩⟩⟩ := bytes
  · simp at h
  · simp at h
  · simp at h
  · simp at h
  · rfl

theorem loadWord_standard {block : Bytes} {i : Nat} (h : 4 * i + 4 ≤ block.length) :
    (loadWord block i).toBitVec = Fips180.blockWord block i := by
  have hat : ∀ j, block.getD (i * 4 + j) 0 = (block.drop (4 * i)).getD j 0 := by
    intro j
    rw [List.getD_eq_getElem?_getD, List.getD_eq_getElem?_getD, List.getElem?_drop, Nat.mul_comm]
  have hlen : 4 ≤ (block.drop (4 * i)).length := by
    rw [List.length_drop]
    omega
  have hfirst := hat 0
  rw [Nat.add_zero] at hfirst
  rw [loadWord, Fips180.blockWord, take_four hlen, hfirst, hat, hat, hat]
  generalize (block.drop (4 * i)).getD 0 0 = a
  generalize (block.drop (4 * i)).getD 1 0 = b
  generalize (block.drop (4 * i)).getD 2 0 = c
  generalize (block.drop (4 * i)).getD 3 0 = d
  have ha := a.toNat_lt
  have hb := b.toNat_lt
  have hc := c.toNat_lt
  have hd := d.toNat_lt
  apply BitVec.eq_of_toNat_eq
  change (_ : UInt32).toNat = _
  rw [WordState.beWord_toNat]
  simp only [BitVec.toNat_ofNat, Fips180.beValue, List.reverse_cons, List.reverse_nil,
    List.nil_append, List.cons_append, leValue]
  omega

theorem messageSchedule_standard {block : Bytes} (h : block.length = kBlockSize) :
    (messageSchedule block).map UInt32.toBitVec =
      (List.range 64).map (Fips180.schedule (Fips180.blockWord block)) := by
  have hsize : kBlockSize = 64 := rfl
  have hextend := extendSchedule_standard (Fips180.blockWord block) 48
    ((List.range 16).map (loadWord block)) (by simp) ?_
  · simpa [messageSchedule] using hextend
  rw [List.length_map, List.length_range, List.map_map]
  apply List.map_congr_left
  intro i hi
  have hlt : i < 16 := List.mem_range.mp hi
  rw [Function.comp_apply, loadWord_standard (by omega), Fips180.schedule_first _ hlt]

theorem processBlock_standard (block : Bytes) (s : ShaState) (h : block.length = kBlockSize) :
    (processBlock block s).standard = Fips180.compress block s.standard := by
  have hrounds : (shaRounds kRoundConstants (messageSchedule block) s).standard =
      Fips180.rounds (Fips180.schedule (Fips180.blockWord block)) s.standard := by
    rw [shaRounds_standard, kRoundConstants_standard, messageSchedule_standard h, List.zip_map',
      List.foldl_map, Fips180.rounds]
  rw [Fips180.compress, ← hrounds, processBlock]
  simp only [ShaState.standard, UInt32.toBitVec_add, BitVec.add_comm]

theorem wordByte_standard (w i : UInt32) (hi : i.toNat < 32) :
    (w >>> i).toUInt8 = UInt8.ofNat (w.toNat / 2 ^ i.toNat % 256) := by
  apply UInt8.toNat_inj.mp
  rw [UInt32.toNat_toUInt8, UInt32.toNat_shiftRight, Nat.mod_eq_of_lt hi,
    Nat.shiftRight_eq_div_pow, UInt8.toNat_ofNat', Nat.mod_mod]

theorem wordBytes_standard (w : UInt32) :
    Sha256.wordBytes w = Fips180.beBytes 4 w.toBitVec.toNat := by
  have h24 := wordByte_standard w 24 (by decide)
  have h16 := wordByte_standard w 16 (by decide)
  have h8 := wordByte_standard w 8 (by decide)
  have h0 : w.toUInt8 = UInt8.ofNat (w.toNat / 1 % 256) := by
    apply UInt8.toNat_inj.mp
    rw [UInt32.toNat_toUInt8, UInt8.toNat_ofNat', Nat.mod_mod, Nat.div_one]
  rw [Fips180.beBytes_eq_map, Sha256.wordBytes, h24, h16, h8, h0]
  rfl

theorem bitLength_toNat {n : Nat} (h : n < 2 ^ 61) : (UInt64.ofNat n * 8).toNat = 8 * n := by
  rw [UInt64.toNat_mul, UInt64.toNat_ofNat', Nat.mod_eq_of_lt (by omega : n < 2 ^ 64)]
  change n * 8 % 2 ^ 64 = 8 * n
  omega

theorem lengthBytes_standard (bitLength : UInt64) :
    Sha256.lengthBytes bitLength = Fips180.beBytes 8 bitLength.toNat := by
  rw [Fips180.beBytes_eq_map]
  change ((List.range 8).reverse.map UInt64.ofNat).map _ = _
  rw [List.map_map]
  apply List.map_congr_left
  intro i hi
  have hlt : i < 8 := by simpa using hi
  apply UInt8.toNat_inj.mp
  rw [Function.comp_apply, UInt64.toNat_toUInt8, UInt64.toNat_shiftRight,
    bitLength_toNat (by omega), Nat.mod_eq_of_lt (by omega : 8 * i < 64),
    Nat.shiftRight_eq_div_pow, UInt8.toNat_ofNat', Nat.mod_mod, pow_mul]
  rfl

theorem paddedMessage_standard {data : Bytes} (h : data.length < 2 ^ 61) :
    paddedMessage data = Fips180.pad data := by
  have hzeros : Fips180.paddingZeros data.length =
      (119 - data.length % kBlockSize) % kBlockSize := by
    have hsize : kBlockSize = 64 := rfl
    rw [hsize]
    exact Fips180.paddingZeros_eq (by omega) (by omega)
  rw [paddedMessage, Fips180.pad, hzeros, lengthBytes_standard, bitLength_toNat h]

theorem digestBytes_standard (s : ShaState) :
    digestBytes s = s.standard.words.flatMap fun w => Fips180.beBytes 4 w.toNat := by
  simp only [digestBytes, ShaState.words, ShaState.standard, Fips180.HashValue.words,
    List.flatMap_cons, List.flatMap_nil, wordBytes_standard]

theorem sha256_standard {data : Bytes} (h : data.length < 2 ^ 61) :
    (sha256 data).bytes = Fips180.digest data := by
  rw [sha256_eq_absorb, digestBytes_standard, absorb_hom kBlockSize_pos ShaState.standard
    processBlock_standard, initial_standard, paddedMessage_standard h, Fips180.digest, kBlockSize]

theorem sha256d_standard {data : Bytes} (h : data.length < 2 ^ 61) :
    (sha256d data).bytes = Fips180.digest (Fips180.digest data) := by
  have hfirst : (sha256 data).bytes.length < 2 ^ 61 := by
    rw [(sha256 data).size_eq]
    decide
  rw [sha256d, sha256_standard hfirst, sha256_standard h]

namespace Sha256

/-- `buffer_[buffer_len_++] = byte`, which fails outside the buffer. -/
def checkedWrite (ctx : Sha256) (byte : UInt8) : Option Sha256 :=
  if ctx.bufferLen < kBlockSize then some (ctx.write byte) else none

def checkedUpdateByte (ctx : Sha256) (byte : UInt8) : Option Sha256 := do
  let written ← ctx.checkedWrite byte
  let folded := if written.bufferLen = kBlockSize then written.flush else written
  return { folded with totalBytes := folded.totalBytes + 1 }

def checkedUpdate (ctx : Sha256) (data : Bytes) : Option Sha256 :=
  data.foldlM checkedUpdateByte ctx

def checkedWriteZeros : Nat → Sha256 → Option Sha256
  | 0, ctx => some ctx
  | n + 1, ctx => do checkedWriteZeros n (← ctx.checkedWrite 0)

def checkedZeroFill (ctx : Sha256) (limit : Nat) : Option Sha256 :=
  checkedWriteZeros (limit - ctx.bufferLen) ctx

def checkedFinalize (ctx : Sha256) : Option Hash256 := do
  let bitLength := ctx.totalBytes * 8
  let marked ← ctx.checkedWrite 0x80
  let spilled ← if marked.bufferLen > kBlockSize - 8 then
      Sha256.flush <$> marked.checkedZeroFill kBlockSize
    else some marked
  let padded ← spilled.checkedZeroFill (kBlockSize - 8)
  let measured ← (lengthBytes bitLength).foldlM checkedWrite padded
  return ⟨digestBytes measured.flush.state, WordState.digestBytes_length _⟩

variable {ctx : Sha256} {s : ShaState} {pending : Bytes}

theorem Holds.checkedWrite (h : ctx.Holds s pending) (hlt : pending.length < kBlockSize)
    (byte : UInt8) : ctx.checkedWrite byte = some (ctx.write byte) := by
  rw [Sha256.checkedWrite, if_pos (h.len_eq ▸ hlt)]

theorem Holds.checkedWrites (bytes : Bytes) (h : ctx.Holds s pending)
    (hle : pending.length + bytes.length ≤ kBlockSize) :
    bytes.foldlM Sha256.checkedWrite ctx = some (bytes.foldl Sha256.write ctx) := by
  induction bytes generalizing ctx pending with
  | nil => rfl
  | cons byte bytes ih =>
    rw [List.length_cons] at hle
    have hlt : pending.length < kBlockSize := by omega
    rw [List.foldlM_cons, h.checkedWrite hlt, List.foldl_cons]
    exact ih (h.write hlt byte) (by rw [List.length_append, List.length_singleton]; omega)

theorem checkedWriteZeros_eq (n : Nat) (ctx : Sha256) :
    checkedWriteZeros n ctx = (List.replicate n 0).foldlM Sha256.checkedWrite ctx := by
  induction n generalizing ctx with
  | zero => rfl
  | succ n ih =>
    rw [checkedWriteZeros, List.replicate_succ, List.foldlM_cons]
    exact congrArg _ (funext ih)

theorem Holds.checkedZeroFill (h : ctx.Holds s pending) {limit : Nat} (hle : limit ≤ kBlockSize)
    (hlen : pending.length ≤ limit) :
    ctx.checkedZeroFill limit = some (ctx.zeroFill limit) := by
  rw [Sha256.checkedZeroFill, Sha256.zeroFill, checkedWriteZeros_eq, writeZeros_eq, h.len_eq]
  exact h.checkedWrites _ (by rw [List.length_replicate]; omega)

theorem Holds.checkedUpdateByte (h : ctx.Holds s pending) (hlt : pending.length < kBlockSize)
    (byte : UInt8) : ctx.checkedUpdateByte byte = some (ctx.updateByte byte) := by
  rw [Sha256.checkedUpdateByte, h.checkedWrite hlt]
  rfl

theorem Holds.checkedUpdate (data : Bytes) (h : ctx.Holds s pending)
    (hlt : pending.length < kBlockSize) : ctx.checkedUpdate data = some (ctx.update data) := by
  induction data generalizing ctx s pending with
  | nil => rfl
  | cons byte data ih =>
    rw [Sha256.checkedUpdate, List.foldlM_cons, h.checkedUpdateByte hlt]
    exact ih (h.updateByte hlt byte) (residue_length_lt kBlockSize_pos _)

theorem Holds.checkedUpdates (chunks : List Bytes) (h : ctx.Holds s pending)
    (hlt : pending.length < kBlockSize) :
    chunks.foldlM Sha256.checkedUpdate ctx = some (chunks.foldl Sha256.update ctx) := by
  induction chunks generalizing ctx s pending with
  | nil => rfl
  | cons chunk chunks ih =>
    rw [List.foldlM_cons, h.checkedUpdate chunk hlt, List.foldl_cons]
    exact ih (h.update chunk hlt) (residue_length_lt kBlockSize_pos _)

theorem Holds.checkedFinish (h : ctx.Holds s pending) (hle : pending.length ≤ kBlockSize - 8)
    (bitLength : UInt64) :
    (lengthBytes bitLength).foldlM Sha256.checkedWrite (ctx.zeroFill (kBlockSize - 8)) =
      some ((lengthBytes bitLength).foldl Sha256.write (ctx.zeroFill (kBlockSize - 8))) := by
  apply (h.zeroFill (Nat.sub_le _ _) hle).checkedWrites
  rw [List.length_append, List.length_replicate, lengthBytes_length]
  have hsize : kBlockSize = 64 := rfl
  omega

theorem Holds.checkedFinalize (h : ctx.Holds s pending) (hlt : pending.length < kBlockSize) :
    ctx.checkedFinalize = some ctx.finalize := by
  have hmarked := h.write hlt 0x80
  have hmarkedLen : (pending ++ [(0x80 : UInt8)]).length = pending.length + 1 := by simp
  rw [Sha256.checkedFinalize, h.checkedWrite hlt]
  by_cases hspill : (ctx.write 0x80).bufferLen > kBlockSize - 8
  · have hroom : (pending ++ [(0x80 : UInt8)]).length ≤ kBlockSize := by rw [hmarkedLen]; exact hlt
    have hfirst := hmarked.zeroFill (Nat.le_refl kBlockSize) hroom
    have hflushed := hfirst.flush (by rw [List.length_append, List.length_replicate]; omega)
    have hfinal : ctx.finalState = ((lengthBytes (ctx.totalBytes * 8)).foldl Sha256.write
        (((ctx.write 0x80).zeroFill kBlockSize).flush.zeroFill (kBlockSize - 8))).flush.state := by
      simp only [Sha256.finalState, if_pos hspill]
    simp only [Option.bind_eq_bind, Option.bind_some, if_pos hspill,
      hmarked.checkedZeroFill (Nat.le_refl kBlockSize) hroom, Option.map_eq_map, Option.map_some,
      hflushed.checkedZeroFill (Nat.sub_le _ _) (Nat.zero_le _),
      hflushed.checkedFinish (Nat.zero_le _), Sha256.finalize, hfinal]
    rfl
  · have hle : (pending ++ [(0x80 : UInt8)]).length ≤ kBlockSize - 8 := by
      rw [hmarked.len_eq] at hspill
      omega
    have hfinal : ctx.finalState = ((lengthBytes (ctx.totalBytes * 8)).foldl Sha256.write
        ((ctx.write 0x80).zeroFill (kBlockSize - 8))).flush.state := by
      simp only [Sha256.finalState, if_neg hspill]
    simp only [Option.bind_eq_bind, Option.bind_some, if_neg hspill,
      hmarked.checkedZeroFill (Nat.sub_le _ _) hle, hmarked.checkedFinish hle,
      Sha256.finalize, hfinal]
    rfl

end Sha256

theorem foldl_update (ctx : Sha256) (chunks : List Bytes) :
    chunks.foldl Sha256.update ctx = ctx.update chunks.flatten := by
  rw [Sha256.update, List.foldl_flatten]
  rfl

theorem streaming_sha256_standard (chunks : List Bytes) (h : chunks.flatten.length < 2 ^ 61) :
    (chunks.foldl Sha256.update Sha256.initial).finalize.bytes = Fips180.digest chunks.flatten ∧
      (chunks.foldlM Sha256.checkedUpdate Sha256.initial >>= Sha256.checkedFinalize) =
        some (chunks.foldl Sha256.update Sha256.initial).finalize := by
  have hfed := Sha256.initial_holds.update chunks.flatten kBlockSize_pos
  refine ⟨?_, ?_⟩
  · rw [foldl_update, ← sha256_standard h, sha256]
  · rw [Sha256.initial_holds.checkedUpdates chunks kBlockSize_pos, foldl_update]
    exact hfed.checkedFinalize (residue_length_lt kBlockSize_pos _)

theorem abc_in_two_updates :
    ([[0x61], [0x62, 0x63]] : List Bytes).flatten.length < 2 ^ 61 ∧
      (([[0x61], [0x62, 0x63]] : List Bytes).foldl Sha256.update Sha256.initial).finalize.bytes =
        Fips180.digest [0x61, 0x62, 0x63] :=
  ⟨by decide, (streaming_sha256_standard [[0x61], [0x62, 0x63]] (by decide)).1⟩

end Blockchain
