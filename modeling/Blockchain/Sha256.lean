import Blockchain.Error
import Blockchain.Lib.ByteCodec
import Blockchain.Lib.OrderedMap

/-! The in-tree SHA-256: a streaming context with a 64-byte buffer, the compression
function, and the 32-byte digests that name transactions, blocks and Merkle nodes. -/
namespace Blockchain
open Lib

structure Hash256 where
  bytes : Bytes
  size_eq : bytes.length = 32
deriving DecidableEq

/-- A zero-initialised 32-byte array whose leading bytes are overwritten. -/
def Hash256.ofBytes (bytes : Bytes) : Hash256 :=
  ⟨(bytes ++ List.replicate 32 0).take 32, by simp⟩

theorem Hash256.ext {a b : Hash256} (h : a.bytes = b.bytes) : a = b := by
  cases a
  cases b
  simpa using h

theorem Hash256.bytes_ofBytes {b : Bytes} (h : b.length = 32) : (Hash256.ofBytes b).bytes = b := by
  change (b ++ List.replicate 32 0).take 32 = b
  rw [← h, List.take_left]

theorem Hash256.ofBytes_bytes (h : Hash256) : Hash256.ofBytes h.bytes = h :=
  Hash256.ext (Hash256.bytes_ofBytes h.size_eq)

def zeroHash : Hash256 := Hash256.ofBytes []

/-- Bytewise order of unsigned bytes, as `std::lexicographical_compare` decides it. -/
def lexicographicalCompare : Bytes → Bytes → Bool
  | _, [] => false
  | [], _ :: _ => true
  | a :: as, b :: bs =>
    if a.toNat < b.toNat then true
    else if b.toNat < a.toNat then false
    else lexicographicalCompare as bs

theorem lexicographicalCompare_irrefl (a : Bytes) : lexicographicalCompare a a = false := by
  induction a with
  | nil => rfl
  | cons x xs ih => simp [lexicographicalCompare, ih]

theorem lexicographicalCompare_trans (a b c : Bytes)
    (hab : lexicographicalCompare a b = true) (hbc : lexicographicalCompare b c = true) :
    lexicographicalCompare a c = true := by
  induction a generalizing b c with
  | nil =>
    cases c with
    | nil => cases b <;> simp [lexicographicalCompare] at hbc
    | cons z zs => rfl
  | cons x xs ih =>
    cases b with
    | nil => simp [lexicographicalCompare] at hab
    | cons y ys =>
      cases c with
      | nil => simp [lexicographicalCompare] at hbc
      | cons z zs =>
        simp only [lexicographicalCompare] at hab hbc ⊢
        split_ifs at hab with h1 h2 <;> split_ifs at hbc with h3 h4
        · simp [show x.toNat < z.toNat by omega]
        · simp [show x.toNat < z.toNat by omega]
        · simp [show x.toNat < z.toNat by omega]
        · simp [show ¬ x.toNat < z.toNat by omega, show ¬ z.toNat < x.toNat by omega,
            ih ys zs hab hbc]

theorem lexicographicalCompare_connected (a b : Bytes)
    (hab : lexicographicalCompare a b = false) (hba : lexicographicalCompare b a = false) :
    a = b := by
  induction a generalizing b with
  | nil =>
    cases b with
    | nil => rfl
    | cons y ys => simp [lexicographicalCompare] at hab
  | cons x xs ih =>
    cases b with
    | nil => simp [lexicographicalCompare] at hba
    | cons y ys =>
      simp only [lexicographicalCompare] at hab hba
      split_ifs at hab with h1 h2
      · simp [h2] at hba
      · rw [if_neg h2, if_neg h1] at hba
        have hxy : x = y := UInt8.toNat_inj.mp (by omega)
        rw [hxy, ih ys hab hba]

/-- `Hash256Less`: digests ordered by their bytes. -/
instance : KeyOrder Hash256 where
  less a b := lexicographicalCompare a.bytes b.bytes
  irrefl a := lexicographicalCompare_irrefl a.bytes
  trans a b c := lexicographicalCompare_trans a.bytes b.bytes c.bytes
  connected a b hab hba := Hash256.ext (lexicographicalCompare_connected a.bytes b.bytes hab hba)

def kRoundConstants : List UInt32 := [
  0x428a2f98, 0x71374491, 0xb5c0fbcf, 0xe9b5dba5, 0x3956c25b, 0x59f111f1, 0x923f82a4,
  0xab1c5ed5, 0xd807aa98, 0x12835b01, 0x243185be, 0x550c7dc3, 0x72be5d74, 0x80deb1fe,
  0x9bdc06a7, 0xc19bf174, 0xe49b69c1, 0xefbe4786, 0x0fc19dc6, 0x240ca1cc, 0x2de92c6f,
  0x4a7484aa, 0x5cb0a9dc, 0x76f988da, 0x983e5152, 0xa831c66d, 0xb00327c8, 0xbf597fc7,
  0xc6e00bf3, 0xd5a79147, 0x06ca6351, 0x14292967, 0x27b70a85, 0x2e1b2138, 0x4d2c6dfc,
  0x53380d13, 0x650a7354, 0x766a0abb, 0x81c2c92e, 0x92722c85, 0xa2bfe8a1, 0xa81a664b,
  0xc24b8b70, 0xc76c51a3, 0xd192e819, 0xd6990624, 0xf40e3585, 0x106aa070, 0x19a4c116,
  0x1e376c08, 0x2748774c, 0x34b0bcb5, 0x391c0cb3, 0x4ed8aa4a, 0x5b9cca4f, 0x682e6ff3,
  0x748f82ee, 0x78a5636f, 0x84c87814, 0x8cc70208, 0x90befffa, 0xa4506ceb, 0xbef9a3f7,
  0xc67178f2]

def rotr (value bits : UInt32) : UInt32 := (value >>> bits) ||| (value <<< (32 - bits))

/-- The eight words `state_[0..7]`, named as the working variables of a round. -/
structure ShaState where
  a : UInt32
  b : UInt32
  c : UInt32
  d : UInt32
  e : UInt32
  f : UInt32
  g : UInt32
  h : UInt32
deriving DecidableEq

def ShaState.initial : ShaState :=
  ⟨0x6a09e667, 0xbb67ae85, 0x3c6ef372, 0xa54ff53a, 0x510e527f, 0x9b05688c, 0x1f83d9ab, 0x5be0cd19⟩

def ShaState.words (s : ShaState) : List UInt32 := [s.a, s.b, s.c, s.d, s.e, s.f, s.g, s.h]

def loadWord (block : Bytes) (i : Nat) : UInt32 :=
  ((block.getD (i * 4) 0).toUInt32 <<< 24) ||| ((block.getD (i * 4 + 1) 0).toUInt32 <<< 16) |||
    ((block.getD (i * 4 + 2) 0).toUInt32 <<< 8) ||| (block.getD (i * 4 + 3) 0).toUInt32

def extendSchedule : Nat → List UInt32 → List UInt32
  | 0, w => w
  | n + 1, w =>
    let i := w.length
    let s0 := rotr (w.getD (i - 15) 0) 7 ^^^ rotr (w.getD (i - 15) 0) 18 ^^^
      (w.getD (i - 15) 0 >>> 3)
    let s1 := rotr (w.getD (i - 2) 0) 17 ^^^ rotr (w.getD (i - 2) 0) 19 ^^^
      (w.getD (i - 2) 0 >>> 10)
    extendSchedule n (w ++ [w.getD (i - 16) 0 + s0 + w.getD (i - 7) 0 + s1])

def messageSchedule (block : Bytes) : List UInt32 :=
  extendSchedule 48 ((List.range 16).map (loadWord block))

def shaRound (s : ShaState) (k w : UInt32) : ShaState :=
  let s1 := rotr s.e 6 ^^^ rotr s.e 11 ^^^ rotr s.e 25
  let ch := (s.e &&& s.f) ^^^ (~~~s.e &&& s.g)
  let temp1 := s.h + s1 + ch + k + w
  let s0 := rotr s.a 2 ^^^ rotr s.a 13 ^^^ rotr s.a 22
  let maj := (s.a &&& s.b) ^^^ (s.a &&& s.c) ^^^ (s.b &&& s.c)
  let temp2 := s0 + maj
  ⟨temp1 + temp2, s.a, s.b, s.c, s.d + temp1, s.e, s.f, s.g⟩

def shaRounds : List UInt32 → List UInt32 → ShaState → ShaState
  | k :: ks, w :: ws, s => shaRounds ks ws (shaRound s k w)
  | _, _, s => s

def processBlock (block : Bytes) (s : ShaState) : ShaState :=
  let r := shaRounds kRoundConstants (messageSchedule block) s
  ⟨s.a + r.a, s.b + r.b, s.c + r.c, s.d + r.d, s.e + r.e, s.f + r.f, s.g + r.g, s.h + r.h⟩

def kBlockSize : Nat := 64

structure Sha256 where
  state : ShaState
  buffer : Bytes
  bufferLen : Nat
  totalBytes : UInt64

namespace Sha256

def initial : Sha256 := ⟨ShaState.initial, List.replicate kBlockSize 0, 0, 0⟩

/-- `buffer_[buffer_len_++] = byte`. -/
def write (ctx : Sha256) (byte : UInt8) : Sha256 :=
  { ctx with buffer := ctx.buffer.set ctx.bufferLen byte, bufferLen := ctx.bufferLen + 1 }

/-- `process_block(buffer_.data()); buffer_len_ = 0`. -/
def flush (ctx : Sha256) : Sha256 :=
  { ctx with state := processBlock ctx.buffer ctx.state, bufferLen := 0 }

def updateByte (ctx : Sha256) (byte : UInt8) : Sha256 :=
  let written := ctx.write byte
  let folded := if written.bufferLen = kBlockSize then written.flush else written
  { folded with totalBytes := folded.totalBytes + 1 }

def update (ctx : Sha256) (data : Bytes) : Sha256 := data.foldl updateByte ctx

def writeZeros : Nat → Sha256 → Sha256
  | 0, ctx => ctx
  | n + 1, ctx => writeZeros n (ctx.write 0)

/-- `while (buffer_len_ < limit) buffer_[buffer_len_++] = 0`. -/
def zeroFill (ctx : Sha256) (limit : Nat) : Sha256 := writeZeros (limit - ctx.bufferLen) ctx

def lengthBytes (bitLength : UInt64) : Bytes :=
  ([7, 6, 5, 4, 3, 2, 1, 0] : List UInt64).map fun i => (bitLength >>> (i * 8)).toUInt8

def wordBytes (w : UInt32) : Bytes :=
  [(w >>> 24).toUInt8, (w >>> 16).toUInt8, (w >>> 8).toUInt8, w.toUInt8]

def finalState (ctx : Sha256) : ShaState :=
  let bitLength := ctx.totalBytes * 8
  let marked := ctx.write 0x80
  let spilled := if marked.bufferLen > kBlockSize - 8 then (marked.zeroFill kBlockSize).flush
    else marked
  let padded := spilled.zeroFill (kBlockSize - 8)
  ((lengthBytes bitLength).foldl write padded).flush.state

def finalize (ctx : Sha256) : Hash256 :=
  ⟨ctx.finalState.words.flatMap wordBytes, by simp [ShaState.words, wordBytes]⟩

end Sha256

def sha256 (data : Bytes) : Hash256 := (Sha256.initial.update data).finalize

def sha256d (data : Bytes) : Hash256 := sha256 (sha256 data).bytes

def hexDigitChar (value : Nat) : Char :=
  if value < 10 then Char.ofNat (48 + value) else Char.ofNat (87 + value)

def toHex (hash : Hash256) : String :=
  String.ofList (hash.bytes.flatMap fun b =>
    [hexDigitChar (b.toNat / 16), hexDigitChar (b.toNat % 16)])

def hexDigit (c : UInt8) : Option Nat :=
  if 48 ≤ c.toNat ∧ c.toNat ≤ 57 then some (c.toNat - 48)
  else if 97 ≤ c.toNat ∧ c.toNat ≤ 102 then some (c.toNat - 97 + 10)
  else if 65 ≤ c.toNat ∧ c.toNat ≤ 70 then some (c.toNat - 65 + 10)
  else none

def hexPairs : Bytes → Option Bytes
  | hi :: lo :: rest => do
    let h ← hexDigit hi
    let l ← hexDigit lo
    let tail ← hexPairs rest
    return UInt8.ofNat (h * 16 + l) :: tail
  | _ => some []

def hashFromHex (hex : Bytes) : Result Hash256 :=
  if hex.length ≠ 64 then makeError .parseError "hash hex must be exactly 64 characters"
  else match hexPairs hex with
    | some bytes => .ok (Hash256.ofBytes bytes)
    | none => makeError .parseError "hash hex contains invalid characters"

end Blockchain
