import Blockchain.Lib.BlockFold
import Blockchain.Lib.ByteCodec
import Mathlib.Data.Nat.NthRoot.Defs
import Mathlib.Data.Nat.Find

/-! SHA-256 as FIPS 180-4 states it, for messages of whole bytes. The constants are given by
their meaning, the fractional parts of roots of primes, and the schedule by its recurrence. -/
namespace Lib.Fips180

abbrev Word := BitVec 32

def ch (x y z : Word) : Word := (x &&& y) ^^^ (~~~x &&& z)

def maj (x y z : Word) : Word := (x &&& y) ^^^ (x &&& z) ^^^ (y &&& z)

def bigSigma0 (x : Word) : Word := x.rotateRight 2 ^^^ x.rotateRight 13 ^^^ x.rotateRight 22

def bigSigma1 (x : Word) : Word := x.rotateRight 6 ^^^ x.rotateRight 11 ^^^ x.rotateRight 25

def sigma0 (x : Word) : Word := x.rotateRight 7 ^^^ x.rotateRight 18 ^^^ (x >>> 3)

def sigma1 (x : Word) : Word := x.rotateRight 17 ^^^ x.rotateRight 19 ^^^ (x >>> 10)

def primes : List Nat :=
  (List.range 312).filter fun p => 2 ≤ p && (List.range p).all fun d => d < 2 || p % d != 0

/-- The first thirty-two bits of the fractional part of the `k`-th root of `p`. -/
def rootFraction (k p : Nat) : Word := BitVec.ofNat 32 (Nat.nthRoot k (p * 2 ^ (32 * k)))

def roundConstant (t : Nat) : Word := rootFraction 3 (primes.getD t 0)

/-- The eight words of a hash value, named as the working variables. -/
structure HashValue where
  a : Word
  b : Word
  c : Word
  d : Word
  e : Word
  f : Word
  g : Word
  h : Word
deriving DecidableEq

def HashValue.words (v : HashValue) : List Word := [v.a, v.b, v.c, v.d, v.e, v.f, v.g, v.h]

def initialValue : HashValue :=
  ⟨rootFraction 2 2, rootFraction 2 3, rootFraction 2 5, rootFraction 2 7, rootFraction 2 11,
    rootFraction 2 13, rootFraction 2 17, rootFraction 2 19⟩

def beBytes (width value : Nat) : Bytes := (leBytes width value).reverse

def beValue (bytes : Bytes) : Nat := leValue bytes.reverse

def blockWord (block : Bytes) (t : Nat) : Word :=
  BitVec.ofNat 32 (beValue ((block.drop (4 * t)).take 4))

def schedule (first : Nat → Word) : Nat → Word
  | t + 16 => sigma1 (schedule first (t + 14)) + schedule first (t + 9) +
      sigma0 (schedule first (t + 1)) + schedule first t
  | t => first t

def round (v : HashValue) (k w : Word) : HashValue :=
  let t1 := v.h + bigSigma1 v.e + ch v.e v.f v.g + k + w
  let t2 := bigSigma0 v.a + maj v.a v.b v.c
  ⟨t1 + t2, v.a, v.b, v.c, v.d + t1, v.e, v.f, v.g⟩

def rounds (w : Nat → Word) (v : HashValue) : HashValue :=
  (List.range 64).foldl (fun v t => round v (roundConstant t) (w t)) v

def compress (block : Bytes) (v : HashValue) : HashValue :=
  let r := rounds (schedule (blockWord block)) v
  ⟨r.a + v.a, r.b + v.b, r.c + v.c, r.d + v.d, r.e + v.e, r.f + v.f, r.g + v.g, r.h + v.h⟩

theorem padding_exists (n : Nat) : ∃ k, 64 ∣ n + 1 + k + 8 := ⟨63 * (n + 9), by omega⟩

/-- The fewest zero bytes that complete a block before the length field. -/
def paddingZeros (n : Nat) : Nat := Nat.find (padding_exists n)

def pad (message : Bytes) : Bytes :=
  message ++ 0x80 :: (List.replicate (paddingZeros message.length) 0 ++
    beBytes 8 (8 * message.length))

def digest (message : Bytes) : Bytes :=
  (absorb 64 compress (pad message) initialValue).words.flatMap fun w => beBytes 4 w.toNat

theorem paddingZeros_eq {n k : Nat} (hdvd : 64 ∣ n + 1 + k + 8) (hlt : k < 64) :
    paddingZeros n = k := by
  have hspec : 64 ∣ n + 1 + paddingZeros n + 8 := Nat.find_spec (padding_exists n)
  have hmin : paddingZeros n ≤ k := Nat.find_min' (padding_exists n) hdvd
  omega

theorem beBytes_eq_map (width value : Nat) :
    beBytes width value =
      (List.range width).reverse.map fun i => UInt8.ofNat (value / 256 ^ i % 256) := by
  have hle : leBytes width value =
      (List.range width).map fun i => UInt8.ofNat (value / 256 ^ i % 256) := by
    induction width generalizing value with
    | zero => rfl
    | succ width ih =>
      rw [leBytes, ih, List.range_succ_eq_map, List.map_cons, List.map_map, pow_zero, Nat.div_one]
      simp only [Function.comp_def, pow_succ', Nat.div_div_eq_div_mul, Nat.succ_eq_add_one]
  rw [beBytes, hle, List.map_reverse]

theorem schedule_first (first : Nat → Word) {t : Nat} (h : t < 16) :
    schedule first t = first t := by
  rw [schedule]
  intro u hu
  omega

theorem schedule_step (first : Nat → Word) {t : Nat} (h : 16 ≤ t) :
    schedule first t = sigma1 (schedule first (t - 2)) + schedule first (t - 7) +
      sigma0 (schedule first (t - 15)) + schedule first (t - 16) := by
  obtain ⟨u, rfl⟩ := Nat.exists_eq_add_of_le' h
  rw [schedule]
  rfl

end Lib.Fips180
