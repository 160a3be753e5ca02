import Blockchain.Mempool

/-! Fee-rate comparison: the two halves of a product hold the whole product, so comparing
them compares fee rates exactly. -/
namespace Blockchain
open Lib

theorem toNat_and_mask (x : UInt64) : (x &&& 0xffffffff).toNat = x.toNat % 2 ^ 32 := by
  rw [UInt64.toNat_and]
  exact Nat.and_two_pow_sub_one_eq_mod x.toNat 32

theorem toNat_shiftRight_half (x : UInt64) : (x >>> 32).toNat = x.toNat / 2 ^ 32 := by
  rw [UInt64.toNat_shiftRight]
  exact Nat.shiftRight_eq_div_pow x.toNat 32

theorem two_digit_product (x0 x1 y0 y1 : Nat) :
    let mid := x0 * y0 / 2 ^ 32 + x0 * y1 % 2 ^ 32 + x1 * y0 % 2 ^ 32
    (x1 * y1 + x0 * y1 / 2 ^ 32 + x1 * y0 / 2 ^ 32 + mid / 2 ^ 32) * 2 ^ 64 +
      (x0 * y0 % 2 ^ 32 + mid % 2 ^ 32 * 2 ^ 32) = (x1 * 2 ^ 32 + x0) * (y1 * 2 ^ 32 + y0) := by
  intro mid
  have hexpand : (x1 * 2 ^ 32 + x0) * (y1 * 2 ^ 32 + y0) =
      x1 * y1 * 2 ^ 64 + (x0 * y1 + x1 * y0) * 2 ^ 32 + x0 * y0 := by ring
  rw [hexpand]
  omega

theorem digit_product_le {x y : Nat} (hx : x < 2 ^ 32) (hy : y < 2 ^ 32) :
    x * y ≤ (2 ^ 32 - 1) * (2 ^ 32 - 1) :=
  Nat.mul_le_mul (by omega) (by omega)

theorem toNat_mul_digits {a b : UInt64} (ha : a.toNat < 2 ^ 32) (hb : b.toNat < 2 ^ 32) :
    (a * b).toNat = a.toNat * b.toNat := by
  have hle := digit_product_le ha hb
  rw [UInt64.toNat_mul, Nat.mod_eq_of_lt (by omega)]

theorem toNat_join (low mid : UInt64) (hlow : low.toNat < 2 ^ 32) :
    (low ||| (mid <<< 32)).toNat = low.toNat + mid.toNat % 2 ^ 32 * 2 ^ 32 := by
  have hshift : (mid <<< 32).toNat = 2 ^ 32 * (mid.toNat % 2 ^ 32) := by
    rw [UInt64.toNat_shiftLeft]
    change mid.toNat <<< 32 % 2 ^ 64 = _
    rw [Nat.shiftLeft_eq]
    omega
  rw [UInt64.toNat_or, hshift, Nat.or_comm, ← Nat.two_pow_add_eq_or_of_lt hlow]
  omega

/-- The sums of the schoolbook product in 64-bit words: none of them loses a carry. -/
theorem toNat_word_sums {p00 p01 p10 p11 : UInt64} (h00 : p00.toNat ≤ (2 ^ 32 - 1) * (2 ^ 32 - 1))
    (h01 : p01.toNat ≤ (2 ^ 32 - 1) * (2 ^ 32 - 1)) (h10 : p10.toNat ≤ (2 ^ 32 - 1) * (2 ^ 32 - 1))
    (h11 : p11.toNat ≤ (2 ^ 32 - 1) * (2 ^ 32 - 1)) :
    let mid := (p00 >>> 32) + (p01 &&& 0xffffffff) + (p10 &&& 0xffffffff)
    mid.toNat = (p00 >>> 32).toNat + (p01 &&& 0xffffffff).toNat + (p10 &&& 0xffffffff).toNat ∧
    (p11 + (p01 >>> 32) + (p10 >>> 32) + (mid >>> 32)).toNat =
      p11.toNat + (p01 >>> 32).toNat + (p10 >>> 32).toNat + (mid >>> 32).toNat := by
  intro mid
  have hmid : mid.toNat =
      (p00 >>> 32).toNat + (p01 &&& 0xffffffff).toNat + (p10 &&& 0xffffffff).toNat := by
    simp only [mid, UInt64.toNat_add, toNat_shiftRight_half, toNat_and_mask]
    omega
  refine ⟨hmid, ?_⟩
  simp only [toNat_shiftRight_half, toNat_and_mask] at hmid
  simp only [UInt64.toNat_add, toNat_shiftRight_half]
  omega

theorem toNat_mask_lt (x : UInt64) : (x &&& 0xffffffff).toNat < 2 ^ 32 := by
  rw [toNat_and_mask]
  omega

theorem toNat_half_lt (x : UInt64) : (x >>> 32).toNat < 2 ^ 32 := by
  rw [toNat_shiftRight_half]
  exact Nat.div_lt_of_lt_mul x.toNat_lt

/-- The partial products and the sums of `mulU64` are those of the naturals. -/
def NoCarryLost (x y : UInt64) : Prop :=
  let kMask : UInt64 := 0xffffffff
  let x0 := x &&& kMask
  let x1 := x >>> 32
  let y0 := y &&& kMask
  let y1 := y >>> 32
  let p00 := x0 * y0
  let p01 := x0 * y1
  let p10 := x1 * y0
  let p11 := x1 * y1
  let mid := (p00 >>> 32) + (p01 &&& kMask) + (p10 &&& kMask)
  p00.toNat = x0.toNat * y0.toNat ∧ p01.toNat = x0.toNat * y1.toNat ∧
  p10.toNat = x1.toNat * y0.toNat ∧ p11.toNat = x1.toNat * y1.toNat ∧
  mid.toNat = (p00 >>> 32).toNat + (p01 &&& kMask).toNat + (p10 &&& kMask).toNat ∧
  (mulU64 x y).1.toNat =
    p11.toNat + (p01 >>> 32).toNat + (p10 >>> 32).toNat + (mid >>> 32).toNat

theorem mulU64_noCarryLost (x y : UInt64) : NoCarryLost x y := by
  have h00 := toNat_mul_digits (toNat_mask_lt x) (toNat_mask_lt y)
  have h01 := toNat_mul_digits (toNat_mask_lt x) (toNat_half_lt y)
  have h10 := toNat_mul_digits (toNat_half_lt x) (toNat_mask_lt y)
  have h11 := toNat_mul_digits (toNat_half_lt x) (toNat_half_lt y)
  obtain ⟨hmid, hhigh⟩ := toNat_word_sums
    (h00 ▸ digit_product_le (toNat_mask_lt x) (toNat_mask_lt y))
    (h01 ▸ digit_product_le (toNat_mask_lt x) (toNat_half_lt y))
    (h10 ▸ digit_product_le (toNat_half_lt x) (toNat_mask_lt y))
    (h11 ▸ digit_product_le (toNat_half_lt x) (toNat_half_lt y))
  exact ⟨h00, h01, h10, h11, hmid, hhigh⟩

theorem mulU64_toNat (x y : UInt64) :
    (mulU64 x y).1.toNat * 2 ^ 64 + (mulU64 x y).2.toNat = x.toNat * y.toNat := by
  have hsplit : ∀ z : UInt64, (z >>> 32).toNat * 2 ^ 32 + (z &&& 0xffffffff).toNat = z.toNat := by
    intro z
    rw [toNat_shiftRight_half, toNat_and_mask]
    omega
  obtain ⟨h00, h01, h10, h11, hmid, hhigh⟩ := mulU64_noCarryLost x y
  have hprod := two_digit_product (x &&& 0xffffffff).toNat (x >>> 32).toNat (y &&& 0xffffffff).toNat
    (y >>> 32).toNat
  rw [hsplit x, hsplit y, ← h00, ← h01, ← h10, ← h11] at hprod
  rw [hhigh]
  simp only [toNat_shiftRight_half, toNat_and_mask, mulU64] at hmid ⊢
  rw [toNat_join _ _ (toNat_mask_lt _), hmid, toNat_and_mask]
  exact hprod

theorem strictlyHigherFeerate_iff (a b : Entry) :
    strictlyHigherFeerate a b = true ↔
      b.fee.toNat * a.sizeBytes.toNat < a.fee.toNat * b.sizeBytes.toNat := by
  have hleft := mulU64_toNat a.fee b.sizeBytes
  have hright := mulU64_toNat b.fee a.sizeBytes
  have hlt := (mulU64 a.fee b.sizeBytes).2.toNat_lt
  have hlt' := (mulU64 b.fee a.sizeBytes).2.toNat_lt
  rw [← hleft, ← hright]
  simp only [strictlyHigherFeerate]
  by_cases hhigh : (mulU64 a.fee b.sizeBytes).1 = (mulU64 b.fee a.sizeBytes).1
  · simp only [hhigh, ne_eq, not_true_eq_false, if_false, decide_eq_true_eq, gt_iff_lt,
      UInt64.lt_iff_toNat_lt]
    omega
  · have hne : (mulU64 a.fee b.sizeBytes).1.toNat ≠ (mulU64 b.fee a.sizeBytes).1.toNat :=
      fun he => hhigh (UInt64.toNat_inj.mp he)
    simp only [hhigh, ne_eq, not_false_eq_true, if_true, decide_eq_true_eq, gt_iff_lt,
      UInt64.lt_iff_toNat_lt]
    omega

theorem higherFeerate_iff (a b : Entry) :
    higherFeerate a b = true ↔
      b.fee.toNat * a.sizeBytes.toNat < a.fee.toNat * b.sizeBytes.toNat ∨
      (b.fee.toNat * a.sizeBytes.toNat = a.fee.toNat * b.sizeBytes.toNat ∧
        less a.txid b.txid = true) := by
  have hleft := mulU64_toNat a.fee b.sizeBytes
  have hright := mulU64_toNat b.fee a.sizeBytes
  have hstrict := strictlyHigherFeerate_iff a b
  simp only [strictlyHigherFeerate] at hstrict
  simp only [higherFeerate]
  by_cases hhigh : (mulU64 a.fee b.sizeBytes).1 = (mulU64 b.fee a.sizeBytes).1
  · simp only [hhigh, ne_eq, not_true_eq_false, if_false] at hstrict ⊢
    by_cases hlow : (mulU64 a.fee b.sizeBytes).2 = (mulU64 b.fee a.sizeBytes).2
    · have hequal : b.fee.toNat * a.sizeBytes.toNat = a.fee.toNat * b.sizeBytes.toNat := by
        rw [← hleft, ← hright, hhigh, hlow]
      simp [hlow, hequal]
    · have hunequal : b.fee.toNat * a.sizeBytes.toNat ≠ a.fee.toNat * b.sizeBytes.toNat := by
        intro he
        rw [← hleft, ← hright, hhigh] at he
        exact hlow (UInt64.toNat_inj.mp (Nat.add_left_cancel he).symm)
      simp only [hlow, not_false_eq_true, if_true, hstrict, hunequal, false_and, or_false]
  · have hlt := (mulU64 a.fee b.sizeBytes).2.toNat_lt
    have hlt' := (mulU64 b.fee a.sizeBytes).2.toNat_lt
    have hunequal : b.fee.toNat * a.sizeBytes.toNat ≠ a.fee.toNat * b.sizeBytes.toNat := by
      intro he
      rw [← hleft, ← hright] at he
      exact hhigh (UInt64.toNat_inj.mp (by omega))
    simp only [hhigh, ne_eq, not_false_eq_true, if_true] at hstrict ⊢
    simp only [hstrict, hunequal, false_and, or_false]

end Blockchain
