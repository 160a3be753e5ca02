import Mathlib.Data.List.Basic
import Mathlib.Data.Nat.Init

/-! Folding a stream block by block: the complete blocks are absorbed in order, and the
residue waits for what follows. -/
namespace Lib

section
variable {α σ : Type*}

def absorbBlocks (size : Nat) (step : List α → σ → σ) : Nat → List α → σ → σ
  | 0, _, s => s
  | n + 1, data, s => absorbBlocks size step n (data.drop size) (step (data.take size) s)

/-- The complete blocks of `data`, absorbed in order. -/
def absorb (size : Nat) (step : List α → σ → σ) (data : List α) (s : σ) : σ :=
  absorbBlocks size step (data.length / size) data s

def residue (size : Nat) (data : List α) : List α := data.drop (data.length / size * size)

variable {size : Nat} {step : List α → σ → σ}

theorem absorb_short {data : List α} (h : data.length < size) (s : σ) :
    absorb size step data s = s := by
  rw [absorb, Nat.div_eq_of_lt h, absorbBlocks]

theorem residue_short {data : List α} (h : data.length < size) : residue size data = data := by
  rw [residue, Nat.div_eq_of_lt h, Nat.zero_mul, List.drop_zero]

theorem residue_length (data : List α) : (residue size data).length = data.length % size := by
  rw [residue, List.length_drop, Nat.mod_eq_sub, Nat.mul_comm]

theorem residue_length_lt (hpos : 0 < size) (data : List α) :
    (residue size data).length < size := by
  rw [residue_length]
  exact Nat.mod_lt _ hpos

theorem residue_full {block : List α} (h : block.length = size) : residue size block = [] := by
  rw [← List.length_eq_zero_iff, residue_length, h, Nat.mod_self]

section
variable (hpos : 0 < size)
include hpos

theorem blocks_append {block : List α} (h : block.length = size) (rest : List α) :
    (block ++ rest).length / size = rest.length / size + 1 := by
  rw [List.length_append, h, Nat.add_comm, Nat.add_div_right _ hpos]

theorem absorb_block {block : List α} (h : block.length = size) (rest : List α) (s : σ) :
    absorb size step (block ++ rest) s = absorb size step rest (step block s) := by
  have htake : (block ++ rest).take size = block := by rw [← h, List.take_left]
  have hdrop : (block ++ rest).drop size = rest := by rw [← h, List.drop_left]
  rw [absorb, blocks_append hpos h, absorbBlocks, htake, hdrop, absorb]

theorem residue_block {block : List α} (h : block.length = size) (rest : List α) :
    residue size (block ++ rest) = residue size rest := by
  rw [residue, blocks_append hpos h, Nat.add_one_mul, Nat.add_comm, ← List.drop_drop, ← h,
    List.drop_left, h, residue]

theorem block_induction {P : List α → Prop} (short : ∀ data, data.length < size → P data)
    (block : ∀ block rest, block.length = size → P rest → P (block ++ rest))
    (data : List α) : P data := by
  induction hn : data.length using Nat.strong_induction_on generalizing data with
  | _ n ih =>
    by_cases hlt : data.length < size
    · exact short data hlt
    · have hle : size ≤ data.length := Nat.le_of_not_lt hlt
      have hrest := ih (data.drop size).length (by rw [List.length_drop]; omega) _ rfl
      have hwhole := block (data.take size) _ (List.length_take_of_le hle) hrest
      rwa [List.take_append_drop] at hwhole

theorem residue_append (data rest : List α) :
    residue size (data ++ rest) = residue size (residue size data ++ rest) := by
  induction data using block_induction hpos with
  | short data h => rw [residue_short h]
  | block block data h ih =>
    rw [List.append_assoc, residue_block hpos h, residue_block hpos h, ih]

theorem absorb_append (data rest : List α) (s : σ) :
    absorb size step (data ++ rest) s =
      absorb size step (residue size data ++ rest) (absorb size step data s) := by
  induction data using block_induction hpos generalizing s with
  | short data h => rw [residue_short h, absorb_short h]
  | block block data h ih =>
    rw [List.append_assoc, absorb_block hpos h, absorb_block hpos h, residue_block hpos h, ih]

theorem absorb_hom {τ : Type*} {step' : List α → τ → τ} (f : σ → τ)
    (h : ∀ block s, block.length = size → f (step block s) = step' block (f s))
    (data : List α) (s : σ) : f (absorb size step data s) = absorb size step' data (f s) := by
  induction data using block_induction hpos generalizing s with
  | short data hlt => rw [absorb_short hlt, absorb_short hlt]
  | block block data hlen ih => rw [absorb_block hpos hlen, absorb_block hpos hlen, ih, h _ _ hlen]

theorem absorb_full {block : List α} (h : block.length = size) (s : σ) :
    absorb size step block s = step block s := by
  calc absorb size step block s
      = absorb size step (block ++ []) s := by rw [List.append_nil]
    _ = absorb size step [] (step block s) := absorb_block hpos h [] s
    _ = step block s := absorb_short hpos _

end
end
end Lib
