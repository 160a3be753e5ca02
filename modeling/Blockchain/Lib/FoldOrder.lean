import Mathlib.Data.List.Basic

/-! Folds whose steps fall into classes, where steps of different classes commute. Only the
order inside each class matters to such a fold. -/
namespace Lib
universe u v w

section FoldOrder
variable {α : Type u} {β : Type v} {κ : Type w} [DecidableEq κ] {key : α → κ} {f : β → α → β}

def ofClass (key : α → κ) (k : κ) (l : List α) : List α := l.filter fun x => key x = k

theorem ofClass_cons_self (x : α) (l : List α) :
    ofClass key (key x) (x :: l) = x :: ofClass key (key x) l :=
  List.filter_cons_of_pos (by simp)

theorem ofClass_cons_ne {x : α} {k : κ} (h : key x ≠ k) (l : List α) :
    ofClass key k (x :: l) = ofClass key k l :=
  List.filter_cons_of_neg (by simpa using h)

theorem ofClass_swap {x y : α} (h : key x ≠ key y) (k : κ) (l : List α) :
    ofClass key k (x :: y :: l) = ofClass key k (y :: x :: l) := by
  by_cases hk : key x = k
  · rw [← hk, ofClass_cons_self, ofClass_cons_ne h.symm, ofClass_cons_ne h.symm, ofClass_cons_self]
  · rw [ofClass_cons_ne hk]
    by_cases hy : key y = k
    · rw [← hy, ofClass_cons_self, ofClass_cons_self, ofClass_cons_ne h]
    · rw [ofClass_cons_ne hy, ofClass_cons_ne hy, ofClass_cons_ne hk]

omit [DecidableEq κ] in
theorem foldl_front (hcomm : ∀ x y b, key x ≠ key y → f (f b x) y = f (f b y) x) {x : α}
    {before : List α} (hbefore : ∀ y ∈ before, key y ≠ key x) (b : β) :
    f (before.foldl f b) x = before.foldl f (f b x) := by
  induction before generalizing b with
  | nil => rfl
  | cons y before ih =>
    have hy := hbefore y List.mem_cons_self
    rw [List.foldl_cons, List.foldl_cons, ih fun z hz => hbefore z (List.mem_cons_of_mem y hz),
      hcomm y x b hy]

theorem exists_split_of_ofClass {x : α} {l rest : List α}
    (h : ofClass key (key x) l = x :: rest) :
    ∃ before after, l = before ++ x :: after ∧ (∀ y ∈ before, key y ≠ key x) ∧
      ofClass key (key x) after = rest := by
  induction l with
  | nil => cases h
  | cons y l ih =>
    by_cases hy : key y = key x
    · rw [← hy, ofClass_cons_self] at h
      obtain ⟨rfl, hrest⟩ := List.cons.inj h
      exact ⟨[], l, rfl, by simp, hrest⟩
    · rw [ofClass_cons_ne hy] at h
      obtain ⟨before, after, rfl, hbefore, hafter⟩ := ih h
      exact ⟨y :: before, after, rfl, List.forall_mem_cons.mpr ⟨hy, hbefore⟩, hafter⟩

theorem ofClass_remove {x : α} {before after : List α} {k : κ}
    (hbefore : ∀ y ∈ before, key y ≠ key x) :
    ofClass key k (before ++ after) =
      if key x = k then ofClass key k after else ofClass key k (before ++ x :: after) := by
  by_cases hk : key x = k
  · rw [if_pos hk, ofClass, List.filter_append, List.filter_eq_nil_iff.mpr,
      List.nil_append, ofClass]
    intro y hy
    simpa [← hk] using hbefore y hy
  · rw [if_neg hk, ofClass, ofClass, List.filter_append, List.filter_append]
    congr 1
    exact (ofClass_cons_ne hk after).symm

theorem foldl_eq_of_ofClass (hcomm : ∀ x y b, key x ≠ key y → f (f b x) y = f (f b y) x)
    {l l' : List α} (h : ∀ k, ofClass key k l = ofClass key k l') (b : β) :
    l.foldl f b = l'.foldl f b := by
  induction l generalizing l' b with
  | nil =>
    cases l' with
    | nil => rfl
    | cons y l' =>
      have hy := h (key y)
      rw [ofClass_cons_self] at hy
      cases hy
  | cons x l ih =>
    have hx := h (key x)
    rw [ofClass_cons_self] at hx
    -- in `l'` only items of other classes stand before `x`, so it can be moved to the front
    obtain ⟨before, after, rfl, hbefore, hafter⟩ := exists_split_of_ofClass hx.symm
    have hrest : ∀ k, ofClass key k l = ofClass key k (before ++ after) := by
      intro k
      rw [ofClass_remove hbefore]
      by_cases hk : key x = k
      · rw [if_pos hk, ← hk]
        exact hafter.symm
      · rw [if_neg hk, ← h k, ofClass_cons_ne hk]
    rw [List.foldl_cons, ih hrest, List.foldl_append, List.foldl_append, List.foldl_cons,
      foldl_front hcomm hbefore]

end FoldOrder
end Lib
