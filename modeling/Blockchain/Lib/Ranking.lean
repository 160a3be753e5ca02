import Mathlib.Data.List.Sort
import Mathlib.Data.List.Perm.Subperm
import Mathlib.Order.Bounds.Basic

/-! Ranked collections: sorting by a comparison that is only an order on the items at hand,
dropping the lowest items until the rest fits, and keeping the items of highest rank. -/
namespace Lib
universe u v

section Sorting
variable {α : Type u} {r : α → α → Prop} [DecidableRel r] {items : List α}

theorem pairwise_insertionSort_of_mem (htotal : ∀ a ∈ items, ∀ b ∈ items, r a b ∨ r b a)
    (htrans : ∀ a ∈ items, ∀ b ∈ items, ∀ c ∈ items, r a b → r b c → r a c) :
    (items.insertionSort r).Pairwise r := by
  let s : { x // x ∈ items } → { x // x ∈ items } → Prop := fun a b => r a.val b.val
  have : DecidableRel s := fun a b => inferInstanceAs (Decidable (r a.val b.val))
  have : Std.Total s := ⟨fun a b => htotal a.val a.property b.val b.property⟩
  have : IsTrans _ s :=
    ⟨fun a b c => htrans a.val a.property b.val b.property c.val c.property⟩
  have hmap := List.map_insertionSort (r := s) (s := r) Subtype.val items.attach
    fun _ _ _ _ => Iff.rfl
  rw [List.attach_map_subtype_val] at hmap
  rw [← hmap]
  exact (List.pairwise_insertionSort s items.attach).map _ fun _ _ h => h

end Sorting

section Scanning
variable {α : Type u} (lower : α → α → Bool)

def pickLowest (candidate : Option α) (item : α) : Option α :=
  match candidate with
  | none => some item
  | some c => if lower item c then some item else some c

variable {lower} {R : α → α → Prop} {P : α → Prop}

theorem foldl_pickLowest (hrefl : ∀ a, R a a)
    (htrans : ∀ a b c, P a → P b → P c → R a b → R b c → R a c)
    (htrue : ∀ a b, P a → P b → lower a b = true → R a b)
    (hfalse : ∀ a b, P a → P b → lower a b = false → R b a) {items : List α}
    (hitems : ∀ a ∈ items, P a) {candidate : α} (hcandidate : P candidate) :
    ∃ x ∈ candidate :: items, items.foldl (pickLowest lower) (some candidate) = some x ∧
      ∀ y ∈ candidate :: items, R x y := by
  induction items generalizing candidate with
  | nil => exact ⟨candidate, List.mem_cons_self, rfl, by simpa using hrefl candidate⟩
  | cons item items ih =>
    obtain ⟨hitem, hitems⟩ := List.forall_mem_cons.mp hitems
    rw [List.foldl_cons, pickLowest]
    have hall : ∀ x ∈ candidate :: item :: items, P x :=
      List.forall_mem_cons.mpr ⟨hcandidate, List.forall_mem_cons.mpr ⟨hitem, hitems⟩⟩
    cases hlower : lower item candidate with
    | true =>
      rw [if_pos rfl]
      obtain ⟨x, hx, hfold, hbelow⟩ := ih hitems hitem
      have hx' := List.mem_cons_of_mem candidate hx
      refine ⟨x, hx', hfold, List.forall_mem_cons.mpr ⟨?_, hbelow⟩⟩
      exact htrans x item candidate (hall x hx') hitem hcandidate (hbelow item List.mem_cons_self)
        (htrue item candidate hitem hcandidate hlower)
    | false =>
      rw [if_neg Bool.false_ne_true]
      obtain ⟨x, hx, hfold, hbelow⟩ := ih hitems hcandidate
      have hx' : x ∈ candidate :: item :: items :=
        List.mem_cons.mpr ((List.mem_cons.mp hx).imp_right (List.mem_cons_of_mem _))
      obtain ⟨hfirst, hrest⟩ := List.forall_mem_cons.mp hbelow
      refine ⟨x, hx', hfold,
        List.forall_mem_cons.mpr ⟨hfirst, List.forall_mem_cons.mpr ⟨?_, hrest⟩⟩⟩
      exact htrans x candidate item (hall x hx') hcandidate hitem hfirst
        (hfalse item candidate hitem hcandidate hlower)

end Scanning

section Evicting
variable {α : Type u} (fits : List α → Prop) [DecidablePred fits] (beaten : α → Bool)

/-- Drop items from the front until the rest fits. Only beaten items may be dropped. -/
def evict : List α → Option (List α)
  | [] => if fits [] then some [] else none
  | item :: rest =>
    if fits (item :: rest) then some (item :: rest)
    else if beaten item then evict rest else none

variable {fits beaten}

theorem evict_of_fits {items rest : List α} (hfits : fits items) :
    evict fits beaten items = some rest ↔
      ∃ k, IsLeast {k | fits (items.drop k)} k ∧ rest = items.drop k ∧
        ∀ item ∈ items.take k, beaten item = true := by
  have hkeeps : evict fits beaten items = some items := by
    cases items with
    | nil => rw [evict, if_pos hfits]
    | cons item items => rw [evict, if_pos hfits]
  rw [hkeeps]
  constructor
  · intro h
    exact ⟨0, ⟨hfits, fun _ _ => Nat.zero_le _⟩, (Option.some.inj h).symm, by simp⟩
  · intro h
    obtain ⟨k, hk, rfl, _⟩ := h
    obtain rfl : k = 0 := Nat.le_zero.mp (hk.2 hfits)
    rfl

omit [DecidablePred fits] in
theorem least_drop_cons {item : α} {items : List α} (hfits : ¬ fits (item :: items)) (k : Nat) :
    IsLeast {k | fits ((item :: items).drop k)} (k + 1) ↔ IsLeast {k | fits (items.drop k)} k := by
  refine ⟨fun hk => ⟨hk.1, fun j hj => ?_⟩, fun hk => ⟨hk.1, fun j hj => ?_⟩⟩
  · have hle : k + 1 ≤ j + 1 := hk.2 hj
    exact Nat.le_of_succ_le_succ hle
  · cases j with
    | zero => exact absurd hj hfits
    | succ j => exact Nat.succ_le_succ (hk.2 hj)

theorem evict_eq_some_iff {items rest : List α} :
    evict fits beaten items = some rest ↔
      ∃ k, IsLeast {k | fits (items.drop k)} k ∧ rest = items.drop k ∧
        ∀ item ∈ items.take k, beaten item = true := by
  induction items with
  | nil =>
    by_cases hfits : fits []
    · exact evict_of_fits hfits
    · rw [evict, if_neg hfits]
      constructor
      · intro h
        cases h
      · intro h
        obtain ⟨k, hk, _⟩ := h
        exact absurd (by simpa using hk.1) hfits
  | cons item items ih =>
    by_cases hfits : fits (item :: items)
    · exact evict_of_fits hfits
    · rw [evict, if_neg hfits]
      constructor
      · intro h
        by_cases hbeaten : beaten item = true
        · rw [if_pos hbeaten] at h
          obtain ⟨k, hk, hdrop, hall⟩ := ih.mp h
          exact ⟨k + 1, (least_drop_cons hfits k).mpr hk, hdrop,
            List.forall_mem_cons.mpr ⟨hbeaten, hall⟩⟩
        · simp [hbeaten] at h
      · intro h
        obtain ⟨k, hk, rfl, hall⟩ := h
        cases k with
        | zero => exact absurd hk.1 hfits
        | succ k =>
          obtain ⟨hbeaten, hall⟩ := List.forall_mem_cons.mp hall
          rw [if_pos hbeaten]
          exact ih.mpr ⟨k, (least_drop_cons hfits k).mp hk, rfl, hall⟩

end Evicting

section Selecting
variable {α : Type u} (takes : List α → α → Bool)

/-- Go through the items in order and take each one that goes with those taken so far. -/
def greedy (taken : List α) : List α → List α
  | [] => taken
  | item :: rest => if takes taken item then greedy (taken ++ [item]) rest else greedy taken rest

theorem greedy_append (taken xs ys : List α) :
    greedy takes taken (xs ++ ys) = greedy takes (greedy takes taken xs) ys := by
  induction xs generalizing taken with
  | nil => rfl
  | cons x xs ih =>
    rw [List.cons_append, greedy, greedy]
    split
    · exact ih (taken ++ [x])
    · exact ih taken

theorem greedy_sublist (taken items : List α) :
    ∃ added, added.Sublist items ∧ greedy takes taken items = taken ++ added := by
  induction items generalizing taken with
  | nil => exact ⟨[], .refl _, (List.append_nil _).symm⟩
  | cons item rest ih =>
    rw [greedy]
    split
    · obtain ⟨added, hsub, heq⟩ := ih (taken ++ [item])
      exact ⟨item :: added, hsub.cons_cons item,
        by rw [heq, List.append_assoc, List.singleton_append]⟩
    · obtain ⟨added, hsub, heq⟩ := ih taken
      exact ⟨added, hsub.cons item, heq⟩

variable {takes}

theorem greedy_full {taken : List α} (hfull : ∀ item, takes taken item = false) (items : List α) :
    greedy takes taken items = taken := by
  induction items with
  | nil => rfl
  | cons item rest ih => rw [greedy, hfull, if_neg Bool.false_ne_true, ih]

theorem greedy_takes {taken items : List α}
    (htaken : ∀ item ∈ taken, ∃ before, takes before item = true) :
    ∀ item ∈ greedy takes taken items, ∃ before, takes before item = true := by
  induction items generalizing taken with
  | nil => exact htaken
  | cons x rest ih =>
    rw [greedy]
    by_cases htakes : takes taken x = true
    · rw [if_pos htakes]
      apply ih
      intro item hitem
      obtain hitem | hitem := List.mem_append.mp hitem
      · exact htaken item hitem
      · rw [List.mem_singleton.mp hitem]
        exact ⟨taken, htakes⟩
    · rw [if_neg htakes]
      exact ih htaken

theorem greedy_left_out {pre post : List α} {item : α}
    (hout : item ∉ greedy takes [] (pre ++ item :: post)) :
    ∃ before after, before.Sublist pre ∧ after.Sublist post ∧
      greedy takes [] (pre ++ item :: post) = before ++ after ∧ takes before item = false := by
  obtain ⟨before, hbefore, hpre⟩ := greedy_sublist takes [] pre
  rw [List.nil_append] at hpre
  rw [greedy_append, hpre, greedy] at hout ⊢
  by_cases htakes : takes before item = true
  · obtain ⟨after, _, hafter⟩ := greedy_sublist takes (before ++ [item]) post
    rw [if_pos htakes, hafter] at hout
    exact absurd (by simp) hout
  · obtain ⟨after, hsub, hafter⟩ := greedy_sublist takes before post
    rw [if_neg htakes]
    exact ⟨before, after, hbefore, hsub, hafter, Bool.eq_false_of_not_eq_true htakes⟩

end Selecting

section Keeping
variable {α : Type u} {β : Type v} [LinearOrder β] (rank : α → β)

/-- The `n` items of highest rank, or all items if there are fewer. -/
structure TopRanked (n : Nat) (all kept : List α) : Prop where
  nodup : kept.Nodup
  subset : ∀ x ∈ kept, x ∈ all
  length_eq : kept.length = min n all.length
  above : ∀ x ∈ all, x ∉ kept → ∀ y ∈ kept, rank x < rank y

namespace TopRanked
variable {rank} {n : Nat} {all kept : List α} {x w : α}

theorem nil (n : Nat) : TopRanked rank n [] [] :=
  ⟨List.nodup_nil, by simp, by simp, by simp⟩

theorem perm {all' kept' : List α} (h : TopRanked rank n all kept) (hall : all.Perm all')
    (hperm : kept.Perm kept') : TopRanked rank n all' kept' where
  nodup := hperm.nodup_iff.mp h.nodup
  subset := fun x hx => hall.mem_iff.mp (h.subset x (hperm.mem_iff.mpr hx))
  length_eq := by rw [← hperm.length_eq, h.length_eq, hall.length_eq]
  above := fun x hx hout y hy =>
    h.above x (hall.mem_iff.mpr hx) (fun hx' => hout (hperm.mem_iff.mp hx')) y
      (hperm.mem_iff.mpr hy)

/-- Items of equal number cannot be replaced by others: those would rank both higher and
lower. -/
theorem mem_of_mem {kept' : List α} (h : TopRanked rank n all kept)
    (h' : TopRanked rank n all kept') (hx : x ∈ kept) : x ∈ kept' := by
  by_contra hout
  have hlen : kept.length = kept'.length := h.length_eq.trans h'.length_eq.symm
  have hother : ∃ y ∈ kept', y ∉ kept := by
    by_contra hnone
    have hsub : ∀ y ∈ kept', y ∈ kept := by
      intro y hy
      by_contra hy'
      exact hnone ⟨y, hy, hy'⟩
    have hperm' := (List.subperm_of_subset h'.nodup hsub).perm_of_length_le hlen.le
    exact hout (hperm'.mem_iff.mpr hx)
  obtain ⟨y, hy, hy'⟩ := hother
  have hlow := h.above y (h'.subset y hy) hy' x hx
  have hhigh := h'.above x (h.subset x hx) hout y hy
  exact lt_asymm hlow hhigh

theorem all_kept (h : TopRanked rank n all kept) (hroom : kept.length < n) :
    ∀ x ∈ all, x ∈ kept := by
  have hlen : all.length ≤ kept.length := by
    have heq := h.length_eq
    omega
  have hperm := (List.subperm_of_subset h.nodup h.subset).perm_of_length_le hlen
  exact fun x hx => hperm.mem_iff.mpr hx

theorem add (h : TopRanked rank n all kept) (hnew : x ∉ all)
    (hroom : kept.length < n) : TopRanked rank n (x :: all) (x :: kept) where
  nodup := List.nodup_cons.mpr ⟨fun hx => hnew (h.subset x hx), h.nodup⟩
  subset := by
    intro y hy
    obtain rfl | hy := List.mem_cons.mp hy
    · exact List.mem_cons_self
    · exact List.mem_cons_of_mem _ (h.subset y hy)
  length_eq := by
    have heq := h.length_eq
    simp only [List.length_cons]
    omega
  above := by
    intro y hy hout
    obtain rfl | hy := List.mem_cons.mp hy
    · exact absurd List.mem_cons_self hout
    · exact absurd (List.mem_cons_of_mem _ (h.all_kept hroom y hy)) hout

theorem refuse (h : TopRanked rank n all kept) (hfull : kept.length = n)
    (hlow : ∀ y ∈ kept, rank x < rank y) : TopRanked rank n (x :: all) kept where
  nodup := h.nodup
  subset := fun y hy => List.mem_cons_of_mem _ (h.subset y hy)
  length_eq := by
    have heq := h.length_eq
    simp only [List.length_cons]
    omega
  above := by
    intro y hy hout
    obtain rfl | hy := List.mem_cons.mp hy
    · exact hlow
    · exact h.above y hy hout

theorem replace (h : TopRanked rank n all kept) (hnew : x ∉ all) {rest : List α}
    (hrest : kept.Perm (w :: rest)) (hlowest : ∀ y ∈ rest, rank w < rank y)
    (hfull : kept.length = n) (hbeats : rank w < rank x) :
    TopRanked rank n (x :: all) (x :: rest) where
  nodup := by
    have hnodup := hrest.nodup_iff.mp h.nodup
    refine List.nodup_cons.mpr ⟨fun hx => hnew (h.subset x ?_), (List.nodup_cons.mp hnodup).2⟩
    exact hrest.mem_iff.mpr (List.mem_cons_of_mem _ hx)
  subset := by
    intro y hy
    obtain rfl | hy := List.mem_cons.mp hy
    · exact List.mem_cons_self
    · exact List.mem_cons_of_mem _ (h.subset y (hrest.mem_iff.mpr (List.mem_cons_of_mem _ hy)))
  length_eq := by
    have heq := h.length_eq
    have hlen := hrest.length_eq
    simp only [List.length_cons] at hlen ⊢
    omega
  above := by
    have hw : w ∈ kept := hrest.mem_iff.mpr List.mem_cons_self
    -- everything that is left out ranks no higher than the item that went
    have hout : ∀ y ∈ x :: all, y ∉ x :: rest → rank y ≤ rank w := by
      intro y hy hy'
      obtain rfl | hy := List.mem_cons.mp hy
      · exact absurd List.mem_cons_self hy'
      · by_cases hkept : y ∈ kept
        · obtain rfl | hmem := List.mem_cons.mp (hrest.mem_iff.mp hkept)
          · exact le_refl _
          · exact absurd (List.mem_cons_of_mem _ hmem) hy'
        · exact (h.above y hy hkept w hw).le
    intro y hy hy' z hz
    refine (hout y hy hy').trans_lt ?_
    obtain rfl | hz := List.mem_cons.mp hz
    · exact hbeats
    · exact hlowest z hz

end TopRanked
end Keeping
end Lib
