import Mathlib.Data.Set.Function
import Mathlib.Data.List.Nodup
import Mathlib.Logic.Function.Iterate
import Mathlib.Tactic.Linarith

/-! Binary hash trees that pair the last node of an odd level with itself. The root
binds a list of distinct leaves as long as the hash does not collide on the strings
the two trees actually hash; self-pairing alone would let [a] pass for [a, a]. -/
namespace Lib.HashTree
universe u v
variable {β : Type u} {D : Type v} (hash : β → D) (join : D → D → β)

def pairUp : List D → List (D × D)
  | [] => []
  | [a] => [(a, a)]
  | a :: b :: rest => (a, b) :: pairUp rest

def parents (level : List D) : List D := (pairUp level).map fun p => hash (join p.1 p.2)

def root (fallback : D) : Nat → List D → D
  | 0, level => level.headD fallback
  | n + 1, level =>
    if level.length ≤ 1 then level.headD fallback else root fallback n (parents hash join level)

/-- Every string hashed on the way from a level to its root. -/
def nodeStrings : Nat → List D → List β
  | 0, _ => []
  | n + 1, level =>
    if level.length ≤ 1 then []
    else (pairUp level).map (fun p => join p.1 p.2) ++ nodeStrings n (parents hash join level)

theorem map_eq_of_injOn {α : Type*} {γ : Type*} {f : α → γ} {S : Set α} (hinj : Set.InjOn f S)
    {xs ys : List α} (hx : ∀ x ∈ xs, x ∈ S) (hy : ∀ y ∈ ys, y ∈ S) (h : xs.map f = ys.map f) :
    xs = ys := by
  induction xs generalizing ys with
  | nil => simpa using h.symm
  | cons x xs ih =>
    cases ys with
    | nil => simp at h
    | cons y ys =>
      simp only [List.map_cons, List.cons.injEq] at h
      have hhead := hinj (hx x List.mem_cons_self) (hy y List.mem_cons_self) h.1
      have htail := ih (fun a ha => hx a (List.mem_cons_of_mem x ha))
        (fun a ha => hy a (List.mem_cons_of_mem y ha)) h.2
      rw [hhead, htail]

theorem pairUp_length (level : List D) : (pairUp level).length = (level.length + 1) / 2 := by
  induction level using pairUp.induct with
  | case1 => simp [pairUp]
  | case2 a => simp [pairUp]
  | case3 a b rest ih =>
    simp only [pairUp, List.length_cons, ih]
    omega

theorem parents_length (level : List D) :
    (parents hash join level).length = (level.length + 1) / 2 := by
  rw [parents, List.length_map, pairUp_length]

theorem fst_mem_of_pairUp {level : List D} {p : D × D} (h : p ∈ pairUp level) : p.1 ∈ level := by
  induction level using pairUp.induct with
  | case1 => simp [pairUp] at h
  | case2 a =>
    simp only [pairUp, List.mem_singleton] at h
    simp [h]
  | case3 a b rest ih =>
    simp only [pairUp, List.mem_cons] at h
    obtain h | h := h
    · simp [h]
    · exact List.mem_cons_of_mem a (List.mem_cons_of_mem b (ih h))

theorem pairUp_nodup {level : List D} (h : level.Nodup) : (pairUp level).Nodup := by
  induction level using pairUp.induct with
  | case1 => simp [pairUp]
  | case2 a => simp [pairUp]
  | case3 a b rest ih =>
    have ha := (List.nodup_cons.mp h).1
    have hrest := (List.nodup_cons.mp (List.nodup_cons.mp h).2).2
    refine List.nodup_cons.mpr ⟨?_, ih hrest⟩
    intro hm
    exact ha (List.mem_cons_of_mem b (fst_mem_of_pairUp hm))

theorem pairUp_injective {l m : List D} (hl : l.Nodup) (hm : m.Nodup)
    (h : pairUp l = pairUp m) : l = m := by
  induction l using pairUp.induct generalizing m with
  | case1 =>
    cases m with
    | nil => rfl
    | cons x xs => cases xs <;> simp [pairUp] at h
  | case2 a =>
    cases m with
    | nil => simp [pairUp] at h
    | cons x xs =>
      cases xs with
      | nil => simpa [pairUp] using h
      | cons y ys =>
        simp only [pairUp, List.cons.injEq, Prod.mk.injEq] at h
        have hxy : x ≠ y := by
          intro he
          exact (List.nodup_cons.mp hm).1 (by simp [he])
        exact absurd (h.1.1.symm.trans h.1.2) hxy
  | case3 a b rest ih =>
    have hab : a ≠ b := by
      intro he
      exact (List.nodup_cons.mp hl).1 (by simp [he])
    cases m with
    | nil => simp [pairUp] at h
    | cons x xs =>
      cases xs with
      | nil =>
        simp only [pairUp, List.cons.injEq, Prod.mk.injEq] at h
        exact absurd (h.1.1.trans h.1.2.symm) hab
      | cons y ys =>
        simp only [pairUp, List.cons.injEq, Prod.mk.injEq] at h
        have hrest := ih (List.nodup_cons.mp (List.nodup_cons.mp hl).2).2
          (List.nodup_cons.mp (List.nodup_cons.mp hm).2).2 h.2
        rw [h.1.1, h.1.2, hrest]

/-- `d` rounds of pairing take the level to a single node. -/
def HasDepth : Nat → List D → Prop
  | 0, level => level.length = 1
  | d + 1, level => 1 < level.length ∧ HasDepth d (parents hash join level)

theorem exists_depth (n : Nat) (level : List D) (h : 0 < level.length) (hn : level.length ≤ n) :
    ∃ d, d ≤ n ∧ HasDepth hash join d level := by
  induction n generalizing level with
  | zero => omega
  | succ n ih =>
    by_cases h1 : level.length ≤ 1
    · exact ⟨0, by omega, by simp only [HasDepth]; omega⟩
    · have hlen := parents_length hash join level
      obtain ⟨d, hd, hdepth⟩ := ih (parents hash join level) (by omega) (by omega)
      exact ⟨d + 1, by omega, by omega, hdepth⟩

theorem root_of_depth (fallback : D) {d n : Nat} {level : List D}
    (h : HasDepth hash join d level) (hn : d ≤ n) :
    root hash join fallback n level = root hash join fallback d level := by
  induction d generalizing n level with
  | zero =>
    simp only [HasDepth] at h
    cases n with
    | zero => rfl
    | succ n => simp [root, h]
  | succ d ih =>
    cases n with
    | zero => omega
    | succ n =>
      have hgt : ¬ level.length ≤ 1 := by
        have h1 := h.1
        omega
      simp only [root, hgt, if_false]
      exact ih h.2 (by omega)

theorem nodeStrings_of_depth {d n : Nat} {level : List D}
    (h : HasDepth hash join d level) (hn : d ≤ n) :
    nodeStrings hash join n level = nodeStrings hash join d level := by
  induction d generalizing n level with
  | zero =>
    simp only [HasDepth] at h
    cases n with
    | zero => rfl
    | succ n => simp [nodeStrings, h]
  | succ d ih =>
    cases n with
    | zero => omega
    | succ n =>
      have hgt : ¬ level.length ≤ 1 := by
        have h1 := h.1
        omega
      simp only [nodeStrings, hgt, if_false]
      rw [ih h.2 (by omega)]

theorem pair_mem_nodeStrings {d : Nat} {level : List D} (h : HasDepth hash join (d + 1) level)
    {p : D × D} (hp : p ∈ pairUp level) : join p.1 p.2 ∈ nodeStrings hash join (d + 1) level := by
  have hgt : ¬ level.length ≤ 1 := by
    have h1 := h.1
    omega
  simp only [nodeStrings, hgt, if_false]
  exact List.mem_append_left _ (List.mem_map.mpr ⟨p, hp, rfl⟩)

theorem parents_nodeStrings {d : Nat} {level : List D} (h : HasDepth hash join (d + 1) level)
    {x : β} (hx : x ∈ nodeStrings hash join d (parents hash join level)) :
    x ∈ nodeStrings hash join (d + 1) level := by
  have hgt : ¬ level.length ≤ 1 := by
    have h1 := h.1
    omega
  simp only [nodeStrings, hgt, if_false]
  exact List.mem_append_right _ hx

theorem root_mem_or_hash (fallback : D) {d : Nat} {level : List D}
    (h : HasDepth hash join d level) :
    root hash join fallback d level ∈ level ∨
      ∃ x ∈ nodeStrings hash join d level, root hash join fallback d level = hash x := by
  induction d generalizing level with
  | zero =>
    obtain ⟨a, rfl⟩ := List.length_eq_one_iff.mp h
    simp [root]
  | succ d ih =>
    have hgt : ¬ level.length ≤ 1 := by
      have h1 := h.1
      omega
    have hroot : root hash join fallback (d + 1) level =
        root hash join fallback d (parents hash join level) := by
      simp only [root, hgt, if_false]
    rw [hroot]
    right
    obtain hmem | ⟨x, hx, hxr⟩ := ih h.2
    · obtain ⟨p, hp, hpr⟩ := List.mem_map.mp hmem
      exact ⟨_, pair_mem_nodeStrings hash join h hp, hpr.symm⟩
    · exact ⟨x, parents_nodeStrings hash join h hx, hxr⟩

theorem root_is_hash (fallback : D) {xs : List β} (hx : xs ≠ []) :
    ∃ x, (x ∈ xs ∨ x ∈ nodeStrings hash join xs.length (xs.map hash)) ∧
      root hash join fallback xs.length (xs.map hash) = hash x := by
  obtain ⟨d, hd, hdepth⟩ := exists_depth hash join xs.length (xs.map hash)
    (by simpa using List.length_pos_iff.mpr hx) (by simp)
  rw [root_of_depth hash join fallback hdepth hd, nodeStrings_of_depth hash join hdepth hd]
  obtain hmem | ⟨x, hxs, hroot⟩ := root_mem_or_hash hash join fallback hdepth
  · obtain ⟨x, hxs, hxr⟩ := List.mem_map.mp hmem
    exact ⟨x, .inl hxs, hxr.symm⟩
  · exact ⟨x, .inr hxs, hroot⟩

section Binding
variable {hash join}
variable (hjoin : ∀ a b a' b', join a b = join a' b' → a = a' ∧ b = b')
include hjoin

theorem join_pair_injective {p q : D × D} (h : join p.1 p.2 = join q.1 q.2) : p = q := by
  have hpq := hjoin p.1 p.2 q.1 q.2 h
  exact Prod.ext hpq.1 hpq.2

theorem parents_nodup {S : Set β} (hinj : Set.InjOn hash S) {level : List D}
    (hS : ∀ p ∈ pairUp level, join p.1 p.2 ∈ S) (h : level.Nodup) :
    (parents hash join level).Nodup := by
  refine (pairUp_nodup h).map_on ?_
  intro p hp q hq he
  exact join_pair_injective hjoin (hinj (hS p hp) (hS q hq) he)

theorem parents_injective {S : Set β} (hinj : Set.InjOn hash S) {l m : List D}
    (hSl : ∀ p ∈ pairUp l, join p.1 p.2 ∈ S) (hSm : ∀ p ∈ pairUp m, join p.1 p.2 ∈ S)
    (hl : l.Nodup) (hm : m.Nodup) (h : parents hash join l = parents hash join m) : l = m := by
  apply pairUp_injective hl hm
  refine map_eq_of_injOn (f := fun p : D × D => hash (join p.1 p.2))
    (S := {p : D × D | join p.1 p.2 ∈ S}) ?_ hSl hSm h
  intro p hp q hq he
  exact join_pair_injective hjoin (hinj hp hq he)

theorem level_eq_of_root_eq {S : Set β} (hinj : Set.InjOn hash S) (fallback : D) {d : Nat}
    {l m : List D} (hdl : HasDepth hash join d l) (hdm : HasDepth hash join d m)
    (hSl : ∀ x ∈ nodeStrings hash join d l, x ∈ S) (hSm : ∀ x ∈ nodeStrings hash join d m, x ∈ S)
    (hl : l.Nodup) (hm : m.Nodup)
    (h : root hash join fallback d l = root hash join fallback d m) : l = m := by
  induction d generalizing l m with
  | zero =>
    obtain ⟨a, rfl⟩ := List.length_eq_one_iff.mp hdl
    obtain ⟨b, rfl⟩ := List.length_eq_one_iff.mp hdm
    simpa [root] using h
  | succ d ih =>
    have hgl : ¬ l.length ≤ 1 := by
      have h1 := hdl.1
      omega
    have hgm : ¬ m.length ≤ 1 := by
      have h1 := hdm.1
      omega
    have hPl : ∀ p ∈ pairUp l, join p.1 p.2 ∈ S :=
      fun p hp => hSl _ (pair_mem_nodeStrings hash join hdl hp)
    have hPm : ∀ p ∈ pairUp m, join p.1 p.2 ∈ S :=
      fun p hp => hSm _ (pair_mem_nodeStrings hash join hdm hp)
    simp only [root, hgl, hgm, if_false] at h
    have hpar := ih hdl.2 hdm.2 (fun x hx => hSl x (parents_nodeStrings hash join hdl hx))
      (fun x hx => hSm x (parents_nodeStrings hash join hdm hx))
      (parents_nodup hjoin hinj hPl hl) (parents_nodup hjoin hinj hPm hm) h
    exact parents_injective hjoin hinj hPl hPm hl hm hpar

/-- Climbing a deeper tree to the depth of a shallower one with the same root reaches
the shallower tree's leaves, so these are hashes of joined pairs. -/
theorem leaf_is_join {S : Set β} (hinj : Set.InjOn hash S) (fallback : D) {d : Nat} (k : Nat)
    {l m : List D} (hdl : HasDepth hash join d l) (hdm : HasDepth hash join (d + (k + 1)) m)
    (hSl : ∀ x ∈ nodeStrings hash join d l, x ∈ S)
    (hSm : ∀ x ∈ nodeStrings hash join (d + (k + 1)) m, x ∈ S)
    (hl : l.Nodup) (hm : m.Nodup)
    (h : root hash join fallback d l = root hash join fallback (d + (k + 1)) m) :
    ∀ a ∈ l, ∃ p : D × D, join p.1 p.2 ∈ S ∧ a = hash (join p.1 p.2) := by
  induction k generalizing m with
  | zero =>
    have hgm : ¬ m.length ≤ 1 := by
      have h1 := hdm.1
      omega
    have hPm : ∀ p ∈ pairUp m, join p.1 p.2 ∈ S :=
      fun p hp => hSm _ (pair_mem_nodeStrings hash join hdm hp)
    simp only [root, hgm, if_false] at h
    have he := level_eq_of_root_eq hjoin hinj fallback hdl hdm.2 hSl
      (fun x hx => hSm x (parents_nodeStrings hash join hdm hx)) hl
      (parents_nodup hjoin hinj hPm hm) h
    intro a ha
    rw [he] at ha
    obtain ⟨p, hp, hpa⟩ := List.mem_map.mp ha
    exact ⟨p, hPm p hp, hpa.symm⟩
  | succ k ih =>
    have hgm : ¬ m.length ≤ 1 := by
      have h1 := hdm.1
      omega
    have hPm : ∀ p ∈ pairUp m, join p.1 p.2 ∈ S :=
      fun p hp => hSm _ (pair_mem_nodeStrings hash join hdm hp)
    have hstep : root hash join fallback (d + (k + 1 + 1)) m =
        root hash join fallback (d + (k + 1)) (parents hash join m) := by
      change root hash join fallback (d + (k + 1) + 1) m = _
      simp only [root, hgm, if_false]
    exact ih hdm.2 (fun x hx => hSm x (parents_nodeStrings hash join hdm hx))
      (parents_nodup hjoin hinj hPm hm) (h.trans hstep)

/-- The root determines a non-empty list of distinct leaf strings, none of which is
itself a joined pair, unless the hash collides on a string of one of the trees. -/
theorem leaves_eq_of_root_eq {S : Set β} (hinj : Set.InjOn hash S) (fallback : D)
    {xs ys : List β} (hx0 : xs ≠ []) (hy0 : ys ≠ [])
    (hleafx : ∀ x ∈ xs, ∀ a b, x ≠ join a b) (hleafy : ∀ y ∈ ys, ∀ a b, y ≠ join a b)
    (hxS : ∀ x ∈ xs, x ∈ S) (hyS : ∀ y ∈ ys, y ∈ S)
    (hSx : ∀ x ∈ nodeStrings hash join xs.length (xs.map hash), x ∈ S)
    (hSy : ∀ y ∈ nodeStrings hash join ys.length (ys.map hash), y ∈ S)
    (hx : (xs.map hash).Nodup) (hy : (ys.map hash).Nodup)
    (h : root hash join fallback xs.length (xs.map hash) =
      root hash join fallback ys.length (ys.map hash)) : xs = ys := by
  obtain ⟨d, hd, hdx⟩ := exists_depth hash join xs.length (xs.map hash)
    (by simpa using List.length_pos_iff.mpr hx0) (by simp)
  obtain ⟨e, he, hdy⟩ := exists_depth hash join ys.length (ys.map hash)
    (by simpa using List.length_pos_iff.mpr hy0) (by simp)
  rw [root_of_depth hash join fallback hdx hd, root_of_depth hash join fallback hdy he] at h
  rw [nodeStrings_of_depth hash join hdx hd] at hSx
  rw [nodeStrings_of_depth hash join hdy he] at hSy
  obtain hlt | heq | hgt := lt_trichotomy d e
  · obtain ⟨k, rfl⟩ := Nat.exists_eq_add_of_lt hlt
    have hj := leaf_is_join hjoin hinj fallback k hdx hdy hSx hSy hx hy h
    obtain ⟨x, hxm⟩ := List.exists_mem_of_ne_nil xs hx0
    obtain ⟨p, hpS, hp⟩ := hj (hash x) (List.mem_map_of_mem hxm)
    exact absurd (hinj (hxS x hxm) hpS hp) (hleafx x hxm p.1 p.2)
  · subst heq
    have hmap := level_eq_of_root_eq hjoin hinj fallback hdx hdy hSx hSy hx hy h
    exact map_eq_of_injOn hinj hxS hyS hmap
  · obtain ⟨k, rfl⟩ := Nat.exists_eq_add_of_lt hgt
    have hj := leaf_is_join hjoin hinj fallback k hdy hdx hSy hSx hy hx h.symm
    obtain ⟨y, hym⟩ := List.exists_mem_of_ne_nil ys hy0
    obtain ⟨p, hpS, hp⟩ := hj (hash y) (List.mem_map_of_mem hym)
    exact absurd (hinj (hyS y hym) hpS hp) (hleafy y hym p.1 p.2)

end Binding
end Lib.HashTree
