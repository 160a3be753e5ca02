import Mathlib.Data.List.Sort
import Mathlib.Algebra.BigOperators.Group.List.Basic

/-! Finite maps kept as a strictly ascending association list, in the manner of
an ordered container with a user-supplied comparator. Two maps with the same
lookups are equal, so iteration order is a function of the contents. -/
namespace Lib
universe u v
variable {κ : Type u} {ν : Type v}

class KeyOrder (κ : Type u) where
  less : κ → κ → Bool
  irrefl : ∀ a, less a a = false
  trans : ∀ a b c, less a b = true → less b c = true → less a c = true
  connected : ∀ a b, less a b = false → less b a = false → a = b

export KeyOrder (less)

section Keys
variable [KeyOrder κ]

theorem less_irrefl (a : κ) : less a a = false := KeyOrder.irrefl a

theorem less_asymm {a b : κ} (h : less a b = true) : less b a = false := by
  by_contra hb
  have haa := KeyOrder.trans a b a h (by simpa using hb)
  simp [less_irrefl] at haa

theorem ne_of_less {a b : κ} (h : less a b = true) : a ≠ b := by
  rintro rfl
  simp [less_irrefl] at h

theorem less_or_less_iff_ne (a b : κ) : (less a b || less b a) = true ↔ a ≠ b := by
  constructor
  · intro h he
    subst he
    simp [less_irrefl] at h
  · intro hne
    by_contra h
    simp only [Bool.or_eq_true, not_or, Bool.not_eq_true] at h
    exact hne (KeyOrder.connected a b h.1 h.2)

end Keys

structure OrderedMap (κ : Type u) (ν : Type v) [KeyOrder κ] where
  entries : List (κ × ν)
  sorted : entries.Pairwise (fun a b => less a.1 b.1 = true)

namespace OrderedMap
variable [KeyOrder κ]

instance [DecidableEq κ] [DecidableEq ν] : DecidableEq (OrderedMap κ ν) := fun m m' =>
  decidable_of_iff (m.entries = m'.entries) <| by
    cases m
    cases m'
    simp

def empty : OrderedMap κ ν := ⟨[], List.Pairwise.nil⟩

def size (m : OrderedMap κ ν) : Nat := m.entries.length

def values (m : OrderedMap κ ν) : List ν := m.entries.map Prod.snd

def find? (m : OrderedMap κ ν) (k : κ) : Option ν :=
  (m.entries.find? fun e => !(less e.1 k || less k e.1)).map Prod.snd

def contains (m : OrderedMap κ ν) (k : κ) : Bool := (m.find? k).isSome

private theorem insert_sorted (l : List (κ × ν)) (k : κ) (v : ν)
    (h : l.Pairwise (fun a b => less a.1 b.1 = true)) :
    (l.filter (fun e => less e.1 k) ++ (k, v) :: l.filter (fun e => less k e.1)).Pairwise
      (fun a b => less a.1 b.1 = true) := by
  refine List.pairwise_append.mpr ⟨h.filter _, ?_, ?_⟩
  · refine List.pairwise_cons.mpr ⟨?_, h.filter _⟩
    intro e he
    exact (List.mem_filter.mp he).2
  · intro a ha b hb
    have hak : less a.1 k = true := (List.mem_filter.mp ha).2
    rcases List.mem_cons.mp hb with rfl | hb
    · exact hak
    · exact KeyOrder.trans _ _ _ hak (List.mem_filter.mp hb).2

def insert (m : OrderedMap κ ν) (k : κ) (v : ν) : OrderedMap κ ν :=
  ⟨m.entries.filter (fun e => less e.1 k) ++ (k, v) :: m.entries.filter (fun e => less k e.1),
    insert_sorted m.entries k v m.sorted⟩

def erase (m : OrderedMap κ ν) (k : κ) : OrderedMap κ ν :=
  ⟨m.entries.filter (fun e => less e.1 k || less k e.1), m.sorted.filter _⟩

theorem keys_nodup (m : OrderedMap κ ν) : (m.entries.map Prod.fst).Nodup :=
  List.pairwise_map.mpr (m.sorted.imp ne_of_less)

theorem entries_nodup (m : OrderedMap κ ν) : m.entries.Nodup :=
  m.keys_nodup.of_map _

theorem value_unique (m : OrderedMap κ ν) {k : κ} {v w : ν}
    (hv : (k, v) ∈ m.entries) (hw : (k, w) ∈ m.entries) : v = w := by
  have he := List.inj_on_of_nodup_map m.keys_nodup hv hw rfl
  exact (Prod.mk.inj he).2

theorem find?_eq_some_iff (m : OrderedMap κ ν) (k : κ) (v : ν) :
    m.find? k = some v ↔ (k, v) ∈ m.entries := by
  constructor
  · intro h
    obtain ⟨e, he, rfl⟩ := Option.map_eq_some_iff.mp h
    have hk : e.1 = k := by
      have hp := List.find?_some he
      by_contra hne
      simp [(less_or_less_iff_ne e.1 k).mpr hne] at hp
    subst hk
    exact List.mem_of_find?_eq_some he
  · intro h
    have hsome : (m.entries.find? fun e => !(less e.1 k || less k e.1)).isSome := by
      refine List.find?_isSome.mpr ⟨(k, v), h, ?_⟩
      simp [less_irrefl]
    obtain ⟨e, he⟩ := Option.isSome_iff_exists.mp hsome
    have hp := List.find?_some he
    have hk : e.1 = k := by
      by_contra hne
      simp [(less_or_less_iff_ne e.1 k).mpr hne] at hp
    have hmem : (k, e.2) ∈ m.entries := by
      subst hk
      exact List.mem_of_find?_eq_some he
    rw [find?, he, Option.map_some, m.value_unique h hmem]

theorem find?_eq_none_iff (m : OrderedMap κ ν) (k : κ) :
    m.find? k = none ↔ ∀ v, (k, v) ∉ m.entries := by
  constructor
  · intro h v hv
    rw [← find?_eq_some_iff, h] at hv
    simp at hv
  · intro h
    cases hf : m.find? k with
    | none => rfl
    | some v => exact absurd ((m.find?_eq_some_iff k v).mp hf) (h v)

theorem ext_find? {m m' : OrderedMap κ ν} (h : ∀ k, m.find? k = m'.find? k) : m = m' := by
  have hmem : ∀ e : κ × ν, e ∈ m.entries ↔ e ∈ m'.entries := by
    rintro ⟨k, v⟩
    rw [← find?_eq_some_iff, ← find?_eq_some_iff, h]
  have hperm : m.entries.Perm m'.entries :=
    (List.perm_ext_iff_of_nodup m.entries_nodup m'.entries_nodup).mpr hmem
  have he : m.entries = m'.entries := by
    refine hperm.eq_of_pairwise ?_ m.sorted m'.sorted
    intro a b _ _ hab hba
    simp [less_asymm hab] at hba
  cases m
  cases m'
  simpa using he

@[simp] theorem find?_empty (k : κ) : (empty : OrderedMap κ ν).find? k = none := rfl

@[simp] theorem entries_empty : (empty : OrderedMap κ ν).entries = [] := rfl

theorem mem_insert (m : OrderedMap κ ν) (k : κ) (v : ν) (e : κ × ν) :
    e ∈ (m.insert k v).entries ↔ e = (k, v) ∨ (e ∈ m.entries ∧ e.1 ≠ k) := by
  simp only [insert, List.mem_append, List.mem_cons, List.mem_filter]
  have hne := less_or_less_iff_ne e.1 k
  simp only [Bool.or_eq_true] at hne
  constructor
  · rintro (⟨h, hl⟩ | rfl | ⟨h, hl⟩)
    · exact Or.inr ⟨h, hne.mp (Or.inl hl)⟩
    · exact Or.inl rfl
    · exact Or.inr ⟨h, hne.mp (Or.inr hl)⟩
  · rintro (rfl | ⟨h, hk⟩)
    · exact Or.inr (Or.inl rfl)
    · rcases hne.mpr hk with hl | hl
      · exact Or.inl ⟨h, hl⟩
      · exact Or.inr (Or.inr ⟨h, hl⟩)

theorem entries_insert_last (m : OrderedMap κ ν) {k : κ} (v : ν)
    (h : ∀ e ∈ m.entries, less e.1 k = true) : (m.insert k v).entries = m.entries ++ [(k, v)] := by
  have hbelow : m.entries.filter (fun e => less e.1 k) = m.entries :=
    List.filter_eq_self.mpr h
  have habove : m.entries.filter (fun e => less k e.1) = [] := by
    rw [List.filter_eq_nil_iff]
    intro e he
    simp [less_asymm (h e he)]
  simp only [insert, hbelow, habove]

theorem mem_erase (m : OrderedMap κ ν) (k : κ) (e : κ × ν) :
    e ∈ (m.erase k).entries ↔ e ∈ m.entries ∧ e.1 ≠ k := by
  rw [erase, List.mem_filter, less_or_less_iff_ne]

@[simp] theorem find?_insert_self (m : OrderedMap κ ν) (k : κ) (v : ν) :
    (m.insert k v).find? k = some v :=
  (find?_eq_some_iff _ _ _).mpr ((mem_insert _ _ _ _).mpr (Or.inl rfl))

theorem find?_insert_of_ne (m : OrderedMap κ ν) {k k' : κ} (v : ν) (h : k' ≠ k) :
    (m.insert k v).find? k' = m.find? k' := by
  apply Option.ext
  intro w
  rw [find?_eq_some_iff, find?_eq_some_iff, mem_insert]
  constructor
  · rintro (he | ⟨hm, _⟩)
    · exact absurd (Prod.mk.inj he).1 h
    · exact hm
  · intro hm
    exact Or.inr ⟨hm, h⟩

@[simp] theorem find?_erase_self (m : OrderedMap κ ν) (k : κ) : (m.erase k).find? k = none := by
  rw [find?_eq_none_iff]
  intro v hv
  exact ((mem_erase _ _ _).mp hv).2 rfl

theorem find?_erase_of_ne (m : OrderedMap κ ν) {k k' : κ} (h : k' ≠ k) :
    (m.erase k).find? k' = m.find? k' := by
  apply Option.ext
  intro w
  rw [find?_eq_some_iff, find?_eq_some_iff, mem_erase]
  exact ⟨fun hm => hm.1, fun hm => ⟨hm, h⟩⟩

theorem insert_perm (m : OrderedMap κ ν) {k : κ} (v : ν) (h : m.find? k = none) :
    (m.insert k v).entries.Perm ((k, v) :: m.entries) := by
  have hnot : (k, v) ∉ m.entries := (m.find?_eq_none_iff k).mp h v
  refine (List.perm_ext_iff_of_nodup (m.insert k v).entries_nodup
    (List.nodup_cons.mpr ⟨hnot, m.entries_nodup⟩)).mpr ?_
  rintro ⟨k', v'⟩
  rw [mem_insert, List.mem_cons]
  constructor
  · rintro (he | ⟨hm, _⟩)
    · exact Or.inl he
    · exact Or.inr hm
  · rintro (he | hm)
    · exact Or.inl he
    · refine Or.inr ⟨hm, ?_⟩
      rintro rfl
      exact (m.find?_eq_none_iff k').mp h v' hm

theorem erase_perm (m : OrderedMap κ ν) {k : κ} {v : ν} (h : m.find? k = some v) :
    m.entries.Perm ((k, v) :: (m.erase k).entries) := by
  have hin : (k, v) ∈ m.entries := (m.find?_eq_some_iff k v).mp h
  have hnot : (k, v) ∉ (m.erase k).entries := fun hm => ((mem_erase _ _ _).mp hm).2 rfl
  refine (List.perm_ext_iff_of_nodup m.entries_nodup
    (List.nodup_cons.mpr ⟨hnot, (m.erase k).entries_nodup⟩)).mpr ?_
  rintro ⟨k', v'⟩
  rw [List.mem_cons, mem_erase]
  constructor
  · intro hm
    by_cases hk : k' = k
    · subst hk
      exact Or.inl (Prod.ext rfl (m.value_unique hm hin))
    · exact Or.inr ⟨hm, hk⟩
  · rintro (he | ⟨hm, _⟩)
    · rw [he]
      exact hin
    · exact hm

theorem erase_of_find?_none (m : OrderedMap κ ν) {k : κ} (h : m.find? k = none) :
    m.erase k = m := by
  apply ext_find?
  intro k'
  by_cases hk : k' = k
  · subst hk
    rw [find?_erase_self, h]
  · exact m.find?_erase_of_ne hk

/-- Adds an entry unless the key is already there. -/
def emplace (m : OrderedMap κ ν) (k : κ) (v : ν) : OrderedMap κ ν :=
  if (m.find? k).isSome then m else m.insert k v

def emplaceAll (m : OrderedMap κ ν) (ks : List κ) (v : ν) : OrderedMap κ ν :=
  ks.foldl (fun m k => m.emplace k v) m

def eraseAll (m : OrderedMap κ ν) (ks : List κ) : OrderedMap κ ν := ks.foldl erase m

theorem emplace_of_none {m : OrderedMap κ ν} {k : κ} (v : ν) (h : m.find? k = none) :
    m.emplace k v = m.insert k v := by
  simp [emplace, h]

theorem find?_emplace [DecidableEq κ] (m : OrderedMap κ ν) (k k' : κ) (v : ν) :
    (m.emplace k v).find? k' = (m.find? k').or (if k' = k then some v else none) := by
  unfold emplace
  cases h : m.find? k with
  | some w =>
    by_cases hk : k' = k
    · subst hk
      simp [h]
    · simp [hk]
  | none =>
    by_cases hk : k' = k
    · subst hk
      simp [h]
    · simp [hk, m.find?_insert_of_ne v hk]

theorem find?_emplaceAll [DecidableEq κ] (m : OrderedMap κ ν) (ks : List κ) (v : ν) (k : κ) :
    (m.emplaceAll ks v).find? k = (m.find? k).or (if k ∈ ks then some v else none) := by
  induction ks generalizing m with
  | nil => simp [emplaceAll]
  | cons a ks ih =>
    change ((m.emplace a v).emplaceAll ks v).find? k = _
    rw [ih, find?_emplace]
    by_cases hk : k = a
    · cases h : m.find? k <;> simp [hk]
    · cases h : m.find? k <;> simp [hk]

theorem find?_eraseAll [DecidableEq κ] (m : OrderedMap κ ν) (ks : List κ) (k : κ) :
    (m.eraseAll ks).find? k = if k ∈ ks then none else m.find? k := by
  induction ks generalizing m with
  | nil => simp [eraseAll]
  | cons a ks ih =>
    change ((m.erase a).eraseAll ks).find? k = _
    rw [ih]
    by_cases hk : k = a
    · simp [hk]
    · simp [hk, m.find?_erase_of_ne hk]

end OrderedMap
end Lib
