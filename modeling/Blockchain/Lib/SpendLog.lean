import Mathlib.Data.List.Pairwise
import Mathlib.Data.List.Nodup
import Mathlib.Data.List.Induction

/-! Logs of create/spend events over a keyed store. An event first removes the keys it
spends and then adds the values it creates. In a log where every event finds what it
spends and never overwrites a value, the store is a function of the log that can be read
off declaratively, and a key can only come back through a second event of the same owner. -/
namespace Lib
universe u v w

theorem append_eq_append_cons {α : Type u} {xs ys pre post : List α} {a : α}
    (h : xs ++ ys = pre ++ a :: post) :
    (∃ rest, xs = pre ++ a :: rest ∧ post = rest ++ ys) ∨
      ∃ rest, pre = xs ++ rest ∧ ys = rest ++ a :: post := by
  obtain ⟨r, hpre, hys⟩ | ⟨r, hxs, hpost⟩ := List.append_eq_append_iff.mp h
  · exact .inr ⟨r, hpre, hys⟩
  · cases r with
    | nil => exact .inr ⟨[], by simpa using hxs.symm, hpost.symm⟩
    | cons x r =>
      obtain ⟨rfl, htail⟩ := List.cons.inj hpost
      exact .inl ⟨r, hxs, htail⟩

structure SpendEvent (ι : Type w) (κ : Type u) (ν : Type v) where
  ident : ι
  spends : List κ
  creates : κ → Option ν

namespace SpendLog
variable {ι : Type w} {κ : Type u} {ν : Type v} [DecidableEq κ]

abbrev Store (κ : Type u) (ν : Type v) := κ → Option ν

def apply (m : Store κ ν) (e : SpendEvent ι κ ν) : Store κ ν := fun k =>
  (e.creates k).or (if k ∈ e.spends then none else m k)

def store (m : Store κ ν) (log : List (SpendEvent ι κ ν)) : Store κ ν := log.foldl apply m

/-- What an event needs of the store it is applied to. -/
structure Fits (m : Store κ ν) (e : SpendEvent ι κ ν) : Prop where
  present : ∀ k ∈ e.spends, (m k).isSome
  fresh : ∀ k, (e.creates k).isSome → k ∈ e.spends ∨ m k = none

/-- Every event of the log fits the store left by the events before it. -/
def Admissible (m : Store κ ν) : List (SpendEvent ι κ ν) → Prop
  | [] => True
  | e :: log => Fits m e ∧ Admissible (apply m e) log

theorem store_append (m : Store κ ν) (log log' : List (SpendEvent ι κ ν)) :
    store m (log ++ log') = store (store m log) log' :=
  List.foldl_append

theorem admissible_append {m : Store κ ν} {log log' : List (SpendEvent ι κ ν)} :
    Admissible m (log ++ log') ↔ Admissible m log ∧ Admissible (store m log) log' := by
  induction log generalizing m with
  | nil => simp [Admissible, store]
  | cons e log ih => simpa [Admissible, store, and_assoc] using fun _ => ih

theorem store_of_unspent {m : Store κ ν} {log : List (SpendEvent ι κ ν)} {k : κ} {v : ν}
    (ha : Admissible m log) (hm : m k = some v) (hk : ∀ e ∈ log, k ∉ e.spends) :
    store m log k = some v := by
  induction log generalizing m with
  | nil => exact hm
  | cons e log ih =>
    have hnot := hk e List.mem_cons_self
    have hnone : e.creates k = none := by
      cases hc : e.creates k with
      | none => rfl
      | some w =>
        obtain hs | hn := ha.1.fresh k (by simp [hc])
        · exact absurd hs hnot
        · simp [hm] at hn
    refine ih ha.2 ?_ (fun e' he' => hk e' (List.mem_cons_of_mem _ he'))
    simp [apply, hnone, hnot, hm]

/-- The store is exactly the unspent part of the log. -/
theorem store_eq_some_iff {log : List (SpendEvent ι κ ν)} (ha : Admissible (fun _ => none) log)
    (k : κ) (v : ν) :
    store (fun _ => none) log k = some v ↔
      ∃ pre e post, log = pre ++ e :: post ∧ e.creates k = some v ∧
        ∀ e' ∈ post, k ∉ e'.spends := by
  constructor
  · intro h
    induction log using List.reverseRecOn with
    | nil => simp [store] at h
    | append_singleton log e ih =>
      rw [store_append] at h
      change apply _ e k = some v at h
      cases hc : e.creates k with
      | some w =>
        simp only [apply, hc, Option.some_or, Option.some.injEq] at h
        exact ⟨log, e, [], rfl, by rw [hc, h], by simp⟩
      | none =>
        simp only [apply, hc, Option.none_or] at h
        by_cases hs : k ∈ e.spends
        · simp [hs] at h
        · simp only [hs, if_false] at h
          obtain ⟨pre, e₀, post, rfl, hcr, hpost⟩ := ih (admissible_append.mp ha).1 h
          refine ⟨pre, e₀, post ++ [e], by simp, hcr, ?_⟩
          intro e' he'
          obtain he' | he' := List.mem_append.mp he'
          · exact hpost e' he'
          · rw [List.mem_singleton.mp he']
            exact hs
  · intro h
    obtain ⟨pre, e, post, rfl, hcr, hpost⟩ := h
    obtain ⟨_, hadm⟩ := admissible_append.mp ha
    have hafter : apply (store (fun _ => none) pre) e k = some v := by simp [apply, hcr]
    rw [store_append]
    change store (apply _ e) post k = some v
    exact store_of_unspent hadm.2 hafter hpost

theorem store_source {m : Store κ ν} {log : List (SpendEvent ι κ ν)} {k : κ} {v : ν}
    (ha : Admissible m log) (h : store m log k = some v) :
    (∃ e ∈ log, e.creates k = some v) ∨
      (m k = some v ∧ ∀ e ∈ log, k ∉ e.spends ∧ e.creates k = none) := by
  induction log generalizing m with
  | nil => exact .inr ⟨h, by simp⟩
  | cons e log ih =>
    obtain ⟨e', he', hc⟩ | ⟨hkept, hrest⟩ := ih ha.2 h
    · exact .inl ⟨e', List.mem_cons_of_mem _ he', hc⟩
    · cases hc : e.creates k with
      | some w =>
        rw [apply, hc, Option.some_or] at hkept
        exact .inl ⟨e, List.mem_cons_self, hc.trans hkept⟩
      | none =>
        rw [apply, hc, Option.none_or] at hkept
        by_cases hs : k ∈ e.spends
        · simp [hs] at hkept
        · rw [if_neg hs] at hkept
          exact .inr ⟨hkept, List.forall_mem_cons.mpr ⟨⟨hs, hc⟩, hrest⟩⟩

theorem store_count {m : Store κ ν} {log : List (SpendEvent ι κ ν)}
    (ha : Admissible m log) (k : κ) :
    (store m log k).isSome.toNat + log.countP (fun e => decide (k ∈ e.spends)) =
      (m k).isSome.toNat + log.countP (fun e => (e.creates k).isSome) := by
  induction log generalizing m with
  | nil => rfl
  | cons e log ih =>
    have hrest := ih ha.2
    have hone : (apply m e k).isSome.toNat + (decide (k ∈ e.spends)).toNat =
        (m k).isSome.toNat + (e.creates k).isSome.toNat := by
      have hpresent := ha.1.present k
      have hfresh := ha.1.fresh k
      rw [apply]
      cases hc : e.creates k with
      | some w =>
        by_cases hs : k ∈ e.spends
        · simp [hs, hpresent hs]
        · have hnone : m k = none := (hfresh (by simp [hc])).resolve_left hs
          simp [hs, hnone]
      | none =>
        by_cases hs : k ∈ e.spends
        · simp [hs, hpresent hs]
        · simp [hs]
    have hite : ∀ b : Bool, (if b = true then 1 else 0) = b.toNat := by decide
    rw [List.countP_cons, List.countP_cons, hite, hite]
    change (store (apply m e) log k).isSome.toNat + _ = _
    omega

section Owners
variable (owner : κ → ι)

/-- Events create keys of their own identity only. -/
def Owned (log : List (SpendEvent ι κ ν)) : Prop :=
  ∀ e ∈ log, ∀ k, (e.creates k).isSome → owner k = e.ident

variable {owner}

omit [DecidableEq κ] in
theorem Owned.creator_unique {log : List (SpendEvent ι κ ν)} (ho : Owned owner log)
    (hd : (log.map SpendEvent.ident).Nodup) {a b : SpendEvent ι κ ν} (ha : a ∈ log) (hb : b ∈ log)
    {k : κ} (hka : (a.creates k).isSome) (hkb : (b.creates k).isSome) : a = b :=
  List.inj_on_of_nodup_map hd ha hb ((ho a ha k hka).symm.trans (ho b hb k hkb))

/-- The order of events with different identities does not matter, as long as both orders
are possible. -/
theorem store_perm {m : Store κ ν} {log log' : List (SpendEvent ι κ ν)} (hperm : log.Perm log')
    (ha : Admissible m log) (ha' : Admissible m log') (ho : Owned owner log)
    (hd : (log.map SpendEvent.ident).Nodup) : store m log = store m log' := by
  funext k
  have hcount : (store m log k).isSome.toNat = (store m log' k).isSome.toNat := by
    have h := store_count ha k
    have h' := store_count ha' k
    rw [← hperm.countP_eq, ← hperm.countP_eq] at h'
    omega
  cases hv : store m log k with
  | none =>
    cases hv' : store m log' k with
    | none => rfl
    | some v' => simp [hv, hv'] at hcount
  | some v =>
    cases hv' : store m log' k with
    | none => simp [hv, hv'] at hcount
    | some v' =>
      obtain ⟨e, he, hc⟩ | ⟨hkept, hnone⟩ := store_source ha hv
      · obtain ⟨e', he', hc'⟩ | ⟨_, hnone'⟩ := store_source ha' hv'
        · have hk : (e.creates k).isSome := by simp [hc]
          have hk' : (e'.creates k).isSome := by simp [hc']
          rw [ho.creator_unique hd he (hperm.mem_iff.mpr he') hk hk'] at hc
          exact hc.symm.trans hc'
        · rw [(hnone' e (hperm.mem_iff.mp he)).2] at hc
          exact absurd hc (by simp)
      · obtain ⟨e', he', hc'⟩ | ⟨hkept', _⟩ := store_source ha' hv'
        · rw [(hnone e' (hperm.mem_iff.mpr he')).2] at hc'
          exact absurd hc' (by simp)
        · exact hkept.symm.trans hkept'

theorem not_present_again {pre post : List (SpendEvent ι κ ν)} {e : SpendEvent ι κ ν} {k : κ}
    (ha : Admissible (fun _ => none) (pre ++ e :: post))
    (ho : Owned owner (pre ++ e :: post))
    (hd : ((pre ++ e :: post).map SpendEvent.ident).Nodup) (hk : k ∈ e.spends) :
    store (fun _ => none) (pre ++ e :: post) k = none := by
  by_contra hlive
  obtain ⟨v, hv⟩ := Option.ne_none_iff_exists'.mp hlive
  obtain ⟨hpre, hrest⟩ := admissible_append.mp ha
  -- the creator that made `k` available to `e`
  obtain ⟨w, hw⟩ := Option.isSome_iff_exists.mp (hrest.1.present k hk)
  obtain ⟨p₁, c₁, q₁, rfl, hc₁, _⟩ := (store_eq_some_iff hpre k w).mp hw
  -- the creator of the value that is there at the end comes no earlier than `e`
  obtain ⟨p₂, c₂, q₂, hsplit, hc₂, hq₂⟩ := (store_eq_some_iff ha k v).mp hv
  have hlate : c₂ ∈ e :: post := by
    obtain ⟨r, _, hr⟩ | ⟨r, _, hr⟩ := append_eq_append_cons hsplit
    · exact absurd hk (hq₂ e (by simp [hr]))
    · simp [hr]
  have hid₁ := ho c₁ (by simp) k (by simp [hc₁])
  have hid₂ := ho c₂ (List.mem_append_right _ hlate) k (by simp [hc₂])
  rw [List.map_append] at hd
  have hdisj := (List.nodup_append.mp hd).2.2
  exact hdisj c₁.ident (List.mem_map_of_mem (by simp)) c₂.ident (List.mem_map_of_mem hlate)
    (hid₁.symm.trans hid₂)

theorem spends_disjoint {log : List (SpendEvent ι κ ν)} (ha : Admissible (fun _ => none) log)
    (ho : Owned owner log) (hd : (log.map SpendEvent.ident).Nodup) :
    log.Pairwise (fun a b => ∀ k ∈ a.spends, k ∉ b.spends) := by
  induction log using List.reverseRecOn with
  | nil => exact List.Pairwise.nil
  | append_singleton log e ih =>
    obtain ⟨hpre, hlast⟩ := admissible_append.mp ha
    have ho' : Owned owner log := fun a ha => ho a (List.mem_append_left _ ha)
    have hd' : (log.map SpendEvent.ident).Nodup := by
      rw [List.map_append] at hd
      exact (List.nodup_append.mp hd).1
    refine List.pairwise_append.mpr ⟨ih hpre ho' hd', List.pairwise_singleton _ _, ?_⟩
    intro a hmem b hb k hk hkb
    rw [List.mem_singleton.mp hb] at hkb
    obtain ⟨pre, post, rfl⟩ := List.append_of_mem hmem
    have hnone := not_present_again hpre ho' hd' hk
    have hsome := hlast.1.present k hkb
    simp [hnone] at hsome

/-- Identities repeat only if the identities of events that spend nothing do: an event
with inputs cannot happen twice, since its inputs would have to come back first. -/
theorem ident_nodup {log : List (SpendEvent ι κ ν)} (ha : Admissible (fun _ => none) log)
    (ho : Owned owner log)
    (hinj : ∀ a ∈ log, ∀ b ∈ log, a.ident = b.ident → a.spends = b.spends)
    (hroots : ((log.filter fun e => e.spends.isEmpty).map SpendEvent.ident).Nodup) :
    (log.map SpendEvent.ident).Nodup := by
  induction log using List.reverseRecOn with
  | nil => exact List.nodup_nil
  | append_singleton log e ih =>
    obtain ⟨hpre, hlast⟩ := admissible_append.mp ha
    have ho' : Owned owner log := fun a ha => ho a (List.mem_append_left _ ha)
    rw [List.filter_append, List.map_append] at hroots
    obtain ⟨hroots', _, hnew⟩ := List.nodup_append.mp hroots
    have hd := ih hpre ho' (fun a ha b hb => hinj a (by simp [ha]) b (by simp [hb])) hroots'
    rw [List.map_append]
    refine List.nodup_append.mpr ⟨hd, List.nodup_singleton _, ?_⟩
    intro i hi j hj hij
    obtain ⟨a, hmem, rfl⟩ := List.mem_map.mp hi
    have hje : j = e.ident := by simpa using hj
    have hid : a.ident = e.ident := hij.trans hje
    have hspends := hinj a (by simp [hmem]) e (by simp) hid
    cases hs : e.spends with
    | nil =>
      refine hnew a.ident ?_ e.ident ?_ hid
      · exact List.mem_map_of_mem (List.mem_filter.mpr ⟨hmem, by simp [hspends, hs]⟩)
      · simp [hs]
    | cons k ks =>
      have hk : k ∈ e.spends := by simp [hs]
      obtain ⟨pre, post, rfl⟩ := List.append_of_mem hmem
      have hnone := not_present_again hpre ho' hd (hspends ▸ hk)
      have hsome := hlast.1.present k hk
      simp [hnone] at hsome

end Owners
end SpendLog
end Lib
