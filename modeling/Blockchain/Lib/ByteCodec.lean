import Mathlib.Tactic.Ring
import Mathlib.Tactic.Linarith

/-! Byte strings, little-endian words and decoders that consume a leading part of
their input. `Decodes` is the round trip in a context: whatever follows the
encoding is left unread. `Canonical` is the converse: what a decoder consumed is the
encoding of the value it returned. -/
namespace Lib

section Except
universe u v
variable {ε : Type u} {α β : Type v}

theorem bind_eq_ok {x : Except ε α} {f : α → Except ε β} {b : β} :
    (x >>= f) = .ok b ↔ ∃ a, x = .ok a ∧ f a = .ok b := by
  cases x with
  | error e => simp [bind, Except.bind]
  | ok a => simp [bind, Except.bind]

theorem seq_eq_ok {x : Except ε PUnit} {f : PUnit → Except ε β} {b : β} :
    (x >>= f) = .ok b ↔ x = .ok ⟨⟩ ∧ f ⟨⟩ = .ok b := by
  rw [bind_eq_ok]
  constructor
  · intro h
    obtain ⟨⟨⟩, h⟩ := h
    exact h
  · intro h
    exact ⟨⟨⟩, h⟩

@[simp] theorem pure_eq_ok (a : α) : (pure a : Except ε α) = .ok a := rfl

@[simp] theorem throw_eq_error (e : ε) : (throw e : Except ε α) = .error e := rfl

@[simp] theorem ok_bind (a : α) (f : α → Except ε β) : ((.ok a : Except ε α) >>= f) = f a := rfl

@[simp] theorem error_bind (e : ε) (f : α → Except ε β) :
    ((.error e : Except ε α) >>= f) = .error e := rfl

end Except

abbrev Bytes := List UInt8

/-- The low `width` bytes of a number, least significant first. -/
def leBytes : Nat → Nat → Bytes
  | 0, _ => []
  | width + 1, value => UInt8.ofNat (value % 256) :: leBytes width (value / 256)

def leValue : Bytes → Nat
  | [] => 0
  | b :: bs => b.toNat + 256 * leValue bs

@[simp] theorem leBytes_length (width value : Nat) : (leBytes width value).length = width := by
  induction width generalizing value with
  | zero => rfl
  | succ width ih => simp [leBytes, ih]

theorem leValue_leBytes (width value : Nat) (h : value < 256 ^ width) :
    leValue (leBytes width value) = value := by
  induction width generalizing value with
  | zero =>
    have h0 : value = 0 := by omega
    simp [leBytes, leValue, h0]
  | succ width ih =>
    have hdiv : value / 256 < 256 ^ width := by
      rw [pow_succ] at h
      omega
    have hlow : (UInt8.ofNat (value % 256)).toNat = value % 256 := by
      simp [UInt8.toNat_ofNat']
    rw [leBytes, leValue, ih _ hdiv, hlow]
    omega

theorem leValue_lt (bytes : Bytes) : leValue bytes < 256 ^ bytes.length := by
  induction bytes with
  | nil => simp [leValue]
  | cons b bytes ih =>
    have hb := b.toNat_lt
    rw [leValue, List.length_cons, pow_succ]
    omega

theorem leValue_append (xs ys : Bytes) :
    leValue (xs ++ ys) = leValue xs + 256 ^ xs.length * leValue ys := by
  induction xs with
  | nil => simp [leValue]
  | cons x xs ih =>
    rw [List.cons_append, leValue, leValue, ih, List.length_cons, pow_succ]
    ring

theorem leBytes_leValue (bytes : Bytes) : leBytes bytes.length (leValue bytes) = bytes := by
  induction bytes with
  | nil => rfl
  | cons b bytes ih =>
    have hb := b.toNat_lt
    have hlow : (b.toNat + 256 * leValue bytes) % 256 = b.toNat := by omega
    have hhigh : (b.toNat + 256 * leValue bytes) / 256 = leValue bytes := by omega
    rw [List.length_cons, leBytes, leValue, hlow, hhigh, ih]
    simp

section Decoder
variable {ε α β : Type}

abbrev Decoder (ε α : Type) := StateT Bytes (Except ε) α

theorem run_bind_of_ok {x : Decoder ε α} {f : α → Decoder ε β} {s s' : Bytes} {a : α}
    (h : x.run s = .ok (a, s')) : (x >>= f).run s = (f a).run s' := by
  rw [StateT.run_bind, h]
  rfl

theorem run_bind_eq_ok {x : Decoder ε α} {f : α → Decoder ε β} {s t : Bytes} {b : β}
    (h : (x >>= f).run s = .ok (b, t)) :
    ∃ a s', x.run s = .ok (a, s') ∧ (f a).run s' = .ok (b, t) := by
  rw [StateT.run_bind] at h
  obtain ⟨⟨a, s'⟩, hx, hf⟩ := bind_eq_ok.mp h
  exact ⟨a, s', hx, hf⟩

theorem run_pure_eq_ok {a b : α} {s t : Bytes}
    (h : (pure a : Decoder ε α).run s = .ok (b, t)) : b = a ∧ t = s := by
  rw [StateT.run_pure, pure_eq_ok, Except.ok.injEq, Prod.mk.injEq] at h
  exact ⟨h.1.symm, h.2.symm⟩

/-- On the encoding of a valid value followed by anything, the decoder returns the
value and leaves exactly what followed. -/
def Decodes (dec : Decoder ε α) (enc : α → Bytes) (valid : α → Prop) : Prop :=
  ∀ a rest, valid a → dec.run (enc a ++ rest) = .ok (a, rest)

theorem Decodes.enc_append_inj {dec : Decoder ε α} {enc : α → Bytes} {valid : α → Prop}
    (h : Decodes dec enc valid) {a b : α} {r s : Bytes} (ha : valid a) (hb : valid b)
    (he : enc a ++ r = enc b ++ s) : a = b ∧ r = s := by
  have h1 := h a r ha
  have h2 := h b s hb
  rw [he, h2] at h1
  simpa [eq_comm] using h1

theorem Decodes.enc_injective {dec : Decoder ε α} {enc : α → Bytes} {valid : α → Prop}
    (h : Decodes dec enc valid) {a b : α} (ha : valid a) (hb : valid b) (he : enc a = enc b) :
    a = b :=
  (h.enc_append_inj ha hb (congrArg (· ++ []) he)).1

def repeatDecode (dec : Decoder ε α) : Nat → Decoder ε (List α)
  | 0 => pure []
  | n + 1 => do
    let a ← dec
    let as ← repeatDecode dec n
    return a :: as

theorem Decodes.repeat {dec : Decoder ε α} {enc : α → Bytes} {valid : α → Prop}
    (h : Decodes dec enc valid) (as : List α) (rest : Bytes) (hv : ∀ a ∈ as, valid a) :
    (repeatDecode dec as.length).run (as.flatMap enc ++ rest) = .ok (as, rest) := by
  induction as with
  | nil => rfl
  | cons a as ih =>
    have htail := ih (fun x hx => hv x (List.mem_cons_of_mem a hx))
    have hhead := h a (as.flatMap enc ++ rest) (hv a List.mem_cons_self)
    simp only [List.length_cons, repeatDecode, List.flatMap_cons, List.append_assoc]
    rw [run_bind_of_ok hhead, run_bind_of_ok htail]
    rfl

/-- A successful decoder consumed exactly the encoding of the value it returned, and that
value is valid. -/
def Canonical (dec : Decoder ε α) (enc : α → Bytes) (valid : α → Prop) : Prop :=
  ∀ data a rest, dec.run data = .ok (a, rest) → data = enc a ++ rest ∧ valid a

theorem Canonical.repeat {dec : Decoder ε α} {enc : α → Bytes} {valid : α → Prop}
    (h : Canonical dec enc valid) {n : Nat} {data rest : Bytes} {as : List α}
    (hrun : (repeatDecode dec n).run data = .ok (as, rest)) :
    data = as.flatMap enc ++ rest ∧ as.length = n ∧ ∀ a ∈ as, valid a := by
  induction n generalizing data as with
  | zero =>
    obtain ⟨hnil, hrest⟩ := run_pure_eq_ok hrun
    subst hnil hrest
    simp
  | succ n ih =>
    obtain ⟨a, data', hhead, hrun⟩ := run_bind_eq_ok hrun
    obtain ⟨as', data'', htail, hrun⟩ := run_bind_eq_ok hrun
    obtain ⟨hcons, hrest⟩ := run_pure_eq_ok hrun
    subst hcons hrest
    obtain ⟨hdata, ha⟩ := h data a data' hhead
    obtain ⟨hdata', hlen, has⟩ := ih htail
    refine ⟨?_, by rw [List.length_cons, hlen], List.forall_mem_cons.mpr ⟨ha, has⟩⟩
    rw [hdata, hdata', List.flatMap_cons, List.append_assoc]

theorem Canonical.input_unique {dec : Decoder ε α} {enc : α → Bytes} {valid : α → Prop}
    (h : Canonical dec enc valid) {data data' : Bytes} {a : α}
    (hd : dec.run data = .ok (a, [])) (hd' : dec.run data' = .ok (a, [])) : data = data' :=
  (h data a [] hd).1.trans (h data' a [] hd').1.symm

end Decoder
end Lib
