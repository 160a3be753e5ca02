import Blockchain.Lib.ByteCodec

/-! Scanners of text: decimal numbers in a bounded type, and loops whose every turn uses up
part of the input. -/
namespace Lib

def isDigit (b : UInt8) : Bool := 48 ≤ b && b ≤ 57

/-- A string of decimal digits. -/
def Digits (text : Bytes) : Prop := ∀ b ∈ text, isDigit b = true

instance (text : Bytes) : Decidable (Digits text) :=
  decidable_of_iff (text.all isDigit = true) List.all_eq_true

def decimalValue (text : Bytes) : Nat := text.foldl (fun n b => 10 * n + (b.toNat - 48)) 0

/-- The number of `bits` bits at the start of a text and what follows it. There is none without
a digit, and none if the digits denote more than the type holds. -/
def fromChars (bits : Nat) (text : Bytes) : Option (Nat × Bytes) :=
  let digits := text.takeWhile isDigit
  if digits.isEmpty then none
  else if 2 ^ bits ≤ decimalValue digits then none
  else some (decimalValue digits, text.dropWhile isDigit)

theorem takeWhile_span {p : UInt8 → Bool} {text rest : Bytes} (h : ∀ b ∈ text, p b = true)
    (hstop : ∀ b ∈ rest.head?, p b = false) : (text ++ rest).takeWhile p = text := by
  rw [List.takeWhile_append_of_pos h]
  cases rest with
  | nil => simp
  | cons b rest => simp [hstop b rfl]

theorem dropWhile_span {p : UInt8 → Bool} {text rest : Bytes} (h : ∀ b ∈ text, p b = true)
    (hstop : ∀ b ∈ rest.head?, p b = false) : (text ++ rest).dropWhile p = rest := by
  rw [List.dropWhile_append_of_pos h]
  cases rest with
  | nil => rfl
  | cons b rest => simp [hstop b rfl]

theorem fromChars_digits {bits value : Nat} {text : Bytes} (h : Digits text) :
    fromChars bits text = some (value, []) ↔
      text ≠ [] ∧ decimalValue text < 2 ^ bits ∧ value = decimalValue text := by
  have htake : (text ++ []).takeWhile isDigit = text := takeWhile_span h (by simp)
  have hdrop : (text ++ []).dropWhile isDigit = [] := dropWhile_span h (by simp)
  rw [List.append_nil] at htake hdrop
  simp only [fromChars, htake, hdrop, List.isEmpty_iff]
  by_cases hne : text = []
  · simp [hne]
  · rw [if_neg hne]
    by_cases hbig : 2 ^ bits ≤ decimalValue text
    · rw [if_pos hbig]
      exact ⟨nofun, fun hsmall => absurd hsmall.2.1 (Nat.not_lt.mpr hbig)⟩
    · rw [if_neg hbig, Option.some.injEq, Prod.mk.injEq]
      exact ⟨fun heq => ⟨hne, Nat.lt_of_not_le hbig, heq.1.symm⟩, fun hok => ⟨hok.2.2.symm, rfl⟩⟩

theorem fromChars_lt {bits value : Nat} {text rest : Bytes}
    (h : fromChars bits text = some (value, rest)) : value < 2 ^ bits := by
  simp only [fromChars] at h
  split_ifs at h with hempty hbig
  cases h
  exact Nat.lt_of_not_le hbig

def decimalText (n : Nat) : Bytes :=
  if n < 10 then [UInt8.ofNat (48 + n)] else decimalText (n / 10) ++ [UInt8.ofNat (48 + n % 10)]
termination_by n
decreasing_by omega

theorem decimalText_ne_nil (n : Nat) : decimalText n ≠ [] := by
  rw [decimalText]
  split
  · exact List.cons_ne_nil _ _
  · exact List.append_ne_nil_of_right_ne_nil _ (List.cons_ne_nil _ _)

theorem digit_toNat {d : Nat} (h : d < 10) : (UInt8.ofNat (48 + d)).toNat = 48 + d :=
  UInt8.toNat_ofNat_of_lt' (by change 48 + d < 256; omega)

theorem isDigit_digit {d : Nat} (h : d < 10) : isDigit (UInt8.ofNat (48 + d)) = true := by
  have hd := digit_toNat h
  simp only [isDigit, Bool.and_eq_true, decide_eq_true_eq, UInt8.le_iff_toNat_le, hd]
  exact ⟨Nat.le_add_right 48 d, by change 48 + d ≤ 57; omega⟩

theorem decimalText_digits (n : Nat) : Digits (decimalText n) := by
  induction n using Nat.strong_induction_on with
  | _ n ih =>
    rw [decimalText]
    split
    · intro b hb
      rw [List.mem_singleton.mp hb]
      exact isDigit_digit (by omega)
    · intro b hb
      obtain hb | hb := List.mem_append.mp hb
      · exact ih (n / 10) (by omega) b hb
      · rw [List.mem_singleton.mp hb]
        exact isDigit_digit (by omega)

theorem decimalValue_decimalText (n : Nat) : decimalValue (decimalText n) = n := by
  induction n using Nat.strong_induction_on with
  | _ n ih =>
    have happend : ∀ (text : Bytes) (b : UInt8),
        decimalValue (text ++ [b]) = 10 * decimalValue text + (b.toNat - 48) := by
      intro text b
      rw [decimalValue, List.foldl_append]
      rfl
    rw [decimalText]
    split
    · have hone := happend [] (UInt8.ofNat (48 + n))
      rw [List.nil_append, digit_toNat (by omega)] at hone
      rw [hone, decimalValue, List.foldl_nil]
      omega
    · rw [happend, ih (n / 10) (by omega), digit_toNat (by omega)]
      omega

section
variable {ε α β σ : Type}

/-- What is left is no longer than what was there. -/
def NonGrowing (p : Decoder ε α) : Prop :=
  ∀ input a rest, p.run input = .ok (a, rest) → rest.length ≤ input.length

/-- What is left is shorter than what was there. -/
def Progresses (p : Decoder ε α) : Prop :=
  ∀ input a rest, p.run input = .ok (a, rest) → rest.length < input.length

theorem Progresses.nonGrowing {p : Decoder ε α} (h : Progresses p) : NonGrowing p :=
  fun input a rest hrun => Nat.le_of_lt (h input a rest hrun)

theorem nonGrowing_pure (a : α) : NonGrowing (pure a : Decoder ε α) := by
  intro input b rest h
  cases h
  exact Nat.le_refl _

theorem nonGrowing_throw (e : ε) : NonGrowing (throw e : Decoder ε α) := by
  intro input a rest h
  cases h

theorem nonGrowing_get : NonGrowing (get : Decoder ε Bytes) := by
  intro input a rest h
  cases h
  exact Nat.le_refl _

theorem nonGrowing_modify {f : Bytes → Bytes} (h : ∀ input, (f input).length ≤ input.length) :
    NonGrowing (modify f : Decoder ε Unit) := by
  intro input a rest hrun
  cases hrun
  exact h input

theorem nonGrowing_lift (x : Except ε α) : NonGrowing (StateT.lift x : Decoder ε α) := by
  intro input a rest h
  cases x with
  | error e => cases h
  | ok b =>
    cases h
    exact Nat.le_refl _

theorem NonGrowing.bind {p : Decoder ε α} {f : α → Decoder ε β} (hp : NonGrowing p)
    (hf : ∀ a, NonGrowing (f a)) : NonGrowing (p >>= f) := by
  intro input b rest h
  obtain ⟨a, middle, hrun, hrest⟩ := run_bind_eq_ok h
  exact Nat.le_trans (hf a middle b rest hrest) (hp input a middle hrun)

theorem Progresses.bind {p : Decoder ε α} {f : α → Decoder ε β} (hp : Progresses p)
    (hf : ∀ a, NonGrowing (f a)) : Progresses (p >>= f) := by
  intro input b rest h
  obtain ⟨a, middle, hrun, hrest⟩ := run_bind_eq_ok h
  exact Nat.lt_of_le_of_lt (hf a middle b rest hrest) (hp input a middle hrun)

theorem nonGrowing_ite {c : Prop} [Decidable c] {p q : Decoder ε α} (hp : NonGrowing p)
    (hq : NonGrowing q) : NonGrowing (if c then p else q) := by
  by_cases hc : c
  · rwa [if_pos hc]
  · rwa [if_neg hc]

/-- A turn leaves with a result or goes round with a new state. -/
def loopFrom (turn : σ → Decoder ε (σ ⊕ β)) (h : ∀ s, Progresses (turn s)) (s : σ)
    (input : Bytes) : Except ε (β × Bytes) :=
  match _hrun : (turn s).run input with
  | .error e => .error e
  | .ok (.inr b, rest) => .ok (b, rest)
  | .ok (.inl s', rest) => loopFrom turn h s' rest
termination_by input.length
decreasing_by exact h s input _ rest _hrun

def loop (turn : σ → Decoder ε (σ ⊕ β)) (h : ∀ s, Progresses (turn s)) (s : σ) : Decoder ε β :=
  loopFrom turn h s

variable {turn : σ → Decoder ε (σ ⊕ β)} {h : ∀ s, Progresses (turn s)} {s s' : σ}
  {input rest : Bytes}

theorem loop_again (hrun : (turn s).run input = .ok (.inl s', rest)) :
    (loop turn h s).run input = (loop turn h s').run rest := by
  rw [loop, StateT.run, loopFrom]
  split <;> simp_all [loop, StateT.run]

theorem loop_done {b : β} (hrun : (turn s).run input = .ok (.inr b, rest)) :
    (loop turn h s).run input = .ok (b, rest) := by
  rw [loop, StateT.run, loopFrom]
  split <;> simp_all

theorem loop_error {e : ε} (hrun : (turn s).run input = .error e) :
    (loop turn h s).run input = .error e := by
  rw [loop, StateT.run, loopFrom]
  split <;> simp_all

theorem loop_nonGrowing (h : ∀ s, Progresses (turn s)) (s : σ) : NonGrowing (loop turn h s) := by
  intro input b rest hrun
  induction hn : input.length using Nat.strong_induction_on generalizing input s with
  | _ n ih =>
    cases hturn : (turn s).run input with
    | error e => rw [loop_error hturn] at hrun; cases hrun
    | ok out =>
      obtain ⟨next, middle⟩ := out
      have hlt := h s input next middle hturn
      cases next with
      | inr b' =>
        rw [loop_done hturn] at hrun
        cases hrun
        omega
      | inl s' =>
        rw [loop_again hturn] at hrun
        have hle := ih middle.length (hn ▸ hlt) s' middle hrun rfl
        omega

end
end Lib
