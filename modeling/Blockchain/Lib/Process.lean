import Mathlib.Logic.Basic

/-! Programs with effects. A process is a tree of operations and their answers; what it
`Returns` is what it can end with when the environment answers every operation as it
likes. An action is a process over a state that survives failures, and `Ensures` is its
weakest precondition: a statement about every outcome. -/
namespace Lib

inductive Process (Op : Type) (Ans : Op → Type) (α : Type) : Type where
  | ret (a : α)
  | call (op : Op) (k : Ans op → Process Op Ans α)

namespace Process
variable {Op : Type} {Ans : Op → Type} {α β γ : Type}

def bind : Process Op Ans α → (α → Process Op Ans β) → Process Op Ans β
  | ret a, f => f a
  | call op k, f => call op fun r => (k r).bind f

@[simp] theorem bind_ret_left (a : α) (f : α → Process Op Ans β) : (ret a).bind f = f a := rfl

@[simp] theorem call_bind (op : Op) (k : Ans op → Process Op Ans α) (f : α → Process Op Ans β) :
    (call op k).bind f = call op fun r => (k r).bind f := rfl

theorem bind_assoc (p : Process Op Ans α) (f : α → Process Op Ans β) (g : β → Process Op Ans γ) :
    (p.bind f).bind g = p.bind fun a => (f a).bind g := by
  induction p with
  | ret a => rfl
  | call op k ih => exact congrArg (call op) (funext ih)

/-- A value the process can return, for some answers to its operations. -/
inductive Returns : Process Op Ans α → α → Prop where
  | ret (a : α) : Returns (ret a) a
  | call {op : Op} {k : Ans op → Process Op Ans α} {r : Ans op} {a : α} (h : Returns (k r) a) :
      Returns (call op k) a

@[simp] theorem returns_ret {a b : α} : Returns (ret a : Process Op Ans α) b ↔ b = a := by
  constructor
  · intro h
    cases h
    rfl
  · intro h
    rw [h]
    exact .ret a

@[simp] theorem returns_call {op : Op} {k : Ans op → Process Op Ans α} {a : α} :
    Returns (call op k) a ↔ ∃ r, Returns (k r) a := by
  constructor
  · intro h
    cases h with
    | call h => exact ⟨_, h⟩
  · intro h
    obtain ⟨r, h⟩ := h
    exact .call h

@[simp] theorem returns_bind {p : Process Op Ans α} {f : α → Process Op Ans β} {b : β} :
    Returns (p.bind f) b ↔ ∃ a, Returns p a ∧ Returns (f a) b := by
  induction p with
  | ret a => simp
  | call op k ih =>
    simp only [call_bind, returns_call, ih]
    constructor
    · intro h
      obtain ⟨r, a, ha, hb⟩ := h
      exact ⟨a, ⟨r, ha⟩, hb⟩
    · intro h
      obtain ⟨a, ⟨r, ha⟩, hb⟩ := h
      exact ⟨r, a, ha, hb⟩

end Process

/-- A program over a state `σ` that may fail with `ε`; the state it has reached survives
the failure. -/
def Action (Op : Type) (Ans : Op → Type) (ε σ α : Type) : Type :=
  σ → Process Op Ans (Except ε α × σ)

namespace Action
variable {Op : Type} {Ans : Op → Type} {ε σ α β γ : Type}

def bind (m : Action Op Ans ε σ α) (f : α → Action Op Ans ε σ β) : Action Op Ans ε σ β :=
  fun s => (m s).bind fun out =>
    match out.1 with
    | .ok a => f a out.2
    | .error e => .ret (.error e, out.2)

instance : Monad (Action Op Ans ε σ) where
  pure a := fun s => .ret (.ok a, s)
  bind := bind

def fail (e : ε) : Action Op Ans ε σ α := fun s => .ret (.error e, s)

def ofExcept (x : Except ε α) : Action Op Ans ε σ α := fun s => .ret (x, s)

def state : Action Op Ans ε σ σ := fun s => .ret (.ok s, s)

def update (f : σ → σ) : Action Op Ans ε σ Unit := fun s => .ret (.ok (), f s)

def perform (op : Op) : Action Op Ans ε σ (Ans op) := fun s => .call op fun r => .ret (.ok r, s)

/-- Run an action and look at its result instead of failing with it. -/
def attempt (m : Action Op Ans ε σ α) : Action Op Ans ε σ (Except ε α) :=
  fun s => (m s).bind fun out => .ret (.ok out.1, out.2)

section Run
variable (s : σ)

@[simp] theorem pure_run (a : α) : (pure a : Action Op Ans ε σ α) s = .ret (.ok a, s) := rfl

theorem bind_run (m : Action Op Ans ε σ α) (f : α → Action Op Ans ε σ β) :
    (m >>= f) s = (m s).bind fun out =>
      match out.1 with
      | .ok a => f a out.2
      | .error e => .ret (.error e, out.2) := rfl

@[simp] theorem fail_run (e : ε) : (fail e : Action Op Ans ε σ α) s = .ret (.error e, s) := rfl

@[simp] theorem ofExcept_run (x : Except ε α) :
    (ofExcept x : Action Op Ans ε σ α) s = .ret (x, s) := rfl

@[simp] theorem state_run : (state : Action Op Ans ε σ σ) s = .ret (.ok s, s) := rfl

@[simp] theorem update_run (f : σ → σ) :
    (update f : Action Op Ans ε σ Unit) s = .ret (.ok (), f s) := rfl

@[simp] theorem perform_run (op : Op) :
    (perform op : Action Op Ans ε σ (Ans op)) s = .call op fun r => .ret (.ok r, s) := rfl

end Run

theorem bind_assoc (m : Action Op Ans ε σ α) (f : α → Action Op Ans ε σ β)
    (g : β → Action Op Ans ε σ γ) : (m >>= f) >>= g = m >>= fun a => f a >>= g := by
  funext s
  simp only [bind_run, Process.bind_assoc]
  congr 1
  funext out
  cases out.1 with
  | ok a => rfl
  | error e => rfl

/-- Every outcome of the action from `s` satisfies `Q`, whatever the environment answers. -/
def Ensures (m : Action Op Ans ε σ α) (s : σ) (Q : Except ε α → σ → Prop) : Prop :=
  ∀ r s', (m s).Returns (r, s') → Q r s'

section Ensures
variable {s : σ} {Q : Except ε α → σ → Prop}

theorem Ensures.mono {m : Action Op Ans ε σ α} {Q' : Except ε α → σ → Prop} (h : m.Ensures s Q)
    (himp : ∀ r s', Q r s' → Q' r s') : m.Ensures s Q' :=
  fun r s' hr => himp r s' (h r s' hr)

theorem ensures_pure {a : α} (h : Q (.ok a) s) : (pure a : Action Op Ans ε σ α).Ensures s Q := by
  intro r s' hr
  cases hr
  exact h

theorem ensures_fail {e : ε} (h : Q (.error e) s) : (fail e : Action Op Ans ε σ α).Ensures s Q := by
  intro r s' hr
  cases hr
  exact h

theorem ensures_ofExcept {x : Except ε α} (h : Q x s) :
    (ofExcept x : Action Op Ans ε σ α).Ensures s Q := by
  intro r s' hr
  cases hr
  exact h

theorem ensures_state {Q : Except ε σ → σ → Prop} (h : Q (.ok s) s) :
    (state : Action Op Ans ε σ σ).Ensures s Q := by
  intro r s' hr
  cases hr
  exact h

theorem ensures_perform {op : Op} {Q : Except ε (Ans op) → σ → Prop} (h : ∀ a, Q (.ok a) s) :
    (perform op : Action Op Ans ε σ (Ans op)).Ensures s Q := by
  intro r s' hr
  obtain ⟨a, ha⟩ := Process.returns_call.mp hr
  cases ha
  exact h a

theorem ensures_bind {m : Action Op Ans ε σ β} {f : β → Action Op Ans ε σ α}
    {R : Except ε β → σ → Prop} (hm : m.Ensures s R)
    (herr : ∀ e s', R (.error e) s' → Q (.error e) s')
    (hok : ∀ b s', R (.ok b) s' → (f b).Ensures s' Q) : (m >>= f).Ensures s Q := by
  intro r s' hr
  rw [bind_run, Process.returns_bind] at hr
  obtain ⟨⟨x, t⟩, hx, hr⟩ := hr
  have hR := hm x t hx
  cases x with
  | ok b => exact hok b t hR r s' hr
  | error e =>
    cases hr
    exact herr e t hR

theorem ensures_state_bind {f : σ → Action Op Ans ε σ α} (h : (f s).Ensures s Q) :
    (state >>= f).Ensures s Q := h

theorem ensures_check {x : Except ε β} {f : β → Action Op Ans ε σ α}
    (herr : ∀ e, x = .error e → Q (.error e) s) (hok : ∀ b, x = .ok b → (f b).Ensures s Q) :
    (ofExcept x >>= f).Ensures s Q := by
  cases x with
  | error e => exact ensures_fail (herr e rfl)
  | ok b => exact hok b rfl

theorem ensures_attempt {m : Action Op Ans ε σ β} {Q : Except ε (Except ε β) → σ → Prop}
    (h : m.Ensures s fun r s' => Q (.ok r) s') : m.attempt.Ensures s Q := by
  intro r s' hr
  obtain ⟨⟨x, t⟩, hx, hr⟩ := Process.returns_bind.mp hr
  cases hr
  exact h x t hx

theorem ensures_attempt_bind {m : Action Op Ans ε σ β} {f : Except ε β → Action Op Ans ε σ α}
    (h : m.Ensures s fun r s' => (f r).Ensures s' Q) : (m.attempt >>= f).Ensures s Q := by
  intro r s' hr
  rw [bind_run, Process.returns_bind] at hr
  obtain ⟨⟨x, t⟩, hx, hr⟩ := hr
  obtain ⟨⟨y, u⟩, hy, hx⟩ := Process.returns_bind.mp hx
  cases hx
  exact h y u hy r s' hr

end Ensures

/-- The action keeps an invariant of the state, whether it succeeds or fails. -/
def Keeps (m : Action Op Ans ε σ α) (I : σ → Prop) : Prop :=
  ∀ s, I s → m.Ensures s fun _ s' => I s'

section Keeps
variable {I : σ → Prop}

theorem keeps_pure {a : α} : (pure a : Action Op Ans ε σ α).Keeps I := fun _ h => ensures_pure h

theorem keeps_fail {e : ε} : (fail e : Action Op Ans ε σ α).Keeps I := fun _ h => ensures_fail h

theorem keeps_ofExcept {x : Except ε α} : (ofExcept x : Action Op Ans ε σ α).Keeps I :=
  fun _ h => ensures_ofExcept h

theorem keeps_state : (state : Action Op Ans ε σ σ).Keeps I := fun _ h => ensures_state h

theorem keeps_perform {op : Op} : (perform op : Action Op Ans ε σ (Ans op)).Keeps I :=
  fun _ h => ensures_perform fun _ => h

theorem keeps_bind {m : Action Op Ans ε σ β} {f : β → Action Op Ans ε σ α} (hm : m.Keeps I)
    (hf : ∀ b, (f b).Keeps I) : (m >>= f).Keeps I :=
  fun s h => ensures_bind (hm s h) (fun _ _ h' => h') (fun b s' h' => hf b s' h')

theorem keeps_attempt {m : Action Op Ans ε σ α} (hm : m.Keeps I) : m.attempt.Keeps I :=
  fun s h => ensures_attempt (hm s h)

end Keeps
end Action
end Lib
