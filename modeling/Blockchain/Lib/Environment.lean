import Blockchain.Lib.Process

/-! Programs run in an environment that has a state of its own and may choose between
several answers. `Always` is total: the environment can always answer, and however it does
the program ends as stated. Operations of one interface can be implemented by programs over
another; an implementation that agrees operation by operation agrees on whole programs. -/
namespace Lib

/-- The answers an environment may give to an operation, and what becomes of it. -/
abbrev Env (Op : Type) (Ans : Op → Type) (W : Type) : Type :=
  (op : Op) → W → Ans op → W → Prop

namespace Process
variable {Op : Type} {Ans : Op → Type} {W α β : Type} {env : Env Op Ans W}

/-- Every run of the program in the environment ends, and it ends in `Q`. -/
def Always (env : Env Op Ans W) : Process Op Ans α → W → (α → W → Prop) → Prop
  | ret a, w, Q => Q a w
  | call op k, w, Q =>
    (∃ r w', env op w r w') ∧ ∀ r w', env op w r w' → (k r).Always env w' Q

@[simp] theorem always_ret {a : α} {w : W} {Q : α → W → Prop} :
    (ret a : Process Op Ans α).Always env w Q ↔ Q a w := Iff.rfl

theorem always_call {op : Op} {k : Ans op → Process Op Ans α} {w : W} {Q : α → W → Prop} :
    (call op k).Always env w Q ↔
      (∃ r w', env op w r w') ∧ ∀ r w', env op w r w' → (k r).Always env w' Q := Iff.rfl

theorem always_bind {p : Process Op Ans α} {f : α → Process Op Ans β} {w : W} {Q : β → W → Prop} :
    (p.bind f).Always env w Q ↔ p.Always env w fun a w' => (f a).Always env w' Q := by
  induction p generalizing w with
  | ret a => rfl
  | call op k ih => simp only [call_bind, always_call, ih]

theorem Always.mono {p : Process Op Ans α} {w : W} {Q R : α → W → Prop} (h : p.Always env w Q)
    (himp : ∀ a w', Q a w' → R a w') : p.Always env w R := by
  induction p generalizing w with
  | ret a => exact himp a w h
  | call op k ih => exact ⟨h.1, fun r w' hr => ih r (h.2 r w' hr)⟩

theorem Always.and {p : Process Op Ans α} {w : W} {Q R : α → W → Prop} (h : p.Always env w Q)
    (h' : p.Always env w R) : p.Always env w fun a w' => Q a w' ∧ R a w' := by
  induction p generalizing w with
  | ret a => exact ⟨h, h'⟩
  | call op k ih => exact ⟨h.1, fun r w' hr => ih r (h.2 r w' hr) (h'.2 r w' hr)⟩

theorem Always.exists {p : Process Op Ans α} {w : W} {Q : α → W → Prop} (h : p.Always env w Q) :
    ∃ a w', Q a w' := by
  induction p generalizing w with
  | ret a => exact ⟨a, w, h⟩
  | call op k ih =>
    obtain ⟨r, w', hr⟩ := h.1
    exact ih r (h.2 r w' hr)

theorem Always.consistent {p : Process Op Ans α} {w : W} {Q R : α → W → Prop}
    (h : p.Always env w Q) (hex : ∀ a w', Q a w' → ¬ R a w') : ¬ p.Always env w R := by
  intro h'
  obtain ⟨a, w', hq, hr⟩ := (h.and h').exists
  exact hex a w' hq hr

-- from here on through its rules only: unfolding it would run the program
attribute [irreducible] Always

/-- Run a program on fixed answers. -/
def play (reply : (op : Op) → Ans op) : Process Op Ans α → α
  | ret a => a
  | call op k => (k (reply op)).play reply

@[simp] theorem play_ret (reply : (op : Op) → Ans op) (a : α) : (ret a).play reply = a := rfl

@[simp] theorem play_call (reply : (op : Op) → Ans op) (op : Op) (k : Ans op → Process Op Ans α) :
    (call op k).play reply = (k (reply op)).play reply := rfl

theorem returns_play (reply : (op : Op) → Ans op) (p : Process Op Ans α) :
    p.Returns (p.play reply) := by
  induction p with
  | ret a => exact .ret a
  | call op k ih => exact .call (ih _)

end Process

theorem Action.always_bind {Op : Type} {Ans : Op → Type} {ε σ W α β : Type} {env : Env Op Ans W}
    {m : Action Op Ans ε σ α} {f : α → Action Op Ans ε σ β} {s : σ} {w : W}
    {Q : Except ε β × σ → W → Prop} :
    ((m >>= f) s).Always env w Q ↔ (m s).Always env w fun out w' =>
      match out.1 with
      | .ok a => (f a out.2).Always env w' Q
      | .error e => Q (.error e, out.2) w' := by
  rw [bind_run, Process.always_bind]
  refine ⟨fun h => h.mono ?_, fun h => h.mono ?_⟩
  · intro out w' hout
    obtain ⟨x, t⟩ := out
    cases x with
    | ok a => exact hout
    | error e => simpa only [Process.always_ret] using hout
  · intro out w' hout
    obtain ⟨x, t⟩ := out
    cases x with
    | ok a => exact hout
    | error e => simpa only [Process.always_ret] using hout

theorem Action.always_attempt {Op : Type} {Ans : Op → Type} {ε σ W α : Type} {env : Env Op Ans W}
    {m : Action Op Ans ε σ α} {s : σ} {w : W} {Q : Except ε (Except ε α) × σ → W → Prop} :
    (m.attempt s).Always env w Q ↔ (m s).Always env w fun out w' => Q (.ok out.1, out.2) w' := by
  rw [attempt, Process.always_bind]
  simp only [Process.always_ret]

/-- A part of a state that can be read and replaced on its own. -/
structure Part (W V : Type) where
  get : W → V
  put : W → V → W
  get_put : ∀ w v, get (put w v) = v
  put_put : ∀ w u v, put (put w u) v = put w v
  put_get : ∀ w, put w (get w) = w

def Part.whole (W : Type) : Part W W where
  get w := w
  put _ v := v
  get_put _ _ := rfl
  put_put _ _ _ := rfl
  put_get _ := rfl

section Interp
variable {Op Op' : Type} {Ans : Op → Type} {Ans' : Op' → Type} {V W α β : Type}

/-- Carry out every operation by a program over another interface. -/
def Process.interp (impl : (op : Op) → Process Op' Ans' (Ans op)) :
    Process Op Ans α → Process Op' Ans' α
  | .ret a => .ret a
  | .call op k => (impl op).bind fun r => (k r).interp impl

/-- Each operation, carried out in `env'`, has just the outcomes it has in `env`, which sees
only a part of the state. -/
def Implements (part : Part W V) (env' : Env Op' Ans' W) (env : Env Op Ans V)
    (impl : (op : Op) → Process Op' Ans' (Ans op)) : Prop :=
  ∀ (op : Op) (w : W) (Q : Ans op → W → Prop), (impl op).Always env' w Q ↔
    (∃ r v, env op (part.get w) r v) ∧ ∀ r v, env op (part.get w) r v → Q r (part.put w v)

variable {part : Part W V} {env' : Env Op' Ans' W} {env : Env Op Ans V}
  {impl : (op : Op) → Process Op' Ans' (Ans op)}

theorem Implements.always (h : Implements part env' env impl) {p : Process Op Ans α} {w : W}
    {Q : α → W → Prop} :
    (p.interp impl).Always env' w Q ↔
      p.Always env (part.get w) fun a v => Q a (part.put w v) := by
  induction p generalizing w with
  | ret a => simp only [Process.interp, Process.always_ret, part.put_get]
  | call op k ih =>
    simp only [Process.interp, Process.always_bind, h op w, Process.always_call, ih, part.get_put,
      part.put_put]

end Interp
end Lib
