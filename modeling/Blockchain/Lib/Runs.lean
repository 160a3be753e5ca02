import Blockchain.Lib.Environment

/-! Runs of a program that may stop anywhere. A run lists the operations issued so far; what
holds at every point of every run is a crash condition, kept apart from what holds at the
end. -/
namespace Lib

namespace Process
variable {Op : Type} {Ans : Op → Type} {W α β : Type} {env : Env Op Ans W}

/-- The program has issued the operations and is now the second program. -/
inductive RunsTo (env : Env Op Ans W) :
    Process Op Ans α → W → List Op → Process Op Ans α → W → Prop where
  | refl (p : Process Op Ans α) (w : W) : RunsTo env p w [] p w
  | step {op : Op} {k : Ans op → Process Op Ans α} {r : Ans op} {w w' v : W} {ops : List Op}
      {q : Process Op Ans α} (h : env op w r w') (hrest : RunsTo env (k r) w' ops q v) :
      RunsTo env (.call op k) w (op :: ops) q v

section RunsTo
variable {p q : Process Op Ans α} {w v : W} {ops : List Op}

theorem runsTo_ret {a : α} : RunsTo env (.ret a) w ops q v ↔ ops = [] ∧ q = .ret a ∧ v = w := by
  constructor
  · intro h
    cases h
    exact ⟨rfl, rfl, rfl⟩
  · intro h
    obtain ⟨rfl, rfl, rfl⟩ := h
    exact .refl _ _

theorem RunsTo.returns {a : α} (h : RunsTo env p w ops (.ret a) v) : p.Returns a := by
  generalize hq : (.ret a : Process Op Ans α) = q at h
  induction h with
  | refl =>
    rw [← hq]
    exact .ret a
  | step _ _ ih => exact .call (ih hq)

theorem Always.runs {Q : α → W → Prop} (h : p.Always env w Q) :
    ∃ ops a v, RunsTo env p w ops (.ret a) v ∧ Q a v := by
  induction p generalizing w with
  | ret a => exact ⟨[], a, w, .refl _ _, always_ret.mp h⟩
  | call op k ih =>
    obtain ⟨⟨r, w', hr⟩, hall⟩ := always_call.mp h
    obtain ⟨ops, a, v, hruns, hQ⟩ := ih r (hall r w' hr)
    exact ⟨op :: ops, a, v, .step hr hruns, hQ⟩

theorem RunsTo.trans {r : Process Op Ans α} {u : W} {ops' : List Op} (h : RunsTo env p w ops q v)
    (h' : RunsTo env q v ops' r u) : RunsTo env p w (ops ++ ops') r u := by
  induction h with
  | refl => exact h'
  | step hop _ ih => exact .step hop (ih h')

theorem RunsTo.bind {f : α → Process Op Ans β} (h : RunsTo env p w ops q v) :
    RunsTo env (p.bind f) w ops (q.bind f) v := by
  induction h with
  | refl => exact .refl _ _
  | step hop _ ih => exact .step hop ih

theorem RunsTo.bind_cases {f : α → Process Op Ans β} {q : Process Op Ans β}
    (h : RunsTo env (p.bind f) w ops q v) :
    (∃ p', RunsTo env p w ops p' v ∧ q = p'.bind f) ∨
    ∃ a u first second, ops = first ++ second ∧ RunsTo env p w first (.ret a) u ∧
      RunsTo env (f a) u second q v := by
  induction p generalizing w ops with
  | ret a => exact .inr ⟨a, w, [], ops, rfl, .refl _ _, h⟩
  | call op k ih =>
    cases h with
    | refl => exact .inl ⟨.call op k, .refl _ _, rfl⟩
    | step hop hrest =>
      obtain ⟨p', hp', hq⟩ | ⟨a, u, first, second, hops, hfirst, hsecond⟩ := ih _ hrest
      · exact .inl ⟨p', .step hop hp', hq⟩
      · exact .inr ⟨a, u, op :: first, second, by rw [hops, List.cons_append],
          .step hop hfirst, hsecond⟩

theorem RunsTo.bind_ret {f : α → Process Op Ans β} {b : β}
    (h : RunsTo env (p.bind f) w ops (.ret b) v) :
    ∃ a u first second, ops = first ++ second ∧ RunsTo env p w first (.ret a) u ∧
      RunsTo env (f a) u second (.ret b) v := by
  obtain ⟨p', hp', hq⟩ | hwhole := h.bind_cases
  · cases p' with
    | call op k => cases hq
    | ret a =>
      refine ⟨a, v, ops, [], (List.append_nil ops).symm, hp', ?_⟩
      rw [show f a = .ret b from hq.symm]
      exact .refl _ _
  · exact hwhole

end RunsTo

/-- What a program returns when its operations are carried out by other programs, it returns
on some answers to its own operations. -/
theorem Returns.of_interp {Op' : Type} {Ans' : Op' → Type}
    {impl : (op : Op) → Process Op' Ans' (Ans op)} {p : Process Op Ans α} {a : α}
    (h : (p.interp impl).Returns a) : p.Returns a := by
  induction p with
  | ret b => exact returns_ret.mpr (returns_ret.mp h)
  | call op k ih =>
    obtain ⟨r, _, hrest⟩ := returns_bind.mp h
    exact .call (ih r hrest)

end Process

namespace Action
variable {Op : Type} {Ans : Op → Type} {ε σ W α β : Type} {env : Env Op Ans W}

/-- `C` holds wherever a run of the action is cut off, and `Q` of its result, its state and the
environment when it ends. -/
def Guards (env : Env Op Ans W) (m : Action Op Ans ε σ α) (s : σ) (w : W) (C : W → Prop)
    (Q : Except ε α → σ → W → Prop) : Prop :=
  ∀ ops q v, (m s).RunsTo env w ops q v → C v ∧ ∀ r s', q = .ret (r, s') → Q r s' v

section Guards
variable {s : σ} {w : W} {C : W → Prop} {Q : Except ε α → σ → W → Prop}

theorem guards_ret {m : Action Op Ans ε σ α} {r : Except ε α} {s' : σ} (hm : m s = .ret (r, s'))
    (hc : C w) (hq : Q r s' w) : m.Guards env s w C Q := by
  intro ops q v h
  rw [hm] at h
  obtain ⟨_, hret, hv⟩ := Process.runsTo_ret.mp h
  rw [hv]
  refine ⟨hc, ?_⟩
  intro r' t hr'
  rw [hret] at hr'
  cases hr'
  exact hq

theorem guards_perform {op : Op} {Q : Except ε (Ans op) → σ → W → Prop} (hc : C w)
    (h : ∀ r w', env op w r w' → C w' ∧ Q (.ok r) s w') :
    (perform op : Action Op Ans ε σ (Ans op)).Guards env s w C Q := by
  intro ops q v hrun
  cases hrun with
  | refl => exact ⟨hc, fun r s' hq => by cases hq⟩
  | step hop hrest =>
    obtain ⟨_, hret, hv⟩ := Process.runsTo_ret.mp hrest
    rw [hv]
    refine ⟨(h _ _ hop).1, ?_⟩
    intro r s' hq
    rw [hret] at hq
    cases hq
    exact (h _ _ hop).2

theorem Guards.mono {m : Action Op Ans ε σ α} {C' : W → Prop} {Q' : Except ε α → σ → W → Prop}
    (h : m.Guards env s w C Q) (hC : ∀ v, C v → C' v) (hQ : ∀ r s' v, Q r s' v → Q' r s' v) :
    m.Guards env s w C' Q' := by
  intro ops q v hrun
  obtain ⟨hc, hq⟩ := h ops q v hrun
  exact ⟨hC v hc, fun r s' heq => hQ r s' v (hq r s' heq)⟩

def andThen (f : β → Action Op Ans ε σ α) (out : Except ε β × σ) :
    Process Op Ans (Except ε α × σ) :=
  match out.1 with
  | .ok b => f b out.2
  | .error e => .ret (.error e, out.2)

theorem guards_bind {m : Action Op Ans ε σ β} {f : β → Action Op Ans ε σ α}
    {R : Except ε β → σ → W → Prop} (hm : m.Guards env s w C R)
    (herr : ∀ e s' v, R (.error e) s' v → Q (.error e) s' v)
    (hok : ∀ b s' v, R (.ok b) s' v → (f b).Guards env s' v C Q) :
    (m >>= f).Guards env s w C Q := by
  intro ops q v hrun
  have hthrough : ∀ out u first second, (m s).RunsTo env w first (.ret out) u →
      (andThen f out).RunsTo env u second q v →
      C v ∧ ∀ r s', q = .ret (r, s') → Q r s' v := by
    intro out u first second hfirst hsecond
    obtain ⟨r, t⟩ := out
    obtain ⟨hc, hR⟩ := hm _ _ _ hfirst
    cases r with
    | ok b => exact hok b t u (hR _ _ rfl) second q v hsecond
    | error e =>
      obtain ⟨_, hret, hv⟩ := Process.runsTo_ret.mp hsecond
      rw [hv]
      refine ⟨hc, ?_⟩
      intro r' s' hq
      rw [hret] at hq
      cases hq
      exact herr e t u (hR _ _ rfl)
  have hbind : ((m s).bind (andThen f)).RunsTo env w ops q v := hrun
  obtain ⟨p', hp', hq⟩ | ⟨out, u, first, second, _, hfirst, hsecond⟩ := hbind.bind_cases
  · cases p' with
    | ret out => exact hthrough out v ops [] hp' (hq ▸ .refl _ _)
    | call op k =>
      refine ⟨(hm _ _ _ hp').1, ?_⟩
      intro r s' hret
      rw [hret] at hq
      cases hq
  · exact hthrough out u first second hfirst hsecond

theorem guards_state_bind {f : σ → Action Op Ans ε σ α} (h : (f s).Guards env s w C Q) :
    (state >>= f).Guards env s w C Q := h

theorem guards_check {x : Except ε β} {f : β → Action Op Ans ε σ α} (hc : C w)
    (herr : ∀ e, x = .error e → Q (.error e) s w)
    (hok : ∀ b, x = .ok b → (f b).Guards env s w C Q) :
    (ofExcept x >>= f).Guards env s w C Q := by
  cases x with
  | error e => exact guards_ret rfl hc (herr e rfl)
  | ok b => exact hok b rfl

theorem guards_attempt_bind {m : Action Op Ans ε σ β} {f : Except ε β → Action Op Ans ε σ α}
    (h : m.Guards env s w C fun r s' v => (f r).Guards env s' v C Q) :
    (m.attempt >>= f).Guards env s w C Q := by
  have hattempt : m.attempt.Guards env s w C fun r s' v =>
      ∃ x, r = .ok x ∧ (f x).Guards env s' v C Q := by
    intro ops q v hrun
    obtain ⟨p', hp', hq⟩ | ⟨out, u, first, second, _, hfirst, hsecond⟩ := hrun.bind_cases
    · obtain ⟨hc, hend⟩ := h _ _ _ hp'
      refine ⟨hc, ?_⟩
      intro r s' hret
      cases p' with
      | call op k =>
        rw [hret] at hq
        cases hq
      | ret out =>
        rw [hret] at hq
        cases hq
        exact ⟨_, rfl, hend _ _ rfl⟩
    · obtain ⟨_, hret, hv⟩ := Process.runsTo_ret.mp hsecond
      obtain ⟨hc, hend⟩ := h _ _ _ hfirst
      rw [hv]
      refine ⟨hc, ?_⟩
      intro r s' hq
      rw [hret] at hq
      cases hq
      exact ⟨_, rfl, hend _ _ rfl⟩
  refine guards_bind hattempt ?_ ?_
  · intro e s' v hr
    obtain ⟨x, hx, _⟩ := hr
    cases hx
  · intro b s' v hr
    obtain ⟨x, hx, hf⟩ := hr
    cases hx
    exact hf

end Guards
end Action
end Lib
