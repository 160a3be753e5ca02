import Blockchain.Lib.Runs
import Blockchain.Lib.Transport

/-! What a program may ask of its environment, and how much of it. Every operation has a
cost; a program stays within a budget if no answers make it ask for more, and within a
permission if none make it ask for anything else. -/
namespace Lib

namespace Process
variable {Op : Type} {Ans : Op → Type} {α β : Type} {ok : Op → Prop} {cost : Op → Nat}

/-- Whatever the answers, the operations are permitted and cost no more than the budget. -/
def Within (ok : Op → Prop) (cost : Op → Nat) : Process Op Ans α → Nat → Prop
  | ret _, _ => True
  | call op k, n => ok op ∧ cost op ≤ n ∧ ∀ r, (k r).Within ok cost (n - cost op)

theorem within_ret (a : α) (n : Nat) : (ret a : Process Op Ans α).Within ok cost n := trivial

theorem Within.mono {p : Process Op Ans α} {n m : Nat} (h : p.Within ok cost n) (hle : n ≤ m) :
    p.Within ok cost m := by
  induction p generalizing n m with
  | ret a => trivial
  | call op k ih =>
    obtain ⟨hok, hcost, hrest⟩ := h
    exact ⟨hok, hcost.trans hle, fun r => ih r (hrest r) (by omega)⟩

theorem Within.bind {p : Process Op Ans α} {f : α → Process Op Ans β} {n m : Nat}
    (hp : p.Within ok cost n) (hf : ∀ a, p.Returns a → (f a).Within ok cost m) :
    (p.bind f).Within ok cost (n + m) := by
  induction p generalizing n with
  | ret a => exact (hf a (.ret a)).mono (Nat.le_add_left m n)
  | call op k ih =>
    obtain ⟨hok, hcost, hrest⟩ := hp
    refine ⟨hok, by omega, fun r => ?_⟩
    have hthen := ih r (hrest r) fun a ha => hf a (.call ha)
    rwa [Nat.sub_add_comm hcost]

theorem Within.map {p : Process Op Ans α} {n : Nat} (hp : p.Within ok cost n) (f : α → β) :
    (p.bind fun a => .ret (f a)).Within ok cost n := hp.bind (m := 0) fun _ _ => trivial

theorem Within.interp {Op' : Type} {Ans' : Op' → Type} {ok' : Op' → Prop} {cost' : Op' → Nat}
    {impl : (op : Op) → Process Op' Ans' (Ans op)}
    (himpl : ∀ op, ok op → (impl op).Within ok' cost' (cost op)) {p : Process Op Ans α} {n : Nat}
    (h : p.Within ok cost n) : (p.interp impl).Within ok' cost' n := by
  induction p generalizing n with
  | ret a => trivial
  | call op k ih =>
    obtain ⟨hok, hcost, hrest⟩ := h
    have hthen := (himpl op hok).bind fun r _ => ih r (hrest r)
    rwa [Nat.add_sub_cancel' hcost] at hthen

theorem Within.runs {W : Type} {env : Env Op Ans W} {p q : Process Op Ans α} {w v : W}
    {ops : List Op} {n : Nat} (h : p.Within ok cost n) (hrun : p.RunsTo env w ops q v) :
    (∀ op ∈ ops, ok op) ∧ (ops.map cost).sum ≤ n := by
  induction hrun generalizing n with
  | refl => exact ⟨by simp, Nat.zero_le n⟩
  | step _ _ ih =>
    obtain ⟨hok, hcost, hrest⟩ := h
    obtain ⟨hall, hsum⟩ := ih (hrest _)
    refine ⟨List.forall_mem_cons.mpr ⟨hok, hall⟩, ?_⟩
    rw [List.map_cons, List.sum_cons]
    omega

section Views
variable {W V : Type} {env : Env Op Ans W} {view : W → V}

/-- What permitted operations do not change, a run does not change. -/
theorem Within.view_eq (hview : ∀ op w r w', ok op → env op w r w' → view w' = view w)
    {p q : Process Op Ans α} {w v : W} {ops : List Op} {n : Nat} (h : p.Within ok cost n)
    (hrun : p.RunsTo env w ops q v) : view v = view w := by
  induction hrun generalizing n with
  | refl => rfl
  | step hop _ ih => exact (ih (h.2.2 _)).trans (hview _ _ _ _ h.1 hop)

theorem Within.runsTo (hfree : ∀ op w r, ok op → ∃ w', env op w r w') {p : Process Op Ans α}
    {n : Nat} (h : p.Within ok cost n) {a : α} (ha : p.Returns a) (w : W) :
    ∃ ops v, p.RunsTo env w ops (.ret a) v := by
  induction ha generalizing n w with
  | ret => exact ⟨[], w, .refl _ _⟩
  | call _ ih =>
    obtain ⟨w', hop⟩ := hfree _ w _ h.1
    obtain ⟨ops, v, hrun⟩ := ih (h.2.2 _) w'
    exact ⟨_, v, .step hop hrun⟩

/-- As long as the program has not ended well, the environment looks as it did; once it has,
it has been committed to. -/
def CommitsLast (env : Env Op Ans W) (view : W → V) (done : α → Prop) (commit : α → W → Prop)
    (p : Process Op Ans α) : Prop :=
  ∀ w ops q v, p.RunsTo env w ops q v →
    (view v = view w ∧ ∀ a, q = .ret a → ¬ done a) ∨ ∃ a, q = .ret a ∧ done a ∧ commit a v

variable {done : α → Prop} {commit : α → W → Prop}

theorem commitsLast_ret {a : α} (h : ¬ done a) :
    (ret a : Process Op Ans α).CommitsLast env view done commit := by
  intro w ops q v hrun
  obtain ⟨_, rfl, rfl⟩ := runsTo_ret.mp hrun
  refine .inl ⟨rfl, ?_⟩
  intro b hb
  cases hb
  exact h

theorem commitsLast_call {op : Op} {k : Ans op → Process Op Ans α}
    (h : ∀ w r w', env op w r w' →
      (view w' = view w ∧ (k r).CommitsLast env view done commit) ∨
      ∃ a, k r = .ret a ∧ done a ∧ commit a w') :
    (call op k).CommitsLast env view done commit := by
  intro w ops q v hrun
  cases hrun with
  | refl => exact .inl ⟨rfl, fun a ha => by cases ha⟩
  | step hop hrest =>
    obtain ⟨hsame, hk⟩ | ⟨a, hk, hdone⟩ := h _ _ _ hop
    · obtain ⟨hv, hq⟩ | hend := hk _ _ _ _ hrest
      · exact .inl ⟨hv.trans hsame, hq⟩
      · exact .inr hend
    · rw [hk] at hrest
      obtain ⟨_, rfl, rfl⟩ := runsTo_ret.mp hrest
      exact .inr ⟨a, rfl, hdone⟩

theorem Within.commitsLast (hview : ∀ op w r w', ok op → env op w r w' → view w' = view w)
    {β : Type} {p : Process Op Ans β} {f : β → Process Op Ans α} {n : Nat} (h : p.Within ok cost n)
    (hf : ∀ b, p.Returns b → (f b).CommitsLast env view done commit) :
    (p.bind f).CommitsLast env view done commit := by
  induction p generalizing n with
  | ret b => exact hf b (.ret b)
  | call op k ih =>
    refine commitsLast_call fun w r w' hop => .inl ⟨hview _ _ _ _ h.1 hop, ?_⟩
    exact ih r (h.2.2 r) fun b hb => hf b (.call hb)

end Views
end Process

namespace Action
variable {Op : Type} {Ans : Op → Type} {ε σ α β : Type} {ok : Op → Prop} {cost : Op → Nat}
  {I : σ → Prop}

/-- The action stays within the budget from every state of `I`. -/
def Within (I : σ → Prop) (ok : Op → Prop) (cost : Op → Nat) (m : Action Op Ans ε σ α) (n : Nat) :
    Prop := ∀ s, I s → (m s).Within ok cost n

theorem Within.mono {m : Action Op Ans ε σ α} {n k : Nat} (h : m.Within I ok cost n)
    (hle : n ≤ k) : m.Within I ok cost k := fun s hs => (h s hs).mono hle

theorem within_ret {m : Action Op Ans ε σ α} (h : ∀ s, ∃ out, m s = .ret out) (n : Nat) :
    m.Within I ok cost n := by
  intro s _
  obtain ⟨out, hout⟩ := h s
  rw [hout]
  trivial

theorem within_pure (a : α) (n : Nat) : (pure a : Action Op Ans ε σ α).Within I ok cost n :=
  within_ret (fun s => ⟨(.ok a, s), rfl⟩) n

theorem within_fail (e : ε) (n : Nat) : (fail e : Action Op Ans ε σ α).Within I ok cost n :=
  within_ret (fun s => ⟨(.error e, s), rfl⟩) n

theorem within_ofExcept (x : Except ε α) (n : Nat) :
    (ofExcept x : Action Op Ans ε σ α).Within I ok cost n :=
  within_ret (fun s => ⟨(x, s), rfl⟩) n

theorem within_perform {op : Op} (hok : ok op) :
    (perform op : Action Op Ans ε σ (Ans op)).Within I ok cost (cost op) :=
  fun _ _ => ⟨hok, le_rfl, fun _ => trivial⟩

theorem Within.bind {m : Action Op Ans ε σ α} {f : α → Action Op Ans ε σ β} {n k : Nat}
    (hm : m.Within I ok cost n) (hkeeps : m.Keeps I) (hf : ∀ a, (f a).Within I ok cost k) :
    (m >>= f).Within I ok cost (n + k) := by
  intro s hs
  rw [bind_run]
  refine (hm s hs).bind fun out hout => ?_
  obtain ⟨r, s'⟩ := out
  cases r with
  | ok a => exact hf a s' (hkeeps s hs _ _ hout)
  | error e => trivial

theorem within_perform_bind {op : Op} {f : Ans op → Action Op Ans ε σ α} (hok : ok op) {n : Nat}
    (hf : ∀ r, (f r).Within I ok cost n) : (perform op >>= f).Within I ok cost (cost op + n) :=
  (within_perform hok).bind keeps_perform hf

theorem Within.check_ok {x : Except ε α} {f : α → Action Op Ans ε σ β} {n : Nat}
    (hf : ∀ a, x = .ok a → (f a).Within I ok cost n) : (ofExcept x >>= f).Within I ok cost n := by
  intro s hs
  cases x with
  | ok a => exact hf a rfl s hs
  | error e => trivial

theorem Within.check {x : Except ε α} {f : α → Action Op Ans ε σ β} {n : Nat}
    (hf : ∀ a, (f a).Within I ok cost n) : (ofExcept x >>= f).Within I ok cost n :=
  .check_ok fun a _ => hf a

theorem Within.state_bind {f : σ → Action Op Ans ε σ α} {n : Nat}
    (hf : ∀ s, (f s).Within I ok cost n) : (state >>= f).Within I ok cost n :=
  fun s hs => hf s s hs

theorem Within.attempt {m : Action Op Ans ε σ α} {n : Nat} (hm : m.Within I ok cost n) :
    m.attempt.Within I ok cost n :=
  fun s hs => (hm s hs).map _

end Action

section Loops
variable {ε L : Type} {A : L → Type} (errors : SocketErrors ε) {ok : NativeOp L → Prop}

theorem sendAll_within (data : Bytes)
    (hok : ∀ chunk : Bytes, chunk.length ≤ data.length → ok (.send chunk)) :
    (sendAll errors data : Process (NativeOp L) (NativeOp.Answer A) (Except ε Unit)).Within ok
      (fun _ => 1) data.length := by
  induction hn : data.length using Nat.strong_induction_on generalizing data with
  | _ n ih =>
    rw [sendAll]
    by_cases hempty : data = []
    · rw [if_pos hempty]
      trivial
    · have hpos : 0 < data.length := List.length_pos_iff.mpr hempty
      have hone : 1 ≤ n := by omega
      rw [if_neg hempty]
      refine ⟨hok data le_rfl, hone, fun answer => ?_⟩
      dsimp only
      by_cases htaken : 0 < answer.1
      · rw [if_pos htaken]
        have hless : (data.drop answer.1).length ≤ n - 1 := by
          rw [List.length_drop]
          omega
        have hrest := ih _ (by omega) (data.drop answer.1)
          (fun chunk hc => hok chunk (by omega)) rfl
        exact hrest.mono hless
      · rw [if_neg htaken]
        trivial

theorem recvAll_within (count : Nat) (received : Bytes)
    (hok : ∀ room, room ≤ count → ok (.recv room)) :
    (recvAll errors count received : Process (NativeOp L) (NativeOp.Answer A)
      (Except ε Bytes)).Within
      ok (fun _ => 1) (count - received.length) := by
  induction hn : count - received.length using Nat.strong_induction_on generalizing received with
  | _ n ih =>
    rw [recvAll]
    by_cases hmore : received.length < count
    · have hone : 1 ≤ n := by omega
      rw [if_pos hmore]
      refine ⟨hok _ (Nat.sub_le _ _), hone, fun answer => ?_⟩
      dsimp only
      by_cases hgot : answer.1 = []
      · rw [if_neg (not_not.mpr hgot)]
        trivial
      · have hpos : 0 < answer.1.length := List.length_pos_iff.mpr hgot
        have hless : count - (received ++ answer.1).length ≤ n - 1 := by
          rw [List.length_append]
          omega
        rw [if_pos hgot]
        exact (ih _ (by omega) (received ++ answer.1) rfl).mono hless
    · rw [if_neg hmore]
      trivial

def LinkOp.calls : LinkOp L → Nat
  | .send data => data.length
  | .recv count => count
  | .loc _ => 1

theorem nativeIo_within {okLink : LinkOp L → Prop}
    (hsend : ∀ data chunk, okLink (.send data) → chunk.length ≤ data.length → ok (.send chunk))
    (hrecv : ∀ count room, okLink (.recv count) → room ≤ count → ok (.recv room))
    (hloc : ∀ op, okLink (.loc op) → ok (.loc op)) (op : LinkOp L) (h : okLink op) :
    (nativeIo errors op : Process (NativeOp L) (NativeOp.Answer A) (LinkOp.Answer ε A op)).Within ok
      (fun _ => 1) op.calls := by
  cases op with
  | send data => exact sendAll_within errors data fun chunk hc => hsend data chunk h hc
  | recv count => exact recvAll_within errors count [] fun room hr => hrecv count room h hr
  | loc op => exact ⟨hloc op h, le_rfl, fun _ => trivial⟩

end Loops
end Lib
