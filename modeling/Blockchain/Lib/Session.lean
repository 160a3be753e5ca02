import Blockchain.Lib.Process
import Blockchain.Lib.ByteCodec
import Mathlib.Logic.Relation

/-! Two programs joined by a lossless, ordered byte link. Either side may move whenever it
can, so a run is any interleaving. `Until` is the liveness statement used for such runs:
every run stays in `Q` until it reaches `P`, and it cannot stop before. -/
namespace Lib

/-- What a program asks of its link; everything else it does is a local operation. -/
inductive LinkOp (L : Type) where
  | send (data : Bytes)
  | recv (count : Nat)
  | loc (op : L)

@[reducible] def LinkOp.Answer (ε : Type) {L : Type} (A : L → Type) : LinkOp L → Type
  | .send _ => Except ε Unit
  | .recv _ => Except ε Bytes
  | .loc op => A op

/-- How a stretch of a looping program ends: at a loop head, or with its result. -/
inductive Turn (σ α : Type) where
  | again (point : σ)
  | done (result : α)

/-- The errors an end can see once its peer has closed the link. -/
structure Faults (ε : Type) where
  send : ε → Prop
  recv : ε → Prop

abbrev Party (ε : Type) {L : Type} (A : L → Type) (σ α : Type) : Type :=
  Process (LinkOp L) (LinkOp.Answer ε A) (Turn σ α)

section Until
variable {S : Type} {R : S → S → Prop} {Q P : S → Prop}

/-- Every run from the state stays in `Q` until it reaches `P`, which it does. -/
inductive Until (R : S → S → Prop) (Q P : S → Prop) : S → Prop where
  | now {s : S} (h : P s) : Until R Q P s
  | later {s : S} (hq : Q s) (hstep : ∃ t, R s t) (h : ∀ t, R s t → Until R Q P t) : Until R Q P s

namespace Until

theorem mono {Q' P' : S → Prop} {s : S} (h : Until R Q P s) (hQ : ∀ s, Q s → Q' s)
    (hP : ∀ s, P s → P' s) : Until R Q' P' s := by
  induction h with
  | now h => exact .now (hP _ h)
  | later hq hstep _ ih => exact .later (hQ _ hq) hstep ih

theorem only {s t : S} (hq : Q s) (ht : R s t) (honly : ∀ t', R s t' → t' = t)
    (h : Until R Q P t) : Until R Q P s := by
  refine .later hq ⟨t, ht⟩ ?_
  intro t' ht'
  rw [honly t' ht']
  exact h

theorem reaches {s : S} (h : Until R Q P s) : ∃ t, Relation.ReflTransGen R s t ∧ P t := by
  induction h with
  | now h => exact ⟨_, .refl, h⟩
  | later _ hstep _ ih =>
    obtain ⟨t, ht⟩ := hstep
    obtain ⟨u, hu, hp⟩ := ih t ht
    exact ⟨u, .head ht hu, hp⟩

theorem safe {s t : S} (h : Until R Q P s) (hrun : Relation.ReflTransGen R s t) :
    Q t ∨ ∃ u, P u ∧ Relation.ReflTransGen R u t := by
  induction h with
  | now h => exact .inr ⟨_, h, hrun⟩
  | later hq _ _ ih =>
    cases Relation.ReflTransGen.cases_head hrun with
    | inl heq =>
      rw [← heq]
      exact .inl hq
    | inr hhead =>
      obtain ⟨u, hu, hrest⟩ := hhead
      exact ih u hu hrest

end Until
end Until

section Party
variable {ε L σ α : Type} {A : L → Type}

def Process.Closed (p : Party ε A σ α) : Prop := ∃ a, p = .ret (.done a)

/-- A program that cannot move on an empty inbox: it waits for bytes or has returned. -/
def Process.Quiet (p : Party ε A σ α) : Prop :=
  (∃ count k, p = .call (.recv (count + 1)) k) ∨ p.Closed

def Process.OffPoint (p : Party ε A σ α) : Prop := ∀ point, p ≠ .ret (.again point)

theorem Process.not_closed_call {op : LinkOp L} {k : LinkOp.Answer ε A op → Party ε A σ α} :
    ¬ Process.Closed (.call op k) := by
  intro h
  obtain ⟨a, h⟩ := h
  cases h

theorem Process.offPoint_call {op : LinkOp L} {k : LinkOp.Answer ε A op → Party ε A σ α} :
    Process.OffPoint (.call op k) := by
  intro point h
  cases h

theorem Process.Quiet.offPoint {p : Party ε A σ α} (h : p.Quiet) : p.OffPoint := by
  intro point hp
  cases h with
  | inl h =>
    obtain ⟨count, k, h⟩ := h
    rw [h] at hp
    cases hp
  | inr h =>
    obtain ⟨a, h⟩ := h
    rw [h] at hp
    cases hp

/-- The program runs to its end without another loop head. -/
def Process.Ends (p : Party ε A σ α) : Prop := ∀ point, ¬ p.Returns (.again point)

/-- One move of a program: what becomes of it and of its inbox, and what it sends. -/
inductive PartyStep (faults : Faults ε) (body : σ → Party ε A σ α) (peerClosed : Prop) :
    Party ε A σ α → Bytes → Party ε A σ α → Bytes → Bytes → Prop where
  | send {data : Bytes} {k : Except ε Unit → Party ε A σ α} {inbox : Bytes} :
      PartyStep faults body peerClosed (.call (.send data) k) inbox (k (.ok ())) inbox data
  | sendFailed {data : Bytes} {k : Except ε Unit → Party ε A σ α} {inbox : Bytes} {e : ε}
      (hc : peerClosed) (he : faults.send e) :
      PartyStep faults body peerClosed (.call (.send data) k) inbox (k (.error e)) inbox []
  | recv {count : Nat} {k : Except ε Bytes → Party ε A σ α} {inbox : Bytes}
      (h : count ≤ inbox.length) :
      PartyStep faults body peerClosed (.call (.recv count) k) inbox
        (k (.ok (inbox.take count))) (inbox.drop count) []
  | recvFailed {count : Nat} {k : Except ε Bytes → Party ε A σ α} {inbox : Bytes} {e : ε}
      (hc : peerClosed) (h : inbox.length < count) (he : faults.recv e) :
      PartyStep faults body peerClosed (.call (.recv count) k) inbox (k (.error e)) [] []
  | loc {op : L} {k : A op → Party ε A σ α} {inbox : Bytes} (answer : A op) :
      PartyStep faults body peerClosed (.call (.loc op) k) inbox (k answer) inbox []
  | again {point : σ} {inbox : Bytes} :
      PartyStep faults body peerClosed (.ret (.again point)) inbox (body point) inbox []

theorem Process.Quiet.no_step {faults : Faults ε} {body : σ → Party ε A σ α} {peerClosed : Prop}
    {p p' : Party ε A σ α} {inbox out : Bytes} (h : p.Quiet) (hopen : ¬ peerClosed) :
    ¬ PartyStep faults body peerClosed p [] p' inbox out := by
  intro hs
  cases h with
  | inl h =>
    obtain ⟨count, k, rfl⟩ := h
    cases hs with
    | recv hle => simp at hle
    | recvFailed hc _ _ => exact hopen hc
  | inr h =>
    obtain ⟨a, rfl⟩ := h
    cases hs

theorem PartyStep.ends {faults : Faults ε} {body : σ → Party ε A σ α} {peerClosed : Prop}
    {p p' : Party ε A σ α} {inbox inbox' out : Bytes}
    (hs : PartyStep faults body peerClosed p inbox p' inbox' out) (h : p.Ends) : p'.Ends := by
  intro point hr
  cases hs with
  | send => exact h point (.call hr)
  | sendFailed _ _ => exact h point (.call hr)
  | recv _ => exact h point (.call hr)
  | recvFailed _ _ _ => exact h point (.call hr)
  | loc answer => exact h point (.call hr)
  | again => exact h _ (.ret _)

theorem Process.Closed.no_step {faults : Faults ε} {body : σ → Party ε A σ α} {peerClosed : Prop}
    {p p' : Party ε A σ α} {inbox inbox' out : Bytes} (h : p.Closed) :
    ¬ PartyStep faults body peerClosed p inbox p' inbox' out := by
  intro hs
  obtain ⟨a, rfl⟩ := h
  cases hs

end Party

structure Session (ε : Type) {L : Type} (A : L → Type) (σ α τ β : Type) where
  left : Party ε A σ α
  right : Party ε A τ β
  toLeft : Bytes
  toRight : Bytes

namespace Session
variable {ε L σ α τ β : Type} {A : L → Type}

inductive Step (faults : Faults ε) (lbody : σ → Party ε A σ α) (rbody : τ → Party ε A τ β) :
    Session ε A σ α τ β → Session ε A σ α τ β → Prop where
  | left {s : Session ε A σ α τ β} {p : Party ε A σ α} {inbox out : Bytes}
      (h : PartyStep faults lbody s.right.Closed s.left s.toLeft p inbox out) :
      Step faults lbody rbody s ⟨p, s.right, inbox, s.toRight ++ out⟩
  | right {s : Session ε A σ α τ β} {p : Party ε A τ β} {inbox out : Bytes}
      (h : PartyStep faults rbody s.left.Closed s.right s.toRight p inbox out) :
      Step faults lbody rbody s ⟨s.left, p, s.toLeft ++ out, inbox⟩

def swap (s : Session ε A σ α τ β) : Session ε A τ β σ α := ⟨s.right, s.left, s.toRight, s.toLeft⟩

variable {faults : Faults ε} {lbody : σ → Party ε A σ α} {rbody : τ → Party ε A τ β}

theorem Step.swap {s t : Session ε A σ α τ β} (h : Step faults lbody rbody s t) :
    Step faults rbody lbody s.swap t.swap := by
  cases h with
  | left h => exact .right h
  | right h => exact .left h

theorem ends_left {s t : Session ε A σ α τ β} (h : s.left.Ends)
    (hrun : Relation.ReflTransGen (Step faults lbody rbody) s t) : t.left.Ends := by
  induction hrun with
  | refl => exact h
  | tail _ hstep ih =>
    cases hstep with
    | left hs => exact hs.ends ih
    | right hs => exact ih

theorem last_point_left {s t : Session ε A σ α τ β} {point : σ}
    (h : s.left = .ret (.again point)) (hends : (lbody point).Ends)
    (hrun : Relation.ReflTransGen (Step faults lbody rbody) s t) :
    t.left = .ret (.again point) ∨ t.left.Ends := by
  induction hrun with
  | refl => exact .inl h
  | tail _ hstep ih =>
    cases hstep with
    | left hs =>
      cases ih with
      | inl hpoint =>
        rw [hpoint] at hs
        cases hs
        exact .inr hends
      | inr hdone => exact .inr (hs.ends hdone)
    | right hs => exact ih

theorem until_swap {Q P : Session ε A σ α τ β → Prop} {s : Session ε A σ α τ β}
    (h : Until (Step faults rbody lbody) (fun t => Q t.swap) (fun t => P t.swap) s.swap) :
    Until (Step faults lbody rbody) Q P s := by
  have hgen : ∀ u : Session ε A τ β σ α,
      Until (Step faults rbody lbody) (fun t => Q t.swap) (fun t => P t.swap) u →
      Until (Step faults lbody rbody) Q P u.swap := by
    intro u hu
    induction hu with
    | now h => exact .now h
    | later hq hstep _ ih =>
      refine .later hq ?_ ?_
      · obtain ⟨t, ht⟩ := hstep
        exact ⟨t.swap, ht.swap⟩
      · intro t ht
        exact ih t.swap ht.swap
  exact hgen s.swap h

section Moves
variable {Q P : Session ε A σ α τ β → Prop}

theorem step_left {s t : Session ε A σ α τ β} (hquiet : s.right.Quiet) (hempty : s.toRight = [])
    (hopen : ¬ s.left.Closed) (h : Step faults lbody rbody s t) :
    ∃ p inbox out, PartyStep faults lbody s.right.Closed s.left s.toLeft p inbox out ∧
      t = ⟨p, s.right, inbox, s.toRight ++ out⟩ := by
  cases h with
  | left h => exact ⟨_, _, _, h, rfl⟩
  | right h =>
    rw [hempty] at h
    exact absurd h (hquiet.no_step hopen)

theorem enter_left {point : σ} {right : Party ε A τ β} (hquiet : right.Quiet)
    (hq : Q ⟨.ret (.again point), right, [], []⟩)
    (h : Until (Step faults lbody rbody) Q P ⟨lbody point, right, [], []⟩) :
    Until (Step faults lbody rbody) Q P ⟨.ret (.again point), right, [], []⟩ := by
  have hopen : ¬ Process.Closed (.ret (.again point) : Party ε A σ α) := by
    intro hc
    obtain ⟨a, hc⟩ := hc
    cases hc
  refine Until.only hq (.left .again) ?_ h
  intro t ht
  obtain ⟨p, inbox, out, hs, rfl⟩ := step_left hquiet rfl hopen ht
  cases hs
  rfl

theorem recv_closed {count : Nat} {k : Except ε Bytes → Party ε A σ α} {right : Party ε A τ β}
    {toRight : Bytes} (hclosed : right.Closed)
    (hq : Q ⟨.call (.recv (count + 1)) k, right, [], toRight⟩)
    (hex : ∃ e, faults.recv e)
    (h : ∀ e, faults.recv e → Until (Step faults lbody rbody)
      Q P ⟨k (.error e), right, [], toRight⟩) :
    Until (Step faults lbody rbody) Q P ⟨.call (.recv (count + 1)) k, right, [], toRight⟩ := by
  obtain ⟨e, he⟩ := hex
  refine .later hq ⟨_, .left (.recvFailed hclosed (by simp) he)⟩ ?_
  intro t ht
  cases ht with
  | left hs =>
    cases hs with
    | recv hle => simp at hle
    | recvFailed _ _ he => simpa using h _ he
  | right hs => exact absurd hs hclosed.no_step

theorem send_closed {data : Bytes} {k : Except ε Unit → Party ε A σ α} {right : Party ε A τ β}
    {toLeft toRight : Bytes} (hclosed : right.Closed)
    (hq : Q ⟨.call (.send data) k, right, toLeft, toRight⟩)
    (hok : Until (Step faults lbody rbody) Q P ⟨k (.ok ()), right, toLeft, toRight ++ data⟩)
    (herr : ∀ e, faults.send e →
      Until (Step faults lbody rbody) Q P ⟨k (.error e), right, toLeft, toRight⟩) :
    Until (Step faults lbody rbody) Q P ⟨.call (.send data) k, right, toLeft, toRight⟩ := by
  refine .later hq ⟨_, .left .send⟩ ?_
  intro t ht
  cases ht with
  | left hs =>
    cases hs with
    | send => exact hok
    | sendFailed _ he => simpa using herr _ he
  | right hs => exact absurd hs hclosed.no_step

/-- The left side sends two byte strings that the right side reads one after the other;
afterwards the left side is quiet. Every interleaving ends with both delivered. -/
theorem transfer {data₁ data₂ : Bytes} {f f' : Except ε Unit → Party ε A σ α}
    {g g' : Except ε Bytes → Party ε A τ β} (h₁ : 0 < data₁.length) (h₂ : 0 < data₂.length)
    (hf : f (.ok ()) = .call (.send data₂) f')
    (hg : g (.ok data₁) = .call (.recv data₂.length) g') (hquiet : (f' (.ok ())).Quiet)
    (hQ : ∀ s : Session ε A σ α τ β, s.left.OffPoint → s.right.OffPoint → Q s)
    (h : Until (Step faults lbody rbody) Q P ⟨f' (.ok ()), g' (.ok data₂), [], []⟩) :
    Until (Step faults lbody rbody) Q P
      ⟨.call (.send data₁) f, .call (.recv data₁.length) g, [], []⟩ := by
  have hwait : ∀ {n : Nat} {k : Except ε Bytes → Party ε A τ β}, 0 < n →
      Process.Quiet (.call (.recv n) k : Party ε A τ β) := by
    intro n k hn
    obtain ⟨m, rfl⟩ : ∃ m, n = m + 1 := ⟨n - 1, by omega⟩
    exact .inl ⟨m, k, rfl⟩
  -- the second string is in flight and the left side is quiet
  have hlast : Until (Step faults lbody rbody) Q P
      ⟨f' (.ok ()), .call (.recv data₂.length) g', [], data₂⟩ := by
    refine Until.only (hQ _ hquiet.offPoint Process.offPoint_call)
      (.right (.recv (Nat.le_refl _))) ?_ (by simpa using h)
    intro t ht
    cases ht with
    | left hs => exact absurd hs (hquiet.no_step Process.not_closed_call)
    | right hs =>
      cases hs with
      | recv _ => rfl
      | recvFailed _ hlt _ => exact absurd hlt (Nat.lt_irrefl _)
  -- the right side has read the first string before the second was sent
  have hearly : Until (Step faults lbody rbody) Q P
      ⟨.call (.send data₂) f', .call (.recv data₂.length) g', [], []⟩ := by
    refine Until.only (hQ _ Process.offPoint_call Process.offPoint_call) (.left .send) ?_
      (by simpa using hlast)
    intro t ht
    obtain ⟨p, inbox, out, hs, rfl⟩ := step_left (hwait h₂) rfl Process.not_closed_call ht
    cases hs with
    | send => rfl
    | sendFailed hc _ => exact absurd hc Process.not_closed_call
  -- both strings are in flight
  have hboth : Until (Step faults lbody rbody) Q P
      ⟨f' (.ok ()), .call (.recv data₁.length) g, [], data₁ ++ data₂⟩ := by
    refine Until.only (hQ _ hquiet.offPoint Process.offPoint_call)
      (.right (.recv (by simp))) ?_ (by simpa [hg] using hlast)
    intro t ht
    cases ht with
    | left hs => exact absurd hs (hquiet.no_step Process.not_closed_call)
    | right hs =>
      cases hs with
      | recv _ => rfl
      | recvFailed _ hlt _ => simp at hlt
  have hfirst : Until (Step faults lbody rbody) Q P
      ⟨.call (.send data₂) f', .call (.recv data₁.length) g, [], data₁⟩ := by
    refine .later (hQ _ Process.offPoint_call Process.offPoint_call) ⟨_, .left .send⟩ ?_
    intro t ht
    cases ht with
    | left hs =>
      cases hs with
      | send => exact hboth
      | sendFailed hc _ => exact absurd hc Process.not_closed_call
    | right hs =>
      cases hs with
      | recv _ => simpa [hg] using hearly
      | recvFailed hc _ _ => exact absurd hc Process.not_closed_call
  refine Until.only (hQ _ Process.offPoint_call Process.offPoint_call) (.left .send) ?_
    (by simpa [hf] using hfirst)
  intro t ht
  obtain ⟨p, inbox, out, hs, rfl⟩ := step_left (hwait h₁) rfl Process.not_closed_call ht
  cases hs with
  | send => rfl
  | sendFailed hc _ => exact absurd hc Process.not_closed_call

end Moves
end Session
end Lib
