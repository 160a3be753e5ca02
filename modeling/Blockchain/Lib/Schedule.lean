import Blockchain.Lib.Session

/-! One schedule decides all. Each end of a session has one way on at a time, and a move of
one end only appends to what the other will read, so moves of the two ends commute. If some
schedule brings a session to rest, without faults and with nothing left on the links, then
every schedule brings it there, and no fault can occur on the way. -/
namespace Lib

/-! Relations whose forks close in one step on each side. -/

section Diamond
variable {S : Type} {R : S → S → Prop}

def Diamond (R : S → S → Prop) : Prop :=
  ∀ s a b, R s a → R s b → a = b ∨ ∃ c, R a c ∧ R b c

inductive RunOf (R : S → S → Prop) : Nat → S → S → Prop where
  | refl (s : S) : RunOf R 0 s s
  | head {n : Nat} {s u t : S} (h : R s u) (hrun : RunOf R n u t) : RunOf R (n + 1) s t

theorem RunOf.of_reflTransGen {s t : S} (h : Relation.ReflTransGen R s t) : ∃ n, RunOf R n s t := by
  induction h using Relation.ReflTransGen.head_induction_on with
  | refl => exact ⟨0, .refl t⟩
  | head hstep _ ih =>
    obtain ⟨n, hn⟩ := ih
    exact ⟨n + 1, .head hstep hn⟩

theorem RunOf.invariant {P : S → Prop} (hkeep : ∀ s u, P s → R s u → P u) {n : Nat} {s t : S}
    (h : RunOf R n s t) (hs : P s) : P t := by
  induction h with
  | refl => exact hs
  | head hstep _ ih => exact ih (hkeep _ _ hs hstep)

theorem Diamond.strip (hd : Diamond R) {n : Nat} {s t u : S} (hrun : RunOf R (n + 1) s t)
    (hlast : ∀ v, ¬ R t v) (hu : R s u) : RunOf R n u t := by
  induction n generalizing s u with
  | zero =>
    cases hrun with
    | head hstep hrest =>
      cases hrest with
      | refl =>
        obtain rfl | ⟨c, _, hc⟩ := hd s u t hu hstep
        · exact .refl u
        · exact absurd hc (hlast c)
  | succ n ih =>
    cases hrun with
    | @head _ _ v _ hstep hrest =>
      obtain rfl | ⟨c, hvc, huc⟩ := hd s v u hstep hu
      · exact hrest
      · exact .head huc (ih hrest hvc)

end Diamond

theorem Until.trans {S : Type} {R : S → S → Prop} {Q P P' : S → Prop} {s : S} (h : Until R Q P s)
    (hnext : ∀ t, P t → Until R Q P' t) : Until R Q P' s := by
  induction h with
  | now h => exact hnext _ h
  | later hq hstep _ ih => exact .later hq hstep ih

section Advance
variable {ε L σ α : Type} {A : L → Type}

/-- The one way on of a program that meets no fault and asks nothing of its own machine:
what becomes of it and of its inbox, and what it sends. -/
def Process.advance (body : σ → Party ε A σ α) :
    Party ε A σ α → Bytes → Option (Party ε A σ α × Bytes × Bytes)
  | .call (.send data) k, inbox => if data = [] then none else some (k (.ok ()), inbox, data)
  | .call (.recv count) k, inbox =>
    if count ≤ inbox.length then some (k (.ok (inbox.take count)), inbox.drop count, []) else none
  | .call (.loc _) _, _ => none
  | .ret (.again point), inbox => some (body point, inbox, [])
  | .ret (.done _), _ => none

variable {body : σ → Party ε A σ α} {p p' : Party ε A σ α} {inbox inbox' out : Bytes}

theorem Process.advance_append (h : p.advance body inbox = some (p', inbox', out)) (more : Bytes) :
    p.advance body (inbox ++ more) = some (p', inbox' ++ more, out) := by
  cases p with
  | ret turn =>
    cases turn with
    | again point =>
      cases h
      rfl
    | done a => cases h
  | call op k =>
    cases op with
    | send data =>
      simp only [advance] at h ⊢
      split at h
      · cases h
      · cases h
        rw [if_neg ‹_›]
    | recv count =>
      simp only [advance] at h ⊢
      split at h
      · rename_i hle
        cases h
        rw [if_pos (by rw [List.length_append]; omega), List.take_append_of_le_length hle,
          List.drop_append_of_le_length hle]
      · cases h
    | loc op => cases h

theorem Process.advance_step (h : p.advance body inbox = some (p', inbox', out))
    (faults : Faults ε) (peerClosed : Prop) :
    PartyStep faults body peerClosed p inbox p' inbox' out := by
  cases p with
  | ret turn =>
    cases turn with
    | again point =>
      cases h
      exact .again
    | done a => cases h
  | call op k =>
    cases op with
    | send data =>
      simp only [advance] at h
      split at h
      · cases h
      · cases h
        exact .send
    | recv count =>
      simp only [advance] at h
      split at h
      · cases h
        exact .recv ‹_›
      · cases h
    | loc op => cases h

theorem Process.Quiet.advance_nil (h : p.Quiet) : p.advance body [] = none := by
  cases h with
  | inl h =>
    obtain ⟨count, k, rfl⟩ := h
    rfl
  | inr h =>
    obtain ⟨a, rfl⟩ := h
    rfl

theorem Process.Closed.advance (h : p.Closed) (inbox : Bytes) : p.advance body inbox = none := by
  obtain ⟨a, rfl⟩ := h
  rfl

/-- A step that is not the one way on: a program that never gets on without a fault or an
answer from its machine, a send to a closed peer, or a receive that a closed peer has left
short. -/
theorem PartyStep.advance_or {faults : Faults ε} {peerClosed : Prop}
    (hs : PartyStep faults body peerClosed p inbox p' inbox' out) :
    p.advance body inbox = some (p', inbox', out) ∨
    ((∀ more, p.advance body more = none) ∧ ¬ p.Quiet) ∨
    (peerClosed ∧ ∃ next data, data ≠ [] ∧ p.advance body inbox = some (next, inbox, data)) ∨
    (peerClosed ∧ p.advance body inbox = none) := by
  have hquiet : ∀ {op : LinkOp L} {k : LinkOp.Answer ε A op → Party ε A σ α},
      (∀ n, op ≠ .recv n) → ¬ Process.Quiet (.call op k) := by
    intro op k hop hq
    cases hq with
    | inl hq =>
      obtain ⟨count, k', hcall⟩ := hq
      cases hcall
      exact hop _ rfl
    | inr hq => exact Process.not_closed_call hq
  cases hs with
  | send =>
    by_cases hdata : out = []
    · exact .inr (.inl ⟨fun _ => by rw [Process.advance, if_pos hdata],
        hquiet (by intro n h; cases h)⟩)
    · exact .inl (by rw [Process.advance, if_neg hdata])
  | sendFailed hc he =>
    rename_i data k e
    by_cases hdata : data = []
    · exact .inr (.inl ⟨fun _ => by rw [Process.advance, if_pos hdata],
        hquiet (by intro n h; cases h)⟩)
    · exact .inr (.inr (.inl ⟨hc, _, data, hdata, by rw [Process.advance, if_neg hdata]⟩))
  | recv hle => exact .inl (by rw [Process.advance, if_pos hle])
  | recvFailed hc hlt he =>
    exact .inr (.inr (.inr ⟨hc, by rw [Process.advance, if_neg (Nat.not_le.mpr hlt)]⟩))
  | loc answer => exact .inr (.inl ⟨fun _ => rfl, hquiet (by intro n h; cases h)⟩)
  | again => exact .inl rfl

end Advance

namespace Session
variable {ε L σ α τ β : Type} {A : L → Type}

/-- A move of either end that meets no fault. -/
inductive Move (lbody : σ → Party ε A σ α) (rbody : τ → Party ε A τ β) :
    Session ε A σ α τ β → Session ε A σ α τ β → Prop where
  | left {s : Session ε A σ α τ β} {p : Party ε A σ α} {inbox out : Bytes}
      (h : s.left.advance lbody s.toLeft = some (p, inbox, out)) :
      Move lbody rbody s ⟨p, s.right, inbox, s.toRight ++ out⟩
  | right {s : Session ε A σ α τ β} {p : Party ε A τ β} {inbox out : Bytes}
      (h : s.right.advance rbody s.toRight = some (p, inbox, out)) :
      Move lbody rbody s ⟨s.left, p, s.toLeft ++ out, inbox⟩

structure AtRest (s : Session ε A σ α τ β) : Prop where
  left_quiet : s.left.Quiet
  right_quiet : s.right.Quiet
  toLeft_nil : s.toLeft = []
  toRight_nil : s.toRight = []

variable {lbody : σ → Party ε A σ α} {rbody : τ → Party ε A τ β} {s t u : Session ε A σ α τ β}

theorem Move.swap (h : Move lbody rbody s t) : Move rbody lbody s.swap t.swap := by
  cases h with
  | left h => exact .right h
  | right h => exact .left h

theorem AtRest.swap (h : AtRest s) : AtRest s.swap :=
  ⟨h.right_quiet, h.left_quiet, h.toRight_nil, h.toLeft_nil⟩

theorem RunOf.swap {n : Nat} (h : RunOf (Move lbody rbody) n s t) :
    RunOf (Move rbody lbody) n s.swap t.swap := by
  induction h with
  | refl => exact .refl _
  | head hstep _ ih => exact .head hstep.swap ih

theorem AtRest.no_move (h : AtRest s) : ¬ Move lbody rbody s t := by
  intro hm
  cases hm with
  | left hm =>
    rw [h.toLeft_nil, h.left_quiet.advance_nil] at hm
    cases hm
  | right hm =>
    rw [h.toRight_nil, h.right_quiet.advance_nil] at hm
    cases hm

theorem move_diamond : Diamond (Move lbody rbody) := by
  have hcross : ∀ (s : Session ε A σ α τ β) {p : Party ε A σ α} {q : Party ε A τ β}
      {inbox out inbox' out' : Bytes}, s.left.advance lbody s.toLeft = some (p, inbox, out) →
      s.right.advance rbody s.toRight = some (q, inbox', out') →
      ∃ c, Move lbody rbody ⟨p, s.right, inbox, s.toRight ++ out⟩ c ∧
        Move lbody rbody ⟨s.left, q, s.toLeft ++ out', inbox'⟩ c := by
    intro s p q inbox out inbox' out' hl hr
    exact ⟨⟨p, q, inbox ++ out', inbox' ++ out⟩, .right (Process.advance_append hr out),
      .left (Process.advance_append hl out')⟩
  intro s a b ha hb
  cases ha with
  | left ha =>
    cases hb with
    | left hb =>
      rw [ha] at hb
      cases hb
      exact .inl rfl
    | right hb => exact .inr (hcross s ha hb)
  | right ha =>
    cases hb with
    | left hb =>
      obtain ⟨c, hc, hc'⟩ := hcross s hb ha
      exact .inr ⟨c, hc', hc⟩
    | right hb =>
      rw [ha] at hb
      cases hb
      exact .inl rfl

theorem stalled_left {n : Nat} (hrun : RunOf (Move lbody rbody) n s t)
    (h : ∀ inbox, s.left.advance lbody inbox = none) : t.left = s.left := by
  refine hrun.invariant (P := fun v => v.left = s.left) ?_ rfl
  intro v w hv hm
  cases hm with
  | left hm =>
    rw [hv, h] at hm
    cases hm
  | right hm => exact hv

theorem unread_left {n : Nat} (hrun : RunOf (Move lbody rbody) n s t) (hclosed : s.left.Closed)
    (h : s.toLeft ≠ []) : t.toLeft ≠ [] := by
  refine (hrun.invariant (P := fun v => v.left.Closed ∧ v.toLeft ≠ []) ?_ ⟨hclosed, h⟩).2
  intro v w hv hm
  cases hm with
  | left hm =>
    rw [hv.1.advance] at hm
    cases hm
  | right hm => exact ⟨hv.1, List.append_ne_nil_of_left_ne_nil hv.2 _⟩

theorem step_left_move {faults : Faults ε} {n : Nat} {p : Party ε A σ α} {inbox out : Bytes}
    (hrun : RunOf (Move lbody rbody) (n + 1) s t) (hrest : AtRest t)
    (hs : PartyStep faults lbody s.right.Closed s.left s.toLeft p inbox out) :
    s.left.advance lbody s.toLeft = some (p, inbox, out) := by
  obtain h | ⟨hstall, hquiet⟩ | ⟨hclosed, next, data, hdata, hsend⟩ | ⟨hclosed, hshort⟩ :=
    hs.advance_or
  · exact h
  · have hsame := stalled_left hrun hstall
    rw [← hsame] at hquiet
    exact absurd hrest.left_quiet hquiet
  · -- the data would still be under way when the session is at rest
    have hsent := move_diamond.strip hrun (fun v => hrest.no_move) (.left hsend)
    have hunread := unread_left (RunOf.swap hsent) hclosed
      (List.append_ne_nil_of_right_ne_nil _ hdata)
    exact absurd hrest.toRight_nil hunread
  · cases hrun with
    | head hm _ =>
      cases hm with
      | left hm =>
        rw [hshort] at hm
        cases hm
      | right hm =>
        rw [hclosed.advance] at hm
        cases hm

theorem step_move {faults : Faults ε} {n : Nat} (hrun : RunOf (Move lbody rbody) (n + 1) s t)
    (hrest : AtRest t) (hs : Step faults lbody rbody s u) : Move lbody rbody s u := by
  cases hs with
  | left hs => exact .left (step_left_move hrun hrest hs)
  | right hs => exact .right (step_left_move (RunOf.swap hrun) hrest.swap hs)

/-- If some schedule brings a session to rest, every schedule does, to the same state. -/
theorem until_rest {faults : Faults ε} (hrun : Relation.ReflTransGen (Move lbody rbody) s t)
    (hrest : AtRest t) : Until (Step faults lbody rbody) (fun _ => True) (fun u => u = t) s := by
  obtain ⟨n, hn⟩ := RunOf.of_reflTransGen hrun
  clear hrun
  induction n generalizing s with
  | zero =>
    cases hn
    exact .now rfl
  | succ n ih =>
    have hfirst : ∃ u, Step faults lbody rbody s u := by
      cases hn with
      | head hm _ =>
        cases hm with
        | left hm => exact ⟨_, .left (Process.advance_step hm _ _)⟩
        | right hm => exact ⟨_, .right (Process.advance_step hm _ _)⟩
    refine .later trivial hfirst ?_
    intro u hu
    exact ih (move_diamond.strip hn (fun v => hrest.no_move) (step_move hn hrest hu))

end Session

/-! What becomes of one end. A peer that closes early can make sends fail, so a session need
not come to rest; but if a failed send ends the program in the outcome `P`, then one schedule
still decides whether the program always ends in `P`. -/

section Ahead
variable {ε L σ α β : Type} {A : L → Type} {P : Party ε A σ α → Prop}

/-- Every failed send leaves the program in `P`. -/
inductive Process.SendStops {γ : Type} (P : Process (LinkOp L) (LinkOp.Answer ε A) γ → Prop) :
    Process (LinkOp L) (LinkOp.Answer ε A) γ → Prop where
  | ret (a : γ) : SendStops P (.ret a)
  | send {data : Bytes} {k : Except ε Unit → Process (LinkOp L) (LinkOp.Answer ε A) γ}
      (hfail : ∀ e, P (k (.error e))) (hk : ∀ r, SendStops P (k r)) :
      SendStops P (.call (.send data) k)
  | recv {count : Nat} {k : Except ε Bytes → Process (LinkOp L) (LinkOp.Answer ε A) γ}
      (hk : ∀ r, SendStops P (k r)) : SendStops P (.call (.recv count) k)
  | loc {op : L} {k : A op → Process (LinkOp L) (LinkOp.Answer ε A) γ}
      (hk : ∀ r, SendStops P (k r)) : SendStops P (.call (.loc op) k)

theorem Process.SendStops.mono {γ : Type} {Q R : Process (LinkOp L) (LinkOp.Answer ε A) γ → Prop}
    {p : Process (LinkOp L) (LinkOp.Answer ε A) γ} (h : p.SendStops Q) (hQ : ∀ q, Q q → R q) :
    p.SendStops R := by
  induction h with
  | ret a => exact .ret a
  | send hfail _ ih => exact .send (fun e => hQ _ (hfail e)) ih
  | recv _ ih => exact .recv ih
  | loc _ ih => exact .loc ih

theorem Process.SendStops.bind {γ δ : Type} {Q : Process (LinkOp L) (LinkOp.Answer ε A) γ → Prop}
    {R : Process (LinkOp L) (LinkOp.Answer ε A) δ → Prop}
    {p : Process (LinkOp L) (LinkOp.Answer ε A) γ}
    {f : γ → Process (LinkOp L) (LinkOp.Answer ε A) δ} (h : p.SendStops Q)
    (hQ : ∀ q, Q q → R (q.bind f)) (hf : ∀ a, (f a).SendStops R) : (p.bind f).SendStops R := by
  induction h with
  | ret a => exact hf a
  | send hfail _ ih => exact .send (fun e => hQ _ (hfail e)) ih
  | recv _ ih => exact .recv ih
  | loc _ ih => exact .loc ih

variable {faults : Faults ε} {lbody : σ → Party ε A σ α} {rbody : Empty → Party ε A Empty β}
  {p p' : Party ε A σ α} {inbox inbox' out : Bytes}

theorem Process.SendStops.step {peerClosed : Prop} (hbody : ∀ point, (lbody point).SendStops P)
    (h : p.SendStops P) (hs : PartyStep faults lbody peerClosed p inbox p' inbox' out) :
    p'.SendStops P := by
  cases hs with
  | again => exact hbody _
  | send =>
    cases h with
    | send _ hk => exact hk _
  | sendFailed =>
    cases h with
    | send _ hk => exact hk _
  | recv =>
    cases h with
    | recv hk => exact hk _
  | recvFailed =>
    cases h with
    | recv hk => exact hk _
  | loc =>
    cases h with
    | loc hk => exact hk _

theorem PartyStep.append {τ γ : Type} {body : τ → Party ε A τ γ} {q q' : Party ε A τ γ}
    {peerClosed : Prop} (hs : PartyStep faults body peerClosed q inbox q' inbox' out)
    (hopen : ¬ peerClosed) (more : Bytes) (peerClosed' : Prop) :
    PartyStep faults body peerClosed' q (inbox ++ more) q' (inbox' ++ more) out := by
  cases hs with
  | send => exact .send
  | sendFailed hc => exact absurd hc hopen
  | recv hle =>
    rename_i count k
    have hstep : PartyStep faults body peerClosed' (.call (.recv count) k) (inbox ++ more)
        (k (.ok ((inbox ++ more).take count))) ((inbox ++ more).drop count) [] :=
      .recv (by rw [List.length_append]; omega)
    rw [List.take_append_of_le_length hle, List.drop_append_of_le_length hle] at hstep
    exact hstep
  | recvFailed hc => exact absurd hc hopen
  | loc answer => exact .loc answer
  | again => exact .again

theorem PartyStep.advance_or_failed {peerClosed : Prop} {next : Party ε A σ α} {rest data : Bytes}
    (hs : PartyStep faults lbody peerClosed p inbox p' inbox' out)
    (h : p.advance lbody inbox = some (next, rest, data)) (hstops : p.SendStops P) :
    (p' = next ∧ inbox' = rest ∧ out = data) ∨ P p' := by
  cases hs with
  | send =>
    simp only [Process.advance] at h
    split at h
    · cases h
    · cases h
      exact .inl ⟨rfl, rfl, rfl⟩
  | sendFailed =>
    cases hstops with
    | send hfail _ => exact .inr (hfail _)
  | recv hle =>
    simp only [Process.advance, if_pos hle] at h
    cases h
    exact .inl ⟨rfl, rfl, rfl⟩
  | recvFailed _ hlt =>
    simp only [Process.advance, if_neg (Nat.not_le.mpr hlt)] at h
    cases h
  | loc => cases h
  | again =>
    cases h
    exact .inl ⟨rfl, rfl, rfl⟩

theorem PartyStep.advance_or_closed {τ γ : Type} {body : τ → Party ε A τ γ} {peerClosed : Prop}
    {q q' next : Party ε A τ γ} {rest data : Bytes}
    (hs : PartyStep faults body peerClosed q inbox q' inbox' out)
    (h : q.advance body inbox = some (next, rest, data)) :
    (q' = next ∧ inbox' = rest ∧ out = data) ∨ peerClosed := by
  obtain hadv | ⟨hstall, _⟩ | ⟨hclosed, _⟩ | ⟨hclosed, _⟩ := hs.advance_or
  · rw [hadv] at h
    cases h
    exact .inl ⟨rfl, rfl, rfl⟩
  · rw [hstall] at h
    cases h
  · exact .inr hclosed
  · exact .inr hclosed

theorem PartyStep.answered {τ γ : Type} {body : τ → Party ε A τ γ} {peerClosed : Prop}
    {op : LinkOp L} {k : LinkOp.Answer ε A op → Party ε A τ γ} {q : Party ε A τ γ}
    (hs : PartyStep faults body peerClosed (.call op k) inbox q inbox' out) : ∃ r, q = k r := by
  cases hs with
  | send => exact ⟨_, rfl⟩
  | sendFailed => exact ⟨_, rfl⟩
  | recv => exact ⟨_, rfl⟩
  | recvFailed => exact ⟨_, rfl⟩
  | loc answer => exact ⟨answer, rfl⟩

theorem Process.not_closed_of_advance {τ γ : Type} {body : τ → Party ε A τ γ} {q : Party ε A τ γ}
    {next : Party ε A τ γ × Bytes × Bytes} (h : q.advance body inbox = some next) : ¬ q.Closed := by
  intro hc
  rw [hc.advance] at h
  cases h

namespace Session

theorem until_near {left next : Party ε A σ α} {right : Party ε A Empty β}
    {toLeft toRight rest data : Bytes} (hP : P next) (hstops : left.SendStops P)
    (h : left.advance lbody toLeft = some (next, rest, data)) :
    Until (Step faults lbody rbody) (fun _ => True) (fun s => P s.left)
      ⟨left, right, toLeft, toRight⟩ := by
  have hmove : ∀ (right : Party ε A Empty β) (toLeft toRight rest data : Bytes) (p : Party ε A σ α)
      (inbox out : Bytes), left.advance lbody toLeft = some (next, rest, data) →
      PartyStep faults lbody right.Closed left toLeft p inbox out → P p := by
    intro right toLeft toRight rest data p inbox out hadv hs
    obtain ⟨rfl, _, _⟩ | hp := hs.advance_or_failed hadv hstops
    · exact hP
    · exact hp
  induction right generalizing toLeft toRight rest with
  | ret turn =>
    refine .later trivial ⟨_, .left (Process.advance_step h _ _)⟩ ?_
    intro t ht
    cases ht with
    | left hs => exact .now (hmove (.ret turn) _ toRight _ _ _ _ _ h hs)
    | right hs =>
      cases hs with
      | again =>
        rename_i point
        exact point.elim
  | call op k ih =>
    refine .later trivial ⟨_, .left (Process.advance_step h _ _)⟩ ?_
    intro t ht
    cases ht with
    | left hs => exact .now (hmove (.call op k) _ toRight _ _ _ _ _ h hs)
    | right hs =>
      obtain ⟨r, hr⟩ := hs.answered
      subst hr
      exact ih r (Process.advance_append h _)

theorem until_closed {s : Session ε A σ α Empty β} (hclosed : s.left.Closed)
    (h : Until (Step faults lbody rbody) (fun _ => True) (fun s => P s.left) s) : P s.left := by
  induction h with
  | now h => exact h
  | later _ hstep _ ih =>
    obtain ⟨t, ht⟩ := hstep
    cases ht with
    | left hs => exact absurd hs hclosed.no_step
    | right hs =>
      have hnext := ih _ (.right hs) hclosed
      exact hnext

theorem until_move {s t : Session ε A σ α Empty β} (hbody : ∀ point, (lbody point).SendStops P)
    (hstops : s.left.SendStops P) (hm : Move lbody rbody s t)
    (h : Until (Step faults lbody rbody) (fun _ => True) (fun s => P s.left) t) :
    Until (Step faults lbody rbody) (fun _ => True) (fun s => P s.left) s := by
  induction h generalizing s with
  | now hP =>
    cases hm with
    | left hadv => exact until_near hP hstops hadv
    | right hadv => exact .now hP
  | later hq hstep hall ih =>
    cases hm with
    | left hadv =>
      refine .later trivial ⟨_, .left (Process.advance_step hadv _ _)⟩ ?_
      intro u hu
      cases hu with
      | left hs =>
        obtain ⟨rfl, rfl, rfl⟩ | hp := hs.advance_or_failed hadv hstops
        · exact .later hq hstep hall
        · exact .now hp
      | right hs =>
        have hopen := Process.not_closed_of_advance hadv
        exact ih _ (.right (hs.append hopen _ _)) hstops (.left (Process.advance_append hadv _))
    | right hadv =>
      refine .later trivial ⟨_, .right (Process.advance_step hadv _ _)⟩ ?_
      intro u hu
      cases hu with
      | left hs =>
        have hopen := Process.not_closed_of_advance hadv
        exact ih _ (.left (hs.append hopen _ _)) (hstops.step hbody hs)
          (.right (Process.advance_append hadv _))
      | right hs =>
        obtain heq | hclosed := hs.advance_or_closed hadv
        · obtain ⟨rfl, rfl, rfl⟩ := heq
          exact .later hq hstep hall
        · have hnow := Until.later hq hstep hall
          have hP := until_closed (by exact hclosed) hnow
          exact .now hP

/-- If a failed send ends the left end in `P`, one schedule decides whether it always ends in
`P`. -/
theorem until_moves {s t : Session ε A σ α Empty β} (hbody : ∀ point, (lbody point).SendStops P)
    (hstops : s.left.SendStops P) (hrun : Relation.ReflTransGen (Move lbody rbody) s t)
    (h : Until (Step faults lbody rbody) (fun _ => True) (fun s => P s.left) t) :
    Until (Step faults lbody rbody) (fun _ => True) (fun s => P s.left) s := by
  induction hrun using Relation.ReflTransGen.head_induction_on with
  | refl => exact h
  | head hm _ ih =>
    refine until_move hbody hstops hm (ih ?_)
    cases hm with
    | left hadv => exact hstops.step hbody (Process.advance_step hadv faults True)
    | right hadv => exact hstops

end Session
end Ahead

/-! Actions that stop at a failed send. -/

namespace Action
variable {ε L ρ α β : Type} {A : L → Type}

def Failed (p : Process (LinkOp L) (LinkOp.Answer ε A) (Except ε α × ρ)) : Prop :=
  ∃ e s, p = .ret (.error e, s)

def FailsFast (m : Action (LinkOp L) (LinkOp.Answer ε A) ε ρ α) : Prop :=
  ∀ s, (m s).SendStops Failed

def Silent (m : Action (LinkOp L) (LinkOp.Answer ε A) ε ρ α) : Prop :=
  ∀ s, (m s).SendStops fun _ => False

theorem silent_of_ret {m : Action (LinkOp L) (LinkOp.Answer ε A) ε ρ α}
    (h : ∀ s, ∃ out, m s = .ret out) : m.Silent := by
  intro s
  obtain ⟨out, hout⟩ := h s
  rw [hout]
  exact .ret out

theorem silent_pure {a : α} : (pure a : Action (LinkOp L) (LinkOp.Answer ε A) ε ρ α).Silent :=
  silent_of_ret fun _ => ⟨_, rfl⟩

theorem silent_fail {e : ε} : (fail e : Action (LinkOp L) (LinkOp.Answer ε A) ε ρ α).Silent :=
  silent_of_ret fun _ => ⟨_, rfl⟩

theorem silent_ofExcept {x : Except ε α} :
    (ofExcept x : Action (LinkOp L) (LinkOp.Answer ε A) ε ρ α).Silent :=
  silent_of_ret fun _ => ⟨_, rfl⟩

theorem silent_state : (state : Action (LinkOp L) (LinkOp.Answer ε A) ε ρ ρ).Silent :=
  silent_of_ret fun _ => ⟨_, rfl⟩

theorem Silent.bind {m : Action (LinkOp L) (LinkOp.Answer ε A) ε ρ β}
    {f : β → Action (LinkOp L) (LinkOp.Answer ε A) ε ρ α} (hm : m.Silent) (hf : ∀ b, (f b).Silent) :
    (m >>= f).Silent := by
  intro s
  refine (hm s).bind (fun _ h => h) ?_
  intro out
  obtain ⟨r, s'⟩ := out
  cases r with
  | ok b => exact hf b s'
  | error e => exact .ret _

theorem Silent.failsFast {m : Action (LinkOp L) (LinkOp.Answer ε A) ε ρ α} (hm : m.Silent) :
    m.FailsFast := fun s => (hm s).mono fun _ h => h.elim

theorem Silent.attempt {m : Action (LinkOp L) (LinkOp.Answer ε A) ε ρ α} (hm : m.Silent) :
    m.attempt.Silent :=
  fun s => (hm s).bind (fun _ h => h) fun _ => .ret _

theorem FailsFast.bind {m : Action (LinkOp L) (LinkOp.Answer ε A) ε ρ β}
    {f : β → Action (LinkOp L) (LinkOp.Answer ε A) ε ρ α} (hm : m.FailsFast)
    (hf : ∀ b, (f b).FailsFast) : (m >>= f).FailsFast := by
  intro s
  refine (hm s).bind ?_ ?_
  · intro q hq
    obtain ⟨e, s', rfl⟩ := hq
    exact ⟨e, s', rfl⟩
  · intro out
    obtain ⟨r, s'⟩ := out
    cases r with
    | ok b => exact hf b s'
    | error e => exact .ret _

end Action
end Lib
