import Blockchain.Lib.Environment
import Blockchain.Lib.Session

/-! Sockets that move as many bytes as they like. A native send takes some of the bytes it
is offered, a native receive gives some of the bytes that have come in. The two loops that
send and receive whole buffers implement the link operations, so a program may be studied
over the link and holds for every way of cutting the stream. -/
namespace Lib

/-- One call of the platform; an answer without bytes stands for a result of zero or less,
and the number with it is the platform's error code. -/
inductive NativeOp (L : Type) where
  | send (chunk : Bytes)
  | recv (room : Nat)
  | loc (op : L)

@[reducible] def NativeOp.Answer {L : Type} (A : L → Type) : NativeOp L → Type
  | .send _ => Nat × Int
  | .recv _ => Bytes × Int
  | .loc op => A op

/-- The errors a failed native call is reported with. -/
structure SocketErrors (ε : Type) where
  send : Int → ε
  recv : Int → ε

section Loops
variable {ε L : Type} {A : L → Type} (errors : SocketErrors ε)

def sendAll (data : Bytes) : Process (NativeOp L) (NativeOp.Answer A) (Except ε Unit) :=
  if data = [] then .ret (.ok ())
  else .call (.send data) fun answer =>
    if 0 < answer.1 then sendAll (data.drop answer.1) else .ret (.error (errors.send answer.2))
termination_by data.length
decreasing_by
  have hpos : 0 < data.length := List.length_pos_iff.mpr ‹_›
  rw [List.length_drop]
  omega

/-- Fill a buffer of `count` bytes of which some have been received. -/
def recvAll (count : Nat) (received : Bytes) :
    Process (NativeOp L) (NativeOp.Answer A) (Except ε Bytes) :=
  if received.length < count then
    .call (.recv (count - received.length)) fun answer =>
      if answer.1 ≠ [] then recvAll count (received ++ answer.1)
      else .ret (.error (errors.recv answer.2))
  else .ret (.ok received)
termination_by count - received.length
decreasing_by
  have hpos : 0 < answer.1.length := List.length_pos_iff.mpr ‹_›
  rw [List.length_append]
  omega

/-- The link operations on a native socket. -/
def nativeIo : (op : LinkOp L) → Process (NativeOp L) (NativeOp.Answer A) (LinkOp.Answer ε A op)
  | .send data => sendAll errors data
  | .recv count => recvAll errors count []
  | .loc op => .call (.loc op) .ret

end Loops

/-- One end of a connection: what its peer sends before it closes, what it has sent itself,
and whether its peer may stop taking bytes. -/
structure Wire where
  inbound : Bytes
  sent : Bytes
  deaf : Bool

namespace Wire

def push (w : Wire) (data : Bytes) : Wire := { w with sent := w.sent ++ data }

def left (w : Wire) (rest : Bytes) : Wire := { w with inbound := rest }

@[simp] theorem push_deaf (w : Wire) (data : Bytes) : (w.push data).deaf = w.deaf := rfl

@[simp] theorem push_inbound (w : Wire) (data : Bytes) : (w.push data).inbound = w.inbound := rfl

@[simp] theorem left_deaf (w : Wire) (rest : Bytes) : (w.left rest).deaf = w.deaf := rfl

@[simp] theorem left_inbound (w : Wire) (rest : Bytes) : (w.left rest).inbound = rest := rfl

@[simp] theorem left_left (w : Wire) (a b : Bytes) : (w.left a).left b = w.left b := rfl

theorem push_push (w : Wire) (a b : Bytes) : (w.push a).push b = w.push (a ++ b) := by
  simp [push, List.append_assoc]

theorem push_nil (w : Wire) : w.push [] = w := by simp [push]

end Wire

section Env
variable {ε L : Type} {A : L → Type}

/-- A native socket in any chunking. `locals` are the answers to local operations. -/
def nativeEnv (locals : (op : L) → A op → Prop) : Env (NativeOp L) (NativeOp.Answer A) Wire
  | .send chunk, w, answer, w' =>
    (0 < answer.1 ∧ answer.1 ≤ chunk.length ∧ w' = w.push (chunk.take answer.1)) ∨
      (w.deaf = true ∧ answer.1 = 0 ∧ w' = w)
  | .recv room, w, answer, w' =>
    (answer.1 ≠ [] ∧ answer.1.length ≤ room ∧
      ∃ rest, w.inbound = answer.1 ++ rest ∧ w' = w.left rest) ∨
      (answer.1 = [] ∧ w.inbound = [] ∧ w' = w)
  | .loc op, w, answer, w' => locals op answer ∧ w' = w

def linkEnv (errors : SocketErrors ε) (locals : (op : L) → A op → Prop) :
    Env (LinkOp L) (LinkOp.Answer ε A) Wire
  | .send data, w, answer, w' =>
    (answer = .ok () ∧ w' = w.push data) ∨
      (w.deaf = true ∧ ∃ errno taken rest, answer = .error (errors.send errno) ∧
        data = taken ++ rest ∧ rest ≠ [] ∧ w' = w.push taken)
  | .recv count, w, answer, w' =>
    (count ≤ w.inbound.length ∧ answer = .ok (w.inbound.take count) ∧
      w' = w.left (w.inbound.drop count)) ∨
      (w.inbound.length < count ∧ (∃ errno, answer = .error (errors.recv errno)) ∧ w' = w.left [])
  | .loc op, w, answer, w' => locals op answer ∧ w' = w

variable {errors : SocketErrors ε} {locals : (op : L) → A op → Prop}

/-! A buffer can be moved in two parts. -/

theorem linkEnv_send_append {a b : Bytes} {w w' : Wire} {r : Except ε Unit}
    (h : linkEnv errors locals (.send b) (w.push a) r w') :
    linkEnv errors locals (.send (a ++ b)) w r w' := by
  obtain ⟨rfl, rfl⟩ | ⟨hdeaf, errno, taken, rest, rfl, rfl, hrest, rfl⟩ := h
  · exact .inl ⟨rfl, w.push_push a b⟩
  · exact .inr ⟨hdeaf, errno, a ++ taken, rest, rfl, (List.append_assoc _ _ _).symm, hrest,
      w.push_push a taken⟩

theorem linkEnv_recv_append {bytes rest : Bytes} {room : Nat} {w w' : Wire} {r : Except ε Bytes}
    (hw : w.inbound = bytes ++ rest) (hle : bytes.length ≤ room)
    (h : linkEnv errors locals (.recv (room - bytes.length)) (w.left rest) r w') :
    linkEnv errors locals (.recv room) w (r.map (bytes ++ ·)) w' := by
  have hlen : w.inbound.length = bytes.length + rest.length := by rw [hw, List.length_append]
  obtain ⟨hfits, rfl, rfl⟩ | ⟨hlt, ⟨errno, rfl⟩, rfl⟩ := h
  · rw [Wire.left_inbound] at hfits
    refine .inl ⟨by omega, ?_, ?_⟩
    · rw [hw, List.take_append, List.take_of_length_le hle]
      rfl
    · rw [hw, List.drop_append, List.drop_of_length_le hle]
      rfl
  · rw [Wire.left_inbound] at hlt
    exact .inr ⟨by omega, ⟨errno, rfl⟩, rfl⟩

theorem sendAll_nil :
    (sendAll errors [] : Process (NativeOp L) (NativeOp.Answer A) _) = .ret (.ok ()) := by
  rw [sendAll, if_pos rfl]

theorem sendAll_always (data : Bytes) (w : Wire) (Q : Except ε Unit → Wire → Prop) :
    (sendAll errors data).Always (nativeEnv locals) w Q ↔
      ∀ r w', linkEnv errors locals (.send data) w r w' → Q r w' := by
  -- on the bytes that are left
  induction hn : data.length using Nat.strong_induction_on generalizing data w with
  | _ n ih =>
    subst hn
    by_cases hnil : data = []
    · subst hnil
      rw [sendAll_nil, Process.always_ret]
      constructor
      · intro h r w' hr
        obtain ⟨rfl, rfl⟩ | ⟨_, _, taken, rest, _, hdata, hrest, _⟩ := hr
        · rwa [Wire.push_nil]
        · simp [hrest] at hdata
      · intro h
        exact h _ _ (.inl ⟨rfl, w.push_nil.symm⟩)
    · have hpos : 0 < data.length := List.length_pos_iff.mpr hnil
      rw [sendAll, if_neg hnil, Process.always_call]
      constructor
      · intro h r w' hr
        obtain ⟨rfl, rfl⟩ | ⟨hdeaf, errno, taken, rest, rfl, hdata, hrest, rfl⟩ := hr
        · -- the platform may take everything at once
          have hall := h.2 (data.length, 0) _ (.inl ⟨hpos, Nat.le_refl _, rfl⟩)
          simpa [hpos, sendAll_nil] using hall
        · by_cases htaken : taken = []
          · subst htaken
            simpa [Wire.push_nil] using h.2 (0, errno) w (.inr ⟨hdeaf, rfl, rfl⟩)
          · have hpos' : 0 < taken.length := List.length_pos_iff.mpr htaken
            have hpart := h.2 (taken.length, 0) _ (.inl ⟨hpos', by simp [hdata], rfl⟩)
            simp only [hpos', if_true, hdata, List.drop_left, List.take_left] at hpart
            rw [ih rest.length (by simp [hdata]; omega) rest (w.push taken) rfl] at hpart
            exact hpart _ _ (.inr ⟨hdeaf, errno, [], rest, rfl, rfl, hrest, (Wire.push_nil _).symm⟩)
      · intro h
        refine ⟨⟨(data.length, 0), _, .inl ⟨hpos, Nat.le_refl _, rfl⟩⟩, ?_⟩
        intro answer w' hanswer
        obtain ⟨hsome, hle, rfl⟩ | ⟨hdeaf, hzero, rfl⟩ := hanswer
        · rw [if_pos hsome, ih (data.drop answer.1).length
            (by rw [List.length_drop]; omega) _ _ rfl]
          intro r w' hr
          have hwhole := linkEnv_send_append hr
          rw [List.take_append_drop] at hwhole
          exact h r w' hwhole
        · rw [if_neg (by omega), Process.always_ret]
          exact h _ _ (.inr ⟨hdeaf, answer.2, [], data, rfl, rfl, hnil, w'.push_nil.symm⟩)

theorem recvAll_always (count : Nat) (received : Bytes) (w : Wire)
    (Q : Except ε Bytes → Wire → Prop) :
    (recvAll errors count received).Always (nativeEnv locals) w Q ↔
      ∀ r w', linkEnv errors locals (.recv (count - received.length)) w r w' →
        Q (r.map (received ++ ·)) w' := by
  -- on the room that is left
  induction hn : count - received.length using Nat.strong_induction_on generalizing received w with
  | _ n ih =>
    subst hn
    by_cases hfull : received.length < count
    · obtain ⟨room, hroom⟩ : ∃ room, count - received.length = room := ⟨_, rfl⟩
      have hpos : 0 < room := by omega
      rw [recvAll, if_pos hfull, Process.always_call, hroom]
      constructor
      · intro h r w' hr
        obtain ⟨hle, rfl, rfl⟩ | ⟨hlt, ⟨errno, rfl⟩, rfl⟩ := hr
        · -- the platform may give all that is asked for at once
          have hne : w.inbound.take room ≠ [] := by
            rw [← List.length_pos_iff, List.length_take]
            omega
          have hall := h.2 (w.inbound.take room, 0) _ (.inl ⟨hne, by rw [List.length_take]; omega,
            w.inbound.drop room, (List.take_append_drop room _).symm, rfl⟩)
          rw [if_pos hne, recvAll,
            if_neg (by rw [List.length_append, List.length_take]; omega),
            Process.always_ret] at hall
          exact hall
        · by_cases hnil : w.inbound = []
          · have hclosed := h.2 ([], errno) w (.inr ⟨rfl, hnil, rfl⟩)
            rw [if_neg (by simp), Process.always_ret] at hclosed
            rwa [← hnil]
          · have hpos' : 0 < w.inbound.length := List.length_pos_iff.mpr hnil
            have hpart := h.2 (w.inbound, 0) (w.left [])
              (.inl ⟨hnil, Nat.le_of_lt hlt, [], (List.append_nil _).symm, rfl⟩)
            rw [if_pos hnil, ih (count - (received ++ w.inbound).length)
              (by rw [List.length_append]; omega) _ _ rfl] at hpart
            have hshort : (w.left []).inbound.length < count - (received ++ w.inbound).length := by
              rw [List.length_append, Wire.left_inbound, List.length_nil]
              omega
            exact hpart _ _ (.inr ⟨hshort, ⟨errno, rfl⟩, rfl⟩)
      · intro h
        refine ⟨?_, ?_⟩
        · by_cases hnil : w.inbound = []
          · exact ⟨([], 0), w, .inr ⟨rfl, hnil, rfl⟩⟩
          · have hne : w.inbound.take room ≠ [] := by
              rw [ne_eq, List.take_eq_nil_iff]
              exact fun hor => hor.elim (by omega) hnil
            exact ⟨(w.inbound.take room, 0), _, .inl ⟨hne, by rw [List.length_take]; omega,
              w.inbound.drop room, (List.take_append_drop room _).symm, rfl⟩⟩
        · intro answer w' hanswer
          obtain ⟨hsome, hle, rest, hrest, rfl⟩ | ⟨hnone, hnil, rfl⟩ := hanswer
          · have hpos' : 0 < answer.1.length := List.length_pos_iff.mpr hsome
            have hroom' : count - (received ++ answer.1).length = room - answer.1.length := by
              rw [List.length_append]
              omega
            rw [if_pos hsome, ih (count - (received ++ answer.1).length) (by omega) _ _ rfl, hroom']
            intro r w' hr
            have hwhole := h _ _ (linkEnv_recv_append hrest hle hr)
            cases r with
            | error e => exact hwhole
            | ok bytes =>
              simp only [Except.map, List.append_assoc] at hwhole ⊢
              exact hwhole
          · have hclosed := h (.error (errors.recv answer.2)) (w'.left [])
              (.inr ⟨by rw [hnil]; exact hpos, ⟨answer.2, rfl⟩, rfl⟩)
            rw [if_neg (not_not.mpr hnone), Process.always_ret]
            rwa [← hnil] at hclosed
    · have hzero : count - received.length = 0 := by omega
      rw [recvAll, if_neg hfull, Process.always_ret, hzero]
      constructor
      · intro h r w' hr
        obtain ⟨_, rfl, rfl⟩ | ⟨hlt, _⟩ := hr
        · simpa [Wire.left, Except.map] using h
        · exact absurd hlt (Nat.not_lt_zero _)
      · intro h
        have hdone := h (.ok []) w (.inl ⟨Nat.zero_le _, rfl, rfl⟩)
        simpa [Except.map] using hdone

theorem linkEnv_recv_total (count : Nat) (w : Wire) :
    ∃ r w', linkEnv errors locals (.recv count) w r w' := by
  by_cases hle : count ≤ w.inbound.length
  · exact ⟨_, _, .inl ⟨hle, rfl, rfl⟩⟩
  · exact ⟨_, _, .inr ⟨Nat.lt_of_not_le hle, ⟨0, rfl⟩, rfl⟩⟩

/-- The loops carry out the link operations, however the stream is cut. -/
theorem nativeIo_implements (errors : SocketErrors ε) (locals : (op : L) → A op → Prop) :
    Implements (Part.whole Wire) (nativeEnv locals) (linkEnv errors locals) (nativeIo errors) := by
  intro op w Q
  cases op with
  | send data =>
    rw [nativeIo, sendAll_always]
    exact ⟨fun h => ⟨⟨_, _, .inl ⟨rfl, rfl⟩⟩, h⟩, fun h => h.2⟩
  | recv count =>
    rw [nativeIo, recvAll_always]
    have hid : ∀ r : Except ε Bytes, r.map (([] : Bytes) ++ ·) = r := by
      intro r
      cases r <;> rfl
    simp only [hid, List.length_nil, Nat.sub_zero]
    exact ⟨fun h => ⟨linkEnv_recv_total count w, h⟩, fun h => h.2⟩
  | loc op =>
    rw [nativeIo, Process.always_call]
    simp only [Process.always_ret]
    rfl

section Calls
variable {α : Type} {w : Wire} {Q : α → Wire → Prop}

theorem always_send {data : Bytes} {k : Except ε Unit → Process (LinkOp L) (LinkOp.Answer ε A) α}
    (hw : w.deaf = false) :
    Process.Always (linkEnv errors locals) (.call (.send data) k) w Q ↔
      (k (.ok ())).Always (linkEnv errors locals) (w.push data) Q := by
  rw [Process.always_call]
  constructor
  · intro h
    exact h.2 (.ok ()) _ (.inl ⟨rfl, rfl⟩)
  · intro h
    refine ⟨⟨.ok (), _, .inl ⟨rfl, rfl⟩⟩, ?_⟩
    intro r w' hr
    obtain ⟨rfl, rfl⟩ | ⟨hdeaf, _⟩ := hr
    · exact h
    · simp [hw] at hdeaf

theorem always_recv {count : Nat} {k : Except ε Bytes → Process (LinkOp L) (LinkOp.Answer ε A) α}
    (h : count ≤ w.inbound.length) :
    Process.Always (linkEnv errors locals) (.call (.recv count) k) w Q ↔
      (k (.ok (w.inbound.take count))).Always (linkEnv errors locals)
        (w.left (w.inbound.drop count)) Q := by
  rw [Process.always_call]
  constructor
  · intro hall
    exact hall.2 _ _ (.inl ⟨h, rfl, rfl⟩)
  · intro hk
    refine ⟨⟨_, _, .inl ⟨h, rfl, rfl⟩⟩, ?_⟩
    intro r w' hr
    obtain ⟨_, rfl, rfl⟩ | ⟨hlt, _⟩ := hr
    · exact hk
    · exact absurd h (Nat.not_le.mpr hlt)

theorem always_recv_closed {count : Nat}
    {k : Except ε Bytes → Process (LinkOp L) (LinkOp.Answer ε A) α}
    (h : w.inbound.length < count) :
    Process.Always (linkEnv errors locals) (.call (.recv count) k) w Q ↔
      ∀ errno, (k (.error (errors.recv errno))).Always (linkEnv errors locals) (w.left []) Q := by
  rw [Process.always_call]
  constructor
  · intro hall errno
    exact hall.2 _ _ (.inr ⟨h, ⟨errno, rfl⟩, rfl⟩)
  · intro hk
    refine ⟨⟨_, _, .inr ⟨h, ⟨0, rfl⟩, rfl⟩⟩, ?_⟩
    intro r w' hr
    obtain ⟨hle, _⟩ | ⟨_, ⟨errno, rfl⟩, rfl⟩ := hr
    · exact absurd hle (Nat.not_le.mpr h)
    · exact hk errno

end Calls
end Env

/-! Programs that only send. -/

section NoRecv
variable {ε L α β : Type} {A : L → Type}

inductive Process.NoRecv : Process (LinkOp L) (LinkOp.Answer ε A) α → Prop where
  | ret (a : α) : NoRecv (.ret a)
  | send {data : Bytes} {k : Except ε Unit → Process (LinkOp L) (LinkOp.Answer ε A) α}
      (h : ∀ r, NoRecv (k r)) : NoRecv (.call (.send data) k)
  | loc {op : L} {k : A op → Process (LinkOp L) (LinkOp.Answer ε A) α}
      (h : ∀ r, NoRecv (k r)) : NoRecv (.call (.loc op) k)

theorem Process.NoRecv.bind {p : Process (LinkOp L) (LinkOp.Answer ε A) α}
    {f : α → Process (LinkOp L) (LinkOp.Answer ε A) β} (h : p.NoRecv) (hf : ∀ a, (f a).NoRecv) :
    (p.bind f).NoRecv := by
  induction h with
  | ret a => exact hf a
  | send _ ih => exact .send ih
  | loc _ ih => exact .loc ih

def linkReply (answer : (op : L) → A op) : (op : LinkOp L) → LinkOp.Answer ε A op
  | .send _ => .ok ()
  | .recv _ => .ok []
  | .loc op => answer op

theorem Process.NoRecv.outcome {p : Process (LinkOp L) (LinkOp.Answer ε A) α} (h : p.NoRecv)
    (errors : SocketErrors ε) (answer : (op : L) → A op) :
    ∃ out, ∀ (w : Wire) (Q : α → Wire → Prop), w.deaf = false →
      (p.Always (linkEnv errors fun op r => r = answer op) w Q ↔
        Q (p.play (linkReply answer)) (w.push out)) := by
  induction h with
  | ret a => exact ⟨[], fun w Q _ => by rw [Wire.push_nil, always_ret, play_ret]⟩
  | @send data k _ ih =>
    obtain ⟨out, hout⟩ := ih (.ok ())
    refine ⟨data ++ out, fun w Q hw => ?_⟩
    rw [always_send hw, Process.play_call, ← Wire.push_push]
    exact hout (w.push data) Q hw
  | @loc op k _ ih =>
    obtain ⟨out, hout⟩ := ih (answer op)
    refine ⟨out, fun w Q hw => ?_⟩
    rw [Process.always_call, Process.play_call]
    constructor
    · intro h
      exact (hout w Q hw).mp (h.2 (answer op) w ⟨rfl, rfl⟩)
    · intro h
      refine ⟨⟨answer op, w, rfl, rfl⟩, ?_⟩
      intro r w' hr
      obtain ⟨rfl, rfl⟩ := hr
      exact (hout w' Q hw).mpr h

def Action.NoRecv {σ : Type} (m : Action (LinkOp L) (LinkOp.Answer ε A) ε σ α) : Prop :=
  ∀ s, (m s).NoRecv

section Action
variable {σ : Type} {m : Action (LinkOp L) (LinkOp.Answer ε A) ε σ α}

theorem Action.noRecv_pure (a : α) :
    (pure a : Action (LinkOp L) (LinkOp.Answer ε A) ε σ α).NoRecv := fun _ => .ret _

theorem Action.noRecv_fail (e : ε) :
    (fail e : Action (LinkOp L) (LinkOp.Answer ε A) ε σ α).NoRecv := fun _ => .ret _

theorem Action.noRecv_ofExcept (x : Except ε α) :
    (ofExcept x : Action (LinkOp L) (LinkOp.Answer ε A) ε σ α).NoRecv := fun _ => .ret _

theorem Action.noRecv_state :
    (state : Action (LinkOp L) (LinkOp.Answer ε A) ε σ σ).NoRecv := fun _ => .ret _

theorem Action.NoRecv.bind {f : α → Action (LinkOp L) (LinkOp.Answer ε A) ε σ β} (h : m.NoRecv)
    (hf : ∀ a, (f a).NoRecv) : (m >>= f).NoRecv := by
  intro s
  refine (h s).bind ?_
  intro out
  obtain ⟨x, t⟩ := out
  cases x with
  | ok a => exact hf a t
  | error e => exact .ret _

theorem Action.NoRecv.attempt (h : m.NoRecv) : m.attempt.NoRecv :=
  fun s => (h s).bind fun _ => .ret _

end Action
end NoRecv
end Lib
