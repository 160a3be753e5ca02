import Blockchain.ConfigJson

/-! White space between the tokens of a configuration object. The reader passes over it
everywhere but before the opening brace and between a key and its colon. -/
namespace Blockchain
open Lib JsonParser

/-- Space, tab, carriage return, newline. -/
def isJsonSpace (b : UInt8) : Bool := b == 32 || b == 9 || b == 13 || b == 10

def Gap := { ws : Bytes // ∀ b ∈ ws, isJsonSpace b = true }

def Gap.none : Gap := ⟨[], by simp⟩

def Gap.of (ws : Bytes) (h : ws.all isJsonSpace = true) : Gap := ⟨ws, List.all_eq_true.mp h⟩

inductive JsonValue where
  | text (value : Bytes) (plain : Plain value)
  | number (digits : Bytes) (valid : Digits digits) (nonempty : digits ≠ [])
  | flag (value : Bool)
  | null

def JsonValue.render : JsonValue → Bytes
  | .text value _ => byteOf '"' :: (value ++ [byteOf '"'])
  | .number digits _ _ => digits
  | .flag true => textBytes "true"
  | .flag false => textBytes "false"
  | .null => textBytes "null"

structure JsonMember where
  key : Bytes
  plain : Plain key
  value : JsonValue

structure MemberGaps where
  beforeKey : Gap := .none
  afterKey : Gap := .none
  beforeValue : Gap := .none
  afterValue : Gap := .none

def JsonMember.render (m : JsonMember) (gaps : MemberGaps) : Bytes :=
  gaps.beforeKey.val ++ byteOf '"' :: (m.key ++ byteOf '"' :: (gaps.afterKey.val ++ byteOf ':' ::
    (gaps.beforeValue.val ++ (m.value.render ++ gaps.afterValue.val))))

def renderMembers : List (JsonMember × MemberGaps) → Bytes
  | [] => []
  | [(m, gaps)] => m.render gaps
  | (m, gaps) :: next :: rest => m.render gaps ++ byteOf ',' :: renderMembers (next :: rest)

/-- The white space of an object; `inside` is between the braces of an empty one. -/
structure Spacing where
  before : Gap := .none
  inside : Gap := .none
  members : List MemberGaps
  after : Gap := .none

def Spacing.render (spacing : Spacing) (ms : List JsonMember) : Bytes :=
  spacing.before.val ++ byteOf '\x7b' ::
    ((if ms.isEmpty then spacing.inside.val else renderMembers (ms.zip spacing.members)) ++
      byteOf '\x7d' :: spacing.after.val)

def renderBare (ms : List JsonMember) : Bytes :=
  Spacing.render { members := List.replicate ms.length {} } ms

/-- No white space before the opening brace, none between a key and its colon. -/
def Spacing.Tight (spacing : Spacing) : Prop :=
  spacing.before.val = [] ∧ ∀ gaps ∈ spacing.members, gaps.afterKey.val = []

theorem isSpace_of_json {b : UInt8} (h : isJsonSpace b = true) : isSpace b = true := by
  simp only [isJsonSpace, Bool.or_eq_true, beq_iff_eq] at h
  obtain ((rfl | rfl) | rfl) | rfl := h <;> rfl

theorem Gap.spaces (gap : Gap) : ∀ b ∈ gap.val, isSpace b = true :=
  fun b hb => isSpace_of_json (gap.property b hb)

def JsonValue.read : JsonValue → Result ConfigValue
  | .text value _ => .ok (.text value)
  | .number digits _ _ => parseU64 digits "config" >>= fun n => .ok (.number n)
  | .flag value => .ok (.flag value)
  | .null => .ok (.text [])

section
variable {ws rest : Bytes}

theorem parseValue_text {value : Bytes} (hvalue : Plain value) (hws : ∀ b ∈ ws, isSpace b = true) :
    parseValue.run (ws ++ (byteOf '"' :: (value ++ byteOf '"' :: rest))) =
      .ok (.text value, rest) := by
  have hskip : skipWs.run (ws ++ (byteOf '"' :: (value ++ byteOf '"' :: rest))) =
      .ok ((), byteOf '"' :: (value ++ byteOf '"' :: rest)) :=
    skipWs_run hws (by simp; decide)
  have hget : ∀ input : Bytes, (get : JsonParser Bytes).run input = .ok (input, input) :=
    fun _ => rfl
  rw [parseValue, run_bind_of_ok hskip, run_bind_of_ok (hget _)]
  dsimp only
  rw [if_pos rfl, run_bind_of_ok (parseString_run hvalue rest)]
  rfl

theorem parseValue_flag (value : Bool) (hws : ∀ b ∈ ws, isSpace b = true) :
    parseValue.run (ws ++ ((JsonValue.flag value).render ++ rest)) = .ok (.flag value, rest) := by
  have hskip : skipWs.run (ws ++ ((JsonValue.flag value).render ++ rest)) =
      .ok ((), (JsonValue.flag value).render ++ rest) := by
    apply skipWs_run hws
    cases value <;> exact fun b hb => by cases hb; rfl
  rw [parseValue, run_bind_of_ok hskip]
  cases value <;> rfl

theorem parseValue_null (hws : ∀ b ∈ ws, isSpace b = true) :
    parseValue.run (ws ++ (JsonValue.null.render ++ rest)) = .ok (.text [], rest) := by
  have hskip : skipWs.run (ws ++ (JsonValue.null.render ++ rest)) =
      .ok ((), JsonValue.null.render ++ rest) :=
    skipWs_run hws fun b hb => by cases hb; rfl
  rw [parseValue, run_bind_of_ok hskip]
  rfl

theorem parseValue_render (value : JsonValue) (hws : ∀ b ∈ ws, isSpace b = true)
    (hstop : ∀ b ∈ rest.head?, isDigit b = false) :
    parseValue.run (ws ++ (value.render ++ rest)) =
      (value.read >>= fun read => .ok (read, rest)) := by
  cases value with
  | text value plain =>
    rw [JsonValue.render, List.cons_append, List.append_assoc]
    exact parseValue_text plain hws
  | number digits valid nonempty =>
    rw [JsonValue.render, parseValue_run valid nonempty hws hstop, JsonValue.read, bind_assoc]
    rfl
  | flag value => exact parseValue_flag value hws
  | null => exact parseValue_null hws

end

def JsonMember.apply (config : NodeConfig) (m : JsonMember) : Result NodeConfig :=
  m.value.read >>= applyConfigField config m.key

def readMembers (ms : List JsonMember) : Result NodeConfig := do
  let config ← ms.foldlM JsonMember.apply {}
  config.validate
  .ok config

theorem JsonMember.render_skip (m : JsonMember) (gaps : MemberGaps) (rest : Bytes) :
    (m.render gaps ++ rest).dropWhile isSpace =
      byteOf '"' :: (m.key ++ byteOf '"' :: (gaps.afterKey.val ++ byteOf ':' ::
        (gaps.beforeValue.val ++ (m.value.render ++ (gaps.afterValue.val ++ rest))))) := by
  have hstop : ∀ tail : Bytes, ∀ b ∈ (byteOf '"' :: tail).head?, isSpace b = false :=
    fun tail b hb => by cases hb; rfl
  rw [JsonMember.render, List.append_assoc, List.cons_append,
    dropWhile_span gaps.beforeKey.spaces (hstop _)]
  simp only [List.append_assoc, List.cons_append]

theorem memberTurn_render (m : JsonMember) {gaps : MemberGaps} (htight : gaps.afterKey.val = [])
    {sep : UInt8} (hspace : isSpace sep = false) (hdigit : isDigit sep = false) (rest : Bytes)
    (config : NodeConfig) :
    (memberTurn config).run ((m.render gaps ++ sep :: rest).dropWhile isSpace) =
      (m.apply config >>= fun config => (separate sep config).run rest) := by
  have hstop : ∀ b ∈ (gaps.afterValue.val ++ sep :: rest).head?, isDigit b = false :=
    head_after_blank gaps.afterValue.spaces hdigit
  have hread := parseValue_render m.value gaps.beforeValue.spaces hstop
  rw [JsonMember.render_skip, htight, List.nil_append,
    memberTurn_parts m.plain gaps.afterValue.spaces hspace hread, JsonMember.apply, bind_assoc]

theorem expect_gap {gap : Gap} (hgap : gap.val ≠ []) {expected : UInt8}
    (hexpected : isSpace expected = false) (rest : Bytes) :
    ∃ e, (expect expected).run (gap.val ++ rest) = .error e := by
  obtain ⟨b, tail, hcons⟩ := List.exists_cons_of_ne_nil hgap
  have hb : isSpace b = true := gap.spaces b (by rw [hcons]; exact List.mem_cons_self)
  have hne : b ≠ expected := by
    intro heq
    rw [heq, hexpected] at hb
    exact Bool.false_ne_true hb
  rw [hcons, List.cons_append, expect, run_bind_of_ok (consume_cons _ _), if_pos hne]
  exact ⟨_, rfl⟩

theorem memberTurn_gap (m : JsonMember) {gaps : MemberGaps} (hgap : gaps.afterKey.val ≠ [])
    (rest : Bytes) (config : NodeConfig) :
    ∃ e, (memberTurn config).run ((m.render gaps ++ rest).dropWhile isSpace) = .error e := by
  obtain ⟨e, hcolon⟩ := expect_gap hgap (by decide : isSpace (byteOf ':') = false) (byteOf ':' ::
    (gaps.beforeValue.val ++ (m.value.render ++ (gaps.afterValue.val ++ rest))))
  rw [JsonMember.render_skip, memberTurn, run_bind_of_ok (parseString_run m.plain _),
    StateT.run_bind, hcolon]
  exact ⟨e, rfl⟩

section
variable (first : JsonMember × MemberGaps) (rest : Bytes) (config : NodeConfig)

theorem last_turn (htight : first.2.afterKey.val = []) :
    (memberTurn config).run
        ((renderMembers [first] ++ byteOf '\x7d' :: rest).dropWhile isSpace) =
      (first.1.apply config >>= fun config => .ok (.inr config, rest)) :=
  memberTurn_render first.1 htight (by decide) (by decide) rest config

theorem renderMembers_cons (second : JsonMember × MemberGaps)
    (more : List (JsonMember × MemberGaps)) :
    renderMembers (first :: second :: more) ++ rest =
      first.1.render first.2 ++ byteOf ',' :: (renderMembers (second :: more) ++ rest) := by
  rw [renderMembers, List.append_assoc, List.cons_append]

theorem next_turn (second : JsonMember × MemberGaps) (more : List (JsonMember × MemberGaps))
    (htight : first.2.afterKey.val = []) :
    (memberTurn config).run ((renderMembers (first :: second :: more) ++ rest).dropWhile isSpace) =
      (first.1.apply config >>= fun config =>
        .ok (.inl config, (renderMembers (second :: more) ++ rest).dropWhile isSpace)) := by
  rw [renderMembers_cons]
  exact memberTurn_render first.1 htight (by decide) (by decide) _ config

theorem loop_members (more : List (JsonMember × MemberGaps))
    (htight : ∀ p ∈ first :: more, p.2.afterKey.val = []) :
    (loop memberTurn memberTurn_progresses config).run
        ((renderMembers (first :: more) ++ byteOf '\x7d' :: rest).dropWhile isSpace) =
      (((first :: more).map Prod.fst).foldlM JsonMember.apply config >>= fun config =>
        .ok (config, rest)) := by
  -- on the members behind the first: a turn reads one member and the comma after it
  induction more generalizing first config with
  | nil =>
    have hturn := last_turn first rest config (htight first List.mem_cons_self)
    rw [List.map_cons, List.map_nil, List.foldlM_cons]
    cases happly : first.1.apply config with
    | error e =>
      rw [happly, error_bind] at hturn
      rw [loop_error hturn, error_bind, error_bind]
    | ok config' =>
      rw [happly, ok_bind] at hturn
      rw [loop_done hturn, ok_bind, List.foldlM_nil, pure_eq_ok, ok_bind]
  | cons second more ih =>
    have hturn := next_turn first (byteOf '\x7d' :: rest) config second more
      (htight first List.mem_cons_self)
    rw [List.map_cons, List.foldlM_cons]
    cases happly : first.1.apply config with
    | error e =>
      rw [happly, error_bind] at hturn
      rw [loop_error hturn, error_bind, error_bind]
    | ok config' =>
      rw [happly, ok_bind] at hturn
      rw [loop_again hturn, ok_bind, ih second config' fun p hp =>
        htight p (List.mem_cons_of_mem _ hp)]

theorem gap_turn (more : List (JsonMember × MemberGaps)) (hgap : first.2.afterKey.val ≠ []) :
    ∃ e, (memberTurn config).run ((renderMembers (first :: more) ++ rest).dropWhile isSpace) =
      .error e := by
  cases more with
  | nil => exact memberTurn_gap first.1 hgap rest config
  | cons second more =>
    rw [renderMembers_cons]
    exact memberTurn_gap first.1 hgap _ config

theorem loop_gap (more : List (JsonMember × MemberGaps))
    (hgap : ∃ p ∈ first :: more, p.2.afterKey.val ≠ []) :
    ∃ e, (loop memberTurn memberTurn_progresses config).run
      ((renderMembers (first :: more) ++ rest).dropWhile isSpace) = .error e := by
  induction more generalizing first config with
  | nil =>
    have hfirst : first.2.afterKey.val ≠ [] := by simpa using hgap
    obtain ⟨e, hturn⟩ := gap_turn first rest config [] hfirst
    exact ⟨e, loop_error hturn⟩
  | cons second more ih =>
    by_cases htight : first.2.afterKey.val = []
    · have hlater : ∃ p ∈ second :: more, p.2.afterKey.val ≠ [] := by
        obtain ⟨p, hp, hne⟩ := hgap
        cases List.mem_cons.mp hp with
        | inl heq => exact absurd (heq ▸ htight) hne
        | inr hmem => exact ⟨p, hmem, hne⟩
      have hturn := next_turn first rest config second more htight
      -- a member before the gap may be refused first, which is an error as well
      cases happly : first.1.apply config with
      | error e =>
        rw [happly, error_bind] at hturn
        exact ⟨e, loop_error hturn⟩
      | ok config' =>
        rw [happly, ok_bind] at hturn
        rw [loop_again hturn]
        exact ih second config' hlater
    · obtain ⟨e, hturn⟩ := gap_turn first rest config (second :: more) htight
      exact ⟨e, loop_error hturn⟩

end

section
variable {spacing : Spacing} {ms : List JsonMember}

theorem zip_cons_of_length (hlen : ms.length = spacing.members.length) (hne : ms ≠ []) :
    ∃ first more, ms.zip spacing.members = first :: more := by
  apply List.exists_cons_of_ne_nil
  intro hnil
  have hzero := congrArg List.length hnil
  rw [List.length_zip, ← hlen, Nat.min_self, List.length_nil, List.length_eq_zero_iff] at hzero
  exact hne hzero

theorem renderMembers_open (first : JsonMember × MemberGaps)
    (more : List (JsonMember × MemberGaps)) (rest : Bytes) :
    ∃ object, renderMembers (first :: more) ++ rest =
      first.2.beforeKey.val ++ byteOf '"' :: object := by
  cases more with
  | nil =>
    rw [renderMembers, JsonMember.render, List.append_assoc, List.cons_append]
    exact ⟨_, rfl⟩
  | cons second more =>
    rw [renderMembers_cons, JsonMember.render, List.append_assoc, List.cons_append]
    exact ⟨_, rfl⟩

theorem parseObject_members {first : JsonMember × MemberGaps}
    {more : List (JsonMember × MemberGaps)} (hbefore : spacing.before.val = []) (hne : ms ≠ [])
    (hzip : ms.zip spacing.members = first :: more) :
    (parseObject {}).run (spacing.render ms) = (loop memberTurn memberTurn_progresses {}).run
      ((renderMembers (first :: more) ++ byteOf '\x7d' :: spacing.after.val).dropWhile
        isSpace) := by
  obtain ⟨object, hobject⟩ :=
    renderMembers_open first more (byteOf '\x7d' :: spacing.after.val)
  have hstop : ∀ b ∈ (byteOf '"' :: object).head?, isSpace b = false :=
    fun b hb => by cases hb; rfl
  rw [Spacing.render, hbefore, List.nil_append, if_neg (by simpa using hne), hzip, hobject,
    parseObject_single first.2.beforeKey.spaces, dropWhile_span first.2.beforeKey.spaces hstop]

theorem parseObject_empty (hbefore : spacing.before.val = []) :
    (parseObject {}).run (spacing.render []) = .ok ({}, spacing.after.val) := by
  have hstop : ∀ b ∈ (byteOf '\x7d' :: spacing.after.val).head?, isSpace b = false :=
    fun b hb => by cases hb; rfl
  rw [Spacing.render, hbefore, List.nil_append, parseObject, run_bind_of_ok (expect_run _ _),
    List.isEmpty_nil, if_pos rfl, run_bind_of_ok (skipWs_run spacing.inside.spaces hstop)]
  rfl

theorem parseConfigJson_of_object {json : Bytes} {read : Result NodeConfig} (after : Gap)
    (h : (parseObject {}).run json = (read >>= fun config => .ok (config, after.val))) :
    parseConfigJson json = (do
      let config ← read
      config.validate
      .ok config) := by
  have hend : (after.val ++ []).dropWhile isSpace = [] := dropWhile_span after.spaces (by simp)
  rw [List.append_nil] at hend
  rw [parseConfigJson, h]
  cases read with
  | error e => rfl
  | ok config => simp only [ok_bind, hend, List.isEmpty_nil, not_true_eq_false, if_false]

theorem Spacing.Tight.parse (h : spacing.Tight) (hlen : ms.length = spacing.members.length) :
    parseConfigJson (spacing.render ms) = readMembers ms := by
  obtain ⟨hbefore, hkeys⟩ := h
  apply parseConfigJson_of_object spacing.after
  by_cases hne : ms = []
  · subst hne
    exact parseObject_empty hbefore
  · obtain ⟨first, more, hzip⟩ := zip_cons_of_length hlen hne
    have htight : ∀ p ∈ first :: more, p.2.afterKey.val = [] := by
      intro p hp
      rw [← hzip] at hp
      exact hkeys p.2 (List.of_mem_zip hp).2
    have hmembers : (first :: more).map Prod.fst = ms := by
      rw [← hzip, List.map_fst_zip hlen.le]
    rw [parseObject_members hbefore hne hzip, loop_members _ _ _ _ htight, hmembers]

theorem Spacing.refused (h : ¬ spacing.Tight) (hlen : ms.length = spacing.members.length) :
    ∃ e, parseConfigJson (spacing.render ms) = .error e := by
  have hobject : ∃ e, (parseObject {}).run (spacing.render ms) = .error e := by
    by_cases hbefore : spacing.before.val = []
    · have hgap : ∃ gaps ∈ spacing.members, gaps.afterKey.val ≠ [] := by
        by_contra hnone
        push Not at hnone
        exact h ⟨hbefore, hnone⟩
      obtain ⟨gaps, hgaps, hspace⟩ := hgap
      have hne : ms ≠ [] := by
        intro hnil
        rw [hnil, List.length_nil] at hlen
        rw [List.eq_nil_of_length_eq_zero hlen.symm] at hgaps
        exact List.not_mem_nil hgaps
      obtain ⟨first, more, hzip⟩ := zip_cons_of_length hlen hne
      have hlater : ∃ p ∈ first :: more, p.2.afterKey.val ≠ [] := by
        rw [← List.map_snd_zip hlen.ge, hzip] at hgaps
        obtain ⟨p, hp, rfl⟩ := List.mem_map.mp hgaps
        exact ⟨p, hp, hspace⟩
      rw [parseObject_members hbefore hne hzip]
      exact loop_gap _ _ _ _ hlater
    · obtain ⟨e, hopen⟩ := expect_gap hbefore (by decide : isSpace (byteOf '\x7b') = false)
        (byteOf '\x7b' :: ((if ms.isEmpty then spacing.inside.val
          else renderMembers (ms.zip spacing.members)) ++ byteOf '\x7d' :: spacing.after.val))
      rw [Spacing.render, parseObject, StateT.run_bind, hopen]
      exact ⟨e, rfl⟩
  obtain ⟨e, hrun⟩ := hobject
  rw [parseConfigJson, hrun]
  exact ⟨e, rfl⟩

end

theorem renderBare_parse (ms : List JsonMember) :
    parseConfigJson (renderBare ms) = readMembers ms := by
  have htight : Spacing.Tight { members := List.replicate ms.length {} } :=
    ⟨rfl, fun gaps hgaps => by rw [List.eq_of_mem_replicate hgaps]; rfl⟩
  exact htight.parse (by simp)

/-- White space leaves the outcome of a document as it is exactly when there is none before
the opening brace and none between a key and its colon, or when the members are refused
anyway. -/
theorem whitespace_insensitive_iff (spacing : Spacing) (ms : List JsonMember)
    (hlen : ms.length = spacing.members.length) :
    (parseConfigJson (spacing.render ms)).toOption = (parseConfigJson (renderBare ms)).toOption ↔
      (spacing.before.val = [] ∧ ∀ gaps ∈ spacing.members, gaps.afterKey.val = []) ∨
        ∃ e, readMembers ms = .error e := by
  rw [renderBare_parse]
  by_cases htight : spacing.Tight
  · rw [htight.parse hlen]
    exact ⟨fun _ => .inl htight, fun _ => rfl⟩
  · obtain ⟨e, hrefused⟩ := Spacing.refused htight hlen
    rw [hrefused]
    cases hread : readMembers ms with
    | error e' => exact ⟨fun _ => .inr ⟨e', rfl⟩, fun _ => rfl⟩
    | ok config =>
      constructor
      · intro hsame
        cases hsame
      · intro h
        obtain h | ⟨e', he⟩ := h
        · exact absurd h htight
        · cases he

/-- A member on a line of its own, as the example configurations are written. -/
def onOwnLine : MemberGaps where
  beforeKey := .of [10, 32, 32] rfl
  beforeValue := .of [32] rfl

def indented : Spacing where
  members := [onOwnLine, { onOwnLine with afterValue := .of [10] rfl }]
  after := .of [10] rfl

def comment : JsonMember := ⟨textBytes "_", by decide, .null⟩

def nodeNamed : JsonMember := ⟨textBytes "node_id", by decide, .text (textBytes "x") (by decide)⟩

def bogus : JsonMember := ⟨textBytes "bogus", by decide, .number [49] (by decide) (by decide)⟩

def beforeSecondColon : Spacing where
  members := [{}, { afterKey := .of [32] rfl }]

/-- Indentation changes nothing; nor does a gap before a colon, after a member that is
refused. -/
theorem indented_insensitive :
    (parseConfigJson (indented.render [comment, nodeNamed])).toOption =
      (parseConfigJson (renderBare [comment, nodeNamed])).toOption ∧
    (parseConfigJson (beforeSecondColon.render [bogus, nodeNamed])).toOption =
      (parseConfigJson (renderBare [bogus, nodeNamed])).toOption := by
  have htight : ∀ gaps ∈ indented.members, gaps.afterKey.val = [] := by
    simp [indented, onOwnLine, Gap.none]
  have hrefused : ∃ e, readMembers [bogus, nodeNamed] = .error e := ⟨_, rfl⟩
  exact ⟨(whitespace_insensitive_iff indented _ rfl).mpr (.inl ⟨rfl, htight⟩),
    (whitespace_insensitive_iff beforeSecondColon _ rfl).mpr (.inr hrefused)⟩

def beforeColon : Spacing where
  members := [{ afterKey := .of [32] rfl }]

theorem space_before_colon_refused :
    beforeColon.render [nodeNamed] = textBytes "\x7b\"node_id\" :\"x\"\x7d" ∧
      (∃ e, parseConfigJson (beforeColon.render [nodeNamed]) = .error e) ∧
      renderBare [nodeNamed] = textBytes "\x7b\"node_id\":\"x\"\x7d" ∧
      parseConfigJson (renderBare [nodeNamed]) = .ok { nodeId := textBytes "x" } ∧
      parseConfigJson (textBytes " \x7b\x7d") =
        makeError .invalidConfig "expected '\x7b' in JSON config" ∧
      parseConfigJson (textBytes "\x7b\x7d") = .ok {} := by
  have hloose : ¬ beforeColon.Tight := by simp [Spacing.Tight, beforeColon, Gap.of]
  refine ⟨by decide, Spacing.refused hloose rfl, by decide, ?_, rfl, rfl⟩
  rw [renderBare_parse]
  rfl

end Blockchain
