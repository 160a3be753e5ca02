import Blockchain.NodeConfig
import Blockchain.SocketIo

/-! Configuration from a JSON object. The parser's position is the input that is left. -/
namespace Blockchain
open Lib

def byteOf (ch : Char) : UInt8 := UInt8.ofNat ch.toNat

def isSpace (b : UInt8) : Bool := b == 32 || (9 ≤ b && b ≤ 13)

inductive ConfigValue where
  | text (value : Bytes)
  | number (value : UInt64)
  | flag (value : Bool)

def isIgnoredKey (key : Bytes) : Bool := key.head? == some (byteOf '_')

def unknownKey (key : Bytes) : Result NodeConfig :=
  makeError .invalidConfig ("unknown config key: '" ++ bytesText key ++ "'")

def applyStringField (config : NodeConfig) (key value : Bytes) : Result NodeConfig :=
  if key = textBytes "node_id" then .ok { config with nodeId := value }
  else if key = textBytes "data_dir" then .ok { config with dataDir := value }
  else if key = textBytes "log_level" then do
    let level ← parseLogLevel value
    .ok { config with logLevel := level }
  else if key = textBytes "coinbase_recipient_hex" then
    .ok { config with coinbaseRecipientHex := value }
  else if key = textBytes "listen_host" then .ok { config with listenHost := value }
  else if key = textBytes "port_file" then .ok { config with portFile := value }
  else if key = textBytes "network_mode" then do
    let mode ← parseNetworkMode value
    .ok { config with networkMode := mode }
  else if key = textBytes "peer" then
    if value.isEmpty then .ok { config with peerHost := [], peerPort := 0 }
    else do
      let endpoint ← parseTcpEndpoint value
      .ok { config with peerHost := endpoint.host, peerPort := endpoint.port }
  else unknownKey key

def applyUintField (config : NodeConfig) (key : Bytes) (value : UInt64) : Result NodeConfig :=
  if key = textBytes "genesis_timestamp" then .ok { config with genesisTimestamp := value }
  else if key = textBytes "block_subsidy" then .ok { config with blockSubsidy := value }
  else if key = textBytes "max_block_size_bytes" then
    .ok { config with maxBlockSizeBytes := value.toUInt32 }
  else if key = textBytes "mine_blocks" then .ok { config with mineBlocks := value.toUInt32 }
  else if key = textBytes "mine_after_tx" then .ok { config with mineAfterTx := value.toUInt32 }
  else if key = textBytes "relay_max_sessions" then
    .ok { config with relayMaxSessions := value.toUInt32 }
  else if key = textBytes "mempool_max_transactions" then
    .ok { config with mempoolMaxTransactions := value.toUInt32 }
  else if key = textBytes "mempool_max_bytes" then .ok { config with mempoolMaxBytes := value }
  else if key = textBytes "min_relay_feerate" then .ok { config with minRelayFeerate := value }
  else if key = textBytes "coinbase_maturity" then
    .ok { config with coinbaseMaturity := value.toUInt32 }
  else if key = textBytes "listen_port" then
    if value > 65535 then makeError .invalidConfig "listen_port out of range"
    else .ok { config with listenPort := value.toUInt16, listenEnabled := true }
  else unknownKey key

def applyBoolField (config : NodeConfig) (key : Bytes) (value : Bool) : Result NodeConfig :=
  if key = textBytes "persist" then .ok { config with persist := value }
  else if key = textBytes "restore" then .ok { config with restore := value }
  else unknownKey key

def applyConfigField (config : NodeConfig) (key : Bytes) (value : ConfigValue) :
    Result NodeConfig :=
  if isIgnoredKey key then .ok config
  else
    match value with
    | .text value => applyStringField config key value
    | .flag value => applyBoolField config key value
    | .number value => applyUintField config key value

/-- Both readers of configurations have a `parse_u64`; they differ in the message. -/
def readU64 (text : Bytes) (detail : String) : Result UInt64 :=
  match fromChars 64 text with
  | some (value, []) => .ok (UInt64.ofNat value)
  | _ => makeError .invalidConfig detail

theorem readU64_digits {text : Bytes} {detail : String} {n : UInt64} (h : Digits text) :
    readU64 text detail = .ok n ↔
      text ≠ [] ∧ decimalValue text < 2 ^ 64 ∧ n = UInt64.ofNat (decimalValue text) := by
  have hread : readU64 text detail = .ok n ↔
      ∃ value, fromChars 64 text = some (value, []) ∧ n = UInt64.ofNat value := by
    rw [readU64]
    split <;> simp_all [eq_comm]
  simp only [hread, fromChars_digits h]
  exact ⟨fun ⟨value, ⟨hne, hlt, heq⟩, hn⟩ => ⟨hne, hlt, heq ▸ hn⟩,
    fun ⟨hne, hlt, hn⟩ => ⟨_, ⟨hne, hlt, rfl⟩, hn⟩⟩

abbrev JsonParser (α : Type) := Decoder Error α

namespace JsonParser

def fail {α : Type} (detail : String) : JsonParser α := throw ⟨.invalidConfig, detail⟩

def peek : JsonParser UInt8 := do
  match ← get with
  | [] => fail "unexpected end of JSON input"
  | ch :: _ => return ch

def consume : JsonParser UInt8 := do
  let ch ← peek
  modify List.tail
  return ch

def skipWs : JsonParser Unit := modify (List.dropWhile isSpace)

def expect (expected : UInt8) : JsonParser Unit := do
  let ch ← consume
  if ch ≠ expected then fail ("expected '" ++ bytesText [expected] ++ "' in JSON config")

def stringTurn (out : Bytes) : JsonParser (Bytes ⊕ Bytes) := do
  let ch ← consume
  if ch = byteOf '"' then return .inr out
  else if ch = byteOf '\\' then fail "JSON config strings may not use escapes"
  else return .inl (out ++ [ch])

@[simp] theorem consume_cons (ch : UInt8) (rest : Bytes) :
    consume.run (ch :: rest) = .ok (ch, rest) :=
  rfl

theorem consume_progresses : Progresses consume := by
  intro input ch rest h
  cases input with
  | nil => cases h
  | cons ch' input =>
    cases h
    exact Nat.lt_succ_self _

theorem drop_nonGrowing (n : Nat) : NonGrowing (modify (List.drop n) : JsonParser Unit) :=
  nonGrowing_modify fun _ => (List.drop_sublist _ _).length_le

theorem dropWhile_nonGrowing (p : UInt8 → Bool) :
    NonGrowing (modify (List.dropWhile p) : JsonParser Unit) :=
  nonGrowing_modify fun _ => (List.dropWhile_sublist p).length_le

theorem expect_progresses (expected : UInt8) : Progresses (expect expected) :=
  consume_progresses.bind fun _ => nonGrowing_ite (nonGrowing_throw _) (nonGrowing_pure _)

theorem stringTurn_progresses (out : Bytes) : Progresses (stringTurn out) :=
  consume_progresses.bind fun _ => nonGrowing_ite (nonGrowing_pure _)
    (nonGrowing_ite (nonGrowing_throw _) (nonGrowing_pure _))

def parseString : JsonParser Bytes := do
  expect (byteOf '"')
  loop stringTurn stringTurn_progresses []

def parseU64 (text : Bytes) (label : String) : Result UInt64 :=
  readU64 text ("invalid unsigned integer for " ++ label)

def parseUint : JsonParser UInt64 := do
  skipWs
  let input ← get
  if input.isEmpty then fail "expected JSON number"
  else if input.head? = some (byteOf '-') then fail "JSON config numbers must be unsigned"
  else
    modify (List.dropWhile isDigit)
    let digits := input.takeWhile isDigit
    if digits.isEmpty then fail "expected JSON number"
    else StateT.lift (parseU64 digits "config")

def parseBool : JsonParser Bool := do
  skipWs
  let input ← get
  if input.take 4 = textBytes "true" then
    modify (List.drop 4)
    return true
  else if input.take 5 = textBytes "false" then
    modify (List.drop 5)
    return false
  else fail "expected JSON boolean"

def parseValue : JsonParser ConfigValue := do
  skipWs
  match ← get with
  | [] => fail "expected JSON value"
  | ch :: input =>
    if ch = byteOf '"' then
      return .text (← parseString)
    else if ch = byteOf 't' ∨ ch = byteOf 'f' then
      return .flag (← parseBool)
    else if ch = byteOf 'n' then
      if (ch :: input).take 4 = textBytes "null" then
        modify (List.drop 4)
        return .text []
      else fail "null is not a supported config value"
    else if isDigit ch then
      return .number (← parseUint)
    else fail "unsupported JSON value in config"

/-- One member of the object and what separates it from the next. -/
def memberTurn (config : NodeConfig) : JsonParser (NodeConfig ⊕ NodeConfig) := do
  let key ← parseString
  -- no white space is skipped here
  expect (byteOf ':')
  let value ← parseValue
  let config ← StateT.lift (applyConfigField config key value)
  skipWs
  let sep ← consume
  if sep = byteOf '\x7d' then return .inr config
  else if sep ≠ byteOf ',' then fail "expected ',' or '\x7d' in JSON config"
  else
    skipWs
    return .inl config

theorem parseString_progresses : Progresses parseString :=
  (expect_progresses _).bind fun _ => loop_nonGrowing _ _

theorem parseUint_nonGrowing : NonGrowing parseUint := by
  refine (dropWhile_nonGrowing _).bind fun _ => nonGrowing_get.bind fun input => ?_
  refine nonGrowing_ite (nonGrowing_throw _) (nonGrowing_ite (nonGrowing_throw _) ?_)
  exact (dropWhile_nonGrowing _).bind fun _ => nonGrowing_ite (nonGrowing_throw _)
    (nonGrowing_lift _)

theorem parseBool_nonGrowing : NonGrowing parseBool := by
  refine (dropWhile_nonGrowing _).bind fun _ => nonGrowing_get.bind fun input => ?_
  refine nonGrowing_ite ((drop_nonGrowing 4).bind fun _ => nonGrowing_pure _) ?_
  exact nonGrowing_ite ((drop_nonGrowing 5).bind fun _ => nonGrowing_pure _) (nonGrowing_throw _)

theorem parseValue_nonGrowing : NonGrowing parseValue := by
  refine (dropWhile_nonGrowing _).bind fun _ => nonGrowing_get.bind fun input => ?_
  cases input with
  | nil => exact nonGrowing_throw _
  | cons ch input =>
    refine nonGrowing_ite (parseString_progresses.nonGrowing.bind fun _ => nonGrowing_pure _) ?_
    refine nonGrowing_ite (parseBool_nonGrowing.bind fun _ => nonGrowing_pure _) ?_
    refine nonGrowing_ite (nonGrowing_ite ?_ (nonGrowing_throw _)) ?_
    · exact (drop_nonGrowing 4).bind fun _ => nonGrowing_pure _
    · exact nonGrowing_ite (parseUint_nonGrowing.bind fun _ => nonGrowing_pure _)
        (nonGrowing_throw _)

theorem memberTurn_progresses (config : NodeConfig) : Progresses (memberTurn config) := by
  refine parseString_progresses.bind fun key => ?_
  refine (expect_progresses _).nonGrowing.bind fun _ => parseValue_nonGrowing.bind fun value => ?_
  refine (nonGrowing_lift _).bind fun config => (dropWhile_nonGrowing _).bind fun _ => ?_
  refine consume_progresses.nonGrowing.bind fun sep => ?_
  refine nonGrowing_ite (nonGrowing_pure _) (nonGrowing_ite (nonGrowing_throw _) ?_)
  exact (dropWhile_nonGrowing _).bind fun _ => nonGrowing_pure _

def parseObject (config : NodeConfig) : JsonParser NodeConfig := do
  expect (byteOf '\x7b')
  skipWs
  if (← get).head? = some (byteOf '\x7d') then
    expect (byteOf '\x7d')
    return config
  else loop memberTurn memberTurn_progresses config

end JsonParser

def parseConfigJson (json : Bytes) : Result NodeConfig := do
  let (config, rest) ← (JsonParser.parseObject {}).run json
  if ¬ (rest.dropWhile isSpace).isEmpty then
    makeError .invalidConfig "trailing data after JSON config object"
  else do
    config.validate
    .ok config

def kMaxConfigFileBytes : Nat := 64 * 1024

/-- What the file system makes of a path. -/
inductive ConfigFile where
  | missing
  | sizeless
  | unreadable (size : Nat)
  | readable (bytes : Bytes)

def loadConfigFile (files : Bytes → ConfigFile) (path : Bytes) : Result NodeConfig :=
  match files path with
  | .missing => makeError .invalidConfig ("cannot open config file: " ++ bytesText path)
  | .sizeless => makeError .invalidConfig "config file size is invalid"
  | .unreadable size =>
    if size > kMaxConfigFileBytes then
      makeError .resourceLimitExceeded "config file is too large"
    else makeError .invalidConfig "config file read failed"
  | .readable bytes =>
    if bytes.length > kMaxConfigFileBytes then
      makeError .resourceLimitExceeded "config file is too large"
    else parseConfigJson bytes

/-! Objects with one numeric member. -/

def Blank := { ws : Bytes // ∀ b ∈ ws, isSpace b = true }

def Blank.none : Blank := ⟨[], by simp⟩

/-- The spaces around the parts of an object with one member. -/
structure Layout where
  afterBrace : Blank := .none
  afterColon : Blank := .none
  afterValue : Blank := .none
  afterObject : Blank := .none

def Layout.object (layout : Layout) (key value : Bytes) : Bytes :=
  byteOf '\x7b' :: (layout.afterBrace.val ++ byteOf '"' :: (key ++ byteOf '"' :: byteOf ':' ::
    (layout.afterColon.val ++ (value ++
      (layout.afterValue.val ++ byteOf '\x7d' :: layout.afterObject.val)))))

namespace JsonParser
section
variable {ws rest : Bytes}

theorem skipWs_run (hws : ∀ b ∈ ws, isSpace b = true)
    (hstop : ∀ b ∈ rest.head?, isSpace b = false) :
    skipWs.run (ws ++ rest) = .ok ((), rest) := by
  have hdrop : (ws ++ rest).dropWhile isSpace = rest := dropWhile_span hws hstop
  exact congrArg (fun left => Except.ok ((), left)) hdrop

theorem expect_run (ch : UInt8) (rest : Bytes) : (expect ch).run (ch :: rest) = .ok ((), rest) := by
  rw [expect, run_bind_of_ok (consume_cons ch rest)]
  simp

theorem isSpace_digit {ch : UInt8} (h : isDigit ch = true) : isSpace ch = false := by
  simp only [isDigit, Bool.and_eq_true, decide_eq_true_eq, UInt8.le_iff_toNat_le,
    UInt8.reduceToNat] at h
  have hblank : ch ≠ 32 := by
    intro heq
    subst heq
    simp at h
  have htab : ¬ ch ≤ 13 := by
    simp only [UInt8.le_iff_toNat_le, UInt8.reduceToNat]
    omega
  simp [isSpace, hblank, htab]

theorem isDigit_space {ch : UInt8} (h : isSpace ch = true) : isDigit ch = false := by
  by_contra hdigit
  rw [isSpace_digit (Bool.eq_true_of_not_eq_false hdigit)] at h
  exact Bool.false_ne_true h

theorem ne_of_isDigit {ch other : UInt8} (h : isDigit ch = true) (hother : isDigit other = false) :
    ch ≠ other := by
  intro heq
  rw [heq, hother] at h
  exact absurd h Bool.false_ne_true

def Plain (key : Bytes) : Prop := ∀ b ∈ key, b ≠ byteOf '"' ∧ b ≠ byteOf '\\'

instance (key : Bytes) : Decidable (Plain key) :=
  decidable_of_iff (key.all (fun b => b ≠ byteOf '"' ∧ b ≠ byteOf '\\') = true) (by simp [Plain])

theorem stringLoop_run {key : Bytes} (hkey : Plain key) (out rest : Bytes) :
    (loop stringTurn stringTurn_progresses out).run (key ++ byteOf '"' :: rest) =
      .ok (out ++ key, rest) := by
  induction key generalizing out with
  | nil =>
    apply loop_done
    rw [List.nil_append, stringTurn, run_bind_of_ok (consume_cons _ _), if_pos rfl, List.append_nil]
    rfl
  | cons ch key ih =>
    obtain ⟨⟨hquote, hslash⟩, hkey⟩ := List.forall_mem_cons.mp hkey
    have hturn : (stringTurn out).run (ch :: (key ++ byteOf '"' :: rest)) =
        .ok (.inl (out ++ [ch]), key ++ byteOf '"' :: rest) := by
      rw [stringTurn, run_bind_of_ok (consume_cons _ _), if_neg hquote, if_neg hslash]
      rfl
    rw [List.cons_append, loop_again hturn, ih hkey, List.append_assoc]
    rfl

theorem parseString_run {key : Bytes} (hkey : Plain key) (rest : Bytes) :
    parseString.run (byteOf '"' :: (key ++ byteOf '"' :: rest)) = .ok (key, rest) := by
  rw [parseString, run_bind_of_ok (expect_run _ _), stringLoop_run hkey, List.nil_append]

/-- What follows a member makes the configuration final or asks for another member. -/
def separate (sep : UInt8) (config : NodeConfig) : JsonParser (NodeConfig ⊕ NodeConfig) :=
  if sep = byteOf '\x7d' then return .inr config
  else if sep ≠ byteOf ',' then fail "expected ',' or '\x7d' in JSON config"
  else do
    skipWs
    return .inl config

theorem memberTurn_parts {key valueText afterValue : Bytes} {sep : UInt8}
    {read : Result ConfigValue} {config : NodeConfig} (hkey : Plain key)
    (hblank : ∀ b ∈ afterValue, isSpace b = true) (hsep : isSpace sep = false)
    (hread : parseValue.run valueText =
      (read >>= fun value => .ok (value, afterValue ++ sep :: rest))) :
    (memberTurn config).run (byteOf '"' :: (key ++ byteOf '"' :: byteOf ':' :: valueText)) =
      (read >>= fun value => applyConfigField config key value >>= fun config =>
        (separate sep config).run rest) := by
  have hskip : skipWs.run (afterValue ++ sep :: rest) = .ok ((), sep :: rest) :=
    skipWs_run hblank (by simpa using hsep)
  rw [memberTurn, run_bind_of_ok (parseString_run hkey _), run_bind_of_ok (expect_run _ _),
    StateT.run_bind, hread]
  cases read with
  | error e => rfl
  | ok value =>
    simp only [ok_bind]
    cases hfield : applyConfigField config key value with
    | error e => rfl
    | ok config' =>
      have hlift : (StateT.lift (.ok config') : JsonParser NodeConfig).run
          (afterValue ++ sep :: rest) =
          .ok (config', afterValue ++ sep :: rest) := rfl
      rw [run_bind_of_ok hlift, run_bind_of_ok hskip, run_bind_of_ok (consume_cons _ _)]
      rfl

theorem head_after_blank {blank : Bytes} {ch : UInt8} (hblank : ∀ b ∈ blank, isSpace b = true)
    (hch : isDigit ch = false) : ∀ b ∈ (blank ++ ch :: rest).head?, isDigit b = false := by
  cases blank with
  | nil => simpa using hch
  | cons b blank => simpa using isDigit_space (hblank b List.mem_cons_self)

section
variable {digits : Bytes} (hdigits : Digits digits) (hne : digits ≠ [])
include hdigits hne

theorem digits_head : ∃ ch tail, digits = ch :: tail ∧ isDigit ch = true := by
  cases digits with
  | nil => exact absurd rfl hne
  | cons ch tail => exact ⟨ch, tail, rfl, hdigits ch List.mem_cons_self⟩

theorem parseUint_run (hstop : ∀ b ∈ rest.head?, isDigit b = false) :
    parseUint.run (digits ++ rest) = (parseU64 digits "config" >>= fun n => .ok (n, rest)) := by
  have htake : (digits ++ rest).takeWhile isDigit = digits := takeWhile_span hdigits hstop
  have hdrop : (digits ++ rest).dropWhile isDigit = rest := dropWhile_span hdigits hstop
  obtain ⟨ch, tail, hcons, hch⟩ := digits_head hdigits hne
  have hspace : ∀ b ∈ (digits ++ rest).head?, isSpace b = false := by
    simpa [hcons] using isSpace_digit hch
  have hempty : (digits ++ rest).isEmpty = false := by simp [hcons]
  have hminus : (digits ++ rest).head? ≠ some (byteOf '-') := by
    simpa [hcons] using ne_of_isDigit hch rfl
  have hskip : skipWs.run ([] ++ (digits ++ rest)) = .ok ((), digits ++ rest) :=
    skipWs_run (by simp) hspace
  rw [List.nil_append] at hskip
  have hget : (get : JsonParser Bytes).run (digits ++ rest) =
      .ok (digits ++ rest, digits ++ rest) := rfl
  have hmodify : (modify (List.dropWhile isDigit) : JsonParser Unit).run (digits ++ rest) =
      .ok ((), rest) := congrArg (fun left => Except.ok ((), left)) hdrop
  rw [parseUint, run_bind_of_ok hskip, run_bind_of_ok hget, hempty, if_neg Bool.false_ne_true,
    if_neg hminus, run_bind_of_ok hmodify, htake]
  simp only [List.isEmpty_iff, hne, if_false]
  rfl

theorem parseValue_run (hws : ∀ b ∈ ws, isSpace b = true)
    (hstop : ∀ b ∈ rest.head?, isDigit b = false) :
    parseValue.run (ws ++ (digits ++ rest)) =
      (parseU64 digits "config" >>= fun n => .ok (.number n, rest)) := by
  have hread := parseUint_run hdigits hne hstop
  obtain ⟨ch, tail, rfl, hch⟩ := digits_head hdigits hne
  have hskip : skipWs.run (ws ++ (ch :: tail ++ rest)) = .ok ((), ch :: tail ++ rest) :=
    skipWs_run hws (by simpa using isSpace_digit hch)
  have hget : (get : JsonParser Bytes).run (ch :: tail ++ rest) =
      .ok (ch :: tail ++ rest, ch :: tail ++ rest) := rfl
  have hletter : ¬ (ch = byteOf 't' ∨ ch = byteOf 'f') := by
    simpa using ⟨ne_of_isDigit hch rfl, ne_of_isDigit hch rfl⟩
  rw [parseValue, run_bind_of_ok hskip, run_bind_of_ok hget]
  dsimp only [List.cons_append]
  rw [if_neg (ne_of_isDigit hch rfl), if_neg hletter, if_neg (ne_of_isDigit hch rfl), if_pos hch,
    StateT.run_bind]
  rw [List.cons_append] at hread
  rw [hread]
  cases parseU64 (ch :: tail) "config" <;> rfl

theorem memberTurn_run {key : Bytes} (hkey : Plain key) {afterColon afterValue : Bytes}
    (hcolon : ∀ b ∈ afterColon, isSpace b = true) (hvalue : ∀ b ∈ afterValue, isSpace b = true)
    (config : NodeConfig) (rest : Bytes) :
    (memberTurn config).run (byteOf '"' :: (key ++ byteOf '"' :: byteOf ':' ::
        (afterColon ++ (digits ++ (afterValue ++ byteOf '\x7d' :: rest))))) =
      (parseU64 digits "config" >>= fun n =>
        applyConfigField config key (.number n) >>= fun config =>
        .ok (.inr config, rest)) := by
  have hread : parseValue.run (afterColon ++ (digits ++ (afterValue ++ byteOf '\x7d' :: rest))) =
      ((parseU64 digits "config" >>= fun n => .ok (.number n)) >>= fun value =>
        .ok (value, afterValue ++ byteOf '\x7d' :: rest)) := by
    rw [parseValue_run hdigits hne hcolon (head_after_blank hvalue (by decide)), bind_assoc]
    rfl
  rw [memberTurn_parts hkey hvalue (by decide) hread, bind_assoc]
  rfl

end

theorem parseObject_single {afterBrace object : Bytes} (h : ∀ b ∈ afterBrace, isSpace b = true) :
    (parseObject {}).run (byteOf '\x7b' :: (afterBrace ++ byteOf '"' :: object)) =
      (loop memberTurn memberTurn_progresses {}).run (byteOf '"' :: object) := by
  have hskip : skipWs.run (afterBrace ++ byteOf '"' :: object) = .ok ((), byteOf '"' :: object) :=
    skipWs_run h (by simp; decide)
  have hget : (get : JsonParser Bytes).run (byteOf '"' :: object) =
      .ok (byteOf '"' :: object, byteOf '"' :: object) := rfl
  have hopen : (byteOf '"' :: object).head? ≠ some (byteOf '\x7d') := by simp; decide
  rw [parseObject, run_bind_of_ok (expect_run _ _), run_bind_of_ok hskip, run_bind_of_ok hget,
    if_neg hopen]

end
end JsonParser

theorem parseConfigJson_number (layout : Layout) {key digits : Bytes} (hkey : JsonParser.Plain key)
    (hdigits : Digits digits) (hne : digits ≠ []) :
    parseConfigJson (layout.object key digits) = (do
      let n ← JsonParser.parseU64 digits "config"
      let config ← applyConfigField {} key (.number n)
      config.validate
      .ok config) := by
  have hturn := JsonParser.memberTurn_run hdigits hne hkey layout.afterColon.property
    layout.afterValue.property {} layout.afterObject.val
  have hend : (layout.afterObject.val ++ []).dropWhile isSpace = [] :=
    dropWhile_span layout.afterObject.property (by simp)
  rw [List.append_nil] at hend
  rw [parseConfigJson, Layout.object, JsonParser.parseObject_single layout.afterBrace.property]
  cases hnumber : JsonParser.parseU64 digits "config" with
  | error e =>
    rw [hnumber, error_bind] at hturn
    rw [loop_error hturn]
    rfl
  | ok n =>
    rw [hnumber, ok_bind] at hturn
    cases hfield : applyConfigField {} key (.number n) with
    | error e =>
      rw [hfield, error_bind] at hturn
      rw [loop_error hturn]
      simp only [error_bind, ok_bind, hfield]
    | ok config =>
      rw [hfield, ok_bind] at hturn
      rw [loop_done hturn]
      simp only [ok_bind, hend, hfield, List.isEmpty_nil, not_true_eq_false, if_false]

theorem parseConfigJson_empty (layout : Layout) {key : Bytes} (hkey : JsonParser.Plain key) :
    parseConfigJson (layout.object key []) =
      makeError .invalidConfig "unsupported JSON value in config" := by
  have hvalue : JsonParser.parseValue.run (layout.afterColon.val ++ (layout.afterValue.val ++
      byteOf '\x7d' :: layout.afterObject.val)) =
        .error ⟨.invalidConfig, "unsupported JSON value in config"⟩ := by
    have hblank : ∀ b ∈ layout.afterColon.val ++ layout.afterValue.val, isSpace b = true :=
      List.forall_mem_append.mpr ⟨layout.afterColon.property, layout.afterValue.property⟩
    rw [← List.append_assoc, JsonParser.parseValue,
      run_bind_of_ok (JsonParser.skipWs_run hblank (by simp; decide))]
    rfl
  have hturn : (JsonParser.memberTurn {}).run (byteOf '"' :: (key ++ byteOf '"' :: byteOf ':' ::
      (layout.afterColon.val ++ (layout.afterValue.val ++
        byteOf '\x7d' :: layout.afterObject.val)))) =
        .error ⟨.invalidConfig, "unsupported JSON value in config"⟩ := by
    rw [JsonParser.memberTurn, run_bind_of_ok (JsonParser.parseString_run hkey _),
      run_bind_of_ok (JsonParser.expect_run _ _), StateT.run_bind, hvalue]
    rfl
  rw [parseConfigJson, Layout.object, JsonParser.parseObject_single layout.afterBrace.property,
    List.nil_append, loop_error hturn]
  rfl

end Blockchain
