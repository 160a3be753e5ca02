import Blockchain.ConfigJson

/-! Configuration from the command line, and how far it agrees with the JSON form. -/
namespace Blockchain
open Lib

namespace ConfigArgs

def parseU64 (text flag : Bytes) : Result UInt64 :=
  readU64 text
    ("invalid unsigned integer for " ++ bytesText flag ++ ": '" ++ bytesText text ++ "'")

def parseU32 (text flag : Bytes) : Result UInt32 := do
  let parsed ← parseU64 text flag
  if parsed > 4294967295 then
    makeError .invalidConfig ("value out of range for " ++ bytesText flag)
  else .ok parsed.toUInt32

abbrev FlagReader := Bytes → NodeConfig → Result NodeConfig

def textFlag (store : Bytes → NodeConfig → NodeConfig) : FlagReader :=
  fun value config => .ok (store value config)

def u64Flag (flag : Bytes) (store : UInt64 → NodeConfig → NodeConfig) : FlagReader :=
  fun value config => do
    let parsed ← parseU64 value flag
    .ok (store parsed config)

def u32Flag (flag : Bytes) (store : UInt32 → NodeConfig → NodeConfig) : FlagReader :=
  fun value config => do
    let parsed ← parseU32 value flag
    .ok (store parsed config)

def valueFlag (arg : Bytes) : Option FlagReader :=
  if arg = textBytes "--node-id" then
    some (textFlag fun value config => { config with nodeId := value })
  else if arg = textBytes "--data-dir" then
    some (textFlag fun value config => { config with dataDir := value })
  else if arg = textBytes "--log-level" then
    some fun value config => do
      let level ← parseLogLevel value
      .ok { config with logLevel := level }
  else if arg = textBytes "--genesis-timestamp" then
    some (u64Flag arg fun parsed config => { config with genesisTimestamp := parsed })
  else if arg = textBytes "--max-block-size" then
    some (u64Flag arg fun parsed config => { config with maxBlockSizeBytes := parsed.toUInt32 })
  else if arg = textBytes "--mine-after-tx" then
    some (u32Flag arg fun parsed config => { config with mineAfterTx := parsed })
  else if arg = textBytes "--relay-max-sessions" then
    some (u32Flag arg fun parsed config => { config with relayMaxSessions := parsed })
  else if arg = textBytes "--relay-blocks-after-tx" then
    some (u32Flag arg fun parsed config => { config with relayBlocksAfterTx := parsed })
  else if arg = textBytes "--announce-tx-file" then
    some (textFlag fun value config =>
      { config with announceTxFiles := config.announceTxFiles ++ [value] })
  else if arg = textBytes "--mempool-max-transactions" then
    some (u32Flag arg fun parsed config => { config with mempoolMaxTransactions := parsed })
  else if arg = textBytes "--mempool-max-bytes" then
    some (u64Flag arg fun parsed config => { config with mempoolMaxBytes := parsed })
  else if arg = textBytes "--min-relay-feerate" then
    some (u64Flag arg fun parsed config => { config with minRelayFeerate := parsed })
  else if arg = textBytes "--mine-blocks" then
    some (u32Flag arg fun parsed config => { config with mineBlocks := parsed })
  else if arg = textBytes "--block-subsidy" then
    some (u64Flag arg fun parsed config => { config with blockSubsidy := parsed })
  else if arg = textBytes "--coinbase-maturity" then
    some (u32Flag arg fun parsed config => { config with coinbaseMaturity := parsed })
  else if arg = textBytes "--coinbase-recipient" then
    some (textFlag fun value config => { config with coinbaseRecipientHex := value })
  else if arg = textBytes "--listen-host" then
    some (textFlag fun value config => { config with listenHost := value })
  else if arg = textBytes "--listen-port" then
    some (u32Flag arg fun parsed config =>
      { config with listenPort := parsed.toUInt16, listenEnabled := true })
  else if arg = textBytes "--port-file" then
    some (textFlag fun value config => { config with portFile := value })
  else if arg = textBytes "--network-mode" then
    some fun value config => do
      let mode ← parseNetworkMode value
      .ok { config with networkMode := mode }
  else if arg = textBytes "--peer" then
    some fun value config => do
      let endpoint ← parseTcpEndpoint value
      .ok { config with peerHost := endpoint.host, peerPort := endpoint.port }
  else none

def configFilePath : List Bytes → Option Bytes → Result (Option Bytes)
  | [], found => .ok found
  | arg :: rest, found =>
    if arg = textBytes "--config" then
      match rest with
      | [] => makeError .invalidConfig "missing value for --config"
      | path :: rest => configFilePath rest (some path)
    else configFilePath rest found

def parseFlags : List Bytes → NodeConfig → Result NodeConfig
  | [], config => .ok config
  | arg :: rest, config =>
    if arg = textBytes "--help" ∨ arg = textBytes "-h" then
      makeError .invalidConfig "help requested"
    else if arg = textBytes "--config" then
      match rest with
      | [] => .ok config
      | _ :: rest => parseFlags rest config
    else
      match valueFlag arg, rest with
      | some _, [] => makeError .invalidConfig ("missing value for " ++ bytesText arg)
      | some read, value :: rest =>
        match read value config with
        | .error e => .error e
        | .ok config => parseFlags rest config
      | none, rest =>
        if arg = textBytes "--persist" then parseFlags rest { config with persist := true }
        else if arg = textBytes "--restore" then parseFlags rest { config with restore := true }
        else makeError .invalidConfig ("unknown argument: '" ++ bytesText arg ++ "'")

end ConfigArgs

def baseConfig (files : Bytes → ConfigFile) : Option Bytes → Result NodeConfig
  | none => .ok {}
  | some path => loadConfigFile files path

def parseArgs (files : Bytes → ConfigFile) (args : List Bytes) : Result NodeConfig := do
  let path ← ConfigArgs.configFilePath args none
  let base ← baseConfig files path
  let config ← ConfigArgs.parseFlags args base
  config.validate
  .ok config

/-- The numeric options that both forms have. -/
inductive NumericOption where
  | genesisTimestamp
  | blockSubsidy
  | maxBlockSize
  | mineBlocks
  | mineAfterTx
  | relayMaxSessions
  | mempoolMaxTransactions
  | mempoolMaxBytes
  | minRelayFeerate
  | coinbaseMaturity
  | listenPort
deriving DecidableEq, Repr

namespace NumericOption

def flag : NumericOption → Bytes
  | genesisTimestamp => textBytes "--genesis-timestamp"
  | blockSubsidy => textBytes "--block-subsidy"
  | maxBlockSize => textBytes "--max-block-size"
  | mineBlocks => textBytes "--mine-blocks"
  | mineAfterTx => textBytes "--mine-after-tx"
  | relayMaxSessions => textBytes "--relay-max-sessions"
  | mempoolMaxTransactions => textBytes "--mempool-max-transactions"
  | mempoolMaxBytes => textBytes "--mempool-max-bytes"
  | minRelayFeerate => textBytes "--min-relay-feerate"
  | coinbaseMaturity => textBytes "--coinbase-maturity"
  | listenPort => textBytes "--listen-port"

def key : NumericOption → Bytes
  | genesisTimestamp => textBytes "genesis_timestamp"
  | blockSubsidy => textBytes "block_subsidy"
  | maxBlockSize => textBytes "max_block_size_bytes"
  | mineBlocks => textBytes "mine_blocks"
  | mineAfterTx => textBytes "mine_after_tx"
  | relayMaxSessions => textBytes "relay_max_sessions"
  | mempoolMaxTransactions => textBytes "mempool_max_transactions"
  | mempoolMaxBytes => textBytes "mempool_max_bytes"
  | minRelayFeerate => textBytes "min_relay_feerate"
  | coinbaseMaturity => textBytes "coinbase_maturity"
  | listenPort => textBytes "listen_port"

def stored : NumericOption → NodeConfig → Nat
  | genesisTimestamp, config => config.genesisTimestamp.toNat
  | blockSubsidy, config => config.blockSubsidy.toNat
  | maxBlockSize, config => config.maxBlockSizeBytes.toNat
  | mineBlocks, config => config.mineBlocks.toNat
  | mineAfterTx, config => config.mineAfterTx.toNat
  | relayMaxSessions, config => config.relayMaxSessions.toNat
  | mempoolMaxTransactions, config => config.mempoolMaxTransactions.toNat
  | mempoolMaxBytes, config => config.mempoolMaxBytes.toNat
  | minRelayFeerate, config => config.minRelayFeerate.toNat
  | coinbaseMaturity, config => config.coinbaseMaturity.toNat
  | listenPort, config => config.listenPort.toNat

/-- Flag and key both fail on `digits`, or both give one configuration that holds its value. -/
def Agrees (option : NumericOption) (files : Bytes → ConfigFile) (layout : Layout)
    (digits : Bytes) : Prop :=
  (∃ config, parseArgs files [option.flag, digits] = .ok config ∧
    parseConfigJson (layout.object option.key digits) = .ok config ∧
    option.stored config = decimalValue digits) ∨
  ∃ e e', parseArgs files [option.flag, digits] = .error e ∧
    parseConfigJson (layout.object option.key digits) = .error e'

/-- The values that both forms hold unchanged or both refuse. -/
def Exact : NumericOption → Nat → Prop
  | genesisTimestamp, _ | blockSubsidy, _ | mempoolMaxBytes, _ | minRelayFeerate, _ => True
  | relayMaxSessions, n => n < 2 ^ 32 ∨ 2 ^ 64 ≤ n ∨ n % 2 ^ 32 = 0
  | listenPort, n => n < 2 ^ 16 ∨ 2 ^ 32 ≤ n
  | _, n => n < 2 ^ 32 ∨ 2 ^ 64 ≤ n

/-! What each form accepts. -/

def flagLimit : NumericOption → Nat
  | genesisTimestamp | blockSubsidy | mempoolMaxBytes | minRelayFeerate | maxBlockSize => 2 ^ 64
  | _ => 2 ^ 32

def keyLimit : NumericOption → Nat
  | listenPort => 2 ^ 16
  | _ => 2 ^ 64

def width : NumericOption → Nat
  | genesisTimestamp | blockSubsidy | mempoolMaxBytes | minRelayFeerate => 64
  | listenPort => 16
  | _ => 32

def store : NumericOption → UInt64 → NodeConfig
  | genesisTimestamp, n => { genesisTimestamp := n }
  | blockSubsidy, n => { blockSubsidy := n }
  | maxBlockSize, n => { maxBlockSizeBytes := n.toUInt32 }
  | mineBlocks, n => { mineBlocks := n.toUInt32 }
  | mineAfterTx, n => { mineAfterTx := n.toUInt32 }
  | relayMaxSessions, n => { relayMaxSessions := n.toUInt32 }
  | mempoolMaxTransactions, n => { mempoolMaxTransactions := n.toUInt32 }
  | mempoolMaxBytes, n => { mempoolMaxBytes := n }
  | minRelayFeerate, n => { minRelayFeerate := n }
  | coinbaseMaturity, n => { coinbaseMaturity := n.toUInt32 }
  | listenPort, n => { listenPort := n.toUInt16, listenEnabled := true }

theorem stored_store (option : NumericOption) (n : UInt64) :
    option.stored (option.store n) = n.toNat % 2 ^ option.width := by
  cases option <;> simp [stored, store, width]

theorem store_valid (option : NumericOption) (n : UInt64) :
    (option.store n).validate = .ok () ↔ option = relayMaxSessions → n.toNat % 2 ^ 32 ≠ 0 := by
  have hid : (option.store n).nodeId = textBytes "node-0" := by cases option <;> rfl
  have hdir : (option.store n).dataDir = textBytes "./data" := by cases option <;> rfl
  have hhex : (option.store n).coinbaseRecipientHex = [] := by cases option <;> rfl
  have hport : (option.store n).peerPort = 0 := by cases option <;> rfl
  have hvalid : (option.store n).Valid ↔ (option.store n).relayMaxSessions ≠ 0 := by
    refine ⟨fun h => h.sessions_ne, fun h => ⟨?_, ?_, ?_, fun _ => hport, h⟩⟩
    · rw [hid]
      decide
    · rw [hdir]
      decide
    · exact fun hne => absurd hhex hne
  have hzero : n.toUInt32 = 0 ↔ n.toNat % 2 ^ 32 = 0 := by
    rw [← UInt32.toNat_inj, UInt64.toNat_toUInt32]
    rfl
  rw [NodeConfig.validate_ok, hvalid]
  cases option <;> simp [store, hzero]

/-- The digits are read by a form that takes numbers below `limit`. -/
def Fits (option : NumericOption) (limit : Nat) (digits : Bytes) : Prop :=
  digits ≠ [] ∧ decimalValue digits < limit ∧
    (option = relayMaxSessions → decimalValue digits % 2 ^ 32 ≠ 0)

def result (option : NumericOption) (digits : Bytes) : NodeConfig :=
  option.store (UInt64.ofNat (decimalValue digits))

theorem fits_iff (option : NumericOption) (limit : Nat) (digits : Bytes) (config : NodeConfig) :
    (digits ≠ [] ∧ decimalValue digits < limit ∧ option.result digits = config) ∧
        config.validate = .ok () ↔ option.Fits limit digits ∧ option.result digits = config := by
  have hvalid : (option.result digits).validate = .ok () ↔
      (option = relayMaxSessions → decimalValue digits % 2 ^ 32 ≠ 0) := by
    rw [result, store_valid, UInt64.toNat_ofNat', Nat.mod_mod_of_dvd _ (by decide)]
  refine ⟨?_, ?_⟩
  · intro h
    obtain ⟨⟨hne, hlt, rfl⟩, hok⟩ := h
    exact ⟨⟨hne, hlt, hvalid.mp hok⟩, rfl⟩
  · intro h
    obtain ⟨⟨hne, hlt, hsessions⟩, rfl⟩ := h
    exact ⟨⟨hne, hlt, rfl⟩, hvalid.mpr hsessions⟩

theorem stored_value (option : NumericOption) (digits : Bytes) :
    option.stored (option.result digits) = decimalValue digits % 2 ^ option.width := by
  rw [result, stored_store, UInt64.toNat_ofNat', Nat.mod_mod_of_dvd]
  cases option <;> decide

section
variable {digits : Bytes} (hdigits : Digits digits)
include hdigits

theorem u64Flag_ok {flag : Bytes} {store : UInt64 → NodeConfig → NodeConfig}
    {config config' : NodeConfig} :
    ConfigArgs.u64Flag flag store digits config = .ok config' ↔
      digits ≠ [] ∧ decimalValue digits < 2 ^ 64 ∧
        store (UInt64.ofNat (decimalValue digits)) config = config' := by
  simp only [ConfigArgs.u64Flag, ConfigArgs.parseU64, bind_eq_ok, readU64_digits hdigits,
    Except.ok.injEq]
  exact ⟨fun ⟨_, ⟨hne, hlt, hn⟩, hstore⟩ => ⟨hne, hlt, hn ▸ hstore⟩,
    fun ⟨hne, hlt, hstore⟩ => ⟨_, ⟨hne, hlt, rfl⟩, hstore⟩⟩

theorem u32Flag_ok {flag : Bytes} {store : UInt32 → NodeConfig → NodeConfig}
    {config config' : NodeConfig} :
    ConfigArgs.u32Flag flag store digits config = .ok config' ↔
      digits ≠ [] ∧ decimalValue digits < 2 ^ 32 ∧
        store (UInt64.ofNat (decimalValue digits)).toUInt32 config = config' := by
  simp only [ConfigArgs.u32Flag, ConfigArgs.parseU32, ConfigArgs.parseU64, bind_eq_ok,
    readU64_digits hdigits, guard_eq_ok, Except.ok.injEq]
  have hrange : decimalValue digits < 2 ^ 64 →
      (¬ UInt64.ofNat (decimalValue digits) > 4294967295 ↔ decimalValue digits < 2 ^ 32) := by
    intro hlt
    rw [gt_iff_lt, UInt64.lt_iff_toNat_lt, UInt64.toNat_ofNat_of_lt' hlt]
    simp only [UInt64.reduceToNat]
    omega
  refine ⟨?_, ?_⟩
  · intro h
    obtain ⟨_, ⟨n, ⟨hne, hlt, rfl⟩, hsmall, rfl⟩, hstore⟩ := h
    exact ⟨hne, (hrange hlt).mp hsmall, hstore⟩
  · intro h
    obtain ⟨hne, hsmall, hstore⟩ := h
    have hlt : decimalValue digits < 2 ^ 64 := Nat.lt_trans hsmall (by decide)
    exact ⟨_, ⟨_, ⟨hne, hlt, rfl⟩, (hrange hlt).mpr hsmall, rfl⟩, hstore⟩

theorem valueFlag_ok (option : NumericOption) :
    ∃ read, ConfigArgs.valueFlag option.flag = some read ∧
      ∀ config, read digits {} = .ok config ↔
        digits ≠ [] ∧ decimalValue digits < option.flagLimit ∧ option.result digits = config := by
  cases option with
  | genesisTimestamp => exact ⟨_, rfl, fun _ => u64Flag_ok hdigits⟩
  | blockSubsidy => exact ⟨_, rfl, fun _ => u64Flag_ok hdigits⟩
  | maxBlockSize => exact ⟨_, rfl, fun _ => u64Flag_ok hdigits⟩
  | mineBlocks => exact ⟨_, rfl, fun _ => u32Flag_ok hdigits⟩
  | mineAfterTx => exact ⟨_, rfl, fun _ => u32Flag_ok hdigits⟩
  | relayMaxSessions => exact ⟨_, rfl, fun _ => u32Flag_ok hdigits⟩
  | mempoolMaxTransactions => exact ⟨_, rfl, fun _ => u32Flag_ok hdigits⟩
  | mempoolMaxBytes => exact ⟨_, rfl, fun _ => u64Flag_ok hdigits⟩
  | minRelayFeerate => exact ⟨_, rfl, fun _ => u64Flag_ok hdigits⟩
  | coinbaseMaturity => exact ⟨_, rfl, fun _ => u32Flag_ok hdigits⟩
  | listenPort =>
    refine ⟨_, rfl, fun config => ?_⟩
    rw [u32Flag_ok hdigits, UInt64.toUInt16_toUInt32]
    rfl

end

theorem key_plain (option : NumericOption) : JsonParser.Plain option.key := by
  cases option <;> decide

theorem lt_of_keyLimit (option : NumericOption) {n : Nat} (h : n < option.keyLimit) :
    n < 2 ^ 64 := by
  cases option with
  | listenPort => exact Nat.lt_trans h (by decide)
  | _ => exact h

theorem keyLimit_iff (option : NumericOption) {n : Nat} (h : n < 2 ^ 64) :
    n < option.keyLimit ↔ ¬ (option = listenPort ∧ UInt64.ofNat n > 65535) := by
  cases option with
  | listenPort =>
    simp only [true_and, gt_iff_lt, UInt64.lt_iff_toNat_lt, UInt64.toNat_ofNat_of_lt' h,
      UInt64.reduceToNat, keyLimit]
    omega
  | _ => exact iff_of_true h (by simp)

theorem applyConfigField_number (option : NumericOption) (n : UInt64) :
    applyConfigField {} option.key (.number n) =
      if option = listenPort ∧ n > 65535 then makeError .invalidConfig "listen_port out of range"
      else .ok (option.store n) := by
  cases option with
  | listenPort => simp only [true_and]; rfl
  | _ => rfl

section
variable {digits : Bytes} (hdigits : Digits digits)
include hdigits

theorem ne_of_digits {text : Bytes} (h : ∃ b ∈ text, isDigit b = false) : digits ≠ text := by
  intro heq
  obtain ⟨b, hb, hnot⟩ := h
  rw [← heq] at hb
  rw [hdigits b hb] at hnot
  exact Bool.noConfusion hnot

theorem parseArgs_ok (option : NumericOption) (files : Bytes → ConfigFile) (config : NodeConfig) :
    parseArgs files [option.flag, digits] = .ok config ↔
      option.Fits option.flagLimit digits ∧ option.result digits = config := by
  obtain ⟨read, hread, hok⟩ := valueFlag_ok hdigits option
  have hconfig : option.flag ≠ textBytes "--config" := by cases option <;> decide
  have hhelp : ¬ (option.flag = textBytes "--help" ∨ option.flag = textBytes "-h") := by
    cases option <;> decide
  have hvalue : digits ≠ textBytes "--config" := ne_of_digits hdigits (by decide)
  have hpath : ConfigArgs.configFilePath [option.flag, digits] none = .ok none := by
    simp only [ConfigArgs.configFilePath, if_neg hconfig, if_neg hvalue]
  have hflags : ConfigArgs.parseFlags [option.flag, digits] {} = read digits {} := by
    rw [ConfigArgs.parseFlags, if_neg hhelp, if_neg hconfig, hread]
    dsimp only
    cases read digits {} <;> rfl
  rw [← fits_iff, ← hok, parseArgs, hpath, ok_bind, baseConfig, ok_bind, hflags, bind_eq_ok]
  simp only [seq_eq_ok, Except.ok.injEq]
  exact ⟨fun ⟨_, hparsed, hvalid, heq⟩ => heq ▸ ⟨hparsed, hvalid⟩,
    fun ⟨hparsed, hvalid⟩ => ⟨_, hparsed, hvalid, rfl⟩⟩

theorem parseConfigJson_ok (option : NumericOption) (layout : Layout) (config : NodeConfig) :
    parseConfigJson (layout.object option.key digits) = .ok config ↔
      option.Fits option.keyLimit digits ∧ option.result digits = config := by
  rw [← fits_iff]
  by_cases hne : digits = []
  · simp [hne, parseConfigJson_empty layout option.key_plain]
  · rw [parseConfigJson_number layout option.key_plain hdigits hne, bind_eq_ok]
    simp only [JsonParser.parseU64, readU64_digits hdigits, applyConfigField_number]
    refine ⟨?_, ?_⟩
    · intro h
      obtain ⟨n, ⟨-, hlt, rfl⟩, hrest⟩ := h
      obtain ⟨config', hstore, hrest⟩ := bind_eq_ok.mp hrest
      obtain ⟨hvalid, heq⟩ := seq_eq_ok.mp hrest
      cases heq
      obtain ⟨hfits, hstore⟩ := guard_eq_ok.mp hstore
      exact ⟨⟨hne, (option.keyLimit_iff hlt).mpr hfits, Except.ok.inj hstore⟩, hvalid⟩
    · intro h
      obtain ⟨⟨-, hlt, rfl⟩, hvalid⟩ := h
      have hsmall := option.lt_of_keyLimit hlt
      refine ⟨_, ⟨hne, hsmall, rfl⟩, ?_⟩
      rw [if_neg ((option.keyLimit_iff hsmall).mp hlt), ok_bind, ← result, hvalid, ok_bind]

theorem agrees_iff (option : NumericOption) (files : Bytes → ConfigFile) (layout : Layout) :
    option.Agrees files layout digits ↔
      (option.Fits option.flagLimit digits ∧ option.Fits option.keyLimit digits ∧
        decimalValue digits % 2 ^ option.width = decimalValue digits) ∨
      ¬ option.Fits option.flagLimit digits ∧ ¬ option.Fits option.keyLimit digits := by
  have hargs := parseArgs_ok hdigits option files
  have hjson := parseConfigJson_ok hdigits option layout
  have hstored := option.stored_value digits
  rw [Agrees]
  cases harg : parseArgs files [option.flag, digits] with
  | error e =>
    have hno : ¬ option.Fits option.flagLimit digits := fun h => by
      cases harg.symm.trans ((hargs _).mpr ⟨h, rfl⟩)
    cases hkey : parseConfigJson (layout.object option.key digits) with
    | error e' =>
      have hno' : ¬ option.Fits option.keyLimit digits := fun h => by
        cases hkey.symm.trans ((hjson _).mpr ⟨h, rfl⟩)
      exact iff_of_true (.inr ⟨e, e', rfl, rfl⟩) (.inr ⟨hno, hno'⟩)
    | ok config =>
      have hyes := ((hjson config).mp hkey).1
      simp [hno, hyes]
  | ok config =>
    obtain ⟨hyes, rfl⟩ := (hargs config).mp harg
    cases hkey : parseConfigJson (layout.object option.key digits) with
    | error e' =>
      have hno' : ¬ option.Fits option.keyLimit digits := fun h => by
        cases hkey.symm.trans ((hjson _).mpr ⟨h, rfl⟩)
      simp [hyes, hno']
    | ok config' =>
      obtain ⟨hyes', rfl⟩ := (hjson config').mp hkey
      simp [hyes, hyes', hstored]

end

/-- Flag and key agree on a string of digits, and keep its value, exactly when both forms hold
that value unchanged or both refuse it. -/
theorem number_options_agree_iff (option : NumericOption) (files : Bytes → ConfigFile)
    (layout : Layout) {digits : Bytes} (hdigits : Digits digits) :
    option.Agrees files layout digits ↔ option.Exact (decimalValue digits) := by
  have hempty : digits = [] → decimalValue digits = 0 := by
    intro heq
    rw [heq]
    rfl
  simp only [agrees_iff hdigits, Fits]
  generalize decimalValue digits = n at hempty
  by_cases hne : digits = []
  · rw [hempty hne]
    cases option <;> simp [hne, Exact]
  · cases option <;>
      simp only [flagLimit, keyLimit, width, Exact, hne, ne_eq, not_false_eq_true, true_and,
        reduceCtorEq, forall_const, IsEmpty.forall_iff, and_true, iff_true] <;>
      omega

theorem twelve_blocks_agree :
    Digits (textBytes "12") ∧ mineBlocks.Agrees (fun _ => .missing) {} (textBytes "12") := by
  have hdigits : Digits (textBytes "12") := by decide
  refine ⟨hdigits, (number_options_agree_iff mineBlocks _ _ hdigits).mpr ?_⟩
  exact .inl (by decide)

/-- The JSON form takes 2^32 + 1 blocks for one block where the flag refuses; the flag takes port
65537 for port 1 where the JSON form refuses; and both cut a block size of 2^32 + 1 to 1. -/
theorem large_numbers_altered :
    (∀ config, parseArgs (fun _ => .missing) [textBytes "--mine-blocks", textBytes "4294967297"] ≠
      .ok config) ∧
    parseConfigJson (textBytes "\x7b\"mine_blocks\":4294967297\x7d") = .ok { mineBlocks := 1 } ∧
    parseArgs (fun _ => .missing) [textBytes "--listen-port", textBytes "65537"] =
      .ok { listenPort := 1, listenEnabled := true } ∧
    (∀ config, parseConfigJson (textBytes "\x7b\"listen_port\":65537\x7d") ≠ .ok config) ∧
    parseArgs (fun _ => .missing) [textBytes "--max-block-size", textBytes "4294967297"] =
      .ok { maxBlockSizeBytes := 1 } ∧
    parseConfigJson (textBytes "\x7b\"max_block_size_bytes\":4294967297\x7d") =
      .ok { maxBlockSizeBytes := 1 } := by
  have hlong : Digits (textBytes "4294967297") := by decide
  have hport : Digits (textBytes "65537") := by decide
  have hfits : mineBlocks.Fits mineBlocks.keyLimit (textBytes "4294967297") :=
    ⟨by decide, by decide, nofun⟩
  have hwide : maxBlockSize.Fits maxBlockSize.flagLimit (textBytes "4294967297") :=
    ⟨by decide, by decide, nofun⟩
  have hlisten : listenPort.Fits listenPort.flagLimit (textBytes "65537") :=
    ⟨by decide, by decide, nofun⟩
  refine ⟨?_, ?_, ?_, ?_, ?_, ?_⟩
  · intro config h
    obtain ⟨⟨-, hlt, -⟩, -⟩ := (parseArgs_ok hlong mineBlocks _ config).mp h
    exact absurd hlt (by decide)
  · exact (parseConfigJson_ok hlong mineBlocks {} _).mpr ⟨hfits, by decide⟩
  · exact (parseArgs_ok hport listenPort _ _).mpr ⟨hlisten, by decide⟩
  · intro config h
    obtain ⟨⟨-, hlt, -⟩, -⟩ := (parseConfigJson_ok hport listenPort {} config).mp h
    exact absurd hlt (by decide)
  · exact (parseArgs_ok hlong maxBlockSize _ _).mpr ⟨hwide, by decide⟩
  · exact (parseConfigJson_ok hlong maxBlockSize {} _).mpr ⟨hwide, by decide⟩

end NumericOption
end Blockchain
