import Blockchain.ConfigArgs
import Blockchain.Lib.FoldOrder

/-! The command line as a sequence of options: what each of them sets, that only the order of
equal flags matters, and which configurations flags can express. -/
namespace Blockchain
open Lib

/-- What one option sets. -/
inductive Setting where
  | nodeId (value : Bytes)
  | dataDir (value : Bytes)
  | logLevel (level : LogLevel)
  | genesisTimestamp (value : UInt64)
  | maxBlockSize (value : UInt32)
  | mineAfterTx (value : UInt32)
  | relayMaxSessions (value : UInt32)
  | relayBlocksAfterTx (value : UInt32)
  | announceTxFile (path : Bytes)
  | mempoolMaxTransactions (value : UInt32)
  | mempoolMaxBytes (value : UInt64)
  | minRelayFeerate (value : UInt64)
  | mineBlocks (value : UInt32)
  | blockSubsidy (value : UInt64)
  | coinbaseMaturity (value : UInt32)
  | coinbaseRecipient (hex : Bytes)
  | listenHost (host : Bytes)
  | listenPort (port : UInt16)
  | portFile (path : Bytes)
  | networkMode (mode : NetworkMode)
  | peer (endpoint : TcpEndpoint)
  | persist
  | restore

namespace Setting

def flag : Setting → Bytes
  | nodeId _ => textBytes "--node-id"
  | dataDir _ => textBytes "--data-dir"
  | logLevel _ => textBytes "--log-level"
  | genesisTimestamp _ => textBytes "--genesis-timestamp"
  | maxBlockSize _ => textBytes "--max-block-size"
  | mineAfterTx _ => textBytes "--mine-after-tx"
  | relayMaxSessions _ => textBytes "--relay-max-sessions"
  | relayBlocksAfterTx _ => textBytes "--relay-blocks-after-tx"
  | announceTxFile _ => textBytes "--announce-tx-file"
  | mempoolMaxTransactions _ => textBytes "--mempool-max-transactions"
  | mempoolMaxBytes _ => textBytes "--mempool-max-bytes"
  | minRelayFeerate _ => textBytes "--min-relay-feerate"
  | mineBlocks _ => textBytes "--mine-blocks"
  | blockSubsidy _ => textBytes "--block-subsidy"
  | coinbaseMaturity _ => textBytes "--coinbase-maturity"
  | coinbaseRecipient _ => textBytes "--coinbase-recipient"
  | listenHost _ => textBytes "--listen-host"
  | listenPort _ => textBytes "--listen-port"
  | portFile _ => textBytes "--port-file"
  | networkMode _ => textBytes "--network-mode"
  | peer _ => textBytes "--peer"
  | persist => textBytes "--persist"
  | restore => textBytes "--restore"

def apply : Setting → NodeConfig → NodeConfig
  | nodeId value, config => { config with nodeId := value }
  | dataDir value, config => { config with dataDir := value }
  | logLevel level, config => { config with logLevel := level }
  | genesisTimestamp value, config => { config with genesisTimestamp := value }
  | maxBlockSize value, config => { config with maxBlockSizeBytes := value }
  | mineAfterTx value, config => { config with mineAfterTx := value }
  | relayMaxSessions value, config => { config with relayMaxSessions := value }
  | relayBlocksAfterTx value, config => { config with relayBlocksAfterTx := value }
  | announceTxFile path, config =>
    { config with announceTxFiles := config.announceTxFiles ++ [path] }
  | mempoolMaxTransactions value, config => { config with mempoolMaxTransactions := value }
  | mempoolMaxBytes value, config => { config with mempoolMaxBytes := value }
  | minRelayFeerate value, config => { config with minRelayFeerate := value }
  | mineBlocks value, config => { config with mineBlocks := value }
  | blockSubsidy value, config => { config with blockSubsidy := value }
  | coinbaseMaturity value, config => { config with coinbaseMaturity := value }
  | coinbaseRecipient hex, config => { config with coinbaseRecipientHex := hex }
  | listenHost host, config => { config with listenHost := host }
  | listenPort port, config => { config with listenPort := port, listenEnabled := true }
  | portFile path, config => { config with portFile := path }
  | networkMode mode, config => { config with networkMode := mode }
  | peer endpoint, config =>
    { config with peerHost := endpoint.host, peerPort := endpoint.port }
  | persist, config => { config with persist := true }
  | restore, config => { config with restore := true }

theorem apply_comm {s t : Setting} (h : s.flag ≠ t.flag) (config : NodeConfig) :
    s.apply (t.apply config) = t.apply (s.apply config) := by
  cases s <;> cases t <;> first | rfl | exact absurd rfl h

/-- What a flag can be given outside a configuration file: no text is `--config`, and an
endpoint names a host and a port. -/
def Writable : Setting → Prop
  | nodeId text | dataDir text | announceTxFile text | coinbaseRecipient text | listenHost text
  | portFile text => text ≠ textBytes "--config"
  | peer endpoint => endpoint.host ≠ [] ∧ endpoint.port ≠ 0
  | _ => True

end Setting

/-! What the flags read. -/

/-- A reader that does the same to every configuration, and sets what its flag stands for. -/
def FlagSets (arg : Bytes) (read : ConfigArgs.FlagReader) : Prop :=
  ∀ value, (∃ e, ∀ config, read value config = .error e) ∨
    ∃ setting : Setting, setting.flag = arg ∧
      (value ≠ textBytes "--config" → setting.Writable) ∧
      ∀ config, read value config = .ok (setting.apply config)

section Readers
variable {arg : Bytes}

theorem textFlag_sets {store : Bytes → NodeConfig → NodeConfig} (setting : Bytes → Setting)
    (h : ∀ value, (setting value).flag = arg ∧
      (value ≠ textBytes "--config" → (setting value).Writable) ∧
      ∀ config, store value config = (setting value).apply config) :
    FlagSets arg (ConfigArgs.textFlag store) := by
  intro value
  obtain ⟨hflag, hwritable, hstore⟩ := h value
  exact .inr ⟨setting value, hflag, hwritable, fun config => congrArg Except.ok (hstore config)⟩

theorem checked_sets {α : Type} {parse : Bytes → Result α} {store : α → NodeConfig → NodeConfig}
    (setting : α → Setting)
    (h : ∀ value a, parse value = .ok a → (setting a).flag = arg ∧ (setting a).Writable ∧
      ∀ config, store a config = (setting a).apply config) :
    FlagSets arg fun value config => (parse value >>= fun a => .ok (store a config)) := by
  intro value
  cases hparse : parse value with
  | error e =>
    refine .inl ⟨e, fun config => ?_⟩
    dsimp only
    rw [hparse, error_bind]
  | ok a =>
    obtain ⟨hflag, hwritable, hstore⟩ := h value a hparse
    refine .inr ⟨setting a, hflag, fun _ => hwritable, fun config => ?_⟩
    dsimp only
    rw [hparse, ok_bind, hstore]

theorem choose_sets {flag : Bytes} {read mine : ConfigArgs.FlagReader}
    {other : Option ConfigArgs.FlagReader}
    (h : (if arg = flag then some mine else other) = some read)
    (hmine : flag = arg → FlagSets arg mine) (hother : other = some read → FlagSets arg read) :
    FlagSets arg read := by
  by_cases heq : arg = flag
  · rw [if_pos heq] at h
    cases h
    exact hmine heq.symm
  · rw [if_neg heq] at h
    exact hother h

end Readers

theorem parseTcpEndpoint_names {text : Bytes} {endpoint : TcpEndpoint}
    (h : parseTcpEndpoint text = .ok endpoint) : endpoint.host ≠ [] ∧ endpoint.port ≠ 0 := by
  rw [parseTcpEndpoint] at h
  split at h
  · cases h
  · rename_i colon hcolon
    split at h
    · cases h
    · rename_i hplace
      split at h
      · rename_i port hport
        split at h
        · cases h
        · rename_i hzero
          cases h
          have hplaces : 0 < colon ∧ colon + 1 < text.length := by omega
          refine ⟨?_, ?_⟩
          · intro hempty
            have hlen := congrArg List.length hempty
            rw [List.length_take, List.length_nil] at hlen
            omega
          · intro hport0
            have hlt := fromChars_lt hport
            have hvalue : (UInt16.ofNat port).toNat = 0 := congrArg UInt16.toNat hport0
            rw [UInt16.toNat_ofNat_of_lt' hlt] at hvalue
            exact hzero hvalue
      · cases h

theorem valueFlag_sets {arg : Bytes} {read : ConfigArgs.FlagReader}
    (h : ConfigArgs.valueFlag arg = some read) : FlagSets arg read := by
  rw [ConfigArgs.valueFlag] at h
  refine choose_sets h (fun heq => textFlag_sets .nodeId fun _ =>
    ⟨heq, id, fun _ => rfl⟩) fun h => ?_
  refine choose_sets h (fun heq => textFlag_sets .dataDir fun _ =>
    ⟨heq, id, fun _ => rfl⟩) fun h => ?_
  refine choose_sets h (fun heq => checked_sets .logLevel fun _ _ _ =>
    ⟨heq, trivial, fun _ => rfl⟩) fun h => ?_
  refine choose_sets h (fun heq => checked_sets .genesisTimestamp fun _ _ _ =>
    ⟨heq, trivial, fun _ => rfl⟩) fun h => ?_
  refine choose_sets h (fun heq => checked_sets (fun n : UInt64 => .maxBlockSize n.toUInt32)
    fun _ _ _ => ⟨heq, trivial, fun _ => rfl⟩) fun h => ?_
  refine choose_sets h (fun heq => checked_sets .mineAfterTx fun _ _ _ =>
    ⟨heq, trivial, fun _ => rfl⟩) fun h => ?_
  refine choose_sets h (fun heq => checked_sets .relayMaxSessions fun _ _ _ =>
    ⟨heq, trivial, fun _ => rfl⟩) fun h => ?_
  refine choose_sets h (fun heq => checked_sets .relayBlocksAfterTx fun _ _ _ =>
    ⟨heq, trivial, fun _ => rfl⟩) fun h => ?_
  refine choose_sets h (fun heq => textFlag_sets .announceTxFile fun _ =>
    ⟨heq, id, fun _ => rfl⟩) fun h => ?_
  refine choose_sets h (fun heq => checked_sets .mempoolMaxTransactions fun _ _ _ =>
    ⟨heq, trivial, fun _ => rfl⟩) fun h => ?_
  refine choose_sets h (fun heq => checked_sets .mempoolMaxBytes fun _ _ _ =>
    ⟨heq, trivial, fun _ => rfl⟩) fun h => ?_
  refine choose_sets h (fun heq => checked_sets .minRelayFeerate fun _ _ _ =>
    ⟨heq, trivial, fun _ => rfl⟩) fun h => ?_
  refine choose_sets h (fun heq => checked_sets .mineBlocks fun _ _ _ =>
    ⟨heq, trivial, fun _ => rfl⟩) fun h => ?_
  refine choose_sets h (fun heq => checked_sets .blockSubsidy fun _ _ _ =>
    ⟨heq, trivial, fun _ => rfl⟩) fun h => ?_
  refine choose_sets h (fun heq => checked_sets .coinbaseMaturity fun _ _ _ =>
    ⟨heq, trivial, fun _ => rfl⟩) fun h => ?_
  refine choose_sets h (fun heq => textFlag_sets .coinbaseRecipient fun _ =>
    ⟨heq, id, fun _ => rfl⟩) fun h => ?_
  refine choose_sets h (fun heq => textFlag_sets .listenHost fun _ =>
    ⟨heq, id, fun _ => rfl⟩) fun h => ?_
  refine choose_sets h (fun heq => checked_sets (fun n : UInt32 => .listenPort n.toUInt16)
    fun _ _ _ => ⟨heq, trivial, fun _ => rfl⟩) fun h => ?_
  refine choose_sets h (fun heq => textFlag_sets .portFile fun _ =>
    ⟨heq, id, fun _ => rfl⟩) fun h => ?_
  refine choose_sets h (fun heq => checked_sets .networkMode fun _ _ _ =>
    ⟨heq, trivial, fun _ => rfl⟩) fun h => ?_
  refine choose_sets h (fun heq => checked_sets .peer fun _ _ hparse =>
    ⟨heq, parseTcpEndpoint_names hparse, fun _ => rfl⟩) fun h => ?_
  cases h

/-! Options as groups of arguments. -/

inductive Word where
  | config (path : Bytes)
  | valued (flag value : Bytes)
  | switch (flag : Bytes)

namespace Word

def tokens : Word → List Bytes
  | config path => [textBytes "--config", path]
  | valued flag value => [flag, value]
  | switch flag => [flag]

def flag : Word → Bytes
  | config _ => textBytes "--config"
  | valued flag _ => flag
  | switch flag => flag

/-- The flag is known and takes what follows it, and no value is taken for `--config` by the
first pass. -/
def Proper : Word → Prop
  | config _ => True
  | valued flag value => (∃ read, ConfigArgs.valueFlag flag = some read) ∧
      value ≠ textBytes "--config"
  | switch flag => flag = textBytes "--persist" ∨ flag = textBytes "--restore"

def read : Word → NodeConfig → Result NodeConfig
  | config _, base => .ok base
  | valued flag value, base =>
    match ConfigArgs.valueFlag flag with
    | some read => read value base
    | none => makeError .invalidConfig ("unknown argument: '" ++ bytesText flag ++ "'")
  | switch flag, base =>
    if flag = textBytes "--persist" then .ok { base with persist := true }
    else if flag = textBytes "--restore" then .ok { base with restore := true }
    else makeError .invalidConfig ("unknown argument: '" ++ bytesText flag ++ "'")

def act (w : Word) (base : NodeConfig) : NodeConfig := (w.read base).toOption.getD base

def Readable (w : Word) : Prop := ∀ base, w.read base = .ok (w.act base)

theorem read_cases (w : Word) :
    (∃ e, ∀ base, w.read base = .error e) ∨ (∀ base, w.read base = .ok base) ∨
    ∃ setting : Setting, setting.flag = w.flag ∧
      ∀ base, w.read base = .ok (setting.apply base) := by
  cases w with
  | config path => exact .inr (.inl fun _ => rfl)
  | valued flag value =>
    cases hread : ConfigArgs.valueFlag flag with
    | none =>
      refine .inl ⟨⟨.invalidConfig, "unknown argument: '" ++ bytesText flag ++ "'"⟩, fun base => ?_⟩
      simp only [read, hread]
      rfl
    | some reader =>
      obtain ⟨e, he⟩ | ⟨setting, hflag, _, hset⟩ := valueFlag_sets hread value
      · refine .inl ⟨e, fun base => ?_⟩
        simp only [read, hread, he]
      · refine .inr (.inr ⟨setting, hflag, fun base => ?_⟩)
        simp only [read, hread, hset]
  | switch flag =>
    by_cases hpersist : flag = textBytes "--persist"
    · exact .inr (.inr ⟨.persist, hpersist.symm, fun base => if_pos hpersist⟩)
    · by_cases hrestore : flag = textBytes "--restore"
      · refine .inr (.inr ⟨.restore, hrestore.symm, fun base => ?_⟩)
        rw [read, if_neg hpersist, if_pos hrestore]
        rfl
      · refine .inl
          ⟨⟨.invalidConfig, "unknown argument: '" ++ bytesText flag ++ "'"⟩, fun base => ?_⟩
        rw [read, if_neg hpersist, if_neg hrestore]
        rfl

theorem act_cases (w : Word) :
    (∀ base, w.act base = base) ∨
    ∃ setting : Setting, setting.flag = w.flag ∧ ∀ base, w.act base = setting.apply base := by
  obtain ⟨e, he⟩ | hsame | ⟨setting, hflag, hset⟩ := w.read_cases
  · exact .inl fun base => by rw [act, he]; rfl
  · exact .inl fun base => by rw [act, hsame]; rfl
  · exact .inr ⟨setting, hflag, fun base => by rw [act, hset]; rfl⟩

theorem act_comm {w w' : Word} (h : w.flag ≠ w'.flag) (base : NodeConfig) :
    w'.act (w.act base) = w.act (w'.act base) := by
  obtain hw | ⟨s, hs, hw⟩ := w.act_cases
  · rw [hw, hw]
  · obtain hw' | ⟨t, ht, hw'⟩ := w'.act_cases
    · rw [hw', hw']
    · rw [hw, hw, hw', hw']
      exact Setting.apply_comm (by rw [hs, ht]; exact h.symm) base

theorem readable_of_ok {w : Word} {base next : NodeConfig} (h : w.read base = .ok next) :
    w.Readable ∧ next = w.act base := by
  have hact : next = w.act base := by
    rw [act, h]
    rfl
  refine ⟨?_, hact⟩
  intro other
  obtain ⟨e, he⟩ | hsame | ⟨setting, _, hset⟩ := w.read_cases
  · rw [he] at h
    cases h
  · rw [act, hsame]
    rfl
  · rw [act, hset]
    rfl

theorem valued_flag_ne {flag : Bytes} {reader : ConfigArgs.FlagReader}
    (h : ConfigArgs.valueFlag flag = some reader) :
    flag ≠ textBytes "--config" ∧ flag ≠ textBytes "--help" ∧ flag ≠ textBytes "-h" := by
  have hnone : ∀ other, ConfigArgs.valueFlag other = none → flag ≠ other := by
    intro other hother heq
    rw [heq, hother] at h
    cases h
  exact ⟨hnone _ rfl, hnone _ rfl, hnone _ rfl⟩

theorem parseFlags_tokens {w : Word} (h : w.Proper) (rest : List Bytes) (base : NodeConfig) :
    ConfigArgs.parseFlags (w.tokens ++ rest) base =
      (w.read base >>= ConfigArgs.parseFlags rest) := by
  cases w with
  | config path => rfl
  | valued flag value =>
    obtain ⟨⟨reader, hreader⟩, _⟩ := h
    obtain ⟨hconfig, hhelp, hh⟩ := valued_flag_ne hreader
    have hask : ¬ (flag = textBytes "--help" ∨ flag = textBytes "-h") := not_or.mpr ⟨hhelp, hh⟩
    simp only [tokens, List.cons_append, List.nil_append, ConfigArgs.parseFlags, if_neg hask,
      if_neg hconfig, hreader, read]
    cases reader value base <;> rfl
  | switch flag =>
    have hswitch : ∀ (flag : Bytes) (next : NodeConfig),
        ¬ (flag = textBytes "--help" ∨ flag = textBytes "-h") → flag ≠ textBytes "--config" →
        ConfigArgs.valueFlag flag = none → (switch flag).read base = .ok next →
        ConfigArgs.parseFlags (flag :: rest) base = ConfigArgs.parseFlags rest next := by
      intro flag next hask hconfig hnone hread
      rw [ConfigArgs.parseFlags.eq_def]
      simp only [if_neg hask, if_neg hconfig, hnone]
      rw [read] at hread
      by_cases hpersist : flag = textBytes "--persist"
      · rw [if_pos hpersist] at hread ⊢
        cases hread
        rfl
      · rw [if_neg hpersist] at hread ⊢
        by_cases hrestore : flag = textBytes "--restore"
        · rw [if_pos hrestore] at hread ⊢
          cases hread
          rfl
        · rw [if_neg hrestore] at hread
          cases hread
    obtain rfl | rfl := h
    · exact hswitch _ _ (by decide) (by decide) rfl rfl
    · exact hswitch _ _ (by decide) (by decide) rfl rfl

theorem parseFlags_words {words : List Word} (h : ∀ w ∈ words, w.Proper)
    {base config : NodeConfig} :
    ConfigArgs.parseFlags (words.flatMap tokens) base = .ok config ↔
      (∀ w ∈ words, w.Readable) ∧ words.foldl (fun base w => w.act base) base = config := by
  induction words generalizing base with
  | nil =>
    rw [List.flatMap_nil, ConfigArgs.parseFlags, Except.ok.injEq]
    exact ⟨fun heq => ⟨by simp, heq⟩, fun hok => hok.2⟩
  | cons w words ih =>
    obtain ⟨hw, hwords⟩ := List.forall_mem_cons.mp h
    rw [List.flatMap_cons, parseFlags_tokens hw, bind_eq_ok, List.forall_mem_cons, List.foldl_cons]
    refine ⟨?_, ?_⟩
    · intro hok
      obtain ⟨next, hread, hrest⟩ := hok
      obtain ⟨hreadable, rfl⟩ := readable_of_ok hread
      obtain ⟨hall, hfold⟩ := (ih hwords).mp hrest
      exact ⟨⟨hreadable, hall⟩, hfold⟩
    · intro hok
      obtain ⟨⟨hreadable, hall⟩, hfold⟩ := hok
      exact ⟨_, hreadable base, (ih hwords).mpr ⟨hall, hfold⟩⟩

theorem configFilePath_skip {arg : Bytes} (h : arg ≠ textBytes "--config") (rest : List Bytes)
    (found : Option Bytes) :
    ConfigArgs.configFilePath (arg :: rest) found = ConfigArgs.configFilePath rest found := by
  rw [ConfigArgs.configFilePath.eq_def]
  exact if_neg h

def path (found : Option Bytes) : Word → Option Bytes
  | config path => some path
  | _ => found

theorem configFilePath_words {words : List Word} (h : ∀ w ∈ words, w.Proper)
    (found : Option Bytes) :
    ConfigArgs.configFilePath (words.flatMap tokens) found = .ok (words.foldl path found) := by
  induction words generalizing found with
  | nil => rfl
  | cons w words ih =>
    obtain ⟨hw, hwords⟩ := List.forall_mem_cons.mp h
    rw [List.flatMap_cons, List.foldl_cons, ← ih hwords]
    cases w with
    | config path => rfl
    | valued flag value =>
      obtain ⟨⟨reader, hreader⟩, hvalue⟩ := hw
      exact (configFilePath_skip (valued_flag_ne hreader).1 _ _).trans
        (configFilePath_skip hvalue _ _)
    | switch flag =>
      have hflag : flag ≠ textBytes "--config" := by
        obtain hflag | hflag := hw
        · rw [hflag]
          decide
        · rw [hflag]
          decide
      exact configFilePath_skip hflag _ _

theorem path_comm (w w' : Word) (found : Option Bytes) (h : w.flag ≠ w'.flag) :
    path (path found w) w' = path (path found w') w := by
  cases w with
  | config p =>
    cases w' with
    | config p' => exact absurd rfl h
    | valued flag value => rfl
    | switch flag => rfl
  | valued flag value => cases w' <;> rfl
  | switch flag => cases w' <;> rfl

theorem parseArgs_words (files : Bytes → ConfigFile) {words : List Word} (h : ∀ w ∈ words, w.Proper)
    {config : NodeConfig} :
    parseArgs files (words.flatMap tokens) = .ok config ↔
      ∃ base, baseConfig files (words.foldl path none) = .ok base ∧ (∀ w ∈ words, w.Readable) ∧
        words.foldl (fun base w => w.act base) base = config ∧ config.Valid := by
  rw [parseArgs, configFilePath_words h, ok_bind, bind_eq_ok]
  refine exists_congr fun base => and_congr_right fun _ => ?_
  rw [bind_eq_ok]
  refine ⟨?_, ?_⟩
  · intro hok
    obtain ⟨parsed, hparsed, hrest⟩ := hok
    obtain ⟨hvalid, heq⟩ := seq_eq_ok.mp hrest
    cases heq
    obtain ⟨hall, hfold⟩ := (parseFlags_words h).mp hparsed
    exact ⟨hall, hfold, config.validate_ok.mp hvalid⟩
  · intro hok
    obtain ⟨hall, hfold, hvalid⟩ := hok
    exact ⟨config, (parseFlags_words h).mpr ⟨hall, hfold⟩,
      seq_eq_ok.mpr ⟨config.validate_ok.mpr hvalid, rfl⟩⟩

end Word

/-- Only the order of equal flags matters. Two command lines that give every flag, `--config`
included, the same values in the same order are both refused or give one configuration. -/
theorem option_order_irrelevant (files : Bytes → ConfigFile) {words words' : List Word}
    (hproper : ∀ w ∈ words, w.Proper)
    (horder : ∀ flag, ofClass Word.flag flag words = ofClass Word.flag flag words')
    (config : NodeConfig) :
    parseArgs files (words.flatMap Word.tokens) = .ok config ↔
      parseArgs files (words'.flatMap Word.tokens) = .ok config := by
  have hmem : ∀ w, w ∈ words ↔ w ∈ words' := by
    intro w
    have hiff : ∀ l : List Word, w ∈ l ↔ w ∈ ofClass Word.flag w.flag l := by
      intro l
      simp [ofClass]
    rw [hiff words, hiff words', horder]
  have hproper' : ∀ w ∈ words', w.Proper := fun w hw => hproper w ((hmem w).mpr hw)
  have hpath : words.foldl Word.path none = words'.foldl Word.path none :=
    foldl_eq_of_ofClass (fun w w' found h => Word.path_comm w w' found h) horder none
  have hact : ∀ base, words.foldl (fun base w => w.act base) base =
      words'.foldl (fun base w => w.act base) base :=
    foldl_eq_of_ofClass (fun w w' base h => Word.act_comm h base) horder
  rw [Word.parseArgs_words files hproper, Word.parseArgs_words files hproper', hpath]
  simp only [hact, hmem]

/-- A switch and an option, in either order. -/
theorem persist_anywhere :
    parseArgs (fun _ => .missing) [textBytes "--persist", textBytes "--node-id", textBytes "a"] =
      .ok { persist := true, nodeId := textBytes "a" } ∧
    parseArgs (fun _ => .missing) [textBytes "--node-id", textBytes "a", textBytes "--persist"] =
      .ok { persist := true, nodeId := textBytes "a" } := by
  have hfirst : parseArgs (fun _ => .missing)
      [textBytes "--persist", textBytes "--node-id", textBytes "a"] =
        .ok { persist := true, nodeId := textBytes "a" } := rfl
  have horder : ∀ flag, ofClass Word.flag flag
      [.switch (textBytes "--persist"), .valued (textBytes "--node-id") (textBytes "a")] =
        ofClass Word.flag flag
          [.valued (textBytes "--node-id") (textBytes "a"), .switch (textBytes "--persist")] :=
    fun flag => ofClass_swap (by decide) flag []
  have hproper : ∀ w ∈ [Word.switch (textBytes "--persist"),
      .valued (textBytes "--node-id") (textBytes "a")], w.Proper := by
    simp only [List.forall_mem_cons]
    exact ⟨.inl rfl, ⟨⟨_, rfl⟩, by decide⟩, by simp⟩
  exact ⟨hfirst, (option_order_irrelevant _ hproper horder _).mp hfirst⟩

/-! Writing a configuration as flags. -/

def LogLevel.toText : LogLevel → Bytes
  | .error => textBytes "error"
  | .warn => textBytes "warn"
  | .info => textBytes "info"
  | .debug => textBytes "debug"
  | .trace => textBytes "trace"

def NetworkMode.toText : NetworkMode → Bytes
  | .ping => textBytes "ping"
  | .relay => textBytes "relay"

theorem parseLogLevel_toText (level : LogLevel) : parseLogLevel level.toText = .ok level := by
  cases level <;> rfl

theorem parseNetworkMode_toText (mode : NetworkMode) :
    parseNetworkMode mode.toText = .ok mode := by
  cases mode <;> rfl

theorem rfind_last {ch : UInt8} {before after : Bytes} (h : ch ∉ after) :
    rfind ch (before ++ ch :: after) = some before.length := by
  have hidx : (before ++ ch :: after).reverse.findIdx? (· == ch) = some after.length := by
    have hnone : after.reverse.findIdx? (· == ch) = none := by
      rw [List.findIdx?_eq_none_iff]
      intro b hb
      exact beq_false_of_ne fun heq => h (heq ▸ List.mem_reverse.mp hb)
    rw [List.reverse_append, List.reverse_cons, List.append_assoc, List.findIdx?_append, hnone]
    simp [List.findIdx?_cons]
  rw [rfind, hidx, Option.map_some]
  congr 1
  rw [List.length_append, List.length_cons]
  omega

theorem parseTcpEndpoint_write {endpoint : TcpEndpoint} (hhost : endpoint.host ≠ [])
    (hport : endpoint.port ≠ 0) :
    parseTcpEndpoint (endpoint.host ++ UInt8.ofNat ':'.toNat :: decimalText endpoint.port.toNat) =
      .ok endpoint := by
  have hdigits := decimalText_digits endpoint.port.toNat
  have hcolon : UInt8.ofNat ':'.toNat ∉ decimalText endpoint.port.toNat :=
    fun hmem => absurd (hdigits _ hmem) (by decide)
  have hlen := List.length_pos_iff.mpr hhost
  have hmore := List.length_pos_iff.mpr (decimalText_ne_nil endpoint.port.toNat)
  have hplace : ¬ (endpoint.host.length = 0 ∨ endpoint.host.length + 1 ≥
      (endpoint.host ++ UInt8.ofNat ':'.toNat :: decimalText endpoint.port.toNat).length) := by
    rw [List.length_append, List.length_cons]
    omega
  have hread : fromChars 16 (decimalText endpoint.port.toNat) = some (endpoint.port.toNat, []) :=
    (fromChars_digits hdigits).mpr ⟨decimalText_ne_nil _, by
      rw [decimalValue_decimalText]
      exact endpoint.port.toNat_lt, (decimalValue_decimalText _).symm⟩
  have hzero : endpoint.port.toNat ≠ 0 := fun h => hport (UInt16.toNat_inj.mp h)
  have hdrop : (endpoint.host ++ UInt8.ofNat ':'.toNat :: decimalText endpoint.port.toNat).drop
      (endpoint.host.length + 1) = decimalText endpoint.port.toNat := by
    rw [List.drop_append]
    simp
  rw [parseTcpEndpoint, rfind_last hcolon]
  simp only [if_neg hplace, hdrop, hread, if_neg hzero, List.take_left', UInt16.ofNat_toNat]

theorem u64Flag_decimal (flag : Bytes) (store : UInt64 → NodeConfig → NodeConfig) (n : UInt64)
    (base : NodeConfig) :
    ConfigArgs.u64Flag flag store (decimalText n.toNat) base = .ok (store n base) := by
  refine (NumericOption.u64Flag_ok (decimalText_digits _)).mpr ⟨decimalText_ne_nil _, ?_, ?_⟩
  · rw [decimalValue_decimalText]
    exact n.toNat_lt
  · rw [decimalValue_decimalText, UInt64.ofNat_toNat]

theorem u32Flag_decimal (flag : Bytes) (store : UInt32 → NodeConfig → NodeConfig) (n : UInt32)
    (base : NodeConfig) :
    ConfigArgs.u32Flag flag store (decimalText n.toNat) base = .ok (store n base) := by
  refine (NumericOption.u32Flag_ok (decimalText_digits _)).mpr ⟨decimalText_ne_nil _, ?_, ?_⟩
  · rw [decimalValue_decimalText]
    exact n.toNat_lt
  · have hcut : (UInt64.ofNat n.toNat).toUInt32 = n := by
      rw [← UInt32.toNat_inj, UInt64.toNat_toUInt32, UInt64.toNat_ofNat']
      have hlt := n.toNat_lt
      omega
    rw [decimalValue_decimalText, hcut]

namespace Setting

def value : Setting → Option Bytes
  | nodeId text | dataDir text | announceTxFile text | coinbaseRecipient text | listenHost text
  | portFile text => some text
  | logLevel level => some level.toText
  | genesisTimestamp n | mempoolMaxBytes n | minRelayFeerate n | blockSubsidy n =>
    some (decimalText n.toNat)
  | maxBlockSize n | mineAfterTx n | relayMaxSessions n | relayBlocksAfterTx n
  | mempoolMaxTransactions n | mineBlocks n | coinbaseMaturity n => some (decimalText n.toNat)
  | listenPort port => some (decimalText port.toNat)
  | networkMode mode => some mode.toText
  | peer endpoint =>
    some (endpoint.host ++ UInt8.ofNat ':'.toNat :: decimalText endpoint.port.toNat)
  | persist | restore => none

def word (s : Setting) : Word :=
  match s.value with
  | some value => .valued s.flag value
  | none => .switch s.flag

structure Written (s : Setting) : Prop where
  proper : s.word.Proper
  read : ∀ base, s.word.read base = .ok (s.apply base)

theorem written_valued {s : Setting} {value : Bytes} {reader : ConfigArgs.FlagReader}
    (hvalue : s.value = some value) (hreader : ConfigArgs.valueFlag s.flag = some reader)
    (hne : value ≠ textBytes "--config")
    (hread : ∀ base, reader value base = .ok (s.apply base)) : s.Written := by
  have hword : s.word = .valued s.flag value := by rw [word, hvalue]
  refine ⟨?_, ?_⟩
  · rw [hword]
    exact ⟨⟨reader, hreader⟩, hne⟩
  · intro base
    rw [hword]
    simp only [Word.read, hreader, hread]

theorem decimalText_ne (n : Nat) : decimalText n ≠ textBytes "--config" :=
  NumericOption.ne_of_digits (decimalText_digits n) (by decide)

theorem Writable.written {s : Setting} (h : s.Writable) : s.Written := by
  cases s with
  | nodeId text => exact written_valued rfl rfl h fun _ => rfl
  | dataDir text => exact written_valued rfl rfl h fun _ => rfl
  | announceTxFile text => exact written_valued rfl rfl h fun _ => rfl
  | coinbaseRecipient text => exact written_valued rfl rfl h fun _ => rfl
  | listenHost text => exact written_valued rfl rfl h fun _ => rfl
  | portFile text => exact written_valued rfl rfl h fun _ => rfl
  | logLevel level =>
    refine written_valued rfl rfl (by cases level <;> decide) fun base => ?_
    rw [parseLogLevel_toText, ok_bind]
    rfl
  | networkMode mode =>
    refine written_valued rfl rfl (by cases mode <;> decide) fun base => ?_
    rw [parseNetworkMode_toText, ok_bind]
    rfl
  | genesisTimestamp n =>
    exact written_valued rfl rfl (decimalText_ne _) fun _ => u64Flag_decimal _ _ _ _
  | mempoolMaxBytes n =>
    exact written_valued rfl rfl (decimalText_ne _) fun _ => u64Flag_decimal _ _ _ _
  | minRelayFeerate n =>
    exact written_valued rfl rfl (decimalText_ne _) fun _ => u64Flag_decimal _ _ _ _
  | blockSubsidy n =>
    exact written_valued rfl rfl (decimalText_ne _) fun _ => u64Flag_decimal _ _ _ _
  | maxBlockSize n =>
    refine written_valued rfl rfl (decimalText_ne _) fun base => ?_
    have hwide := u64Flag_decimal (textBytes "--max-block-size")
      (fun parsed config => { config with maxBlockSizeBytes := parsed.toUInt32 }) n.toUInt64 base
    rwa [UInt32.toNat_toUInt64, UInt32.toUInt32_toUInt64] at hwide
  | mineAfterTx n =>
    exact written_valued rfl rfl (decimalText_ne _) fun _ => u32Flag_decimal _ _ _ _
  | relayMaxSessions n =>
    exact written_valued rfl rfl (decimalText_ne _) fun _ => u32Flag_decimal _ _ _ _
  | relayBlocksAfterTx n =>
    exact written_valued rfl rfl (decimalText_ne _) fun _ => u32Flag_decimal _ _ _ _
  | mempoolMaxTransactions n =>
    exact written_valued rfl rfl (decimalText_ne _) fun _ => u32Flag_decimal _ _ _ _
  | mineBlocks n =>
    exact written_valued rfl rfl (decimalText_ne _) fun _ => u32Flag_decimal _ _ _ _
  | coinbaseMaturity n =>
    exact written_valued rfl rfl (decimalText_ne _) fun _ => u32Flag_decimal _ _ _ _
  | listenPort port =>
    refine written_valued rfl rfl (decimalText_ne _) fun base => ?_
    have hwide := u32Flag_decimal (textBytes "--listen-port") (fun parsed config =>
      { config with listenPort := parsed.toUInt16, listenEnabled := true }) port.toUInt32 base
    rwa [UInt16.toNat_toUInt32, UInt16.toUInt16_toUInt32] at hwide
  | peer endpoint =>
    have hne : endpoint.host ++ UInt8.ofNat ':'.toNat :: decimalText endpoint.port.toNat ≠
        textBytes "--config" := by
      intro heq
      have hmem : UInt8.ofNat ':'.toNat ∈ textBytes "--config" := by
        rw [← heq]
        simp
      exact absurd hmem (by decide)
    refine written_valued rfl rfl hne fun base => ?_
    rw [parseTcpEndpoint_write h.1 h.2, ok_bind]
    rfl
  | persist => exact ⟨.inl rfl, fun _ => rfl⟩
  | restore => exact ⟨.inr rfl, fun _ => rfl⟩

theorem foldl_written {settings : List Setting} (h : ∀ s ∈ settings, s.Written)
    (base : NodeConfig) :
    (settings.map word).foldl (fun base w => w.act base) base =
      settings.foldl (fun base s => s.apply base) base := by
  induction settings generalizing base with
  | nil => rfl
  | cons s settings ih =>
    obtain ⟨hs, hsettings⟩ := List.forall_mem_cons.mp h
    have hact : s.word.act base = s.apply base := by
      rw [Word.act, hs.read]
      rfl
    rw [List.map_cons, List.foldl_cons, List.foldl_cons, hact, ih hsettings]

theorem word_path (s : Setting) (found : Option Bytes) : Word.path found s.word = found := by
  cases s <;> rfl

theorem foldl_path (settings : List Setting) (found : Option Bytes) :
    (settings.map word).foldl Word.path found = found := by
  induction settings generalizing found with
  | nil => rfl
  | cons s settings ih => rw [List.map_cons, List.foldl_cons, word_path, ih]

theorem parseArgs_written (files : Bytes → ConfigFile) {settings : List Setting}
    (h : ∀ s ∈ settings, s.Written) {config : NodeConfig}
    (hconfig : settings.foldl (fun base s => s.apply base) {} = config) (hvalid : config.Valid) :
    parseArgs files ((settings.map word).flatMap Word.tokens) = .ok config := by
  have hproper : ∀ w ∈ settings.map word, w.Proper := by
    intro w hw
    obtain ⟨s, hs, rfl⟩ := List.mem_map.mp hw
    exact (h s hs).proper
  have hreadable : ∀ w ∈ settings.map word, w.Readable := by
    intro w hw
    obtain ⟨s, hs, rfl⟩ := List.mem_map.mp hw
    exact (Word.readable_of_ok ((h s hs).read {})).1
  refine (Word.parseArgs_words files hproper).mpr ⟨{}, ?_, hreadable, ?_, hvalid⟩
  · rw [foldl_path]
    rfl
  · rw [foldl_written h, hconfig]

theorem Written.tokens_ne {s : Setting} (h : s.Written) :
    textBytes "--config" ∉ s.word.tokens := by
  have hproper := h.proper
  cases hword : s.word with
  | config path => cases s <;> cases hword
  | valued flag value =>
    rw [hword] at hproper
    obtain ⟨⟨reader, hreader⟩, hvalue⟩ := hproper
    simp only [Word.tokens, List.mem_cons, List.not_mem_nil, or_false, not_or]
    exact ⟨(Word.valued_flag_ne hreader).1.symm, hvalue.symm⟩
  | switch flag =>
    rw [hword] at hproper
    intro hmem
    rw [← List.mem_singleton.mp hmem] at hproper
    obtain heq | heq := hproper
    · exact absurd heq (by decide)
    · exact absurd heq (by decide)

end Setting

/-- What flags alone can leave in a configuration, besides validity: a port to listen on is
set only when listening, a peer has both a host and a port, and no text but the peer's host
is `--config`. -/
structure NodeConfig.Flagged (config : NodeConfig) : Prop where
  listen : config.listenEnabled = false → config.listenPort = 0
  peer : config.peerHost = [] ↔ config.peerPort = 0
  nodeId : config.nodeId ≠ textBytes "--config"
  dataDir : config.dataDir ≠ textBytes "--config"
  recipient : config.coinbaseRecipientHex ≠ textBytes "--config"
  host : config.listenHost ≠ textBytes "--config"
  portFile : config.portFile ≠ textBytes "--config"
  announced : ∀ path ∈ config.announceTxFiles, path ≠ textBytes "--config"

def NodeConfig.plainSettings (config : NodeConfig) : List Setting :=
  [.nodeId config.nodeId, .dataDir config.dataDir, .logLevel config.logLevel,
    .genesisTimestamp config.genesisTimestamp, .maxBlockSize config.maxBlockSizeBytes,
    .mineAfterTx config.mineAfterTx, .relayMaxSessions config.relayMaxSessions,
    .relayBlocksAfterTx config.relayBlocksAfterTx,
    .mempoolMaxTransactions config.mempoolMaxTransactions, .mempoolMaxBytes config.mempoolMaxBytes,
    .minRelayFeerate config.minRelayFeerate, .mineBlocks config.mineBlocks,
    .blockSubsidy config.blockSubsidy, .coinbaseMaturity config.coinbaseMaturity,
    .coinbaseRecipient config.coinbaseRecipientHex, .listenHost config.listenHost,
    .portFile config.portFile, .networkMode config.networkMode]

def NodeConfig.settings (config : NodeConfig) : List Setting :=
  config.plainSettings ++ config.announceTxFiles.map .announceTxFile ++
  (if config.listenEnabled then [.listenPort config.listenPort] else []) ++
  (if config.peerPort ≠ 0 then [.peer ⟨config.peerHost, config.peerPort⟩] else []) ++
  (if config.persist then [.persist] else []) ++
  (if config.restore then [.restore] else [])

namespace NodeConfig.Flagged
variable {config : NodeConfig}

theorem apply (h : config.Flagged) {s : Setting} (hs : s.Writable) : (s.apply config).Flagged := by
  obtain ⟨hlisten, hpeer, hid, hdir, hrecipient, hhost, hfile, hannounced⟩ := h
  cases s with
  | nodeId text => exact ⟨hlisten, hpeer, hs, hdir, hrecipient, hhost, hfile, hannounced⟩
  | dataDir text => exact ⟨hlisten, hpeer, hid, hs, hrecipient, hhost, hfile, hannounced⟩
  | coinbaseRecipient text => exact ⟨hlisten, hpeer, hid, hdir, hs, hhost, hfile, hannounced⟩
  | listenHost text => exact ⟨hlisten, hpeer, hid, hdir, hrecipient, hs, hfile, hannounced⟩
  | portFile text => exact ⟨hlisten, hpeer, hid, hdir, hrecipient, hhost, hs, hannounced⟩
  | announceTxFile path =>
    refine ⟨hlisten, hpeer, hid, hdir, hrecipient, hhost, hfile, ?_⟩
    intro other hmem
    obtain hmem | hmem := List.mem_append.mp hmem
    · exact hannounced other hmem
    · rw [List.mem_singleton.mp hmem]
      exact hs
  | listenPort port => exact ⟨nofun, hpeer, hid, hdir, hrecipient, hhost, hfile, hannounced⟩
  | peer endpoint =>
    exact ⟨hlisten, iff_of_false hs.1 hs.2, hid, hdir, hrecipient, hhost, hfile, hannounced⟩
  | _ => exact ⟨hlisten, hpeer, hid, hdir, hrecipient, hhost, hfile, hannounced⟩

theorem foldl_announce (files : List Bytes) (base : NodeConfig) :
    (files.map Setting.announceTxFile).foldl (fun base s => s.apply base) base =
      { base with announceTxFiles := base.announceTxFiles ++ files } := by
  induction files generalizing base with
  | nil => simp
  | cons path files ih =>
    rw [List.map_cons, List.foldl_cons, ih]
    simp only [Setting.apply, List.append_assoc, List.cons_append, List.nil_append]

theorem plainSettings_apply (config : NodeConfig) :
    config.plainSettings.foldl (fun base s => s.apply base) {} =
      { config with
        listenEnabled := false, listenPort := 0, peerHost := [], peerPort := 0, persist := false,
        restore := false, announceTxFiles := [] } := by
  simp only [plainSettings, List.foldl_cons, List.foldl_nil, Setting.apply]

theorem settings_apply (h : config.Flagged) :
    config.settings.foldl (fun base s => s.apply base) {} = config := by
  have hlisten : ∀ base : NodeConfig, base.listenEnabled = false → base.listenPort = 0 →
      (if config.listenEnabled then [Setting.listenPort config.listenPort] else []).foldl
        (fun base s => s.apply base) base =
        { base with listenEnabled := config.listenEnabled, listenPort := config.listenPort } := by
    intro base henabled hport
    cases hon : config.listenEnabled with
    | true => rfl
    | false =>
      change base = { base with listenEnabled := false, listenPort := config.listenPort }
      rw [h.listen hon, ← henabled, ← hport]
  have hpeer : ∀ base : NodeConfig, base.peerHost = [] → base.peerPort = 0 →
      (if config.peerPort ≠ 0 then [Setting.peer ⟨config.peerHost, config.peerPort⟩] else []).foldl
        (fun base s => s.apply base) base =
        { base with peerHost := config.peerHost, peerPort := config.peerPort } := by
    intro base hhost hport
    by_cases hnone : config.peerPort = 0
    · rw [if_neg (not_not.mpr hnone), h.peer.mpr hnone, hnone, ← hhost, ← hport, List.foldl_nil]
    · rw [if_pos hnone]
      rfl
  have hpersist : ∀ base : NodeConfig, base.persist = false →
      (if config.persist then [Setting.persist] else []).foldl (fun base s => s.apply base) base =
        { base with persist := config.persist } := by
    intro base hoff
    cases config.persist with
    | true => rfl
    | false =>
      change base = { base with persist := false }
      rw [← hoff]
  have hrestore : ∀ base : NodeConfig, base.restore = false →
      (if config.restore then [Setting.restore] else []).foldl (fun base s => s.apply base) base =
        { base with restore := config.restore } := by
    intro base hoff
    cases config.restore with
    | true => rfl
    | false =>
      change base = { base with restore := false }
      rw [← hoff]
  rw [settings, List.foldl_append, List.foldl_append, List.foldl_append, List.foldl_append,
    List.foldl_append, plainSettings_apply, foldl_announce, hlisten, hpeer, hpersist, hrestore]
  all_goals simp only [List.nil_append]

theorem settings_writable (h : config.Flagged) : ∀ s ∈ config.settings, s.Writable := by
  have hplain : ∀ s ∈ config.plainSettings, s.Writable := by
    simp only [plainSettings, List.forall_mem_cons, Setting.Writable, true_and]
    exact ⟨h.nodeId, h.dataDir, h.recipient, h.host, h.portFile, by simp⟩
  have hsingle : ∀ (c : Prop) [Decidable c] (s : Setting), (c → s.Writable) →
      ∀ t ∈ (if c then [s] else []), t.Writable := by
    intro c _ s hs t ht
    by_cases hc : c
    · rw [if_pos hc] at ht
      rw [List.mem_singleton.mp ht]
      exact hs hc
    · rw [if_neg hc] at ht
      cases ht
  have hpeer : config.peerPort ≠ 0 →
      (Setting.peer ⟨config.peerHost, config.peerPort⟩).Writable :=
    fun hport => ⟨fun hhost => hport (h.peer.mp hhost), hport⟩
  intro s hs
  simp only [settings, List.mem_append, List.mem_map] at hs
  obtain ((((hs | ⟨path, hpath, rfl⟩) | hs) | hs) | hs) | hs := hs
  · exact hplain s hs
  · exact h.announced path hpath
  · exact hsingle _ (.listenPort config.listenPort) (fun _ => trivial) s hs
  · exact hsingle _ _ hpeer s hs
  · exact hsingle _ .persist (fun _ => trivial) s hs
  · exact hsingle _ .restore (fun _ => trivial) s hs

end NodeConfig.Flagged

theorem parseFlags_flagged {args : List Bytes} (hargs : textBytes "--config" ∉ args)
    {base config : NodeConfig} (hbase : base.Flagged)
    (h : ConfigArgs.parseFlags args base = .ok config) : config.Flagged := by
  fun_induction ConfigArgs.parseFlags args base with
  | case1 =>
    cases h
    exact hbase
  | case2 => cases h
  | case3 => exact absurd List.mem_cons_self hargs
  | case4 => exact absurd List.mem_cons_self hargs
  | case5 => cases h
  | case6 => cases h
  | case7 arg base _ _ read value rest hread next hnext ih =>
    have htail := (not_or.mp (mt List.mem_cons.mpr hargs)).2
    obtain ⟨hvalue, hrest⟩ := not_or.mp (mt List.mem_cons.mpr htail)
    refine ih hrest ?_ h
    obtain ⟨e, he⟩ | ⟨setting, _, hwritable, hset⟩ := valueFlag_sets hread value
    · rw [he] at hnext
      cases hnext
    · rw [hset] at hnext
      cases hnext
      exact hbase.apply (hwritable (Ne.symm hvalue))
  | case8 base rest _ _ _ ih =>
    exact ih (mt (List.mem_cons_of_mem _) hargs) (hbase.apply (s := .persist) trivial) h
  | case9 base rest _ _ _ _ ih =>
    exact ih (mt (List.mem_cons_of_mem _) hargs) (hbase.apply (s := .restore) trivial) h
  | case10 => cases h

/-- The configurations that can be given by flags alone. Every other valid configuration needs
a file, and every one of these can be written out as flags and is read back unchanged. -/
theorem flags_express_iff (files : Bytes → ConfigFile) (config : NodeConfig) :
    (∃ args, textBytes "--config" ∉ args ∧ parseArgs files args = .ok config) ↔
      config.Valid ∧ config.Flagged := by
  refine ⟨?_, ?_⟩
  · intro h
    obtain ⟨args, hargs, hparse⟩ := h
    have hpath : ∀ found, ConfigArgs.configFilePath args found = .ok found := by
      intro found
      clear hparse
      induction args with
      | nil => rfl
      | cons arg rest ih =>
        obtain ⟨harg, hrest⟩ := not_or.mp (mt List.mem_cons.mpr hargs)
        rw [Word.configFilePath_skip (Ne.symm harg), ih hrest]
    rw [parseArgs, hpath, ok_bind, baseConfig, ok_bind] at hparse
    obtain ⟨parsed, hflags, hrest⟩ := bind_eq_ok.mp hparse
    obtain ⟨hvalid, heq⟩ := seq_eq_ok.mp hrest
    cases heq
    have hempty : ({} : NodeConfig).Flagged :=
      ⟨fun _ => rfl, by decide, by decide, by decide, by decide, by decide, by decide, by decide⟩
    exact ⟨config.validate_ok.mp hvalid, parseFlags_flagged hargs hempty hflags⟩
  · intro h
    obtain ⟨hvalid, hflagged⟩ := h
    have hwritten : ∀ s ∈ config.settings, s.Written :=
      fun s hs => (hflagged.settings_writable s hs).written
    refine ⟨_, ?_, Setting.parseArgs_written files hwritten hflagged.settings_apply hvalid⟩
    intro hmem
    obtain ⟨w, hw, hmem⟩ := List.mem_flatMap.mp hmem
    obtain ⟨s, hs, rfl⟩ := List.mem_map.mp hw
    exact (hwritten s hs).tokens_ne hmem

end Blockchain
