import Blockchain.BlockBuilder

/-! The configuration of a node and what is derived from it: consensus and template
parameters, pool limits and policy, and the genesis block. -/
namespace Blockchain
open Lib

def textBytes (text : String) : Bytes := text.toUTF8.data.toList

def bytesText (bytes : Bytes) : String := String.ofList (bytes.map fun b => Char.ofNat b.toNat)

inductive LogLevel where
  | error
  | warn
  | info
  | debug
  | trace
deriving DecidableEq, Repr

inductive NetworkMode where
  | ping
  | relay
deriving DecidableEq, Repr

def parseLogLevel (text : Bytes) : Result LogLevel :=
  if text = textBytes "error" then .ok .error
  else if text = textBytes "warn" then .ok .warn
  else if text = textBytes "info" then .ok .info
  else if text = textBytes "debug" then .ok .debug
  else if text = textBytes "trace" then .ok .trace
  else makeError .invalidConfig ("unknown log level: '" ++ bytesText text ++ "'")

def parseNetworkMode (text : Bytes) : Result NetworkMode :=
  if text = textBytes "ping" then .ok .ping
  else if text = textBytes "relay" then .ok .relay
  else makeError .invalidConfig ("unknown network mode: '" ++ bytesText text ++ "'")

structure NodeConfig where
  genesisTimestamp : UInt64 := 0
  blockSubsidy : UInt64 := 0
  maxBlockSizeBytes : UInt32 := 0
  mineBlocks : UInt32 := 0
  mineAfterTx : UInt32 := 0
  relayBlocksAfterTx : UInt32 := 0
  relayMaxSessions : UInt32 := 1
  coinbaseMaturity : UInt32 := 0
  listenPort : UInt16 := 0
  peerPort : UInt16 := 0
  logLevel : LogLevel := .info
  listenEnabled : Bool := false
  persist : Bool := false
  restore : Bool := false
  networkMode : NetworkMode := .ping
  nodeId : Bytes := textBytes "node-0"
  dataDir : Bytes := textBytes "./data"
  coinbaseRecipientHex : Bytes := []
  listenHost : Bytes := textBytes "127.0.0.1"
  peerHost : Bytes := []
  portFile : Bytes := []
  announceTxFiles : List Bytes := []
  mempoolMaxTransactions : UInt32 := 0
  mempoolMaxBytes : UInt64 := 0
  minRelayFeerate : UInt64 := 0
deriving DecidableEq

def NodeConfig.validate (config : NodeConfig) : Result Unit :=
  if config.nodeId.isEmpty then makeError .invalidConfig "node_id must not be empty"
  else if config.dataDir.isEmpty then makeError .invalidConfig "data_dir must not be empty"
  else if !config.coinbaseRecipientHex.isEmpty &&
    !(hashFromHex config.coinbaseRecipientHex).toBool then
    makeError .invalidConfig "coinbase_recipient_hex must be a 64-character hex hash"
  else if config.listenEnabled && config.peerPort != 0 then
    makeError .invalidConfig "specify either --listen-port (server) or --peer (client), not both"
  else if config.relayMaxSessions = 0 then
    makeError .invalidConfig "relay_max_sessions must be at least 1"
  else .ok ()

structure NodeConfig.Valid (config : NodeConfig) : Prop where
  nodeId_ne : config.nodeId ≠ []
  dataDir_ne : config.dataDir ≠ []
  recipient : config.coinbaseRecipientHex ≠ [] →
    ∃ hash, hashFromHex config.coinbaseRecipientHex = .ok hash
  one_role : config.listenEnabled = true → config.peerPort = 0
  sessions_ne : config.relayMaxSessions ≠ 0

theorem NodeConfig.validate_ok (config : NodeConfig) : config.validate = .ok () ↔ config.Valid := by
  have hhex : (hashFromHex config.coinbaseRecipientHex).toBool = true ↔
      ∃ hash, hashFromHex config.coinbaseRecipientHex = .ok hash := by
    cases hashFromHex config.coinbaseRecipientHex <;> simp [Except.toBool]
  simp only [NodeConfig.validate, guard_eq_ok, List.isEmpty_iff, Bool.and_eq_true,
    Bool.not_eq_true', bne_iff_ne, not_and, ← Bool.not_eq_true, not_not, hhex, and_true]
  exact ⟨fun h => ⟨h.1, h.2.1, h.2.2.1, h.2.2.2.1, h.2.2.2.2⟩,
    fun h => ⟨h.nodeId_ne, h.dataDir_ne, h.recipient, h.one_role, h.sessions_ne⟩⟩

def resolvedMempoolLimits (config : NodeConfig) : MempoolLimits where
  maxTransactions :=
    if config.mempoolMaxTransactions ≠ 0 then config.mempoolMaxTransactions
    else kDefaultMempoolMaxTransactions
  maxTotalBytes :=
    if config.mempoolMaxBytes ≠ 0 then config.mempoolMaxBytes else kDefaultMempoolMaxBytes

def resolvedMempoolPolicy (config : NodeConfig) : MempoolPolicy := ⟨config.minRelayFeerate⟩

/-- Zero fields select the defaults. -/
def buildConsensusParams (config : NodeConfig) : ConsensusParams where
  blockSubsidy := if config.blockSubsidy ≠ 0 then config.blockSubsidy else kDefaultBlockSubsidy
  coinbaseMaturity :=
    if config.coinbaseMaturity ≠ 0 then config.coinbaseMaturity else kDefaultCoinbaseMaturity

def resolveCoinbaseRecipient (config : NodeConfig) : Result Hash256 :=
  if config.coinbaseRecipientHex.isEmpty then .ok zeroHash
  else hashFromHex config.coinbaseRecipientHex

def buildTemplateParams (config : NodeConfig) (consensus : ConsensusParams) (recipient : Hash256) :
    BlockTemplateParams where
  version := kBlockVersion
  maxBlockSizeBytes :=
    if config.maxBlockSizeBytes ≠ 0 then config.maxBlockSizeBytes else kMaxBlockSizeBytes
  maxTransactions := kMaxTransactionsPerBlock
  consensus := consensus
  coinbaseRecipient := recipient

def blockTimestamp (genesisTimestamp : UInt64) (height : UInt32) : UInt64 :=
  genesisTimestamp + height.toUInt64

def buildGenesisBlock (config : NodeConfig) : Block :=
  ⟨⟨kBlockVersion, zeroHash, computeMerkleRoot [], config.genesisTimestamp, 0⟩, []⟩

theorem create_genesis (config : NodeConfig) (params : ConsensusParams) :
    Chain.create (buildGenesisBlock config) params =
      .ok ⟨(buildGenesisBlock config).header, UtxoSet.empty, params⟩ :=
  Chain.create_nil params rfl rfl rfl rfl

theorem genesis_toBytes_length (config : NodeConfig) :
    (buildGenesisBlock config).toBytes.length = 84 := by
  simp only [Block.toBytes, Block.serialize, List.length_append, BlockHeader.serialize_length,
    putU32_length]
  rfl

/-- Rewards of 50 that the next block may spend. -/
def rewardConfig : NodeConfig := { blockSubsidy := 50, coinbaseMaturity := 1 }

def rewardBlock : Block :=
  ⟨⟨kBlockVersion, (buildGenesisBlock rewardConfig).header.hash, computeMerkleRoot [reward], 0, 1⟩,
    [reward]⟩

theorem rewardBlock_sane : rewardBlock.Sane := singleton_block_sane reward_sane rfl

theorem rewardBlock_connects :
    connectBlock rewardBlock UtxoSet.empty ⟨50, 1⟩ = .ok (0, rewardCoins) :=
  connectBlock_coinbase reward_sane rfl rfl rfl (by decide) rfl

theorem rewardBlock_fits : rewardBlock.toBytes.length = 176 := by
  rw [block_toBytes_length, rewardBlock, List.map_singleton, Transaction.toBytes_length]
  rfl

theorem rewardBlock_linksTo : rewardBlock.header.LinksTo (buildGenesisBlock rewardConfig).header :=
  ⟨rfl, rfl, rfl, UInt64.le_refl _⟩

end Blockchain
