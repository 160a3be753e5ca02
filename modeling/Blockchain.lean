import Blockchain.Error
import Blockchain.Lib.ByteCodec
import Blockchain.Lib.OrderedMap
import Blockchain.Sha256
import Blockchain.ByteIo
import Blockchain.Lib.HashTree
import Blockchain.Transaction
import Blockchain.Block
import Blockchain.UtxoSet
import Blockchain.TransactionValidation
import Blockchain.Lib.SpendLog
import Blockchain.BlockValidation
import Blockchain.Mempool
import Blockchain.Chain
import Blockchain.Conservation
import Blockchain.History
import Blockchain.DoubleSpend
import Blockchain.MempoolInvariant
import Blockchain.TipCommitment
import Blockchain.BlockBuilder
import Blockchain.Lib.Process
import Blockchain.Lib.Environment
import Blockchain.Lib.Session
import Blockchain.Lib.Transport
import Blockchain.ChainStore
import Blockchain.P2pMessage
import Blockchain.P2pPayloads
import Blockchain.P2pCanonical
import Blockchain.NodeConfig
import Blockchain.Lib.TextScan
import Blockchain.SocketIo
import Blockchain.PeerState
import Blockchain.PeerInvariant
import Blockchain.Relay
import Blockchain.RelaySync
import Blockchain.NativeSocket
import Blockchain.Production
import Blockchain.Lib.BlockFold
import Blockchain.Sha256Blocks
import Blockchain.Sha256Eval
import Blockchain.BlockRelay
import Blockchain.Catalog
import Blockchain.ConfigJson
import Blockchain.ConfigArgs
import Blockchain.FeeRate
import Blockchain.Lib.Ranking
import Blockchain.FeeOrder
import Blockchain.Eviction
import Blockchain.Handling
import Blockchain.Mining
import Blockchain.PoolConsistency
import Blockchain.FailedMessages
import Blockchain.LedgerFormat
import Blockchain.LedgerRestart
import Blockchain.LedgerSaving
import Blockchain.Lib.Run
import Blockchain.Maturity
import Blockchain.RelayAgreement
import Blockchain.RelayCompleteness
import Blockchain.RelayServer
import Blockchain.RelaySessions
import Blockchain.Simulator
import Blockchain.RestorePaths
import Blockchain.SimulatorAccounting
import Blockchain.SimulatorRestart
import Blockchain.Startup
import Blockchain.SyncBound
import Blockchain.ExactEviction
import Blockchain.ArrivalOrder
import Blockchain.GreedySelection
import Blockchain.BlockOrder
import Blockchain.TransactionFile
import Blockchain.Lib.Fips180
import Blockchain.Sha256Standard
import Blockchain.ConfigWhitespace
import Blockchain.Lib.Schedule
import Blockchain.Lib.Runs
import Blockchain.Exchange
import Blockchain.Ping
import Blockchain.MixedModes
import Blockchain.Durability
import Blockchain.Finality
import Blockchain.Delivery
import Blockchain.Refusal
import Blockchain.LedgerRules
import Blockchain.NodeSimulation
import Blockchain.Lib.Cost
import Blockchain.Resources
import Blockchain.ClientSaving
import Blockchain.Lib.FoldOrder
import Blockchain.CommandLine
import Blockchain.Confirmation
