import PaperNode.OrderedTable
import PaperNode.GroupedSums
import PaperNode.BoundedRecursion
import PaperNode.LinkedNodes
import PaperNode.TransitionRuns
import PaperNode.Words
import PaperNode.Blocks
import PaperNode.BlockIdentity
import PaperNode.BlockStore
import PaperNode.LedgerQueries
import PaperNode.LedgerProcess
import PaperNode.LedgerRollback
import PaperNode.BlockLattice
import PaperNode.QueryCorrectness
import PaperNode.ProcessSteps
import PaperNode.ChainInvariant
import PaperNode.RollbackSteps
import PaperNode.IndexInvariant
import PaperNode.RollbackRuns
import PaperNode.LedgerRuns
import PaperNode.AccountChains
import PaperNode.MoneyInvariant
import PaperNode.BlockSetLedger
import PaperNode.Representatives
import PaperNode.RollbackFuture
import PaperNode.VoteWeight
import PaperNode.WeightAgreement
import PaperNode.ProcessReturns
import PaperNode.VoteRecords
import PaperNode.Tally
import PaperNode.Elections
import PaperNode.ElectionLedger
import PaperNode.SuccessorLinks
import PaperNode.Base58
import PaperNode.Numerals
import PaperNode.HexNumerals
import PaperNode.PropertyTree
import PaperNode.TextFields
import PaperNode.BlockJson
import PaperNode.JsonNumerals
import PaperNode.DecimalAmounts
import PaperNode.Wallet
import PaperNode.WalletKeys
import PaperNode.WalletAccounts
import PaperNode.WalletMove
import PaperNode.WalletBackup
import PaperNode.PendingSearch
import PaperNode.BootstrapInitiator
import PaperNode.ProofOfWork
import PaperNode.WorkPool
import PaperNode.StoreRestarts
import PaperNode.WalletActions
import PaperNode.SuccessorMirror
import PaperNode.FieldReaders
import PaperNode.BlockFormat
import PaperNode.BulkStream
import PaperNode.MessageParser
import PaperNode.PartialLedger
import PaperNode.GapCache
import PaperNode.BlockDelivery
import PaperNode.RepublishLoop
import PaperNode.FrontierExchange
import PaperNode.FrontierAnswer
import PaperNode.BulkPull
import PaperNode.BlockSynchronization
import PaperNode.BootstrapPull
import PaperNode.BulkPush
import PaperNode.BootstrapReplay
import PaperNode.BalanceHistory
import PaperNode.RepeatedBlocks
import PaperNode.PullStreaming
import PaperNode.TransactionMonitor
import PaperNode.Landing
import PaperNode.Peers
import PaperNode.PeerExchange
import PaperNode.DatabaseResizing
import PaperNode.KeyDerivation
import PaperNode.SwapRemoval
import PaperNode.UnsignedText
import PaperNode.PortTexts
import PaperNode.FairRuns
import PaperNode.SendQueue
import PaperNode.SendRounds
import PaperNode.SendDelivery
import PaperNode.BootstrapServer
import PaperNode.BootstrapSession
import PaperNode.ProcessorService
import PaperNode.Conflicts
import PaperNode.Confirmations
import PaperNode.ElectionEnds
import PaperNode.WalletSpending
import PaperNode.SpendingRuns
import PaperNode.SpendingReturns
import PaperNode.Gossip
import PaperNode.GossipHosts
import PaperNode.GossipRuns
import PaperNode.GossipEnds
