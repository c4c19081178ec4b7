import Wazn.Library.Tally
import Wazn.Library.StateMachine
import Wazn.Library.ExceptLoop
import Wazn.Library.ListWindow
import Wazn.Library.Radix
import Wazn.Library.Blocks
import Wazn.Library.ByteCodec
import Wazn.Library.AssocList
import Wazn.Library.IndexMap
import Wazn.Library.OrderStat
import Wazn.Library.RoundRobin
import Wazn.Library.WideMul
import Wazn.Library.FloatRound
import Wazn.Library.Merkle
import Wazn.Library.LowerBound
import Wazn.Library.SiftHeap
import Wazn.Library.MultiScalar
import Wazn.Library.OrderedSet
import Wazn.Model.HardFork
import Wazn.Model.Difficulty
import Wazn.Model.Base58
import Wazn.Model.BinaryArchive
import Wazn.Model.RctTypes
import Wazn.Model.CryptonoteBasic
import Wazn.Model.Address
import Wazn.Model.TxExtra
import Wazn.Model.FormatUtils
import Wazn.Model.MinerTx
import Wazn.Model.Median
import Wazn.Model.BlockTimestamp
import Wazn.Model.TxPool
import Wazn.Model.BlockTemplate
import Wazn.Model.HandleBlock
import Wazn.Model.PeerList
import Wazn.Model.Wallet2
import Wazn.Model.Fee
import Wazn.Model.Pruning
import Wazn.Model.IntUtil
import Wazn.Model.DifficultyWords
import Wazn.Model.BlockReward
import Wazn.Model.ChainSync
import Wazn.Model.AmountText
import Wazn.Model.TreeHash
import Wazn.Model.ElectrumWords
import Wazn.Model.GammaPicker
import Wazn.Model.RollingMedian
import Wazn.Model.MultiExp
import Wazn.Model.BlockQueue
import Wazn.Model.PortableStorage
import Wazn.Analysis.HardForkWindow
import Wazn.Analysis.HardForkReorganize
import Wazn.Analysis.HardForkVersions
import Wazn.Analysis.DifficultyWindow
import Wazn.Analysis.DifficultyRecalc
import Wazn.Analysis.Base58RoundTrip
import Wazn.Analysis.BinaryArchiveCodec
import Wazn.Analysis.RctRoundTrip
import Wazn.Analysis.TransactionRoundTrip
import Wazn.Analysis.AddressRoundTrip
import Wazn.Analysis.TxExtraRoundTrip
import Wazn.Analysis.PrunedWeight
import Wazn.Analysis.MinerTxValid
import Wazn.Analysis.DecomposeAmount
import Wazn.Analysis.AltChainTimestamps
import Wazn.Analysis.TxPoolBookkeeping
import Wazn.Analysis.BlockTemplateFill
import Wazn.Analysis.BlockTxsReturn
import Wazn.Analysis.PeerListInvariant
import Wazn.Analysis.WalletTransfers
import Wazn.Analysis.FeeEstimate
import Wazn.Analysis.PruningHeights
import Wazn.Analysis.DifficultyWords
import Wazn.Analysis.BlockReward
import Wazn.Analysis.ChainSync
import Wazn.Analysis.AmountText
import Wazn.Analysis.TreeHash
import Wazn.Analysis.ElectrumWords
import Wazn.Analysis.GammaPicker
import Wazn.Analysis.RollingMedianHeap
import Wazn.Analysis.RollingMedian
import Wazn.Analysis.MultiExp
import Wazn.Analysis.Straus
import Wazn.Analysis.Pippenger
import Wazn.Analysis.BlockQueue
import Wazn.Analysis.PortableStorageReader
import Wazn.Analysis.PortableStorageRoundTrip
