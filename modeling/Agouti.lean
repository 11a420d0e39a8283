import Agouti.Coins.CacheRuns
import Agouti.Coins.CompressedOutput
import Agouti.Consensus.BlockGates
import Agouti.Consensus.ChainWork
import Agouti.Consensus.DryRun
import Agouti.Consensus.KernelTarget
import Agouti.Consensus.OwnStakes
import Agouti.Consensus.Retarget
import Agouti.Consensus.StakeRuns
import Agouti.Masternode.AddressRuns
import Agouti.Masternode.BudgetTally
import Agouti.Masternode.BudgetVeto
import Agouti.Masternode.BudgetVoteRuns
import Agouti.Masternode.GreedyBudget
import Agouti.Masternode.MasternodeFill
import Agouti.Masternode.PaymentQueue
import Agouti.Masternode.PaymentRuns
import Agouti.Masternode.Ranks
import Agouti.Masternode.SwiftArrival
import Agouti.Mempool.PoolRuns
import Agouti.Mempool.StandardFlags
import Agouti.Net.AddrRuns
import Agouti.Net.DownloadWindow
import Agouti.Net.FilteredBlock
import Agouti.Net.LimitedMap
import Agouti.Net.MerkleProof
import Agouti.Net.Messages
import Agouti.Primitives.Base58
import Agouti.Primitives.LimbDivision
import Agouti.Primitives.VarIntForms
import Agouti.Script.Destinations
import Agouti.Script.MultiSig
import Agouti.Validation.ValueSums
import Agouti.Wallet.SelectionSound
import Agouti.Wallet.SpendIndex
