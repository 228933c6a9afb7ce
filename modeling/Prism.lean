import Prism.Block
import Prism.Library.Traversal
import Prism.Library.VecSet
import Prism.Network.Buffer
import Prism.Network.Worker
import Prism.Blockchain.State
import Prism.Blockchain.Insert
import Prism.Blockchain.VoteDiff
import Prism.Blockchain.Leader
import Prism.Blockchain.Ledger
import Prism.Library.OptionFold
import Prism.Validation
import Prism.Blockchain.Run
import Prism.Invariant.Index
import Prism.Invariant.VoteTable
import Prism.Invariant.VoteCount
import Prism.Invariant.Leaders
import Prism.Invariant.LedgerOrder
import Prism.Invariant.Ledger
import Prism.Invariant.TransactionRefs
import Prism.Library.BigEndian
import Prism.Network.Peer
import Prism.Library.Checked
import Prism.Sortition
import Prism.Library.SortedMap
import Prism.Miner.MemoryPool
import Prism.Library.MerkleLayers
import Prism.Crypto.Merkle
import Prism.Invariant.VoteDiff
import Prism.Blockchain.Unvoted
import Prism.Invariant.Unvoted
import Prism.Library.FirstMax
import Prism.Crypto.Hash
import Prism.Miner.Context
import Prism.Invariant.Miner
import Prism.Network.Node
import Prism.Invariant.Growth
import Prism.Invariant.Node
import Prism.Invariant.Database
