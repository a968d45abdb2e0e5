import Skepticoin.Chain.DoubleSpend
import Skepticoin.Chain.Supply
import Skepticoin.Datatypes.Identity
import Skepticoin.Datatypes.RoundTrip
import Skepticoin.Datatypes.Equality
import Skepticoin.MerkleTree.Commitment
import Skepticoin.MerkleTree.Proof
import Skepticoin.CoinState.Order
import Skepticoin.CoinState.Forks
import Skepticoin.CoinState.Readding
import Skepticoin.Balances.Application
import Skepticoin.Balances.PublicKeys
import Skepticoin.BlockStore.Loss
import Skepticoin.BlockStore.Flush
import Skepticoin.Consensus.Checkpoint
import Skepticoin.Consensus.Construction
import Skepticoin.Consensus.Failures
import Skepticoin.Networking.Messages.RoundTrip
import Skepticoin.Networking.Connection.Theorems
import Skepticoin.Networking.Locator
import Skepticoin.Networking.Batch
import Skepticoin.Networking.Pool.Admission
import Skepticoin.Networking.Node.Buffer
import Skepticoin.Networking.Node.Durability
import Skepticoin.Networking.Node.Vouching
import Skepticoin.Networking.Node.Soundness
import Skepticoin.Networking.LocalPeer.Theorems
import Skepticoin.Mining.LostUpdate
import Skepticoin.Mining.Template
import Skepticoin.Wallet.Broadcast
import Skepticoin.Wallet.FailedSpend
import Skepticoin.Wallet.SignedMessage
import Skepticoin.Networking.FetchLimit
import Skepticoin.Wallet.Reservation
import Skepticoin.Explorer.Agreement
import Skepticoin.Mining.SharedCoinstate
import Skepticoin.CoinState.Agreement
import Skepticoin.Networking.Thread
import Skepticoin.Lib.Duplex
import Skepticoin.Networking.LocalPeer.Greetings
import Skepticoin.Networking.InitialDownload
import Skepticoin.Networking.Node.Announcement
import Skepticoin.Networking.Thread.Broadcast
import Skepticoin.Lib.Flood
import Skepticoin.Networking.Gossip
import Skepticoin.Networking.Gossip.Blocks
import Skepticoin.Networking.Gossip.Transactions
import Skepticoin.Networking.Thread.Survival
import Skepticoin.Networking.Thread.WrongHeight
