import Gocoin.Machinery.BigEndian
import Gocoin.Machinery.Rlp
import Gocoin.Machinery.RlpValue
import Gocoin.Machinery.Patricia
import Gocoin.Common.Types
import Gocoin.Trie.Encoding
import Gocoin.Trie.Node
import Gocoin.Trie.Trie
import Gocoin.Trie.Hasher
import Gocoin.Trie.SecureTrie
import Gocoin.State.Objects
import Gocoin.State.StateDB
import Gocoin.ValidateGroup.Group
import Gocoin.Protocol.Tx
import Gocoin.Protocol.Block
import Gocoin.State.Commit
import Gocoin.Space.Database
import Gocoin.Space.Transition
import Gocoin.Space.BlockChain
import Gocoin.Space.Worker
import Gocoin.Space.Genesis
import Gocoin.Common.Sample
import Gocoin.Space.Frame
import Gocoin.Space.Run
import Gocoin.Space.Authority
import Gocoin.Space.Canonical
import Gocoin.Space.Validation
import Gocoin.Trie.Merkle
import Gocoin.Trie.Represent
import Gocoin.Trie.Simulation
import Gocoin.Trie.Store
import Gocoin.Trie.Maps
import Gocoin.State.Moves
import Gocoin.State.Operations
import Gocoin.State.Finalise
import Gocoin.State.Reopen
import Gocoin.State.Persistence
import Gocoin.State.Order
import Gocoin.State.Ledger
import Gocoin.Space.Execution
import Gocoin.Space.Agreement
import Gocoin.Space.Spending
import Gocoin.Space.Overdraft
import Gocoin.Space.Replay
import Gocoin.Space.Overwrite
import Gocoin.ValidateGroup.Moves
import Gocoin.ValidateGroup.Distinct
import Gocoin.ValidateGroup.Loss
import Gocoin.ValidateGroup.Restart
import Gocoin.Common.Edits
import Gocoin.ValidateGroup.Crash
import Gocoin.Space.Keyholders
import Gocoin.Protocol.Decode
import Gocoin.Space.Reopening
import Gocoin.Space.Recovery
import Gocoin.Space.Roots
import Gocoin.Machinery.Quorum
import Gocoin.Space.Voting
import Gocoin.Space.Decision
import Gocoin.Rlp.Encbuf
import Gocoin.Rlp.Reads
import Gocoin.Protocol.Wire
import Gocoin.Protocol.Binding
import Gocoin.Trie.Rehash
import Gocoin.Protocol.DeriveSha
import Gocoin.BlsGroup.Keys
import Gocoin.Space.Malleability
import Gocoin.Space.Storage
import Gocoin.BlsGroup.Progress
import Gocoin.BlsGroup.Generation
import Gocoin.Space.Ballots
import Gocoin.Space.Published
import Gocoin.Space.Tables
import Gocoin.Machinery.Quicksort
import Gocoin.Vrf.Vrf
import Gocoin.Vrf.Coins
import Gocoin.State.Bindings
import Gocoin.Space.Tally
import Gocoin.Space.Locality
import Gocoin.State.Ids
import Gocoin.Space.Counters
import Gocoin.Space.Crashes
import Gocoin.Machinery.Framing
import Gocoin.NetServer.TcpServer
import Gocoin.Publish.Notary
import Gocoin.Common.Merkle
import Gocoin.Vrf.Rounds
import Gocoin.ValidateGroup.Epochs
import Gocoin.Space.Admission
import Gocoin.Trie.Sessions
import Gocoin.Vrf.Checks
import Gocoin.Machinery.Json
import Gocoin.Protocol.Signing
import Gocoin.Protocol.EpochTx
import Gocoin.Common.Hexutil
import Gocoin.Protocol.TxJson
import Gocoin.State.Rebinding
import Gocoin.Space.Liquidation
import Gocoin.State.Aliasing
import Gocoin.State.Mirror
import Gocoin.State.Intermediate
import Gocoin.Machinery.Ancestry
import Gocoin.Space.Ancestor
import Gocoin.BlsGroup.Announcement
import Gocoin.BlsGroup.Restart
import Gocoin.Rlp.Consumption
import Gocoin.Space.Reports
import Gocoin.Space.Founding
import Gocoin.Space.Replicas
import Gocoin.Trie.Proof
