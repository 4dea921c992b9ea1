import Namada.Math.LastWrite
import Namada.Math.PrefixScan
import Namada.Math.Radix
import Namada.Math.FixedWidth
import Namada.Math.Base32Hex
import Namada.Math.Except
import Namada.Math.Separated
import Namada.Math.SortedMap
import Namada.Core.Basic
import Namada.Core.Storage
import Namada.Core.Token
import Namada.State.WriteLog
import Namada.State.WriteLogLayers
import Namada.ProofOfStake.Epoched
import Namada.ProofOfStake.EpochedTrimming
import Namada.ProofOfStake.Types
import Namada.ProofOfStake.Redelegation
import Namada.ProofOfStake.Bonds
import Namada.Storage.KeyOrder
import Namada.Storage.LazyMap
import Namada.Token.Storage
import Namada.Token.Minting
import Namada.Token.MultitokenVp
import Namada.Storage.SubKey
import Namada.Core.Dec
import Namada.Governance.Tally
import Namada.Math.Bindings
import Namada.Governance.Votes
import Namada.ProofOfStake.Slashing
import Namada.Math.Decimal
import Namada.Core.Denominated
import Namada.Core.Signed
import Namada.Core.DecString
import Namada.Math.TwoAdic
import Namada.Core.VotingPower
import Namada.Math.SortedMerge
import Namada.State.PrefixIter
import Namada.Core.Epochs
import Namada.Math.BinarySearch
import Namada.Core.EthEventsQueue
import Namada.Math.Schedule
import Namada.Gas.VpsGas
import Namada.Storage.LazyVec
import Namada.ProofOfStake.Liveness
import Namada.Shell.PrepareProposal
import Namada.Math.Truncation
import Namada.ProofOfStake.Rewards
import Namada.Core.UintDiv
import Namada.Core.Keccak
import Namada.MerkleTree.BridgePool
import Namada.MerkleTree.BridgePoolVerify
import Namada.MerkleTree.BridgePoolProof
import Namada.Math.SortedMapSum
import Namada.ProofOfStake.Unbond
import Namada.ProofOfStake.UnbondAccounting
