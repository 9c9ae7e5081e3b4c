import BasedAI.Lib.Fallible
import BasedAI.Lib.Grouping
import BasedAI.Lib.Transition
import BasedAI.Lib.Mapping
import BasedAI.Lib.ShareMath
import BasedAI.Lib.WeightedQuorum
import BasedAI.Lib.ByteWords
import BasedAI.Lib.PyText
import BasedAI.Lib.PyJson
import BasedAI.Lib.JsNumber
import BasedAI.Lib.JsValue
import BasedAI.Lib.Replay
import BasedAI.Lib.LogMirror
import BasedAI.Lib.MerkleTree
import BasedAI.Lib.CallStack
import BasedAI.Lib.RateLimit
import BasedAI.Lib.WeightedMedian
import BasedAI.Chain.Primitives
import BasedAI.Chain.Token
import BasedAI.Chain.AccessControl
import BasedAI.Chain.Crypto
import BasedAI.Chain.Codec
import BasedAI.Chain.Offchain
import BasedAI.Staking.StakingVault
import BasedAI.Staking.VaultCalls
import BasedAI.Staking.VaultAccounting
import BasedAI.Staking.Dilution
import BasedAI.Staking.Snapshots
import BasedAI.Staking.Withdrawal
import BasedAI.Staking.Requests
import BasedAI.Staking.Deposits
import BasedAI.Scoring.ScoringCalls
import BasedAI.Scoring.Finality
import BasedAI.Scoring.SignerStake
import BasedAI.Scoring.StakeWindow
import BasedAI.Scoring.Quorum
import BasedAI.Scoring.Lifecycle
import BasedAI.Subnet.SubnetRegistry
import BasedAI.Reward.RewardDistributor
import BasedAI.Market.ComputeUnitMarket
import BasedAI.Market.MarketCalls
import BasedAI.Market.Solvency
import BasedAI.Market.Debits
import BasedAI.Market.BatchRedemption
import BasedAI.Market.Collateral
import BasedAI.Chain.Erc20
import BasedAI.Subnet.Membership
import BasedAI.Subnet.Registrations
import BasedAI.System.Deployment
import BasedAI.System.Distribution
import BasedAI.System.FeeConservation
import BasedAI.System.Settlements
import BasedAI.System.Acceptance
import BasedAI.Tokens.BrainNFTL2
import BasedAI.Tokens.BrainNFT
import BasedAI.Tokens.BrainEscrow
import BasedAI.Tokens.Soulbound
import BasedAI.Tokens.StakeAmounts
import BasedAI.Governance.BasedGovernor
import BasedAI.Governance.Votes
import BasedAI.Governance.VoteSafety
import BasedAI.Client.BasedClient
import BasedAI.Client.SignedReceipts
import BasedAI.Client.BudgetSafety
import BasedAI.Client.TypeScriptClient
import BasedAI.Client.TypeScriptReceipts
import BasedAI.Client.Overcharge
import BasedAI.Miner.Receipts
import BasedAI.Miner.Runtime
import BasedAI.Miner.Handlers
import BasedAI.Miner.Settlement
import BasedAI.Miner.Redeemability
import BasedAI.Miner.RedeemableQueue
import BasedAI.Miner.Underpayment
import BasedAI.Miner.Acknowledged
import BasedAI.Miner.FailedInference
import BasedAI.Miner.HonestSettlement
import BasedAI.Miner.Challenges
import BasedAI.Gateway.Indexer
import BasedAI.Gateway.Server
import BasedAI.Gateway.ChainPoller
import BasedAI.Gateway.Canonical
import BasedAI.Gateway.MembershipMirror
import BasedAI.Gateway.FailedPolls
import BasedAI.Gateway.Rebuild
import BasedAI.Gateway.Routing
import BasedAI.Gateway.Ranking
import BasedAI.Gateway.Endpoints
import BasedAI.Validator.Merkle
import BasedAI.Validator.ScoreMiners
import BasedAI.Validator.Commitment
import BasedAI.Validator.Consistency
import BasedAI.Validator.Unresponsive
import BasedAI.Validator.ObservationOrder
import BasedAI.Validator.CandidatePool
import BasedAI.Validator.Runtime
import BasedAI.Validator.CanonicalRoots
import BasedAI.Validator.CanonicalScores
import BasedAI.Validator.CanonicalMedian
import BasedAI.Validator.CandidateRows
import BasedAI.Validator.Rejections
import BasedAI.Validator.Equivocation
import BasedAI.Validator.MerkleProofs
import BasedAI.Validator.SignedCandidates
import BasedAI.Validator.Challenges
import BasedAI.Validator.Observations
import BasedAI.Validator.EpochClock
import BasedAI.Lib.Buckets
import BasedAI.Validator.CommitmentAggregator
import BasedAI.Validator.RootSpellings
import BasedAI.Validator.Endorsements
import BasedAI.Validator.Proposals
import BasedAI.System.SignedMessages
import BasedAI.Chain.Authority
import BasedAI.Gateway.Announcements
import BasedAI.Governance.BridgedVotes
import BasedAI.Market.Exit
import BasedAI.System.Authority
import BasedAI.System.ChallengeRounds
import BasedAI.System.DeployScript
import BasedAI.System.ProposedRoots
import BasedAI.System.PublishedScores
import BasedAI.System.Slashing
import BasedAI.Tokens.MainnetScript
import BasedAI.Validator.CommitmentService
