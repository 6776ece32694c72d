import Copycat.Bitcoin.Finality
import Copycat.Bitcoin.Peers
import Copycat.Bitcoin.Prepare
import Copycat.Bitcoin.Rejects
import Copycat.Bitcoin.Coverage
import Copycat.Hiding
import Copycat.Prechecks
import Copycat.Avalanche.Acceptance
import Copycat.Avalanche.Queries
import Copycat.Avalanche.Confidence
import Copycat.Avalanche.Dependencies
import Copycat.Avalanche.Ballots
import Copycat.Avalanche.Management
import Copycat.Avalanche.Levels
import Copycat.Avalanche.Exchange
import Copycat.Avalanche.Proposals
import Copycat.Avalanche.Ordering
import Copycat.Avalanche.Drain
import Copycat.Avalanche.Quota
import Copycat.Avalanche.Timers
import Copycat.Avalanche.Polls
import Copycat.ChainReplication.Cluster
import Copycat.ChainReplication.Commits
import Copycat.ChainReplication.Acks
import Copycat.ChainReplication.Order
import Copycat.Batches
import Copycat.Returned
import Copycat.Conservation
import Copycat.Dissemination
import Copycat.VCores
import Copycat.FlowGen.Receivers
import Copycat.FlowGen.Totals
import Copycat.FlowGen.Reported
import Copycat.Bitcoin.Requests
import Copycat.FlowGen.Load
import Copycat.ValueCheck
import Copycat.Gossip.Traffic
import Copycat.Thread.Bitcoin
import Copycat.Thread.Avalanche
import Copycat.Voting.Replica
import Copycat.Voting.Queries
import Copycat.Voting.Network
import Copycat.Voting.Support
