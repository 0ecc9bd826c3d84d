import Ringpop.Memory.Cells
import Ringpop.Collections.Clockwise
import Ringpop.Collections.Rounds
import Ringpop.Collections.Runs
import Ringpop.Forward.InFlight
import Ringpop.Forward.Reports
import Ringpop.Forward.Retries
import Ringpop.Replica.PreferenceList
import Ringpop.Replica.QuorumOverlap
import Ringpop.Hashring.IntWidth
import Ringpop.Hashring.RingContent
import Ringpop.Hashring.RingReports
import Ringpop.Hashring.SharedRing
import Ringpop.Router.Adapter
import Ringpop.Swim.Agreement
import Ringpop.Swim.ChecksumString
import Ringpop.Swim.Detection
import Ringpop.Swim.Dissemination
import Ringpop.Swim.Gossip
import Ringpop.Swim.InvalidState
import Ringpop.Swim.Merge
import Ringpop.Swim.Piggyback
import Ringpop.Swim.IndirectPing
import Ringpop.Swim.JoinDelayer
import Ringpop.Swim.JoinRound
import Ringpop.Swim.Leaving
import Ringpop.Swim.Newest
import Ringpop.Swim.Rollup
import Ringpop.Swim.Structure
import Ringpop.Swim.Timers
import Ringpop.Facade.Bootstrapped
import Ringpop.Facade.Concurrent
import Ringpop.Facade.Routing
import Ringpop.Facade.Sequential
