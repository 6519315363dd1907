import HashedBroker.AtomicPrograms
import HashedBroker.ReactiveTasks
import HashedBroker.JsonText
import HashedBroker.JsonRoundtrip
import HashedBroker.SortedMembers
import HashedBroker.Protocol
import HashedBroker.ProtocolDecoding
import HashedBroker.CanonicalBytes
import HashedBroker.Auth
import HashedBroker.ClientSigning
import HashedBroker.Database
import HashedBroker.DatabaseCalls
import HashedBroker.HandleClaims
import HashedBroker.TeamMembership
import HashedBroker.Broker
import HashedBroker.Server
import HashedBroker.Sessions
import HashedBroker.SessionOps
import HashedBroker.RegistryLiveness
import HashedBroker.Scripts
import HashedBroker.RelayConsent
import HashedBroker.Authentication
import HashedBroker.PresenceIndexes
import HashedBroker.TaskLogs
import HashedBroker.Replies
import HashedBroker.Deliveries
import HashedBroker.SequentialRuns
import HashedBroker.TableCoherence
import HashedBroker.Spellings
import HashedBroker.RelayLifetimes
import HashedBroker.SharedKeys
import HashedBroker.BrokerClient
import HashedBroker.ClientSockets
import HashedBroker.ReplyOrigins
import HashedBroker.ClientNetwork
import HashedBroker.Correlation
import HashedBroker.NetworkScripts
import HashedBroker.ConsentEvents
import HashedBroker.RelayCalls
import HashedBroker.TeamAnnouncements
import HashedBroker.PeerQuotas
import HashedBroker.ComingToRest
import HashedBroker.ConcurrentCalls
import HashedBroker.RelayQuotas
import HashedBroker.SignalingLimits
import HashedBroker.RegistrationOrder
import HashedBroker.PresenceViews
import HashedBroker.KeyLimits
import HashedBroker.HandleNames
import HashedBroker.ReplayWindow
import HashedBroker.RejectedCalls
import HashedBroker.JsonReordering
import HashedBroker.WireOrders
import HashedBroker.PresenceReadings
import HashedBroker.PresenceRelation
import HashedBroker.PresenceGauge
import HashedBroker.HandleContention
import HashedBroker.TerminatingRuns
import HashedBroker.HandleRecords
import HashedBroker.LookupAgreement
import HashedBroker.PendingTable
import HashedBroker.HandleIndex
import HashedBroker.HandlerFootprints
import HashedBroker.HexCodec
import HashedBroker.TaskAccounts
import HashedBroker.FiniteContinuations
import HashedBroker.FollowingHandlers
import HashedBroker.MetricTotals
import HashedBroker.ConnectedPeers
import HashedBroker.ArrivalOrder
import HashedBroker.SessionDeliveries
import HashedBroker.EndToEnd
