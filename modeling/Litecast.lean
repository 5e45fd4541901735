import Litecast.Agreement
import Litecast.Exchange
import Litecast.StoreAccounting
import Litecast.StoreDigests
import Litecast.HttpServer
import Litecast.Supervisor
import Litecast.PublisherLease
import Litecast.Servable
import Litecast.Publishing
import Litecast.Isolation
import Litecast.Boundaries
import Litecast.Backing
import Litecast.StoreEviction
import Litecast.Assembled
import Litecast.WholeVersion
import Litecast.BufferViews
import Litecast.MirrorRetention
import Litecast.SourceFailover
import Litecast.RegisteredServices
import Litecast.MembershipChange
import Litecast.ManifestErrors
import Litecast.FrameErrors
import Litecast.MessageDomains
import Litecast.Batches
import Litecast.JsonKeys
import Litecast.Url
import Litecast.EndpointRoundTrip
import Litecast.DistributionFailure
import Litecast.MerkleBinding
import Litecast.Naming
import Litecast.Bundles
import Litecast.InferredSize
import Litecast.ShardFiles
import Litecast.PublishOrder
import Litecast.WritableTargets
import Litecast.AcceptedChecksums
import Litecast.PersistentEndpoint
import Litecast.OriginFiles
import Litecast.UcxxDownloads
import Litecast.Relay
