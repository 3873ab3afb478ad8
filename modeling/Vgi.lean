import Vgi.Cache.FlushFinal
import Vgi.Cache.SlideCurrent
import Vgi.Cache.TierOrder
import Vgi.Cache.Expiry
import Vgi.Scan.CaptureComplete
import Vgi.Scan.PartitionExact
import Vgi.Cache.PackSound
import Vgi.Cache.PackReload
import Vgi.Shm.Lease
import Vgi.Shm.Chained
import Vgi.Transport.Policy
import Vgi.Rpc.Unary
import Vgi.Github.Pin
import Vgi.Transport.Container
import Vgi.Transport.CommandLine
import Vgi.Secret.Expiry
import Vgi.Github.Tar
import Vgi.Function.Equals
import Vgi.Window.Streaming
import Vgi.Exchange.Buffered
import Vgi.Exchange.MemoKey
import Vgi.Function.ScalarExecute
import Vgi.Rpc.HttpBody
import Vgi.Artifact.Lease
import Vgi.Catalog.Lookup
import Vgi.Catalog.CreateAs
import Vgi.Catalog.Version
import Vgi.Write.Statement
import Vgi.Exchange.BufferedSink
import Vgi.Exchange.Registry
import Vgi.Scan.Plan
import Vgi.Catalog.Statistics
import Vgi.Catalog.ScanCopy
import Vgi.Catalog.EntryStatistics
import Vgi.Oauth.Discovery
import Vgi.Oauth.Store
import Vgi.Transport.Redact
import Vgi.Transport.Identity
import Vgi.Function.Arguments
