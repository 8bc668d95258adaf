import CommonLib.XNet.Subnet
import CommonLib.XNet.Private
import CommonLib.XError.Leaks
import CommonLib.Entitlements.RoundTrip
import CommonLib.IPPool.Pool
import CommonLib.IPPool.Invariant
import CommonLib.IPPool.Guarantees
import CommonLib.IPPool.Filling
import CommonLib.IPPool.Search
import CommonLib.IPAM.Isolation
import CommonLib.IPAM.PortFilter
import CommonLib.IPAM.PortText
import CommonLib.IPAM.Mirror
import CommonLib.IPAM.LimitFailures
import CommonLib.IPAM.Handles
import CommonLib.XLimits.BlockerSafety
import CommonLib.XLimits.Recent
import CommonLib.XSync.Broadcast
import CommonLib.XCrypto.FailedWrites
import CommonLib.XCrypto.KeyMap
import CommonLib.XHTTP.Renewal
import CommonLib.XHTTP.Attempts
import CommonLib.XHTTP.CertWatcher
import CommonLib.XPipe.EndOfStream
import CommonLib.XPipe.WakeUps
import CommonLib.XPipe.Deadlines
import CommonLib.XTTLMap.Refinement
import CommonLib.XTTLMap.Termination
import CommonLib.XTTLMap.Expiry
import CommonLib.XCache.Contents
import CommonLib.XCache.Retention
import CommonLib.XCache.Handover
import CommonLib.XCache.Frame
import CommonLib.XStats.Conservation
import CommonLib.XDNS.Client.PriorityOrder
import CommonLib.XDNS.Client.CachedAnswers
import CommonLib.XDNS.Client.CachedLifetimes
import CommonLib.XDNS.Client.NegativeAnswers
import CommonLib.XDNS.Client.LastActiveOrder
import CommonLib.XDNS.Client.Builder
import CommonLib.XDNS.DNSBase.Matching
import CommonLib.XDNS.DNSBase.Additions
import CommonLib.XDNS.DNSBase.Unchain
import CommonLib.XDNS.DNSBase.Reports
import CommonLib.Protect.Balance
import CommonLib.Protect.Brackets
import CommonLib.ConnMgr.CloseAll
import CommonLib.ConnMgr.Registering
import CommonLib.XProxy.Forward
import CommonLib.XProxy.Accounting
import CommonLib.Secret.Sealer
import CommonLib.Shaper.Durations
import CommonLib.Control.Retry
import CommonLib.GeoIP.Lookups
import CommonLib.GeoIP.Shutdown
import CommonLib.GeoIP.Reload
import CommonLib.GeoIP.RemoteIP
import CommonLib.StatUtils.Avg
import CommonLib.XStorage.Requests
import CommonLib.Human.RoundTrip
