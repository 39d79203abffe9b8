import ProxyProtocol.Axum
import ProxyProtocol.Building
import ProxyProtocol.Connection
import ProxyProtocol.Integrity
import ProxyProtocol.Limits
import ProxyProtocol.Load
import ProxyProtocol.Outcomes
import ProxyProtocol.Progress
import ProxyProtocol.RawTlvs
import ProxyProtocol.Rebuild
import ProxyProtocol.RoundTrip
import ProxyProtocol.Segmentation
import ProxyProtocol.Sender
import ProxyProtocol.Server
import ProxyProtocol.TlvRegion
import ProxyProtocol.Transparency
import ProxyProtocol.Trust
import ProxyProtocol.V1Grammar
import ProxyProtocol.V2Grammar
import ProxyProtocol.Vendor
