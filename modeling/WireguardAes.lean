import WireguardAes.ReplayCounter
import WireguardAes.AllowedipsRuns
import WireguardAes.SendNonce
import WireguardAes.HandshakeRuns
import WireguardAes.RequestSize
import WireguardAes.InitiationOrder
import WireguardAes.ResponseRaces
import WireguardAes.TransportKeys
import WireguardAes.IdentityChange
import WireguardAes.Delivery
import WireguardAes.PrevQueueFifo
import WireguardAes.CookieReply
import WireguardAes.HandshakeQueue
import WireguardAes.KeyErasure
import WireguardAes.IndexBuckets
import WireguardAes.PeerRemoval
import WireguardAes.AllowedipsShape
import WireguardAes.AllowedipsPublish
import WireguardAes.PipelineFlush
import WireguardAes.Lib.TokenBucket
import WireguardAes.Ratelimiter
import WireguardAes.Lib.Ledger
import WireguardAes.Newlink
import WireguardAes.RatelimiterTable
import WireguardAes.RatelimiterCollection
import WireguardAes.RatelimiterSingle
import WireguardAes.RatelimiterCount
import WireguardAes.AllowedipsRead
import WireguardAes.AllowedipsChoose
import WireguardAes.AllowedipsReinsert
import WireguardAes.Lib.ByteMemory
import WireguardAes.Lib.Hkdf
import WireguardAes.Kdf
import WireguardAes.Tai64n
import WireguardAes.Lib.ListCursor
import WireguardAes.Lib.Ranking
import WireguardAes.Lib.SocketBuffer
import WireguardAes.Netlink
import WireguardAes.NetlinkChanges
import WireguardAes.NetlinkDump
import WireguardAes.NetlinkDumpComplete
import WireguardAes.NetlinkPrivateKey
import WireguardAes.PacketHeader
import WireguardAes.SessionBegin
import WireguardAes.Timers
import WireguardAes.TimersRunDown
import WireguardAes.Padding
import WireguardAes.Tunnel
import WireguardAes.Sockets
import WireguardAes.NetlinkTidy
import WireguardAes.NetlinkRestore
import WireguardAes.AllowedipsReclaim
import WireguardAes.AllowedipsRetire
import WireguardAes.AllowedipsReclaimRuns
import WireguardAes.Xmit
