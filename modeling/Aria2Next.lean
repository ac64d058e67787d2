import Aria2Next.BtTask
import Aria2Next.Ed2kDetach
import Aria2Next.Ed2kInflaters
import Aria2Next.Ed2kRecords
import Aria2Next.Ed2kUploads
import Aria2Next.Ed2kVerified
import Aria2Next.EncodedWord
import Aria2Next.EngineRelocate
import Aria2Next.FileMoves
import Aria2Next.HostPoolLimits
import Aria2Next.HostPoolSeats
import Aria2Next.HttpContentRange
import Aria2Next.HttpCredentials
import Aria2Next.HttpMirrors
import Aria2Next.HttpOwnership
import Aria2Next.HttpPaths
import Aria2Next.HttpSlots
import Aria2Next.KadBuckets
import Aria2Next.KadInFlight
import Aria2Next.KadObfuscation
import Aria2Next.KadSearch
import Aria2Next.Md4
import Aria2Next.MediaPublication
import Aria2Next.MediaSegments
import Aria2Next.MediaTask
import Aria2Next.MuxInput
import Aria2Next.PeerProtocol
import Aria2Next.PlannerDisjoint
import Aria2Next.PortMapper
import Aria2Next.RpcAuthorization
import Aria2Next.SafeFileName
import Aria2Next.SessionRoundTrip
import Aria2Next.ThunderLink
import Aria2Next.TorrentStore
