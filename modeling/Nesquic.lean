import Nesquic.MsquicProtocol
import Nesquic.MsquicBlobSize
import Nesquic.MsquicUrl
import Nesquic.MsquicServer
import Nesquic.MsquicClient
import Nesquic.NeqoResponse
import Nesquic.NeqoServedOnce
import Nesquic.NeqoIsolation
import Nesquic.NeqoClient
import Nesquic.RequestHandlers
import Nesquic.QuicheServer
import Nesquic.QuicheWrites
import Nesquic.QuicheClient
import Nesquic.Stats
import Nesquic.Labels
import Nesquic.Metrics
import Nesquic.InfluxTags
import Nesquic.Conversation
import Nesquic.ServerSides
import Nesquic.ClientSides
import Nesquic.Pairings
import Nesquic.MsquicServerHeap
import Nesquic.NeqoProgress
import Nesquic.QuicheProgress
import Nesquic.MsquicMain
import Nesquic.Tracepoints
import Nesquic.Common
import Nesquic.Collector
import Nesquic.NeqoConnect
import Nesquic.QuinnProgress
import Nesquic.System
