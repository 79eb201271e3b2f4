import Ruru.SctpFifo
import Ruru.SctpShortSends
import Ruru.SctpHandles
import Ruru.Http.ReceiveBuffer
import Ruru.Http.Termination
import Ruru.Http.Segmentation
import Ruru.Http.Framing
import Ruru.Http.BodyParse
import Ruru.RequestOutcome
import Ruru.Dispatch
import Ruru.ArenaIntegrity
import Ruru.Delivery
import Ruru.HeartBeat
import Ruru.RingFifo
import Ruru.DtlsTermination
import Ruru.DtlsFlush
import Ruru.Registration
import Ruru.ScanPeriod
import Ruru.CacheScan
import Ruru.HeartBeatWakes
import Ruru.Handshakes
import Ruru.Records
import Ruru.Isolation
import Ruru.Lifecycle
import Ruru.Network
import Ruru.Json.Bounds
import Ruru.Json.Requests
import Ruru.EchoRelay
import Ruru.Provenance
import Ruru.Http.FastScan
import Ruru.Http.Grammar
import Ruru.Http.ChunkedTexts
