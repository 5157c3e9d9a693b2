import VoleArc.Circuit.Correctness
import VoleArc.Protocol.Presenting
import VoleArc.Protocol.Issuance
import VoleArc.Protocol.WireFormats
import VoleArc.Protocol.Persistence
import VoleArc.Protocol.Cloning
import VoleArc.Circuit.Issuance
import VoleArc.Protocol.EndToEnd
import VoleArc.Protocol.Concurrent
import VoleArc.Statements
import VoleArc.Protocol.Buckets
import VoleArc.Protocol.Interleaving
import VoleArc.Circuit.Commitment
import VoleArc.Shake256
import VoleArc.Machine.Decoders
import VoleArc.Nibbles
import VoleArc.Machine.Buffers
import VoleArc.Circuit.Degree
import VoleArc.Protocol.Capacity
import VoleArc.Protocol.Exclusivity
import VoleArc.Protocol.Recovery
import VoleArc.Protocol.Agreement
import VoleArc.Circuit.Checkpoints
import VoleArc.Protocol.Streams
import VoleArc.Circuit.Layout
