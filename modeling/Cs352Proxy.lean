import Cs352Proxy.Helper
import Cs352Proxy.Base.Buffer
import Cs352Proxy.Base.Chain
import Cs352Proxy.Base.Keyed
import Cs352Proxy.Base.Runs
import Cs352Proxy.Codec
import Cs352Proxy.Wire
import Cs352Proxy.State
import Cs352Proxy.Handle
import Cs352Proxy.Topology
import Cs352Proxy.Walk
import Cs352Proxy.Learn
import Cs352Proxy.Sweep
import Cs352Proxy.Receive
import Cs352Proxy.System
import Cs352Proxy.Knowledge
import Cs352Proxy.Membership
import Cs352Proxy.Agreement
import Cs352Proxy.KeepAlive
import Cs352Proxy.Table
import Cs352Proxy.RoundTrip
import Cs352Proxy.Flood
import Cs352Proxy.Base.EarliestMin
import Cs352Proxy.Routes
import Cs352Proxy.Trace
import Cs352Proxy.Frames
import Cs352Proxy.Handshake
import Cs352Proxy.Settled
import Cs352Proxy.Neighbours
import Cs352Proxy.Locking
import Cs352Proxy.Expiry
import Cs352Proxy.Deletion
import Cs352Proxy.Effect
import Cs352Proxy.Distance
import Cs352Proxy.Stale
import Cs352Proxy.Keys
import Cs352Proxy.Merge
import Cs352Proxy.Keeping
import Cs352Proxy.Departure
import Cs352Proxy.Decoder
import Cs352Proxy.Reply
import Cs352Proxy.Capacity
import Cs352Proxy.Readvertise
import Cs352Proxy.Tap
import Cs352Proxy.Reorder
import Cs352Proxy.Base.Scan
import Cs352Proxy.Config
import Cs352Proxy.ConfigFile
import Cs352Proxy.Recorded
import Cs352Proxy.Data
import Cs352Proxy.Base.Doubly
import Cs352Proxy.Buckets
import Cs352Proxy.ForwardingHash
import Cs352Proxy.Uthash
import Cs352Proxy.Integrity
import Cs352Proxy.Linking
import Cs352Proxy.Returning
import Cs352Proxy.Isolation
import Cs352Proxy.Pairing
import Cs352Proxy.Process
import Cs352Proxy.Tunnel
import Cs352Proxy.Portable
import Cs352Proxy.Peers
import Cs352Proxy.Acceptor
import Cs352Proxy.Device
import Cs352Proxy.Telling
import Cs352Proxy.Network
import Cs352Proxy.Broadcast
