import Cs352Proxy.Helper
import Cs352Proxy.Base.Buffer
import Cs352Proxy.Base.Memory

/-!
# Codec

The serialisation and deserialisation functions of `packets.c`, for a host of byte order `e`.

Buffers are byte lists with checked bounds. `htonLinkstate` walks the node list in the heap; it is
given fuel because a list that has become circular never ends. `ntohLinkstate` allocates its nodes
at the end of the heap. What `malloc` leaves in a new object is not determined by the program, so
it is a parameter (`Uninit`): the decoder never sets the link of the last of several nodes, nor the
list of a packet without nodes.

The functions for data packets take addresses: the packet, what its `data` points to and the buffer
lie in one memory, and a read past the end of an object yields the bytes behind it.
-/

namespace Cs352Proxy

open Base

abbrev Buf := List U8

/-- Contents of memory that was never written. -/
structure Uninit where
  node : Addr → LinkstateNode
  list : Addr → Ptr
  stack : Nat → U8

def htonHeader (e : Endian) (head : PktHeader) (buffer : Buf) : Option Buf := do
  let buffer ← memcpy buffer 0 (e.store 2 (htons e head.type).toNat)
  memcpy buffer 2 (e.store 2 (htons e head.length).toNat)

/-- `ntohs(*(uint16_t*)(buffer+off))`, and likewise below. -/
def readU16 (e : Endian) (buffer : Buf) (off : Nat) : Option U16 := do
  let bs ← slice buffer off 2
  some (ntohs e (BitVec.ofNat 16 (e.load bs)))

def readU32 (e : Endian) (buffer : Buf) (off : Nat) : Option U32 := do
  let bs ← slice buffer off 4
  some (ntohl e (BitVec.ofNat 32 (e.load bs)))

def readU64 (e : Endian) (buffer : Buf) (off : Nat) : Option U64 := do
  let bs ← slice buffer off 8
  some (htonll e (BitVec.ofNat 64 (e.load bs)))

def ntohHeader (e : Endian) (buffer : Buf) : Option PktHeader := do
  let type ← readU16 e buffer 0
  let length ← readU16 e buffer 2
  some { type, length }

def htonProxyInfo (e : Endian) (proxy : ProxyInfo) (buffer : Buf) (off : Nat) : Option Buf := do
  let buffer ← memcpy buffer off (e.store 4 (htonl e proxy.ip).toNat)
  let buffer ← memcpy buffer (off + 4) (e.store 2 (htons e proxy.portno).toNat)
  memcpy buffer (off + 6) proxy.macaddr.bytes

/-- `macaddr[j] = buffer[off+j]` for the six values of `j`. -/
def readMac (buffer : Buf) (off : Nat) : Option Mac := do
  let bs ← slice buffer off 6
  if h : bs.length = 6 then some ⟨bs, h⟩ else none

def ntohProxyInfo (e : Endian) (buffer : Buf) (off : Nat) : Option ProxyInfo := do
  let ip ← readU32 e buffer off
  let portno ← readU16 e buffer (off + 4)
  let macaddr ← readMac buffer (off + 6)
  some { ip, portno, macaddr }

/-- The body of the encoder's loop. -/
def htonNode (e : Endian) (node : Link) (i : Nat) (buffer : Buf) : Option Buf := do
  let buffer ← htonProxyInfo e node.localInfo buffer (18 + 36 * i)
  let buffer ← htonProxyInfo e node.remoteInfo buffer (30 + 36 * i)
  let buffer ← memcpy buffer (42 + 36 * i) (e.store 4 (htonl e node.linkweight).toNat)
  memcpy buffer (46 + 36 * i) (e.store 8 (htonll e node.ID).toNat)

def htonNodes (e : Endian) (heap : List LinkstateNode) : Nat → Ptr → Nat → Buf → Option Buf
  | 0, _, _, _ => none
  | _ + 1, none, _, buffer => some buffer
  | fuel + 1, some a, i, buffer => do
    let node ← heap[a]?
    let buffer ← htonNode e node.toLink i buffer
    htonNodes e heap fuel node.next (i + 1) buffer

def htonLinkstate (e : Endian) (fuel : Nat) (heap : List LinkstateNode) (pkt : LinkstatePkt)
    (buffer : Buf) : Option Buf := do
  let buffer ← htonHeader e pkt.head buffer
  let buffer ← memcpy buffer 4 (e.store 2 (htons e pkt.numNeighbors).toNat)
  let buffer ← htonProxyInfo e pkt.source buffer 6
  htonNodes e heap fuel pkt.list 0 buffer

/-- The fields of node `i` of a packet. -/
def ntohNode (e : Endian) (buffer : Buf) (i : Nat) : Option Link := do
  let localInfo ← ntohProxyInfo e buffer (18 + 36 * i)
  let remoteInfo ← ntohProxyInfo e buffer (30 + 36 * i)
  let linkweight ← readU32 e buffer (42 + 36 * i)
  let ID ← readU64 e buffer (46 + 36 * i)
  some { localInfo, remoteInfo, linkweight, ID }

/-- The decoder's loop with `n` nodes to go; `list` is `pkt->list` so far. -/
def ntohNodes (e : Endian) (u : Uninit) (buffer : Buf) :
    Nat → Nat → Ptr → Ptr → List LinkstateNode → Option (Ptr × List LinkstateNode)
  | 0, _, list, _, heap => some (list, heap)
  | n + 1, i, list, lsptr, heap => do
    let curr := heap.length
    let fields ← ntohNode e buffer i
    let node : LinkstateNode := { u.node curr with toLink := fields }
    if i = 0 then
      ntohNodes e u buffer n (i + 1) (some curr) (some curr) (heap ++ [{ node with next := none }])
    else
      let last ← lsptr
      let heap := (heap ++ [node]).modify last fun l => { l with next := some curr }
      ntohNodes e u buffer n (i + 1) list (some curr) heap

/-- `(length-14)/36`: the division is on `int` and truncates towards zero. -/
def numNodes (length : U16) : U16 := BitVec.ofInt 16 (((length.toNat : Int) - 14).tdiv 36)

def ntohLinkstate (e : Endian) (u : Uninit) (heap : List LinkstateNode) (buffer : Buf) :
    Option (LinkstatePkt × List LinkstateNode) := do
  let length ← readU16 e buffer 2
  let head ← ntohHeader e buffer
  let numNeighbors ← readU16 e buffer 4
  let source ← ntohProxyInfo e buffer 6
  let (list, heap) ← ntohNodes e u buffer (numNodes length).toNat 0 (u.list heap.length) none heap
  some ({ head, numNeighbors, source, list }, heap)

/-! ### Data -/

/-- The memory of a 64-bit machine. -/
abbrev Ram := Memory (2 ^ 64) U8

/-- `pkt->head`, by value. -/
def readHead (e : Endian) (mem : Ram) (pkt : Nat) : Option PktHeader := do
  let type ← mem.load pkt 2
  let length ← mem.load (pkt + 2) 2
  some { type := BitVec.ofNat 16 (e.load type), length := BitVec.ofNat 16 (e.load length) }

/-- The `data_pkt` at the address `pkt`. -/
def readDataPkt (e : Endian) (mem : Ram) (pkt : Nat) : Option DataPkt := do
  let head ← readHead e mem pkt
  let data ← mem.load (pkt + offsetData) 8
  some { head, data := BitVec.ofNat 64 (e.load data) }

def htonData (e : Endian) (pkt buffer : Nat) (mem : Ram) : Option Ram := do
  let head ← readHead e mem pkt
  let header ← mem.load buffer headerLen
  let header ← htonHeader e head header
  let mem ← mem.store buffer header
  -- `&pkt->data` is where the pointer itself lies
  mem.copy (buffer + 4) (pkt + offsetData) maxDataLen

def ntohData (e : Endian) (buffer : Nat) (mem : Ram) : Option DataPkt := do
  let header ← mem.load buffer headerLen
  let head ← ntohHeader e header
  some { head, data := BitVec.ofNat 64 (buffer + 4) }

/-! ### Leaving -/

/-- The body that `htonLeave` and `htonQuit` share. -/
def htonDeparture (e : Endian) (pkt : DeparturePkt) (buffer : Buf) : Option Buf := do
  let buffer ← htonHeader e pkt.head buffer
  let buffer ← htonProxyInfo e pkt.localInfo buffer 4
  memcpy buffer 16 (e.store 8 (htonll e pkt.ID).toNat)

/-- The body that `ntohLeave` and `ntohQuit` share. -/
def ntohDeparture (e : Endian) (buffer : Buf) : Option DeparturePkt := do
  let head ← ntohHeader e buffer
  let localInfo ← ntohProxyInfo e buffer 4
  let ID ← readU64 e buffer 16
  some { head, localInfo, ID }

def htonLeave (e : Endian) (pkt : LeavePkt) (buffer : Buf) : Option Buf := htonDeparture e pkt buffer

def ntohLeave (e : Endian) (buffer : Buf) : Option LeavePkt := ntohDeparture e buffer

def htonQuit (e : Endian) (pkt : QuitPkt) (buffer : Buf) : Option Buf := htonDeparture e pkt buffer

def ntohQuit (e : Endian) (buffer : Buf) : Option QuitPkt := ntohDeparture e buffer

end Cs352Proxy
