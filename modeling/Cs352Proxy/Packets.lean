import Cs352Proxy.Base.Bytes
import Cs352Proxy.Base.CLayout

/-!
# Packets

The packet types and records of `packets.h`.

A `Link` is a `linkstate_node` without its `next` field, the part of a node that travels in a
packet; `LinkstateNode` adds the pointer. `Mac` carries the proof that it has six bytes.
-/

namespace Cs352Proxy

open Base

abbrev U8 := Byte
abbrev U16 := BitVec 16
abbrev U32 := BitVec 32
abbrev U64 := BitVec 64

/-- An index into the heap of link-state nodes. -/
abbrev Addr := Nat

/-- A pointer to a link-state node; `none` is `NULL`. -/
abbrev Ptr := Option Addr

def pktData : U16 := 0xABCD
def pktLeave : U16 := 0xAB01
def pktQuit : U16 := 0xAB12
def pktLinkstate : U16 := 0xABAC
def pktProbereq : U16 := 0xAB34
def pktProberes : U16 := 0xAB35

def maxDataLen : Nat := 2048
def maxPktLen : Nat := 2052
def headerLen : Nat := 4

structure PktHeader where
  type : U16
  length : U16
deriving DecidableEq

/-- `uint8_t macaddr[6]`. -/
@[ext] structure Mac where
  bytes : List U8
  length_bytes : bytes.length = 6
deriving DecidableEq

def Mac.zero : Mac := ⟨[0, 0, 0, 0, 0, 0], rfl⟩

structure ProxyInfo where
  ip : U32
  portno : U16
  macaddr : Mac
deriving DecidableEq

structure Link where
  localInfo : ProxyInfo
  remoteInfo : ProxyInfo
  linkweight : U32
  ID : U64
deriving DecidableEq

structure LinkstateNode extends Link where
  next : Ptr
deriving DecidableEq

structure LinkstatePkt where
  head : PktHeader
  numNeighbors : U16
  source : ProxyInfo
  list : Ptr
deriving DecidableEq

/-- `data` is an address. -/
structure DataPkt where
  head : PktHeader
  data : U64
deriving DecidableEq

/-- `leave_pkt` and `quit_pkt` have the same members. -/
structure DeparturePkt where
  head : PktHeader
  localInfo : ProxyInfo
  ID : U64
deriving DecidableEq

abbrev LeavePkt := DeparturePkt
abbrev QuitPkt := DeparturePkt

structure MembershipList where
  head : Ptr
  size : Int
deriving DecidableEq

/-! ## Struct sizes -/

def layoutPktHeader : CLayout := .struct [.uint16, .uint16]

def layoutProxyInfo : CLayout := .struct [.uint32, .uint16, .array .uint8 6]

def layoutLinkstateNode : CLayout :=
  .struct [layoutProxyInfo, layoutProxyInfo, .uint32, .uint64, .pointer]

/-- `offsetof(data_pkt, data)`. -/
def offsetData : Nat := CLayout.alignUp layoutPktHeader.size CLayout.pointer.align

/-- The alignment of `ID` leaves four bytes of padding behind `linkweight`, so a node without its
`next` pointer takes 40 bytes in memory while its fields take 36 on the wire. -/
theorem sizeof_linkstateNode : layoutLinkstateNode.size = 48 := by decide

end Cs352Proxy
