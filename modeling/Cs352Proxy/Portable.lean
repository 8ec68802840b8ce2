import Cs352Proxy.Process

/-!
# Portable

The process does the same on a host of either byte order with the same numbers in `my_proxy_info`:
whatever it puts on the wire was converted, and so was whatever it takes from there. Each function of
the codec, as a function of the byte order, is constant, so the rounds of the threads and their runs
are too.

The number that `inet_aton` stores for an address does depend on the byte order. The `ip` here is the
number, not the address that it stands for.
-/

namespace Cs352Proxy

open Base

section Codec

variable (e e' : Endian)

theorem readU16_portable (buf : Buf) (off : Nat) : readU16 e buf off = readU16 e' buf off := by
  unfold readU16
  cases hslice : slice buf off 2 with
  | none => rfl
  | some bs =>
    have hlen := length_slice hslice
    simp only [Option.bind_eq_bind, Option.bind_some, ntohs_load _ hlen]

theorem readU32_portable (buf : Buf) (off : Nat) : readU32 e buf off = readU32 e' buf off := by
  unfold readU32
  cases hslice : slice buf off 4 with
  | none => rfl
  | some bs =>
    have hlen := length_slice hslice
    simp only [Option.bind_eq_bind, Option.bind_some, ntohl_load _ hlen]

theorem readU64_portable (buf : Buf) (off : Nat) : readU64 e buf off = readU64 e' buf off := by
  unfold readU64
  cases hslice : slice buf off 8 with
  | none => rfl
  | some bs =>
    have hlen := length_slice hslice
    simp only [Option.bind_eq_bind, Option.bind_some, htonll_load _ hlen]

theorem ntohHeader_portable (buf : Buf) : ntohHeader e buf = ntohHeader e' buf := by
  simp only [ntohHeader, readU16_portable e e']

theorem ntohProxyInfo_portable (buf : Buf) (off : Nat) :
    ntohProxyInfo e buf off = ntohProxyInfo e' buf off := by
  simp only [ntohProxyInfo, readU32_portable e e', readU16_portable e e']

theorem ntohNode_portable (buf : Buf) (i : Nat) : ntohNode e buf i = ntohNode e' buf i := by
  simp only [ntohNode, ntohProxyInfo_portable e e', readU32_portable e e', readU64_portable e e']

theorem ntohNodes_portable (u : Uninit) (buf : Buf) (n : Nat) :
    ∀ (i : Nat) (list lsptr : Ptr) (heap : List LinkstateNode),
      ntohNodes e u buf n i list lsptr heap = ntohNodes e' u buf n i list lsptr heap := by
  induction n with
  | zero => intro i list lsptr heap; rfl
  | succ n ih =>
    intro i list lsptr heap
    simp only [ntohNodes, ntohNode_portable e e', ih]

theorem ntohLinkstate_portable (u : Uninit) (heap : List LinkstateNode) (buf : Buf) :
    ntohLinkstate e u heap buf = ntohLinkstate e' u heap buf := by
  simp only [ntohLinkstate, readU16_portable e e', ntohHeader_portable e e',
    ntohProxyInfo_portable e e', ntohNodes_portable e e']

theorem htonHeader_portable (head : PktHeader) (buf : Buf) :
    htonHeader e head buf = htonHeader e' head buf := by
  simp only [htonHeader, store_htons]

theorem htonProxyInfo_portable (proxy : ProxyInfo) (buf : Buf) (off : Nat) :
    htonProxyInfo e proxy buf off = htonProxyInfo e' proxy buf off := by
  simp only [htonProxyInfo, store_htons, store_htonl]

theorem htonNode_portable (node : Link) (i : Nat) (buf : Buf) :
    htonNode e node i buf = htonNode e' node i buf := by
  simp only [htonNode, htonProxyInfo_portable e e', store_htonl, store_htonll]

theorem htonNodes_portable (heap : List LinkstateNode) (fuel : Nat) :
    ∀ (p : Ptr) (i : Nat) (buf : Buf), htonNodes e heap fuel p i buf = htonNodes e' heap fuel p i buf := by
  induction fuel with
  | zero => intro p i buf; rfl
  | succ fuel ih =>
    intro p i buf
    cases p with
    | none => rfl
    | some a => simp only [htonNodes, htonNode_portable e e', ih]

theorem htonLinkstate_portable (fuel : Nat) (heap : List LinkstateNode) (pkt : LinkstatePkt) (buf : Buf) :
    htonLinkstate e fuel heap pkt buf = htonLinkstate e' fuel heap pkt buf := by
  simp only [htonLinkstate, htonHeader_portable e e', htonProxyInfo_portable e e', store_htons,
    htonNodes_portable e e']

theorem tapFrame_portable (read : Option Buf) : tapFrame e read = tapFrame e' read := by
  simp only [tapFrame, store_htons]

end Codec

/-! ## The process -/

/-- A host with byte order `e` and numerically the same `my_proxy_info`. -/
def Env.on (e : Endian) (env : Env) : Env := { env with endian := e }

section Operations

variable (env : Env) (e : Endian) (fuel : Nat) (now : U64)

theorem addMembersLoop_portable (gw : Int) (n : Nat) :
    addMembersLoop (env.on e) fuel now gw n = addMembersLoop env fuel now gw n := by
  have hcall : addMemberConnect (env.on e) fuel now gw = addMemberConnect env fuel now gw := rfl
  induction n with
  | zero => rfl
  | succ n ih =>
    funext p st
    cases p with
    | none => rfl
    | some a => simp only [addMembersLoop, addMembersStep, hcall, ih]

theorem gotPacketBack_portable (tcpFd : Int) (pkt : LinkstatePkt) :
    gotPacketBack (env.on e) fuel now tcpFd pkt = gotPacketBack env fuel now tcpFd pkt := by
  funext st
  simp only [gotPacketBack, addMembers, addMembersLoop_portable env e]
  rfl

theorem gotOriginalPacket_portable (tcpFd : Int) (pkt : LinkstatePkt) (first : Addr) :
    gotOriginalPacket (env.on e) fuel now tcpFd pkt first =
      gotOriginalPacket env fuel now tcpFd pkt first := by
  funext st
  simp only [gotOriginalPacket, htonLinkstate_portable (env.on e).endian env.endian]
  rfl

theorem handleLinkstate_portable (tcpFd : Int) (pkt : LinkstatePkt) :
    handleLinkstate (env.on e) fuel now tcpFd pkt = handleLinkstate env fuel now tcpFd pkt := by
  funext st
  simp only [handleLinkstate, addMembers, addMembersLoop_portable env e,
    gotPacketBack_portable env e, gotOriginalPacket_portable env e]

theorem tcpHandle_portable (tcpFd : Int) (bytes : Buf) (st : Proxy) :
    tcpHandle (env.on e) fuel now tcpFd bytes st = tcpHandle env fuel now tcpFd bytes st := by
  simp only [tcpHandle, readU16_portable (env.on e).endian env.endian,
    ntohLinkstate_portable (env.on e).endian env.endian, handleLinkstate_portable env e]
  rfl

theorem tapHandle_portable (read : Option Buf) (st : Proxy) :
    tapHandle (env.on e) read st = tapHandle env read st := by
  simp only [tapHandle, tapFrame_portable (env.on e).endian env.endian]

theorem sendLoop_portable (lstate : LinkstatePkt) (l : List ProxySocketfd) (st : Proxy) :
    sendLoop (env.on e) fuel lstate l st = sendLoop env fuel lstate l st := by
  induction l generalizing st with
  | nil => rfl
  | cons s l ih =>
    simp only [sendLoop, sendBytes, htonLinkstate_portable (env.on e).endian env.endian, ih]
    rfl

theorem sendPackets_portable (st : Proxy) :
    sendPackets (env.on e) fuel st = sendPackets env fuel st := by
  simp only [sendPackets, sendLoop_portable env e]
  rfl

end Operations

theorem ThreadOp.round_portable (env : Env) (e : Endian) (fuel : Nat) (st : Proxy) (op : ThreadOp) :
    op.round (env.on e) fuel st = op.round env fuel st := by
  cases op with
  | tcpHandle uninit tcpFd now bytes =>
    have hround := tcpHandle_portable { env with uninit } e fuel now tcpFd bytes st
    simp only [Env.on] at hround
    simp only [round, Env.on, hround]
  | tapHandle read => simp only [round, tapHandle_portable env e]
  | sendPackets uninit =>
    have hround := sendPackets_portable { env with uninit } e fuel st
    simp only [Env.on] at hround
    simp only [round, Env.on, hround]
  | checkLinkTimeOut now linkTimeout => rfl

/-- A process takes the same steps on hosts of either byte order with the same numbers in
`my_proxy_info`, to the same states: the same bytes sent, the same writes, the same list and table. -/
theorem process_portable (env : Env) (e : Endian) {tr : List (Step Process ThreadOp)} {p : Process} :
    ProcessRun (env.on e) tr p ↔ ProcessRun env tr p := by
  have hstep : Process.Performs (env.on e) = Process.Performs env := by
    funext p op p'
    simp only [Process.Performs, ThreadOp.round_portable env e]
  rw [ProcessRun, hstep]

end Cs352Proxy
