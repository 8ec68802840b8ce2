import Cs352Proxy.Members

/-!
# Handle

The packet handling and the sending threads of `cs352proxy.c`.

* `handleLinkstate`: the `PKT_LINKSTATE` branch of `TCPHandle` on a decoded packet.
* `tcpHandle`: one round of the loop of `TCPHandle` on the bytes one `recv` returned.
* `gotOriginalPacket_some`, `tcpHandle_cases`: everything the reply and a round can do.
* `tapPacket`: the packet `TAPHandle` builds for a frame.
* `createLinkPacket`, `sendPackets`: one round of the flooding thread.
* `connecttohost`: the packet a client sends when it connects.
-/

namespace Cs352Proxy

open Base

/-- A local array of `n` bytes before it is written. -/
def Env.stackBuf (env : Env) (n : Nat) : Buf := (List.range n).map env.uninit.stack

/-- `mem_list->head = client_node2`, a new link from this proxy to `remote`. -/
def Proxy.linkClient (env : Env) (remote : ProxyInfo) (now : U64) (st : Proxy) : Proxy :=
  let ptr := st.heap.length
  let st := st.malloc { localInfo := env.myProxyInfo, remoteInfo := remote, linkweight := 1,
                        ID := now, next := none }
  let st := st.emit .lock
  let st := st.setNext ptr st.memList.head
  st.setHead (some ptr)

/-- `linkClient`, then `mem_list->size++`. -/
def Proxy.pushClient (env : Env) (remote : ProxyInfo) (now : U64) (st : Proxy) : Proxy :=
  let st := st.linkClient env remote now
  let st := st.setSize (st.memList.size + 1)
  st.emit .unlock

/-- "Got the packet back". -/
def gotPacketBack (env : Env) (fuel : Nat) (now : U64) (tcpFd : Int) (pkt : LinkstatePkt)
    (st : Proxy) : Option Proxy := do
  let st := st.addsockfd pkt.source.macaddr tcpFd
  let st := st.pushClient env pkt.source now
  addMembers env fuel now pkt.list tcpFd st

/-- "Got the original packet sent from connectToHost". `first` is `pkt->list`. -/
def gotOriginalPacket (env : Env) (fuel : Nat) (now : U64) (tcpFd : Int) (pkt : LinkstatePkt)
    (first : Addr) (st : Proxy) : Option Proxy := do
  let st := st.addsockfd pkt.source.macaddr tcpFd
  let st := st.setRemoteMac first env.myProxyInfo.macaddr
  let node ← st.heap[first]?
  let st := st.pushClient env { pkt.source with macaddr := node.localInfo.macaddr } now
  -- The reply aliases the live list and then cuts it behind its first node.
  let head ← st.memList.head
  let lspkt2 : LinkstatePkt :=
    { head := { type := pktLinkstate, length := 50 }
      numNeighbors := BitVec.ofInt 16 st.memList.size
      source := env.myProxyInfo
      list := some head }
  let st := st.setNext head none
  let buf2 ← htonLinkstate env.endian fuel st.heap lspkt2 (env.stackBuf 54)
  some (st.emit (.send tcpFd buf2))

/-- The link to the client becomes the first one, and the list is cut behind it. -/
theorem gotOriginalPacket_some {env : Env} {fuel : Nat} {now : U64} {tcpFd : Int} {pkt : LinkstatePkt}
    {first : Addr} {st st' : Proxy} (h : gotOriginalPacket env fuel now tcpFd pkt first st = some st') :
    ∃ st₁ node buf,
      st₁ = (st.addsockfd pkt.source.macaddr tcpFd).setRemoteMac first env.myProxyInfo.macaddr ∧
      st₁.heap[first]? = some node ∧
      st' = ((st₁.pushClient env { pkt.source with macaddr := node.localInfo.macaddr } now).setNext
        st₁.heap.length none).emit (.send tcpFd buf) := by
  simp only [gotOriginalPacket, Option.bind_eq_bind, Option.bind_eq_some_iff] at h
  obtain ⟨node, hnode, head, hhead, buf, _, h⟩ := h
  cases hhead
  cases h
  exact ⟨_, node, buf, rfl, hnode, rfl⟩

/-- The branch first prints `pkt->list->remote.ip`, so an unset list pointer is followed at once. -/
def handleLinkstate (env : Env) (fuel : Nat) (now : U64) (tcpFd : Int) (pkt : LinkstatePkt)
    (st : Proxy) : Option Proxy := do
  let first ← pkt.list
  let node ← st.heap[first]?
  match st.findSocketfd pkt.source.macaddr with
  | none =>
    let st ← if compMacZero node.remoteInfo.macaddr ≠ 0 then gotPacketBack env fuel now tcpFd pkt st
      else some st
    let node ← st.heap[first]?
    if compMacZero node.remoteInfo.macaddr = 0 ∧ pkt.numNeighbors = 1 then
      gotOriginalPacket env fuel now tcpFd pkt first st
    else some st
  | some _ => addMembers env fuel now pkt.list tcpFd st

/-- The receive buffer: cleared, then filled by `recv`. -/
def recvBuf (bytes : Buf) : Buf := bytes ++ List.replicate (maxPktLen - bytes.length) 0

/-- What becomes of the process after one received chunk. -/
inductive Round where
  | next (st : Proxy)
  /-- `exit(1)`. -/
  | exit (st : Proxy)
  /-- The round never ends or has no defined behaviour; `st` is the state before it. -/
  | stuck (st : Proxy)

def Round.state : Round → Proxy
  | .next st | .exit st | .stuck st => st

/-- `write(tap_fd, buf+4, n-4)`: the count is converted to `size_t`. -/
def writeTap (buf : Buf) (n : Nat) (st : Proxy) : Proxy :=
  let count := (((n : Int) - 4) % 2 ^ 64).toNat
  st.emit (.tapWrite count ((buf.drop 4).take count))

/-- One round of `TCPHandle` on a chunk that `recv` returned. -/
def tcpHandle (env : Env) (fuel : Nat) (now : U64) (tcpFd : Int) (bytes : Buf) (st : Proxy) : Round :=
  let buf := recvBuf bytes
  match readU16 env.endian buf 0 with
  | none => .stuck st
  | some pktType =>
    if pktType = pktData then .next (writeTap buf bytes.length st)
    else if pktType = pktLeave then .next st
    else if pktType = pktQuit then .exit st
    else if pktType = pktLinkstate then
      match ntohLinkstate env.endian env.uninit st.heap buf with
      | none => .stuck st
      | some (pkt, heap) =>
        match handleLinkstate env fuel now tcpFd pkt { st with heap } with
        | none => .stuck st
        | some st => .next st
    else if pktType = pktProbereq then .next st
    else if pktType = pktProberes then .next st
    else .next st

/-- Everything a round can do. -/
theorem tcpHandle_cases (env : Env) (fuel : Nat) (now : U64) (tcpFd : Int) (bytes : Buf) (st : Proxy) :
    (readU16 env.endian (recvBuf bytes) 0 = some pktData ∧
      tcpHandle env fuel now tcpFd bytes st = .next (writeTap (recvBuf bytes) bytes.length st)) ∨
    (readU16 env.endian (recvBuf bytes) 0 = some pktLinkstate ∧ ∃ pkt heap st',
      ntohLinkstate env.endian env.uninit st.heap (recvBuf bytes) = some (pkt, heap) ∧
      handleLinkstate env fuel now tcpFd pkt { st with heap } = some st' ∧
      tcpHandle env fuel now tcpFd bytes st = .next st') ∨
    (readU16 env.endian (recvBuf bytes) 0 ≠ some pktData ∧
      (tcpHandle env fuel now tcpFd bytes st = .stuck st ∨
        readU16 env.endian (recvBuf bytes) 0 ≠ some pktLinkstate ∧
          (tcpHandle env fuel now tcpFd bytes st = .next st ∨
            tcpHandle env fuel now tcpFd bytes st = .exit st))) := by
  simp only [tcpHandle]
  cases readU16 env.endian (recvBuf bytes) 0 with
  | none => exact .inr (.inr ⟨by simp, .inl rfl⟩)
  | some pktType =>
    simp only [Option.some.injEq, ne_eq]
    by_cases hdata : pktType = pktData
    · exact .inl ⟨hdata, if_pos hdata⟩
    · simp only [if_neg hdata]
      by_cases hlink : pktType = pktLinkstate
      · have hleave : pktType ≠ pktLeave := by rw [hlink]; decide
        have hquit : pktType ≠ pktQuit := by rw [hlink]; decide
        simp only [if_neg hleave, if_neg hquit, if_pos hlink]
        cases hdecode : ntohLinkstate env.endian env.uninit st.heap (recvBuf bytes) with
        | none => exact .inr (.inr ⟨hdata, .inl rfl⟩)
        | some r =>
          cases hhandle : handleLinkstate env fuel now tcpFd r.1 { st with heap := r.2 } with
          | none => exact .inr (.inr ⟨hdata, .inl (by simp only [hhandle])⟩)
          | some st' => exact .inr (.inl ⟨hlink, r.1, r.2, st', rfl, hhandle, by simp only [hhandle]⟩)
      · simp only [if_neg hlink, ite_self]
        refine .inr (.inr ⟨hdata, .inr ⟨hlink, ?_⟩⟩)
        split
        · exact .inl rfl
        · split
          · exact .inr rfl
          · exact .inl rfl

/-- A round that goes on either left the list and the table alone or handled a link-state packet. -/
theorem tcpHandle_next {env : Env} {fuel : Nat} {now : U64} {fd : Int} {bytes : Buf} {st st' : Proxy}
    (h : tcpHandle env fuel now fd bytes st = .next st') :
    (readU16 env.endian (recvBuf bytes) 0 ≠ some pktLinkstate ∧ st'.heap = st.heap ∧
      st'.memList = st.memList ∧ st'.socketfds = st.socketfds) ∨
    (readU16 env.endian (recvBuf bytes) 0 = some pktLinkstate ∧ ∃ pkt heap,
      ntohLinkstate env.endian env.uninit st.heap (recvBuf bytes) = some (pkt, heap) ∧
      handleLinkstate env fuel now fd pkt { st with heap } = some st') := by
  rcases tcpHandle_cases env fuel now fd bytes st with ⟨htype, hround⟩ |
    ⟨htype, pkt, heap, st₁, hdecode, hhandle, hround⟩ | ⟨_, hround | ⟨htype, hround | hround⟩⟩
  all_goals rw [h] at hround; cases hround
  · exact .inl ⟨by rw [htype]; decide, rfl, rfl, rfl⟩
  · exact .inr ⟨htype, pkt, heap, hdecode, hhandle⟩
  · exact .inl ⟨htype, rfl, rfl, rfl⟩

/-- The loop of `TCPHandle` over the chunks of one connection, each with the time it is handled. -/
def tcpLoop (env : Env) (fuel : Nat) (tcpFd : Int) : List (Buf × U64) → Proxy → Round
  | [], st => .next st
  | (bytes, now) :: rest, st =>
    match tcpHandle env fuel now tcpFd bytes st with
    | .next st => tcpLoop env fuel tcpFd rest st
    | r => r

/-! ## Sending -/

/-- What `TAPHandle` writes to every socket after `read` put `bytes` into its cleared buffer. -/
def tapPacket (e : Endian) (bytes : Buf) : Option Buf := do
  let buf ← memcpy (List.replicate maxPktLen 0) 4 bytes
  let buf ← memcpy buf 0 (e.store 2 (htons e pktData).toNat)
  let buf ← memcpy buf 2 (e.store 2 (htons e (BitVec.ofNat 16 bytes.length)).toNat)
  slice buf 0 (bytes.length + 4)

/-- `NULL` (here `none`) for an empty list. -/
def createLinkPacket (env : Env) (st : Proxy) : Option LinkstatePkt :=
  match st.memList.head with
  | none => none
  | some h =>
    let perLink : Int := layoutLinkstateNode.size - CLayout.pointer.size
    some {
      head := { type := pktLinkstate
                length := BitVec.ofInt 16
                  (CLayout.uint16.size + layoutProxyInfo.size + perLink * st.memList.size) }
      numNeighbors := BitVec.ofInt 16 st.memList.size
      source := env.myProxyInfo
      list := some h }

/-- The bytes `sendPackets` puts into `buf` and passes to `send` for one entry. -/
def sendBytes (env : Env) (fuel : Nat) (lstate : LinkstatePkt) (buf : Buf) (st : Proxy) :
    Option Buf := do
  let buf ← htonLinkstate env.endian fuel st.heap lstate buf
  slice buf 0 (lstate.head.length.toNat + layoutPktHeader.size)

/-- One send for each entry, in the order of the table's `hh.next`. -/
def sendLoop (env : Env) (fuel : Nat) (lstate : LinkstatePkt) : List ProxySocketfd → Proxy →
    Option Proxy
  | [], st => some st
  | s :: rest, st => do
    let bytes ← sendBytes env fuel lstate (env.stackBuf maxPktLen) st
    sendLoop env fuel lstate rest (st.emit (.send s.sockFd bytes))

/-- One round of the loop of `sendPackets`. -/
def sendPackets (env : Env) (fuel : Nat) (st : Proxy) : Option Proxy :=
  match createLinkPacket env st with
  | none => some st
  | some lstate => sendLoop env fuel lstate st.socketfds.reverse st

/-- The bytes `connecttohost` sends. `remoteInfo->macaddr` is never set there, so it is the
parameter `macaddr`. -/
def connecttohost (env : Env) (now : U64) (remoteIp : U32) (remotePort : U16) (macaddr : Mac) :
    Option Buf :=
  let clientNode : LinkstateNode :=
    { localInfo := env.myProxyInfo
      remoteInfo := { ip := remoteIp, portno := remotePort, macaddr }
      linkweight := 1, ID := now, next := none }
  let lspkt : LinkstatePkt :=
    { head := { type := pktLinkstate, length := 50 }
      numNeighbors := 1
      source := env.myProxyInfo
      list := some 0 }
  htonLinkstate env.endian 2 [clientNode] lspkt (env.stackBuf 54)

end Cs352Proxy
