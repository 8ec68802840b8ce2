import Cs352Proxy.Handle
import Cs352Proxy.Learn
import Cs352Proxy.Wire

/-!
# Receive

Handling a link-state packet does what `Topology.receive` says.

* `Received`: a decoded packet, with its links as a list that is not empty.
* `Proxy.alloc`: the packet's nodes at the end of the heap, where the decoder puts them
  (`ntohLinkstate_alloc`, `tcpHandle_wireBytes`).
* `handlePacket_known`, `handlePacket_back`, `handlePacket_original`: which branch of the source
  takes which packet.
* `handlePacket_refines`: every completed call.
-/

namespace Cs352Proxy

open Base

structure Received where
  head : PktHeader
  numNeighbors : U16
  source : ProxyInfo
  first : Link
  rest : List Link
deriving DecidableEq

def Received.links (m : Received) : List Link := m.first :: m.rest

/-- The packet whose nodes start at `a`. -/
def Received.pkt (m : Received) (a : Addr) : LinkstatePkt :=
  { head := m.head, numNeighbors := m.numNeighbors, source := m.source, list := some a }

def Proxy.alloc (ls : List Link) (st : Proxy) : Proxy :=
  { st with heap := st.heap ++ linkNodes st.heap.length ls none }

/-- `TCPHandle` on a decoded packet whose list ends in `NULL`. -/
def handlePacket (env : Env) (fuel : Nat) (now : U64) (tcpFd : Int) (m : Received) (st : Proxy) :
    Option Proxy :=
  handleLinkstate env fuel now tcpFd (m.pkt st.heap.length) (st.alloc m.links)

/-- The decoder builds such a list when it finds a null pointer in the last node it allocates. -/
theorem ntohLinkstate_alloc (e : Endian) (u : Uninit) (st : Proxy) (m : Received)
    (hlen : (m.head.length.toNat - 14) / 36 = m.links.length)
    (hlast : lastNext u st.heap.length m.links.length = none) (rest : Buf) :
    ntohLinkstate e u st.heap (wireBytes m.head m.numNeighbors m.source m.links ++ rest) =
      some (m.pkt st.heap.length, (st.alloc m.links).heap) := by
  rw [ntohLinkstate_eq e u st.heap m.head m.numNeighbors m.source (by simp [Received.links]) hlen rest,
    hlast]
  rfl

theorem tcpHandle_wireBytes {env : Env} {fuel : Nat} {now : U64} {fd : Int} {m : Received} {st : Proxy}
    (htype : m.head.type = pktLinkstate)
    (hlen : (m.head.length.toNat - 14) / 36 = m.links.length)
    (hlast : lastNext env.uninit st.heap.length m.links.length = none) (tail : Buf) :
    tcpHandle env fuel now fd (wireBytes m.head m.numNeighbors m.source m.links ++ tail) st =
      match handlePacket env fuel now fd m st with
      | none => .stuck st
      | some st' => .next st' := by
  have hbuf : recvBuf (wireBytes m.head m.numNeighbors m.source m.links ++ tail) =
      wireBytes m.head m.numNeighbors m.source m.links ++ (tail ++ List.replicate (maxPktLen -
        (wireBytes m.head m.numNeighbors m.source m.links ++ tail).length) 0) := by
    rw [recvBuf, List.append_assoc]
  have hread : ∀ rest, readU16 env.endian
      (wireBytes m.head m.numNeighbors m.source m.links ++ rest) 0 = some pktLinkstate := by
    intro rest
    have hread := readU16_eq env.endian m.head.type 0 [] (beBytes 2 m.head.length.toNat ++
      (beBytes 2 m.numNeighbors.toNat ++ proxyBytes m.source ++ m.links.flatMap linkBytes ++ rest)) rfl
    rw [htype] at hread
    simpa [wireBytes, prefixBytes, headerBytes, htype] using hread
  unfold tcpHandle
  simp only [hbuf, hread, ntohLinkstate_alloc env.endian env.uninit st m hlen hlast]
  rfl

/-- The nodes of a packet, with their addresses. -/
def received (base : Addr) (m : Received) : Cells := cellsAt base (linkNodes base m.links none)

theorem received_links (base : Addr) (m : Received) : (received base m).links = m.links := by
  have hmap : ∀ (ns : List LinkstateNode) (b : Addr),
      Cells.links (cellsAt b ns) = ns.map (·.toLink) := by
    intro ns
    induction ns with
    | nil => intro b; rfl
    | cons n ns ih => intro b; simp [cellsAt, ih]
  rw [received, hmap, map_toLink_linkNodes]

theorem alloc_list (st : Proxy) (m : Received) :
    NodeList (st.alloc m.links).heap (some st.heap.length) (received st.heap.length m) :=
  seg_linkNodes st.heap (by simp [Received.links]) none

theorem alloc_same (ls : List Link) (st : Proxy) {a : Addr} (ha : a < st.heap.length) :
    (st.alloc ls).heap[a]? = st.heap[a]? :=
  List.getElem?_append_left ha

theorem Shows.alloc {st : Proxy} {t : Topology} {cells : Cells} (hs : Shows st t cells)
    (ls : List Link) : Shows (st.alloc ls) t cells := by
  refine ⟨hs.list.frame fun x hx => ?_, hs.links, hs.size, hs.routes⟩
  rw [alloc_same ls st (hs.list.lt_length x hx)]
  exact hs.list.get x hx

@[simp] theorem pushClient_heap (env : Env) (remote : ProxyInfo) (now : U64) (st : Proxy) :
    (st.pushClient env remote now).heap =
      st.heap ++ [{ toLink := Topology.client env remote now, next := st.memList.head }] := by
  have hmod := modify_append_add st.heap
    [{ toLink := Topology.client env remote now, next := none }] 0
    fun n => { n with next := st.memList.head }
  simpa [Proxy.pushClient, Proxy.linkClient, Topology.client] using hmod

@[simp] theorem pushClient_memList (env : Env) (remote : ProxyInfo) (now : U64) (st : Proxy) :
    (st.pushClient env remote now).memList =
      { head := some st.heap.length, size := st.memList.size + 1 } := rfl

@[simp] theorem pushClient_socketfds (env : Env) (remote : ProxyInfo) (now : U64) (st : Proxy) :
    (st.pushClient env remote now).socketfds = st.socketfds := rfl

/-- The cell of a new link from this proxy. -/
def clientCell (env : Env) (remote : ProxyInfo) (now : U64) (st : Proxy) : Addr × LinkstateNode :=
  (st.heap.length, { toLink := Topology.client env remote now, next := st.memList.head })

theorem Shows.pushClient {st : Proxy} {t : Topology} {cells : Cells} (hs : Shows st t cells)
    (env : Env) (remote : ProxyInfo) (now : U64) :
    Shows (st.pushClient env remote now)
      { t with links := Topology.client env remote now :: t.links, size := t.size + 1 }
      (clientCell env remote now st :: cells) := by
  refine ⟨⟨rfl, by simp, ?_⟩, ?_, ?_, hs.routes⟩
  · refine hs.list.frame fun x hx => ?_
    rw [pushClient_heap, List.getElem?_append_left (hs.list.lt_length x hx)]
    exact hs.list.get x hx
  · rw [Cells.links_cons, hs.links]; rfl
  · rw [pushClient_memList, hs.size]

theorem Shows.addsockfd {st : Proxy} {t : Topology} {cells : Cells} (hs : Shows st t cells)
    (mac : Mac) (fd : Int) :
    Shows (st.addsockfd mac fd) { t with routes := { macaddr := mac, sockFd := fd } :: t.routes }
      cells :=
  ⟨hs.list, hs.links, hs.size, by rw [Proxy.addsockfd_socketfds, hs.routes]⟩

/-- A write to a node that is not on the list yet. -/
theorem Shows.setRemoteMac {st : Proxy} {t : Topology} {cells : Cells} {h : Addr}
    (hs : Shows st t cells) (hoff : h ∉ cells.map Prod.fst) (mac : Mac) :
    Shows (st.setRemoteMac h mac) t cells := by
  refine ⟨hs.list.frame fun x hx => ?_, hs.links, hs.size, hs.routes⟩
  have hne : h ≠ x.1 := fun hh => hoff (hh ▸ List.mem_map_of_mem hx)
  rw [Proxy.setRemoteMac_heap, List.getElem?_modify_ne _ _ hne]
  exact hs.list.get x hx

theorem Shows.cut {st : Proxy} {t : Topology} {cells : Cells} {x : Addr × LinkstateNode}
    (hs : Shows st t (x :: cells)) :
    Shows (st.setNext x.1 none) { t with links := [x.2.toLink] }
      [(x.1, { x.2 with next := none })] := by
  obtain ⟨hhead, hx, _⟩ := hs.list
  exact ⟨⟨hhead, by simp [hx], rfl⟩, rfl, hs.size, hs.routes⟩

section Refine

variable {env : Env} {fuel : Nat} {now : U64} {fd : Int} {m : Received} {st st' : Proxy}
  {t : Topology} {cells : Cells}

theorem received_off (hs : Shows st t cells) :
    ∀ x ∈ received st.heap.length m, x.1 ∉ cells.map Prod.fst := by
  intro x hx hmem
  obtain ⟨y, hy, hyx⟩ := List.mem_map.mp hmem
  have hle := le_of_mem_cellsAt x hx
  have hlt := hs.list.lt_length y hy
  rw [hyx] at hlt
  omega

/-- The state in which "Got the packet back" walks over the received list. -/
theorem shows_back (hs : Shows st t cells) (env : Env) (now : U64) (fd : Int) (m : Received) :
    ∃ cells', Shows (((st.alloc m.links).addsockfd m.source.macaddr fd).pushClient env m.source now)
        { links := Topology.client env m.source now :: t.links, size := t.size + 1
          routes := { macaddr := m.source.macaddr, sockFd := fd } :: t.routes } cells' ∧
      NodeList (((st.alloc m.links).addsockfd m.source.macaddr fd).pushClient env m.source now).heap
        (some st.heap.length) (received st.heap.length m) ∧
      ∀ x ∈ received st.heap.length m, x.1 ∉ cells'.map Prod.fst := by
  have hs₁ := ((hs.alloc m.links).addsockfd m.source.macaddr fd).pushClient env m.source now
  have hnew := alloc_list st m
  refine ⟨_, hs₁, hnew.frame fun x hx => ?_, fun x hx hmem => ?_⟩
  · rw [pushClient_heap, Proxy.addsockfd_heap, List.getElem?_append_left (hnew.lt_length x hx)]
    exact hnew.get x hx
  · rcases List.mem_cons.mp hmem with hx' | hx'
    · have hlt := hnew.lt_length x hx
      rw [hx', clientCell, Proxy.addsockfd_heap] at hlt
      omega
    · exact received_off hs x hx hx'

theorem gotPacketBack_refines (hs : Shows st t cells)
    (h : gotPacketBack env fuel now fd (m.pkt st.heap.length) (st.alloc m.links) = some st') :
    ∃ t' cells', Topology.merge env now fd m.links
        { links := Topology.client env m.source now :: t.links, size := t.size + 1
          routes := { macaddr := m.source.macaddr, sockFd := fd } :: t.routes } = some t' ∧
      Shows st' t' cells' := by
  obtain ⟨cells₁, hs₁, hnew, hoff⟩ := shows_back hs env now fd m
  obtain ⟨t', cells', hmerge, hs'⟩ := addMembers_refines h hs₁ hnew hoff
  rw [received_links] at hmerge
  exact ⟨t', cells', hmerge, hs'⟩

theorem gotOriginalPacket_refines (hs : Shows st t cells)
    (h : gotOriginalPacket env fuel now fd (m.pkt st.heap.length) st.heap.length
      (st.alloc m.links) = some st') :
    ∃ cells', Shows st'
      { links := [Topology.client env { m.source with macaddr := m.first.localInfo.macaddr } now]
        size := t.size + 1
        routes := { macaddr := m.source.macaddr, sockFd := fd } :: t.routes } cells' := by
  have hs₁ := ((hs.alloc m.links).addsockfd m.source.macaddr fd).setRemoteMac
    (received_off (m := m) hs (st.heap.length, _) List.mem_cons_self) env.myProxyInfo.macaddr
  obtain ⟨st₁, node, buf, rfl, hnode, rfl⟩ := gotOriginalPacket_some h
  have hlocal : node.localInfo = m.first.localInfo := by
    simp only [Proxy.setRemoteMac_heap, Received.pkt, Proxy.addsockfd_heap, Proxy.alloc,
      List.getElem?_modify_eq, Received.links, linkNodes] at hnode
    simp at hnode
    rw [← hnode]
  have hs₂ := hs₁.pushClient env { m.source with macaddr := node.localInfo.macaddr } now
  have hs₃ := hs₂.cut
  rw [← hlocal]
  exact ⟨_, hs₃.list, hs₃.links, hs₃.size, hs₃.routes⟩

end Refine

/-! ## The four branches -/

/-- Handling a packet back leaves the endpoints of every node alone. -/
theorem gotPacketBack_remote {env : Env} {fuel : Nat} {now : U64} {fd : Int} {pkt : LinkstatePkt}
    {st st' : Proxy} {b : Addr} {node : LinkstateNode} (hnode : st.heap[b]? = some node)
    (h : gotPacketBack env fuel now fd pkt st = some st') :
    ∃ node', st'.heap[b]? = some node' ∧ node'.remoteInfo = node.remoteInfo := by
  have hsame := addMembersLoop_remote fuel h b
  rw [pushClient_heap, Proxy.addsockfd_heap,
    List.getElem?_append_left (List.getElem?_eq_some_iff.mp hnode).1, hnode] at hsame
  obtain ⟨node', hnode', hremote⟩ := Option.map_eq_some_iff.mp hsame
  exact ⟨node', hnode', hremote⟩

/-- Which branch a completed call took, on any packet and any state. -/
theorem handleLinkstate_cases {env : Env} {fuel : Nat} {now : U64} {fd : Int} {pkt : LinkstatePkt}
    {st st' : Proxy} (h : handleLinkstate env fuel now fd pkt st = some st') :
    ∃ first node, pkt.list = some first ∧ st.heap[first]? = some node ∧
      ((∃ e, st.findSocketfd pkt.source.macaddr = some e ∧
          addMembers env fuel now pkt.list fd st = some st') ∨
        (st.findSocketfd pkt.source.macaddr = none ∧ node.remoteInfo.macaddr = Mac.zero ∧
          gotPacketBack env fuel now fd pkt st = some st') ∨
        (st.findSocketfd pkt.source.macaddr = none ∧ node.remoteInfo.macaddr ≠ Mac.zero ∧
          pkt.numNeighbors = 1 ∧ gotOriginalPacket env fuel now fd pkt first st = some st') ∨
        (st.findSocketfd pkt.source.macaddr = none ∧ node.remoteInfo.macaddr ≠ Mac.zero ∧
          pkt.numNeighbors ≠ 1 ∧ st' = st)) := by
  simp only [handleLinkstate, Option.bind_eq_bind, Option.bind_eq_some_iff] at h
  obtain ⟨first, hfirst, node, hnode, h⟩ := h
  refine ⟨first, node, hfirst, hnode, ?_⟩
  cases hroute : st.findSocketfd pkt.source.macaddr with
  | some e =>
    simp only [hroute] at h
    exact .inl ⟨e, rfl, h⟩
  | none =>
    simp only [hroute, compMacZero_ne_zero, compMacZero_eq_zero] at h
    by_cases hzero : node.remoteInfo.macaddr = Mac.zero
    · simp only [if_pos hzero, Option.bind_eq_some_iff] at h
      obtain ⟨st₁, hback, node₁, hnode₁, h⟩ := h
      -- the address is still zero, so the second branch is not taken as well
      obtain ⟨node', hnode', hremote⟩ := gotPacketBack_remote hnode hback
      rw [hnode₁] at hnode'
      cases hnode'
      rw [hremote, if_neg fun hc => hc.1 hzero] at h
      cases h
      exact .inr (.inl ⟨rfl, hzero, hback⟩)
    · simp only [if_neg hzero, Option.bind_some, hnode] at h
      by_cases hnn : pkt.numNeighbors = 1
      · rw [if_pos ⟨hzero, hnn⟩] at h
        exact .inr (.inr (.inl ⟨rfl, hzero, hnn, h⟩))
      · rw [if_neg fun hc => hnn hc.2] at h
        cases h
        exact .inr (.inr (.inr ⟨rfl, hzero, hnn, rfl⟩))

section Branches

variable {env : Env} {fuel : Nat} {now : U64} {fd : Int} {m : Received} {st : Proxy}

theorem alloc_first (m : Received) (st : Proxy) :
    ∃ node, (st.alloc m.links).heap[st.heap.length]? = some node ∧
      node.remoteInfo = m.first.remoteInfo := by
  refine ⟨{ toLink := m.first, next := if m.rest = [] then none else some (st.heap.length + 1) },
    ?_, rfl⟩
  simp [Proxy.alloc, Received.links, linkNodes]

theorem handlePacket_known {e : ProxySocketfd} (hroute : st.findSocketfd m.source.macaddr = some e) :
    handlePacket env fuel now fd m st =
      addMembers env fuel now (some st.heap.length) fd (st.alloc m.links) := by
  obtain ⟨node, hnode, _⟩ := alloc_first m st
  have hfind : (st.alloc m.links).findSocketfd m.source.macaddr = some e := hroute
  simp only [handlePacket, handleLinkstate, Received.pkt, hnode, hfind, Option.bind_eq_bind,
    Option.bind_some]

/-- The walk over the received list leaves the zero address of its first node alone, so the second
branch of the source is not tried. -/
theorem handlePacket_back (hroute : st.findSocketfd m.source.macaddr = none)
    (hzero : m.first.remoteInfo.macaddr = Mac.zero) :
    handlePacket env fuel now fd m st =
      gotPacketBack env fuel now fd (m.pkt st.heap.length) (st.alloc m.links) := by
  obtain ⟨node, hnode, hremote⟩ := alloc_first m st
  have hfind : (st.alloc m.links).findSocketfd m.source.macaddr = none := hroute
  simp only [handlePacket, handleLinkstate, Received.pkt, hnode, hfind, hremote, hzero,
    Option.bind_eq_bind, Option.bind_some, compMacZero_ne_zero, compMacZero_eq_zero, if_true]
  cases hback : gotPacketBack env fuel now fd
      { head := m.head, numNeighbors := m.numNeighbors, source := m.source, list := some st.heap.length }
      (st.alloc m.links) with
  | none => rfl
  | some st₁ =>
    obtain ⟨node₁, hnode₁, hremote₁⟩ := gotPacketBack_remote hnode hback
    have hzero₁ : node₁.remoteInfo.macaddr = Mac.zero := by rw [hremote₁, hremote, hzero]
    simp only [Option.bind_some, hnode₁]
    exact if_neg fun h => h.1 hzero₁

theorem handlePacket_original (hroute : st.findSocketfd m.source.macaddr = none)
    (hzero : m.first.remoteInfo.macaddr ≠ Mac.zero) :
    handlePacket env fuel now fd m st =
      if m.numNeighbors = 1 then
        gotOriginalPacket env fuel now fd (m.pkt st.heap.length) st.heap.length (st.alloc m.links)
      else some (st.alloc m.links) := by
  obtain ⟨node, hnode, hremote⟩ := alloc_first m st
  have hfind : (st.alloc m.links).findSocketfd m.source.macaddr = none := hroute
  simp only [handlePacket, handleLinkstate, Received.pkt, hnode, hfind, hremote, hzero,
    Option.bind_eq_bind, Option.bind_some, compMacZero_ne_zero, compMacZero_eq_zero, if_false]
  simp only [ne_eq, hzero, not_false_eq_true, true_and]

end Branches

theorem handlePacket_refines {env : Env} {fuel : Nat} {now : U64} {fd : Int} {m : Received}
    {st st' : Proxy} {t : Topology} {cells : Cells} (hs : Shows st t cells)
    (h : handlePacket env fuel now fd m st = some st') :
    ∃ t' cells', t.receive env now fd m.numNeighbors m.source m.first m.rest = some t' ∧
      Shows st' t' cells' := by
  unfold Topology.receive
  cases hfind : st.findSocketfd m.source.macaddr with
  | some e =>
    rw [handlePacket_known hfind] at h
    simp only [hs.route, hfind]
    have hmerge := addMembers_refines h (hs.alloc m.links) (alloc_list st m) (received_off hs)
    rw [received_links] at hmerge
    exact hmerge
  | none =>
    simp only [hs.route, hfind]
    by_cases hzero : m.first.remoteInfo.macaddr = Mac.zero
    · rw [handlePacket_back hfind hzero] at h
      rw [if_pos hzero]
      exact gotPacketBack_refines hs h
    · rw [handlePacket_original hfind hzero] at h
      rw [if_neg hzero]
      by_cases hnn : m.numNeighbors = 1
      · rw [if_pos hnn] at h ⊢
        obtain ⟨cells', hs'⟩ := gotOriginalPacket_refines hs h
        exact ⟨_, cells', rfl, hs'⟩
      · rw [if_neg hnn] at h ⊢
        cases h
        exact ⟨_, cells, rfl, hs.alloc m.links⟩

end Cs352Proxy
