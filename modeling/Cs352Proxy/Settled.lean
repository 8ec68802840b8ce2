import Cs352Proxy.Flood
import Cs352Proxy.Receive
import Cs352Proxy.Sweep
import Cs352Proxy.Trace

/-!
# Settled

A proxy whose list holds nothing but its own link to a peer, and what its three threads do then.

* `sendPackets_settled`: the flooding thread sends the peer an `advert` of that link.
* `tcpHandle_settled`: an `advert` from the peer gives the link a new time and changes nothing else.
* `removeExpiredMembers_settled`: a sweep that is not late changes nothing.
-/

namespace Cs352Proxy

open Base

/-- The link of a proxy to its peer. -/
def peerLink (env : Env) (peer : ProxyInfo) (time : U64) : Link :=
  { localInfo := env.myProxyInfo, remoteInfo := peer, linkweight := 1, ID := time }

def peerNode (env : Env) (peer : ProxyInfo) (time : U64) : LinkstateNode :=
  { peerLink env peer time with next := none }

/-- The list of `st` is the node at `a`, last refreshed at `time`. -/
structure Settled (env : Env) (peer : ProxyInfo) (a : Addr) (routes : List ProxySocketfd)
    (time : U64) (st : Proxy) : Prop where
  memList : st.memList = { head := some a, size := 1 }
  node : st.heap[a]? = some (peerNode env peer time)
  routes : st.socketfds = routes

/-- The packet a settled proxy floods. -/
def advert (env : Env) (peer : ProxyInfo) (time : U64) : Received :=
  { head := { type := pktLinkstate, length := 54 }
    numNeighbors := 1
    source := env.myProxyInfo
    first := peerLink env peer time
    rest := [] }

/-- A link takes 40 bytes of the length field and 36 on the wire, so four bytes of the stack
follow the packet. -/
def IsAdvert (env : Env) (peer : ProxyInfo) (bytes : Buf) : Prop :=
  ∃ time tail, bytes = wireBytes (advert env peer time).head (advert env peer time).numNeighbors
    (advert env peer time).source (advert env peer time).links ++ tail

/-- What the process sent through `fd`, oldest first. -/
def sentOn (fd : Int) (st : Proxy) : List Buf :=
  (((sends st).filter fun s => s.1 = fd).map Prod.snd).reverse

theorem sentOn_same {st st' : Proxy} (h : sends st' = sends st) (fd : Int) {C : Buf → Prop} :
    ∃ new, sentOn fd st' = sentOn fd st ++ new ∧ ∀ bytes ∈ new, C bytes :=
  ⟨[], by rw [List.append_nil, sentOn, h, sentOn], by simp⟩

section Settled

variable {env : Env} {peer : ProxyInfo} {a : Addr} {routes : List ProxySocketfd} {time now : U64}
  {fuel : Nat} {st st' : Proxy}

theorem Settled.list (hs : Settled env peer a routes time st) :
    NodeList st.heap st.memList.head [(a, peerNode env peer time)] := by
  rw [hs.memList]
  exact ⟨rfl, hs.node, rfl⟩

/-! ## Sending -/

theorem createLinkPacket_settled (hs : Settled env peer a routes time st) :
    createLinkPacket env st = some (floodPacket env 1 a) :=
  createLinkPacket_eq env (congrArg MembershipList.head hs.memList)
    (congrArg MembershipList.size hs.memList)

theorem sendBytes_settled (hs : Settled env peer a routes time st) (fuel : Nat) :
    ∃ bytes, IsAdvert env peer bytes ∧
      sendBytes env (fuel + 2) (floodPacket env 1 a) (env.stackBuf maxPktLen) st = some bytes := by
  have hlist : NodeList st.heap (floodPacket env 1 a).list [(a, peerNode env peer time)] :=
    ⟨rfl, hs.node, rfl⟩
  have hlength : (floodPacket env 1 a).head.length.toNat = 54 := rfl
  refine ⟨_, ?_, sendBytes_eq hlist (by simp) (by simp [hlength])
    (by rw [hlength, length_stackBuf]; decide)⟩
  exact ⟨time, _, rfl⟩

theorem sendPackets_eq (hs : Settled env peer a routes time st) (fuel : Nat) :
    sendPackets env fuel st = sendLoop env fuel (floodPacket env 1 a) routes.reverse st := by
  unfold sendPackets
  rw [createLinkPacket_settled hs, ← hs.routes]

theorem sendPackets_settled (hs : Settled env peer a routes time st) (fuel : Nat) :
    ∃ bytes, IsAdvert env peer bytes ∧ sendPackets env (fuel + 2) st =
      some { st with trace :=
        (routes.reverse.map fun s => .send s.sockFd bytes).reverse ++ st.trace } := by
  obtain ⟨bytes, hadvert, hbytes⟩ := sendBytes_settled hs fuel
  exact ⟨bytes, hadvert, by rw [sendPackets_eq hs, sendLoop_eq _ hbytes]⟩

theorem sendPackets_fuel (hs : Settled env peer a routes time st) (hne : routes ≠ [])
    (h : sendPackets env fuel st = some st') : 2 ≤ fuel := by
  rw [sendPackets_eq hs] at h
  obtain ⟨bytes, hbytes, _⟩ := sendLoop_some (by simpa using hne) h
  have hlist : NodeList st.heap (floodPacket env 1 a).list [(a, peerNode env peer time)] :=
    ⟨rfl, hs.node, rfl⟩
  exact (sendBytes_some hlist hbytes).1

/-- A settled proxy that floods stays settled, and what it sends to its peer are adverts. -/
theorem sendPackets_some (hs : Settled env peer a routes time st) (hne : routes ≠ []) (fd : Int)
    (h : sendPackets env fuel st = some st') :
    Settled env peer a routes time st' ∧
      ∃ new, sentOn fd st' = sentOn fd st ++ new ∧ ∀ bytes ∈ new, IsAdvert env peer bytes := by
  obtain ⟨k, rfl⟩ := Nat.exists_eq_add_of_le' (sendPackets_fuel hs hne h)
  obtain ⟨bytes, hadvert, heq⟩ := sendPackets_settled hs k
  rw [heq] at h
  cases h
  refine ⟨⟨hs.memList, hs.node, hs.routes⟩, ?_⟩
  refine ⟨((routes.filter fun s => s.sockFd = fd).map fun _ => bytes).reverse, ?_, ?_⟩
  · simp [sentOn, sends, Function.comp_def, List.filterMap_map, List.filter_map]
  · intro b hb
    simp only [List.mem_reverse, List.mem_map] at hb
    obtain ⟨_, _, rfl⟩ := hb
    exact hadvert

/-! ## Receiving -/

/-- The state after an advert was handled: its node is new on the heap, the list's node has a new
time. -/
def Proxy.refresh (a : Addr) (now : U64) (ls : List Link) (st : Proxy) : Proxy :=
  ((((st.alloc ls).emit .lock).setID a now).emit .unlock)

theorem Settled.refresh (hs : Settled env peer a routes time st) (now : U64) (ls : List Link) :
    Settled env peer a routes now (st.refresh a now ls) := by
  refine ⟨hs.memList, ?_, hs.routes⟩
  have ha := (List.getElem?_eq_some_iff.mp hs.node).1
  have hnode : (st.alloc ls).heap[a]? = some (peerNode env peer time) := by
    rw [alloc_same ls st ha, hs.node]
  simp [Proxy.refresh, hnode, peerNode, peerLink]

/-- The link the peer announces, from the peer to this proxy. -/
theorem addMembers_settled {envP : Env} {timeP : U64} {fd : Int}
    (hs : Settled env envP.myProxyInfo a routes time st)
    (hown : st.findSocketfd env.myProxyInfo.macaddr = none) (fuel : Nat) :
    addMembers env (fuel + 2) now (some st.heap.length) fd
        (st.alloc (advert envP env.myProxyInfo timeP).links) =
      some (st.refresh a now (advert envP env.myProxyInfo timeP).links) := by
  have ha := (List.getElem?_eq_some_iff.mp hs.node).1
  have hrecv : (st.alloc (advert envP env.myProxyInfo timeP).links).heap[st.heap.length]? =
      some (peerNode envP env.myProxyInfo timeP) := by
    simp [Proxy.alloc, Received.links, advert, linkNodes, peerNode]
  have hnode : (st.alloc (advert envP env.myProxyInfo timeP).links).heap[a]? =
      some (peerNode env envP.myProxyInfo time) := by
    rw [alloc_same _ st ha, hs.node]
  have hfind : ((st.alloc (advert envP env.myProxyInfo timeP).links).emit .lock).findSocketfd
      env.myProxyInfo.macaddr = none := hown
  have hown' : (peerNode envP env.myProxyInfo timeP).remoteInfo.macaddr = env.myProxyInfo.macaddr := rfl
  have hsearch : inMemberListLoop (st.alloc (advert envP env.myProxyInfo timeP).links).heap
      (peerNode envP env.myProxyInfo timeP).localInfo (peerNode envP env.myProxyInfo timeP).remoteInfo
      (fuel + 2) (some a) = some (some a) := by
    simp only [inMemberListLoop, hnode, Option.bind_eq_bind, Option.bind_some]
    exact if_pos ⟨rfl, rfl⟩
  have hhead : (st.alloc (advert envP env.myProxyInfo timeP).links).memList.head = some a :=
    congrArg MembershipList.head hs.memList
  have hcall : addMemberConnect env (fuel + 2) now fd st.heap.length
      (st.alloc (advert envP env.myProxyInfo timeP).links) =
        some (st.refresh a now (advert envP env.myProxyInfo timeP).links) := by
    simp only [addMemberConnect, Proxy.emit_heap, hrecv, Option.bind_eq_bind, Option.bind_some, hfind,
      hown', compMacAddrs_eq_zero, or_true, if_true, inMemberList, Proxy.emit_memList, hhead, hsearch]
    rfl
  have hnext : (st.refresh a now (advert envP env.myProxyInfo timeP).links).heap[st.heap.length]? =
      some (peerNode envP env.myProxyInfo timeP) := by
    have hne : a ≠ st.heap.length := Nat.ne_of_lt ha
    simp [Proxy.refresh, List.getElem?_modify_ne _ _ hne, hrecv]
  simp only [addMembers, addMembersLoop, addMembersStep, hcall, hnext, Option.bind_eq_bind,
    Option.bind_some]
  rfl

/-- The walk takes one round for the node and one for its null pointer. -/
theorem addMembers_fuel {p : Addr} {fd : Int} (h : addMembers env fuel now (some p) fd st = some st') :
    2 ≤ fuel := by
  unfold addMembers at h
  rcases fuel with _ | _ | fuel
  · cases h
  · simp only [addMembersLoop, Option.bind_eq_bind, Option.bind_eq_some_iff] at h
    obtain ⟨_, _, h⟩ := h
    cases h
  · omega

section Deliver

variable {envP : Env} {fd : Int} {bytes : Buf} {e : ProxySocketfd}

/-- One more unit of fuel than nodes is enough, and there is no other outcome. -/
theorem tcpHandle_settled (hs : Settled env envP.myProxyInfo a routes time st)
    (hpeer : st.findSocketfd envP.myProxyInfo.macaddr = some e)
    (hown : st.findSocketfd env.myProxyInfo.macaddr = none)
    (hadvert : IsAdvert envP env.myProxyInfo bytes) :
    ∃ ls, ∀ fuel, tcpHandle env fuel now fd bytes st =
      if 2 ≤ fuel then .next (st.refresh a now ls) else .stuck st := by
  obtain ⟨timeP, tail, rfl⟩ := hadvert
  refine ⟨(advert envP env.myProxyInfo timeP).links, ?_⟩
  intro fuel
  have hlength : ((advert envP env.myProxyInfo timeP).head.length.toNat - 14) / 36 =
      (advert envP env.myProxyInfo timeP).links.length := by
    simp [advert, Received.links]
  have hhandle : handlePacket env fuel now fd (advert envP env.myProxyInfo timeP) st =
      addMembers env fuel now (some st.heap.length) fd
        (st.alloc (advert envP env.myProxyInfo timeP).links) := handlePacket_known hpeer
  rw [tcpHandle_wireBytes rfl hlength rfl tail, hhandle]
  by_cases hfuel : 2 ≤ fuel
  · obtain ⟨k, rfl⟩ := Nat.exists_eq_add_of_le' hfuel
    rw [addMembers_settled hs hown, if_pos hfuel]
  · rw [if_neg hfuel]
    cases hadd : addMembers env fuel now (some st.heap.length) fd
        (st.alloc (advert envP env.myProxyInfo timeP).links) with
    | none => rfl
    | some st' => exact absurd (addMembers_fuel hadd) hfuel

theorem sentOn_refresh (fd : Int) (ls : List Link) : sentOn fd (st.refresh a now ls) = sentOn fd st :=
  rfl

end Deliver

/-! ## Sweeping -/

/-- The link is no older than the timeout. -/
def Timely (now time : U64) (linkTimeout : Int) : Prop :=
  (now.toNat : Int) ≤ time.toNat + linkTimeout * 1000

instance (now time : U64) (linkTimeout : Int) : Decidable (Timely now time linkTimeout) :=
  inferInstanceAs (Decidable (_ ≤ _))

/-- The times are represented exactly and the product does not overflow. -/
def Representable (now time : U64) (linkTimeout : Int) : Prop :=
  now.toNat ≤ 2 ^ 53 ∧ time.toNat ≤ 2 ^ 53 ∧ -(2 ^ 31) ≤ linkTimeout * 1000 ∧
    linkTimeout * 1000 < 2 ^ 31

theorem removeExpiredMembers_settled {linkTimeout : Int} (hs : Settled env peer a routes time st)
    (ht : Timely now time linkTimeout)
    (h : removeExpiredMembers fuel now linkTimeout st = some st') :
    st' = (st.emit .lock).emit .unlock := by
  have hhead : st.memList.head = some a := congrArg MembershipList.head hs.memList
  obtain ⟨_, _, st₁, hloop, rfl⟩ := removeExpiredMembers_some h
  cases fuel with
  | zero => cases hloop
  | succ n =>
    rw [hhead] at hloop
    obtain ⟨node, hnode, _, hround⟩ := removeExpiredLoop_some hloop
    rw [Proxy.emit_heap, hs.node] at hnode
    cases hnode
    rcases hround with ⟨hexp, _⟩ | ⟨_, hloop⟩
    · have hlate : (now.toNat : Int) - time.toNat > linkTimeout * 1000 := hexp
      unfold Timely at ht
      omega
    · cases n with
      | zero => cases hloop
      | succ n => cases hloop; rfl

end Settled

end Cs352Proxy
