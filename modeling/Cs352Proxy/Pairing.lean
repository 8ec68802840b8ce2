import Cs352Proxy.Handshake
import Cs352Proxy.Isolation
import Cs352Proxy.Neighbours
import Cs352Proxy.Reply

/-!
# Pairing

A client and a server from start-up on. The packet of `connecttohost` is on its way to the server;
then both flood, handle what the other one sent in the order it was sent, and sweep at any time, in
any order of steps. A sweep that comes late makes a side forget the other one.

* `Blank`, `Linked`: the two states a side can be in.
* `Greets`: a packet that links a blank side to its sender. `Notice`: one that a linked side only
  refreshes its link by.
* `Meeting`: the invariant. `Moves.meeting`: every step keeps it.
* `pairing_safe`, `pairing_recovers_iff`: what holds in every run, and when the two can still find
  each other.
-/

namespace Cs352Proxy

open Base

/-- Nothing is known: the state before the first packet, and after the only link has expired. -/
def Blank (st : Proxy) : Prop :=
  st.memList = { head := none, size := 0 } ∧ st.socketfds = []

/-- The entry of a peer. -/
def peerEntry (peer : ProxyInfo) (fd : Int) : ProxySocketfd := { macaddr := peer.macaddr, sockFd := fd }

/-- The link to the peer is stored, and the table leads there; nothing else is known. -/
def Linked (env : Env) (peer : ProxyInfo) (fd : Int) (time : U64) (st : Proxy) : Prop :=
  ∃ a, Settled env peer a [peerEntry peer fd] time st

/-- A packet with one link of its sender. -/
structure Greets (env : Env) (m : Received) : Prop where
  type : m.head.type = pktLinkstate
  length : (m.head.length.toNat - 14) / 36 = 1
  count : m.numNeighbors = 1
  source : m.source = env.myProxyInfo
  localInfo : m.first.localInfo = env.myProxyInfo
  rest : m.rest = []

/-- The link leads to `peer`. -/
structure Notice (env : Env) (peer : ProxyInfo) (m : Received) : Prop extends Greets env m where
  remote : m.first.remoteInfo = peer

/-- A chunk that holds the packet `m`. -/
def Holding (m : Received) (bytes : Buf) : Prop :=
  ∃ tail, bytes = wireBytes m.head m.numNeighbors m.source m.links ++ tail

def IsGreeting (env : Env) (bytes : Buf) : Prop := ∃ m, Greets env m ∧ Holding m bytes

def IsNotice (env : Env) (peer : ProxyInfo) (bytes : Buf) : Prop :=
  ∃ m, Notice env peer m ∧ Holding m bytes

/-! ## What is sent -/

theorem IsNotice.greeting {env : Env} {peer : ProxyInfo} {bytes : Buf} (h : IsNotice env peer bytes) :
    IsGreeting env bytes := by
  obtain ⟨m, hm, hbytes⟩ := h
  exact ⟨m, hm.toGreets, hbytes⟩

theorem IsAdvert.notice {env : Env} {peer : ProxyInfo} {bytes : Buf} (h : IsAdvert env peer bytes) :
    IsNotice env peer bytes := by
  obtain ⟨time, tail, rfl⟩ := h
  exact ⟨advert env peer time, ⟨⟨rfl, by simp [advert], rfl, rfl, rfl, rfl⟩, rfl⟩, tail, rfl⟩

theorem reply_notice (env : Env) (peer : ProxyInfo) (now : U64) :
    IsNotice env peer (replyBytes env peer now 0) := by
  let m : Received :=
    { head := { type := pktLinkstate, length := 50 }, numNeighbors := BitVec.ofInt 16 (0 + 1)
      source := env.myProxyInfo, first := Topology.client env peer now, rest := [] }
  exact ⟨m, ⟨⟨rfl, by simp [m], rfl, rfl, rfl, rfl⟩, rfl⟩, [], (List.append_nil _).symm⟩

theorem connecttohost_greeting {env : Env} {time : U64} {remoteIp : U32} {remotePort : U16}
    {macaddr : Mac} {bytes : Buf}
    (h : connecttohost env time remoteIp remotePort macaddr = some bytes) : IsGreeting env bytes := by
  rw [connecttohost_eq] at h
  cases h
  exact ⟨hello env time remoteIp remotePort macaddr, ⟨rfl, by simp [hello], rfl, rfl, rfl, rfl⟩, [],
    (List.append_nil _).symm⟩

/-! ## The two states as topologies -/

/-- What a linked side knows. -/
def Topology.linked (env : Env) (peer : ProxyInfo) (fd : Int) (time : U64) : Topology :=
  { links := [client env peer time], size := 1, routes := [peerEntry peer fd] }

theorem memList_eq {st : Proxy} {p : Ptr} {n : Int} (hhead : st.memList.head = p)
    (hsize : st.memList.size = n) : st.memList = { head := p, size := n } := by
  rw [← hhead, ← hsize]

theorem blank_iff {st : Proxy} : Blank st ↔ Shows st Topology.start [] := by
  constructor
  · intro h
    obtain ⟨hmem, hsock⟩ := h
    exact ⟨congrArg MembershipList.head hmem, rfl, congrArg MembershipList.size hmem, hsock⟩
  · intro h
    exact ⟨memList_eq h.list h.size, h.routes⟩

section States

variable {env : Env} {peer : ProxyInfo} {fd : Int} {time now : U64} {fuel : Nat} {st st' : Proxy}

theorem Linked.shows (h : Linked env peer fd time st) :
    ∃ cells, Shows st (Topology.linked env peer fd time) cells := by
  obtain ⟨a, hs⟩ := h
  exact ⟨_, hs.list, rfl, congrArg MembershipList.size hs.memList, hs.routes⟩

theorem Shows.linked {cells : Cells} (hs : Shows st (Topology.linked env peer fd time) cells) :
    Linked env peer fd time st := by
  obtain ⟨x, rfl, hlink⟩ := List.map_eq_singleton_iff.mp hs.links
  obtain ⟨hhead, hnode, hend⟩ := hs.list
  have hnext : x.2.next = none := hend
  have hcell : x.2 = { x.2.toLink with next := x.2.next } := rfl
  refine ⟨x.1, memList_eq hhead hs.size, ?_, hs.routes⟩
  rw [hnode, hcell, hlink, hnext]
  rfl

theorem Shows.blank {cells : Cells} (hs : Shows st Topology.start cells) : Blank st := by
  have hnil : cells = [] := List.map_eq_nil_iff.mp hs.links
  subst hnil
  exact blank_iff.mpr hs

/-! ## Receiving -/

theorem receive_start {envP : Env} {m : Received} (hm : Greets envP m)
    (hkey : envP.myProxyInfo.macaddr.key ≠ Mac.zero.key) :
    Topology.start.receive env now fd m.numNeighbors m.source m.first m.rest =
      some (Topology.linked env envP.myProxyInfo fd now) := by
  have hroute : Topology.start.route m.source.macaddr = none := rfl
  have hsource : { m.source with macaddr := m.first.localInfo.macaddr } = envP.myProxyInfo := by
    rw [hm.source, hm.localInfo]
  simp only [Topology.receive, hroute]
  by_cases hzero : m.first.remoteInfo.macaddr = Mac.zero
  · -- the link back is not stored, and at most gives the new link the time it has
    let t : Topology := { links := [Topology.client env m.source now], size := 0 + 1
                          routes := [{ macaddr := m.source.macaddr, sockFd := fd }] }
    have hnone : t.route m.first.remoteInfo.macaddr = none := by
      rw [← hm.source] at hkey
      rw [hzero, Topology.route]
      exact lookup_cons.trans (if_neg hkey)
    have hstores : t.stores env m.first = false := by
      rw [Topology.stores, hnone]
      simp [hzero]
    have hkeep : t.keep now m.first = t := by
      simp only [Topology.keep, hnone, t, Topology.refresh]
      split <;> rfl
    rw [if_pos hzero, hm.rest]
    change t.merge env now fd [m.first] = _
    rw [Topology.merge, hstores, if_neg (by simp), hkeep, Topology.merge]
    simp only [t, hm.source]
    rfl
  · rw [if_neg hzero, if_pos hm.count, hsource, hm.source]
    rfl

theorem receive_linked {envP : Env} {m : Received} (hm : Notice envP env.myProxyInfo m)
    (hkey : envP.myProxyInfo.macaddr.key ≠ env.myProxyInfo.macaddr.key) :
    (Topology.linked env envP.myProxyInfo fd time).receive env now fd m.numNeighbors m.source m.first
        m.rest =
      some (Topology.linked env envP.myProxyInfo fd now) := by
  let t := Topology.linked env envP.myProxyInfo fd time
  have hknown : t.route m.source.macaddr = some (peerEntry envP.myProxyInfo fd) := by
    rw [hm.source, Topology.route]
    exact lookup_cons.trans (if_pos rfl)
  have hnone : t.route m.first.remoteInfo.macaddr = none := by
    rw [hm.remote, Topology.route]
    exact lookup_cons.trans (if_neg hkey)
  have hstores : t.stores env m.first = false := by
    rw [Topology.stores, hnone]
    simp [hm.remote]
  have hrev : Topology.reverses m.first (Topology.client env envP.myProxyInfo time) = true := by
    simp [Topology.reverses, Topology.client, hm.remote, hm.localInfo]
  have hkeep : t.keep now m.first = Topology.linked env envP.myProxyInfo fd now := by
    simp only [Topology.keep, hnone]
    simp only [t, Topology.linked, Topology.refresh, hrev, if_true]
    rfl
  change t.receive env now fd m.numNeighbors m.source m.first m.rest = _
  simp only [Topology.receive, hknown, hm.rest]
  rw [Topology.merge, hstores, if_neg (by simp), hkeep, Topology.merge]

theorem expire_linked (env : Env) (peer : ProxyInfo) (fd : Int) (time : U64) (now timeout : Int) :
    (Topology.linked env peer fd time).expire now timeout =
      if Topology.Expired now timeout (Topology.client env peer time) then Topology.start
      else Topology.linked env peer fd time := by
  simp only [Topology.expire, Topology.linked, List.foldl_cons, List.foldl_nil, Topology.expireStep]
  split
  · simp [Topology.dropFirst, Topology.client, remove, peerEntry, ProxySocketfd.key, Topology.start]
  · rfl

theorem sentOn_congr (h : sends st' = sends st) (fd : Int) : sentOn fd st' = sentOn fd st := by
  rw [sentOn, h, sentOn]

section Deliver

variable {envP : Env} {m : Received}

/-- A proxy answers a client with its link to it, and otherwise nothing. -/
theorem handlePacket_sends (hm : Greets envP m) (h : handlePacket env fuel now fd m st = some st') :
    sends st' = sends st ∨ st.findSocketfd envP.myProxyInfo.macaddr = none ∧
      m.first.remoteInfo.macaddr ≠ Mac.zero ∧
      sends st' = (fd, replyBytes env envP.myProxyInfo now st.memList.size) :: sends st := by
  have hsource : m.source.macaddr = envP.myProxyInfo.macaddr := congrArg ProxyInfo.macaddr hm.source
  cases hfind : st.findSocketfd m.source.macaddr with
  | some e =>
    rw [handlePacket_known hfind] at h
    exact .inl (addMembers_emits h).sends_eq
  | none =>
    by_cases hzero : m.first.remoteInfo.macaddr = Mac.zero
    · rw [handlePacket_back hfind hzero] at h
      exact .inl (gotPacketBack_emits h).sends_eq
    · rw [handlePacket_original hfind hzero, if_pos hm.count] at h
      obtain ⟨node, hnode, hsends⟩ := gotOriginalPacket_sends h
      have hlocal : node.localInfo = m.first.localInfo := by
        simp [Proxy.alloc, Received.links, linkNodes] at hnode
        rw [← hnode]
      have hpeer : { (m.pkt st.heap.length).source with macaddr := node.localInfo.macaddr } =
          envP.myProxyInfo := by
        rw [hlocal, hm.localInfo, show (m.pkt st.heap.length).source = m.source from rfl, hm.source]
      rw [hpeer] at hsends
      exact .inr ⟨hsource ▸ hfind, hzero, hsends⟩

/-- A blank side is linked by every packet that greets it. What it answers is a notice. -/
theorem handlePacket_blank (hb : Blank st) (hm : Greets envP m)
    (hkey : envP.myProxyInfo.macaddr.key ≠ Mac.zero.key)
    (h : handlePacket env fuel now fd m st = some st') :
    Linked env envP.myProxyInfo fd now st' ∧
      ∃ new, sentOn fd st' = sentOn fd st ++ new ∧ ∀ b ∈ new, IsNotice env envP.myProxyInfo b := by
  obtain ⟨t', cells', hreceive, hs'⟩ := handlePacket_refines (blank_iff.mp hb) h
  rw [receive_start hm hkey] at hreceive
  cases hreceive
  refine ⟨hs'.linked, ?_⟩
  rcases handlePacket_sends hm h with hsends | ⟨_, _, hsends⟩
  · exact ⟨[], by rw [List.append_nil, sentOn_congr hsends], by simp⟩
  · have hsize : st.memList.size = 0 := congrArg MembershipList.size hb.1
    rw [hsize] at hsends
    refine ⟨[replyBytes env envP.myProxyInfo now 0], by simp [sentOn, hsends], fun b hb' => ?_⟩
    rw [List.mem_singleton.mp hb']
    exact reply_notice env envP.myProxyInfo now

/-- A linked side refreshes its link by every notice of its peer. -/
theorem handlePacket_linked (hl : Linked env envP.myProxyInfo fd time st)
    (hm : Notice envP env.myProxyInfo m)
    (hkey : envP.myProxyInfo.macaddr.key ≠ env.myProxyInfo.macaddr.key)
    (h : handlePacket env fuel now fd m st = some st') :
    Linked env envP.myProxyInfo fd now st' ∧ sentOn fd st' = sentOn fd st := by
  obtain ⟨cells, hs⟩ := hl.shows
  obtain ⟨t', cells', hreceive, hs'⟩ := handlePacket_refines hs h
  rw [receive_linked hm hkey] at hreceive
  cases hreceive
  refine ⟨hs'.linked, ?_⟩
  have hknown : st.findSocketfd m.source.macaddr = some (peerEntry envP.myProxyInfo fd) := by
    rw [Proxy.findSocketfd, hs.routes, hm.source]
    exact lookup_cons.trans (if_pos rfl)
  rw [handlePacket_known hknown] at h
  exact sentOn_congr (addMembers_emits h).sends_eq fd

theorem tcpHandle_holding {bytes : Buf} (hm : Greets envP m) (hbytes : Holding m bytes) :
    tcpHandle env fuel now fd bytes st =
      match handlePacket env fuel now fd m st with
      | none => .stuck st
      | some st' => .next st' := by
  obtain ⟨tail, rfl⟩ := hbytes
  have hlen : m.links.length = 1 := by rw [Received.links, hm.rest]; rfl
  exact tcpHandle_wireBytes hm.type (by rw [hm.length, hlen]) (by rw [hlen]; rfl) tail

/-- A chunk of a packet that the topology can take is handled to the end, and only as the packet. -/
theorem tcpHandle_returns {t t' : Topology} {cells : Cells} {bytes : Buf} {Q : Proxy → Prop}
    (hs : Shows st t cells) (hm : Greets envP m) (hbytes : Holding m bytes)
    (hreceive : t.receive env now fd m.numNeighbors m.source m.first m.rest = some t')
    (hpost : ∀ fuel st', handlePacket env fuel now fd m st = some st' → Q st') :
    (∃ fuel st', tcpHandle env fuel now fd bytes st = .next st') ∧
      ∀ fuel st', tcpHandle env fuel now fd bytes st = .next st' → Q st' := by
  constructor
  · obtain ⟨fuel, st₁, hsome⟩ := (handlePacket_isSome_iff hs).mpr ⟨t', hreceive⟩
    exact ⟨fuel, st₁, by rw [tcpHandle_holding hm hbytes, hsome]⟩
  · intro fuel st' h
    rw [tcpHandle_holding hm hbytes] at h
    split at h
    · cases h
    · rename_i hhandle
      cases h
      exact hpost fuel st' hhandle

end Deliver

/-! ## Sweeping -/

theorem removeExpiredMembers_blank {linkTimeout : Int} (hb : Blank st)
    (h : removeExpiredMembers fuel now linkTimeout st = some st') :
    Blank st' ∧ sends st' = sends st := by
  obtain ⟨cells', hs', _⟩ := removeExpiredMembers_refines (blank_iff.mp hb) h
  exact ⟨Shows.blank hs', (removeExpiredMembers_emits h).sends_eq⟩

theorem removeExpiredMembers_linked {linkTimeout : Int} (hl : Linked env peer fd time st)
    (h : removeExpiredMembers fuel now linkTimeout st = some st') :
    (Blank st' ∨ Linked env peer fd time st') ∧ sends st' = sends st := by
  obtain ⟨cells, hs⟩ := hl.shows
  obtain ⟨cells', hs', _⟩ := removeExpiredMembers_refines hs h
  rw [expire_linked] at hs'
  refine ⟨?_, (removeExpiredMembers_emits h).sends_eq⟩
  split at hs'
  · exact .inl hs'.blank
  · exact .inr hs'.linked

end States

/-! ## The two sides -/

namespace Neighbours

variable {nb : Neighbours} {p p' : Pair}

/-- The keys of the two addresses and of the zero address differ. -/
structure Distinguished (nb : Neighbours) : Prop where
  peer : ∀ x : Side, (nb.info x.other).macaddr.key ≠ (nb.info x).macaddr.key
  named : ∀ x : Side, (nb.info x).macaddr.key ≠ Mac.zero.key

/-- The client has sent the bytes of `connecttohost`. -/
def meet (nb : Neighbours) (hello : Buf) : Pair where
  st
    | .client => Proxy.start.emit (.send (nb.fd .client) hello)
    | .server => Proxy.start
  handled _ := 0
  heard _ := 0

/-- Times that a `double` holds exactly, and a timeout that does not overflow. -/
def Clocked : PairOp → Prop
  | .send _ => True
  | .deliver _ now => now.toNat ≤ 2 ^ 53
  | .sweep _ now linkTimeout =>
    now.toNat ≤ 2 ^ 53 ∧ -(2 ^ 31) ≤ linkTimeout * 1000 ∧ linkTimeout * 1000 < 2 ^ 31

instance : (op : PairOp) → Decidable (Clocked op)
  | .send _ => .isTrue trivial
  | .deliver _ now => Nat.decLe now.toNat (2 ^ 53)
  | .sweep _ now linkTimeout => inferInstanceAs (Decidable (now.toNat ≤ 2 ^ 53 ∧
      -(2 ^ 31) ≤ linkTimeout * 1000 ∧ linkTimeout * 1000 < 2 ^ 31))

/-- Any step, with sweeps at any time. -/
def Moves (nb : Neighbours) (p : Pair) (op : PairOp) (p' : Pair) : Prop :=
  Clocked op ∧ ∃ fuel, nb.perform fuel p op = some p'

/-- A delivery has a packet to deliver. -/
def Pending (nb : Neighbours) (p : Pair) : PairOp → Prop
  | .deliver x _ => p.handled x < (nb.sentTo p x).length
  | .send _ | .sweep .. => True

def SideLinked (nb : Neighbours) (x : Side) (time : U64) (st : Proxy) : Prop :=
  Linked (nb.env x) (nb.info x.other) (nb.fd x) time st

/-- The first packet to the server greets it, all others are notices. -/
def Fits (nb : Neighbours) (x : Side) (i : Nat) (bytes : Buf) : Prop :=
  if x = .server ∧ i = 0 then IsGreeting (nb.env x.other) bytes
  else IsNotice (nb.env x.other) (nb.info x) bytes

structure Meeting (nb : Neighbours) (p : Pair) : Prop where
  side : ∀ x, Blank (p.st x) ∨ ∃ time : U64, time.toNat ≤ 2 ^ 53 ∧ nb.SideLinked x time (p.st x)
  sent : ∀ x i bytes, (nb.sentTo p x)[i]? = some bytes → nb.Fits x i bytes
  fresh : p.handled .server = 0 → Blank (p.st .server)
  counted : ∀ x, p.handled x ≤ (nb.sentTo p x).length

theorem IsNotice.fits {x : Side} {bytes : Buf} (h : IsNotice (nb.env x.other) (nb.info x) bytes)
    (i : Nat) : nb.Fits x i bytes := by
  unfold Fits
  split
  · exact h.greeting
  · exact h

theorem Fits.greeting {x : Side} {i : Nat} {bytes : Buf} (h : nb.Fits x i bytes) :
    IsGreeting (nb.env x.other) bytes := by
  unfold Fits at h
  split at h
  · exact h
  · exact h.greeting

theorem meet_meeting {hello : Buf} (hhello : IsGreeting (nb.env .client) hello) :
    nb.Meeting (nb.meet hello) := by
  refine ⟨fun x => .inl (by cases x <;> exact ⟨rfl, rfl⟩), fun x i bytes hget => ?_,
    fun _ => ⟨rfl, rfl⟩, fun x => Nat.zero_le _⟩
  cases x with
  | client => simp [sentTo, meet, Side.other, sentOn, sends, Proxy.start] at hget
  | server =>
    have hsent : nb.sentTo (nb.meet hello) .server = [hello] := by
      simp [sentTo, meet, Side.other, sentOn, sends, Proxy.start]
    rw [hsent] at hget
    cases i with
    | zero =>
      cases hget
      exact hhello
    | succ i => cases hget

theorem Meeting.put (hm : nb.Meeting p) {x : Side} {st : Proxy} {handled : Nat} {heard : U64}
    (hside : Blank st ∨ ∃ time : U64, time.toNat ≤ 2 ^ 53 ∧ nb.SideLinked x time st)
    (hsent : ∃ new, sentOn (nb.fd x) st = sentOn (nb.fd x) (p.st x) ++ new ∧
      ∀ bytes ∈ new, IsNotice (nb.env x) (nb.info x.other) bytes)
    (hfresh : x = .server → handled = 0 → Blank st)
    (hcounted : handled ≤ (nb.sentTo p x).length) : nb.Meeting (p.put x st handled heard) := by
  have hne := x.other_ne
  obtain ⟨new, hnew, hall⟩ := hsent
  refine ⟨fun y => ?_, fun y i bytes hget => ?_, fun hzero => ?_, fun y => ?_⟩
  · rcases x.eq_or_eq_other y with rfl | rfl
    · simpa [Pair.put] using hside
    · simpa [Pair.put, hne] using hm.side x.other
  · rcases x.eq_or_eq_other y with rfl | rfl
    · exact hm.sent y i bytes (by simpa [Pair.put, sentTo, hne] using hget)
    · have hget' : (sentOn (nb.fd x) (p.st x) ++ new)[i]? = some bytes := by
        simpa [Pair.put, sentTo, hnew] using hget
      rw [List.getElem?_append] at hget'
      split at hget'
      · exact hm.sent x.other i bytes (by simpa [sentTo] using hget')
      · refine IsNotice.fits ?_ i
        rw [Side.other_other]
        exact hall bytes (List.mem_of_getElem? hget')
  · cases x with
    | server => simpa [Pair.put] using hfresh rfl (by simpa [Pair.put] using hzero)
    | client => simpa [Pair.put] using hm.fresh (by simpa [Pair.put] using hzero)
  · rcases x.eq_or_eq_other y with rfl | rfl
    · simpa [Pair.put, sentTo, hne] using hcounted
    · have hle : p.handled x.other ≤ (sentOn (nb.fd x) (p.st x)).length := by
        simpa [sentTo] using hm.counted x.other
      simpa [Pair.put, sentTo, hne, hnew] using Nat.le_add_right_of_le hle

/-- The next packet to `x` links it to the other side, and is always handled to the end. -/
theorem Meeting.deliver (hm : nb.Meeting p) (hd : nb.Distinguished) {x : Side} {bytes : Buf}
    (hbytes : (nb.sentTo p x)[p.handled x]? = some bytes) (now : U64) :
    (∃ fuel st', tcpHandle (nb.env x) fuel now (nb.fd x) bytes (p.st x) = .next st') ∧
      ∀ fuel st', tcpHandle (nb.env x) fuel now (nb.fd x) bytes (p.st x) = .next st' →
        nb.SideLinked x now st' ∧
          ∃ new, sentOn (nb.fd x) st' = sentOn (nb.fd x) (p.st x) ++ new ∧
            ∀ b ∈ new, IsNotice (nb.env x) (nb.info x.other) b := by
  have hfits := hm.sent x _ bytes hbytes
  by_cases hb : Blank (p.st x)
  · obtain ⟨m, hgreets, hholding⟩ := hfits.greeting
    refine tcpHandle_returns (blank_iff.mp hb) hgreets hholding
      (receive_start hgreets (hd.named x.other)) fun fuel st' hhandle => ?_
    exact handlePacket_blank hb hgreets (hd.named x.other) hhandle
  · obtain ⟨time, _, hl⟩ := (hm.side x).resolve_left hb
    have hnotice : IsNotice (nb.env x.other) (nb.info x) bytes := by
      unfold Fits at hfits
      rwa [if_neg] at hfits
      intro hfirst
      obtain ⟨rfl, hzero⟩ := hfirst
      exact hb (hm.fresh hzero)
    obtain ⟨m, hnot, hholding⟩ := hnotice
    obtain ⟨cells, hs⟩ := hl.shows
    refine tcpHandle_returns hs hnot.toGreets hholding (receive_linked hnot (hd.peer x))
      fun fuel st' hhandle => ?_
    obtain ⟨hl', hsent⟩ := handlePacket_linked hl hnot (hd.peer x) hhandle
    exact ⟨hl', [], by rw [hsent, List.append_nil], by simp⟩

theorem sendPackets_blank {env : Env} {st : Proxy} (hb : Blank st) (fuel : Nat) :
    sendPackets env fuel st = some st := by
  have hhead : st.memList.head = none := congrArg MembershipList.head hb.1
  simp [sendPackets, createLinkPacket, hhead]

theorem Moves.meeting {op : PairOp} (hd : nb.Distinguished) (hm : nb.Meeting p)
    (h : nb.Moves p op p') : nb.Meeting p' := by
  obtain ⟨hclock, fuel, h⟩ := h
  cases op with
  | send x =>
    simp only [perform, Option.bind_eq_bind, Option.bind_eq_some_iff] at h
    obtain ⟨st, hst, h⟩ := h
    cases h
    rcases hm.side x with hb | ⟨time, htime, a, hs⟩
    · rw [sendPackets_blank hb] at hst
      cases hst
      exact hm.put (.inl hb) (sentOn_same rfl _) (fun _ _ => hb) (hm.counted x)
    · obtain ⟨hs', new, hnew, hadverts⟩ := sendPackets_some hs (by simp) (nb.fd x) hst
      refine hm.put (.inr ⟨time, htime, a, hs'⟩) ⟨new, hnew, fun b hb => (hadverts b hb).notice⟩ ?_
        (hm.counted x)
      rintro rfl hzero
      -- a server that has handled nothing has nothing to send
      have hmem := hs.memList.symm.trans (hm.fresh hzero).1
      cases hmem
  | deliver x now =>
    simp only [perform, Option.bind_eq_bind, Option.bind_eq_some_iff] at h
    obtain ⟨bytes, hbytes, h⟩ := h
    obtain ⟨hlt, _⟩ := List.getElem?_eq_some_iff.mp hbytes
    split at h
    · rename_i st hround
      cases h
      obtain ⟨hl, hsent⟩ := (hm.deliver hd hbytes now).2 fuel st hround
      exact hm.put (.inr ⟨now, hclock, hl⟩) hsent (fun _ hzero => absurd hzero (Nat.succ_ne_zero _)) hlt
    · cases h
    · cases h
  | sweep x now linkTimeout =>
    simp only [perform, Option.bind_eq_bind, Option.bind_eq_some_iff] at h
    obtain ⟨st, hst, h⟩ := h
    cases h
    rcases hm.side x with hb | ⟨time, htime, hl⟩
    · obtain ⟨hb', hsent⟩ := removeExpiredMembers_blank hb hst
      exact hm.put (.inl hb') (sentOn_same hsent _) (fun _ _ => hb') (hm.counted x)
    · obtain ⟨hside, hsent⟩ := removeExpiredMembers_linked hl hst
      refine hm.put (hside.imp id fun h => ⟨time, htime, h⟩) (sentOn_same hsent _) ?_ (hm.counted x)
      rintro rfl hzero
      exact (removeExpiredMembers_blank (hm.fresh hzero) hst).1

/-- Nothing an operation waits for is missing, whatever the states of the two sides. -/
theorem Meeting.moves (hm : nb.Meeting p) (hd : nb.Distinguished) {op : PairOp} (hclock : Clocked op)
    (hpending : nb.Pending p op) : ∃ p', nb.Moves p op p' := by
  cases op with
  | send x =>
    rcases hm.side x with hb | ⟨time, _, a, hs⟩
    · exact ⟨_, hclock, 0, by simp only [perform, sendPackets_blank hb]; rfl⟩
    · obtain ⟨bytes, _, heq⟩ := sendPackets_settled hs 0
      exact ⟨_, hclock, 2, by simp only [perform, heq]; rfl⟩
  | deliver x now =>
    have hbytes := List.getElem?_eq_getElem hpending
    obtain ⟨⟨fuel, st, hround⟩, _⟩ := hm.deliver hd hbytes now
    exact ⟨_, hclock, fuel, by
      simp only [perform, hbytes, Option.bind_eq_bind, Option.bind_some, hround]; rfl⟩
  | sweep x now linkTimeout =>
    obtain ⟨hnow, htimeout⟩ := hclock
    have hsome : ∃ st, removeExpiredMembers 2 now linkTimeout (p.st x) = some st := by
      rcases hm.side x with hb | ⟨time, htime, a, hs⟩
      · exact removeExpiredMembers_isSome (blank_iff.mp hb).list (by simp) hnow (by simp) htimeout
      · exact removeExpiredMembers_isSome hs.list (by simp) hnow
          (List.forall_mem_singleton.mpr htime) htimeout
    obtain ⟨st, hst⟩ := hsome
    exact ⟨_, ⟨hnow, htimeout⟩, 2, by simp only [perform, hst]; rfl⟩

/-! ## Finding each other again -/

/-- Neither side knows the other one, and nothing is on its way. -/
def Dead (nb : Neighbours) (p : Pair) : Prop :=
  ∀ x, Blank (p.st x) ∧ (nb.sentTo p x).length ≤ p.handled x

def BothLinked (nb : Neighbours) (p : Pair) : Prop := ∀ x, ∃ time, nb.SideLinked x time (p.st x)

theorem Dead.put (hdead : nb.Dead p) {x : Side} {st : Proxy} {heard : U64} (hb : Blank st)
    (hsent : sends st = sends (p.st x)) : nb.Dead (p.put x st (p.handled x) heard) := by
  have hne := x.other_ne
  intro y
  obtain ⟨hby, hle⟩ := hdead y
  rcases x.eq_or_eq_other y with rfl | rfl
  · exact ⟨by simpa [Pair.put] using hb, by simpa [Pair.put, sentTo, hne] using hle⟩
  · refine ⟨by simpa [Pair.put, hne] using hby, ?_⟩
    have hsent' : sentOn (nb.fd x) st = sentOn (nb.fd x) (p.st x) := sentOn_congr hsent _
    simpa [Pair.put, sentTo, hne, hsent'] using hle

/-- No step brings the two back. -/
theorem Dead.moves {op : PairOp} (hdead : nb.Dead p) (h : nb.Moves p op p') : nb.Dead p' := by
  obtain ⟨_, fuel, h⟩ := h
  cases op with
  | send x =>
    simp only [perform, sendPackets_blank (hdead x).1, Option.bind_eq_bind, Option.bind_some] at h
    cases h
    exact hdead.put (hdead x).1 rfl
  | deliver x now =>
    have hnone : (nb.sentTo p x)[p.handled x]? = none := List.getElem?_eq_none (hdead x).2
    simp only [perform, hnone] at h
    cases h
  | sweep x now linkTimeout =>
    simp only [perform, Option.bind_eq_bind, Option.bind_eq_some_iff] at h
    obtain ⟨st, hst, h⟩ := h
    cases h
    obtain ⟨hb, hsent⟩ := removeExpiredMembers_blank (hdead x).1 hst
    exact hdead.put hb hsent

theorem Dead.not_bothLinked (hdead : nb.Dead p) : ¬ nb.BothLinked p := by
  intro hboth
  obtain ⟨time, a, hs⟩ := hboth .client
  have hmem := hs.memList.symm.trans (hdead .client).1.1
  cases hmem

theorem Moves.delivered {x : Side} {now : U64} (hd : nb.Distinguished) (hm : nb.Meeting p)
    (h : nb.Moves p (.deliver x now) p') :
    nb.SideLinked x now (p'.st x) ∧ p'.st x.other = p.st x.other := by
  obtain ⟨_, fuel, h⟩ := h
  simp only [perform, Option.bind_eq_bind, Option.bind_eq_some_iff] at h
  obtain ⟨bytes, hbytes, h⟩ := h
  split at h
  · rename_i st hround
    cases h
    obtain ⟨hl, _⟩ := (hm.deliver hd hbytes now).2 fuel st hround
    exact ⟨by simpa [Pair.put] using hl, by simp [Pair.put, x.other_ne]⟩
  · cases h
  · cases h

/-- A side that is linked floods, and the other one hears it. -/
theorem Meeting.rejoin (hm : nb.Meeting p) (hd : nb.Distinguished) {x : Side} {time : U64}
    (hl : nb.SideLinked x time (p.st x)) :
    ∃ tr' p', Run p nb.Moves tr' p' ∧ nb.BothLinked p' := by
  have hne := x.other_ne
  obtain ⟨a, hs⟩ := hl
  obtain ⟨bytes, _, heq⟩ := sendPackets_settled hs 0
  obtain ⟨st, hst⟩ : ∃ st, sendPackets (nb.env x) 2 (p.st x) = some st := ⟨_, heq⟩
  have hs' : nb.SideLinked x time st := ⟨a, (sendPackets_some hs (by simp) (nb.fd x) hst).1⟩
  have hgrows : (sentOn (nb.fd x) st).length = (sentOn (nb.fd x) (p.st x)).length + 1 := by
    rw [heq] at hst
    cases hst
    simp [sentOn, sends, peerEntry]
  let p₁ := p.put x st (p.handled x) (p.heard x)
  have hsend : nb.Moves p (.send x) p₁ := ⟨trivial, 2, by simp only [perform, hst]; rfl⟩
  have hm₁ : nb.Meeting p₁ := Moves.meeting hd hm hsend
  have hpending : nb.Pending p₁ (.deliver x.other 0) := by
    have hle : p.handled x.other ≤ (sentOn (nb.fd x) (p.st x)).length := by
      simpa [sentTo] using hm.counted x.other
    simpa [Pending, p₁, Pair.put, sentTo, hne, hgrows] using Nat.lt_succ_of_le hle
  obtain ⟨p₂, hdeliver⟩ :=
    hm₁.moves hd (show Clocked (.deliver x.other 0) from Nat.zero_le _) hpending
  obtain ⟨hl₂, hsame⟩ := hdeliver.delivered hd hm₁
  refine ⟨_, p₂, .snoc (.snoc .start hsend) hdeliver, fun y => ?_⟩
  rcases x.eq_or_eq_other y with rfl | rfl
  · refine ⟨time, ?_⟩
    rw [Side.other_other] at hsame
    rw [hsame]
    simpa [p₁, Pair.put] using hs'
  · exact ⟨0, hl₂⟩

theorem Meeting.recovers (hm : nb.Meeting p) (hd : nb.Distinguished) (halive : ¬ nb.Dead p) :
    ∃ tr' p', Run p nb.Moves tr' p' ∧ nb.BothLinked p' := by
  obtain ⟨x, hx⟩ := not_forall.mp halive
  by_cases hb : Blank (p.st x)
  · -- what is on its way links the side, which then floods
    have hpending : nb.Pending p (.deliver x 0) := Nat.lt_of_not_le fun hle => hx ⟨hb, hle⟩
    obtain ⟨p₁, hdeliver⟩ := hm.moves hd (show Clocked (.deliver x 0) from Nat.zero_le _) hpending
    obtain ⟨hl, _⟩ := hdeliver.delivered hd hm
    obtain ⟨tr', p', hr', hboth⟩ := (hdeliver.meeting hd hm).rejoin hd hl
    exact ⟨_, p', Run.append (.snoc .start hdeliver) hr', hboth⟩
  · obtain ⟨time, _, hl⟩ := (hm.side x).resolve_left hb
    exact hm.rejoin hd hl

/-! ## Runs -/

section Runs

variable {hello : Buf} {helloTime : U64} {remoteIp : U32} {remotePort : U16} {macaddr : Mac}
variable {tr : List (Step Pair PairOp)}

theorem Run.meeting (hd : nb.Distinguished)
    (hhello : connecttohost (nb.env .client) helloTime remoteIp remotePort macaddr = some hello)
    (hr : Run (nb.meet hello) nb.Moves tr p) : nb.Meeting p :=
  (Run.invariant (P := nb.Meeting) (meet_meeting (connecttohost_greeting hhello))
    (fun _ _ _ hm hs => Moves.meeting hd hm hs) hr).1

/-- In every order of steps each side knows nothing or exactly its link to the other one, and no
packet, flood or sweep ever hangs. -/
theorem pairing_safe (hd : nb.Distinguished)
    (hhello : connecttohost (nb.env .client) helloTime remoteIp remotePort macaddr = some hello)
    (hr : Run (nb.meet hello) nb.Moves tr p) :
    (∀ x, Blank (p.st x) ∨ ∃ time, nb.SideLinked x time (p.st x)) ∧
      ∀ op, Clocked op → nb.Pending p op → ∃ p', nb.Moves p op p' := by
  have hm := Run.meeting hd hhello hr
  refine ⟨fun x => (hm.side x).imp id fun h => ?_, fun op hclock hpending => hm.moves hd hclock hpending⟩
  obtain ⟨time, _, hl⟩ := h
  exact ⟨time, hl⟩

/-- While one side is linked or a packet is on its way, the two can find each other. Once neither is
so they never do, since only `connecttohost` speaks first, and it ran once. -/
theorem pairing_recovers_iff (hd : nb.Distinguished)
    (hhello : connecttohost (nb.env .client) helloTime remoteIp remotePort macaddr = some hello)
    (hr : Run (nb.meet hello) nb.Moves tr p) :
    (∃ tr' p', Run p nb.Moves tr' p' ∧ nb.BothLinked p') ↔ ¬ nb.Dead p := by
  constructor
  · intro h hdead
    obtain ⟨tr', p', hr', hboth⟩ := h
    obtain ⟨hdead', _⟩ := Run.invariant (P := nb.Dead) hdead (fun _ _ _ hd hs => hd.moves hs) hr'
    exact hdead'.not_bothLinked hboth
  · intro halive
    exact (Run.meeting hd hhello hr).recovers hd halive

end Runs

end Neighbours

/-- The bytes of `connecttohost` of `host 2`. -/
def twoHostsHello : Buf :=
  (connecttohost (hostEnv 2) 0 (host 1).ip (host 1).portno Mac.zero).getD []

theorem twoHostsHello_eq :
    connecttohost (twoHosts.env .client) 0 (host 1).ip (host 1).portno Mac.zero = some twoHostsHello := by
  decide +kernel

theorem twoHosts_distinguished : twoHosts.Distinguished where
  peer := twoHosts_keys
  named x := by cases x <;> decide

/-- The operations from start-up on, when all of them are performed. -/
theorem twoHosts_run {ops : List PairOp} {tr : List (Step Pair PairOp)} {p : Pair}
    (h : replay (fun p op => if Neighbours.Clocked op then twoHosts.perform 3 p op else none) ops []
      (twoHosts.meet twoHostsHello) = some (tr, p)) :
    Run (twoHosts.meet twoHostsHello) twoHosts.Moves tr p := by
  refine Run.replay ?_ ops .start h
  intro p op p' h
  split at h
  · rename_i hclock
    exact ⟨hclock, 3, h⟩
  · cases h

/-- The server learns of the client and floods, the client hears it. Then the server forgets. -/
theorem two_hosts_pair : ∃ tr p, Run (twoHosts.meet twoHostsHello) twoHosts.Moves tr p ∧
    (p.st .client).memList.size = 1 ∧ (p.st .server).memList.size = 0 ∧
    ∀ x, Blank (p.st x) ∨ ∃ time, twoHosts.SideLinked x time (p.st x) := by
  obtain ⟨⟨tr, p⟩, hreplay, hclient, hserver⟩ : ∃ r ∈ replay
      (fun p op => if Neighbours.Clocked op then twoHosts.perform 3 p op else none)
      [.deliver .server 9, .send .server, .deliver .client 12, .sweep .server 40000 15] []
      (twoHosts.meet twoHostsHello),
      (r.2.st .client).memList.size = 1 ∧ (r.2.st .server).memList.size = 0 := by
    decide +kernel
  have hr := twoHosts_run hreplay
  exact ⟨tr, p, hr, hclient, hserver,
    (Neighbours.pairing_safe twoHosts_distinguished twoHostsHello_eq hr).1⟩

/-- The server forgets the client before it floods: the two never meet. -/
theorem two_hosts_part : ∃ tr p, Run (twoHosts.meet twoHostsHello) twoHosts.Moves tr p ∧
    tr.length = 2 ∧ ¬ ∃ tr' p', Run p twoHosts.Moves tr' p' ∧ twoHosts.BothLinked p' := by
  obtain ⟨⟨tr, p⟩, hreplay, hlen, hdead⟩ : ∃ r ∈ replay
      (fun p op => if Neighbours.Clocked op then twoHosts.perform 3 p op else none)
      [.deliver .server 9, .sweep .server 40000 15] [] (twoHosts.meet twoHostsHello),
      r.1.length = 2 ∧ ∀ x ∈ [Side.client, .server],
        ((r.2.st x).memList.head = none ∧ (r.2.st x).memList.size = 0 ∧ (r.2.st x).socketfds = []) ∧
          (twoHosts.sentTo r.2 x).length ≤ r.2.handled x := by
    decide +kernel
  have hr := twoHosts_run hreplay
  refine ⟨tr, p, hr, hlen, fun h => ?_⟩
  refine (Neighbours.pairing_recovers_iff twoHosts_distinguished twoHostsHello_eq hr).mp h fun x => ?_
  obtain ⟨⟨hhead, hsize, hroutes⟩, hle⟩ := hdead x (by cases x <;> simp)
  exact ⟨⟨memList_eq hhead hsize, hroutes⟩, hle⟩

end Cs352Proxy
