import Cs352Proxy.Decoder
import Cs352Proxy.Pairing

/-!
# Telling

A proxy among many. It floods its own links, however many there are, and handles what others say
about theirs. A packet with several links is decoded to at least these; the decoder leaves the last
node's link unset and may find further nodes in what was on the sender's stack, but the walk over
the list never gets there.

* `Tells`: a chunk that says what links its sender has.
* `Surrounded`: the links of a proxy are its own, and so are the entries of its table, each with the
  socket of the peer.
* `sendPackets_tells`, `tcpHandle_surrounded`: a flood tells, and what a proxy is told keeps it
  surrounded.
* `tcpHandle_returns_iff`: of a sender that it knows a proxy handles just the packets with one link.
-/

namespace Cs352Proxy

open Base

/-- A chunk in which a proxy says that it has the links `links`. The length in its header may be
that of more links, but not if there is one, and the receive buffer has room for them. -/
structure Tells (env : Env) (links : List Link) (bytes : Buf) : Prop where
  ne : links ≠ []
  own : ∀ l ∈ links, l.localInfo = env.myProxyInfo
  holds : ∃ head tail, head.type = pktLinkstate ∧ links.length ≤ (head.length.toNat - 14) / 36 ∧
    (links.length = 1 → (head.length.toNat - 14) / 36 = 1) ∧
    18 + 36 * ((head.length.toNat - 14) / 36) ≤ maxPktLen ∧
    bytes = wireBytes head (BitVec.ofNat 16 links.length) env.myProxyInfo links ++ tail

theorem Tells.reseed {env : Env} {links : List Link} {bytes : Buf} {uninit : Uninit}
    (h : Tells { env with uninit } links bytes) : Tells env links bytes :=
  ⟨h.ne, h.own, h.holds⟩

/-- The packets of `connecttohost` and of the reply. -/
theorem tells_one {env : Env} {l : Link} (hl : l.localInfo = env.myProxyInfo) :
    Tells env [l] (wireBytes { type := pktLinkstate, length := 50 } 1 env.myProxyInfo [l]) := by
  let head : PktHeader := { type := pktLinkstate, length := 50 }
  have hcount : (head.length.toNat - 14) / 36 = 1 := by simp [head]
  refine ⟨by simp, by simpa using hl, head, [], rfl, by simp [hcount], fun _ => hcount, ?_,
    (List.append_nil _).symm⟩
  rw [hcount]
  decide

/-! ## What is decoded -/

/-- The first nodes of a decoded list, whatever follows them. -/
structure DecodedNodes (st : Proxy) (links : List Link) (heap : List LinkstateNode) (new : Cells) :
    Prop where
  seg : ∃ q, Seg LinkstateNode.next heap (some st.heap.length) new q
  links : new.links = links
  fresh : ∀ x ∈ new, st.heap.length ≤ x.1
  same : ∀ a < st.heap.length, heap[a]? = st.heap[a]?

theorem links_cellsAt (base : Addr) (ns : List LinkstateNode) :
    Cells.links (cellsAt base ns) = ns.map (·.toLink) := by
  induction ns generalizing base with
  | nil => rfl
  | cons n ns ih => rw [cellsAt, Cells.links_cons, ih, List.map_cons]

section Decode

variable {env envP : Env} {fuel : Nat} {now : U64} {fd : Int} {st st' : Proxy} {links : List Link}
  {bytes : Buf}

theorem ntohLinkstate_nodes {head : PktHeader} {nn : U16} {source : ProxyInfo} {tail : Buf}
    {r : LinkstatePkt × List LinkstateNode} (hne : links ≠ [])
    (hlen : links.length ≤ (head.length.toNat - 14) / 36)
    (h : ntohLinkstate env.endian env.uninit st.heap (wireBytes head nn source links ++ tail) =
      some r) :
    r.1 = { head, numNeighbors := nn, source, list := some st.heap.length } ∧
      ∃ new, DecodedNodes st links r.2 new := by
  have hlength := readU16_wireBytes env.endian head nn source links tail
  have hfit := ntohLinkstate_some hlength h
  rw [List.length_append, length_wireBytes] at hfit
  -- the nodes behind the links of the packet are read from the tail
  let n := (head.length.toNat - 14) / 36 - links.length
  have hroom : (tail.take (36 * n)).length = 36 * n := by
    rw [List.length_take]
    omega
  obtain ⟨extra, hextra, hbytes⟩ := exists_linksBytes n hroom
  have hall : links ++ extra ≠ [] := by simp [hne]
  have hcount : (head.length.toNat - 14) / 36 = (links ++ extra).length := by
    rw [List.length_append]; omega
  let rest := tail.drop (36 * n)
  have hsplit : wireBytes head nn source links ++ tail =
      wireBytes head nn source (links ++ extra) ++ rest := by
    rw [wireBytes, wireBytes, List.flatMap_append, hbytes]
    simp only [List.append_assoc, rest, List.take_append_drop]
  rw [hsplit, ntohLinkstate_eq env.endian env.uninit st.heap head nn source hall hcount] at h
  cases h
  let q := lastNext env.uninit st.heap.length (links ++ extra).length
  let cells : Cells := cellsAt st.heap.length (linkNodes st.heap.length (links ++ extra) q)
  have hseg : Seg LinkstateNode.next (st.heap ++ linkNodes st.heap.length (links ++ extra) q)
      (some st.heap.length) cells q := seg_linkNodes st.heap hall q
  refine ⟨rfl, cells.take links.length, ?_⟩
  rw [← List.take_append_drop links.length cells] at hseg
  obtain ⟨m, hfirst, _⟩ := seg_append.mp hseg
  refine ⟨⟨m, hfirst⟩, ?_, fun x hx => ?_, fun a ha => List.getElem?_append_left ha⟩
  · have hlinks : cells.links = links ++ extra := by
      rw [links_cellsAt, map_toLink_linkNodes]
    have htake := congrArg (List.take links.length) hlinks
    rw [List.take_left] at htake
    rw [Cells.links, List.map_take]
    exact htake
  · exact le_of_mem_cellsAt x (List.mem_of_mem_take hx)

/-- The packet that the handler gets, if the round gets through. -/
def told (envP : Env) (head : PktHeader) (links : List Link) (st : Proxy) : LinkstatePkt :=
  { head, numNeighbors := BitVec.ofNat 16 links.length, source := envP.myProxyInfo
    list := some st.heap.length }

theorem Tells.type (h : Tells envP links bytes) (e : Endian) :
    readU16 e (recvBuf bytes) 0 = some pktLinkstate := by
  obtain ⟨head, tail, htype, _, _, _, rfl⟩ := h.holds
  have hread := readU16_eq e head.type 0 [] (beBytes 2 head.length.toNat ++
    (beBytes 2 (BitVec.ofNat 16 links.length).toNat ++ proxyBytes envP.myProxyInfo ++
      links.flatMap linkBytes ++ tail ++ List.replicate (maxPktLen - (wireBytes head
        (BitVec.ofNat 16 links.length) envP.myProxyInfo links ++ tail).length) 0)) rfl
  rw [htype] at hread
  simpa [recvBuf, wireBytes, prefixBytes, headerBytes, htype] using hread

theorem Tells.count (h : Tells envP links bytes) (e : Endian) :
    readU16 e (recvBuf bytes) 4 = some (BitVec.ofNat 16 links.length) := by
  obtain ⟨head, tail, _, _, _, _, rfl⟩ := h.holds
  have hread := readU16_eq e (BitVec.ofNat 16 links.length) 4 (headerBytes head)
    (proxyBytes envP.myProxyInfo ++ links.flatMap linkBytes ++ tail ++
      List.replicate (maxPktLen - (wireBytes head (BitVec.ofNat 16 links.length) envP.myProxyInfo
        links ++ tail).length) 0) (by simp [headerBytes])
  simpa [recvBuf, wireBytes, prefixBytes] using hread

theorem Tells.tcpHandle_next (h : Tells envP links bytes)
    (hnext : tcpHandle env fuel now fd bytes st = .next st') :
    ∃ head heap new, DecodedNodes st links heap new ∧
      ntohLinkstate env.endian env.uninit st.heap (recvBuf bytes) =
        some (told envP head links st, heap) ∧
      handleLinkstate env fuel now fd (told envP head links st) { st with heap } = some st' := by
  rcases Cs352Proxy.tcpHandle_next hnext with ⟨htype, _⟩ | ⟨_, pkt, heap, hdecode, hhandle⟩
  · exact absurd (h.type env.endian) htype
  · obtain ⟨head, tail, _, hlen, _, _, rfl⟩ := h.holds
    have hdecode' := hdecode
    rw [recvBuf, List.append_assoc] at hdecode'
    obtain ⟨hpkt, new, hnew⟩ := ntohLinkstate_nodes h.ne hlen hdecode'
    change pkt = _ at hpkt
    subst hpkt
    exact ⟨head, heap, new, hnew, hdecode, hhandle⟩

end Decode

/-! ## A walk that stores nothing -/

/-- A walk over a list that begins with the nodes `new` only comes to an end if these can be merged. -/
theorem addMembersLoop_merges {env : Env} {fuel : Nat} {now : U64} {gw : Int} {q : Ptr} {new : Cells} :
    ∀ {n : Nat} {p : Ptr} {st st' : Proxy} {t : Topology} {cells : Cells},
      addMembersLoop env fuel now gw n p st = some st' → Shows st t cells →
      Seg LinkstateNode.next st.heap p new q → (∀ x ∈ new, x.1 ∉ cells.map Prod.fst) →
      t.MergesInto env now gw new.links := by
  induction new with
  | nil =>
    intro n p st st' t cells _ _ _ _ pre r post hsplit
    cases pre <;> cases hsplit
  | cons x new ih =>
    intro n p st st' t cells h hs hnew hoff
    cases n with
    | zero => cases h
    | succ n =>
      rw [hnew.1] at h
      obtain ⟨p₁, st₁, hstep, h⟩ := addMembersLoop_some h
      rw [Cells.links_cons]
      rcases addMembersStep_refines hs hnew hoff hstep with
        ⟨hst, cells', _, hs₁, hrest, hoff'⟩ | ⟨hst, _, hcells, x', hs₁⟩
      · exact (Topology.mergesInto_cons_of_not hst).mpr
          ((Topology.mergesInto_keep x.2.toLink).mp (ih h hs₁ hrest hoff'))
      · have hs₂ : Shows st₁ (t.store now gw x.2.toLink) ([x'] ++ cells) := hs₁
        obtain ⟨t', _, hwalk, _⟩ := rewalk_refines n h hs₂ hcells
        rw [hs.links] at hwalk
        exact (Topology.mergesInto_cons_of_stores hst).mpr
          (Topology.rewalk_isSome_iff.mp ⟨t', hwalk⟩)

/-! ## A proxy and its peers -/

namespace Topology

variable {env : Env} {peer : ProxyInfo → Int → Prop} {now : U64} {fd : Int} {t t' : Topology}

/-- The proxy's own links, with an entry for each that leads through the socket of the peer. -/
structure Surrounded (env : Env) (peer : ProxyInfo → Int → Prop) (t : Topology) : Prop
    extends Alone env t where
  counted : t.Counted
  entries : ∀ e ∈ t.routes, ∃ l ∈ t.links, e.macaddr = l.remoteInfo.macaddr ∧
    peer l.remoteInfo e.sockFd

theorem surrounded_start (env : Env) (peer : ProxyInfo → Int → Prop) : Surrounded env peer start :=
  ⟨alone_start env, rfl, by simp [start]⟩

/-- What `malloc` returned and the stack held does not matter. -/
theorem Surrounded.reseed (h : Surrounded env peer t) (uninit : Uninit) :
    Surrounded { env with uninit } peer t :=
  ⟨⟨h.own, h.away, h.routed, h.keys, h.table, h.self, h.zero⟩, h.counted, h.entries⟩

theorem Surrounded.peered (h : Surrounded env peer t) {l : Link} (hl : l ∈ t.links) :
    ∃ e, t.route l.remoteInfo.macaddr = some e ∧ peer l.remoteInfo e.sockFd := by
  obtain ⟨e, hroute⟩ := Option.isSome_iff_exists.mp (h.routed l hl)
  obtain ⟨hmem, hkey⟩ := lookup_some hroute
  obtain ⟨l', hl', hmac, hpeer⟩ := h.entries e hmem
  have hsame : l'.remoteInfo.macaddr.key = l.remoteInfo.macaddr.key := by
    rw [← hmac]
    exact hkey
  have heq : l' = l := List.inj_on_of_nodup_map h.keys hl' hl hsame
  subst heq
  exact ⟨e, hroute, hpeer⟩

theorem Surrounded.ne_nil (h : Surrounded env peer t) {mac : Mac} {e : ProxySocketfd}
    (hroute : t.route mac = some e) : t.links ≠ [] := by
  obtain ⟨l, hl, _⟩ := h.entries e (lookup_some hroute).1
  exact List.ne_nil_of_mem hl

theorem keep_surrounded (h : Surrounded env peer t) (now : U64) (r : Link) :
    Surrounded env peer (t.keep now r) := by
  refine ⟨keep_alone h.toAlone now r, ?_, fun e he => ?_⟩
  · rw [Counted, keep_size, length_keep]
    exact h.counted
  · rw [keep_routes] at he
    obtain ⟨l, hl, hmac, hpeer⟩ := h.entries e he
    obtain ⟨l', hl', hface⟩ := exists_keep_of_mem now r hl
    have hremote : l'.remoteInfo = l.remoteInfo := (Prod.mk.inj (Prod.mk.inj hface).2).1
    exact ⟨l', hl', by rw [hmac, hremote], by rw [hremote]; exact hpeer⟩

/-- Only times change while a list is merged. -/
theorem Surrounded.merge (h : Surrounded env peer t) (hne : t.links ≠ []) {ls : List Link}
    (hback : ∀ r ∈ ls, r.remoteInfo.ip = env.myProxyInfo.ip →
      r.remoteInfo.macaddr = env.myProxyInfo.macaddr ∨ r.remoteInfo.macaddr = Mac.zero)
    (hmerge : t.merge env now fd ls = some t') : Surrounded env peer t' ∧ t'.routes = t.routes := by
  have hnone := (h.toAlone.merge_iff hne now fd hback).mp ⟨t', hmerge⟩
  let P (s : Topology) : Prop :=
    (Surrounded env peer s ∧ s.routes = t.routes) ∧ ∀ r ∈ ls, s.stores env r = false
  have hP : P t' := by
    refine merge_induction (P := P) ?_ ?_ ⟨⟨h, rfl⟩, hnone⟩ hmerge
    · intro s q hs
      exact ⟨⟨keep_surrounded hs.1.1 now q, by rw [keep_routes, hs.1.2]⟩,
        fun r hr => by rw [keep_stores]; exact hs.2 r hr⟩
    · intro s r hr hstores hs
      rw [hs.2 r hr] at hstores
      cases hstores
  exact hP.1

theorem Surrounded.client (h : Surrounded env peer t) {source : ProxyInfo}
    (hroute : t.route source.macaddr = none)
    (hkey : source.macaddr.key ≠ env.myProxyInfo.macaddr.key)
    (hnamed : source.macaddr.key ≠ Mac.zero.key) (hip : source.ip ≠ env.myProxyInfo.ip)
    (hpeer : peer source fd) (now : U64) :
    Surrounded env peer
      { links := Topology.client env source now :: t.links, size := t.size + 1
        routes := { macaddr := source.macaddr, sockFd := fd } :: t.routes } := by
  have hcounted : t.size = t.links.length := h.counted
  refine ⟨h.toAlone.client (List.Sublist.refl _) hroute hkey hnamed hip now fd (t.size + 1), ?_, ?_⟩
  · simp [Counted, hcounted]
  · refine List.forall_mem_cons.mpr ⟨⟨_, List.mem_cons_self, rfl, hpeer⟩, fun e he => ?_⟩
    obtain ⟨l, hl, hmac, hp⟩ := h.entries e he
    exact ⟨l, List.mem_cons_of_mem _ hl, hmac, hp⟩

theorem expire_surrounded (h : Surrounded env peer t) (time timeout : Int) :
    Surrounded env peer (t.expire time timeout) := by
  refine ⟨expire_alone h.toAlone time timeout, expire_counted time timeout h.counted, fun e he => ?_⟩
  have hmem := (expire_routes time timeout t).subset he
  obtain ⟨l, hl, hmac, hpeer⟩ := h.entries e hmem
  refine ⟨l, ?_, hmac, hpeer⟩
  -- the entry is still there, so no link to its address has expired
  have hleft : ∀ x ∈ t.links, Expired time timeout x →
      x.remoteInfo.macaddr ≠ l.remoteInfo.macaddr := by
    intro x hx hexp heq
    have hroute : (t.expire time timeout).route e.macaddr = none := by
      rw [expire_route time timeout h.table]
      exact if_pos ⟨x, hx, hexp, by rw [heq, hmac]⟩
    exact lookup_none.mp hroute (List.mem_map_of_mem (f := ProxySocketfd.key) he)
  have hnone : expiredOnTo time timeout l.remoteInfo.macaddr t.links = 0 := by
    rw [expiredOnTo, List.countP_eq_zero]
    intro x hx hexp
    obtain ⟨hxt, hxm⟩ := List.mem_filter.mp hx
    exact hleft x hxt (of_decide_eq_true hexp) (of_decide_eq_true hxm)
  have honto := expire_onTo time timeout l.remoteInfo.macaddr t
  rw [hnone, List.drop_zero] at honto
  have hmem' : l ∈ onTo l.remoteInfo.macaddr (t.expire time timeout).links := by
    rw [honto]
    exact List.mem_filter.mpr ⟨hl, by simp⟩
  exact (List.mem_filter.mp hmem').1

end Topology

/-! ## What a proxy is told -/

/-- Links that another proxy has to different peers, this one among them. -/
structure Truthful (env : Env) (links : List Link) : Prop where
  back : ∀ l ∈ links, l.remoteInfo.ip = env.myProxyInfo.ip → l.remoteInfo = env.myProxyInfo
  named : ∀ l ∈ links, l.remoteInfo.macaddr ≠ Mac.zero
  here : ∃ l ∈ links, l.remoteInfo = env.myProxyInfo
  keys : (links.map fun l => l.remoteInfo.macaddr.key).Nodup

/-- Two proxies that cannot be taken for one. -/
structure Apart (env envP : Env) : Prop where
  key : envP.myProxyInfo.macaddr.key ≠ env.myProxyInfo.macaddr.key
  named : envP.myProxyInfo.macaddr.key ≠ Mac.zero.key
  ip : envP.myProxyInfo.ip ≠ env.myProxyInfo.ip

section Told

variable {env envP : Env} {peer : ProxyInfo → Int → Prop} {fuel : Nat} {now : U64} {fd : Int}
  {st st' : Proxy} {t : Topology} {cells : Cells} {links : List Link} {bytes : Buf}

theorem Truthful.mac (h : Truthful env links) : ∀ l ∈ links,
    l.remoteInfo.ip = env.myProxyInfo.ip →
      l.remoteInfo.macaddr = env.myProxyInfo.macaddr ∨ l.remoteInfo.macaddr = Mac.zero :=
  fun l hl hip => .inl (congrArg ProxyInfo.macaddr (h.back l hl hip))

/-- Of what it is told, only the link back is not stored. -/
theorem Truthful.stores_eq_false (h : Truthful env links) (ht : t.Surrounded env peer) {l : Link}
    (hl : l ∈ links) : t.stores env l = false ↔ l.remoteInfo.macaddr = env.myProxyInfo.macaddr := by
  unfold Topology.stores
  cases hroute : t.route l.remoteInfo.macaddr with
  | none => simp [h.named l hl]
  | some e =>
    have hne : l.remoteInfo.macaddr ≠ env.myProxyInfo.macaddr := by
      intro heq
      rw [heq, ht.self] at hroute
      cases hroute
    have hno : t.links.any (Topology.reverses l) = false := by
      rw [List.any_eq_false]
      intro x hx hrev
      obtain ⟨hip, _⟩ := of_decide_eq_true hrev
      rw [ht.own x hx] at hip
      exact hne (congrArg ProxyInfo.macaddr (h.back l hl hip.symm))
    simp [hno, hne]

theorem Truthful.stores_nothing_iff (h : Truthful env links) (ht : t.Surrounded env peer) :
    (∀ l ∈ links, t.stores env l = false) ↔ links.length = 1 := by
  obtain ⟨b, hb, hback⟩ := h.here
  constructor
  · intro hnone
    have hsame : ∀ l ∈ links, l = b := by
      intro l hl
      refine List.inj_on_of_nodup_map h.keys hl hb ?_
      rw [hback, (h.stores_eq_false ht hl).mp (hnone l hl)]
    have hrep := List.eq_replicate_of_mem hsame
    have hnd := h.keys.of_map
    rw [hrep, List.nodup_replicate] at hnd
    have hpos := List.length_pos_of_mem hb
    omega
  · intro hlen l hl
    obtain ⟨x, rfl⟩ := List.length_eq_one_iff.mp hlen
    rw [List.mem_singleton] at hl hb
    rw [h.stores_eq_false ht (by simp [hl]), hl, ← hb, hback]

theorem DecodedNodes.shows {heap : List LinkstateNode} {new : Cells}
    (h : DecodedNodes st links heap new) (hs : Shows st t cells) :
    Shows { st with heap } t cells := by
  refine ⟨hs.list.frame fun x hx => ?_, hs.links, hs.size, hs.routes⟩
  rw [show ({ st with heap } : Proxy).heap = heap from rfl, h.same _ (hs.list.lt_length x hx)]
  exact hs.list.get x hx

theorem DecodedNodes.first {heap : List LinkstateNode} {new : Cells} {l : Link} {ls : List Link}
    (h : DecodedNodes st (l :: ls) heap new) :
    ∃ node, heap[st.heap.length]? = some node ∧ node.toLink = l := by
  obtain ⟨q, hseg⟩ := h.seg
  cases new with
  | nil => cases h.links
  | cons x new =>
    obtain ⟨haddr, hget, _⟩ := hseg
    rw [← Option.some.inj haddr] at hget
    exact ⟨x.2, hget, (List.cons.inj h.links).1⟩

/-- The walk over a list of links that are told only comes to an end if nothing is stored. -/
theorem Tells.stores_nothing (htells : Tells envP links bytes) (htrue : Truthful env links)
    (hs : Shows st t cells) (ht : t.Surrounded env peer) {e : ProxySocketfd}
    (hroute : t.route envP.myProxyInfo.macaddr = some e)
    (h : tcpHandle env fuel now fd bytes st = .next st') : ∀ l ∈ links, t.stores env l = false := by
  obtain ⟨head, heap, new, hnew, _, hhandle⟩ := htells.tcpHandle_next h
  have hknown : ({ st with heap } : Proxy).findSocketfd (told envP head links st).source.macaddr =
      some e := (hs.route _).symm.trans hroute
  obtain ⟨_, _, _, _, hcases⟩ := handleLinkstate_cases hhandle
  rw [hknown] at hcases
  rcases hcases with ⟨_, _, hwalk⟩ | ⟨hno, _⟩ | ⟨hno, _⟩ | ⟨hno, _⟩
  · obtain ⟨q, hseg⟩ := hnew.seg
    have hoff : ∀ x ∈ new, x.1 ∉ cells.map Prod.fst := by
      intro x hx hmem
      obtain ⟨y, hy, hyx⟩ := List.mem_map.mp hmem
      have hlt := hs.list.lt_length y hy
      have hle := hnew.fresh x hx
      rw [hyx] at hlt
      exact Nat.not_le_of_lt hlt hle
    have hmerges := addMembersLoop_merges hwalk (hnew.shows hs) hseg hoff
    rw [hnew.links] at hmerges
    exact (ht.toAlone.merge_iff (ht.ne_nil hroute) now fd htrue.mac).mp
      (Topology.merge_isSome_iff.mpr hmerges)
  all_goals cases hno

/-! ## One link -/

theorem Tells.greets {l : Link} (h : Tells envP [l] bytes) :
    ∃ m, Greets envP m ∧ Holding m bytes ∧ m.first = l := by
  obtain ⟨head, tail, htype, _, hone, _, hbytes⟩ := h.holds
  exact ⟨{ head, numNeighbors := 1, source := envP.myProxyInfo, first := l, rest := [] },
    ⟨htype, hone rfl, rfl, rfl, h.own l (by simp), rfl⟩, ⟨tail, hbytes⟩, rfl⟩

theorem Tells.connectsWith {l : Link} (h : Tells envP [l] bytes)
    (hroute : st.findSocketfd envP.myProxyInfo.macaddr = none)
    (hzero : l.remoteInfo.macaddr ≠ Mac.zero) : ConnectsWith env bytes st := by
  obtain ⟨m, hm, ⟨tail, hbytes⟩, rfl⟩ := h.greets
  have hlen : m.links.length = 1 := by rw [Received.links, hm.rest]; rfl
  refine ⟨h.type _, (m.pkt st.heap.length, (st.alloc m.links).heap), ?_, ?_⟩
  · rw [recvBuf, hbytes, List.append_assoc]
    exact ntohLinkstate_alloc env.endian env.uninit st m (by rw [hm.length, hlen]) (by rw [hlen]; rfl) _
  · obtain ⟨node, hnode, hremote⟩ := alloc_first m st
    rw [← hm.source] at hroute
    exact ⟨_, rfl, node, hnode, hroute, by rw [hremote]; exact hzero, hm.count⟩

/-- The table after a packet. -/
def Topology.Reaches (t t' : Topology) (peer : ProxyInfo) : Prop :=
  ∀ mac : Mac, mac.key ≠ peer.macaddr.key → t.route mac = none → t'.route mac = none

theorem Topology.Surrounded.receive {m : Received} (ht : t.Surrounded env peer) {t' : Topology}
    (hm : Greets envP m) (hapart : Apart env envP) (hpeer : peer envP.myProxyInfo fd)
    (hknown : t.route envP.myProxyInfo.macaddr ≠ none → Truthful env [m.first])
    (hempty : t.route envP.myProxyInfo.macaddr = none → m.first.remoteInfo.macaddr ≠ Mac.zero →
      t.links = [])
    (h : t.receive env now fd m.numNeighbors m.source m.first m.rest = some t') :
    t'.Surrounded env peer ∧ t.Reaches t' envP.myProxyInfo := by
  have hentry : ∀ ls n, Topology.Reaches t
      { links := ls, size := n
        routes := { macaddr := envP.myProxyInfo.macaddr, sockFd := fd } :: t.routes }
      envP.myProxyInfo :=
    fun _ _ mac hne hnone => (lookup_cons.trans (if_neg fun hkey => hne hkey.symm)).trans hnone
  simp only [Topology.receive, hm.source, hm.rest, hm.count] at h
  cases hroute : t.route envP.myProxyInfo.macaddr with
  | some e =>
    rw [hroute] at h
    have htrue := hknown (by rw [hroute]; simp)
    obtain ⟨ht', hroutes⟩ := ht.merge (ht.ne_nil hroute) htrue.mac h
    exact ⟨ht', fun mac _ hnone => by rw [Topology.route, hroutes]; exact hnone⟩
  | none =>
    rw [hroute] at h
    simp only at h
    by_cases hzero : m.first.remoteInfo.macaddr = Mac.zero
    · rw [if_pos hzero] at h
      have hclient := ht.client hroute hapart.key hapart.named hapart.ip hpeer now
      obtain ⟨ht', hroutes⟩ := hclient.merge (by simp) (by simp [hzero]) h
      refine ⟨ht', fun mac hne hnone => ?_⟩
      rw [Topology.route, hroutes]
      exact hentry [] 0 mac hne hnone
    · rw [if_neg hzero, if_true] at h
      cases h
      have hclient := ht.client hroute hapart.key hapart.named hapart.ip hpeer now
      rw [hempty hroute hzero] at hclient
      rw [hm.localInfo]
      exact ⟨hclient, hentry _ _⟩

/-! ## A round -/

theorem Tells.length_le (h : Tells envP links bytes) : 18 + 36 * links.length ≤ maxPktLen := by
  obtain ⟨head, tail, _, hlen, _, hroom, _⟩ := h.holds
  omega

theorem Tells.count_ne_one (h : Tells envP links bytes) (hlen : links.length ≠ 1) :
    BitVec.ofNat 16 links.length ≠ 1 := by
  have hsmall := h.length_le
  intro hone
  have hnat := congrArg BitVec.toNat hone
  rw [BitVec.toNat_ofNat] at hnat
  simp [maxPktLen] at hsmall hnat
  omega

/-- The first decoded node, where the walk and the tests of the source begin. -/
theorem Tells.first_named (htells : Tells envP links bytes) (htrue : Truthful env links)
    {heap : List LinkstateNode} {new : Cells} (hnew : DecodedNodes st links heap new) :
    ∃ node, heap[st.heap.length]? = some node ∧ node.remoteInfo.macaddr ≠ Mac.zero := by
  cases links with
  | nil => exact absurd rfl htells.ne
  | cons l ls =>
    obtain ⟨node, hnode, hlink⟩ := hnew.first
    refine ⟨node, hnode, ?_⟩
    have hnamed := htrue.named l (by simp)
    rw [← hlink] at hnamed
    exact hnamed

/-- A proxy only gets through several links of one that it does not know. It ignores them. -/
theorem Tells.ignored (htells : Tells envP links bytes) (htrue : Truthful env links)
    (hlen : links.length ≠ 1) (hs : Shows st t cells) (ht : t.Surrounded env peer)
    (h : tcpHandle env fuel now fd bytes st = .next st') :
    t.route envP.myProxyInfo.macaddr = none ∧
      ∃ heap new, DecodedNodes st links heap new ∧ st' = { st with heap } := by
  cases hroute : t.route envP.myProxyInfo.macaddr with
  | some e =>
    exact absurd ((htrue.stores_nothing_iff ht).mp (htells.stores_nothing htrue hs ht hroute h)) hlen
  | none =>
    refine ⟨rfl, ?_⟩
    obtain ⟨head, heap, new, hnew, _, hhandle⟩ := htells.tcpHandle_next h
    obtain ⟨node', hnode', hnamed⟩ := htells.first_named htrue hnew
    obtain ⟨first, node, hfirst, hnode, hcases⟩ := handleLinkstate_cases hhandle
    cases hfirst
    rw [show ({ st with heap } : Proxy).heap = heap from rfl, hnode'] at hnode
    cases hnode
    rcases hcases with ⟨e, hknown, _⟩ | ⟨_, hzero, _⟩ | ⟨_, _, hnn, _⟩ | ⟨_, _, _, rfl⟩
    · have hsome := (hs.route _).trans hknown
      change t.route envP.myProxyInfo.macaddr = some e at hsome
      rw [hroute] at hsome
      cases hsome
    · exact absurd hzero hnamed
    · exact absurd hnn (htells.count_ne_one hlen)
    · exact ⟨heap, new, hnew, rfl⟩

/-- What a proxy can be told: what is true, or one link of a proxy that it does not know. -/
def Topology.Hears (env envP : Env) (links : List Link) (t : Topology) : Prop :=
  Truthful env links ∨ links.length = 1 ∧ t.route envP.myProxyInfo.macaddr = none

/-- A proxy stays surrounded by what it is told, and at most answers with its link to the sender. -/
theorem tcpHandle_surrounded (hs : Shows st t cells) (ht : t.Surrounded env peer)
    (hapart : Apart env envP) (hpeer : peer envP.myProxyInfo fd) (htells : Tells envP links bytes)
    (hhears : t.Hears env envP links) (hconnects : ConnectsWith env bytes st → st.memList.head = none)
    (h : tcpHandle env fuel now fd bytes st = .next st') :
    (∃ t' cells', Shows st' t' cells' ∧ t'.Surrounded env peer ∧ t.Reaches t' envP.myProxyInfo) ∧
      (sends st' = sends st ∨ ∃ b, sends st' = (fd, b) :: sends st ∧
        Tells env [Topology.client env envP.myProxyInfo now] b) := by
  by_cases hlen : links.length = 1
  · obtain ⟨l, rfl⟩ := List.length_eq_one_iff.mp hlen
    obtain ⟨m, hm, hholding, rfl⟩ := htells.greets
    have hempty : t.route envP.myProxyInfo.macaddr = none →
        m.first.remoteInfo.macaddr ≠ Mac.zero → st.memList.head = none :=
      fun hroute hzero => hconnects (htells.connectsWith ((hs.route _).symm.trans hroute) hzero)
    rw [tcpHandle_holding hm hholding] at h
    split at h
    · cases h
    · rename_i hhandle
      cases h
      obtain ⟨t', cells', hreceive, hs'⟩ := handlePacket_refines hs hhandle
      have hknown : t.route envP.myProxyInfo.macaddr ≠ none → Truthful env [m.first] :=
        fun hsome => hhears.resolve_right fun hno => hsome hno.2
      obtain ⟨ht', hreaches⟩ := ht.receive hm hapart hpeer hknown
        (fun hroute hzero => (head_eq_none_iff hs).mp (hempty hroute hzero)) hreceive
      refine ⟨⟨t', cells', hs', ht', hreaches⟩, ?_⟩
      rcases handlePacket_sends hm hhandle with hsame | ⟨hroute, hzero, hreply⟩
      · exact .inl hsame
      · have hnil := (head_eq_none_iff hs).mp (hempty ((hs.route _).trans hroute) hzero)
        have hsize : st.memList.size = 0 := by
          have hcounted : t.size = t.links.length := ht.counted
          rw [hs.size, hcounted, hnil]
          rfl
        rw [hsize] at hreply
        exact .inr ⟨_, hreply, tells_one rfl⟩
  · have htrue : Truthful env links := hhears.resolve_right fun hone => hlen hone.1
    obtain ⟨_, heap, new, hnew, rfl⟩ := htells.ignored htrue hlen hs ht h
    exact ⟨⟨t, cells, hnew.shows hs, ht, fun _ _ hnone => hnone⟩, .inl rfl⟩

theorem Topology.Surrounded.receives {m : Received} (ht : t.Surrounded env peer) (hm : Greets envP m)
    (hapart : Apart env envP)
    (hknown : t.route envP.myProxyInfo.macaddr ≠ none → Truthful env [m.first]) (now : U64) (fd : Int) :
    ∃ t', t.receive env now fd m.numNeighbors m.source m.first m.rest = some t' := by
  simp only [Topology.receive, hm.source, hm.rest, hm.count]
  cases hroute : t.route envP.myProxyInfo.macaddr with
  | some e =>
    have htrue := hknown (by rw [hroute]; simp)
    exact (ht.merge_iff (ht.ne_nil hroute) now fd htrue.mac).mpr ((htrue.stores_nothing_iff ht).mpr rfl)
  | none =>
    simp only
    by_cases hzero : m.first.remoteInfo.macaddr = Mac.zero
    · rw [if_pos hzero]
      have hclient := ht.toAlone.client (List.Sublist.refl _) hroute hapart.key hapart.named hapart.ip
        now fd (t.size + 1)
      refine (hclient.merge_iff (by simp) now fd (by simp [hzero])).mpr fun r hr => ?_
      rw [List.mem_singleton.mp hr, Topology.stores, hzero, hclient.zero]
      simp
    · rw [if_neg hzero, if_true]
      exact ⟨_, rfl⟩

/-- The receive buffer has room for all that the length in the header announces. -/
theorem Tells.decodes (h : Tells envP links bytes) (env : Env) (st : Proxy) :
    ∃ head heap new, DecodedNodes st links heap new ∧
      ntohLinkstate env.endian env.uninit st.heap (recvBuf bytes) =
        some (told envP head links st, heap) := by
  obtain ⟨head, tail, _, hlen, _, hroom, hbytes⟩ := h.holds
  have hlength : readU16 env.endian (recvBuf bytes) 2 = some head.length := by
    rw [recvBuf, hbytes, List.append_assoc]
    exact readU16_wireBytes _ _ _ _ _ _
  have hbuf : maxPktLen ≤ (recvBuf bytes).length := by
    rw [recvBuf, List.length_append, List.length_replicate]
    omega
  obtain ⟨pkt, ls, _, _, hread⟩ := ntohLinkstate_room env.endian env.uninit st.heap hlength
    (Nat.le_trans hroom hbuf)
  have hdecode := hread []
  rw [List.append_nil] at hdecode
  have hwire := hdecode
  rw [recvBuf, hbytes, List.append_assoc] at hwire
  obtain ⟨hpkt, new, hnew⟩ := ntohLinkstate_nodes h.ne hlen hwire
  change pkt = _ at hpkt
  subst hpkt
  exact ⟨head, _, new, hnew, hdecode⟩

/-- A round comes to its end exactly if the sender is not known or tells of one link. -/
theorem tcpHandle_returns_iff (hs : Shows st t cells) (ht : t.Surrounded env peer)
    (hapart : Apart env envP) (htells : Tells envP links bytes) (hhears : t.Hears env envP links)
    (now : U64) (fd : Int) :
    (∃ fuel st', tcpHandle env fuel now fd bytes st = .next st') ↔
      t.route envP.myProxyInfo.macaddr = none ∨ links.length = 1 := by
  constructor
  · intro h
    obtain ⟨fuel, st', h⟩ := h
    by_cases hlen : links.length = 1
    · exact .inr hlen
    · exact .inl (htells.ignored (hhears.resolve_right fun hone => hlen hone.1) hlen hs ht h).1
  · intro h
    by_cases hlen : links.length = 1
    · obtain ⟨l, rfl⟩ := List.length_eq_one_iff.mp hlen
      obtain ⟨m, hm, hholding, rfl⟩ := htells.greets
      have hreceives := ht.receives hm hapart
        (fun hsome => hhears.resolve_right fun hno => hsome hno.2) now fd
      obtain ⟨fuel, st', hhandle⟩ := (handlePacket_isSome_iff hs).mpr hreceives
      exact ⟨fuel, st', by rw [tcpHandle_holding hm hholding, hhandle]⟩
    · have htrue : Truthful env links := hhears.resolve_right fun hone => hlen hone.1
      obtain ⟨head, heap, new, hnew, hdecode⟩ := htells.decodes env st
      obtain ⟨node, hnode, hnamed⟩ := htells.first_named htrue hnew
      have hfind : ({ st with heap } : Proxy).findSocketfd envP.myProxyInfo.macaddr = none :=
        (hs.route _).symm.trans (h.resolve_right hlen)
      have hhandle : handleLinkstate env 0 now fd (told envP head links st) { st with heap } =
          some { st with heap } := by
        simp only [handleLinkstate, told, hnode, hfind, hnamed, Option.bind_eq_bind, Option.bind_some,
          compMacZero_ne_zero, compMacZero_eq_zero, if_false]
        exact if_neg fun hc => htells.count_ne_one hlen hc.2
      refine ⟨0, { st with heap }, ?_⟩
      simp only [tcpHandle, htells.type env.endian, hdecode, hhandle]
      rfl

/-! ## Flooding -/

theorem sentOn_flood (b : Buf) (fd : Int) (st : Proxy) :
    sentOn fd { st with trace :=
        (st.socketfds.reverse.map fun s => .send s.sockFd b).reverse ++ st.trace } =
      sentOn fd st ++ ((st.socketfds.filter fun s => s.sockFd = fd).map fun _ => b).reverse := by
  simp [sentOn, sends, Function.comp_def, List.filterMap_map, List.filter_map]

theorem sendBytes_tells {head : Addr} {b : Buf} (hs : Shows st t cells) (ht : t.Surrounded env peer)
    (hhead : st.memList.head = some head)
    (h : sendBytes env fuel (floodPacket env t.links.length head) (env.stackBuf maxPktLen) st =
      some b) : Tells env t.links b := by
  have hlist : NodeList st.heap (floodPacket env t.links.length head).list cells := by
    rw [show (floodPacket env t.links.length head).list = some head from rfl, ← hhead]
    exact hs.list
  have hcells : cells.length = t.links.length := by rw [← hs.links, Cells.length_links]
  obtain ⟨hfuel, hfit, hslice⟩ := sendBytes_some hlist h
  rw [length_stackBuf, hcells] at hfit
  have hlen : (floodPacket env t.links.length head).head.length.toNat = 14 + 40 * t.links.length := by
    rw [floodPacket, BitVec.toNat_ofNat]
    refine Nat.mod_eq_of_lt ?_
    simp [maxPktLen] at hfit ⊢
    omega
  -- what `send` reads is in the buffer
  have hroom := slice_some hslice
  rw [List.length_append, length_wireBytes, List.length_drop, length_stackBuf, Cells.length_links,
    hcells, hlen] at hroom
  have hbuf : (floodPacket env t.links.length head).head.length.toNat + 4 ≤
      (env.stackBuf maxPktLen).length := by
    rw [hlen, length_stackBuf]
    omega
  rw [sendBytes_eq hlist hfuel (by rw [hlen, hcells]; omega) hbuf, hs.links] at h
  have hne : t.links ≠ [] := fun hnil => by
    have hnone := (head_eq_none_iff hs).mpr hnil
    rw [hhead] at hnone
    cases hnone
  refine ⟨hne, ht.own, _, _, rfl, ?_, fun hone => ?_, ?_, (Option.some.inj h).symm⟩
  · rw [hlen]; omega
  · rw [hlen, hone]
  · rw [hlen]; omega

/-- Everyone in the table is told the links. -/
theorem sendPackets_tells (hs : Shows st t cells) (ht : t.Surrounded env peer)
    (h : sendPackets env fuel st = some st') :
    Shows st' t cells ∧ ∀ fd, ∃ new, sentOn fd st' = sentOn fd st ++ new ∧
      ∀ b ∈ new, Tells env t.links b ∧ ∃ e ∈ t.routes, e.sockFd = fd := by
  unfold sendPackets at h
  cases hhead : st.memList.head with
  | none =>
    simp only [createLinkPacket, hhead] at h
    cases h
    exact ⟨hs, fun fd => ⟨[], by simp, by simp⟩⟩
  | some head =>
    have hcounted : t.size = t.links.length := ht.counted
    rw [createLinkPacket_eq env hhead (hs.size.trans hcounted)] at h
    simp only at h
    by_cases hnil : st.socketfds.reverse = []
    · rw [hnil] at h
      cases h
      exact ⟨hs, fun fd => ⟨[], by simp, by simp⟩⟩
    · obtain ⟨b, hb, rfl⟩ := sendLoop_some hnil h
      refine ⟨⟨hs.list, hs.links, hs.size, hs.routes⟩, fun fd => ⟨_, sentOn_flood b fd st, ?_⟩⟩
      intro b' hb'
      rw [List.mem_reverse, List.mem_map] at hb'
      obtain ⟨e, he, rfl⟩ := hb'
      obtain ⟨hmem, hfd⟩ := List.mem_filter.mp he
      rw [hs.routes] at hmem
      exact ⟨sendBytes_tells hs ht hhead hb, e, hmem, of_decide_eq_true hfd⟩

end Told

end Cs352Proxy
