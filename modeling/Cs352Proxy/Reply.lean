import Cs352Proxy.Flood
import Cs352Proxy.Keeping
import Cs352Proxy.Membership
import Cs352Proxy.Trace

/-!
# Reply

Does a client that connects get the server's membership list? The reply is a packet of 54 bytes, so it
carries one link, the new one; its neighbour count is the live `mem_list->size`. Both are what they
should be only for the first client of an empty server.
-/

namespace Cs352Proxy

open Base

/-- The client as its packet describes it. -/
def clientOf (env : Env) (bytes : Buf) (st : Proxy) : Option ProxyInfo := do
  let (pkt, heap) ← ntohLinkstate env.endian env.uninit st.heap (recvBuf bytes)
  let first ← pkt.list
  let node ← heap[first]?
  some { pkt.source with macaddr := node.localInfo.macaddr }

/-- The chunk `bytes` is answered once, and every receiver decodes the answer to a packet that counts
and carries the new link and the links of `cells`. -/
def ReplyCarries (env : Env) (now : U64) (fd : Int) (bytes : Buf) (st st' : Proxy) (cells : Cells) :
    Prop :=
  ∃ reply, sends st' = (fd, reply) :: sends st ∧ ∃ remote ∈ clientOf env bytes st,
    ∀ (e : Endian) (u : Uninit) (heap : List LinkstateNode), ∃ pkt heap',
      ntohLinkstate e u heap reply = some (pkt, heap') ∧
      pkt.numNeighbors.toNat = cells.length + 1 ∧
      Decoded heap heap' pkt.list (Topology.client env remote now :: cells.links)

/-- The reply to a client, from a server whose list counts `size` links. -/
def replyBytes (env : Env) (remote : ProxyInfo) (now : U64) (size : Int) : Buf :=
  wireBytes { type := pktLinkstate, length := 50 } (BitVec.ofInt 16 (size + 1)) env.myProxyInfo
    [Topology.client env remote now]

section Branch

variable {env : Env} {fuel : Nat} {now : U64} {fd : Int} {pkt : LinkstatePkt} {st st' : Proxy}

/-- Sending the reply is all that is seen of the branch. -/
theorem gotOriginalPacket_sends {first : Addr}
    (h : gotOriginalPacket env fuel now fd pkt first st = some st') :
    ∃ node, st.heap[first]? = some node ∧
      sends st' = (fd, replyBytes env { pkt.source with macaddr := node.localInfo.macaddr } now
        st.memList.size) :: sends st := by
  simp only [gotOriginalPacket, Option.bind_eq_bind, Option.bind_eq_some_iff] at h
  obtain ⟨node, hnode, head, hhead, buf, hbuf, h⟩ := h
  simp only [Proxy.setRemoteMac_heap, Proxy.addsockfd_heap, List.getElem?_modify_eq,
    Option.map_eq_map, Option.map_eq_some_iff] at hnode
  obtain ⟨sent, hsent, rfl⟩ := hnode
  refine ⟨sent, hsent, ?_⟩
  cases hhead
  cases h
  have hlist := pushClient_cut env { pkt.source with macaddr := sent.localInfo.macaddr } now
    ((st.addsockfd pkt.source.macaddr fd).setRemoteMac first env.myProxyInfo.macaddr)
  obtain ⟨hfuel, hfit⟩ := htonLinkstate_some env.endian hlist hbuf
  have hdrop : (env.stackBuf 54).drop (18 + 36 * 1) = [] :=
    List.drop_of_length_le (Nat.le_of_eq (length_stackBuf env 54))
  rw [htonLinkstate_eq env.endian hlist hfuel hfit, List.length_singleton, hdrop,
    List.append_nil] at hbuf
  cases hbuf
  rfl

theorem ntohLinkstate_reply (env : Env) (remote : ProxyInfo) (now : U64) (size : Int) (e : Endian)
    (u : Uninit) (heap : List LinkstateNode) :
    ∃ pkt heap', ntohLinkstate e u heap (replyBytes env remote now size) = some (pkt, heap') ∧
      pkt.numNeighbors = BitVec.ofInt 16 (size + 1) ∧
      Decoded heap heap' pkt.list [Topology.client env remote now] := by
  have hdecode := ntohLinkstate_eq e u heap { type := pktLinkstate, length := 50 }
    (BitVec.ofInt 16 (size + 1)) env.myProxyInfo (List.cons_ne_nil (Topology.client env remote now) [])
    rfl []
  rw [List.append_nil] at hdecode
  exact ⟨_, _, hdecode, rfl, decoded_linkNodes heap (List.cons_ne_nil _ _) _⟩

/-- One round of a server that a client connects to: the client is answered once. -/
theorem tcpHandle_sends_reply {bytes : Buf} (hconnects : ConnectsWith env bytes st)
    (h : tcpHandle env fuel now fd bytes st = .next st') :
    ∃ remote, clientOf env bytes st = some remote ∧
      sends st' = (fd, replyBytes env remote now st.memList.size) :: sends st := by
  rcases tcpHandle_next h with ⟨htype, _⟩ | ⟨_, pkt, heap, hdecode, hhandle⟩
  · exact absurd hconnects.1 htype
  obtain ⟨_, r, hr, first, hfirst, node, hnode, hroute, hzero, hnn⟩ := hconnects
  rw [Option.mem_def, hdecode] at hr
  cases hr
  replace hfirst : pkt.list = some first := hfirst
  replace hnode : heap[first]? = some node := hnode
  obtain ⟨first', node', hfirst', hnode', hcases⟩ := handleLinkstate_cases hhandle
  rw [hfirst] at hfirst'
  cases hfirst'
  rw [hnode] at hnode'
  cases hnode'
  rcases hcases with ⟨_, hknown, _⟩ | ⟨_, hzero', _⟩ | ⟨_, _, _, horig⟩ | ⟨_, _, hnn', _⟩
  · rw [hroute] at hknown
    cases hknown
  · exact absurd hzero' hzero
  · obtain ⟨node', hnode', hsends⟩ := gotOriginalPacket_sends horig
    rw [show ({ st with heap } : Proxy).heap = heap from rfl, hnode] at hnode'
    cases hnode'
    exact ⟨_, by simp [clientOf, hdecode, hfirst, hnode], hsends⟩
  · exact absurd hnn hnn'

/-- The reply counts the links on the list and carries the new one. -/
theorem tcpHandle_reply_iff {bytes : Buf} {cells : Cells} (hconnects : ConnectsWith env bytes st)
    (h : tcpHandle env fuel now fd bytes st = .next st') :
    ReplyCarries env now fd bytes st st' cells ↔ cells = [] ∧ st.memList.size % 65536 = 0 := by
  obtain ⟨remote, hremote, hsends⟩ := tcpHandle_sends_reply hconnects h
  have hcount : (BitVec.ofInt 16 (st.memList.size + 1)).toNat = 1 ↔ st.memList.size % 65536 = 0 := by
    rw [BitVec.toNat_ofInt]
    omega
  constructor
  · intro hcarries
    obtain ⟨reply, hreply, remote', hmem, hall⟩ := hcarries
    rw [hsends] at hreply
    obtain ⟨hpair, _⟩ := List.cons.inj hreply
    cases hpair
    obtain ⟨pkt₁, heap₁, hdec, hnum, hlinks⟩ := hall .little env.uninit []
    obtain ⟨pkt₂, heap₂, hdec', hnum', hlinks'⟩ :=
      ntohLinkstate_reply env remote now st.memList.size .little env.uninit []
    rw [hdec] at hdec'
    cases hdec'
    obtain ⟨_, hrest⟩ := List.cons.inj (hlinks.links_unique hlinks')
    have hnil : cells = [] := List.map_eq_nil_iff.mp hrest
    subst hnil
    rw [hnum'] at hnum
    exact ⟨rfl, hcount.mp hnum⟩
  · intro hcond
    obtain ⟨rfl, hsize⟩ := hcond
    refine ⟨_, hsends, _, hremote, fun e u heap₁ => ?_⟩
    obtain ⟨pkt', heap', hdec, hnum, hlinks⟩ :=
      ntohLinkstate_reply env remote now st.memList.size e u heap₁
    exact ⟨pkt', heap', hdec, by rw [hnum]; exact hcount.mpr hsize, hlinks⟩

end Branch

/-- In every run, the reply to a client carries the server's list exactly if that list is empty and
its size counter is zero modulo 65536. -/
theorem run_replyCarries_iff {env : Env} {tr : List (Step Proxy KeyOp)} {st : Proxy}
    (hr : KeyRun env tr st) {x : Step Proxy KeyOp} (hx : x ∈ tr) {uninit : Uninit} {fd : Int}
    {now : U64} {bytes : Buf} (hop : x.input = .packet uninit fd now bytes)
    (hconnects : ConnectsWith { env with uninit } bytes x.pre) {cells : Cells}
    (hlist : NodeList x.pre.heap x.pre.memList.head cells) :
    ReplyCarries { env with uninit } now fd bytes x.pre x.post cells ↔
      x.pre.memList.head = none ∧ x.pre.memList.size % 65536 = 0 := by
  obtain ⟨fuel, hstep⟩ := hr.step_of_mem x hx
  rw [hop] at hstep
  have hempty : x.pre.memList.head = none ↔ cells = [] := by
    rw [head_eq_none_iff (shows_topology hlist)]
    exact List.map_eq_nil_iff
  rw [tcpHandle_reply_iff hconnects hstep, hempty]

/-- `host 2` connects, then `host 3`: its reply counts two links and carries one. -/
theorem second_client_gets_one_link : ∃ (env : Env) (tr : List (Step Proxy KeyOp)) (st : Proxy)
    (x : Step Proxy KeyOp) (uninit : Uninit) (fd : Int) (now : U64) (bytes : Buf) (cells : Cells),
    KeyRun env tr st ∧ x ∈ tr ∧ x.input = .packet uninit fd now bytes ∧
      ConnectsWith { env with uninit } bytes x.pre ∧
      NodeList x.pre.heap x.pre.memList.head cells ∧
      ¬ ReplyCarries { env with uninit } now fd bytes x.pre x.post cells := by
  obtain ⟨tr, x, cells, hr, hop, hconnects, hlist, hne⟩ := two_clients_connect
  have hx : x ∈ x :: tr := List.mem_cons_self
  refine ⟨hostEnv 1, x :: tr, x.post, x, _, _, _, _, cells, hr, hx, hop, hconnects, hlist,
    fun hcarries => ?_⟩
  obtain ⟨fuel, hround⟩ := hr.step_of_mem x hx
  rw [hop] at hround
  exact hne ((tcpHandle_reply_iff hconnects hround).mp hcarries).1

/-- The first client gets the whole list. -/
theorem first_client_gets_list : ∃ (tr : List (Step Proxy KeyOp)) (st : Proxy) (x : Step Proxy KeyOp),
    KeyRun (hostEnv 1) tr st ∧ x ∈ tr ∧ x.pre = Proxy.start ∧
      ReplyCarries (hostEnv 1) 7 4 (fromHost 2) x.pre x.post [] := by
  let op : KeyOp := .packet (hostEnv 1).uninit 4 7 (fromHost 2)
  have hrun : ∃ st₁ ∈ op.perform (hostEnv 1) 3 Proxy.start,
      ConnectsWith (hostEnv 1) (fromHost 2) Proxy.start := by decide +kernel
  obtain ⟨st₁, h₁, hconnects⟩ := hrun
  have hr : KeyRun (hostEnv 1) [⟨Proxy.start, op, st₁⟩] st₁ :=
    .snoc .start (KeyOp.completes_of_perform h₁)
  have hlist : NodeList Proxy.start.heap Proxy.start.memList.head [] := rfl
  have hmem : (⟨Proxy.start, op, st₁⟩ : Step Proxy KeyOp) ∈ [⟨Proxy.start, op, st₁⟩] :=
    List.mem_singleton_self _
  exact ⟨_, st₁, ⟨Proxy.start, op, st₁⟩, hr, hmem, rfl,
    (run_replyCarries_iff hr hmem rfl hconnects hlist).mpr ⟨rfl, rfl⟩⟩

end Cs352Proxy
