import Cs352Proxy.Keys
import Cs352Proxy.Knowledge
import Cs352Proxy.System

/-!
# Keeping

Does a stored link survive the packets that come in? A walk of `add_members` that returns only puts
nodes in front of the list and gives new times, wherever it started and whatever it ran into: had it
stored a node that was on the list already, it would not have returned. The reply to a client that
connects cuts the list behind its new first node.
-/

namespace Cs352Proxy

open Base

/-- The address of each node with what no packet may change: both endpoints and the weight. -/
def Cells.stamps (cells : Cells) : List (Addr × ProxyInfo × ProxyInfo × U32) :=
  cells.map fun x => (x.1, Topology.face x.2.toLink)

/-- Every node of `cells` is on the list of `st'`, with the same endpoints and weight. -/
def KeepsLinks (cells : Cells) (st' : Proxy) : Prop :=
  ∃ cells' : Cells, NodeList st'.heap st'.memList.head cells' ∧
    ∀ x ∈ cells, ∃ y ∈ cells', y.1 = x.1 ∧ y.2.localInfo = x.2.localInfo ∧
      y.2.remoteInfo = x.2.remoteInfo ∧ y.2.linkweight = x.2.linkweight

instance (cells : Cells) (st' : Proxy) : Decidable (KeepsLinks cells st') :=
  decidable_of_iff (∃ cells' ∈ st'.members, ∀ x ∈ cells, ∃ y ∈ cells', y.1 = x.1 ∧
      y.2.localInfo = x.2.localInfo ∧ y.2.remoteInfo = x.2.remoteInfo ∧ y.2.linkweight = x.2.linkweight)
    (exists_congr fun _ => and_congr_left fun _ => members_eq_some)

theorem Cells.stamps_eq_zip (cells : Cells) :
    cells.stamps = List.zip (cells.map Prod.fst) (cells.links.map Topology.face) := by
  rw [links, List.map_map, List.zip_map']
  rfl

theorem keepsLinks_of_suffix {cells cells' : Cells} {st' : Proxy}
    (hlist : NodeList st'.heap st'.memList.head cells') (hsuf : cells.stamps <:+ cells'.stamps) :
    KeepsLinks cells st' := by
  refine ⟨cells', hlist, fun x hx => ?_⟩
  obtain ⟨y, hy, hyx⟩ := List.mem_map.mp (hsuf.subset (List.mem_map_of_mem hx))
  obtain ⟨haddr, hface⟩ := Prod.mk.inj hyx
  obtain ⟨hlocal, hrest⟩ := Prod.mk.inj hface
  obtain ⟨hremote, hweight⟩ := Prod.mk.inj hrest
  exact ⟨y, hy, haddr, hlocal, hremote, hweight⟩

/-- More nodes in front of the list of `st`, each of them counted. -/
structure Grown (cells : Cells) (st : Proxy) (cells' : Cells) (st' : Proxy) : Prop where
  list : NodeList st'.heap st'.memList.head cells'
  suffix : cells.stamps <:+ cells'.stamps
  counted : st'.memList.size - cells'.length = st.memList.size - cells.length

theorem Grown.trans {cells₀ cells₁ cells₂ : Cells} {st₀ st₁ st₂ : Proxy} (h : Grown cells₀ st₀ cells₁ st₁)
    (h' : Grown cells₁ st₁ cells₂ st₂) : Grown cells₀ st₀ cells₂ st₂ :=
  ⟨h'.list, h.suffix.trans h'.suffix, h'.counted.trans h.counted⟩

section Walk

variable {env : Env} {fuel : Nat} {now : U64} {gw : Int}

/-- One call: either the list grew at its front at most, or the walk is caught behind the node. -/
theorem addMemberConnect_grows {a : Addr} {st st₁ : Proxy} {cells : Cells} {node : LinkstateNode}
    (hlist : NodeList st.heap st.memList.head cells)
    (hcall : addMemberConnect env fuel now gw a st = some st₁) (hnode : st₁.heap[a]? = some node) :
    (∃ cells', Grown cells st cells' st₁) ∨ Caught node.next st₁ := by
  obtain ⟨recv, hrecv, _⟩ := addMemberConnect_cases hcall
  rcases addMemberConnect_refines (shows_topology hlist) hrecv hcall with ⟨_, cells', hkept, hs₁⟩ | ⟨_, w, hpush, _⟩
  · have haddrs := Cells.map_fst_of_shape hkept.shape
    have hstamps : cells'.stamps = cells.stamps := by
      rw [Cells.stamps_eq_zip, Cells.stamps_eq_zip, haddrs, hs₁.links, Topology.keep_faces,
        Proxy.topology]
    have hlen : cells'.length = cells.length := by
      have hmap := congrArg List.length haddrs
      rwa [List.length_map, List.length_map] at hmap
    have hsize : st₁.memList.size = st.memList.size := by rw [hs₁.size, Topology.keep_size]; rfl
    exact .inl ⟨cells', hs₁.list, by simp only [hstamps, List.suffix_refl], by rw [hlen, hsize]⟩
  · by_cases hon : a ∈ cells.map Prod.fst
    · obtain ⟨x, hx, rfl⟩ := List.mem_map.mp hon
      obtain ⟨pre, cur, rfl⟩ := List.append_of_mem hx
      exact .inr (hpush.caught hlist hnode)
    · refine .inl ⟨_, hpush.list hrecv hlist hon, List.suffix_cons _ _, ?_⟩
      have hsize : st₁.memList.size = st.memList.size + 1 := by rw [hpush.2]
      rw [hsize, List.length_cons]
      omega

theorem addMembersLoop_grows (n : Nat) :
    ∀ {p : Ptr} {st st' : Proxy} {cells : Cells}, NodeList st.heap st.memList.head cells →
      addMembersLoop env fuel now gw n p st = some st' → ∃ cells', Grown cells st cells' st' := by
  induction n with
  | zero => intro p st st' cells _ h; cases h
  | succ n ih =>
    intro p st st' cells hlist h
    cases p with
    | none =>
      cases h
      exact ⟨cells, hlist, List.suffix_refl _, rfl⟩
    | some a =>
      obtain ⟨p₁, st₁, hstep, h⟩ := addMembersLoop_some h
      obtain ⟨hcall, node, hnode, rfl⟩ := addMembersStep_some hstep
      rcases addMemberConnect_grows hlist hcall hnode with ⟨cells₁, hgrown₁⟩ | hcaught
      · obtain ⟨cells', hgrown⟩ := ih hgrown₁.list h
        exact ⟨cells', hgrown₁.trans hgrown⟩
      · rw [addMembersLoop_caught n hcaught] at h
        cases h

end Walk

/-! ## The branches -/

section Branches

variable {env : Env} {fuel : Nat} {now : U64} {fd : Int} {pkt : LinkstatePkt} {st st' : Proxy}
  {cells : Cells}

theorem gotPacketBack_grows (hlist : NodeList st.heap st.memList.head cells)
    (h : gotPacketBack env fuel now fd pkt st = some st') : ∃ cells', Grown cells st cells' st' := by
  have hs₁ := ((shows_topology hlist).addsockfd pkt.source.macaddr fd).pushClient env pkt.source now
  obtain ⟨cells', hgrown⟩ := addMembersLoop_grows fuel hs₁.list h
  refine ⟨cells', hgrown.list, (List.suffix_cons _ _).trans hgrown.suffix, hgrown.counted.trans ?_⟩
  rw [List.length_cons, show (Proxy.pushClient env pkt.source now
    (st.addsockfd pkt.source.macaddr fd)).memList.size = st.memList.size + 1 from rfl]
  omega

theorem pushClient_cut (env : Env) (remote : ProxyInfo) (now : U64) (st : Proxy) :
    NodeList ((st.pushClient env remote now).setNext st.heap.length none).heap
      (st.pushClient env remote now).memList.head
      [(st.heap.length, { toLink := Topology.client env remote now, next := none })] :=
  ⟨rfl, by simp, rfl⟩

/-- The list of a proxy that answered a client has one node, at a new address. -/
theorem gotOriginalPacket_cuts {first : Addr}
    (h : gotOriginalPacket env fuel now fd pkt first st = some st') :
    (∃ node, NodeList st'.heap st'.memList.head [(st.heap.length, node)]) ∧
      st'.memList.size = st.memList.size + 1 := by
  obtain ⟨st₁, node, buf, hst₁, _, rfl⟩ := gotOriginalPacket_some h
  have hlen : st₁.heap.length = st.heap.length := by simp [hst₁]
  refine ⟨?_, by rw [hst₁]; rfl⟩
  rw [← hlen]
  exact ⟨_, pushClient_cut env _ now _⟩

/-- The packet takes the branch for a client that connects. -/
def Connects (pkt : LinkstatePkt) (st : Proxy) : Prop :=
  ∃ first ∈ pkt.list, ∃ node ∈ st.heap[first]?, st.findSocketfd pkt.source.macaddr = none ∧
    node.remoteInfo.macaddr ≠ Mac.zero ∧ pkt.numNeighbors = 1

instance (pkt : LinkstatePkt) (st : Proxy) : Decidable (Connects pkt st) :=
  inferInstanceAs (Decidable (∃ first ∈ pkt.list, ∃ node ∈ st.heap[first]?, _ ∧ _ ∧ _))

theorem handleLinkstate_keeps_iff (hlist : NodeList st.heap st.memList.head cells)
    (h : handleLinkstate env fuel now fd pkt st = some st') :
    KeepsLinks cells st' ↔ (Connects pkt st → cells = []) := by
  obtain ⟨first, node, hfirst, hnode, hcases⟩ := handleLinkstate_cases h
  have hgrows : (∃ cells', Grown cells st cells' st') → ¬ Connects pkt st →
      (KeepsLinks cells st' ↔ (Connects pkt st → cells = [])) := by
    intro hgrows hnot
    obtain ⟨cells', hgrown⟩ := hgrows
    exact ⟨fun _ hc => absurd hc hnot, fun _ => keepsLinks_of_suffix hgrown.list hgrown.suffix⟩
  have hconnects : Connects pkt st ↔ st.findSocketfd pkt.source.macaddr = none ∧
      node.remoteInfo.macaddr ≠ Mac.zero ∧ pkt.numNeighbors = 1 := by
    simp [Connects, hfirst, hnode]
  rcases hcases with ⟨e, hroute, hwalk⟩ | ⟨hroute, hzero, hback⟩ | ⟨hroute, hzero, hnn, horig⟩ |
    ⟨hroute, hzero, hnn, rfl⟩
  · refine hgrows (addMembersLoop_grows fuel hlist hwalk) fun hc => ?_
    rw [(hconnects.mp hc).1] at hroute
    cases hroute
  · exact hgrows (gotPacketBack_grows hlist hback) fun hc => (hconnects.mp hc).2.1 hzero
  · obtain ⟨⟨client, hlist'⟩, _⟩ := gotOriginalPacket_cuts horig
    constructor
    · intro hkeeps _
      obtain ⟨cells', hcells', hall⟩ := hkeeps
      rw [hcells'.unique hlist'] at hall
      by_contra hne
      obtain ⟨x, hx⟩ := List.exists_mem_of_ne_nil _ hne
      obtain ⟨y, hy, hyx, _⟩ := hall x hx
      rw [List.mem_singleton.mp hy] at hyx
      exact Nat.ne_of_lt (hlist.lt_length x hx) hyx.symm
    · intro hnil
      rw [hnil (hconnects.mpr ⟨hroute, hzero, hnn⟩)]
      exact ⟨_, hlist', by simp⟩
  · exact hgrows ⟨cells, hlist, List.suffix_refl _, rfl⟩ fun hc => hnn (hconnects.mp hc).2.2

/-- The chunk is a packet that takes this branch. -/
def ConnectsWith (env : Env) (bytes : Buf) (st : Proxy) : Prop :=
  readU16 env.endian (recvBuf bytes) 0 = some pktLinkstate ∧
    ∃ r ∈ ntohLinkstate env.endian env.uninit st.heap (recvBuf bytes), Connects r.1 { st with heap := r.2 }

instance (env : Env) (bytes : Buf) (st : Proxy) : Decidable (ConnectsWith env bytes st) :=
  inferInstanceAs (Decidable (_ ∧ ∃ r ∈ ntohLinkstate env.endian env.uninit st.heap (recvBuf bytes), _))

theorem tcpHandle_keeps_iff {bytes : Buf} (hlist : NodeList st.heap st.memList.head cells)
    (h : tcpHandle env fuel now fd bytes st = .next st') :
    KeepsLinks cells st' ↔ (ConnectsWith env bytes st → cells = []) := by
  rcases tcpHandle_next h with ⟨htype, hheap, hmem, _⟩ | ⟨htype, pkt, heap, hdecode, hhandle⟩
  · have hlist' : NodeList st'.heap st'.memList.head cells := by rw [hheap, hmem]; exact hlist
    exact ⟨fun _ hc => absurd hc.1 htype, fun _ => keepsLinks_of_suffix hlist' (List.suffix_refl _)⟩
  · have hlist₁ : NodeList heap st.memList.head cells := by
      refine hlist.frame fun x hx => ?_
      rw [ntohLinkstate_same _ hdecode (hlist.lt_length x hx)]
      exact hlist.get x hx
    have hconnects : ConnectsWith env bytes st ↔ Connects pkt { st with heap } := by
      simp [ConnectsWith, htype, hdecode]
    rw [hconnects]
    exact handleLinkstate_keeps_iff hlist₁ hhandle

end Branches

/-! ## Runs -/

/-- In every run, a packet keeps the stored links exactly if it is not from a client that connects
to a list that is not empty. -/
theorem run_keepsLinks_iff {env : Env} {tr : List (Step Proxy KeyOp)} {st : Proxy}
    (hr : KeyRun env tr st) {x : Step Proxy KeyOp} (hx : x ∈ tr) {uninit : Uninit} {fd : Int}
    {now : U64} {bytes : Buf} (hop : x.input = .packet uninit fd now bytes) {cells : Cells}
    (hlist : NodeList x.pre.heap x.pre.memList.head cells) :
    KeepsLinks cells x.post ↔ (ConnectsWith { env with uninit } bytes x.pre → cells = []) := by
  obtain ⟨fuel, hstep⟩ := hr.step_of_mem x hx
  rw [hop] at hstep
  exact tcpHandle_keeps_iff hlist hstep

/-- The one-link packet that `host k` sends to `host 1` over socket `k`. -/
def fromHost (k : U8) : Buf :=
  wireBytes { type := pktLinkstate, length := 50 } 1 (host k) [linkTo (host k) (host 1)]

/-- A run where `host 2` connects, then `host 3`: the second client finds a list with a link. -/
theorem two_clients_connect : ∃ (tr : List (Step Proxy KeyOp)) (x : Step Proxy KeyOp) (cells : Cells),
    KeyRun (hostEnv 1) (x :: tr) x.post ∧
      x.input = .packet (hostEnv 1).uninit 3 0 (fromHost 3) ∧
      ConnectsWith (hostEnv 1) (fromHost 3) x.pre ∧
      NodeList x.pre.heap x.pre.memList.head cells ∧ cells ≠ [] := by
  let op : U8 → KeyOp := fun k => .packet (hostEnv 1).uninit k.toNat 0 (fromHost k)
  have hrun : ∃ st₁ ∈ (op 2).perform (hostEnv 1) 3 Proxy.start,
      ∃ st₂ ∈ (op 3).perform (hostEnv 1) 3 st₁, ∃ cells ∈ st₁.members, cells ≠ [] ∧
        ConnectsWith (hostEnv 1) (fromHost 3) st₁ := by
    decide +kernel
  obtain ⟨st₁, h₁, st₂, h₂, cells, hcells, hne, hconnects⟩ := hrun
  have hr₁ : KeyRun (hostEnv 1) [⟨Proxy.start, op 2, st₁⟩] st₁ :=
    .snoc .start (KeyOp.completes_of_perform h₁)
  exact ⟨_, ⟨st₁, op 3, st₂⟩, cells, hr₁.snoc (KeyOp.completes_of_perform h₂), rfl, hconnects,
    members_eq_some.mp hcells, hne⟩

/-- `host 2` connects, then `host 3`: the link to `host 2` is lost. -/
theorem second_client_drops_first : ∃ (env : Env) (tr : List (Step Proxy KeyOp)) (st : Proxy)
    (x : Step Proxy KeyOp) (uninit : Uninit) (fd : Int) (now : U64) (bytes : Buf) (cells : Cells),
    KeyRun env tr st ∧ x ∈ tr ∧ x.input = .packet uninit fd now bytes ∧
      NodeList x.pre.heap x.pre.memList.head cells ∧ ¬ KeepsLinks cells x.post := by
  obtain ⟨tr, x, cells, hr, hop, hconnects, hlist, hne⟩ := two_clients_connect
  have hx : x ∈ x :: tr := List.mem_cons_self
  refine ⟨hostEnv 1, x :: tr, x.post, x, _, _, _, _, cells, hr, hx, hop, hlist, fun hkeeps => ?_⟩
  obtain ⟨fuel, hround⟩ := hr.step_of_mem x hx
  rw [hop] at hround
  exact hne ((tcpHandle_keeps_iff hlist hround).mp hkeeps hconnects)

/-- `host 2` connects and then floods its list. -/
theorem periodic_packet_keeps : ∃ (tr : List (Step Proxy KeyOp)) (st : Proxy) (x : Step Proxy KeyOp)
    (cells : Cells), KeyRun (hostEnv 1) tr st ∧ x ∈ tr ∧ cells.length = 1 ∧
      NodeList x.pre.heap x.pre.memList.head cells ∧ KeepsLinks cells x.post := by
  let op : U64 → KeyOp := fun now => .packet (hostEnv 1).uninit 4 now (fromHost 2)
  have hrun : ∃ st₁ ∈ (op 0).perform (hostEnv 1) 3 Proxy.start,
      ∃ st₂ ∈ (op 5).perform (hostEnv 1) 3 st₁, ∃ cells ∈ st₁.members, cells.length = 1 ∧
        ¬ ConnectsWith (hostEnv 1) (fromHost 2) st₁ := by
    decide +kernel
  obtain ⟨st₁, h₁, st₂, h₂, cells, hcells, hlen, hnot⟩ := hrun
  have hr : KeyRun (hostEnv 1) [⟨st₁, op 5, st₂⟩, ⟨Proxy.start, op 0, st₁⟩] st₂ :=
    .snoc (.snoc .start (KeyOp.completes_of_perform h₁)) (KeyOp.completes_of_perform h₂)
  have hlist := members_eq_some.mp hcells
  exact ⟨_, st₂, ⟨st₁, op 5, st₂⟩, cells, hr, by simp, hlen, hlist,
    (run_keepsLinks_iff hr (by simp) rfl hlist).mpr fun hc => absurd hc hnot⟩

end Cs352Proxy
