import Cs352Proxy.Flood
import Cs352Proxy.Keeping

/-!
# Capacity

Does the flooded packet fit the 2052 bytes of `buf`? Nothing bounds the membership list.

* `Covered`: the size counter is at least the number of links. It holds in every state of a run
  (`KeyRun.covered`), whatever bytes came in; after the list was cut the counter is ahead of it.
* `Counting`: inside an operation it is behind by one link at most, as long as the list ends; a list
  that `add_members` is caught in has no end (`KeyOp.goesThrough_counting`).
* `run_floodFits_iff`: so what `send` reads, `18 + 40 * size` bytes, is the bound for everything, and
  it is in the buffer up to a size of 50. A list without an end fits no buffer.
-/

namespace Cs352Proxy

open Base

/-- The list is null-terminated, and the size counter counts at least its nodes. -/
def Covered (st : Proxy) : Prop :=
  ∃ cells : Cells, NodeList st.heap st.memList.head cells ∧ (cells.length : Int) ≤ st.memList.size

theorem Grown.covered {cells cells' : Cells} {st st' : Proxy} (h : Grown cells st cells' st')
    (hle : (cells.length : Int) ≤ st.memList.size) : Covered st' := by
  have hcounted := h.counted
  exact ⟨cells', h.list, by omega⟩

section Step

variable {env : Env} {fuel : Nat} {now : U64} {st st' : Proxy}

theorem gotOriginalPacket_covered {fd : Int} {pkt : LinkstatePkt} {first : Addr} (hc : Covered st)
    (h : gotOriginalPacket env fuel now fd pkt first st = some st') : Covered st' := by
  obtain ⟨cells, _, hle⟩ := hc
  obtain ⟨⟨client, hlist'⟩, hsize⟩ := gotOriginalPacket_cuts h
  refine ⟨_, hlist', ?_⟩
  rw [hsize, List.length_singleton]
  omega

theorem handleLinkstate_covered {fd : Int} {pkt : LinkstatePkt} (hc : Covered st)
    (h : handleLinkstate env fuel now fd pkt st = some st') : Covered st' := by
  obtain ⟨first, node, _, _, hcases⟩ := handleLinkstate_cases h
  rcases hcases with ⟨_, _, hwalk⟩ | ⟨_, _, hback⟩ | ⟨_, _, _, horig⟩ | ⟨_, _, _, rfl⟩
  · obtain ⟨cells, hlist, hle⟩ := hc
    obtain ⟨cells', hgrown⟩ := addMembersLoop_grows fuel hlist hwalk
    exact hgrown.covered hle
  · obtain ⟨cells, hlist, hle⟩ := hc
    obtain ⟨cells', hgrown⟩ := gotPacketBack_grows hlist hback
    exact hgrown.covered hle
  · exact gotOriginalPacket_covered hc horig
  · exact hc

theorem Covered.decode {buf : Buf} {pkt : LinkstatePkt} {heap : List LinkstateNode} (hc : Covered st)
    (h : ntohLinkstate env.endian env.uninit st.heap buf = some (pkt, heap)) :
    Covered { st with heap } := by
  obtain ⟨cells, hlist, hle⟩ := hc
  refine ⟨cells, hlist.frame fun x hx => ?_, hle⟩
  show heap[x.1]? = some x.2
  rw [ntohLinkstate_same _ h (hlist.lt_length x hx)]
  exact hlist.get x hx

theorem tcpHandle_covered {fd : Int} {bytes : Buf} (hc : Covered st)
    (h : tcpHandle env fuel now fd bytes st = .next st') : Covered st' := by
  rcases tcpHandle_next h with ⟨_, hheap, hmem, _⟩ | ⟨_, pkt, heap, hdecode, hhandle⟩
  · obtain ⟨cells, hlist, hle⟩ := hc
    exact ⟨cells, by rw [hheap, hmem]; exact hlist, by rw [hmem]; exact hle⟩
  · exact handleLinkstate_covered (hc.decode hdecode) hhandle

theorem deleteMembers_covered {a : Addr} (hc : Covered st) (h : deleteMembers fuel a st = some st') :
    Covered st' := by
  obtain ⟨cells, hlist, hle⟩ := hc
  simp only [deleteMembers, Option.bind_eq_bind, Option.bind_eq_some_iff] at h
  obtain ⟨node, _, h⟩ := h
  by_cases hmem : ∃ y ∈ cells, y.2.remoteInfo.macaddr = node.remoteInfo.macaddr
  · obtain ⟨y, hy, hmac⟩ := hmem
    obtain ⟨c1, x, c2, rfl, hx, hc1⟩ := split_first cells hy hmac
    rw [deleteMembersLoop_some hx hlist hc1 h]
    obtain ⟨c1', hlist', hbare⟩ := deleteNode_list hlist
    have hlen := congrArg List.length hbare
    simp only [Cells.bare, List.length_map] at hlen
    refine ⟨c1' ++ c2, hlist', ?_⟩
    rw [Proxy.deleteNode_size]
    simp only [List.length_append, List.length_cons] at hle ⊢
    omega
  · have hnone : ∀ y ∈ cells, y.2.remoteInfo.macaddr ≠ node.remoteInfo.macaddr :=
      fun y hy hmac => hmem ⟨y, hy, hmac⟩
    rw [deleteMembersLoop_absent hlist hnone h]
    exact ⟨cells, hlist, hle⟩

theorem Covered.deletesockfd (hc : Covered st) (mac : Mac) : Covered (st.deletesockfd mac) := by
  unfold Covered
  rw [Proxy.deletesockfd_heap, Proxy.deletesockfd_memList]
  exact hc

/-- A deleted node that is still counted. -/
theorem Covered.of_counted (hc : Covered (st.setSize (st.memList.size - 1))) : Covered st := by
  obtain ⟨cells, hlist, hle⟩ := hc
  exact ⟨cells, hlist, Int.le_trans hle (Int.sub_le_self _ (by decide))⟩

theorem sweepStages_covered {time timeout : Int} (n : Nat) {p : Ptr} (hc : Covered st) :
    ∀ s ∈ sweepStages fuel time timeout n p st, Covered s :=
  sweepStages_forall (fun mac hc => hc.deletesockfd mac) (fun hc => hc.of_counted)
    (fun hc hdel => deleteMembers_covered hc hdel) n hc

theorem removeExpiredMembers_covered {linkTimeout : Int} (hc : Covered st)
    (h : removeExpiredMembers fuel now linkTimeout st = some st') : Covered st' := by
  obtain ⟨_, _, st₁, hloop, rfl⟩ := removeExpiredMembers_some h
  have hlocked : Covered (st.emit .lock) := hc
  exact sweepStages_covered fuel hlocked st₁ (removeExpiredLoop_mem_sweepStages fuel hloop)

end Step

theorem KeyRun.covered {env : Env} {tr : List (Step Proxy KeyOp)} {st : Proxy}
    (hr : KeyRun env tr st) : Covered st := by
  have hstart : Covered Proxy.start := ⟨[], rfl, Int.le_refl 0⟩
  refine (Run.invariant hstart (fun st op st' hc h => ?_) hr).1
  obtain ⟨fuel, h⟩ := h
  cases op with
  | packet uninit fd now bytes => exact tcpHandle_covered hc h
  | sweep now linkTimeout => exact removeExpiredMembers_covered hc h

/-! ## The states of an operation -/

/-- Following `next` from `mem_list->head` reaches `NULL`. -/
def Terminated (st : Proxy) : Prop := ∃ cells : Cells, NodeList st.heap st.memList.head cells

instance (st : Proxy) : Decidable (Terminated st) :=
  decidable_of_iff (∃ cells ∈ st.members, True)
    (exists_congr fun _ => (and_iff_left trivial).trans members_eq_some)

/-- If the list is null-terminated, the size counter counts its nodes but for the first one: that may
be linked and not counted yet. -/
def Counting (st : Proxy) : Prop :=
  ∀ cells : Cells, NodeList st.heap st.memList.head cells → (cells.length : Int) ≤ st.memList.size + 1

theorem Covered.counting {st : Proxy} (hc : Covered st) : Counting st := by
  obtain ⟨cells, hlist, hle⟩ := hc
  intro cells' hlist'
  rw [hlist'.unique hlist]
  omega

/-- A walk at `p` either finds a counted list or is caught in a loop of nodes. -/
def CoveredOrCaught (p : Ptr) (st : Proxy) : Prop := Covered st ∨ Caught p st

theorem CoveredOrCaught.counting {p : Ptr} {st : Proxy} (hc : CoveredOrCaught p st) : Counting st := by
  rcases hc with hc | hc
  · exact hc.counting
  · exact fun cells hlist => absurd hlist (hc.not_list cells)

section Stages

variable {env : Env} {fuel : Nat} {now : U64} {st : Proxy}

/-- One step of the walk keeps a counted list or closes a loop. -/
theorem CoveredOrCaught.step {gw : Int} {a : Addr} {p₁ : Ptr} {st₁ : Proxy}
    (hc : CoveredOrCaught (some a) st) (h : addMembersStep env fuel now gw a st = some (p₁, st₁)) :
    CoveredOrCaught p₁ st₁ := by
  rcases hc with ⟨cells, hlist, hle⟩ | hc
  · obtain ⟨hcall, node, hnode, rfl⟩ := addMembersStep_some h
    rcases addMemberConnect_grows hlist hcall hnode with ⟨cells', hgrown⟩ | hcaught
    · exact .inl (hgrown.covered hle)
    · exact .inr hcaught
  · exact .inr (hc.step h)

/-- While the node at `a` is put in front, nothing but that node changes. -/
theorem CoveredOrCaught.linked {a : Addr} {recv : LinkstateNode} {f : LinkstateNode → LinkstateNode}
    {s : Proxy} (hc : CoveredOrCaught (some a) st) (hrecv : st.heap[a]? = some recv)
    (hheap : s.heap = st.heap.modify a f) (hnext : (f recv).next = st.memList.head)
    (hhead : s.memList.head = st.memList.head ∨ s.memList.head = some a)
    (hsize : st.memList.size ≤ s.memList.size) : Counting s := by
  have hnode : s.heap[a]? = some (f recv) := by
    rw [hheap, List.getElem?_modify_eq, hrecv]
    rfl
  have hf : ∀ x, x ≠ a → s.heap[x]? = st.heap[x]? := by
    intro x hx
    rw [hheap, List.getElem?_modify_ne _ _ hx.symm]
  intro cells' hlist'
  have hends : ∀ (S : Addr → Prop) (b : Addr), st.memList.head = some b →
      Looped LinkstateNode.next s.heap S → S b → S a → False := by
    intro S b hb hloop hSb hSa
    rcases hhead with hhead | hhead
    · rw [hhead, hb] at hlist'
      exact hloop.not_seg hSb hlist'
    · rw [hhead] at hlist'
      exact hloop.not_seg hSa hlist'
  rcases hc with ⟨cells, hlist, hle⟩ | ⟨S, c, b, hloop, hb, hSb, hca, hSa⟩
  · by_cases ha : a ∈ cells.map Prod.fst
    · -- the node is on the list, which now has no end
      obtain ⟨x, hx, rfl⟩ := List.mem_map.mp ha
      obtain ⟨pre, post, rfl⟩ := List.append_of_mem hx
      obtain ⟨S, b, hb, hloop, hSb, hSx⟩ := hlist.closes_first hnode hnext fun y hy => by rw [hf y hy]
      exact (hends S b hb hloop hSb hSx).elim
    · have hold : NodeList s.heap st.memList.head cells := by
        refine hlist.frame fun x hx => ?_
        rw [hf x.1 fun h => ha (h ▸ List.mem_map_of_mem hx)]
        exact hlist.get x hx
      rcases hhead with hhead | hhead
      · rw [hhead] at hlist'
        rw [hlist'.unique hold]
        omega
      · have hnew : NodeList s.heap (some a) ((a, f recv) :: cells) := ⟨rfl, hnode, hnext ▸ hold⟩
        rw [hhead] at hlist'
        rw [hlist'.unique hnew, List.length_cons]
        push_cast
        omega
  · cases hca
    have hloop' := hloop.relink hSb hnode (hnext.trans hb) fun x hx => by rw [hf x hx]
    exact (hends S b hb hloop' hSb hSa).elim

theorem linkStages_counting {a : Addr} {w : U32} {recv : LinkstateNode}
    (hc : CoveredOrCaught (some a) st) (hrecv : st.heap[a]? = some recv) :
    ∀ s ∈ linkStages now a w st, Counting s := by
  intro s hs
  simp only [linkStages, List.mem_cons, List.not_mem_nil, or_false] at hs
  rcases hs with rfl | rfl | rfl
  · exact hc.linked hrecv (Proxy.setNext_heap _ _ _) rfl (.inl rfl) (Int.le_refl _)
  · exact hc.linked hrecv (Proxy.linkNode_heap _ _ _) rfl (.inr rfl) (Int.le_refl _)
  · exact hc.linked hrecv (Proxy.pushNode_heap _ _ _ _) rfl (.inr rfl) (Int.le_add_one (Int.le_refl _))

theorem walkStages_counting {gw : Int} (n : Nat) {p : Ptr} (hc : CoveredOrCaught p st) :
    ∀ s ∈ walkStages env fuel now gw n p st, Counting s := by
  refine walkStages_forall (I := CoveredOrCaught) (fun hc => ⟨hc.counting, hc.counting⟩)
    (fun hc _ => hc.counting) (fun st₀ hc hrecv hheap hmem _ => ?_) CoveredOrCaught.step n hc
  refine linkStages_counting ?_ (hheap ▸ hrecv)
  simpa only [CoveredOrCaught, Covered, Caught, hheap, hmem] using hc

theorem Covered.addsockfd (hc : Covered st) (mac : Mac) (fd : Int) : Covered (st.addsockfd mac fd) := hc

/-- A node keeps its place whatever its remote MAC address is. -/
theorem Covered.setRemoteMac (hc : Covered st) (a : Addr) (mac : Mac) :
    Covered (st.setRemoteMac a mac) := by
  obtain ⟨cells, hlist, hle⟩ := hc
  by_cases ha : a ∈ cells.map Prod.fst
  · obtain ⟨x, hx, rfl⟩ := List.mem_map.mp ha
    obtain ⟨pre, post, rfl⟩ := List.append_of_mem hx
    have hget : (st.setRemoteMac x.1 mac).heap[x.1]? =
        some { x.2 with remoteInfo := { x.2.remoteInfo with macaddr := mac } } := by
      rw [Proxy.setRemoteMac_heap, List.getElem?_modify_eq, hlist.get x hx]
      rfl
    refine ⟨_, hlist.update hget rfl fun y hy => List.getElem?_modify_ne _ _ hy.symm, ?_⟩
    simpa using hle
  · refine ⟨cells, hlist.frame fun x hx => ?_, hle⟩
    have hne : a ≠ x.1 := fun h => ha (h ▸ List.mem_map_of_mem hx)
    rw [Proxy.setRemoteMac_heap, List.getElem?_modify_ne _ _ hne]
    exact hlist.get x hx

theorem Covered.pushClient (hc : Covered st) (env : Env) (remote : ProxyInfo) (now : U64) :
    Covered (st.pushClient env remote now) := by
  obtain ⟨cells, hlist, hle⟩ := hc
  refine ⟨_, ((shows_topology hlist).pushClient env remote now).list, ?_⟩
  rw [List.length_cons, pushClient_memList]
  push_cast
  omega

/-- Before it is counted, the link to a client is on the list already. -/
theorem linkClient_counting {remote : ProxyInfo} (hc : Covered (st.pushClient env remote now)) :
    Counting (st.linkClient env remote now) := by
  obtain ⟨cells, hlist, hle⟩ := hc
  intro cells' hlist'
  rw [hlist'.unique hlist]
  exact hle

theorem backStages_counting {n : Nat} {fd : Int} {pkt : LinkstatePkt} (hc : Covered st) :
    ∀ s ∈ backStages env fuel now n fd pkt st, Counting s := by
  have hadd := hc.addsockfd pkt.source.macaddr fd
  have hpush := hadd.pushClient env pkt.source now
  refine List.forall_mem_cons.mpr ⟨hadd.counting, List.forall_mem_cons.mpr ⟨?_, ?_⟩⟩
  · exact linkClient_counting hpush
  · exact walkStages_counting n (.inl hpush)

theorem originalStages_counting {fd : Int} {pkt : LinkstatePkt} {first : Addr} (hc : Covered st) :
    ∀ s ∈ originalStages env fuel now fd pkt first st, Counting s := by
  have hadd := hc.addsockfd pkt.source.macaddr fd
  intro s hs
  rcases originalStages_cases hs with rfl | ⟨remote, st₁, rfl, rfl | rfl⟩ | horig
  · exact hadd.counting
  · exact linkClient_counting ((hadd.setRemoteMac _ _).pushClient _ _ _)
  · exact ((hadd.setRemoteMac _ _).pushClient _ _ _).counting
  · exact (gotOriginalPacket_covered hc horig).counting

theorem handleStages_counting {n : Nat} {fd : Int} {pkt : LinkstatePkt} (hc : Covered st) :
    ∀ s ∈ handleStages env fuel now n fd pkt st, Counting s := by
  intro s hs
  rcases handleStages_cases hs with rfl | ⟨n, hwalk⟩ | ⟨_, ⟨n, hback⟩ | ⟨first, horig⟩⟩
  · exact hc.counting
  · exact walkStages_counting n (.inl hc) s hwalk
  · exact backStages_counting hc s hback
  · exact originalStages_counting hc s horig

theorem tcpStages_counting {n : Nat} {fd : Int} {bytes : Buf} (hc : Covered st) :
    ∀ s ∈ tcpStages env fuel now n fd bytes st, Counting s := by
  intro s hs
  rcases tcpStages_cases hs with ⟨hheap, hmem, _⟩ | ⟨pkt, heap, hdecode, hhandle⟩
  · unfold Counting
    rw [hheap, hmem]
    exact hc.counting
  · exact handleStages_counting (hc.decode hdecode) s hhandle

end Stages

theorem KeyOp.goesThrough_counting {env : Env} {st s : Proxy} {op : KeyOp} (hc : Covered st)
    (h : op.GoesThrough env st s) : Counting s := by
  obtain ⟨fuel, n, hs⟩ := h
  cases op with
  | packet uninit tcpFd now bytes => exact tcpStages_counting hc s hs
  | sweep now linkTimeout =>
    rcases List.mem_cons.mp hs with hs | hs
    · rw [hs]; exact hc.counting
    · have hlocked : Covered (st.emit .lock) := hc
      split at hs
      · exact (sweepStages_covered n hlocked s hs).counting
      · cases hs

/-! ## The flooded packet -/

/-- One round of `sendPackets` gets through, so all it writes and reads is in `buf`, and its length
field is the number `create_link_packet` computed. -/
def FloodFits (env : Env) (st : Proxy) : Prop :=
  (∃ fuel st', sendPackets env fuel st = some st') ∧
    ∀ lstate ∈ createLinkPacket env st, st.socketfds ≠ [] →
      (lstate.head.length.toNat : Int) = 14 + 40 * st.memList.size

/-- A list without an end does not fit any buffer. -/
theorem FloodFits.terminated {env : Env} {st : Proxy} {head : Addr}
    (hhead : st.memList.head = some head) (hne : st.socketfds ≠ []) (h : FloodFits env st) :
    Terminated st := by
  obtain ⟨⟨fuel, st', hsend⟩, _⟩ := h
  simp only [sendPackets, createLinkPacket, hhead] at hsend
  obtain ⟨bytes, hbytes, _⟩ := sendLoop_some (fun h => hne (List.reverse_eq_nil_iff.mp h)) hsend
  unfold Terminated
  rw [hhead]
  exact sendBytes_list hbytes

/-- `htonLinkstate` stays in `buf` up to 56 links, `send` as long as the length field allows it. -/
theorem sendPackets_isSome_iff {env : Env} {st : Proxy} {cells : Cells} {head : Addr} {n : Nat}
    (hlist : NodeList st.heap st.memList.head cells) (hhead : st.memList.head = some head)
    (hn : st.memList.size = n) (hne : st.socketfds ≠ []) :
    (∃ fuel st', sendPackets env fuel st = some st') ↔
      18 + 36 * cells.length ≤ 2052 ∧ (14 + 40 * n) % 2 ^ 16 + 4 ≤ 2052 := by
  have hlist' : NodeList st.heap (floodPacket env n head).list cells := by rwa [hhead] at hlist
  have hrev : st.socketfds.reverse ≠ [] := fun h => hne (List.reverse_eq_nil_iff.mp h)
  have hpkt : (env.stackBuf maxPktLen).length = 2052 := length_stackBuf env maxPktLen
  have hlength : (floodPacket env n head).head.length.toNat = (14 + 40 * n) % 2 ^ 16 :=
    BitVec.toNat_ofNat _ _
  have hbytes : (∃ fuel bytes, sendBytes env fuel (floodPacket env n head)
      (env.stackBuf maxPktLen) st = some bytes) ↔ _ := sendBytes_isSome_iff hlist'
  rw [hpkt, hlength] at hbytes
  rw [← hbytes]
  simp only [sendPackets, createLinkPacket_eq env hhead hn]
  constructor
  · intro h
    obtain ⟨fuel, st', hsend⟩ := h
    obtain ⟨bytes, hbytes, _⟩ := sendLoop_some hrev hsend
    exact ⟨fuel, bytes, hbytes⟩
  · intro h
    obtain ⟨fuel, bytes, hbytes⟩ := h
    exact ⟨fuel, _, sendLoop_eq _ hbytes⟩

theorem floodFits_iff {env : Env} {st : Proxy} (hc : Counting st) :
    FloodFits env st ↔
      st.memList.head = none ∨ st.socketfds = [] ∨ (Terminated st ∧ st.memList.size ≤ 50) := by
  cases hhead : st.memList.head with
  | none => simp [FloodFits, sendPackets, createLinkPacket, hhead]
  | some head =>
    by_cases hnil : st.socketfds = []
    · simp [FloodFits, sendPackets, createLinkPacket, hhead, hnil, sendLoop]
    · by_cases hterm : Terminated st
      · obtain ⟨cells, hlist⟩ := hterm
        have hle := hc cells hlist
        have hpos : 0 < cells.length := by
          refine List.length_pos_of_ne_nil fun hnil => ?_
          rw [hnil, hhead] at hlist
          cases hlist
        obtain ⟨n, hn⟩ := Int.eq_ofNat_of_zero_le (by omega : 0 ≤ st.memList.size)
        have hlength : (floodPacket env n head).head.length.toNat = (14 + 40 * n) % 2 ^ 16 :=
          BitVec.toNat_ofNat _ _
        have hterm : Terminated st := ⟨cells, hlist⟩
        rw [FloodFits, sendPackets_isSome_iff hlist hhead hn hnil, createLinkPacket_eq env hhead hn]
        simp only [Option.mem_some_iff, forall_eq', hnil, ne_eq, not_false_eq_true, forall_const,
          hlength, hn, reduceCtorEq, false_or, hterm, true_and]
        constructor
        · intro h
          omega
        · intro h
          have hmod : (14 + 40 * n) % 2 ^ 16 = 14 + 40 * n := Nat.mod_eq_of_lt (by omega)
          rw [hmod]
          omega
      · simp only [hnil, hterm, reduceCtorEq, false_and, or_self, iff_false]
        exact fun h => hterm (h.terminated hhead hnil)

/-- In every state an operation of a run goes through, whether it ends or not, the flooded packet
fits its buffer exactly if nothing is sent or the list ends and the size counter is at most 50. -/
theorem run_floodFits_iff {env : Env} {tr : List (Step Proxy KeyOp)} {st : Proxy}
    (hr : KeyRun env tr st) {op : KeyOp} {s : Proxy} (hs : op.GoesThrough env st s) :
    FloodFits env s ↔
      s.memList.head = none ∨ s.socketfds = [] ∨ (Terminated s ∧ s.memList.size ≤ 50) :=
  floodFits_iff (op.goesThrough_counting hr.covered hs)

/-- The packet of `host k` to `host 1`, whose MAC address it does not know. -/
def greeting (k : U8) : Buf :=
  wireBytes { type := pktLinkstate, length := 50 } 1 (host k)
    [linkTo (host k) { host 1 with macaddr := Mac.zero }]

/-- The hosts `2 .. n + 1` greet, each over its own socket. -/
def greetings (n : Nat) : List KeyOp :=
  (List.range n).map fun k =>
    .packet (hostEnv 1).uninit (k + 4 : Nat) 0 (greeting (BitVec.ofNat 8 (k + 2)))

/-- Fifty-one neighbours: `send` is told to read 2058 bytes of `buf`. -/
theorem fifty_one_links_overflow : ∃ env tr st, KeyRun env tr st ∧ ¬ FloodFits env st := by
  obtain ⟨tr, st, hr, hsize, hhead, hsock⟩ := exists_keyRun (hostEnv 1) 60 (greetings 51)
    (p := fun r => r.2.memList.size = 51 ∧ r.2.memList.head ≠ none ∧ r.2.socketfds ≠ [])
    (by decide +kernel)
  refine ⟨hostEnv 1, tr, st, hr, fun h => ?_⟩
  rcases (floodFits_iff hr.covered.counting).mp h with h | h | ⟨_, h⟩
  · exact hhead h
  · exact hsock h
  · rw [hsize] at h
    omega

/-- Three neighbours fit. A list with this count that `add_members` is caught in does not: `host 2`
connects and then tells of `host 3`, so the link `1 → 2` is stored a second time. -/
theorem three_links_fit_unless_caught :
    (∃ tr st op s, KeyRun (hostEnv 1) tr st ∧ KeyOp.GoesThrough (hostEnv 1) st op s ∧
      s.memList.size = 3 ∧ FloodFits (hostEnv 1) s) ∧
    ∃ tr st op s, KeyRun (hostEnv 1) tr st ∧ KeyOp.GoesThrough (hostEnv 1) st op s ∧
      s.memList.size = 3 ∧ ¬ FloodFits (hostEnv 1) s := by
  constructor
  · obtain ⟨tr, st, hr, hsize⟩ := exists_keyRun (hostEnv 1) 9 (greetings 3)
      (p := fun r => r.2.memList.size = 3) (by decide +kernel)
    obtain ⟨cells, hlist, _⟩ := hr.covered
    have hs : KeyOp.GoesThrough (hostEnv 1) st (.sweep 0 15) st := ⟨0, 0, List.mem_cons_self⟩
    refine ⟨tr, st, _, st, hr, hs, hsize, (run_floodFits_iff hr hs).mpr (.inr (.inr ⟨⟨cells, hlist⟩, ?_⟩))⟩
    rw [hsize]
    decide
  · let op : KeyOp := .packet (hostEnv 1).uninit 4 0
      (wireBytes { type := pktLinkstate, length := 50 } 1 (host 2) [linkTo (host 2) (host 3)])
    obtain ⟨tr, st, hr, s, hs, hsize, hhead, hsock, hterm⟩ := exists_keyRun (hostEnv 1) 9 (greetings 1)
      (p := fun r => ∃ s ∈ op.stages (hostEnv 1) 9 2 r.2, s.memList.size = 3 ∧
        s.memList.head ≠ none ∧ s.socketfds ≠ [] ∧ ¬ Terminated s) (by decide +kernel)
    refine ⟨tr, st, op, s, hr, ⟨9, 2, hs⟩, hsize, fun h => ?_⟩
    rcases (run_floodFits_iff hr ⟨9, 2, hs⟩).mp h with h | h | h
    · exact hhead h
    · exact hsock h
    · exact hterm h.1

end Cs352Proxy
