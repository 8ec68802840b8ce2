import Cs352Proxy.Handle
import Cs352Proxy.RoundTrip

/-!
# Flood

Does a flooded membership list arrive? `create_link_packet` counts 40 bytes for a link, the size of
a `linkstate_node` without its pointer in memory, while 36 are sent and the decoder divides by 36.
So the receiver decodes `40 * n / 36` links, which is `n` up to `n = 8`.
-/

namespace Cs352Proxy

open Base

/-- One send of `sendPackets` and what the receiver makes of the bytes: the sender's identity, the
number of its links, and a node for each of them in order. -/
def FloodArrives (env : Env) (fuel : Nat) (buf : Buf) (st : Proxy) (links : List Link) (e : Endian)
    (u : Uninit) (heap : List LinkstateNode) : Prop :=
  ∃ lstate bytes pkt heap', createLinkPacket env st = some lstate ∧
    sendBytes env fuel lstate buf st = some bytes ∧
    ntohLinkstate e u heap bytes = some (pkt, heap') ∧ pkt.source = env.myProxyInfo ∧
    pkt.numNeighbors.toNat = links.length ∧ Decoded heap heap' pkt.list links

/-- The packet of a list with `n` links. -/
def floodPacket (env : Env) (n : Nat) (head : Addr) : LinkstatePkt :=
  { head := { type := pktLinkstate, length := BitVec.ofNat 16 (14 + 40 * n) }
    numNeighbors := BitVec.ofNat 16 n
    source := env.myProxyInfo
    list := some head }

theorem createLinkPacket_eq (env : Env) {st : Proxy} {head : Addr} {n : Nat}
    (hhead : st.memList.head = some head) (hsize : st.memList.size = n) :
    createLinkPacket env st = some (floodPacket env n head) := by
  have hlen : (CLayout.uint16.size + layoutProxyInfo.size +
      ((layoutLinkstateNode.size : Int) - CLayout.pointer.size) * n : Int) = ((14 + 40 * n : Nat) : Int) := by
    have h1 : CLayout.uint16.size = 2 := rfl
    have h2 : layoutProxyInfo.size = 12 := by decide
    have h3 : CLayout.pointer.size = 8 := rfl
    rw [h1, h2, sizeof_linkstateNode, h3]
    omega
  unfold createLinkPacket
  rw [hhead]
  simp only [hsize, hlen, BitVec.ofInt_natCast]
  rfl

@[simp] theorem length_stackBuf (env : Env) (n : Nat) : (env.stackBuf n).length = n := by
  simp [Env.stackBuf]

section Send

variable {env : Env} {fuel : Nat} {buf : Buf} {st : Proxy} {cells : Cells} {head : Addr}

/-- `send` reads from the start of what `htonLinkstate` left in `buf`. -/
theorem sendBytes_slice {lstate : LinkstatePkt} (hlist : NodeList st.heap lstate.list cells)
    (hfuel : cells.length < fuel) (hfit : 18 + 36 * cells.length ≤ buf.length) :
    sendBytes env fuel lstate buf st =
      slice (wireBytes lstate.head lstate.numNeighbors lstate.source cells.links ++
        buf.drop (18 + 36 * cells.length)) 0 (lstate.head.length.toNat + 4) := by
  have hheader : layoutPktHeader.size = 4 := by decide
  unfold sendBytes
  rw [htonLinkstate_eq env.endian hlist hfuel hfit, hheader, Option.bind_eq_bind, Option.bind_some]
  rfl

theorem sendBytes_some {lstate : LinkstatePkt} {bytes : Buf}
    (hlist : NodeList st.heap lstate.list cells)
    (h : sendBytes env fuel lstate buf st = some bytes) :
    cells.length < fuel ∧ 18 + 36 * cells.length ≤ buf.length ∧
      slice (wireBytes lstate.head lstate.numNeighbors lstate.source cells.links ++
        buf.drop (18 + 36 * cells.length)) 0 (lstate.head.length.toNat + 4) = some bytes := by
  have hsend := h
  simp only [sendBytes, Option.bind_eq_bind, Option.bind_eq_some_iff] at hsend
  obtain ⟨buf', henc, _⟩ := hsend
  obtain ⟨hfuel, hfit⟩ := htonLinkstate_some env.endian hlist henc
  rw [sendBytes_slice hlist hfuel hfit] at h
  exact ⟨hfuel, hfit, h⟩

theorem sendBytes_list {lstate : LinkstatePkt} {bytes : Buf}
    (h : sendBytes env fuel lstate buf st = some bytes) :
    ∃ cells, NodeList st.heap lstate.list cells := by
  simp only [sendBytes, htonLinkstate, Option.bind_eq_bind, Option.bind_eq_some_iff] at h
  obtain ⟨_, ⟨_, _, _, _, _, _, hnodes⟩, _⟩ := h
  exact htonNodes_list env.endian hnodes

theorem sendBytes_eq {lstate : LinkstatePkt} (hlist : NodeList st.heap lstate.list cells)
    (hfuel : cells.length < fuel) (hlen : 14 + 36 * cells.length ≤ lstate.head.length.toNat)
    (hbuf : lstate.head.length.toNat + 4 ≤ buf.length) :
    sendBytes env fuel lstate buf st =
      some (wireBytes lstate.head lstate.numNeighbors lstate.source cells.links ++
        (buf.drop (18 + 36 * cells.length)).take
          (lstate.head.length.toNat - (14 + 36 * cells.length))) := by
  have hwire := length_wireBytes lstate.head lstate.numNeighbors lstate.source cells.links
  rw [Cells.length_links] at hwire
  rw [sendBytes_slice hlist hfuel (by omega), slice, List.length_append, List.length_drop, hwire,
    if_pos (by omega), List.drop_zero, List.take_append, List.take_of_length_le (by omega), hwire]
  congr 3
  omega

/-- `htonLinkstate` and `send` stay in `buf`, each with its own count. -/
theorem sendBytes_isSome_iff {lstate : LinkstatePkt} (hlist : NodeList st.heap lstate.list cells) :
    (∃ fuel bytes, sendBytes env fuel lstate buf st = some bytes) ↔
      18 + 36 * cells.length ≤ buf.length ∧ lstate.head.length.toNat + 4 ≤ buf.length := by
  have hwire := length_wireBytes lstate.head lstate.numNeighbors lstate.source cells.links
  rw [Cells.length_links] at hwire
  constructor
  · intro h
    obtain ⟨fuel, bytes, hbytes⟩ := h
    obtain ⟨_, hfit, hslice⟩ := sendBytes_some hlist hbytes
    have hread := slice_some hslice
    rw [List.length_append, hwire, List.length_drop] at hread
    exact ⟨hfit, by omega⟩
  · intro h
    obtain ⟨hfit, hread⟩ := h
    refine ⟨cells.length + 1, ?_⟩
    rw [sendBytes_slice hlist (Nat.lt_succ_self _) hfit, slice, List.length_append, hwire,
      List.length_drop, if_pos (by omega)]
    exact ⟨_, rfl⟩

theorem sendLoop_eq {lstate : LinkstatePkt} {bytes : Buf} (l : List ProxySocketfd)
    (h : sendBytes env fuel lstate (env.stackBuf maxPktLen) st = some bytes) :
    sendLoop env fuel lstate l st =
      some { st with trace := (l.map fun s => .send s.sockFd bytes).reverse ++ st.trace } := by
  induction l generalizing st with
  | nil => rfl
  | cons s l ih =>
    have hemit : sendBytes env fuel lstate (env.stackBuf maxPktLen) (st.emit (.send s.sockFd bytes)) =
        some bytes := h
    rw [sendLoop, h, Option.bind_eq_bind, Option.bind_some, ih hemit]
    simp [Proxy.emit]

theorem sendLoop_some {lstate : LinkstatePkt} {l : List ProxySocketfd} {st' : Proxy} (hne : l ≠ [])
    (h : sendLoop env fuel lstate l st = some st') :
    ∃ bytes, sendBytes env fuel lstate (env.stackBuf maxPktLen) st = some bytes ∧
      st' = { st with trace := (l.map fun s => .send s.sockFd bytes).reverse ++ st.trace } := by
  cases l with
  | nil => exact absurd rfl hne
  | cons s l =>
    have hfirst := h
    simp only [sendLoop, Option.bind_eq_bind, Option.bind_eq_some_iff] at hfirst
    obtain ⟨bytes, hbytes, _⟩ := hfirst
    rw [sendLoop_eq _ hbytes] at h
    exact ⟨bytes, hbytes, (Option.some.inj h).symm⟩

theorem readU16_slice (e : Endian) {head : PktHeader} {nn : U16} {source : ProxyInfo}
    {links : List Link} {rest bytes : Buf} {k : Nat}
    (h : slice (wireBytes head nn source links ++ rest) 0 (k + 4) = some bytes) :
    readU16 e bytes 2 = some head.length := by
  simp only [slice] at h
  split at h
  · have hbytes := Option.some.inj h
    subst hbytes
    have hsplit : wireBytes head nn source links ++ rest =
        beBytes 2 head.type.toNat ++ (beBytes 2 head.length.toNat ++
          (beBytes 2 nn.toNat ++ (proxyBytes source ++ (links.flatMap linkBytes ++ rest)))) := by
      simp [wireBytes, prefixBytes, headerBytes]
    rw [hsplit, List.drop_zero, ← List.append_assoc, List.take_append, List.take_of_length_le
      (by simp), List.append_assoc]
    exact readU16_eq e head.length 2 (beBytes 2 head.type.toNat) _ (by simp)
  · cases h

end Send

/-- The flooded list arrives exactly up to eight links. -/
theorem floodArrives_iff {env : Env} {st : Proxy} {cells : Cells}
    (hlist : NodeList st.heap st.memList.head cells) (hne : cells ≠ [])
    (hsize : st.memList.size = cells.length) {fuel : Nat} (hfuel : cells.length < fuel) {buf : Buf}
    (hbuf : buf.length = maxPktLen) (e : Endian) (u : Uninit) (heap : List LinkstateNode) :
    FloodArrives env fuel buf st cells.links e u heap ↔ cells.length ≤ 8 := by
  obtain ⟨head, hhead⟩ : ∃ head, st.memList.head = some head := by
    cases cells with
    | nil => exact absurd rfl hne
    | cons x xs => exact ⟨x.1, hlist.1⟩
  have hlist' : NodeList st.heap (floodPacket env cells.length head).list cells := by
    rw [hhead] at hlist; exact hlist
  have hlen : ∀ n, n ≤ 56 → (BitVec.ofNat 16 (14 + 40 * n)).toNat = 14 + 40 * n := by
    intro n hn
    rw [BitVec.toNat_ofNat, Nat.mod_eq_of_lt (by omega)]
  have hbuf' : buf.length = 2052 := hbuf
  unfold FloodArrives
  rw [createLinkPacket_eq env hhead hsize]
  constructor
  · intro h
    obtain ⟨lstate, bytes, pkt, heap', hcreate, hsend, hdecode, _, _, nodes, q, hheap, hnodes, _⟩ := h
    cases hcreate
    obtain ⟨_, hfit, hslice⟩ := sendBytes_some hlist' hsend
    have hcount := ntohLinkstate_length e (readU16_slice e hslice) hdecode
    have hnlen : nodes.length = cells.length := by
      have h := congrArg List.length hnodes
      simpa using h
    have hlength : (floodPacket env cells.length head).head.length.toNat = 14 + 40 * cells.length :=
      hlen _ (by omega)
    rw [hheap, List.length_append, hnlen, hlength] at hcount
    omega
  · intro hle
    have hlength : (floodPacket env cells.length head).head.length.toNat = 14 + 40 * cells.length :=
      hlen _ (by omega)
    have hcells := Cells.length_links cells
    have hlinks : cells.links ≠ [] := by simpa [Cells.links] using hne
    refine ⟨_, _, _, _, rfl, sendBytes_eq hlist' hfuel (by omega) (by omega),
      ntohLinkstate_eq e u heap _ _ _ hlinks (by omega) _, rfl, ?_, decoded_linkNodes heap hlinks _⟩
    show (BitVec.ofNat 16 cells.length).toNat = cells.links.length
    rw [BitVec.toNat_ofNat, Nat.mod_eq_of_lt (by omega), hcells]

/-- Links from `host 1` to the hosts `2 .. n + 1`. -/
def star (n : Nat) : List Link :=
  (List.range n).map fun k => linkTo (host 1) (host (BitVec.ofNat 8 (k + 2)))

/-- Nine links are sent in a packet of 378 bytes and decoded as ten. -/
theorem nine_links_become_ten : ∃ (env : Env) (st : Proxy) (cells : Cells) (fuel : Nat) (buf : Buf)
    (e : Endian) (u : Uninit) (heap : List LinkstateNode),
    NodeList st.heap st.memList.head cells ∧ cells ≠ [] ∧ st.memList.size = cells.length ∧
    cells.length < fuel ∧ buf.length = maxPktLen ∧
    (∃ lstate ∈ createLinkPacket env st, 4 + lstate.head.length.toNat ≤ maxPktLen) ∧
    ¬ FloodArrives env fuel buf st cells.links e u heap := by
  refine ⟨hostEnv 1, storing (star 9), _, 10, List.replicate 2052 0, .little, (hostEnv 2).uninit, [],
    storing_list (by decide), by decide, by decide, by decide, List.length_replicate, by decide, ?_⟩
  intro h
  obtain ⟨lstate, bytes, pkt, heap', hcreate, hsend, hdecode, _, _, nodes, q, hheap, hnodes, _⟩ := h
  have hten : ((createLinkPacket (hostEnv 1) (storing (star 9))).bind fun lstate =>
      (sendBytes (hostEnv 1) 10 lstate (List.replicate 2052 0) (storing (star 9))).bind fun bytes =>
        (ntohLinkstate .little (hostEnv 2).uninit [] bytes).map fun r => r.2.length) = some 10 := by
    decide +kernel
  have hnine := congrArg List.length hnodes
  rw [hcreate, Option.bind_some, hsend, Option.bind_some, hdecode, Option.map_some, hheap,
    List.nil_append] at hten
  rw [List.length_map, Option.some.inj hten] at hnine
  revert hnine
  decide

/-- Two links arrive at a host of the other byte order. -/
theorem two_links_arrive : FloodArrives (hostEnv 1) 3 (List.replicate 2052 255) (storing (star 2))
    (star 2) .big (hostEnv 2).uninit [] := by
  have h : FloodArrives (hostEnv 1) 3 (List.replicate 2052 255) (storing (star 2))
      (Cells.links (cellsAt 0 (linkNodes 0 (star 2) none))) .big (hostEnv 2).uninit [] :=
    (floodArrives_iff (storing_list (by decide)) (by decide) rfl (by decide) List.length_replicate
      .big (hostEnv 2).uninit []).mpr (by decide)
  exact h

end Cs352Proxy
