import Cs352Proxy.Walk
import Cs352Proxy.Wire

/-!
# RoundTrip

Decoding an encoded link-state packet gives its fields and links back, whatever the byte orders of
the two hosts and whatever the buffer held before. Encoding a decoded packet gives back the bytes it
was decoded from: every byte the decoder consumes is in one field.
-/

namespace Cs352Proxy

open Base

/-- `heap'` is `heap` with one new node for each link of `ls`, and the pointer `p` leads through
these nodes in order. -/
def Decoded (heap heap' : List LinkstateNode) (p : Ptr) (ls : List Link) : Prop :=
  ∃ nodes q, heap' = heap ++ nodes ∧ nodes.map (·.toLink) = ls ∧
    Seg LinkstateNode.next heap' p (cellsAt heap.length nodes) q

theorem decoded_linkNodes (heap : List LinkstateNode) {ls : List Link} (hls : ls ≠ []) (q : Ptr) :
    Decoded heap (heap ++ linkNodes heap.length ls q) (some heap.length) ls :=
  ⟨linkNodes heap.length ls q, q, rfl, map_toLink_linkNodes heap.length ls q,
    seg_linkNodes heap hls q⟩

/-- A proxy that stores the links `ls`. -/
def storing (ls : List Link) : Proxy :=
  { heap := linkNodes 0 ls none, memList := { head := some 0, size := ls.length }
    socketfds := [], trace := [] }

theorem storing_list {ls : List Link} (hls : ls ≠ []) :
    NodeList (storing ls).heap (storing ls).memList.head (cellsAt 0 (linkNodes 0 ls none)) :=
  seg_linkNodes [] hls none

/-- Encoding writes a packet with `n` links into the first `18 + 36 * n` bytes, and decoding the
buffer gives the packet back. -/
theorem ntohLinkstate_htonLinkstate (e e' : Endian) (u : Uninit) {heap : List LinkstateNode}
    {pkt : LinkstatePkt} {cells : Cells} (hlist : NodeList heap pkt.list cells) (hne : cells ≠ [])
    (hlen : pkt.head.length.toNat = 14 + 36 * cells.length) {fuel : Nat}
    (hfuel : cells.length < fuel) {buf : Buf} (hbuf : 18 + 36 * cells.length ≤ buf.length)
    (heap₂ : List LinkstateNode) :
    ∃ buf', htonLinkstate e fuel heap pkt buf = some buf' ∧
      (∀ i, 18 + 36 * cells.length ≤ i → buf'[i]? = buf[i]?) ∧
      ∃ pkt' heap', ntohLinkstate e' u heap₂ buf' = some (pkt', heap') ∧ pkt'.head = pkt.head ∧
        pkt'.numNeighbors = pkt.numNeighbors ∧ pkt'.source = pkt.source ∧
        Decoded heap₂ heap' pkt'.list cells.links := by
  have hlinks : cells.links ≠ [] := by simpa [Cells.links] using hne
  have hcount : (pkt.head.length.toNat - 14) / 36 = cells.links.length := by
    rw [hlen, Cells.length_links]
    omega
  have hwire := length_wireBytes pkt.head pkt.numNeighbors pkt.source cells.links
  rw [Cells.length_links] at hwire
  refine ⟨_, htonLinkstate_eq e hlist hfuel hbuf, ?_, _, _,
    ntohLinkstate_eq e' u heap₂ pkt.head pkt.numNeighbors pkt.source hlinks hcount _, rfl, rfl, rfl,
    decoded_linkNodes heap₂ hlinks _⟩
  intro i hi
  rw [← Cells.links, List.getElem?_append_right (by omega), hwire, List.getElem?_drop]
  congr 1
  omega

/-- A packet with two links, sent by a little-endian host and read by a big-endian one. -/
theorem two_links_round_trip :
    let heap : List LinkstateNode :=
      [{ linkTo (host 1) (host 2) with ID := 7, next := some 1 },
        { linkTo (host 2) (host 3) with linkweight := 4294967295, next := none }]
    let pkt : LinkstatePkt :=
      { head := { type := pktLinkstate, length := 86 }, numNeighbors := 2, source := host 1, list := some 0 }
    let buf : Buf := List.replicate 100 255
    ∃ buf', htonLinkstate .little 3 heap pkt buf = some buf' ∧
      (∀ i, 90 ≤ i → buf'[i]? = buf[i]?) ∧
      ∃ pkt' heap', ntohLinkstate .big (hostEnv 3).uninit [] buf' = some (pkt', heap') ∧
        pkt'.head = pkt.head ∧ pkt'.numNeighbors = pkt.numNeighbors ∧ pkt'.source = pkt.source ∧
        Decoded [] heap' pkt'.list (heap.map (·.toLink)) := by
  intro heap pkt buf
  have hlist : NodeList heap pkt.list
      [(0, { linkTo (host 1) (host 2) with ID := 7, next := some 1 }),
        (1, { linkTo (host 2) (host 3) with linkweight := 4294967295, next := none })] :=
    ⟨rfl, rfl, rfl, rfl, rfl⟩
  exact ntohLinkstate_htonLinkstate .little .big (hostEnv 3).uninit hlist (by simp) (by decide)
    (by decide) (by simp [buf]) []

/-! ## Encoding what was decoded -/

theorem Decoded.links_unique {heap heap' : List LinkstateNode} {p p' : Ptr} {ls ls' : List Link}
    (h : Decoded heap heap' p ls) (h' : Decoded heap heap' p' ls') : ls = ls' := by
  obtain ⟨nodes, _, hheap, hls, _⟩ := h
  obtain ⟨nodes', _, hheap', hls', _⟩ := h'
  rw [hheap, List.append_cancel_left_eq] at hheap'
  rw [← hls, ← hls', hheap']

/-- The links a length field stands for are the ones behind the prefix, whatever they are. -/
theorem ntohLinkstate_of_length (e : Endian) (u : Uninit) {buf : Buf} {length : U16}
    (hlength : readU16 e buf 2 = some length) (hmin : 50 ≤ length.toNat)
    (hbuf : 4 + length.toNat ≤ buf.length) (heap : List LinkstateNode) :
    ∃ pkt heap' ls, ntohLinkstate e u heap buf = some (pkt, heap') ∧
      Decoded heap heap' pkt.list ls ∧ ls.length = (length.toNat - 14) / 36 ∧
      wireBytes pkt.head pkt.numNeighbors pkt.source ls =
        buf.take (18 + 36 * ((length.toNat - 14) / 36)) := by
  obtain ⟨head, nn, source, ls, hlen, hwire⟩ :=
    exists_wireBytes ((length.toNat - 14) / 36) (by omega : _ ≤ buf.length)
  have hsplit : wireBytes head nn source ls ++ buf.drop (18 + 36 * ((length.toNat - 14) / 36)) = buf := by
    rw [hwire, List.take_append_drop]
  have hhead : head.length = length := by
    have hread := readU16_wireBytes e head nn source ls (buf.drop (18 + 36 * ((length.toNat - 14) / 36)))
    rw [hsplit, hlength] at hread
    exact (Option.some.inj hread).symm
  have hls : ls ≠ [] := by
    intro hnil
    rw [hnil, List.length_nil] at hlen
    omega
  have hdecode := ntohLinkstate_eq e u heap head nn source hls (by rw [hhead, hlen])
    (buf.drop (18 + 36 * ((length.toNat - 14) / 36)))
  rw [hsplit] at hdecode
  exact ⟨_, _, ls, hdecode, decoded_linkNodes heap hls _, hlen, hwire⟩

/-- `htonLinkstate` on `pkt` with any null-terminated list of the links `ls` writes `bytes` at the
front of any buffer that has room for them. -/
def Encodes (pkt : LinkstatePkt) (ls : List Link) (bytes : Buf) : Prop :=
  ∀ (e : Endian) (fuel : Nat) (heap : List LinkstateNode) (list : Ptr) (cells : Cells) (buf : Buf),
    NodeList heap list cells → cells.links = ls → cells.length < fuel → bytes.length ≤ buf.length →
    htonLinkstate e fuel heap { pkt with list } buf = some (bytes ++ buf.drop bytes.length)

theorem encodes_wireBytes (pkt : LinkstatePkt) (ls : List Link) :
    Encodes pkt ls (wireBytes pkt.head pkt.numNeighbors pkt.source ls) := by
  intro e fuel heap list cells buf hlist hlinks hfuel hfit
  have hlen := length_wireBytes pkt.head pkt.numNeighbors pkt.source ls
  rw [← hlinks, Cells.length_links] at hlen
  rw [← hlinks] at hfit ⊢
  rw [hlen] at hfit ⊢
  exact htonLinkstate_eq e hlist hfuel hfit

/-- Two packets that agree in everything but their list pointers. -/
def SameFields (pkt pkt' : LinkstatePkt) : Prop :=
  pkt.head = pkt'.head ∧ pkt.numNeighbors = pkt'.numNeighbors ∧ pkt.source = pkt'.source

/-- Encoding what was decoded from a buffer writes the bytes that were decoded, and any other buffer
that decodes to the same packet starts with them. -/
theorem htonLinkstate_ntohLinkstate (e : Endian) (u : Uninit) {buf : Buf} {length : U16}
    (hlength : readU16 e buf 2 = some length) (hmin : 50 ≤ length.toNat)
    (hbuf : 4 + length.toNat ≤ buf.length) (heap : List LinkstateNode) :
    ∃ pkt heap' ls, ntohLinkstate e u heap buf = some (pkt, heap') ∧
      Decoded heap heap' pkt.list ls ∧ ls.length = (length.toNat - 14) / 36 ∧
      Encodes pkt ls (buf.take (18 + 36 * ((length.toNat - 14) / 36))) ∧
      ∀ (e₂ : Endian) (u₂ : Uninit) (buf₂ : Buf) (length₂ : U16) (heap₂ heap₂' : List LinkstateNode)
        (pkt₂ : LinkstatePkt), readU16 e₂ buf₂ 2 = some length₂ → 50 ≤ length₂.toNat →
        4 + length₂.toNat ≤ buf₂.length → ntohLinkstate e₂ u₂ heap₂ buf₂ = some (pkt₂, heap₂') →
        SameFields pkt pkt₂ → Decoded heap₂ heap₂' pkt₂.list ls →
        buf₂.take (18 + 36 * ((length.toNat - 14) / 36)) =
          buf.take (18 + 36 * ((length.toNat - 14) / 36)) := by
  obtain ⟨pkt, heap', ls, hdecode, hls, hlen, hwire⟩ := ntohLinkstate_of_length e u hlength hmin hbuf heap
  refine ⟨pkt, heap', ls, hdecode, hls, hlen, ?_, ?_⟩
  · rw [← hwire]
    exact encodes_wireBytes pkt ls
  · intro e₂ u₂ buf₂ length₂ heap₂ heap₂' pkt₂ hlength₂ hmin₂ hbuf₂ hdecode₂ hsame hls₂
    obtain ⟨pkt', heap₃, ls₂, hdecode', hls', hlen₂, hwire₂⟩ :=
      ntohLinkstate_of_length e₂ u₂ hlength₂ hmin₂ hbuf₂ heap₂
    rw [hdecode₂] at hdecode'
    cases hdecode'
    rw [hls'.links_unique hls₂] at hlen₂ hwire₂
    obtain ⟨hhead, hnn, hsource⟩ := hsame
    rw [← hwire, ← hlen, hlen₂, ← hwire₂, hhead, hnn, hsource]

/-- A buffer of 60 bytes with a length field of 53 holds one link. -/
theorem odd_length_encodes_back : ∃ pkt heap' ls,
    ntohLinkstate .little (hostEnv 1).uninit [] ([0xAB, 0xAC, 0, 53] ++ List.replicate 56 7) =
      some (pkt, heap') ∧ Decoded [] heap' pkt.list ls ∧ ls.length = 1 ∧
    Encodes pkt ls ([0xAB, 0xAC, 0, 53] ++ List.replicate 50 7) := by
  have hlength : readU16 .little ([0xAB, 0xAC, 0, 53] ++ List.replicate 56 7) 2 = some 53 := by decide
  obtain ⟨pkt, heap', ls, hdecode, hls, hlen, hencodes, _⟩ :=
    htonLinkstate_ntohLinkstate .little (hostEnv 1).uninit hlength (by decide) (by decide) []
  exact ⟨pkt, heap', ls, hdecode, hls, hlen, hencodes⟩

end Cs352Proxy
