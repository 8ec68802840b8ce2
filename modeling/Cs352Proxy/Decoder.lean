import Cs352Proxy.Handle
import Cs352Proxy.RoundTrip

/-!
# Decoder

What `ntohLinkstate` does on any buffer. The number of nodes comes from the length field alone, and
only the first node's link is set.

* `ntohLinkstate_some`, `ntohLinkstate_room`: decoding is defined exactly if the prefix and the nodes
  that the length field stands for lie in the buffer.
* `trustsReceived_iff`: when only received bytes are read and decoded.
* `properList_iff`: when the decoded list is null-terminated whatever `malloc` returned.
-/

namespace Cs352Proxy

open Base

/-! ## What is read -/

section Reads

variable {e : Endian} {buf : Buf}

theorem readU16_some {off : Nat} {x : U16} (h : readU16 e buf off = some x) :
    off + 2 ≤ buf.length := by
  simp only [readU16, Option.bind_eq_bind, Option.bind_eq_some_iff] at h
  obtain ⟨bs, hbs, _⟩ := h
  exact slice_some hbs

theorem readU64_some {off : Nat} {x : U64} (h : readU64 e buf off = some x) :
    off + 8 ≤ buf.length := by
  simp only [readU64, Option.bind_eq_bind, Option.bind_eq_some_iff] at h
  obtain ⟨bs, hbs, _⟩ := h
  exact slice_some hbs

theorem ntohProxyInfo_some {off : Nat} {p : ProxyInfo} (h : ntohProxyInfo e buf off = some p) :
    off + 12 ≤ buf.length := by
  simp only [ntohProxyInfo, readMac, Option.bind_eq_bind, Option.bind_eq_some_iff] at h
  obtain ⟨_, _, _, _, _, ⟨bs, hbs, _⟩, _⟩ := h
  have hfit := slice_some hbs
  omega

theorem ntohNode_some {i : Nat} {l : Link} (h : ntohNode e buf i = some l) :
    18 + 36 * (i + 1) ≤ buf.length := by
  simp only [ntohNode, Option.bind_eq_bind, Option.bind_eq_some_iff] at h
  obtain ⟨_, _, _, _, _, _, _, hID, _⟩ := h
  have hfit := readU64_some hID
  omega

theorem ntohNodes_some {u : Uninit} (n : Nat) :
    ∀ {i : Nat} {list lsptr : Ptr} {heap : List LinkstateNode} {r : Ptr × List LinkstateNode},
      ntohNodes e u buf n i list lsptr heap = some r → 18 + 36 * i ≤ buf.length →
        18 + 36 * (i + n) ≤ buf.length := by
  induction n with
  | zero => intro i list lsptr heap r _ hi; exact hi
  | succ n ih =>
    intro i list lsptr heap r h _
    simp only [ntohNodes, Option.bind_eq_bind, Option.bind_eq_some_iff] at h
    obtain ⟨fields, hnode, h⟩ := h
    have hone := ntohNode_some hnode
    have hsucc : i + (n + 1) = i + 1 + n := by omega
    rw [hsucc]
    split at h
    · exact ih h hone
    · obtain ⟨last, _, h⟩ := Option.bind_eq_some_iff.mp h
      exact ih h hone

theorem readU16_append_left {off : Nat} (rest : Buf) (hfit : off + 2 ≤ buf.length) :
    readU16 e (buf ++ rest) off = readU16 e buf off := by
  rw [readU16, readU16, slice_append_left buf rest hfit]

variable {u : Uninit} {heap : List LinkstateNode} {length : U16}

/-- A buffer that was decoded holds the prefix and all the nodes. -/
theorem ntohLinkstate_some {r : LinkstatePkt × List LinkstateNode}
    (hlength : readU16 e buf 2 = some length) (h : ntohLinkstate e u heap buf = some r) :
    18 + 36 * ((length.toNat - 14) / 36) ≤ buf.length := by
  simp only [ntohLinkstate, hlength, Option.bind_eq_bind, Option.bind_some,
    Option.bind_eq_some_iff] at h
  obtain ⟨_, _, _, _, _, hsource, _, hnodes, _⟩ := h
  have hprefix := ntohProxyInfo_some hsource
  have hfit := ntohNodes_some _ hnodes (by omega)
  rw [numNodes_toNat] at hfit
  omega

/-- A buffer that holds the prefix and all the nodes is decoded, and what is behind these does not
matter. -/
theorem ntohLinkstate_room (e : Endian) (u : Uninit) (heap : List LinkstateNode)
    (hlength : readU16 e buf 2 = some length)
    (hfit : 18 + 36 * ((length.toNat - 14) / 36) ≤ buf.length) :
    ∃ pkt ls, ls.length = (length.toNat - 14) / 36 ∧
      pkt.list = (if ls = [] then u.list heap.length else some heap.length) ∧
      ∀ rest, ntohLinkstate e u heap (buf ++ rest) =
        some (pkt, heap ++ linkNodes heap.length ls (lastNext u heap.length ls.length)) := by
  obtain ⟨head, nn, source, ls, hlen, hwire⟩ := exists_wireBytes _ hfit
  have hsplit : ∀ rest, buf ++ rest = wireBytes head nn source ls ++
      (buf.drop (18 + 36 * ((length.toNat - 14) / 36)) ++ rest) := by
    intro rest
    rw [hwire, ← List.append_assoc, List.take_append_drop]
  have hhead : head.length = length := by
    have hread := readU16_wireBytes e head nn source ls
      (buf.drop (18 + 36 * ((length.toNat - 14) / 36)) ++ [])
    rw [← hsplit, List.append_nil, hlength] at hread
    exact (Option.some.inj hread).symm
  have hcount : (head.length.toNat - 14) / 36 = ls.length := by rw [hhead, hlen]
  refine ⟨{ head, numNeighbors := nn, source,
            list := if ls = [] then u.list heap.length else some heap.length }, ls, hlen, rfl, ?_⟩
  intro rest
  rw [hsplit]
  by_cases hls : ls = []
  · subst hls
    rw [wireBytes, List.flatMap_nil, List.append_nil, ntohLinkstate_prefix, hcount]
    simp [ntohNodes, linkNodes]
  · rw [ntohLinkstate_eq e u heap head nn source hls hcount, if_neg hls]

theorem ntohLinkstate_append_left {r : LinkstatePkt × List LinkstateNode} (rest : Buf)
    (h : ntohLinkstate e u heap buf = some r) : ntohLinkstate e u heap (buf ++ rest) = some r := by
  have hread : ∃ length, readU16 e buf 2 = some length := by
    have hfirst := h
    simp only [ntohLinkstate, Option.bind_eq_bind, Option.bind_eq_some_iff] at hfirst
    obtain ⟨length, hlength, _⟩ := hfirst
    exact ⟨length, hlength⟩
  obtain ⟨length, hlength⟩ := hread
  obtain ⟨pkt, ls, _, _, hroom⟩ := ntohLinkstate_room e u heap hlength (ntohLinkstate_some hlength h)
  have hnil := hroom []
  rw [List.append_nil, h] at hnil
  rw [hroom rest, hnil]

end Reads

/-! ## Received bytes -/

/-- The round's reads of the packet all succeed on the received bytes alone: none of them is behind
these. -/
def ReadsReceived (env : Env) (heap : List LinkstateNode) (bytes : Buf) : Prop :=
  readU16 env.endian bytes 0 = some pktLinkstate ∧
    ∃ r, ntohLinkstate env.endian env.uninit heap bytes = some r

/-- Only received bytes are read, and a packet that claims more of them gives no links. -/
def TrustsReceived (env : Env) (heap : List LinkstateNode) (bytes : Buf) : Prop :=
  ReadsReceived env heap bytes ∧
    ∀ (length : U16) (pkt : LinkstatePkt) (heap' : List LinkstateNode),
      readU16 env.endian (recvBuf bytes) 2 = some length → bytes.length < 4 + length.toNat →
      ntohLinkstate env.endian env.uninit heap (recvBuf bytes) = some (pkt, heap') → heap' = heap

/-- What the decoder finds in the received bytes it finds in the receive buffer. -/
theorem ReadsReceived.decoded {env : Env} {heap : List LinkstateNode} {bytes : Buf}
    (h : ReadsReceived env heap bytes) :
    ntohLinkstate env.endian env.uninit heap (recvBuf bytes) =
      ntohLinkstate env.endian env.uninit heap bytes := by
  obtain ⟨_, r, hr⟩ := h
  rw [hr]
  exact ntohLinkstate_append_left _ hr

theorem readsReceived_iff (env : Env) (heap : List LinkstateNode) {bytes : Buf} {length : U16}
    (htype : readU16 env.endian (recvBuf bytes) 0 = some pktLinkstate)
    (hlength : readU16 env.endian (recvBuf bytes) 2 = some length) :
    ReadsReceived env heap bytes ↔ 18 + 36 * ((length.toNat - 14) / 36) ≤ bytes.length := by
  have hread : ∀ off, off + 2 ≤ bytes.length →
      readU16 env.endian bytes off = readU16 env.endian (recvBuf bytes) off :=
    fun off hoff => (readU16_append_left _ hoff).symm
  constructor
  · intro h
    obtain ⟨_, r, hr⟩ := h
    have hfirst := hr
    simp only [ntohLinkstate, Option.bind_eq_bind, Option.bind_eq_some_iff] at hfirst
    obtain ⟨length', hlength', _⟩ := hfirst
    have hsame := hread 2 (readU16_some hlength')
    rw [hlength', hlength] at hsame
    cases hsame
    exact ntohLinkstate_some hlength' hr
  · intro hfit
    have hlength' : readU16 env.endian bytes 2 = some length := by rw [hread 2 (by omega), hlength]
    obtain ⟨pkt, ls, _, _, hroom⟩ := ntohLinkstate_room env.endian env.uninit heap hlength' hfit
    have hnil := hroom []
    rw [List.append_nil] at hnil
    exact ⟨by rw [hread 0 (by omega), htype], _, hnil⟩

/-- Exactly the packets that were received whole, and those without links, are handled safely. -/
theorem trustsReceived_iff (env : Env) (heap : List LinkstateNode) {bytes : Buf} {length : U16}
    (htype : readU16 env.endian (recvBuf bytes) 0 = some pktLinkstate)
    (hlength : readU16 env.endian (recvBuf bytes) 2 = some length) :
    TrustsReceived env heap bytes ↔
      18 ≤ bytes.length ∧ (length.toNat < 50 ∨ 4 + length.toNat ≤ bytes.length) := by
  have hreads := readsReceived_iff env heap htype hlength
  constructor
  · intro h
    obtain ⟨hreceived, hshort⟩ := h
    have hfit := hreads.mp hreceived
    refine ⟨by omega, ?_⟩
    by_cases hclaims : bytes.length < 4 + length.toNat
    · left
      have hdecoded := hreceived.decoded
      obtain ⟨_, ⟨pkt, heap'⟩, hr⟩ := hreceived
      rw [hr] at hdecoded
      have hcount := ntohLinkstate_length env.endian hlength hdecoded
      rw [hshort length pkt heap' hlength hclaims hdecoded] at hcount
      omega
    · right
      omega
  · intro hcond
    refine ⟨hreads.mpr (by omega), ?_⟩
    intro length' pkt heap' hlength' hclaims hdecode
    rw [hlength] at hlength'
    cases hlength'
    have hfit : 18 + 36 * ((length.toNat - 14) / 36) ≤ (recvBuf bytes).length := by
      rw [recvBuf, List.length_append]
      omega
    obtain ⟨pkt', ls, hlen, _, hroom⟩ := ntohLinkstate_room env.endian env.uninit heap hlength hfit
    have hnil := hroom []
    have hls : ls = [] := List.length_eq_zero_iff.mp (by omega)
    rw [List.append_nil, hdecode, hls] at hnil
    cases hnil
    exact List.append_nil heap

/-- A received packet with one link claims 65535 bytes: the decoder leaves the receive buffer. -/
theorem length_field_is_trusted : ∃ env heap bytes length, 1 ≤ bytes.length ∧
    bytes.length ≤ maxPktLen ∧ readU16 env.endian (recvBuf bytes) 0 = some pktLinkstate ∧
    readU16 env.endian (recvBuf bytes) 2 = some length ∧ ¬ TrustsReceived env heap bytes := by
  let bytes := wireBytes { type := pktLinkstate, length := 65535 } 1 (host 2) [linkTo (host 2) (host 1)]
  have hlength : readU16 .little (recvBuf bytes) 2 = some 65535 := by decide +kernel
  refine ⟨hostEnv 1, [], bytes, 65535, by decide, by decide, by decide +kernel, hlength, fun h => ?_⟩
  obtain ⟨⟨_, r, hr⟩, _⟩ := h
  have hfit := ntohLinkstate_some (by decide +kernel : readU16 .little bytes 2 = some 65535) hr
  revert hfit
  decide

/-- A client's first packet, received whole. -/
theorem whole_packet_is_safe : TrustsReceived (hostEnv 1) []
    (wireBytes { type := pktLinkstate, length := 50 } 1 (host 2) [linkTo (host 2) (host 1)]) :=
  (trustsReceived_iff (hostEnv 1) [] (by decide +kernel)
    (by decide +kernel : readU16 .little _ 2 = some 50)).mpr (by decide)

/-! ## The decoded list -/

/-- Whatever fresh memory holds, decoding gives a null-terminated list of `k` new nodes. -/
def ProperList (e : Endian) (buf : Buf) (k : Nat) : Prop :=
  ∀ (u : Uninit) (heap : List LinkstateNode), ∃ pkt heap' cells,
    ntohLinkstate e u heap buf = some (pkt, heap') ∧ NodeList heap' pkt.list cells ∧
    cells.length = k ∧ ∀ x ∈ cells, heap.length ≤ x.1

/-- Fresh memory in which every pointer leads to the node at address `0`. -/
def wildMemory : Uninit :=
  { node := fun _ => { linkTo (host 0) (host 0) with next := some 0 }
    list := fun _ => some 0
    stack := fun _ => 0 }

theorem ProperList.eq_one {e : Endian} {buf : Buf} {length : U16}
    (hlength : readU16 e buf 2 = some length) (h : ProperList e buf ((length.toNat - 14) / 36)) :
    (length.toNat - 14) / 36 = 1 := by
  obtain ⟨pkt, heap', cells, hdecode, hlist, hcells, _⟩ := h wildMemory []
  obtain ⟨pkt', ls, hlen, hptr, hroom⟩ :=
    ntohLinkstate_room e wildMemory [] hlength (ntohLinkstate_some hlength hdecode)
  have hnil := hroom []
  rw [List.append_nil, hdecode] at hnil
  cases hnil
  by_cases hls : ls = []
  · -- `pkt->list` was never set
    have hnone : cells = [] := List.length_eq_zero_iff.mp (by rw [hcells, ← hlen, hls]; rfl)
    subst hnone
    rw [if_pos hls] at hptr
    have hnull : pkt.list = none := hlist
    rw [hnull] at hptr
    cases hptr
  · rw [if_neg hls] at hptr
    have hseg := seg_linkNodes ([] : List LinkstateNode) hls (lastNext wildMemory 0 ls.length)
    rw [hptr] at hlist
    have hend : none = lastNext wildMemory 0 ls.length :=
      hlist.same_end hseg (by rw [length_cellsAt, length_linkNodes, hcells, hlen])
    have hpos : ls.length ≠ 0 := fun h0 => hls (List.length_eq_zero_iff.mp h0)
    have hone : ls.length ≤ 1 := by
      by_contra hgt
      rw [lastNext, if_neg hgt] at hend
      cases hend
    omega

/-- The decoded list is proper exactly if it has one node. -/
theorem properList_iff (e : Endian) {buf : Buf} {length : U16} (hlength : readU16 e buf 2 = some length)
    (hbuf : 4 + length.toNat ≤ buf.length) :
    ProperList e buf ((length.toNat - 14) / 36) ↔ 50 ≤ length.toNat ∧ length.toNat < 86 := by
  constructor
  · intro h
    have hone := h.eq_one hlength
    omega
  · intro hcond u heap
    obtain ⟨pkt, ls, hlen, hptr, hroom⟩ := ntohLinkstate_room e u heap hlength (by omega)
    have hone : ls.length = 1 := by omega
    have hls : ls ≠ [] := by
      intro hnil
      rw [hnil] at hone
      cases hone
    have hnil := hroom []
    have hlast : lastNext u heap.length ls.length = none := if_pos (by omega)
    rw [List.append_nil, hlast] at hnil
    rw [if_neg hls] at hptr
    refine ⟨pkt, _, _, hnil, by rw [hptr]; exact seg_linkNodes heap hls none, ?_, le_of_mem_cellsAt⟩
    rw [length_cellsAt, length_linkNodes, hlen]

/-- A packet of two links, received whole: nothing sets the second node's `next`. -/
theorem second_next_is_unset : ∃ e buf length, readU16 e buf 2 = some length ∧
    4 + length.toNat ≤ buf.length ∧ ¬ ProperList e buf ((length.toNat - 14) / 36) := by
  have hlength : readU16 .little (wireBytes { type := pktLinkstate, length := 86 } 2 (host 2)
      [linkTo (host 2) (host 1), linkTo (host 2) (host 3)]) 2 = some 86 := by decide +kernel
  refine ⟨.little, _, 86, hlength, by decide, fun h => ?_⟩
  have hone := h.eq_one hlength
  revert hone
  decide

/-- A packet of one link with three bytes to spare. -/
theorem one_link_is_proper : ProperList .little
    (wireBytes { type := pktLinkstate, length := 53 } 1 (host 2) [linkTo (host 2) (host 1)] ++ [0, 0, 0])
    1 := by
  have hlength : readU16 .little (wireBytes { type := pktLinkstate, length := 53 } 1 (host 2)
      [linkTo (host 2) (host 1)] ++ [0, 0, 0]) 2 = some 53 := by decide +kernel
  have hproper := (properList_iff .little hlength (by decide)).mpr (by decide)
  exact hproper

end Cs352Proxy
