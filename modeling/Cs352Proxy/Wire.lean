import Cs352Proxy.Codec
import Cs352Proxy.Base.Chain

/-!
# Wire

What the link-state codec does, in terms of the bytes on the wire.

* `wireBytes`: the bytes of a link-state packet with the given header, neighbour count, source and
  links. `htonLinkstate_eq` says the encoder writes exactly these and leaves the rest of the
  buffer alone.
* `linkNodes`: the heap nodes of a list laid out one after the other. `ntohLinkstate_eq` says the
  decoder appends exactly these to the heap.
-/

namespace Cs352Proxy

open Base

def headerBytes (head : PktHeader) : Buf := beBytes 2 head.type.toNat ++ beBytes 2 head.length.toNat

def proxyBytes (p : ProxyInfo) : Buf :=
  beBytes 4 p.ip.toNat ++ beBytes 2 p.portno.toNat ++ p.macaddr.bytes

def linkBytes (l : Link) : Buf :=
  proxyBytes l.localInfo ++ proxyBytes l.remoteInfo ++ beBytes 4 l.linkweight.toNat ++
    beBytes 8 l.ID.toNat

def prefixBytes (head : PktHeader) (numNeighbors : U16) (source : ProxyInfo) : Buf :=
  headerBytes head ++ beBytes 2 numNeighbors.toNat ++ proxyBytes source

def wireBytes (head : PktHeader) (numNeighbors : U16) (source : ProxyInfo) (links : List Link) :
    Buf :=
  prefixBytes head numNeighbors source ++ links.flatMap linkBytes

@[simp] theorem length_headerBytes (head : PktHeader) : (headerBytes head).length = 4 := by
  simp [headerBytes]

@[simp] theorem length_proxyBytes (p : ProxyInfo) : (proxyBytes p).length = 12 := by
  simp [proxyBytes, p.macaddr.length_bytes]

@[simp] theorem length_linkBytes (l : Link) : (linkBytes l).length = 36 := by
  simp [linkBytes]

@[simp] theorem length_prefixBytes (head : PktHeader) (nn : U16) (source : ProxyInfo) :
    (prefixBytes head nn source).length = 18 := by
  simp [prefixBytes]

theorem length_linksBytes (ls : List Link) : (ls.flatMap linkBytes).length = 36 * ls.length := by
  induction ls with
  | nil => rfl
  | cons l ls ih =>
    rw [List.flatMap_cons, List.length_append, length_linkBytes, ih, List.length_cons]
    omega

theorem length_wireBytes (head : PktHeader) (nn : U16) (source : ProxyInfo) (ls : List Link) :
    (wireBytes head nn source ls).length = 18 + 36 * ls.length := by
  rw [wireBytes, List.length_append, length_prefixBytes, length_linksBytes]

/-! ### Every byte string of the right length is the bytes of something -/

theorem exists_headerBytes {bs : Buf} (h : bs.length = 4) : ∃ head, headerBytes head = bs := by
  refine ⟨{ type := BitVec.ofNat 16 (ofBeBytes (bs.take 2))
            length := BitVec.ofNat 16 (ofBeBytes (bs.drop 2)) }, ?_⟩
  rw [headerBytes, beBytes_ofNat_ofBeBytes rfl (by simp [h]), beBytes_ofNat_ofBeBytes rfl (by simp [h]),
    List.take_append_drop]

theorem exists_proxyBytes {bs : Buf} (h : bs.length = 12) : ∃ p, proxyBytes p = bs := by
  refine ⟨{ ip := BitVec.ofNat 32 (ofBeBytes (bs.take 4))
            portno := BitVec.ofNat 16 (ofBeBytes ((bs.drop 4).take 2))
            macaddr := ⟨(bs.drop 4).drop 2, by simp [h]⟩ }, ?_⟩
  rw [proxyBytes, beBytes_ofNat_ofBeBytes rfl (by simp [h]), beBytes_ofNat_ofBeBytes rfl (by simp [h]),
    List.append_assoc, List.take_append_drop, List.take_append_drop]

theorem exists_linkBytes {bs : Buf} (h : bs.length = 36) : ∃ l, linkBytes l = bs := by
  have hlocal : (bs.take 12).length = 12 := by simp [h]
  have hremote : ((bs.drop 12).take 12).length = 12 := by simp [h]
  obtain ⟨localInfo, hlocal⟩ := exists_proxyBytes hlocal
  obtain ⟨remoteInfo, hremote⟩ := exists_proxyBytes hremote
  refine ⟨{ localInfo, remoteInfo
            linkweight := BitVec.ofNat 32 (ofBeBytes (((bs.drop 12).drop 12).take 4))
            ID := BitVec.ofNat 64 (ofBeBytes (((bs.drop 12).drop 12).drop 4)) }, ?_⟩
  rw [linkBytes, beBytes_ofNat_ofBeBytes rfl (by simp [h]), beBytes_ofNat_ofBeBytes rfl (by simp [h]),
    hlocal, hremote, List.append_assoc, List.append_assoc, List.take_append_drop,
    List.take_append_drop, List.take_append_drop]

theorem exists_linksBytes (n : Nat) {bs : Buf} (h : bs.length = 36 * n) :
    ∃ ls : List Link, ls.length = n ∧ ls.flatMap linkBytes = bs := by
  induction n generalizing bs with
  | zero => exact ⟨[], rfl, (List.length_eq_zero_iff.mp h).symm⟩
  | succ n ih =>
    have hfirst : (bs.take 36).length = 36 := by rw [List.length_take, h]; omega
    have hrest : (bs.drop 36).length = 36 * n := by rw [List.length_drop, h]; omega
    obtain ⟨l, hl⟩ := exists_linkBytes hfirst
    obtain ⟨ls, hlen, hls⟩ := ih hrest
    exact ⟨l :: ls, by simp [hlen], by rw [List.flatMap_cons, hl, hls, List.take_append_drop]⟩

/-- A buffer with room for `n` links starts with the bytes of some packet with `n` links. -/
theorem exists_wireBytes (n : Nat) {buf : Buf} (h : 18 + 36 * n ≤ buf.length) :
    ∃ head nn source ls, ls.length = n ∧ wireBytes head nn source ls = buf.take (18 + 36 * n) := by
  have h4 : (buf.take 4).length = 4 := by simp; omega
  have h2 : ((buf.drop 4).take 2).length = 2 := by simp; omega
  have h12 : ((buf.drop 6).take 12).length = 12 := by simp; omega
  have hn : ((buf.drop 18).take (36 * n)).length = 36 * n := by simp; omega
  obtain ⟨head, hhead⟩ := exists_headerBytes h4
  obtain ⟨source, hsource⟩ := exists_proxyBytes h12
  obtain ⟨ls, hlen, hls⟩ := exists_linksBytes n hn
  refine ⟨head, BitVec.ofNat 16 (ofBeBytes ((buf.drop 4).take 2)), source, ls, hlen, ?_⟩
  have h6 : buf.take (4 + 2) = buf.take 4 ++ (buf.drop 4).take 2 := List.take_add
  have h18 : buf.take (6 + 12) = buf.take 6 ++ (buf.drop 6).take 12 := List.take_add
  rw [wireBytes, prefixBytes, hhead, beBytes_ofNat_ofBeBytes rfl h2, hsource, hls, List.take_add, h18, h6]

/-! ## Encoding -/

section Encode

variable (e : Endian)

theorem htonHeader_eq (head : PktHeader) (buf : Buf) (hfit : 4 ≤ buf.length) :
    htonHeader e head buf = some (headerBytes head ++ buf.drop 4) := by
  have h1 := memcpy_append 0 [] (beBytes 2 head.type.toNat) buf rfl (by simp; omega)
  have h2 := memcpy_append 2 (beBytes 2 head.type.toNat) (beBytes 2 head.length.toNat) (buf.drop 2)
    (by simp) (by simp; omega)
  simp only [length_beBytes, List.drop_drop, List.nil_append] at h1 h2
  simp only [htonHeader, store_htons, h1, Option.bind_eq_bind, Option.bind_some, h2]
  rfl

theorem htonProxyInfo_eq (p : ProxyInfo) (off : Nat) (pre rest : Buf) (hoff : off = pre.length)
    (hfit : 12 ≤ rest.length) :
    htonProxyInfo e p (pre ++ rest) off = some ((pre ++ proxyBytes p) ++ rest.drop 12) := by
  have h1 := memcpy_append off pre (beBytes 4 p.ip.toNat) rest hoff (by simp; omega)
  have h2 := memcpy_append (off + 4) (pre ++ beBytes 4 p.ip.toNat) (beBytes 2 p.portno.toNat)
    (rest.drop 4) (by simp [hoff]) (by simp; omega)
  have h3 := memcpy_append (off + 6) (pre ++ beBytes 4 p.ip.toNat ++ beBytes 2 p.portno.toNat)
    p.macaddr.bytes (rest.drop 6) (by simp [hoff]) (by simp [p.macaddr.length_bytes]; omega)
  simp only [length_beBytes, List.drop_drop, p.macaddr.length_bytes] at h1 h2 h3
  simp only [htonProxyInfo, store_htonl, store_htons, h1, Option.bind_eq_bind, Option.bind_some, h2,
    h3]
  simp [proxyBytes]

theorem htonNode_eq (l : Link) (i : Nat) (pre rest : Buf) (hoff : 18 + 36 * i = pre.length)
    (hfit : 36 ≤ rest.length) :
    htonNode e l i (pre ++ rest) = some ((pre ++ linkBytes l) ++ rest.drop 36) := by
  have h1 := htonProxyInfo_eq e l.localInfo (18 + 36 * i) pre rest hoff (by omega)
  have h2 := htonProxyInfo_eq e l.remoteInfo (30 + 36 * i) (pre ++ proxyBytes l.localInfo)
    (rest.drop 12) (by simp; omega) (by simp; omega)
  have h3 := memcpy_append (42 + 36 * i) (pre ++ proxyBytes l.localInfo ++ proxyBytes l.remoteInfo)
    (beBytes 4 l.linkweight.toNat) (rest.drop 24) (by simp; omega) (by simp; omega)
  have h4 := memcpy_append (46 + 36 * i)
    (pre ++ proxyBytes l.localInfo ++ proxyBytes l.remoteInfo ++ beBytes 4 l.linkweight.toNat)
    (beBytes 8 l.ID.toNat) (rest.drop 28) (by simp; omega) (by simp; omega)
  simp only [length_beBytes, List.drop_drop] at h1 h2 h3 h4
  simp only [htonNode, store_htonl, store_htonll, h1, Option.bind_eq_bind, Option.bind_some, h2, h3,
    h4]
  simp [linkBytes]

/-- Induction on the list; `pre` is what the encoder has written so far. -/
theorem htonNodes_eq {heap : List LinkstateNode} {p : Ptr} {cells : List (Addr × LinkstateNode)}
    (hs : Seg LinkstateNode.next heap p cells none) :
    ∀ (fuel i : Nat) (pre rest : Buf), cells.length < fuel → 18 + 36 * i = pre.length →
      36 * cells.length ≤ rest.length →
      htonNodes e heap fuel p i (pre ++ rest) =
        some ((pre ++ (cells.map (·.2.toLink)).flatMap linkBytes) ++ rest.drop (36 * cells.length)) := by
  induction cells generalizing p with
  | nil =>
    intro fuel i pre rest hfuel _ _
    obtain ⟨fuel, rfl⟩ := Nat.exists_eq_add_of_lt hfuel
    cases hs
    simp [htonNodes]
  | cons x xs ih =>
    intro fuel i pre rest hfuel hoff hfit
    obtain ⟨hp, hc, hrest⟩ := hs
    subst hp
    cases fuel with
    | zero => omega
    | succ fuel =>
      simp only [List.length_cons] at hfuel hfit
      have hnode := htonNode_eq e x.2.toLink i pre rest hoff (by omega)
      have hih := ih hrest fuel (i + 1) (pre ++ linkBytes x.2.toLink) (rest.drop 36) (by omega)
        (by simp; omega) (by simp; omega)
      simp only [htonNodes, hc, Option.bind_eq_bind, Option.bind_some, hnode, hih]
      simp [List.drop_drop, Nat.mul_add, Nat.add_comm]

theorem htonLinkstate_eq {heap : List LinkstateNode} {pkt : LinkstatePkt}
    {cells : List (Addr × LinkstateNode)} (hs : Seg LinkstateNode.next heap pkt.list cells none)
    {fuel : Nat} (hfuel : cells.length < fuel) {buf : Buf} (hfit : 18 + 36 * cells.length ≤ buf.length) :
    htonLinkstate e fuel heap pkt buf =
      some (wireBytes pkt.head pkt.numNeighbors pkt.source (cells.map (·.2.toLink)) ++
        buf.drop (18 + 36 * cells.length)) := by
  have h1 := htonHeader_eq e pkt.head buf (by omega)
  have h2 := memcpy_append 4 (headerBytes pkt.head) (beBytes 2 pkt.numNeighbors.toNat) (buf.drop 4)
    (by simp) (by simp; omega)
  have h3 := htonProxyInfo_eq e pkt.source 6
    (headerBytes pkt.head ++ beBytes 2 pkt.numNeighbors.toNat) (buf.drop 6) (by simp) (by simp; omega)
  have h4 := htonNodes_eq e hs fuel 0 (prefixBytes pkt.head pkt.numNeighbors pkt.source)
    (buf.drop 18) hfuel (by simp) (by simp; omega)
  simp only [length_beBytes, List.drop_drop] at h2 h3 h4
  rw [prefixBytes] at h4
  simp only [htonLinkstate, store_htons, h1, Option.bind_eq_bind, Option.bind_some, h2, h3, h4]
  simp [wireBytes, prefixBytes]

/-! ### What must fit -/

theorem htonProxyInfo_some {p : ProxyInfo} {off : Nat} {buf buf' : Buf}
    (h : htonProxyInfo e p buf off = some buf') : buf'.length = buf.length ∧ off + 12 ≤ buf.length := by
  simp only [htonProxyInfo, Option.bind_eq_bind, Option.bind_eq_some_iff] at h
  obtain ⟨b1, h1, b2, h2, h3⟩ := h
  obtain ⟨hl1, _⟩ := memcpy_length h1
  obtain ⟨hl2, _⟩ := memcpy_length h2
  obtain ⟨hl3, hfit⟩ := memcpy_length h3
  rw [p.macaddr.length_bytes] at hfit
  omega

theorem htonNode_some {l : Link} {i : Nat} {buf buf' : Buf} (h : htonNode e l i buf = some buf') :
    buf'.length = buf.length ∧ 54 + 36 * i ≤ buf.length := by
  simp only [htonNode, Option.bind_eq_bind, Option.bind_eq_some_iff] at h
  obtain ⟨b1, h1, b2, h2, b3, h3, h4⟩ := h
  obtain ⟨hl1, _⟩ := htonProxyInfo_some e h1
  obtain ⟨hl2, _⟩ := htonProxyInfo_some e h2
  obtain ⟨hl3, _⟩ := memcpy_length h3
  obtain ⟨hl4, hfit⟩ := memcpy_length h4
  rw [Endian.length_store] at hfit
  omega

theorem htonNodes_some {heap : List LinkstateNode} {p : Ptr} {cells : List (Addr × LinkstateNode)}
    (hs : Seg LinkstateNode.next heap p cells none) :
    ∀ {fuel i : Nat} {buf buf' : Buf}, htonNodes e heap fuel p i buf = some buf' →
      18 + 36 * i ≤ buf.length →
        cells.length < fuel ∧ 18 + 36 * (i + cells.length) ≤ buf.length := by
  induction cells generalizing p with
  | nil =>
    intro fuel i buf buf' h hi
    cases fuel with
    | zero => cases h
    | succ fuel => exact ⟨Nat.succ_pos fuel, hi⟩
  | cons x xs ih =>
    intro fuel i buf buf' h hi
    obtain ⟨hp, hc, hrest⟩ := hs
    subst hp
    cases fuel with
    | zero => cases h
    | succ fuel =>
      simp only [htonNodes, hc, Option.bind_eq_bind, Option.bind_some, Option.bind_eq_some_iff] at h
      obtain ⟨b, hnode, h⟩ := h
      obtain ⟨hlen, hfit⟩ := htonNode_some e hnode
      obtain ⟨hfuel, hfits⟩ := ih hrest h (by omega)
      rw [List.length_cons]
      omega

/-- The encoder stops at a null pointer only. -/
theorem htonNodes_list {heap : List LinkstateNode} {fuel : Nat} :
    ∀ {p : Ptr} {i : Nat} {buf buf' : Buf}, htonNodes e heap fuel p i buf = some buf' →
      ∃ cells, Seg LinkstateNode.next heap p cells none := by
  induction fuel with
  | zero => intro p i buf buf' h; cases h
  | succ fuel ih =>
    intro p i buf buf' h
    cases p with
    | none => exact ⟨[], rfl⟩
    | some a =>
      simp only [htonNodes, Option.bind_eq_bind, Option.bind_eq_some_iff] at h
      obtain ⟨node, hnode, b, _, h⟩ := h
      obtain ⟨cells, hrest⟩ := ih h
      exact ⟨(a, node) :: cells, rfl, hnode, hrest⟩

/-- The encoder only succeeds when all its links fit. -/
theorem htonLinkstate_some {heap : List LinkstateNode} {pkt : LinkstatePkt}
    {cells : List (Addr × LinkstateNode)} (hs : Seg LinkstateNode.next heap pkt.list cells none)
    {fuel : Nat} {buf buf' : Buf} (h : htonLinkstate e fuel heap pkt buf = some buf') :
    cells.length < fuel ∧ 18 + 36 * cells.length ≤ buf.length := by
  simp only [htonLinkstate, htonHeader, Option.bind_eq_bind, Option.bind_eq_some_iff] at h
  obtain ⟨b2, ⟨b1, h1, h2⟩, b3, h3, b4, h4, h5⟩ := h
  obtain ⟨hl1, _⟩ := memcpy_length h1
  obtain ⟨hl2, _⟩ := memcpy_length h2
  obtain ⟨hl3, _⟩ := memcpy_length h3
  obtain ⟨hl4, hfit⟩ := htonProxyInfo_some e h4
  obtain ⟨hfuel, hnodes⟩ := htonNodes_some e hs h5 (by omega)
  omega

end Encode

/-! ## Decoding -/

section Decode

variable (e : Endian)

theorem readU16_eq (x : U16) (off : Nat) (pre rest : Buf) (hoff : off = pre.length) :
    readU16 e (pre ++ (beBytes 2 x.toNat ++ rest)) off = some x := by
  simp only [readU16, slice_append pre (beBytes 2 x.toNat) rest hoff (length_beBytes _ _).symm,
    Option.bind_eq_bind, Option.bind_some]
  rw [ntohs_load e (length_beBytes _ _), ofNat_ofBeBytes_beBytes (k := 2) rfl]

theorem readU32_eq (x : U32) (off : Nat) (pre rest : Buf) (hoff : off = pre.length) :
    readU32 e (pre ++ (beBytes 4 x.toNat ++ rest)) off = some x := by
  simp only [readU32, slice_append pre (beBytes 4 x.toNat) rest hoff (length_beBytes _ _).symm,
    Option.bind_eq_bind, Option.bind_some]
  rw [ntohl_load e (length_beBytes _ _), ofNat_ofBeBytes_beBytes (k := 4) rfl]

theorem readU64_eq (x : U64) (off : Nat) (pre rest : Buf) (hoff : off = pre.length) :
    readU64 e (pre ++ (beBytes 8 x.toNat ++ rest)) off = some x := by
  simp only [readU64, slice_append pre (beBytes 8 x.toNat) rest hoff (length_beBytes _ _).symm,
    Option.bind_eq_bind, Option.bind_some]
  rw [htonll_load e (length_beBytes _ _), ofNat_ofBeBytes_beBytes (k := 8) rfl]

theorem readMac_eq (m : Mac) (off : Nat) (pre rest : Buf) (hoff : off = pre.length) :
    readMac (pre ++ (m.bytes ++ rest)) off = some m := by
  simp [readMac, slice_append pre m.bytes rest hoff m.length_bytes.symm, m.length_bytes]

theorem ntohHeader_eq (head : PktHeader) (rest : Buf) :
    ntohHeader e (headerBytes head ++ rest) = some head := by
  have h1 := readU16_eq e head.type 0 [] (beBytes 2 head.length.toNat ++ rest) rfl
  have h2 := readU16_eq e head.length 2 (beBytes 2 head.type.toNat) rest (by simp)
  rw [List.nil_append] at h1
  simp only [headerBytes, List.append_assoc, ntohHeader, h1, h2, Option.bind_eq_bind,
    Option.bind_some]

theorem ntohProxyInfo_eq (p : ProxyInfo) (off : Nat) (pre rest : Buf) (hoff : off = pre.length) :
    ntohProxyInfo e (pre ++ (proxyBytes p ++ rest)) off = some p := by
  have h1 := readU32_eq e p.ip off pre (beBytes 2 p.portno.toNat ++ (p.macaddr.bytes ++ rest)) hoff
  have h2 := readU16_eq e p.portno (off + 4) (pre ++ beBytes 4 p.ip.toNat) (p.macaddr.bytes ++ rest)
    (by simp [hoff])
  have h3 := readMac_eq p.macaddr (off + 6) (pre ++ beBytes 4 p.ip.toNat ++ beBytes 2 p.portno.toNat)
    rest (by simp [hoff])
  simp only [List.append_assoc] at h1 h2 h3
  simp only [proxyBytes, List.append_assoc, ntohProxyInfo, h1, h2, h3, Option.bind_eq_bind,
    Option.bind_some]

theorem ntohNode_eq (l : Link) (i : Nat) (pre rest : Buf) (hoff : 18 + 36 * i = pre.length) :
    ntohNode e (pre ++ (linkBytes l ++ rest)) i = some l := by
  have h1 := ntohProxyInfo_eq e l.localInfo (18 + 36 * i) pre
    (proxyBytes l.remoteInfo ++ (beBytes 4 l.linkweight.toNat ++ (beBytes 8 l.ID.toNat ++ rest))) hoff
  have h2 := ntohProxyInfo_eq e l.remoteInfo (30 + 36 * i) (pre ++ proxyBytes l.localInfo)
    (beBytes 4 l.linkweight.toNat ++ (beBytes 8 l.ID.toNat ++ rest)) (by simp; omega)
  have h3 := readU32_eq e l.linkweight (42 + 36 * i)
    (pre ++ proxyBytes l.localInfo ++ proxyBytes l.remoteInfo) (beBytes 8 l.ID.toNat ++ rest)
    (by simp; omega)
  have h4 := readU64_eq e l.ID (46 + 36 * i)
    (pre ++ proxyBytes l.localInfo ++ proxyBytes l.remoteInfo ++ beBytes 4 l.linkweight.toNat) rest
    (by simp; omega)
  simp only [List.append_assoc] at h1 h2 h3 h4
  simp only [linkBytes, List.append_assoc, ntohNode, h1, h2, h3, h4, Option.bind_eq_bind,
    Option.bind_some]

/-- The nodes of a list laid out from address `base`, each linked to the one behind it and the
last one to `q`. -/
def linkNodes (base : Addr) : List Link → Ptr → List LinkstateNode
  | [], _ => []
  | l :: ls, q =>
    { toLink := l, next := if ls = [] then q else some (base + 1) } :: linkNodes (base + 1) ls q

@[simp] theorem length_linkNodes (base : Addr) (ls : List Link) (q : Ptr) :
    (linkNodes base ls q).length = ls.length := by
  induction ls generalizing base with
  | nil => rfl
  | cons l ls ih => simp [linkNodes, ih]

@[simp] theorem map_toLink_linkNodes (base : Addr) (ls : List Link) (q : Ptr) :
    (linkNodes base ls q).map (·.toLink) = ls := by
  induction ls generalizing base with
  | nil => rfl
  | cons l ls ih => simp [linkNodes, ih]

/-- Linking the last node of a row to a node put behind it makes the row one longer. -/
theorem linkNodes_snoc (h : List LinkstateNode) (ls : List Link) (hls : ls ≠ []) (q : Ptr)
    (l : Link) (r : Ptr) :
    (h ++ linkNodes h.length ls q ++ [LinkstateNode.mk l r]).modify (h.length + (ls.length - 1))
        (fun n => { n with next := some (h.length + ls.length) }) =
      h ++ linkNodes h.length (ls ++ [l]) r := by
  induction ls generalizing h with
  | nil => exact absurd rfl hls
  | cons a as ih =>
    cases as with
    | nil =>
      have hmod := modify_append_add h [LinkstateNode.mk a q, LinkstateNode.mk l r] 0
        fun n => { n with next := some (h.length + 1) }
      simpa [linkNodes] using hmod
    | cons b bs =>
      have hih := ih (h ++ [{ toLink := a, next := some (h.length + 1) }]) (by simp)
      simp only [List.length_append, List.length_cons, List.length_nil, Nat.zero_add] at hih
      have hi : h.length + 1 + (bs.length + 1 - 1) = h.length + (bs.length + 1 + 1 - 1) := by omega
      have hj : h.length + 1 + (bs.length + 1) = h.length + (bs.length + 1 + 1) := by omega
      rw [hi, hj] at hih
      simpa [linkNodes] using hih

theorem seg_linkNodes (h : List LinkstateNode) {ls : List Link} (hls : ls ≠ []) (q : Ptr) :
    Seg LinkstateNode.next (h ++ linkNodes h.length ls q) (some h.length)
      (cellsAt h.length (linkNodes h.length ls q)) q := by
  induction ls generalizing h with
  | nil => exact absurd rfl hls
  | cons a as ih =>
    cases as with
    | nil => exact ⟨rfl, by simp [linkNodes], rfl⟩
    | cons b bs =>
      have hih := ih (h ++ [{ toLink := a, next := some (h.length + 1) }]) (by simp)
      rw [List.length_append, List.length_singleton, List.append_assoc] at hih
      exact ⟨rfl, by simp [linkNodes], hih⟩

/-- What the decoder leaves in the link of the last of `n` nodes. -/
def lastNext (u : Uninit) (base : Addr) (n : Nat) : Ptr :=
  if n ≤ 1 then none else (u.node (base + (n - 1))).next

/-- The loop from its second round on: `done` is decoded, `ls` is still to come. -/
theorem ntohNodes_eq_of_pos (u : Uninit) (h : List LinkstateNode) (list : Ptr) (ls : List Link) :
    ∀ (done : List Link) (pre rest : Buf), done ≠ [] → 18 + 36 * done.length = pre.length →
      ntohNodes e u (pre ++ (ls.flatMap linkBytes ++ rest)) ls.length done.length list
          (some (h.length + (done.length - 1)))
          (h ++ linkNodes h.length done (lastNext u h.length done.length)) =
        some (list, h ++ linkNodes h.length (done ++ ls)
          (lastNext u h.length (done.length + ls.length))) := by
  induction ls with
  | nil => intro done pre rest _ _; simp [ntohNodes]
  | cons l ls ih =>
    intro done pre rest hdone hoff
    have hpos : done.length ≠ 0 := fun h => hdone (List.length_eq_zero_iff.mp h)
    have hnode := ntohNode_eq e l done.length pre (ls.flatMap linkBytes ++ rest) hoff
    have hsnoc := linkNodes_snoc h done hdone (lastNext u h.length done.length) l
      (u.node (h.length + done.length)).next
    have hlast : lastNext u h.length (done ++ [l]).length = (u.node (h.length + done.length)).next := by
      simp [lastNext, hdone]
    have hih := ih (done ++ [l]) (pre ++ linkBytes l) rest (by simp) (by simp; omega)
    rw [hlast] at hih
    simp only [List.length_append, List.length_cons, List.length_nil, Nat.zero_add,
      Nat.add_sub_cancel, List.append_assoc, List.cons_append, List.nil_append] at hih hsnoc
    simp only [List.flatMap_cons, List.append_assoc, List.length_cons, ntohNodes, hnode, if_neg hpos,
      List.length_append, length_linkNodes, Option.bind_eq_bind, Option.bind_some, hsnoc, hih]
    simp [Nat.add_comm 1, Nat.add_assoc]

theorem ntohNodes_eq (u : Uninit) (h : List LinkstateNode) {ls : List Link} (hls : ls ≠ [])
    (list : Ptr) (pre rest : Buf) (hoff : pre.length = 18) :
    ntohNodes e u (pre ++ (ls.flatMap linkBytes ++ rest)) ls.length 0 list none h =
      some (some h.length, h ++ linkNodes h.length ls (lastNext u h.length ls.length)) := by
  cases ls with
  | nil => exact absurd rfl hls
  | cons l ls =>
    have hnode := ntohNode_eq e l 0 pre (ls.flatMap linkBytes ++ rest) (by omega)
    have hrest := ntohNodes_eq_of_pos e u h (some h.length) ls [l] (pre ++ linkBytes l) rest (by simp)
      (by simp [hoff])
    simp only [List.length_singleton, List.append_assoc] at hrest
    simp only [List.flatMap_cons, List.append_assoc, List.length_cons, ntohNodes, hnode, if_pos,
      Option.bind_eq_bind, Option.bind_some]
    simpa [linkNodes, lastNext, Nat.add_comm 1] using hrest

theorem ntohNodes_length (u : Uninit) (buf : Buf) (n : Nat) :
    ∀ {i : Nat} {list lsptr l : Ptr} {heap heap' : List LinkstateNode},
      ntohNodes e u buf n i list lsptr heap = some (l, heap') → heap'.length = heap.length + n := by
  induction n with
  | zero => intro i list lsptr l heap heap' h; cases h; rfl
  | succ n ih =>
    intro i list lsptr l heap heap' h
    simp only [ntohNodes, Option.bind_eq_bind, Option.bind_eq_some_iff] at h
    obtain ⟨fields, _, h⟩ := h
    split at h
    · rw [ih h, List.length_append, List.length_singleton]
      omega
    · obtain ⟨last, _, h⟩ := Option.bind_eq_some_iff.mp h
      rw [ih h, List.length_modify, List.length_append, List.length_singleton]
      omega

theorem ntohNodes_same (u : Uninit) (buf : Buf) {a : Addr} (n : Nat) :
    ∀ {i : Nat} {list lsptr l : Ptr} {heap heap' : List LinkstateNode},
      ntohNodes e u buf n i list lsptr heap = some (l, heap') → a < heap.length →
      (i ≠ 0 → ∀ last ∈ lsptr, a < last) → heap'[a]? = heap[a]? := by
  induction n with
  | zero => intro i list lsptr l heap heap' h _ _; cases h; rfl
  | succ n ih =>
    intro i list lsptr l heap heap' h ha hlast
    have hahead : ∀ last ∈ some heap.length, a < last := by simpa using ha
    simp only [ntohNodes, Option.bind_eq_bind, Option.bind_eq_some_iff] at h
    obtain ⟨fields, _, h⟩ := h
    split at h
    · have hlt := Nat.lt_succ_of_lt ha
      rw [ih h (by simpa using hlt) fun _ => hahead, List.getElem?_append_left ha]
    · rename_i hi
      obtain ⟨last, hmem, h⟩ := Option.bind_eq_some_iff.mp h
      have hne : last ≠ a := Nat.ne_of_gt (hlast hi last hmem)
      have hlt := Nat.lt_succ_of_lt ha
      rw [ih h (by simpa using hlt) fun _ => hahead, List.getElem?_modify_ne _ _ hne,
        List.getElem?_append_left ha]

theorem numNodes_toNat (length : U16) : (numNodes length).toNat = (length.toNat - 14) / 36 := by
  have hlt := length.isLt
  have hdiv : ((length.toNat : Int) - 14).tdiv 36 = (((length.toNat - 14) / 36 : Nat) : Int) := by
    by_cases h : 14 ≤ length.toNat
    · have hsub : ((length.toNat : Int) - 14) = ((length.toNat - 14 : Nat) : Int) := by omega
      rw [hsub]
      exact (Int.ofNat_tdiv _ 36).symm
    · have hz : (length.toNat - 14) / 36 = 0 := by omega
      rw [hz]
      have hneg : ((length.toNat : Int) - 14) = -((14 - length.toNat : Nat) : Int) := by omega
      rw [hneg, Int.neg_tdiv, Int.tdiv_eq_zero_of_lt (by omega) (by omega)]
      rfl
  rw [numNodes, hdiv, BitVec.ofInt_natCast, BitVec.toNat_ofNat, Nat.mod_eq_of_lt (by omega)]

theorem ntohLinkstate_length {u : Uninit} {heap heap' : List LinkstateNode} {buf : Buf}
    {pkt : LinkstatePkt} {length : U16} (hlength : readU16 e buf 2 = some length)
    (h : ntohLinkstate e u heap buf = some (pkt, heap')) :
    heap'.length = heap.length + (length.toNat - 14) / 36 := by
  simp only [ntohLinkstate, hlength, Option.bind_eq_bind, Option.bind_some,
    Option.bind_eq_some_iff] at h
  obtain ⟨_, _, _, _, _, _, ⟨l, heap''⟩, hnodes, h⟩ := h
  cases h
  rw [ntohNodes_length e u buf _ hnodes, numNodes_toNat]

theorem ntohLinkstate_same {u : Uninit} {heap heap' : List LinkstateNode} {buf : Buf}
    {pkt : LinkstatePkt} (h : ntohLinkstate e u heap buf = some (pkt, heap')) {a : Addr}
    (ha : a < heap.length) : heap'[a]? = heap[a]? := by
  simp only [ntohLinkstate, Option.bind_eq_bind, Option.bind_eq_some_iff] at h
  obtain ⟨_, _, _, _, _, _, _, _, ⟨l, heap''⟩, hnodes, h⟩ := h
  cases h
  exact ntohNodes_same e u buf _ hnodes ha fun hi => absurd rfl hi

theorem readU16_wireBytes (head : PktHeader) (nn : U16) (source : ProxyInfo) (ls : List Link)
    (rest : Buf) : readU16 e (wireBytes head nn source ls ++ rest) 2 = some head.length := by
  have hlength := readU16_eq e head.length 2 (beBytes 2 head.type.toNat)
    (beBytes 2 nn.toNat ++ (proxyBytes source ++ (ls.flatMap linkBytes ++ rest))) (by simp)
  simpa [wireBytes, prefixBytes, headerBytes] using hlength

/-- The decoder reads the prefix, then as many nodes as the length field stands for. -/
theorem ntohLinkstate_prefix (u : Uninit) (h : List LinkstateNode) (head : PktHeader) (nn : U16)
    (source : ProxyInfo) (rest : Buf) :
    ntohLinkstate e u h (prefixBytes head nn source ++ rest) =
      (ntohNodes e u (prefixBytes head nn source ++ rest) ((head.length.toNat - 14) / 36) 0
        (u.list h.length) none h).map fun r =>
          ({ head, numNeighbors := nn, source, list := r.1 }, r.2) := by
  have hlength := readU16_wireBytes e head nn source [] rest
  have hhead := ntohHeader_eq e head (beBytes 2 nn.toNat ++ (proxyBytes source ++ rest))
  have hnn := readU16_eq e nn 4 (headerBytes head) (proxyBytes source ++ rest) (by simp)
  have hsource := ntohProxyInfo_eq e source 6 (headerBytes head ++ beBytes 2 nn.toNat) rest (by simp)
  simp only [wireBytes, List.flatMap_nil, List.append_nil, prefixBytes, List.append_assoc] at hlength
  simp only [List.append_assoc] at hsource
  simp only [prefixBytes, List.append_assoc, ntohLinkstate, hlength, hhead, hnn, hsource,
    numNodes_toNat, Option.bind_eq_bind, Option.bind_some]
  cases ntohNodes e u (headerBytes head ++ (beBytes 2 nn.toNat ++ (proxyBytes source ++ rest)))
    ((head.length.toNat - 14) / 36) 0 (u.list h.length) none h <;> rfl

/-- Decoding a packet whose length field stands for its links: the fields come back and the links
are appended to the heap. -/
theorem ntohLinkstate_eq (u : Uninit) (h : List LinkstateNode) (head : PktHeader) (nn : U16)
    (source : ProxyInfo) {ls : List Link} (hls : ls ≠ [])
    (hlen : (head.length.toNat - 14) / 36 = ls.length) (rest : Buf) :
    ntohLinkstate e u h (wireBytes head nn source ls ++ rest) =
      some ({ head, numNeighbors := nn, source, list := some h.length },
        h ++ linkNodes h.length ls (lastNext u h.length ls.length)) := by
  have hnodes := ntohNodes_eq e u h hls (u.list h.length) (prefixBytes head nn source) rest (by simp)
  rw [wireBytes, List.append_assoc, ntohLinkstate_prefix, hlen, hnodes, Option.map_some]

end Decode

end Cs352Proxy
