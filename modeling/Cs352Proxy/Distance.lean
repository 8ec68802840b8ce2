import Cs352Proxy.Learn

/-!
# Distance

The weight a learned link is stored with. The cost of reaching its local end is 1 when its remote
address is new, and otherwise the least stored weight to the local end. "Not found" is the distance
-1, which is added like any other: the link then gets cheaper by one on its way.

`get_lowest_saved_distance` keeps that least weight in an `int`, where -1 and the weights from
`2 ^ 31` on are negative; read as `uint32_t` it is the minimum all the same.
-/

namespace Cs352Proxy

open Base

/-! ## The saved distance -/

/-- The weights of the nodes whose remote MAC address is `mac`. -/
def Cells.weightsTo (mac : Mac) (cells : Cells) : List Nat :=
  (cells.filter fun x => x.2.remoteInfo.macaddr = mac).map fun x => x.2.linkweight.toNat

theorem leastWeight_links (mac : Mac) (cells : Cells) :
    Topology.leastWeight mac cells.links = (cells.weightsTo mac).min?.getD (2 ^ 32 - 1) := by
  induction cells with
  | nil => rfl
  | cons x xs ih =>
    rw [Cells.links_cons, Topology.leastWeight, ih]
    unfold Cells.weightsTo
    by_cases hmac : x.2.remoteInfo.macaddr = mac
    · have hw := x.2.linkweight.isLt
      rw [if_pos hmac, List.filter_cons_of_pos (by simpa using hmac), List.map_cons, List.min?_cons]
      -- a single weight is the minimum, as no weight exceeds `2 ^ 32 - 1`
      cases ((List.filter (fun x => x.2.remoteInfo.macaddr = mac) xs).map
        fun x => x.2.linkweight.toNat).min? with
      | none =>
        simp only [Option.getD_none, Option.elim_none, Option.getD_some]
        omega
      | some m => rfl
    · rw [if_neg hmac, List.filter_cons_of_neg (by simpa using hmac)]

theorem getLowestSavedDistanceLoop_int {heap : List LinkstateNode} {mac : Mac} {fuel : Nat} {p : Ptr}
    {dist d : Int} (hdist : -2 ^ 31 ≤ dist ∧ dist < 2 ^ 31)
    (h : getLowestSavedDistanceLoop heap mac fuel p dist = some d) : -2 ^ 31 ≤ d ∧ d < 2 ^ 31 := by
  induction fuel generalizing p dist with
  | zero => cases h
  | succ fuel ih =>
    cases p with
    | none => cases h; exact hdist
    | some a =>
      simp only [getLowestSavedDistanceLoop, Option.bind_eq_bind, Option.bind_eq_some_iff] at h
      obtain ⟨node, _, h⟩ := h
      split at h
      · exact ih ⟨BitVec.le_toInt node.linkweight, BitVec.toInt_lt⟩ h
      · exact ih hdist h

/-- On every null-terminated list the function returns, and its result, converted to `uint32_t`, is
the least weight of the nodes with the address, or the largest number if there is none. -/
theorem saved_distance_is_least {st : Proxy} {cells : Cells}
    (hs : NodeList st.heap st.memList.head cells) (mac : Mac) {fuel : Nat}
    (hfuel : cells.length < fuel) :
    ∃ d, getLowestSavedDistance fuel mac st = some d ∧ (-2 ^ 31 ≤ d ∧ d < 2 ^ 31) ∧
      (u32OfInt d).toNat = (cells.weightsTo mac).min?.getD (2 ^ 32 - 1) := by
  obtain ⟨d, hd⟩ := getLowestSavedDistanceLoop_isSome mac hs hfuel (-1)
  have hleast := getLowestSavedDistance_some hs hd
  refine ⟨d, hd, getLowestSavedDistanceLoop_int (by omega) hd, ?_⟩
  rw [hleast, BitVec.toNat_ofNat, Nat.mod_eq_of_lt (leastWeight_lt mac cells.links),
    leastWeight_links]

/-- Two links to `host 3`, both of a weight that is negative as an `int`, and one to `host 2`. -/
theorem large_weights_compare_unsigned :
    let link : ProxyInfo → U32 → Ptr → LinkstateNode := fun remote w next =>
      { linkTo (host 1) remote with linkweight := w, next := next }
    let st : Proxy :=
      { heap := [link (host 3) 0xFFFFFFFE (some 1), link (host 2) 5 (some 2),
          link (host 3) 0x80000001 none]
        memList := { head := some 0, size := 3 }, socketfds := [], trace := [] }
    ∃ d, getLowestSavedDistance 4 (host 3).macaddr st = some d ∧ (-2 ^ 31 ≤ d ∧ d < 2 ^ 31) ∧
      (u32OfInt d).toNat = 0x80000001 := by
  intro link st
  have hs : NodeList st.heap st.memList.head [(0, link (host 3) 0xFFFFFFFE (some 1)),
      (1, link (host 2) 5 (some 2)), (2, link (host 3) 0x80000001 none)] :=
    ⟨rfl, rfl, rfl, rfl, rfl, rfl, rfl⟩
  exact saved_distance_is_least hs (host 3).macaddr (by decide)

/-! ## The stored weight -/

/-- The sum fits: with 1 for a new address, with the least weight stored for the local end for a
known one. That weight counts as `2 ^ 32 - 1` when none is stored. -/
def SumFits (recv : LinkstateNode) (st : Proxy) : Prop :=
  match st.findSocketfd recv.remoteInfo.macaddr with
  | none => recv.linkweight.toNat + 1 < 2 ^ 32
  | some _ =>
    ∃ cells : Cells, NodeList st.heap st.memList.head cells ∧
      0 < Topology.leastWeight recv.localInfo.macaddr cells.links ∧
      recv.linkweight.toNat + Topology.leastWeight recv.localInfo.macaddr cells.links < 2 ^ 32

/-- The forwarding entry of the address is redirected only for a sum `k` below every stored weight. -/
def RedirectsBelow (recv : LinkstateNode) (st st' : Proxy) (k : Nat) : Prop :=
  (st.findSocketfd recv.remoteInfo.macaddr).isSome →
    st'.findSocketfd recv.remoteInfo.macaddr ≠ st.findSocketfd recv.remoteInfo.macaddr →
    ∀ cells : Cells, NodeList st.heap st.memList.head cells →
      ∀ x ∈ cells, x.2.remoteInfo.macaddr = recv.remoteInfo.macaddr → k < x.2.linkweight.toNat

/-- The stored node costs more than was advertised, without wrapping around. -/
def AddsDistance (a : Addr) (recv : LinkstateNode) (st st' : Proxy) : Prop :=
  ∃ node cost, st'.heap[a]? = some node ∧ 0 < cost ∧
    node.linkweight.toNat = recv.linkweight.toNat + cost ∧
    RedirectsBelow recv st st' (recv.linkweight.toNat + cost)

theorem Pushed.adds_iff {now : U64} {a : Addr} {k : Nat} {st st' : Proxy}
    {recv : LinkstateNode} (hpush : Pushed now a (recv.linkweight + BitVec.ofNat 32 k) st st')
    (hr : st.heap[a]? = some recv) (hk : k < 2 ^ 32)
    (hredirect : recv.linkweight.toNat + k < 2 ^ 32 →
      RedirectsBelow recv st st' (recv.linkweight.toNat + k)) :
    AddsDistance a recv st st' ↔ 0 < k ∧ recv.linkweight.toNat + k < 2 ^ 32 := by
  have hnode : st'.heap[a]? = some { recv with
      linkweight := recv.linkweight + BitVec.ofNat 32 k, ID := now, next := st.memList.head } := by
    rw [hpush.1, List.getElem?_modify_eq, hr]
    rfl
  have hweight : (recv.linkweight + BitVec.ofNat 32 k).toNat =
      (recv.linkweight.toNat + k) % 2 ^ 32 := by
    rw [BitVec.toNat_add, BitVec.toNat_ofNat, Nat.mod_eq_of_lt hk]
  have hw := recv.linkweight.isLt
  constructor
  · intro hd
    obtain ⟨node, cost, hnode', hcost, hsum, _⟩ := hd
    rw [hnode] at hnode'
    cases hnode'
    simp only [hweight] at hsum
    omega
  · intro hfits
    refine ⟨_, k, hnode, hfits.1, ?_, hredirect hfits.2⟩
    simp only [hweight]
    omega

/-- A call that stores its link adds the distance exactly if the sum fits. -/
theorem addsDistance_iff {env : Env} {fuel : Nat} {now : U64} {gw : Int} {a : Addr}
    {recv : LinkstateNode} {st st' : Proxy} (hr : st.heap[a]? = some recv)
    (h : addMemberConnect env fuel now gw a st = some st')
    (hstored : st'.memList.size = st.memList.size + 1) :
    AddsDistance a recv st st' ↔ SumFits recv st := by
  obtain ⟨recv', hr', hcases⟩ := addMemberConnect_cases h
  rw [hr] at hr'
  cases hr'
  unfold SumFits
  rcases hcases with ⟨_, _, _, _, _, hmem, _⟩ | ⟨hroute, _, hpush, _⟩ | ⟨_, _, _, _, _, hmem, _⟩ |
    ⟨e, dist, saveDist, hroute, hfinder, hdist, hsave, hpush, hsock⟩
  · rw [hmem] at hstored
    omega
  · -- a new address
    have hone : Pushed now a (recv.linkweight + BitVec.ofNat 32 1) st st' := hpush
    rw [hone.adds_iff hr (by omega) fun _ hknown => by rw [hroute] at hknown; cases hknown]
    simp [hroute]
  · rw [hmem] at hstored
    omega
  · -- a known address
    obtain ⟨cells, hlist⟩ := inMemberListLoop_none hfinder
    have hlist' : NodeList (st.emit .lock).heap (st.emit .lock).memList.head cells := hlist
    have hlt := leastWeight_lt recv.localInfo.macaddr cells.links
    have hlt' := leastWeight_lt recv.remoteInfo.macaddr cells.links
    rw [getLowestSavedDistance_some hlist' hdist] at hpush hsock
    rw [getLowestSavedDistance_some hlist' hsave] at hsock
    rw [hpush.adds_iff hr hlt]
    · simp only [hroute]
      constructor
      · intro hfits
        exact ⟨cells, hlist, hfits⟩
      · intro hfits
        obtain ⟨cells', hlist₁, hfits⟩ := hfits
        rw [hlist₁.unique hlist] at hfits
        exact hfits
    · intro hfits _ hchanged cells' hlist₁ x hx hmac
      rw [hlist₁.unique hlist] at hx
      split at hsock
      · rename_i hless
        rw [BitVec.lt_def, BitVec.toNat_add, BitVec.toNat_ofNat, BitVec.toNat_ofNat,
          Nat.mod_eq_of_lt hlt, Nat.mod_eq_of_lt hlt', Nat.mod_eq_of_lt hfits] at hless
        have hmem : x.2.toLink ∈ cells.links := List.mem_map_of_mem hx
        exact Nat.lt_of_lt_of_le hless (leastWeight_le hmem hmac)
      · exact absurd (by rw [Proxy.findSocketfd, hsock]; rfl) hchanged

/-- A stored link to `host 3`, and a new one from `host 2`, to which no link is stored. -/
def knownThree : Proxy :=
  { heap := [{ linkTo (host 1) (host 3) with next := none },
      { linkTo (host 2) (host 3) with next := none }]
    memList := { head := some 0, size := 1 }
    socketfds := [{ macaddr := (host 3).macaddr, sockFd := 5 }]
    trace := [] }

/-- The new link is advertised with weight 1 and stored with weight 0, and traffic to `host 3` goes
over the gateway from then on. -/
theorem unknown_distance_lowers_weight : ∃ (env : Env) (fuel : Nat) (now : U64) (gw : Int) (a : Addr)
    (recv : LinkstateNode) (st st' : Proxy), st.heap[a]? = some recv ∧
    addMemberConnect env fuel now gw a st = some st' ∧ st'.memList.size = st.memList.size + 1 ∧
    st'.findSocketfd recv.remoteInfo.macaddr = some { macaddr := recv.remoteInfo.macaddr, sockFd := gw } ∧
    ¬ AddsDistance a recv st st' := by
  refine ⟨hostEnv 1, 2, 0, 4, 1, _, knownThree, _, rfl, rfl, rfl, by decide, fun h => ?_⟩
  obtain ⟨node, cost, hnode, hcost, hsum, _⟩ := h
  cases hnode
  have hzero : 0 = 1 + cost := hsum
  omega

/-- With a link to `host 2` stored, the sum is the cost of the way over `host 2`. -/
theorem known_distance_is_added :
    let recv : LinkstateNode := { linkTo (host 2) (host 3) with next := none }
    let st : Proxy := { heap := [{ linkTo (host 1) (host 2) with next := none }, recv]
                        memList := { head := some 0, size := 1 }
                        socketfds := [{ macaddr := (host 3).macaddr, sockFd := 5 }], trace := [] }
    ∃ st', addMemberConnect (hostEnv 1) 2 0 4 1 st = some st' ∧ AddsDistance 1 recv st st' := by
  intro recv st
  have hfits : SumFits recv st :=
    ⟨[(0, { linkTo (host 1) (host 2) with next := none })], ⟨rfl, rfl, rfl⟩, by decide, by decide⟩
  have hr : st.heap[1]? = some recv := rfl
  obtain ⟨st', h⟩ : ∃ st', addMemberConnect (hostEnv 1) 2 0 4 1 st = some st' := ⟨_, rfl⟩
  have hstored : st'.memList.size = st.memList.size + 1 := by cases h; rfl
  exact ⟨st', h, (addsDistance_iff hr h hstored).mpr hfits⟩

end Cs352Proxy
