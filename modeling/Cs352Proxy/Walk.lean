import Cs352Proxy.Members
import Cs352Proxy.Topology
import Cs352Proxy.Base.Chain

/-!
# Walk

What the loops over the membership list compute on a null-terminated list, in terms of the cells
the list visits. For each loop: the result it has when it returns, and that it returns once the
fuel exceeds the length of the list.
-/

namespace Cs352Proxy

open Base

abbrev Cells := List (Addr × LinkstateNode)

/-- The null-terminated list of nodes that starts at `p`. -/
abbrev NodeList (heap : List LinkstateNode) (p : Ptr) (cells : Cells) : Prop :=
  Seg LinkstateNode.next heap p cells none

def Cells.links (cells : Cells) : List Link := cells.map (·.2.toLink)

@[simp] theorem Cells.links_nil : Cells.links [] = [] := rfl

@[simp] theorem Cells.links_cons (x : Addr × LinkstateNode) (cells : Cells) :
    Cells.links (x :: cells) = x.2.toLink :: Cells.links cells := rfl

@[simp] theorem Cells.length_links (cells : Cells) : cells.links.length = cells.length :=
  List.length_map _

@[simp] theorem Cells.links_append (xs ys : Cells) :
    Cells.links (xs ++ ys) = Cells.links xs ++ Cells.links ys := List.map_append

/-- The nodes of a list without their next pointers. -/
def Cells.bare (cells : Cells) : List (Addr × Link) := cells.map fun x => (x.1, x.2.toLink)

@[simp] theorem Cells.bare_cons (x : Addr × LinkstateNode) (cells : Cells) :
    Cells.bare (x :: cells) = (x.1, x.2.toLink) :: Cells.bare cells := rfl

@[simp] theorem Cells.bare_append (xs ys : Cells) :
    Cells.bare (xs ++ ys) = Cells.bare xs ++ Cells.bare ys := List.map_append

theorem Cells.links_of_bare {xs ys : Cells} (h : xs.bare = ys.bare) : xs.links = ys.links := by
  have hmap := congrArg (List.map Prod.snd) h
  simpa [bare, links, Function.comp_def] using hmap

/-- `st` holds the topology `t`; its membership list visits `cells`. -/
structure Shows (st : Proxy) (t : Topology) (cells : Cells) : Prop where
  list : NodeList st.heap st.memList.head cells
  links : cells.links = t.links
  size : st.memList.size = t.size
  routes : st.socketfds = t.routes

/-- What a proxy with the list `cells` knows. -/
def Proxy.topology (st : Proxy) (cells : Cells) : Topology :=
  { links := cells.links, size := st.memList.size, routes := st.socketfds }

theorem shows_topology {st : Proxy} {cells : Cells} (h : NodeList st.heap st.memList.head cells) :
    Shows st (st.topology cells) cells := ⟨h, rfl, rfl, rfl⟩

theorem Shows.malloc {st : Proxy} {t : Topology} {cells : Cells} (hs : Shows st t cells)
    (n : LinkstateNode) : Shows (st.malloc n) t cells := by
  refine ⟨hs.list.frame fun x hx => ?_, hs.links, hs.size, hs.routes⟩
  rw [Proxy.malloc_heap, List.getElem?_append_left (hs.list.lt_length x hx)]
  exact hs.list.get x hx

theorem Shows.route {st : Proxy} {t : Topology} {cells : Cells} (hs : Shows st t cells) (mac : Mac) :
    t.route mac = st.findSocketfd mac := by
  rw [Topology.route, Proxy.findSocketfd, hs.routes]

/-! ## `in_member_list` -/

section Search

variable {heap : List LinkstateNode} {p : Ptr} {cells : Cells} (r : Link)

theorem inMemberListLoop_eq (hs : NodeList heap p cells) {fuel : Nat} (hfuel : cells.length < fuel) :
    inMemberListLoop heap r.localInfo r.remoteInfo fuel p =
      some ((cells.find? fun x => Topology.reverses r x.2.toLink).map Prod.fst) := by
  induction cells generalizing p fuel with
  | nil =>
    obtain ⟨fuel, rfl⟩ := Nat.exists_eq_add_of_lt hfuel
    cases hs
    simp [inMemberListLoop]
  | cons x xs ih =>
    obtain ⟨hp, hc, hrest⟩ := hs
    subst hp
    cases fuel with
    | zero => omega
    | succ fuel =>
      have hlen : xs.length < fuel := by simpa using hfuel
      simp only [inMemberListLoop, hc, Option.bind_eq_bind, Option.bind_some, ih hrest hlen,
        List.find?_cons, Topology.reverses]
      split <;> rename_i h <;> simp [h]

theorem inMemberListLoop_some (hs : NodeList heap p cells) {fuel : Nat} {q : Ptr}
    (h : inMemberListLoop heap r.localInfo r.remoteInfo fuel p = some q) :
    q = (cells.find? fun x => Topology.reverses r x.2.toLink).map Prod.fst := by
  induction cells generalizing p fuel with
  | nil =>
    cases hs
    cases fuel with
    | zero => cases h
    | succ fuel => simpa [inMemberListLoop] using h.symm
  | cons x xs ih =>
    obtain ⟨hp, hc, hrest⟩ := hs
    subst hp
    cases fuel with
    | zero => cases h
    | succ fuel =>
      simp only [inMemberListLoop, hc, Option.bind_eq_bind, Option.bind_some] at h
      simp only [List.find?_cons, Topology.reverses]
      split at h
      · rename_i hrev
        simpa [hrev] using h.symm
      · rename_i hrev
        simpa [hrev, Topology.reverses] using ih hrest h

theorem inMemberListLoop_none {localRecv remoteRecv : ProxyInfo} {fuel : Nat}
    (h : inMemberListLoop heap localRecv remoteRecv fuel p = some none) :
    ∃ cells, NodeList heap p cells := by
  induction fuel generalizing p with
  | zero => cases h
  | succ fuel ih =>
    cases p with
    | none => exact ⟨[], rfl⟩
    | some a =>
      simp only [inMemberListLoop, Option.bind_eq_bind, Option.bind_eq_some_iff] at h
      obtain ⟨node, hnode, h⟩ := h
      split at h
      · cases h
      · obtain ⟨cells, hrest⟩ := ih h
        exact ⟨(a, node) :: cells, rfl, hnode, hrest⟩

end Search

/-! ## `get_lowest_saved_distance` -/

section Distance

variable {heap : List LinkstateNode} {p : Ptr} {cells : Cells} (mac : Mac)

theorem u32OfInt_intOfU32 (w : U32) : u32OfInt (intOfU32 w) = w := BitVec.ofInt_toInt

/-- One round of the minimum: the signed accumulator holds the lesser unsigned weight. -/
theorem least_step (dist : Int) (l : Link) (ls : List Link) :
    min (u32OfInt (if compMacAddrs l.remoteInfo.macaddr mac = 0 ∧ u32OfInt dist > l.linkweight
        then intOfU32 l.linkweight else dist)).toNat (Topology.leastWeight mac ls) =
      min (u32OfInt dist).toNat (Topology.leastWeight mac (l :: ls)) := by
  by_cases hmac : l.remoteInfo.macaddr = mac
  · by_cases hlt : u32OfInt dist > l.linkweight
    · have hlt' : l.linkweight.toNat < (u32OfInt dist).toNat := hlt
      simp only [compMacAddrs_eq_zero, hmac, hlt, and_self, if_true, u32OfInt_intOfU32,
        Topology.leastWeight]
      omega
    · have hle : (u32OfInt dist).toNat ≤ l.linkweight.toNat := Nat.le_of_not_lt hlt
      simp only [compMacAddrs_eq_zero, hmac, hlt, and_false, if_false, if_true, Topology.leastWeight]
      omega
  · simp [hmac, Topology.leastWeight]

theorem getLowestSavedDistanceLoop_cons {x : Addr × LinkstateNode} (hc : heap[x.1]? = some x.2)
    (fuel : Nat) (dist : Int) :
    getLowestSavedDistanceLoop heap mac (fuel + 1) (some x.1) dist =
      getLowestSavedDistanceLoop heap mac fuel x.2.next
        (if compMacAddrs x.2.remoteInfo.macaddr mac = 0 ∧ u32OfInt dist > x.2.linkweight
          then intOfU32 x.2.linkweight else dist) := by
  simp only [getLowestSavedDistanceLoop, hc, Option.bind_eq_bind, Option.bind_some]
  split <;> rfl

theorem getLowestSavedDistanceLoop_some (hs : NodeList heap p cells) {fuel : Nat} {dist d : Int}
    (h : getLowestSavedDistanceLoop heap mac fuel p dist = some d) :
    (u32OfInt d).toNat = min (u32OfInt dist).toNat (Topology.leastWeight mac cells.links) := by
  induction cells generalizing p fuel dist with
  | nil =>
    cases hs
    cases fuel with
    | zero => cases h
    | succ fuel =>
      simp only [getLowestSavedDistanceLoop, Option.some.injEq] at h
      subst h
      have hlt := (u32OfInt dist).isLt
      simp only [Cells.links_nil, Topology.leastWeight]
      omega
  | cons x xs ih =>
    obtain ⟨hp, hc, hrest⟩ := hs
    subst hp
    cases fuel with
    | zero => cases h
    | succ fuel =>
      rw [getLowestSavedDistanceLoop_cons mac hc] at h
      rw [ih hrest h, Cells.links_cons]
      exact least_step mac dist x.2.toLink (Cells.links xs)

theorem getLowestSavedDistanceLoop_isSome (hs : NodeList heap p cells) {fuel : Nat}
    (hfuel : cells.length < fuel) (dist : Int) :
    ∃ d, getLowestSavedDistanceLoop heap mac fuel p dist = some d := by
  induction cells generalizing p fuel dist with
  | nil =>
    obtain ⟨fuel, rfl⟩ := Nat.exists_eq_add_of_lt hfuel
    cases hs
    exact ⟨dist, by simp [getLowestSavedDistanceLoop]⟩
  | cons x xs ih =>
    obtain ⟨hp, hc, hrest⟩ := hs
    subst hp
    cases fuel with
    | zero => omega
    | succ fuel =>
      rw [getLowestSavedDistanceLoop_cons mac hc]
      exact ih hrest (by simpa using hfuel) _

end Distance

theorem leastWeight_lt (mac : Mac) (ls : List Link) : Topology.leastWeight mac ls < 2 ^ 32 := by
  induction ls with
  | nil => simp [Topology.leastWeight]
  | cons l ls ih =>
    simp only [Topology.leastWeight]
    split
    · omega
    · exact ih

theorem leastWeight_le {mac : Mac} {ls : List Link} {l : Link} (hl : l ∈ ls)
    (hmac : l.remoteInfo.macaddr = mac) : Topology.leastWeight mac ls ≤ l.linkweight.toNat := by
  induction ls with
  | nil => cases hl
  | cons a as ih =>
    unfold Topology.leastWeight
    rcases List.mem_cons.mp hl with rfl | hl
    · rw [if_pos hmac]
      omega
    · have hle := ih hl
      split <;> omega

/-- The distance of a complete search, read as `uint32_t`, is the least stored weight. -/
theorem getLowestSavedDistance_some {st : Proxy} {cells : Cells}
    (hs : NodeList st.heap st.memList.head cells) {fuel : Nat} {mac : Mac} {d : Int}
    (h : getLowestSavedDistance fuel mac st = some d) :
    u32OfInt d = BitVec.ofNat 32 (Topology.leastWeight mac cells.links) := by
  have hmin := getLowestSavedDistanceLoop_some mac hs h
  have hstart : (u32OfInt (-1)).toNat = 2 ^ 32 - 1 := by decide
  have hlt := leastWeight_lt mac cells.links
  apply BitVec.eq_of_toNat_eq
  rw [hmin, hstart, BitVec.toNat_ofNat, Nat.mod_eq_of_lt hlt]
  omega

end Cs352Proxy
