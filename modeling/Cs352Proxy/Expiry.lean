import Cs352Proxy.Knowledge
import Cs352Proxy.RoundTrip
import Cs352Proxy.Sweep

/-!
# Expiry

What a sweep leaves of the list and the table. For each MAC address as many nodes are left as have
not expired: not always the same ones, since `delete_members` takes the first node with the address.
-/

namespace Cs352Proxy

open Base

/-- A sweep turned the list `cells` into `cells'`. -/
structure SweptTo (time timeout : Int) (st st' : Proxy) (cells cells' : Cells) : Prop where
  list : NodeList st'.heap st'.memList.head cells'
  sublist : cells'.bare.Sublist cells.bare
  count : ∀ mac, (cells'.countP fun x => x.2.remoteInfo.macaddr = mac) =
    cells.countP fun x => x.2.remoteInfo.macaddr = mac ∧ ¬ Topology.Expired time timeout x.2.toLink
  size : st'.memList.size =
    st.memList.size - (cells.countP fun x => Topology.Expired time timeout x.2.toLink : Nat)
  table : st'.socketfds =
    st.socketfds.filter fun e => e.key ∉ Topology.expiredKeys time timeout cells.links

theorem length_onTo_links (mac : Mac) (cells : Cells) :
    (Topology.onTo mac cells.links).length = cells.countP fun x => x.2.remoteInfo.macaddr = mac := by
  rw [Topology.onTo, ← List.countP_eq_length_filter, Cells.links, List.countP_map]
  rfl

theorem removeExpiredMembers_sweptTo {fuel : Nat} {now : U64} {linkTimeout : Int} {st st' : Proxy}
    {cells : Cells} (hs : NodeList st.heap st.memList.head cells)
    (hkeys : (st.socketfds.map ProxySocketfd.key).Nodup)
    (h : removeExpiredMembers fuel now linkTimeout st = some st') :
    ∃ cells', SweptTo now.toNat (linkTimeout * 1000) st st' cells cells' := by
  obtain ⟨cells', hs', hsub⟩ := removeExpiredMembers_refines (shows_topology hs) h
  rw [Proxy.topology] at hs'
  refine ⟨cells', hs'.list, hsub, ?_, ?_, ?_⟩
  · intro mac
    rw [← length_onTo_links, hs'.links, Topology.expire_onTo_length, Topology.onTo,
      List.countP_filter, Cells.links, List.countP_map]
    congr 1
    funext x
    simp [Bool.and_comm]
  · rw [hs'.size, Topology.expire_size, Cells.links, List.countP_map]
    rfl
  · rw [hs'.routes, Topology.expire_filter _ _ hkeys]

/-- A sweep of a null-terminated list ends, drops as many links to each address as have expired, and
drops the forwarding entries of the addresses that an expired link leads to. -/
theorem sweep_drops_expired {st : Proxy} {cells : Cells}
    (hs : NodeList st.heap st.memList.head cells)
    (hkeys : (st.socketfds.map ProxySocketfd.key).Nodup) {now : U64} (hnow : now.toNat ≤ 2 ^ 53)
    (hids : ∀ x ∈ cells, x.2.ID.toNat ≤ 2 ^ 53) {linkTimeout : Int}
    (htimeout : -(2 ^ 31) ≤ linkTimeout * 1000 ∧ linkTimeout * 1000 < 2 ^ 31) {fuel : Nat}
    (hfuel : cells.length < fuel) :
    ∃ st' cells', removeExpiredMembers fuel now linkTimeout st = some st' ∧
      SweptTo now.toNat (linkTimeout * 1000) st st' cells cells' := by
  obtain ⟨st', h⟩ := removeExpiredMembers_isSome hs hfuel hnow hids htimeout
  obtain ⟨cells', hswept⟩ := removeExpiredMembers_sweptTo hs hkeys h
  exact ⟨st', cells', h, hswept⟩

/-- Of two links to `host 2` the second one expires, the first one goes, and the entry with it. -/
theorem one_of_three_expires :
    let ls : List Link := [{ linkTo (host 1) (host 2) with ID := 19000 },
      { linkTo (host 3) (host 2) with ID := 1000 }, { linkTo (host 1) (host 3) with ID := 18000 }]
    let st : Proxy := { storing ls with
      socketfds := [{ macaddr := (host 3).macaddr, sockFd := 5 }, { macaddr := (host 2).macaddr, sockFd := 4 }] }
    ∃ st' cells', removeExpiredMembers 4 20000 15 st = some st' ∧
      SweptTo 20000 15000 st st' (cellsAt 0 (linkNodes 0 ls none)) cells' := by
  intro ls st
  have hlist : NodeList st.heap st.memList.head (cellsAt 0 (linkNodes 0 ls none)) :=
    storing_list (by decide)
  exact sweep_drops_expired hlist (by decide) (by decide) (by decide) (by decide) (by decide)

end Cs352Proxy
