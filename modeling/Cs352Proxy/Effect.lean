import Cs352Proxy.Learn

/-!
# Effect

All that one call of `add_member_connect` does to a state. Either it stores the received node in
front of the list, with or without a change to the one forwarding entry of the node's remote
address, or it changes at most the time of one stored node.
-/

namespace Cs352Proxy

open Base

section Effect

variable (env : Env) (now : U64) (gw : Int) (a : Addr) (recv : LinkstateNode) (st st' : Proxy)
  (cells : Cells)

/-- The time of the first node with the addresses of `recv` the other way round. It is set for a
remote MAC address without an entry that is zero or this proxy's own. -/
def RefreshesFirst (cells' : Cells) : Prop :=
  st.findSocketfd recv.remoteInfo.macaddr = none ∧
    (recv.remoteInfo.macaddr = Mac.zero ∨ recv.remoteInfo.macaddr = env.myProxyInfo.macaddr) ∧
    ∃ pre x post, cells = pre ++ x :: post ∧ Topology.reverses recv.toLink x.2.toLink ∧
      (∀ z ∈ pre, ¬ Topology.reverses recv.toLink z.2.toLink) ∧
      cells' = pre ++ (x.1, { x.2 with ID := now }) :: post

/-- Nothing is stored. -/
structure LeavesOut : Prop where
  list : ∃ cells', NodeList st'.heap st'.memList.head cells' ∧
    (cells' = cells ∨ RefreshesFirst env now recv st cells cells')
  memList : st'.memList = st.memList
  table : st'.socketfds = st.socketfds
  other : ∀ b, b ∉ cells.map Prod.fst → st'.heap[b]? = st.heap[b]?

/-- `recv` is stored at the front. The table stays as it was, gets a new entry, or one entry of it
gets the gateway's socket. -/
structure TakesIn : Prop where
  list : ∃ w, NodeList st'.heap st'.memList.head
    ((a, { recv with linkweight := w, ID := now, next := st.memList.head }) :: cells)
  size : st'.memList.size = st.memList.size + 1
  table : st'.socketfds = st.socketfds ∨
    (st.findSocketfd recv.remoteInfo.macaddr = none ∧
      st'.socketfds = { macaddr := recv.remoteInfo.macaddr, sockFd := gw } :: st.socketfds) ∨
    ((st.findSocketfd recv.remoteInfo.macaddr).isSome ∧
      st'.socketfds = assign ProxySocketfd.key (fun s => { s with sockFd := gw }) st.socketfds
        recv.remoteInfo.macaddr.key)
  other : ∀ b, b ≠ a → st'.heap[b]? = st.heap[b]?

end Effect

/-- One call on a node that is not on the list returns, and exactly one of the two happened. -/
theorem addMemberConnect_effect (env : Env) (now : U64) (gw : Int) {a : Addr} {recv : LinkstateNode}
    {st : Proxy} {cells : Cells} (hs : NodeList st.heap st.memList.head cells)
    (hr : st.heap[a]? = some recv) (ha : a ∉ cells.map Prod.fst) {fuel : Nat}
    (hfuel : cells.length < fuel) :
    ∃ st', addMemberConnect env fuel now gw a st = some st' ∧
      (LeavesOut env now recv st st' cells ∨ TakesIn now gw a recv st st' cells) ∧
      ¬ (LeavesOut env now recv st st' cells ∧ TakesIn now gw a recv st st' cells) := by
  have hsome : ∃ st', addMemberConnect env fuel now gw a st = some st' :=
    addMemberConnect_isSome hs hr hfuel
  obtain ⟨st', h⟩ := hsome
  refine ⟨st', h, ?_, ?_⟩
  · obtain ⟨recv', hr', hcases⟩ := addMemberConnect_cases h
    rw [hr] at hr'
    cases hr'
    have htake : ∀ {w : U32}, Pushed now a w st st' → _ → TakesIn now gw a recv st st' cells :=
      fun hpush htable => ⟨⟨_, hpush.list hr hs ha⟩, congrArg MembershipList.size hpush.2, htable,
        fun b hb => hpush.same hb⟩
    rcases hcases with ⟨hroute, hown, finder, hfinder, hheap, hmem, hsock⟩ | ⟨hroute, _, hpush, hsock⟩ |
      ⟨e, f, _, _, hheap, hmem, hsock⟩ | ⟨e, dist, saveDist, hroute, _, _, _, hpush, hsock⟩
    · -- a link to this proxy, or to an address that is not known yet
      have hfind := inMemberListLoop_some recv.toLink hs hfinder
      subst hfind
      obtain ⟨cells', hlist, hcells⟩ := refreshed_cells now recv.toLink hs
      refine .inl ⟨⟨cells', by rw [hheap, hmem]; exact hlist, ?_⟩, hmem, hsock, fun b hb => by
        rw [hheap, refreshed_other hb]⟩
      rcases hcells with ⟨hsame, _⟩ | hfirst
      · exact .inl hsame
      · exact .inr ⟨hroute, hown, hfirst⟩
    · exact .inr (htake hpush (.inr (.inl ⟨hroute, hsock⟩)))
    · exact .inl ⟨⟨cells, by rw [hheap, hmem]; exact hs, .inl rfl⟩, hmem, hsock, fun b _ => by rw [hheap]⟩
    · refine .inr (htake hpush ?_)
      rw [hsock]
      split
      · exact .inr (.inr ⟨by rw [hroute]; rfl, rfl⟩)
      · exact .inl rfl
  · intro hboth
    have hsize := hboth.2.size
    rw [hboth.1.memList] at hsize
    omega

/-- A link from `host 2` to `host 3` comes in over `host 2`, who is the only one known. -/
theorem new_link_effect :
    let known : LinkstateNode := { linkTo (host 1) (host 2) with next := none }
    let recv : LinkstateNode := { linkTo (host 2) (host 3) with next := none }
    let st : Proxy := { heap := [known, recv], memList := { head := some 0, size := 1 }
                        socketfds := [{ macaddr := (host 2).macaddr, sockFd := 4 }], trace := [] }
    ∃ st', addMemberConnect (hostEnv 1) 2 7 4 1 st = some st' ∧
      (LeavesOut (hostEnv 1) 7 recv st st' [(0, known)] ∨ TakesIn 7 4 1 recv st st' [(0, known)]) ∧
      ¬ (LeavesOut (hostEnv 1) 7 recv st st' [(0, known)] ∧ TakesIn 7 4 1 recv st st' [(0, known)]) := by
  intro known recv st
  have hlist : NodeList st.heap st.memList.head [(0, known)] := ⟨rfl, rfl, rfl⟩
  exact addMemberConnect_effect (hostEnv 1) 7 4 hlist rfl (by decide) (by decide)

end Cs352Proxy
