import Cs352Proxy.RoundTrip
import Cs352Proxy.Sweep

/-!
# Deletion

Does `delete_members(y)` delete `y`? It deletes the first node with the remote MAC address of `y`
and the forwarding entry of that address. That is `y` unless an earlier node has the address, and
the entry goes even if a later node still has it.
-/

namespace Cs352Proxy

open Base

/-- The node `y` between `pre` and `post` is gone, the other nodes are left as they were. The
forwarding entry goes with the last node that has its address. -/
structure DeletesNode (st st' : Proxy) (pre : Cells) (y : Addr × LinkstateNode) (post : Cells) :
    Prop where
  list : ∃ cells', NodeList st'.heap st'.memList.head cells' ∧ cells'.bare = Cells.bare (pre ++ post)
  size : st'.memList.size = st.memList.size - 1
  table : st'.socketfds =
    if ∃ z ∈ pre ++ post, z.2.remoteInfo.macaddr = y.2.remoteInfo.macaddr then st.socketfds
    else remove ProxySocketfd.key st.socketfds y.2.remoteInfo.macaddr.key

/-- A node of `pre ++ [y]` is `y` or a node of `pre`. -/
theorem last_or_before {pre c1 c2 : Cells} {x y : Addr × LinkstateNode}
    (hsplit : pre ++ [y] = c1 ++ x :: c2) :
    (pre = c1 ∧ y = x ∧ c2 = []) ∨ ∃ c2', pre = c1 ++ x :: c2' ∧ c2 = c2' ++ [y] := by
  rcases List.eq_nil_or_concat c2 with hnil | ⟨c2', z, hcat⟩
  · subst hnil
    obtain ⟨hpre, hy⟩ := List.append_inj' hsplit rfl
    exact .inl ⟨hpre, (List.cons.inj hy).1, rfl⟩
  · rw [List.concat_eq_append] at hcat
    rw [hcat, ← List.cons_append, ← List.append_assoc] at hsplit
    obtain ⟨hpre, hy⟩ := List.append_inj' hsplit rfl
    exact .inr ⟨c2', hpre, by rw [hcat, hy]⟩

/-- `delete_members(y)` deletes `y` exactly if no earlier node has its MAC address and, when a later
one has it, the table has no entry for it. -/
theorem deletesNode_iff {st : Proxy} {pre post : Cells} {y : Addr × LinkstateNode}
    (hs : NodeList st.heap st.memList.head (pre ++ y :: post)) {fuel : Nat}
    (hfuel : (pre ++ y :: post).length < fuel) :
    ∃ st', deleteMembers fuel y.1 st = some st' ∧
      (DeletesNode st st' pre y post ↔
        (∀ z ∈ pre, z.2.remoteInfo.macaddr ≠ y.2.remoteInfo.macaddr) ∧
          ((∃ z ∈ post, z.2.remoteInfo.macaddr = y.2.remoteInfo.macaddr) →
            st.findSocketfd y.2.remoteInfo.macaddr = none)) := by
  have hsome : ∃ st', deleteMembers fuel y.1 st = some st' := deleteMembers_isSome hs (by simp) hfuel
  obtain ⟨st', h⟩ := hsome
  refine ⟨st', h, ?_⟩
  obtain ⟨c1, x, c2, c1', hsplit, hx, hc1, hst, hbare, hlist, _⟩ := deleteMembers_node hs h
  have htable : st'.socketfds = remove ProxySocketfd.key st.socketfds y.2.remoteInfo.macaddr.key := by
    rw [hst, Proxy.deleteNode_socketfds, hx]
  have hsize : st'.memList.size = st.memList.size - 1 := by rw [hst, Proxy.deleteNode_size]
  rcases last_or_before hsplit with ⟨rfl, rfl, rfl⟩ | ⟨c2', hpre, hc2⟩
  · -- no earlier node has the address
    constructor
    · intro hd
      refine ⟨hc1, fun hpost => ?_⟩
      obtain ⟨z, hz, hmac⟩ := hpost
      have hkept := hd.table
      rw [if_pos ⟨z, by simp [hz], hmac⟩, htable] at hkept
      exact remove_eq_self_iff.mp hkept
    · intro hc
      refine ⟨⟨_, hlist, by simp [hbare]⟩, hsize, ?_⟩
      rw [htable]
      split
      · rename_i hmore
        obtain ⟨z, hz, hmac⟩ := hmore
        rcases List.mem_append.mp hz with hz | hz
        · exact absurd hmac (hc1 z hz)
        · exact remove_of_lookup_none (hc.2 ⟨z, hz, hmac⟩)
      · rfl
  · -- `x` goes and `y` stays
    refine ⟨fun hd => ?_, fun hc => absurd hx (hc.1 x (by simp [hpre]))⟩
    exfalso
    obtain ⟨cells', hlist', hbare'⟩ := hd.list
    have hy : y.1 ∈ cells'.map Prod.fst := by
      rw [hlist'.unique hlist, hc2]
      simp
    have hfst := congrArg (List.map Prod.fst) hbare'
    simp only [Cells.bare, List.map_map, Function.comp_def] at hfst
    rw [hfst] at hy
    have hnd := hs.nodup
    rw [List.map_append, List.map_cons, List.nodup_middle, ← List.map_append] at hnd
    exact (List.nodup_cons.mp hnd).1 hy

/-- The second of two links to `host 2` has expired. Deleting it deletes the first one, and the
entry. -/
theorem delete_second_deletes_first : ∃ (st st' : Proxy) (pre : Cells) (y : Addr × LinkstateNode)
    (post : Cells) (fuel : Nat), NodeList st.heap st.memList.head (pre ++ y :: post) ∧
    deleteMembers fuel y.1 st = some st' ∧ st'.memList.head = some y.1 ∧
    ¬ DeletesNode st st' pre y post := by
  let ls : List Link := [linkTo (host 1) (host 2), linkTo (host 3) (host 2)]
  let st : Proxy := { storing ls with socketfds := [{ macaddr := (host 2).macaddr, sockFd := 4 }] }
  have hlist : NodeList st.heap st.memList.head (cellsAt 0 (linkNodes 0 ls none)) :=
    storing_list (by decide)
  refine ⟨st, _, [_], _, [], 3, hlist, rfl, rfl, fun h => ?_⟩
  have htable := h.table
  revert htable
  decide

/-- The last link to `host 2` is deleted with its entry. -/
theorem delete_last_link :
    let ls : List Link := [linkTo (host 1) (host 2), linkTo (host 1) (host 3)]
    let st : Proxy := { storing ls with
      socketfds := [{ macaddr := (host 2).macaddr, sockFd := 4 }, { macaddr := (host 3).macaddr, sockFd := 5 }] }
    let x : Addr × LinkstateNode := (0, { linkTo (host 1) (host 2) with next := some 1 })
    let y : Addr × LinkstateNode := (1, { linkTo (host 1) (host 3) with next := none })
    ∃ st', deleteMembers 3 1 st = some st' ∧ DeletesNode st st' [x] y [] := by
  intro ls st x y
  have hlist : NodeList st.heap st.memList.head ([x] ++ y :: []) := ⟨rfl, rfl, rfl, rfl, rfl⟩
  have hfuel : ([x] ++ y :: []).length < 3 := by decide
  obtain ⟨st', h, hiff⟩ := deletesNode_iff hlist hfuel
  exact ⟨st', h, hiff.mpr (by decide)⟩

end Cs352Proxy
