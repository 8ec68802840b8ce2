import Cs352Proxy.Walk

/-!
# Sweep

`delete_members` and `removeExpiredMembers` on a well-formed membership list do what
`Topology.expire` says.

* `deleteMembersLoop_some`: the one write of a deletion, when the list has a node with the MAC
  address.
* `removeExpiredLoop_refines`: the cursor and everything behind it stay on the list while the
  sweep deletes nodes at or before the cursor.
* `removeExpiredMembers_isSome`: a sweep ends, although nodes before the cursor are unlinked while
  the cursor moves on.
-/

namespace Cs352Proxy

open Base

/-- The writes of `delete_members` for the node `x` behind `prev`. -/
def Proxy.deleteNode (prev : Ptr) (x : LinkstateNode) (st : Proxy) : Proxy :=
  let st := st.deletesockfd x.remoteInfo.macaddr
  let st := match prev with
    | none => st.setHead x.next
    | some p => st.setNext p x.next
  st.setSize (st.memList.size - 1)

/-- The node before the ones that follow `c1`, or `prev` when there is none. -/
def lastOr (prev : Ptr) : Cells → Ptr
  | [] => prev
  | y :: ys => lastOr (some y.1) ys

@[simp] theorem lastOr_append (prev : Ptr) (ys : Cells) (b : Addr × LinkstateNode) :
    lastOr prev (ys ++ [b]) = some b.1 := by
  induction ys generalizing prev with
  | nil => rfl
  | cons y ys ih => exact ih _

theorem deleteMembersLoop_some {mac : Mac} {st st' : Proxy} {c1 c2 : Cells}
    {x : Addr × LinkstateNode} (hx : x.2.remoteInfo.macaddr = mac) {fuel : Nat} {prev p : Ptr}
    (hs : NodeList st.heap p (c1 ++ x :: c2)) (hc1 : ∀ y ∈ c1, y.2.remoteInfo.macaddr ≠ mac)
    (h : deleteMembersLoop mac fuel prev p st = some st') :
    st' = st.deleteNode (lastOr prev c1) x.2 := by
  induction c1 generalizing prev p fuel with
  | nil =>
    obtain ⟨hp, hget, _⟩ := hs
    subst hp
    cases fuel with
    | zero => cases h
    | succ fuel =>
      simp only [deleteMembersLoop, hget, Option.bind_eq_bind, Option.bind_some, compMacAddrs_eq_zero,
        hx, if_true, Option.some.injEq] at h
      subst h
      unfold Proxy.deleteNode
      rw [hx]
      rfl
  | cons y ys ih =>
    obtain ⟨hp, hget, hrest⟩ := hs
    subst hp
    cases fuel with
    | zero => cases h
    | succ fuel =>
      have hy := hc1 y (by simp)
      simp only [deleteMembersLoop, hget, Option.bind_eq_bind, Option.bind_some, compMacAddrs_eq_zero,
        hy, if_false] at h
      exact ih hrest (fun z hz => hc1 z (by simp [hz])) h

theorem deleteMembersLoop_absent {mac : Mac} {st st' : Proxy} {cells : Cells} {fuel : Nat}
    {prev p : Ptr} (hs : NodeList st.heap p cells) (hmac : ∀ y ∈ cells, y.2.remoteInfo.macaddr ≠ mac)
    (h : deleteMembersLoop mac fuel prev p st = some st') : st' = st := by
  induction cells generalizing prev p fuel with
  | nil =>
    cases hs
    cases fuel with
    | zero => cases h
    | succ fuel => cases h; rfl
  | cons y ys ih =>
    obtain ⟨hp, hget, hrest⟩ := hs
    subst hp
    cases fuel with
    | zero => cases h
    | succ fuel =>
      have hy := hmac y List.mem_cons_self
      simp only [deleteMembersLoop, hget, Option.bind_eq_bind, Option.bind_some, compMacAddrs_eq_zero,
        hy, if_false] at h
      exact ih hrest (fun z hz => hmac z (List.mem_cons_of_mem _ hz)) h

/-- The writes of a completed `delete_members`, on any heap. -/
theorem deleteMembersLoop_cases {mac : Mac} {st st' : Proxy} {fuel : Nat} {prev p : Ptr}
    (h : deleteMembersLoop mac fuel prev p st = some st') :
    st' = st ∨ ∃ prev' curr x, st.heap[curr]? = some x ∧ st' = st.deleteNode prev' x ∧
      (prev' = prev ∧ p = some curr ∨
        ∃ b nb, prev' = some b ∧ st.heap[b]? = some nb ∧ nb.next = some curr) := by
  induction fuel generalizing prev p with
  | zero => cases h
  | succ fuel ih =>
    cases p with
    | none => cases h; exact .inl rfl
    | some curr =>
      simp only [deleteMembersLoop, Option.bind_eq_bind, Option.bind_eq_some_iff,
        compMacAddrs_eq_zero] at h
      obtain ⟨x, hx, h⟩ := h
      split at h
      · cases h
        exact .inr ⟨prev, curr, x, hx, rfl, .inl ⟨rfl, rfl⟩⟩
      · rcases ih h with hst | ⟨prev', curr', x', hx', hst, hat⟩
        · exact .inl hst
        · refine .inr ⟨prev', curr', x', hx', hst, .inr ?_⟩
          rcases hat with ⟨hprev, hnext⟩ | hlater
          · exact ⟨curr, x, hprev, hx, hnext⟩
          · exact hlater

theorem deleteMembers_cases {a : Addr} {st st' : Proxy} {fuel : Nat}
    (h : deleteMembers fuel a st = some st') :
    st' = st ∨ ∃ prev curr x, st.heap[curr]? = some x ∧ st' = st.deleteNode prev x ∧
      (prev = none ∨ ∃ b nb, prev = some b ∧ st.heap[b]? = some nb ∧ nb.next = some curr) := by
  simp only [deleteMembers, Option.bind_eq_bind, Option.bind_eq_some_iff] at h
  obtain ⟨node, _, h⟩ := h
  rcases deleteMembersLoop_cases h with hst | ⟨prev, curr, x, hx, hst, hat⟩
  · exact .inl hst
  · exact .inr ⟨prev, curr, x, hx, hst, hat.imp_left And.left⟩

@[simp] theorem Proxy.deleteNode_socketfds (prev : Ptr) (x : LinkstateNode) (st : Proxy) :
    (st.deleteNode prev x).socketfds =
      remove ProxySocketfd.key st.socketfds x.remoteInfo.macaddr.key := by
  cases prev <;> simp [deleteNode]

@[simp] theorem Proxy.deleteNode_size (prev : Ptr) (x : LinkstateNode) (st : Proxy) :
    (st.deleteNode prev x).memList.size = st.memList.size - 1 := by
  cases prev <;> simp [deleteNode]

theorem deleteNode_same {st : Proxy} {c1 c2 : Cells} {x : Addr × LinkstateNode}
    (hs : NodeList st.heap st.memList.head (c1 ++ x :: c2)) :
    ∀ z ∈ c2, (st.deleteNode (lastOr none c1) x.2).heap[z.1]? = some z.2 := by
  intro z hz
  have hget : st.heap[z.1]? = some z.2 := hs.get z (by simp [hz])
  rcases List.eq_nil_or_concat c1 with hnil | ⟨pre, b, hcat⟩
  · subst hnil
    simpa [lastOr, Proxy.deleteNode] using hget
  · subst hcat
    have hne : b.1 ≠ z.1 := by
      have hnd := hs.nodup
      rw [List.map_append, List.nodup_append] at hnd
      exact hnd.2.2 b.1 (by simp) z.1 (List.mem_map_of_mem (List.mem_cons_of_mem _ hz))
    simp [Proxy.deleteNode, hne, hget]

theorem deleteNode_list {st : Proxy} {c1 c2 : Cells} {x : Addr × LinkstateNode}
    (hs : NodeList st.heap st.memList.head (c1 ++ x :: c2)) :
    ∃ c1', NodeList (st.deleteNode (lastOr none c1) x.2).heap
        (st.deleteNode (lastOr none c1) x.2).memList.head (c1' ++ c2) ∧ c1'.bare = c1.bare := by
  rcases List.eq_nil_or_concat c1 with hnil | ⟨pre, b, hcat⟩
  · subst hnil
    obtain ⟨_, _, hrest⟩ := hs
    refine ⟨[], ?_, rfl⟩
    simpa [lastOr, Proxy.deleteNode] using hrest
  · subst hcat
    rw [List.concat_eq_append] at hs ⊢
    refine ⟨pre ++ [(b.1, { b.2 with next := x.2.next })], ?_, by simp⟩
    have hb : st.heap[b.1]? = some b.2 := hs.get b (by simp)
    rw [List.append_assoc] at hs ⊢
    have hlist : NodeList (st.heap.modify b.1 fun n => { n with next := x.2.next }) st.memList.head
        (pre ++ (b.1, { b.2 with next := x.2.next }) :: c2) :=
      Seg.unlink hs (by simp [hb]) rfl fun y hy => List.getElem?_modify_ne _ _ hy.symm
    simpa [Proxy.deleteNode] using hlist

/-! ## The sweep -/

theorem split_first {mac : Mac} (cells : Cells) {y : Addr × LinkstateNode} (hy : y ∈ cells)
    (hmac : y.2.remoteInfo.macaddr = mac) :
    ∃ c1 x c2, cells = c1 ++ x :: c2 ∧ x.2.remoteInfo.macaddr = mac ∧
      ∀ z ∈ c1, z.2.remoteInfo.macaddr ≠ mac := by
  induction cells with
  | nil => cases hy
  | cons z zs ih =>
    by_cases hz : z.2.remoteInfo.macaddr = mac
    · exact ⟨[], z, zs, rfl, hz, by simp⟩
    · have hyz : y ∈ zs := by
        rcases List.mem_cons.mp hy with rfl | hy
        · exact absurd hmac hz
        · exact hy
      obtain ⟨c1, x, c2, rfl, hx, hc1⟩ := ih hyz
      exact ⟨z :: c1, x, c2, rfl, hx, List.forall_mem_cons.mpr ⟨hz, hc1⟩⟩

theorem dropFirst_links {mac : Mac} {c1 c2 : Cells} {x : Addr × LinkstateNode}
    (hx : x.2.remoteInfo.macaddr = mac) (hc1 : ∀ y ∈ c1, y.2.remoteInfo.macaddr ≠ mac) :
    Topology.dropFirst mac (Cells.links (c1 ++ x :: c2)) = c1.links ++ Cells.links c2 := by
  induction c1 with
  | nil => simp [Topology.dropFirst, hx]
  | cons y ys ih =>
    have hy := hc1 y (by simp)
    have hrest := ih fun z hz => hc1 z (by simp [hz])
    unfold Topology.dropFirst at hrest ⊢
    rw [List.cons_append, Cells.links_cons, List.eraseP_cons_of_neg (by simp [hy]), hrest]
    rfl

/-- What `delete_members(y)` does: it deletes the first node with the MAC address of `y`, which is
`y` or a node before it. -/
theorem deleteMembers_node {st st' : Proxy} {pre cur : Cells} {y : Addr × LinkstateNode} {fuel : Nat}
    (hs : NodeList st.heap st.memList.head (pre ++ y :: cur))
    (h : deleteMembers fuel y.1 st = some st') :
    ∃ (c1 : Cells) (x : Addr × LinkstateNode) (c2 c1' : Cells), pre ++ [y] = c1 ++ x :: c2 ∧
      x.2.remoteInfo.macaddr = y.2.remoteInfo.macaddr ∧
      (∀ z ∈ c1, z.2.remoteInfo.macaddr ≠ y.2.remoteInfo.macaddr) ∧
      st' = st.deleteNode (lastOr none c1) x.2 ∧ c1'.bare = c1.bare ∧
      NodeList st'.heap st'.memList.head ((c1' ++ c2) ++ cur) ∧ NodeList st'.heap y.2.next cur := by
  have hget : st.heap[y.1]? = some y.2 := hs.get y (by simp)
  simp only [deleteMembers, hget, Option.bind_eq_bind, Option.bind_some] at h
  obtain ⟨c1, x, c2, hsplit, hx, hc1⟩ :=
    split_first (pre ++ [y]) (List.mem_append_right pre List.mem_cons_self) rfl
  have hcells : pre ++ y :: cur = c1 ++ x :: (c2 ++ cur) := by
    rw [List.append_cons, hsplit]; simp
  obtain ⟨_, _, _, _, hcur⟩ := seg_append.mp hs
  rw [hcells] at hs
  have hst := deleteMembersLoop_some hx hs hc1 h
  obtain ⟨c1', hlist, hbare⟩ := deleteNode_list hs
  subst hst
  refine ⟨c1, x, c2, c1', hsplit, hx, hc1, rfl, hbare, by rw [List.append_assoc]; exact hlist, ?_⟩
  exact hcur.frame fun z hz => deleteNode_same hs z (by simp [hz])

theorem deleteMembers_refines {st st' : Proxy} {t : Topology} {pre cur : Cells}
    {y : Addr × LinkstateNode} {fuel : Nat} (hs : Shows st t (pre ++ y :: cur))
    (h : deleteMembers fuel y.1 st = some st') :
    ∃ pre', Shows st'
      { links := Topology.dropFirst y.2.remoteInfo.macaddr t.links
        size := t.size - 1
        routes := remove ProxySocketfd.key t.routes y.2.remoteInfo.macaddr.key } (pre' ++ cur) ∧
      NodeList st'.heap y.2.next cur ∧ pre'.bare.Sublist (Cells.bare (pre ++ [y])) := by
  obtain ⟨c1, x, c2, c1', hsplit, hx, hc1, hst, hbare, hlist, hcur⟩ := deleteMembers_node hs.list h
  have hcells : pre ++ y :: cur = c1 ++ x :: (c2 ++ cur) := by
    rw [List.append_cons, hsplit]; simp
  refine ⟨c1' ++ c2, ⟨hlist, ?_, ?_, ?_⟩, hcur, ?_⟩
  · rw [← hs.links, hcells, dropFirst_links hx hc1]
    simp [Cells.links_of_bare hbare]
  · rw [hst, Proxy.deleteNode_size, hs.size]
  · rw [hst, Proxy.deleteNode_socketfds, hs.routes, hx]
  · rw [hsplit, Cells.bare_append, Cells.bare_append, hbare, Cells.bare_cons]
    exact (List.sublist_cons_self _ _).append_left _

theorem doubleOfU64_some {t : U64} {i : Int} (h : doubleOfU64 t = some i) : i = t.toNat := by
  unfold doubleOfU64 at h
  split at h <;> cases h
  rfl

theorem mulInt_some {a b c : Int} (h : mulInt a b = some c) : c = a * b := by
  unfold mulInt at h
  split at h <;> cases h
  rfl

theorem removeExpiredLoop_some {fuel n : Nat} {time timeout : Int} {a : Addr} {st st' : Proxy}
    (h : removeExpiredLoop fuel time timeout (n + 1) (some a) st = some st') :
    ∃ node, st.heap[a]? = some node ∧ doubleOfU64 node.ID = some (node.ID.toNat : Int) ∧
      ((Topology.Expired time timeout node.toLink ∧ ∃ st₁, deleteMembers fuel a st = some st₁ ∧
          removeExpiredLoop fuel time timeout n node.next st₁ = some st') ∨
        (¬ Topology.Expired time timeout node.toLink ∧
          removeExpiredLoop fuel time timeout n node.next st = some st')) := by
  simp only [removeExpiredLoop, Option.bind_eq_bind, Option.bind_eq_some_iff] at h
  obtain ⟨node, hnode, id, hid, h⟩ := h
  have hid' := doubleOfU64_some hid
  subst hid'
  refine ⟨node, hnode, hid, ?_⟩
  split at h
  · rename_i hexp
    exact .inl ⟨hexp, Option.bind_eq_some_iff.mp h⟩
  · rename_i hexp
    exact .inr ⟨hexp, h⟩

theorem removeExpiredMembers_some {fuel : Nat} {now : U64} {linkTimeout : Int} {st st' : Proxy}
    (h : removeExpiredMembers fuel now linkTimeout st = some st') :
    doubleOfU64 now = some (now.toNat : Int) ∧
      mulInt linkTimeout 1000 = some (linkTimeout * 1000) ∧
      ∃ st₁, removeExpiredLoop fuel now.toNat (linkTimeout * 1000) fuel st.memList.head
        (st.emit .lock) = some st₁ ∧ st' = st₁.emit .unlock := by
  simp only [removeExpiredMembers, Option.bind_eq_bind, Option.bind_eq_some_iff] at h
  obtain ⟨time, htime, timeout, htimeout, st₁, hloop, h⟩ := h
  have hnow := doubleOfU64_some htime
  have hmul := mulInt_some htimeout
  subst hnow hmul
  cases h
  exact ⟨htime, htimeout, st₁, hloop, rfl⟩

/-- The loop with the cells before the cursor and those from it on. A deletion may take any cell up
to the cursor, so the goal after it is for every list that ends with the cells behind. -/
theorem removeExpiredLoop_induction {fuel : Nat} {time timeout : Int} {st' : Proxy}
    {P : Cells → Cells → Proxy → Prop} (done : ∀ pre, P pre [] st')
    (delete : ∀ {pre y cur st st₁}, NodeList st.heap st.memList.head (pre ++ y :: cur) →
      Topology.Expired time timeout y.2.toLink → deleteMembers fuel y.1 st = some st₁ →
      (∀ {pre'}, NodeList st₁.heap st₁.memList.head (pre' ++ cur) →
        NodeList st₁.heap y.2.next cur → P pre' cur st₁) → P pre (y :: cur) st)
    (keep : ∀ {pre y cur st}, ¬ Topology.Expired time timeout y.2.toLink →
      P (pre ++ [y]) cur st → P pre (y :: cur) st) (n : Nat) :
    ∀ {p : Ptr} {st : Proxy} {pre cur : Cells}, removeExpiredLoop fuel time timeout n p st = some st' →
      NodeList st.heap st.memList.head (pre ++ cur) → NodeList st.heap p cur → P pre cur st := by
  induction n with
  | zero => intro p st pre cur h; cases h
  | succ n ih =>
    intro p st pre cur h hs hcur
    cases cur with
    | nil =>
      cases hcur
      cases h
      exact done pre
    | cons y cur =>
      obtain ⟨hp, hy, hrest⟩ := hcur
      subst hp
      obtain ⟨node, hnode, _, hround⟩ := removeExpiredLoop_some h
      rw [hy] at hnode
      cases hnode
      rcases hround with ⟨hexp, st₁, hdel, h⟩ | ⟨hexp, h⟩
      · exact delete hs hexp hdel fun hs₁ hcur₁ => ih h hs₁ hcur₁
      · rw [List.append_cons] at hs
        exact keep hexp (ih h hs hrest)

theorem removeExpiredLoop_refines {fuel : Nat} {time timeout : Int} (n : Nat) {p : Ptr}
    {st st' : Proxy} {t : Topology} {pre cur : Cells}
    (h : removeExpiredLoop fuel time timeout n p st = some st') (hs : Shows st t (pre ++ cur))
    (hcur : NodeList st.heap p cur) :
    ∃ cells', Shows st' (cur.links.foldl (Topology.expireStep time timeout) t) cells' ∧
      cells'.bare.Sublist (Cells.bare (pre ++ cur)) := by
  have hall := removeExpiredLoop_induction (P := fun pre cur st => ∀ t, Shows st t (pre ++ cur) →
    ∃ cells', Shows st' (cur.links.foldl (Topology.expireStep time timeout) t) cells' ∧
      cells'.bare.Sublist (Cells.bare (pre ++ cur))) ?done ?delete ?keep n h hs.list hcur
  case done => exact fun pre t hs => ⟨pre ++ [], hs, List.Sublist.refl _⟩
  case delete =>
    intro pre y cur st st₁ _ hexp hdel ih t hs
    obtain ⟨pre', hs₁, hcur₁, hsub⟩ := deleteMembers_refines hs hdel
    obtain ⟨cells', hs', hsub'⟩ := ih hs₁.list hcur₁ _ hs₁
    refine ⟨cells', ?_, hsub'.trans ?_⟩
    · rw [Cells.links_cons, List.foldl_cons, Topology.expireStep, if_pos hexp]
      exact hs'
    · rw [List.append_cons pre y cur, Cells.bare_append, Cells.bare_append]
      exact hsub.append_right _
  case keep =>
    intro pre y cur st hexp ih t hs
    rw [List.append_cons] at hs ⊢
    obtain ⟨cells', hs', hsub⟩ := ih t hs
    refine ⟨cells', ?_, hsub⟩
    rw [Cells.links_cons, List.foldl_cons, Topology.expireStep, if_neg hexp]
    exact hs'
  exact hall t hs

theorem removeExpiredMembers_refines {fuel : Nat} {now : U64} {linkTimeout : Int} {st st' : Proxy}
    {t : Topology} {cells : Cells} (hs : Shows st t cells)
    (h : removeExpiredMembers fuel now linkTimeout st = some st') :
    ∃ cells', Shows st' (t.expire now.toNat (linkTimeout * 1000)) cells' ∧
      cells'.bare.Sublist cells.bare := by
  obtain ⟨_, _, st₁, hloop, rfl⟩ := removeExpiredMembers_some h
  have hs₀ : Shows (st.emit .lock) t ([] ++ cells) := ⟨hs.list, hs.links, hs.size, hs.routes⟩
  obtain ⟨cells', hs₁, hsub⟩ := removeExpiredLoop_refines fuel hloop hs₀ hs.list
  rw [hs.links] at hs₁
  exact ⟨cells', ⟨hs₁.list, hs₁.links, hs₁.size, hs₁.routes⟩, hsub⟩

/-! ## A sweep ends -/

theorem deleteMembersLoop_isSome {mac : Mac} {st : Proxy} {cells : Cells} {prev p : Ptr}
    (hs : NodeList st.heap p cells) {fuel : Nat} (hfuel : cells.length < fuel) :
    ∃ st', deleteMembersLoop mac fuel prev p st = some st' := by
  induction cells generalizing prev p fuel with
  | nil =>
    obtain ⟨fuel, rfl⟩ := Nat.exists_eq_add_of_lt hfuel
    cases hs
    exact ⟨st, by simp [deleteMembersLoop]⟩
  | cons x xs ih =>
    obtain ⟨hp, hc, hrest⟩ := hs
    subst hp
    cases fuel with
    | zero => omega
    | succ fuel =>
      simp only [deleteMembersLoop, hc, Option.bind_eq_bind, Option.bind_some]
      split
      · exact ⟨_, rfl⟩
      · exact ih hrest (by simpa using hfuel)

theorem deleteMembers_isSome {st : Proxy} {cells : Cells} {y : Addr × LinkstateNode}
    (hs : NodeList st.heap st.memList.head cells) (hy : y ∈ cells) {fuel : Nat}
    (hfuel : cells.length < fuel) : ∃ st', deleteMembers fuel y.1 st = some st' := by
  simp only [deleteMembers, hs.get y hy, Option.bind_eq_bind, Option.bind_some]
  exact deleteMembersLoop_isSome hs hfuel

/-- Induction on the nodes the cursor has not seen. -/
theorem removeExpiredLoop_isSome {fuel : Nat} {time timeout : Int} {cur : Cells} :
    ∀ {n : Nat} {p : Ptr} {st : Proxy} {pre : Cells}, cur.length < n →
      pre.length + cur.length < fuel → (∀ x ∈ cur, x.2.ID.toNat ≤ 2 ^ 53) →
      NodeList st.heap st.memList.head (pre ++ cur) → NodeList st.heap p cur →
      ∃ st', removeExpiredLoop fuel time timeout n p st = some st' := by
  induction cur with
  | nil =>
    intro n p st pre hn _ _ _ hcur
    obtain ⟨n, rfl⟩ := Nat.exists_eq_add_of_lt hn
    cases hcur
    exact ⟨st, by simp [removeExpiredLoop]⟩
  | cons y cur ih =>
    intro n p st pre hn hfuel hids hs hcur
    obtain ⟨hp, hy, hrest⟩ := hcur
    subst hp
    cases n with
    | zero => omega
    | succ n =>
      simp only [List.length_cons] at hn hfuel
      have hid : doubleOfU64 y.2.ID = some (y.2.ID.toNat : Int) := if_pos (hids y (by simp))
      have hids' : ∀ x ∈ cur, x.2.ID.toNat ≤ 2 ^ 53 := fun x hx => hids x (by simp [hx])
      simp only [removeExpiredLoop, hy, hid, Option.bind_eq_bind, Option.bind_some]
      split
      · have hsome : ∃ st₁, deleteMembers fuel y.1 st = some st₁ :=
          deleteMembers_isSome hs (by simp) (by simp; omega)
        obtain ⟨st₁, hdel⟩ := hsome
        obtain ⟨c1, x, c2, c1', hsplit, _, _, _, hbare, hs₁, hcur₁⟩ := deleteMembers_node hs hdel
        rw [hdel, Option.bind_some]
        have hlen := congrArg List.length hsplit
        have hlen' := congrArg List.length hbare
        simp only [List.length_append, List.length_cons, List.length_nil, Cells.bare,
          List.length_map] at hlen hlen'
        exact ih (by omega) (by simp; omega) hids' hs₁ hcur₁
      · rw [List.append_cons] at hs
        exact ih (by omega) (by simp; omega) hids' hs hrest

theorem removeExpiredMembers_isSome {fuel : Nat} {now : U64} {linkTimeout : Int} {st : Proxy}
    {cells : Cells} (hs : NodeList st.heap st.memList.head cells) (hfuel : cells.length < fuel)
    (hnow : now.toNat ≤ 2 ^ 53) (hids : ∀ x ∈ cells, x.2.ID.toNat ≤ 2 ^ 53)
    (htimeout : -(2 ^ 31) ≤ linkTimeout * 1000 ∧ linkTimeout * 1000 < 2 ^ 31) :
    ∃ st', removeExpiredMembers fuel now linkTimeout st = some st' := by
  have htime : doubleOfU64 now = some (now.toNat : Int) := if_pos hnow
  have hmul : mulInt linkTimeout 1000 = some (linkTimeout * 1000) := if_pos htimeout
  have hs₀ : NodeList (st.emit .lock).heap (st.emit .lock).memList.head ([] ++ cells) := hs
  have hloop : ∃ st', removeExpiredLoop fuel (now.toNat : Int) (linkTimeout * 1000) fuel
      (st.emit .lock).memList.head (st.emit .lock) = some st' :=
    removeExpiredLoop_isSome hfuel (by simpa using hfuel) hids hs₀ hs
  obtain ⟨st', hloop⟩ := hloop
  exact ⟨st'.emit .unlock, by
    simp only [removeExpiredMembers, htime, hmul, Option.bind_eq_bind, Option.bind_some, hloop]⟩

end Cs352Proxy
