import Cs352Proxy.Walk

/-!
# Learn

`add_member_connect` and `add_members` on a well-formed membership list do what `Topology.learn`
and `Topology.merge` say.

* `addMemberConnect_cases`: everything one call can do, on any state.
* `addMemberConnect_refines`: one call on a state that shows a topology.
* `Caught`: the walk and the list are inside a loop of nodes. Storing a node that is already stored
  closes such a loop (`Pushed.caught`), and the walk never leaves it (`addMembersLoop_caught`).
* `addMembers_refines`: a walk that does end merged the received list.
-/

namespace Cs352Proxy

open Base

/-! ## One call -/

@[simp] theorem Proxy.linkNode_heap (a : Addr) (w : U32) (st : Proxy) :
    (st.linkNode a w).heap =
      st.heap.modify a fun n => { n with linkweight := w, next := st.memList.head } := by
  simp only [linkNode, setHead_heap, setLinkweight_heap, setNext_heap, List.modify_modify_eq]
  rfl

@[simp] theorem Proxy.pushNode_heap (a : Addr) (w : U32) (now : U64) (st : Proxy) :
    (st.pushNode a w now).heap =
      st.heap.modify a fun n => { n with linkweight := w, ID := now, next := st.memList.head } := by
  simp only [pushNode, setSize_heap, setID_heap, linkNode_heap, List.modify_modify_eq]
  rfl

@[simp] theorem Proxy.pushNode_memList (a : Addr) (w : U32) (now : U64) (st : Proxy) :
    (st.pushNode a w now).memList = { head := some a, size := st.memList.size + 1 } := rfl

@[simp] theorem Proxy.pushNode_socketfds (a : Addr) (w : U32) (now : U64) (st : Proxy) :
    (st.pushNode a w now).socketfds = st.socketfds := rfl

/-- The heap after the finder's node was given a new time. -/
def refreshed (now : U64) (finder : Ptr) (heap : List LinkstateNode) : List LinkstateNode :=
  match finder with
  | some f => heap.modify f fun n => { n with ID := now }
  | none => heap

/-- The call stored its node `a` with weight `w`. -/
def Pushed (now : U64) (a : Addr) (w : U32) (st st' : Proxy) : Prop :=
  st'.heap =
      st.heap.modify a (fun n => { n with linkweight := w, ID := now, next := st.memList.head }) ∧
    st'.memList = { head := some a, size := st.memList.size + 1 }

theorem addMemberConnect_cases {env : Env} {fuel : Nat} {now : U64} {gw : Int} {a : Addr}
    {st st' : Proxy} (h : addMemberConnect env fuel now gw a st = some st') :
    ∃ recv, st.heap[a]? = some recv ∧
      ((st.findSocketfd recv.remoteInfo.macaddr = none ∧
          (recv.remoteInfo.macaddr = Mac.zero ∨
            recv.remoteInfo.macaddr = env.myProxyInfo.macaddr) ∧
          ∃ finder, inMemberListLoop st.heap recv.localInfo recv.remoteInfo fuel st.memList.head =
              some finder ∧
            st'.heap = refreshed now finder st.heap ∧ st'.memList = st.memList ∧
            st'.socketfds = st.socketfds) ∨
        (st.findSocketfd recv.remoteInfo.macaddr = none ∧
          ¬ (recv.remoteInfo.macaddr = Mac.zero ∨
            recv.remoteInfo.macaddr = env.myProxyInfo.macaddr) ∧
          Pushed now a (recv.linkweight + 1) st st' ∧
          st'.socketfds = { macaddr := recv.remoteInfo.macaddr, sockFd := gw } :: st.socketfds) ∨
        (∃ e f, st.findSocketfd recv.remoteInfo.macaddr = some e ∧
          inMemberListLoop st.heap recv.localInfo recv.remoteInfo fuel st.memList.head =
              some (some f) ∧
          st'.heap = st.heap ∧ st'.memList = st.memList ∧ st'.socketfds = st.socketfds) ∨
        (∃ e dist saveDist, st.findSocketfd recv.remoteInfo.macaddr = some e ∧
          inMemberListLoop st.heap recv.localInfo recv.remoteInfo fuel st.memList.head =
              some none ∧
          getLowestSavedDistance fuel recv.localInfo.macaddr (st.emit .lock) = some dist ∧
          getLowestSavedDistance fuel recv.remoteInfo.macaddr (st.emit .lock) = some saveDist ∧
          Pushed now a (recv.linkweight + u32OfInt dist) st st' ∧
          st'.socketfds =
            if recv.linkweight + u32OfInt dist < u32OfInt saveDist then
              assign ProxySocketfd.key (fun s => { s with sockFd := gw }) st.socketfds
                recv.remoteInfo.macaddr.key
            else st.socketfds)) := by
  simp only [addMemberConnect, Option.bind_eq_bind, Proxy.emit_heap, Option.bind_eq_some_iff] at h
  obtain ⟨recv, hrecv, h⟩ := h
  refine ⟨recv, hrecv, ?_⟩
  have hfind : (st.emit .lock).findSocketfd recv.remoteInfo.macaddr =
      st.findSocketfd recv.remoteInfo.macaddr := rfl
  rw [hfind] at h
  cases hroute : st.findSocketfd recv.remoteInfo.macaddr with
  | none =>
    simp only [hroute] at h
    simp only [compMacZero_ne_zero, compMacAddrs_eq_zero] at h
    split at h
    · rename_i hown
      obtain ⟨finder, hfinder, h⟩ := Option.bind_eq_some_iff.mp h
      refine .inl ⟨rfl, hown, finder, hfinder, ?_⟩
      cases finder <;> cases h <;> exact ⟨rfl, rfl, rfl⟩
    · rename_i hown
      cases h
      exact .inr (.inl ⟨rfl, hown, ⟨by simp, by simp⟩, rfl⟩)
  | some e =>
    simp only [hroute] at h
    obtain ⟨finder, hfinder, h⟩ := Option.bind_eq_some_iff.mp h
    cases finder with
    | some f =>
      cases h
      exact .inr (.inr (.inl ⟨e, f, rfl, hfinder, rfl, rfl, rfl⟩))
    | none =>
      simp only [Option.bind_eq_some_iff] at h
      obtain ⟨dist, hdist, saveDist, hsave, h⟩ := h
      refine .inr (.inr (.inr ⟨e, dist, saveDist, rfl, hfinder, hdist, hsave, ?_⟩))
      split at h <;> rename_i hlt <;> cases h
      · exact ⟨⟨by simp, by simp⟩, by rw [if_pos hlt]; rfl⟩
      · exact ⟨⟨by simp, by simp⟩, by rw [if_neg hlt]; rfl⟩

/-! ### A call that stores nothing -/

/-- What a new time leaves alone in each cell. -/
def Cells.shape (cells : Cells) : List (Addr × ProxyInfo × ProxyInfo × Ptr) :=
  cells.map fun x => (x.1, x.2.localInfo, x.2.remoteInfo, x.2.next)

theorem Cells.map_fst_of_shape {xs ys : Cells} (h : xs.shape = ys.shape) :
    xs.map Prod.fst = ys.map Prod.fst := by
  have hmap := congrArg (List.map Prod.fst) h
  simpa [shape, Function.comp_def] using hmap

theorem Cells.shape_append_eq {zs pre cur : Cells} (h : zs.shape = (pre ++ cur).shape) :
    ∃ pre' cur', zs = pre' ++ cur' ∧ pre'.shape = pre.shape ∧ cur'.shape = cur.shape := by
  rw [show (pre ++ cur).shape = pre.shape ++ cur.shape from List.map_append] at h
  exact List.map_eq_append_iff.mp h

/-- `h'` differs from `h` at addresses of `cells` only. -/
def SameOff (cells : Cells) (h h' : List LinkstateNode) : Prop :=
  ∀ a, a ∉ cells.map Prod.fst → h'[a]? = h[a]?

theorem refreshed_next (now : U64) (finder : Ptr) (heap : List LinkstateNode) (a : Addr) :
    ((refreshed now finder heap)[a]?).map LinkstateNode.next = (heap[a]?).map LinkstateNode.next := by
  cases finder with
  | none => rfl
  | some f =>
    simp only [refreshed, List.getElem?_modify, Option.map_eq_map]
    split <;> simp [Function.comp_def]

theorem refreshed_cells {heap : List LinkstateNode} {p : Ptr} {cells : Cells} (now : U64) (r : Link)
    (hs : NodeList heap p cells) :
    ∃ cells', NodeList (refreshed now
        ((cells.find? fun x => Topology.reverses r x.2.toLink).map Prod.fst) heap) p cells' ∧
      (cells' = cells ∧ (∀ z ∈ cells, ¬ Topology.reverses r z.2.toLink) ∨ ∃ pre x post, cells = pre ++ x :: post ∧ Topology.reverses r x.2.toLink ∧
        (∀ z ∈ pre, ¬ Topology.reverses r z.2.toLink) ∧
        cells' = pre ++ (x.1, { x.2 with ID := now }) :: post) := by
  cases hfind : cells.find? fun x => Topology.reverses r x.2.toLink with
  | none => exact ⟨cells, hs, .inl ⟨rfl, List.find?_eq_none.mp hfind⟩⟩
  | some x =>
    obtain ⟨hrev, pre, post, hsplit, hpre⟩ := List.find?_eq_some_iff_append.mp hfind
    subst hsplit
    refine ⟨_, ?_, .inr ⟨pre, x, post, rfl, hrev, fun z hz => by simpa using hpre z hz, rfl⟩⟩
    have hget : heap[x.1]? = some x.2 := hs.get x (by simp)
    exact hs.update (by simp [refreshed, hget]) rfl fun y hy => List.getElem?_modify_ne _ _ hy.symm

theorem refreshed_other {cells : Cells} {heap : List LinkstateNode} {now : U64} {r : Link} {b : Addr}
    (hb : b ∉ cells.map Prod.fst) :
    (refreshed now ((cells.find? fun x => Topology.reverses r x.2.toLink).map Prod.fst) heap)[b]? =
      heap[b]? := by
  cases hfind : cells.find? fun x => Topology.reverses r x.2.toLink with
  | none => rfl
  | some x =>
    have hne : x.1 ≠ b := fun h => hb (h ▸ List.mem_map_of_mem (List.mem_of_find?_eq_some hfind))
    exact List.getElem?_modify_ne _ _ hne

theorem refresh_of_forall_not {now : U64} {r : Link} {ls : List Link}
    (h : ∀ l ∈ ls, ¬ Topology.reverses r l) : Topology.refresh now r ls = ls := by
  induction ls with
  | nil => rfl
  | cons l ls ih =>
    rw [Topology.refresh, if_neg (h l (by simp)), ih fun z hz => h z (by simp [hz])]

theorem refresh_append {now : U64} {r l : Link} {pre post : List Link}
    (hpre : ∀ z ∈ pre, ¬ Topology.reverses r z) (hl : Topology.reverses r l) :
    Topology.refresh now r (pre ++ l :: post) = pre ++ { l with ID := now } :: post := by
  induction pre with
  | nil => rw [List.nil_append, List.nil_append, Topology.refresh, if_pos hl]
  | cons z zs ih =>
    rw [List.cons_append, Topology.refresh, if_neg (hpre z (by simp)),
      ih fun y hy => hpre y (by simp [hy]), List.cons_append]

theorem refreshed_list {heap : List LinkstateNode} {p : Ptr} {cells : Cells} (now : U64) (r : Link)
    (hs : NodeList heap p cells) {heap' : List LinkstateNode}
    (hheap : heap' = refreshed now
      ((cells.find? fun x => Topology.reverses r x.2.toLink).map Prod.fst) heap) :
    ∃ cells', NodeList heap' p cells' ∧ cells'.links = Topology.refresh now r cells.links ∧
      cells'.shape = cells.shape ∧ SameOff cells heap heap' := by
  subst hheap
  obtain ⟨cells', hlist, hcells⟩ := refreshed_cells now r hs
  refine ⟨cells', hlist, ?_, ?_, fun b hb => refreshed_other hb⟩
  · rcases hcells with ⟨rfl, hnone⟩ | ⟨pre, x, post, rfl, hrev, hpre, rfl⟩
    · exact (refresh_of_forall_not (List.forall_mem_map.mpr hnone)).symm
    · have hrefresh : Topology.refresh now r (Cells.links pre ++ x.2.toLink :: Cells.links post) =
          Cells.links pre ++ { x.2.toLink with ID := now } :: Cells.links post :=
        refresh_append (List.forall_mem_map.mpr hpre) hrev
      simpa using hrefresh.symm
  · rcases hcells with ⟨rfl, _⟩ | ⟨pre, x, post, rfl, _, _, rfl⟩
    · rfl
    · simp [Cells.shape]

theorem any_reverses {cells : Cells} (r : Link) :
    cells.links.any (Topology.reverses r) =
      ((cells.find? fun x => Topology.reverses r x.2.toLink).map Prod.fst).isSome := by
  induction cells with
  | nil => rfl
  | cons x xs ih =>
    by_cases hrev : Topology.reverses r x.2.toLink
    · simp [hrev]
    · simpa [hrev] using ih

/-- The call kept the list of `cells` in place, as `cells'`. -/
structure Kept (cells cells' : Cells) (st st' : Proxy) : Prop where
  shape : cells'.shape = cells.shape
  same : SameOff cells st.heap st'.heap
  head : st'.memList.head = st.memList.head

theorem addMemberConnect_refines {env : Env} {fuel : Nat} {now : U64} {gw : Int} {a : Addr}
    {st st' : Proxy} {t : Topology} {cells : Cells} {recv : LinkstateNode} (hs : Shows st t cells)
    (hr : st.heap[a]? = some recv) (h : addMemberConnect env fuel now gw a st = some st') :
    (t.stores env recv.toLink = false ∧
      ∃ cells', Kept cells cells' st st' ∧ Shows st' (t.keep now recv.toLink) cells') ∨
    (t.stores env recv.toLink = true ∧ ∃ w, Pushed now a w st st' ∧
      (t.store now gw recv.toLink).links = { recv.toLink with linkweight := w, ID := now } :: t.links ∧
      (t.store now gw recv.toLink).routes = st'.socketfds ∧
      (t.store now gw recv.toLink).size = t.size + 1) := by
  obtain ⟨recv', hr', hcases⟩ := addMemberConnect_cases h
  rw [hr] at hr'
  cases hr'
  rcases hcases with ⟨hroute, hown, finder, hfinder, hheap, hmem, hsock⟩ | ⟨hroute, hown, hpush, hsock⟩ |
    ⟨e, f, hroute, hfinder, hheap, hmem, hsock⟩ |
    ⟨e, dist, saveDist, hroute, hfinder, hdist, hsave, hpush, hsock⟩
  · have hstores : t.stores env recv.toLink = false := by
      rw [Topology.stores, hs.route, hroute]
      simpa [imp_iff_not_or] using hown
    have hfind := inMemberListLoop_some recv.toLink hs.list hfinder
    subst hfind
    obtain ⟨cells', hlist, hlinks, hshape, hoff⟩ := refreshed_list now recv.toLink hs.list hheap
    refine .inl ⟨hstores, cells', ⟨hshape, hoff, by rw [hmem]⟩, ?_⟩
    rw [Topology.keep, hs.route, hroute]
    exact ⟨by rw [hmem]; exact hlist, by rw [hlinks, hs.links], by rw [hmem]; exact hs.size,
      by rw [hsock]; exact hs.routes⟩
  · have hstores : t.stores env recv.toLink = true := by
      rw [Topology.stores, hs.route, hroute]
      simpa [not_or] using hown
    refine .inr ⟨hstores, recv.linkweight + 1, hpush, ?_⟩
    rw [Topology.store, hs.route, hroute]
    exact ⟨rfl, by rw [hsock, hs.routes], rfl⟩
  · have hfind := inMemberListLoop_some recv.toLink hs.list hfinder
    have hstores : t.stores env recv.toLink = false := by
      simp only [Topology.stores, hs.route, hroute]
      rw [← hs.links, any_reverses, ← hfind]
      rfl
    refine .inl ⟨hstores, cells, ⟨rfl, fun b _ => by rw [hheap], by rw [hmem]⟩, ?_⟩
    rw [Topology.keep, hs.route, hroute]
    exact ⟨by rw [hheap, hmem]; exact hs.list, hs.links, by rw [hmem]; exact hs.size,
      by rw [hsock]; exact hs.routes⟩
  · have hfind := inMemberListLoop_some recv.toLink hs.list hfinder
    have hstores : t.stores env recv.toLink = true := by
      simp only [Topology.stores, hs.route, hroute]
      rw [← hs.links, any_reverses, ← hfind]
      rfl
    have hlist : NodeList (st.emit .lock).heap (st.emit .lock).memList.head cells := hs.list
    have hlocal := getLowestSavedDistance_some hlist hdist
    have hremote := getLowestSavedDistance_some hlist hsave
    rw [hs.links] at hlocal hremote
    refine .inr ⟨hstores, _, hpush, ?_⟩
    rw [Topology.store, hs.route, hroute]
    refine ⟨by rw [hlocal]; rfl, ?_, rfl⟩
    have hlt := leastWeight_lt recv.remoteInfo.macaddr t.links
    simp only [hsock, hlocal, hremote, hs.routes, Topology.knownWeight, BitVec.lt_def,
      BitVec.toNat_ofNat, Nat.mod_eq_of_lt hlt]
    split <;> rename_i hlt' <;> simp only [hlt', if_true, if_false]

theorem Pushed.list {now : U64} {a : Addr} {w : U32} {st st' : Proxy} {cells : Cells}
    {recv : LinkstateNode} (hpush : Pushed now a w st st') (hr : st.heap[a]? = some recv)
    (hs : NodeList st.heap st.memList.head cells) (ha : a ∉ cells.map Prod.fst) :
    NodeList st'.heap st'.memList.head
      ((a, { recv with linkweight := w, ID := now, next := st.memList.head }) :: cells) := by
  obtain ⟨hheap, hmem⟩ := hpush
  refine ⟨by rw [hmem], by simp [hheap, hr], hs.frame fun x hx => ?_⟩
  have hne : a ≠ x.1 := fun h => ha (h ▸ List.mem_map_of_mem hx)
  rw [hheap, List.getElem?_modify_ne _ _ hne]
  exact hs.get x hx

theorem Pushed.same {now : U64} {a : Addr} {w : U32} {st st' : Proxy} (hpush : Pushed now a w st st')
    {b : Addr} (hb : b ≠ a) : st'.heap[b]? = st.heap[b]? := by
  rw [hpush.1, List.getElem?_modify_ne _ _ hb.symm]

theorem addMemberConnect_learn {env : Env} {fuel : Nat} {now : U64} {gw : Int} {a : Addr}
    {st st' : Proxy} {t : Topology} {cells : Cells} {recv : LinkstateNode} (hs : Shows st t cells)
    (hr : st.heap[a]? = some recv) (ha : a ∉ cells.map Prod.fst)
    (h : addMemberConnect env fuel now gw a st = some st') :
    ∃ cells', Shows st' (t.learn env now gw recv.toLink) cells' := by
  unfold Topology.learn
  rcases addMemberConnect_refines hs hr h with
    ⟨hst, cells', _, hs'⟩ | ⟨hst, w, hpush, hlinks, hroutes, hsize⟩
  · rw [hst]
    exact ⟨cells', hs'⟩
  · rw [hst]
    refine ⟨_, hpush.list hr hs.list ha, ?_, by rw [hpush.2, hs.size]; exact hsize.symm, hroutes.symm⟩
    rw [Cells.links_cons, hs.links]
    exact hlinks.symm

/-- One call returns when the bound on its searches exceeds the length of the list. -/
theorem addMemberConnect_isSome {env : Env} {fuel : Nat} {now : U64} {gw : Int} {a : Addr}
    {st : Proxy} {cells : Cells} {recv : LinkstateNode}
    (hlist : NodeList st.heap st.memList.head cells) (hr : st.heap[a]? = some recv)
    (hfuel : cells.length < fuel) : ∃ st', addMemberConnect env fuel now gw a st = some st' := by
  have hsearch := inMemberListLoop_eq recv.toLink hlist hfuel
  obtain ⟨dist, hdist⟩ := getLowestSavedDistanceLoop_isSome recv.localInfo.macaddr hlist hfuel (-1)
  obtain ⟨save, hsave⟩ := getLowestSavedDistanceLoop_isSome recv.remoteInfo.macaddr hlist hfuel (-1)
  unfold addMemberConnect inMemberList getLowestSavedDistance
  simp only [Proxy.emit_heap, Proxy.emit_memList, hr, Option.bind_eq_bind, Option.bind_some, hsearch,
    hdist, hsave]
  split
  · split
    · split <;> exact ⟨_, rfl⟩
    · exact ⟨_, rfl⟩
  · split
    · split <;> exact ⟨_, rfl⟩
    · exact ⟨_, rfl⟩

/-! ## The walk -/

theorem addMembersStep_some {env : Env} {fuel : Nat} {now : U64} {gw : Int} {a : Addr} {p : Ptr}
    {st st' : Proxy} (h : addMembersStep env fuel now gw a st = some (p, st')) :
    addMemberConnect env fuel now gw a st = some st' ∧
      ∃ node, st'.heap[a]? = some node ∧ p = node.next := by
  simp only [addMembersStep, Option.bind_eq_bind, Option.bind_eq_some_iff] at h
  obtain ⟨st₁, hstep, node, hnode, heq⟩ := h
  cases heq
  exact ⟨hstep, node, hnode, rfl⟩

theorem addMembersLoop_some {env : Env} {fuel : Nat} {now : U64} {gw : Int} {n : Nat} {a : Addr}
    {st st' : Proxy} (h : addMembersLoop env fuel now gw (n + 1) (some a) st = some st') :
    ∃ p st₁, addMembersStep env fuel now gw a st = some (p, st₁) ∧
      addMembersLoop env fuel now gw n p st₁ = some st' := by
  simp only [addMembersLoop, Option.bind_eq_bind, Option.bind_eq_some_iff] at h
  obtain ⟨⟨p, st₁⟩, hstep, h⟩ := h
  exact ⟨p, st₁, hstep, h⟩

/-- What every call does to the state, and what such steps compose to, the whole walk does. -/
theorem addMembersLoop_induction {env : Env} {fuel : Nat} {now : U64} {gw : Int}
    {P : Proxy → Proxy → Prop} (hrefl : ∀ st, P st st)
    (hcall : ∀ {a st st₁ st'}, addMemberConnect env fuel now gw a st = some st₁ → P st₁ st' → P st st')
    (n : Nat) : ∀ {p : Ptr} {st st' : Proxy}, addMembersLoop env fuel now gw n p st = some st' →
      P st st' := by
  induction n with
  | zero => intro p st st' h; cases h
  | succ n ih =>
    intro p st st' h
    cases p with
    | none => cases h; exact hrefl st
    | some a =>
      obtain ⟨p₁, st₁, hstep, h⟩ := addMembersLoop_some h
      exact hcall (addMembersStep_some hstep).1 (ih h)

/-- The list and the walk at `p` are inside a loop of nodes. -/
def Caught (p : Ptr) (st : Proxy) : Prop :=
  ∃ (S : Addr → Prop) (a b : Addr), Looped LinkstateNode.next st.heap S ∧
    st.memList.head = some b ∧ S b ∧ p = some a ∧ S a

/-- A call on a node of the loop leaves the list in the loop, whatever it stores. -/
theorem addMemberConnect_looped {env : Env} {fuel : Nat} {now : U64} {gw : Int} {S : Addr → Prop}
    {a b : Addr} {st st₁ : Proxy} (hloop : Looped LinkstateNode.next st.heap S)
    (hhead : st.memList.head = some b) (hb : S b) (ha : S a)
    (h : addMemberConnect env fuel now gw a st = some st₁) :
    Looped LinkstateNode.next st₁.heap S ∧ ∃ b', st₁.memList.head = some b' ∧ S b' := by
  obtain ⟨recv, hrecv, hcases⟩ := addMemberConnect_cases h
  have hstored : ∀ {w : U32}, Pushed now a w st st₁ →
      Looped LinkstateNode.next st₁.heap S ∧ ∃ b', st₁.memList.head = some b' ∧ S b' := by
    intro w hpush
    have hnode : st₁.heap[a]? = some { recv with linkweight := w, ID := now, next := some b } := by
      rw [hpush.1, List.getElem?_modify_eq, hrecv, hhead]
      rfl
    exact ⟨hloop.relink hb hnode rfl fun x hx => by rw [hpush.same hx], a, by rw [hpush.2], ha⟩
  rcases hcases with ⟨_, _, finder, _, hheap, hmem, _⟩ | ⟨_, _, hpush, _⟩ |
    ⟨_, _, _, _, hheap, hmem, _⟩ | ⟨_, _, _, _, _, _, _, hpush, _⟩
  · refine ⟨hloop.frame fun x _ => ?_, b, by rw [hmem]; exact hhead, hb⟩
    rw [hheap]
    exact refreshed_next now finder st.heap x
  · exact hstored hpush
  · exact ⟨by rw [hheap]; exact hloop, b, by rw [hmem]; exact hhead, hb⟩
  · exact hstored hpush

theorem Caught.step {env : Env} {fuel : Nat} {now : U64} {gw : Int} {a : Addr} {p : Ptr}
    {st st₁ : Proxy} (hc : Caught (some a) st)
    (h : addMembersStep env fuel now gw a st = some (p, st₁)) : Caught p st₁ := by
  obtain ⟨S, a', b, hloop, hhead, hb, hp, ha⟩ := hc
  cases hp
  obtain ⟨hcall, node, hnode, rfl⟩ := addMembersStep_some h
  obtain ⟨hloop₁, b', hhead', hb'⟩ := addMemberConnect_looped hloop hhead hb ha hcall
  obtain ⟨c, d, hc, hn, hd⟩ := hloop₁ a ha
  rw [hnode] at hc
  cases hc
  exact ⟨S, d, b', hloop₁, hhead', hb', hn, hd⟩

/-- A walk that is caught in a loop never ends. -/
theorem addMembersLoop_caught {env : Env} {fuel : Nat} {now : U64} {gw : Int} (n : Nat) :
    ∀ {p : Ptr} {st : Proxy}, Caught p st → addMembersLoop env fuel now gw n p st = none := by
  induction n with
  | zero => intros; rfl
  | succ n ih =>
    intro p st hc
    by_contra hne
    obtain ⟨st', h⟩ := Option.ne_none_iff_exists'.mp hne
    have hp := hc
    obtain ⟨_, a, _, _, _, _, rfl, _⟩ := hp
    obtain ⟨p₁, st₁, hstep, h⟩ := addMembersLoop_some h
    rw [ih (hc.step hstep)] at h
    cases h

/-- The list of a state in which a walk is caught has no end. -/
theorem Caught.not_list {p : Ptr} {st : Proxy} (hc : Caught p st) (cells : Cells) :
    ¬ NodeList st.heap st.memList.head cells := by
  obtain ⟨_, _, _, hloop, hhead, hb, _⟩ := hc
  rw [hhead]
  exact hloop.not_seg hb

/-- The endpoints of a list's links. A new time does not change them. -/
def ends (ls : List Link) : List (ProxyInfo × ProxyInfo) := ls.map fun l => (l.localInfo, l.remoteInfo)

theorem Cells.ends_of_shape {xs ys : Cells} (h : xs.shape = ys.shape) : ends xs.links = ends ys.links := by
  have hmap := congrArg (List.map fun x => (x.2.1, x.2.2.1)) h
  simpa [shape, ends, links, Function.comp_def] using hmap

theorem reverses_ends {r r' : Link} (hl : r.localInfo = r'.localInfo)
    (hr : r.remoteInfo = r'.remoteInfo) : Topology.reverses r = Topology.reverses r' := by
  funext l
  simp only [Topology.reverses, hl, hr]

theorem refresh_ends (now : U64) {r r' : Link} (hl : r.localInfo = r'.localInfo)
    (hr : r.remoteInfo = r'.remoteInfo) (ls : List Link) :
    Topology.refresh now r ls = Topology.refresh now r' ls := by
  induction ls with
  | nil => rfl
  | cons l ls ih => simp only [Topology.refresh, reverses_ends hl hr, ih]

theorem rewalk_ends {env : Env} {now : U64} {ls ls' : List Link} (h : ends ls = ends ls')
    (t : Topology) : t.rewalk env now ls = t.rewalk env now ls' := by
  induction ls generalizing ls' t with
  | nil =>
    have hnil : ls' = [] := List.map_eq_nil_iff.mp h.symm
    rw [hnil]
  | cons l ls ih =>
    cases ls' with
    | nil => cases h
    | cons l' ls' =>
      obtain ⟨hl, hrest⟩ := List.cons.inj h
      obtain ⟨hlocal, hremote⟩ := Prod.mk.inj hl
      have hstores : t.stores env l = t.stores env l' := by
        simp only [Topology.stores, hremote, reverses_ends hlocal hremote]
      have hkeep : t.keep now l = t.keep now l' := by
        simp only [Topology.keep, hremote, refresh_ends now hlocal hremote]
      simp only [Topology.rewalk, hstores, hkeep, ih hrest]

/-- Storing a node that is on the list closes a loop. -/
theorem Pushed.caught {now : U64} {st st₁ : Proxy} {pre cur : Cells} {x : Addr × LinkstateNode}
    {w : U32} {node : LinkstateNode}
    (hlist : NodeList st.heap st.memList.head (pre ++ x :: cur)) (hpush : Pushed now x.1 w st st₁)
    (hnode : st₁.heap[x.1]? = some node) : Caught node.next st₁ := by
  have hx : st.heap[x.1]? = some x.2 := hlist.get x (by simp)
  have hnext : node.next = st.memList.head := by
    rw [hpush.1, List.getElem?_modify_eq, hx, Option.map_eq_map, Option.map_some] at hnode
    rw [← Option.some.inj hnode]
  obtain ⟨S, b, hb, hloop, hSb, hSx⟩ := hlist.closes_first hnode hnext fun y hy => by rw [hpush.same hy]
  exact ⟨S, b, x.1, hloop, by rw [hpush.2], hSx, hnext.trans hb, hSb⟩

theorem addMembersStep_stored {env : Env} {fuel : Nat} {now : U64} {gw : Int} {p₁ : Ptr}
    {st st₁ : Proxy} {t : Topology} {pre cur : Cells} {x : Addr × LinkstateNode}
    (hs : Shows st t (pre ++ x :: cur)) (h : addMembersStep env fuel now gw x.1 st = some (p₁, st₁)) :
    (t.stores env x.2.toLink = false ∧ ∃ pre' cur' : Cells, pre'.length = pre.length + 1 ∧
      cur'.shape = cur.shape ∧ Shows st₁ (t.keep now x.2.toLink) (pre' ++ cur') ∧
      NodeList st₁.heap p₁ cur') ∨
    (t.stores env x.2.toLink = true ∧ ∀ n, addMembersLoop env fuel now gw n p₁ st₁ = none) := by
  have hx : st.heap[x.1]? = some x.2 := hs.list.get x (by simp)
  obtain ⟨hcall, node, hnode, hp₁⟩ := addMembersStep_some h
  subst hp₁
  rcases addMemberConnect_refines hs hx hcall with ⟨hst, cells', hkept, hs₁⟩ | ⟨hst, w, hpush, _⟩
  · obtain ⟨pre', cur₁, hsplit, hpre, hshape⟩ := Cells.shape_append_eq hkept.shape
    subst hsplit
    cases cur₁ with
    | nil => cases hshape
    | cons x' cur' =>
      obtain ⟨hhead, htail⟩ := List.cons.inj hshape
      obtain ⟨m, _, _, hx', hcur'⟩ := seg_append.mp hs₁.list
      have haddr : x'.1 = x.1 := (Prod.mk.inj hhead).1
      rw [haddr, hnode] at hx'
      cases hx'
      have hs₂ : Shows st₁ (t.keep now x.2.toLink) ((pre' ++ [x']) ++ cur') := by
        rw [List.append_assoc]; exact hs₁
      have hlen := congrArg List.length (Cells.map_fst_of_shape hpre)
      rw [List.length_map, List.length_map] at hlen
      exact .inl ⟨hst, pre' ++ [x'], cur', by simp [hlen], htail, hs₂, hcur'⟩
  · exact .inr ⟨hst, fun n => addMembersLoop_caught n (hpush.caught hs.list hnode)⟩

/-- The walk over what was stored before. Storing a link again would close a loop. -/
theorem rewalk_refines {env : Env} {fuel : Nat} {now : U64} {gw : Int} (n : Nat) :
    ∀ {p : Ptr} {st st' : Proxy} {t : Topology} {pre cur : Cells},
      addMembersLoop env fuel now gw n p st = some st' → Shows st t (pre ++ cur) →
      NodeList st.heap p cur →
      ∃ t' cells', Topology.rewalk env now cur.links t = some t' ∧ Shows st' t' cells' := by
  induction n with
  | zero => intro p st st' t pre cur h; cases h
  | succ n ih =>
    intro p st st' t pre cur h hs hcur
    cases cur with
    | nil =>
      cases hcur
      cases h
      exact ⟨t, pre ++ [], rfl, hs⟩
    | cons x cur =>
      obtain ⟨hp, _, _⟩ := hcur
      subst hp
      obtain ⟨p₁, st₁, hstep, h⟩ := addMembersLoop_some h
      rcases addMembersStep_stored hs hstep with ⟨hst, pre', cur', _, hshape, hs₁, hcur'⟩ | ⟨_, hnone⟩
      · obtain ⟨t', cells', hwalk, hs'⟩ := ih h hs₁ hcur'
        refine ⟨t', cells', ?_, hs'⟩
        rw [Cells.links_cons, Topology.rewalk, hst, ← hwalk]
        exact rewalk_ends (Cells.ends_of_shape hshape).symm _
      · rw [hnone n] at h
        cases h

/-- One step of the walk, on the first of the received nodes, none of which is on the list. -/
theorem addMembersStep_refines {env : Env} {fuel : Nat} {now : U64} {gw : Int} {p p₁ q : Ptr}
    {st st₁ : Proxy} {t : Topology} {cells new : Cells} {x : Addr × LinkstateNode}
    (hs : Shows st t cells) (hnew : Seg LinkstateNode.next st.heap p (x :: new) q)
    (hoff : ∀ y ∈ x :: new, y.1 ∉ cells.map Prod.fst)
    (h : addMembersStep env fuel now gw x.1 st = some (p₁, st₁)) :
    (t.stores env x.2.toLink = false ∧ ∃ cells' : Cells, cells'.length = cells.length ∧
      Shows st₁ (t.keep now x.2.toLink) cells' ∧ Seg LinkstateNode.next st₁.heap p₁ new q ∧
      ∀ y ∈ new, y.1 ∉ cells'.map Prod.fst) ∨
    (t.stores env x.2.toLink = true ∧ p₁ = st.memList.head ∧ NodeList st₁.heap p₁ cells ∧
      ∃ x', Shows st₁ (t.store now gw x.2.toLink) (x' :: cells)) := by
  obtain ⟨_, hx, hrest⟩ := hnew
  have hxoff := hoff x (by simp)
  obtain ⟨hcall, node, hnode, hp₁⟩ := addMembersStep_some h
  subst hp₁
  rcases addMemberConnect_refines hs hx hcall with
    ⟨hst, cells', hkept, hs₁⟩ | ⟨hst, w, hpush, hlinks, hroutes, hsize⟩
  · rw [hkept.same x.1 hxoff, hx] at hnode
    cases hnode
    have hfst := Cells.map_fst_of_shape hkept.shape
    refine .inl ⟨hst, cells', by simpa using congrArg List.length hfst, hs₁, ?_, ?_⟩
    · refine hrest.frame fun y hy => ?_
      rw [hkept.same y.1 (hoff y (by simp [hy]))]
      exact hrest.get y hy
    · intro y hy
      rw [hfst]
      exact hoff y (by simp [hy])
  · have hlist := hpush.list hx hs.list hxoff
    have hnext : node.next = st.memList.head := by
      rw [hpush.1, List.getElem?_modify_eq, hx, Option.map_eq_map, Option.map_some] at hnode
      rw [← Option.some.inj hnode]
    refine .inr ⟨hst, hnext, by rw [hnext]; exact hlist.2.2, _, hlist, ?_, ?_, hroutes.symm⟩
    · rw [hlinks, ← hs.links]
      rfl
    · rw [hpush.2, hsize, hs.size]

/-- A walk over a received list that is not part of the membership list merges it. -/
theorem addMembersLoop_refines {env : Env} {fuel : Nat} {now : U64} {gw : Int} (n : Nat) :
    ∀ {p : Ptr} {st st' : Proxy} {t : Topology} {cells new : Cells},
      addMembersLoop env fuel now gw n p st = some st' → Shows st t cells →
      NodeList st.heap p new → (∀ x ∈ new, x.1 ∉ cells.map Prod.fst) →
      ∃ t' cells', Topology.merge env now gw new.links t = some t' ∧ Shows st' t' cells' := by
  induction n with
  | zero => intro p st st' t cells new h; cases h
  | succ n ih =>
    intro p st st' t cells new h hs hnew hoff
    cases new with
    | nil =>
      cases hnew
      cases h
      exact ⟨t, cells, rfl, hs⟩
    | cons x new =>
      rw [hnew.1] at h
      obtain ⟨p₁, st₁, hstep, h⟩ := addMembersLoop_some h
      rcases addMembersStep_refines hs hnew hoff hstep with
        ⟨hst, cells', _, hs₁, hrest, hoff'⟩ | ⟨hst, _, hcells, x', hs₁⟩
      · obtain ⟨t', cells'', hmerge, hs'⟩ := ih h hs₁ hrest hoff'
        refine ⟨t', cells'', ?_, hs'⟩
        simp only [Cells.links_cons, Topology.merge, hst, if_false, hmerge, Bool.false_eq_true]
      · have hs₂ : Shows st₁ (t.store now gw x.2.toLink) ([x'] ++ cells) := hs₁
        obtain ⟨t', cells', hwalk, hs'⟩ := rewalk_refines n h hs₂ hcells
        refine ⟨t', cells', ?_, hs'⟩
        rw [hs.links] at hwalk
        simp only [Cells.links_cons, Topology.merge, hst, if_true, hwalk]

theorem addMembers_refines {env : Env} {fuel : Nat} {now : U64} {gw : Int} {p : Ptr}
    {st st' : Proxy} {t : Topology} {cells new : Cells}
    (h : addMembers env fuel now p gw st = some st') (hs : Shows st t cells)
    (hnew : NodeList st.heap p new) (hoff : ∀ x ∈ new, x.1 ∉ cells.map Prod.fst) :
    ∃ t' cells', Topology.merge env now gw new.links t = some t' ∧ Shows st' t' cells' :=
  addMembersLoop_refines fuel h hs hnew hoff

/-! ## Endpoints never change -/

theorem addMemberConnect_remote {env : Env} {fuel : Nat} {now : U64} {gw : Int} {a : Addr}
    {st st' : Proxy} (h : addMemberConnect env fuel now gw a st = some st') (b : Addr) :
    (st'.heap[b]?).map (·.remoteInfo) = (st.heap[b]?).map (·.remoteInfo) := by
  have hmodify : ∀ {c : Addr} {f : LinkstateNode → LinkstateNode},
      (∀ n, (f n).remoteInfo = n.remoteInfo) →
      ((st.heap.modify c f)[b]?).map (·.remoteInfo) = (st.heap[b]?).map (·.remoteInfo) := by
    intro c f hf
    rw [List.getElem?_modify]
    split <;> simp [Function.comp_def, hf]
  obtain ⟨recv, _, hcases⟩ := addMemberConnect_cases h
  rcases hcases with ⟨_, _, finder, _, hheap, _⟩ | ⟨_, _, hpush, _⟩ | ⟨_, _, _, _, hheap, _⟩ |
    ⟨_, _, _, _, _, _, _, hpush, _⟩
  · rw [hheap]
    cases finder with
    | none => rfl
    | some f => exact hmodify fun _ => rfl
  · rw [hpush.1]; exact hmodify fun _ => rfl
  · rw [hheap]
  · rw [hpush.1]; exact hmodify fun _ => rfl

theorem addMembersLoop_remote {env : Env} {fuel : Nat} {now : U64} {gw : Int} (n : Nat) {p : Ptr}
    {st st' : Proxy} (h : addMembersLoop env fuel now gw n p st = some st') (b : Addr) :
    (st'.heap[b]?).map (·.remoteInfo) = (st.heap[b]?).map (·.remoteInfo) :=
  addMembersLoop_induction
    (P := fun st st' => (st'.heap[b]?).map (·.remoteInfo) = (st.heap[b]?).map (·.remoteInfo))
    (fun _ => rfl) (fun hcall hrest => by rw [hrest, addMemberConnect_remote hcall b]) n h

end Cs352Proxy
