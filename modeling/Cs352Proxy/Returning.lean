import Cs352Proxy.Merge
import Cs352Proxy.Keeping

/-!
# Returning

When does handling a link-state packet come to an end? `add_members` goes on from a node it stored
to the nodes that were stored before, and storing one of those again closes a loop.

* `handlePacket_isSome_iff`: the call returns exactly if `Topology.receive` is defined.
* `merge_isSome_iff`: merging a list is defined exactly if the first link that is stored leaves none
  of the links that were stored before storable again.
-/

namespace Cs352Proxy

open Base

section Walk

variable {env : Env} {fuel : Nat} {now : U64} {gw : Int}

theorem rewalk_isSome (n : Nat) :
    ∀ {p : Ptr} {st : Proxy} {t t' : Topology} {pre cur : Cells},
      t.rewalk env now cur.links = some t' → Shows st t (pre ++ cur) → NodeList st.heap p cur →
      (pre ++ cur).length < fuel → cur.length < n →
      ∃ st', addMembersLoop env fuel now gw n p st = some st' := by
  induction n with
  | zero => intros; omega
  | succ n ih =>
    intro p st t t' pre cur hwalk hs hcur hfuel hn
    cases cur with
    | nil =>
      cases hcur
      exact ⟨st, rfl⟩
    | cons x cur =>
      have hx : st.heap[x.1]? = some x.2 := hcur.2.1
      have hsome : ∃ p₁ st₁, addMembersStep env fuel now gw x.1 st = some (p₁, st₁) :=
        addMembersStep_isSome hs.list hx hfuel
      obtain ⟨p₁, st₁, hstep⟩ := hsome
      rw [Cells.links_cons, Topology.rewalk] at hwalk
      rcases addMembersStep_stored hs hstep with
        ⟨hst, pre', cur', hpre, hshape, hs₁, hcur'⟩ | ⟨hst, _⟩
      · rw [hst, rewalk_ends (Cells.ends_of_shape hshape).symm] at hwalk
        have hlen := congrArg List.length (Cells.map_fst_of_shape hshape)
        simp only [List.length_map, List.length_append, List.length_cons] at hlen hfuel hn
        obtain ⟨st', hrest⟩ := ih hwalk hs₁ hcur' (by rw [List.length_append]; omega) (by omega)
        rw [hcur.1]
        exact ⟨st', by simp [addMembersLoop, hstep, hrest]⟩
      · rw [hst] at hwalk
        cases hwalk

theorem addMembersLoop_isSome (n : Nat) :
    ∀ {p : Ptr} {st : Proxy} {t t' : Topology} {cells new : Cells},
      t.merge env now gw new.links = some t' → Shows st t cells → NodeList st.heap p new →
      (∀ x ∈ new, x.1 ∉ cells.map Prod.fst) → cells.length + 1 < fuel →
      new.length + cells.length < n → ∃ st', addMembersLoop env fuel now gw n p st = some st' := by
  induction n with
  | zero => intros; omega
  | succ n ih =>
    intro p st t t' cells new hmerge hs hnew hoff hfuel hn
    cases new with
    | nil =>
      cases hnew
      exact ⟨st, rfl⟩
    | cons x new =>
      have hsome : ∃ p₁ st₁, addMembersStep env fuel now gw x.1 st = some (p₁, st₁) :=
        addMembersStep_isSome hs.list hnew.2.1 (by omega)
      obtain ⟨p₁, st₁, hstep⟩ := hsome
      have hrest : ∃ st', addMembersLoop env fuel now gw n p₁ st₁ = some st' := by
        rw [Cells.links_cons, Topology.merge] at hmerge
        rw [List.length_cons] at hn
        rcases addMembersStep_refines hs hnew hoff hstep with
          ⟨hst, cells', hlen, hs₁, hnew₁, hoff₁⟩ | ⟨hst, _, hcells, x', hs₁⟩
        · rw [hst] at hmerge
          exact ih hmerge hs₁ hnew₁ hoff₁ (by omega) (by omega)
        · rw [hst, if_pos rfl, ← hs.links] at hmerge
          have hs₂ : Shows st₁ (t.store now gw x.2.toLink) ([x'] ++ cells) := hs₁
          exact rewalk_isSome n hmerge hs₂ hcells (by simpa using hfuel) (by omega)
      obtain ⟨st', hrest⟩ := hrest
      rw [hnew.1]
      exact ⟨st', by simp [addMembersLoop, hstep, hrest]⟩

theorem addMembers_isSome_iff {st : Proxy} {t : Topology} {cells new : Cells} {p : Ptr}
    (hs : Shows st t cells) (hnew : NodeList st.heap p new)
    (hoff : ∀ x ∈ new, x.1 ∉ cells.map Prod.fst) :
    (∃ fuel st', addMembers env fuel now p gw st = some st') ↔
      ∃ t', t.merge env now gw new.links = some t' := by
  constructor
  · intro h
    obtain ⟨fuel, st', h⟩ := h
    obtain ⟨t', _, hmerge, _⟩ := addMembers_refines h hs hnew hoff
    exact ⟨t', hmerge⟩
  · intro h
    obtain ⟨t', hmerge⟩ := h
    refine ⟨new.length + cells.length + 2, ?_⟩
    exact addMembersLoop_isSome _ hmerge hs hnew hoff (by omega) (by omega)

end Walk

theorem gotOriginalPacket_isSome {env : Env} {now : U64} {fd : Int} {pkt : LinkstatePkt} {first : Addr}
    {node : LinkstateNode} {st : Proxy} (hnode : st.heap[first]? = some node) (n : Nat) :
    ∃ st', gotOriginalPacket env (n + 2) now fd pkt first st = some st' := by
  have hnode' : ((st.addsockfd pkt.source.macaddr fd).setRemoteMac first env.myProxyInfo.macaddr).heap[first]? =
      some { node with remoteInfo := { node.remoteInfo with macaddr := env.myProxyInfo.macaddr } } := by
    simp [hnode]
  have hlist := pushClient_cut env { pkt.source with macaddr := node.localInfo.macaddr } now
    ((st.addsockfd pkt.source.macaddr fd).setRemoteMac first env.myProxyInfo.macaddr)
  simp only [gotOriginalPacket, hnode', Option.bind_eq_bind, Option.bind_some, pushClient_memList]
  rw [htonLinkstate_eq env.endian hlist (by simp) (by simp [Env.stackBuf])]
  exact ⟨_, rfl⟩

theorem handlePacket_isSome_iff {env : Env} {now : U64} {fd : Int} {m : Received} {st : Proxy}
    {t : Topology} {cells : Cells} (hs : Shows st t cells) :
    (∃ fuel st', handlePacket env fuel now fd m st = some st') ↔
      ∃ t', t.receive env now fd m.numNeighbors m.source m.first m.rest = some t' := by
  constructor
  · intro h
    obtain ⟨fuel, st', h⟩ := h
    obtain ⟨t', _, hreceive, _⟩ := handlePacket_refines hs h
    exact ⟨t', hreceive⟩
  unfold Topology.receive
  cases hfind : st.findSocketfd m.source.macaddr with
  | some e =>
    simp only [hs.route, hfind, handlePacket_known hfind]
    rw [addMembers_isSome_iff (hs.alloc m.links) (alloc_list st m) (received_off hs), received_links]
    exact id
  | none =>
    simp only [hs.route, hfind]
    by_cases hzero : m.first.remoteInfo.macaddr = Mac.zero
    · obtain ⟨cells₁, hs₁, hnew, hoff⟩ := shows_back hs env now fd m
      simp only [if_pos hzero, handlePacket_back hfind hzero]
      intro h
      refine (addMembers_isSome_iff hs₁ hnew hoff).mpr ?_
      rw [received_links]
      exact h
    · simp only [if_neg hzero, handlePacket_original hfind hzero]
      intro _
      by_cases hnn : m.numNeighbors = 1
      · obtain ⟨node, hnode, _⟩ := alloc_first m st
        simp only [if_pos hnn]
        exact ⟨2, gotOriginalPacket_isSome hnode 0⟩
      · simp only [if_neg hnn]
        exact ⟨0, _, rfl⟩

/-! ## When a list can be merged -/

namespace Topology

variable {env : Env} {now : U64} {gw : Int} {t : Topology} {r l : Link}

theorem store_route_isSome (now : U64) (gw : Int) (r : Link) (t : Topology) (mac : Mac) :
    ((t.store now gw r).route mac).isSome ↔
      (t.route mac).isSome ∨ r.remoteInfo.macaddr.key = mac.key := by
  cases hroute : t.route r.remoteInfo.macaddr with
  | none =>
    have hroutes : (t.store now gw r).routes =
        { macaddr := r.remoteInfo.macaddr, sockFd := gw } :: t.routes := by
      unfold store; rw [hroute]
    rw [route, hroutes, lookup_cons]
    by_cases hkey : r.remoteInfo.macaddr.key = mac.key
    · simp [ProxySocketfd.key, hkey]
    · simp [ProxySocketfd.key, hkey, route]
  | some e =>
    have hsame : r.remoteInfo.macaddr.key = mac.key → (t.route mac).isSome := by
      intro hkey
      rw [route, ← hkey]
      exact Option.isSome_iff_exists.mpr ⟨e, hroute⟩
    rw [or_iff_left_of_imp hsame, route, store, hroute]
    simp only
    split
    · rw [lookup_assign_sockFd]
      split <;> simp [route]
    · rfl

theorem store_stores (now : U64) (gw : Int) (r l : Link) (t : Topology) :
    (t.store now gw r).stores env l = true ↔
      if (t.route l.remoteInfo.macaddr).isSome ∨ r.remoteInfo.macaddr.key = l.remoteInfo.macaddr.key
      then ¬ reverses l r ∧ ∀ x ∈ t.links, ¬ reverses l x
      else l.remoteInfo.macaddr ≠ Mac.zero ∧ l.remoteInfo.macaddr ≠ env.myProxyInfo.macaddr := by
  have hroute := store_route_isSome now gw r t l.remoteInfo.macaddr
  obtain ⟨w, hlinks⟩ := store_links now gw r t
  unfold stores
  cases h : (t.store now gw r).route l.remoteInfo.macaddr with
  | none =>
    rw [h] at hroute
    rw [if_neg (hroute.not.mp (by simp))]
    simp
  | some e =>
    rw [h] at hroute
    have hrev : reverses l { r with linkweight := w, ID := now } = reverses l r := rfl
    rw [if_pos (hroute.mp rfl), hlinks]
    simp [hrev]

/-- Times are not looked at. -/
theorem store_stores_keep (now : U64) (gw : Int) (q r l : Link) (t : Topology) :
    ((t.keep now q).store now gw r).stores env l = (t.store now gw r).stores env l := by
  have hany : (∀ x ∈ (t.keep now q).links, ¬ reverses l x) ↔ ∀ x ∈ t.links, ¬ reverses l x := by
    have h := keep_any_reverses now q l t
    rw [Bool.eq_iff_iff, List.any_eq_true, List.any_eq_true] at h
    constructor
    · intro hno x hx hrev
      obtain ⟨y, hy, hrev'⟩ := h.mpr ⟨x, hx, hrev⟩
      exact hno y hy hrev'
    · intro hno x hx hrev
      obtain ⟨y, hy, hrev'⟩ := h.mp ⟨x, hx, hrev⟩
      exact hno y hy hrev'
  have hroute : (t.keep now q).route l.remoteInfo.macaddr = t.route l.remoteInfo.macaddr := by
    rw [route, keep_routes, route]
  rw [Bool.eq_iff_iff, store_stores, store_stores, hany, hroute]

theorem rewalk_isSome_iff {ls : List Link} :
    (∃ t', t.rewalk env now ls = some t') ↔ ∀ l ∈ ls, t.stores env l = false := by
  induction ls generalizing t with
  | nil => exact ⟨fun _ => by simp, fun _ => ⟨t, rfl⟩⟩
  | cons l ls ih =>
    rw [rewalk, List.forall_mem_cons]
    cases hl : t.stores env l with
    | true => simp
    | false =>
      rw [if_neg (by simp), ih]
      simp only [keep_stores, true_and]

/-- What the first link that is stored must leave alone. -/
def MergesInto (env : Env) (now : U64) (gw : Int) (t : Topology) (ls : List Link) : Prop :=
  ∀ pre r post, ls = pre ++ r :: post → (∀ q ∈ pre, t.stores env q = false) →
    t.stores env r = true → ∀ l ∈ t.links, (t.store now gw r).stores env l = false

theorem mergesInto_cons_of_stores {ls : List Link} (hr : t.stores env r = true) :
    MergesInto env now gw t (r :: ls) ↔ ∀ l ∈ t.links, (t.store now gw r).stores env l = false := by
  constructor
  · intro h
    exact h [] r ls rfl (by simp) hr
  · intro h pre r' post hsplit hpre hr'
    cases pre with
    | nil =>
      obtain ⟨rfl, _⟩ := List.cons.inj hsplit
      exact h
    | cons q pre =>
      obtain ⟨rfl, _⟩ := List.cons.inj hsplit
      rw [hpre r (by simp)] at hr
      cases hr

theorem mergesInto_cons_of_not {ls : List Link} (hr : t.stores env r = false) :
    MergesInto env now gw t (r :: ls) ↔ MergesInto env now gw t ls := by
  constructor
  · intro h pre r' post hsplit hpre hr'
    exact h (r :: pre) r' post (by rw [hsplit]; rfl) (List.forall_mem_cons.mpr ⟨hr, hpre⟩) hr'
  · intro h pre r' post hsplit hpre hr'
    cases pre with
    | nil =>
      obtain ⟨rfl, _⟩ := List.cons.inj hsplit
      rw [hr] at hr'
      cases hr'
    | cons q pre =>
      exact h pre r' post (List.cons.inj hsplit).2 (fun q hq => hpre q (by simp [hq])) hr'

theorem exists_face_of_mem_keep {q : Link} (hl : l ∈ (t.keep now q).links) :
    ∃ l' ∈ t.links, face l' = face l := by
  have hmem : face l ∈ (t.keep now q).links.map face := List.mem_map_of_mem hl
  rwa [keep_faces, List.mem_map] at hmem

theorem exists_keep_of_mem (now : U64) (q : Link) (hl : l ∈ t.links) :
    ∃ l' ∈ (t.keep now q).links, face l' = face l := by
  have hmem : face l ∈ t.links.map face := List.mem_map_of_mem hl
  rwa [← keep_faces now q, List.mem_map] at hmem

theorem forall_stores_keep (q : Link) :
    (∀ l ∈ (t.keep now q).links, ((t.keep now q).store now gw r).stores env l = false) ↔
      ∀ l ∈ t.links, (t.store now gw r).stores env l = false := by
  simp only [store_stores_keep]
  have hends : ∀ l l' : Link, face l = face l' →
      (t.store now gw r).stores env l = (t.store now gw r).stores env l' := by
    intro l l' h
    obtain ⟨hlocal, hrest⟩ := Prod.mk.inj h
    obtain ⟨hremote, _⟩ := Prod.mk.inj hrest
    simp only [stores, hremote, reverses_ends hlocal hremote]
  constructor
  · intro h l hl
    obtain ⟨l', hl', heq⟩ := exists_keep_of_mem now q hl
    rw [← hends l' l heq]
    exact h l' hl'
  · intro h l hl
    obtain ⟨l', hl', heq⟩ := exists_face_of_mem_keep hl
    rw [← hends l' l heq]
    exact h l' hl'

theorem mergesInto_keep (q : Link) {ls : List Link} :
    MergesInto env now gw (t.keep now q) ls ↔ MergesInto env now gw t ls := by
  simp only [MergesInto, forall_stores_keep, keep_stores]

/-- A list can be merged exactly if the first of its links that is stored makes no link that was
stored before storable again. -/
theorem merge_isSome_iff {ls : List Link} :
    (∃ t', t.merge env now gw ls = some t') ↔ MergesInto env now gw t ls := by
  induction ls generalizing t with
  | nil =>
    refine ⟨fun _ pre r post hsplit => ?_, fun _ => ⟨t, rfl⟩⟩
    cases pre <;> cases hsplit
  | cons r ls ih =>
    rw [merge]
    cases hr : t.stores env r with
    | true => rw [if_pos rfl, rewalk_isSome_iff, mergesInto_cons_of_stores hr]
    | false => rw [if_neg (by simp), ih, mergesInto_cons_of_not hr, mergesInto_keep]

end Topology

/-- `add_members` returns, with enough time, exactly if the first link it stores makes no link that
was stored before storable again. -/
theorem addMembers_returns_iff (env : Env) (now : U64) (gw : Int) {list : Ptr} {st : Proxy}
    {cells new : Cells} (hlist : NodeList st.heap st.memList.head cells)
    (hnew : NodeList st.heap list new) (hoff : ∀ x ∈ new, x.1 ∉ cells.map Prod.fst) :
    (∃ fuel st', addMembers env fuel now list gw st = some st') ↔
      (st.topology cells).MergesInto env now gw new.links := by
  rw [addMembers_isSome_iff (shows_topology hlist) hnew hoff, Topology.merge_isSome_iff]

/-- `host 1` knows its peer `host 2` and hears of `host 3` from there: the call never returns. -/
theorem third_host_hangs :
    ¬ ∃ fuel st', addMembers (hostEnv 1) fuel 7 (some 1) 4
      (peered [{ linkTo (host 2) (host 3) with next := some 2 },
        { linkTo (host 2) (host 1) with next := none }]) = some st' := by
  let known : LinkstateNode := { linkTo (host 1) (host 2) with next := none }
  let third : LinkstateNode := { linkTo (host 2) (host 3) with next := some 2 }
  let back : LinkstateNode := { linkTo (host 2) (host 1) with next := none }
  let st := peered [third, back]
  have hlist : NodeList st.heap st.memList.head [(0, known)] := ⟨rfl, rfl, rfl⟩
  have hnew : NodeList st.heap (some 1) [(1, third), (2, back)] := ⟨rfl, rfl, rfl, rfl, rfl⟩
  have hiff := addMembers_returns_iff (hostEnv 1) 7 4 hlist hnew (by decide)
  have hno : ¬ (st.topology [(0, known)]).MergesInto (hostEnv 1) 7 4 [third.toLink, back.toLink] := by
    intro h
    have hstored := h [] third.toLink [back.toLink] rfl (by simp) (by decide) known.toLink (by decide)
    revert hstored
    decide
  exact fun h => hno (hiff.mp h)

end Cs352Proxy
