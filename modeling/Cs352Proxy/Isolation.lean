import Cs352Proxy.Returning
import Cs352Proxy.Membership

/-!
# Isolation

Does a proxy learn of links that are not its own? A link to a peer that the table leads to can be
stored again unless a stored link joins the two the other way round, and no proxy stores a link
back to itself. So when `add_members` stores anything on a list with such a link, it does not
return, and all that a proxy ever stores are its own links.

* `Alone`: the invariant, the stored links are the proxy's own.
* `receive_alone`, `expire_alone`: what one operation keeps.
* `run_learns_nothing`: the whole run.
-/

namespace Cs352Proxy

open Base

/-- A packet from another proxy. Links to this proxy carry its address, or the zero address where
the sender does not know it, and a packet with one link is about a link of the sender. -/
structure FromPeer (env : Env) (m : Received) : Prop where
  key : m.source.macaddr.key ≠ env.myProxyInfo.macaddr.key
  named : m.source.macaddr.key ≠ Mac.zero.key
  ip : m.source.ip ≠ env.myProxyInfo.ip
  back : ∀ l ∈ m.links, l.remoteInfo.ip = env.myProxyInfo.ip →
    l.remoteInfo.macaddr = env.myProxyInfo.macaddr ∨ l.remoteInfo.macaddr = Mac.zero
  first : m.numNeighbors = 1 → m.first.localInfo.macaddr = m.source.macaddr

namespace Topology

variable {env : Env} {now : U64} {fd : Int} {t t' : Topology} {r : Link} {m : Received}

structure Alone (env : Env) (t : Topology) : Prop where
  own : ∀ l ∈ t.links, l.localInfo = env.myProxyInfo
  away : ∀ l ∈ t.links, l.remoteInfo.ip ≠ env.myProxyInfo.ip
  routed : ∀ l ∈ t.links, (t.route l.remoteInfo.macaddr).isSome
  keys : (t.links.map fun l => l.remoteInfo.macaddr.key).Nodup
  table : (t.routes.map ProxySocketfd.key).Nodup
  self : t.route env.myProxyInfo.macaddr = none
  zero : t.route Mac.zero = none

theorem alone_start (env : Env) : Alone env start :=
  ⟨by simp [start], by simp [start], by simp [start], List.nodup_nil, List.nodup_nil, rfl, rfl⟩

theorem keep_alone (ha : Alone env t) (now : U64) (r : Link) : Alone env (t.keep now r) := by
  have hroute : ∀ mac, (t.keep now r).route mac = t.route mac := fun mac => by
    rw [route, keep_routes, route]
  refine ⟨fun l hl => ?_, fun l hl => ?_, fun l hl => ?_, ?_, by rw [keep_routes]; exact ha.table,
    by rw [hroute, ha.self], by rw [hroute, ha.zero]⟩
  · obtain ⟨l', hl', heq⟩ := exists_face_of_mem_keep hl
    rw [← (Prod.mk.inj heq).1]
    exact ha.own l' hl'
  · obtain ⟨l', hl', heq⟩ := exists_face_of_mem_keep hl
    rw [← (Prod.mk.inj (Prod.mk.inj heq).2).1]
    exact ha.away l' hl'
  · obtain ⟨l', hl', heq⟩ := exists_face_of_mem_keep hl
    rw [← (Prod.mk.inj (Prod.mk.inj heq).2).1, hroute]
    exact ha.routed l' hl'
  · have hkeys := congrArg (List.map fun f => f.2.1.macaddr.key) (keep_faces now r t)
    rw [List.map_map, List.map_map] at hkeys
    have hnd := ha.keys
    change (t.links.map ((fun f => f.2.1.macaddr.key) ∘ face)).Nodup at hnd
    rw [← hkeys] at hnd
    exact hnd

/-- Whatever is stored, the proxy's own links could be stored again. -/
theorem Alone.stores_again (ha : Alone env t) {l : Link} (hl : l ∈ t.links)
    (hback : r.remoteInfo.ip = env.myProxyInfo.ip →
      r.remoteInfo.macaddr = env.myProxyInfo.macaddr ∨ r.remoteInfo.macaddr = Mac.zero)
    (hr : t.stores env r = true) (now : U64) (gw : Int) :
    (t.store now gw r).stores env l = true := by
  rw [store_stores, if_pos (.inl (ha.routed l hl))]
  constructor
  · intro hrev
    obtain ⟨_, hip⟩ := of_decide_eq_true hrev
    rw [ha.own l hl] at hip
    rcases hback hip with hmac | hmac
    · simp [stores, hmac, ha.self] at hr
    · simp [stores, hmac, ha.zero] at hr
  · intro x hx hrev
    obtain ⟨hip, _⟩ := of_decide_eq_true hrev
    rw [ha.own x hx] at hip
    exact ha.away l hl hip.symm

/-- A list is merged into the proxy's own links exactly if none of its links is stored. -/
theorem Alone.merge_iff (ha : Alone env t) (hne : t.links ≠ []) (now : U64) (fd : Int) {ls : List Link}
    (hback : ∀ r ∈ ls, r.remoteInfo.ip = env.myProxyInfo.ip →
      r.remoteInfo.macaddr = env.myProxyInfo.macaddr ∨ r.remoteInfo.macaddr = Mac.zero) :
    (∃ t', t.merge env now fd ls = some t') ↔ ∀ r ∈ ls, t.stores env r = false := by
  obtain ⟨l, hl⟩ := List.exists_mem_of_ne_nil _ hne
  rw [merge_isSome_iff]
  constructor
  · intro h
    by_contra hno
    obtain ⟨r, hr⟩ : ∃ r, ls.find? (t.stores env) = some r := by
      rw [← Option.isSome_iff_exists, List.find?_isSome]
      simpa using hno
    obtain ⟨hstores, pre, post, hsplit, hpre⟩ := List.find?_eq_some_iff_append.mp hr
    have hagain := ha.stores_again hl (hback r (by rw [hsplit]; simp)) hstores now fd
    rw [h pre r post hsplit (fun q hq => by simpa using hpre q hq) hstores l hl] at hagain
    cases hagain
  · intro h pre r post hsplit _ hr
    rw [h r (by rw [hsplit]; simp)] at hr
    cases hr

theorem Alone.merge (ha : Alone env t) (hne : t.links ≠ []) {ls : List Link}
    (hback : ∀ r ∈ ls, r.remoteInfo.ip = env.myProxyInfo.ip →
      r.remoteInfo.macaddr = env.myProxyInfo.macaddr ∨ r.remoteInfo.macaddr = Mac.zero)
    (h : t.merge env now fd ls = some t') : Alone env t' := by
  have hnone := (ha.merge_iff hne now fd hback).mp ⟨t', h⟩
  -- nothing is stored, now or later in the list
  have hboth : Alone env t' ∧ ∀ r ∈ ls, t'.stores env r = false := by
    refine merge_induction (P := fun t => Alone env t ∧ ∀ r ∈ ls, t.stores env r = false) ?_ ?_
      ⟨ha, hnone⟩ h
    · intro t q hP
      exact ⟨keep_alone hP.1 now q, fun r hr => by rw [keep_stores]; exact hP.2 r hr⟩
    · intro t r hr hstores hP
      rw [hP.2 r hr] at hstores
      cases hstores
  exact hboth.1

/-- A new peer; `ls` is what stays of the list behind the link to it. -/
theorem Alone.client (ha : Alone env t) {source : ProxyInfo} {ls : List Link} (hls : ls.Sublist t.links)
    (hroute : t.route source.macaddr = none)
    (hkey : source.macaddr.key ≠ env.myProxyInfo.macaddr.key)
    (hnamed : source.macaddr.key ≠ Mac.zero.key) (hip : source.ip ≠ env.myProxyInfo.ip) (now : U64)
    (fd size : Int) :
    Alone env { links := client env source now :: ls, size
                routes := { macaddr := source.macaddr, sockFd := fd } :: t.routes } := by
  have hrouted : ∀ mac : Mac, lookup ProxySocketfd.key
      ({ macaddr := source.macaddr, sockFd := fd } :: t.routes) mac.key =
        if source.macaddr.key = mac.key then some { macaddr := source.macaddr, sockFd := fd }
        else t.route mac := fun mac => lookup_cons
  refine ⟨?_, ?_, ?_, ?_, List.nodup_cons.mpr ⟨lookup_none.mp hroute, ha.table⟩, ?_, ?_⟩
  · exact List.forall_mem_cons.mpr ⟨rfl, fun l hl => ha.own l (hls.subset hl)⟩
  · exact List.forall_mem_cons.mpr ⟨hip, fun l hl => ha.away l (hls.subset hl)⟩
  · intro l hl
    rw [route, hrouted]
    split
    · rfl
    · rename_i hne
      rcases List.mem_cons.mp hl with rfl | hl
      · exact absurd rfl hne
      · exact ha.routed l (hls.subset hl)
  · -- the table leads to all the old peers, but not to the new one
    refine List.nodup_cons.mpr ⟨fun hmem => ?_, (hls.map _).nodup ha.keys⟩
    obtain ⟨l, hl, hkey⟩ := List.mem_map.mp hmem
    have hsome := ha.routed l (hls.subset hl)
    rw [route, hkey] at hsome
    change (t.route source.macaddr).isSome at hsome
    rw [hroute] at hsome
    cases hsome
  · rw [route, hrouted, if_neg hkey, ha.self]
  · rw [route, hrouted, if_neg hnamed, ha.zero]

/-- One packet, which comes to a list that is not empty if the table leads to its sender. -/
theorem receive_alone (ha : Alone env t) (hm : FromPeer env m)
    (hne : t.links = [] → t.route m.source.macaddr = none)
    (h : t.receive env now fd m.numNeighbors m.source m.first m.rest = some t') : Alone env t' := by
  simp only [receive] at h
  cases hroute : t.route m.source.macaddr with
  | some e =>
    have hlinks : t.links ≠ [] := fun hnil => by rw [hne hnil] at hroute; cases hroute
    rw [hroute] at h
    exact ha.merge hlinks hm.back h
  | none =>
    rw [hroute] at h
    simp only at h
    by_cases hzero : m.first.remoteInfo.macaddr = Mac.zero
    · rw [if_pos hzero] at h
      have hclient := ha.client (List.Sublist.refl _) hroute hm.key hm.named hm.ip now fd (t.size + 1)
      exact hclient.merge (by simp) hm.back h
    · rw [if_neg hzero] at h
      by_cases hnn : m.numNeighbors = 1
      · rw [if_pos hnn] at h
        cases h
        rw [hm.first hnn]
        exact ha.client (List.nil_sublist _) hroute hm.key hm.named hm.ip now fd (t.size + 1)
      · rw [if_neg hnn] at h
        cases h
        exact ha

theorem expire_alone (ha : Alone env t) (time timeout : Int) : Alone env (t.expire time timeout) := by
  have hsub := expire_links time timeout t
  have hsame : ∀ x ∈ t.links, ∀ y ∈ t.links, x.remoteInfo.macaddr.key = y.remoteInfo.macaddr.key →
      x = y := fun x hx y hy hkey => List.inj_on_of_nodup_map ha.keys hx hy hkey
  have hnone : ∀ mac, t.route mac = none → (t.expire time timeout).route mac = none := by
    intro mac hmac
    rw [expire_route time timeout ha.table]
    split
    · rfl
    · exact hmac
  refine ⟨fun l hl => ha.own l (hsub.subset hl), fun l hl => ha.away l (hsub.subset hl), fun l hl => ?_,
    (hsub.map _).nodup ha.keys, ((expire_routes time timeout t).map _).nodup ha.table,
    hnone _ ha.self, hnone _ ha.zero⟩
  rw [expire_route time timeout ha.table, if_neg]
  · exact ha.routed l (hsub.subset hl)
  · -- a link that is left has not expired, and no other link has its key
    intro hexp
    obtain ⟨x, hx, hexpired, hkey⟩ := hexp
    have hxl := hsame x hx l (hsub.subset hl) hkey
    subst hxl
    have hleft : x ∈ onTo x.remoteInfo.macaddr (t.expire time timeout).links :=
      List.mem_filter.mpr ⟨hl, by simp⟩
    have hpos := List.length_pos_of_mem hleft
    rw [expire_onTo_length, List.countP_pos_iff] at hpos
    obtain ⟨y, hy, hlate⟩ := hpos
    obtain ⟨hyt, hmac⟩ := List.mem_filter.mp hy
    have hyx := hsame y hyt x hx (congrArg Mac.key (of_decide_eq_true hmac))
    rw [hyx] at hlate
    exact of_decide_eq_true hlate hexpired

end Topology

/-! ## Runs -/

/-- What is assumed of an operation: a packet comes from another proxy, and the list is not empty if
the table leads there. -/
def HeardFrom (env : Env) (x : Step Proxy Op) : Prop :=
  match x.input with
  | .packet _ _ m => FromPeer env m ∧
    (x.pre.memList.head = none → x.pre.findSocketfd m.source.macaddr = none)
  | .sweep _ _ => True

theorem performs_alone {env : Env} {x : Step Proxy Op} {t : Topology} {cells : Cells}
    (hs : Shows x.pre t cells) (ha : t.Alone env) (hx : HeardFrom env x)
    (h : Performs env x.pre x.input x.post) :
    ∃ t' cells', Shows x.post t' cells' ∧ t'.Alone env := by
  obtain ⟨t', cells', ht', hs'⟩ := performs_refines hs h
  refine ⟨t', cells', hs', ?_⟩
  unfold HeardFrom at hx
  cases hop : x.input with
  | packet fd now m =>
    rw [hop] at ht' hx
    refine Topology.receive_alone ha hx.1 (fun hnil => ?_) ht'
    rw [hs.route]
    exact hx.2 ((head_eq_none_iff hs).mpr hnil)
  | sweep now linkTimeout =>
    rw [hop] at ht'
    cases ht'
    exact Topology.expire_alone ha _ _

theorem ProxyRun.alone {env : Env} {tr : List (Step Proxy Op)} {st : Proxy} (hr : ProxyRun env tr st)
    (hx : ∀ x ∈ tr, HeardFrom env x) : ∃ t cells, Shows st t cells ∧ t.Alone env := by
  induction hr with
  | start => exact ⟨_, _, shows_start, Topology.alone_start env⟩
  | @snoc tr st st' op _ hstep ih =>
    obtain ⟨t, cells, hs, ha⟩ := ih fun x hmem => hx x (by simp [hmem])
    exact performs_alone (x := ⟨st, op, st'⟩) hs ha (hx _ (by simp)) hstep

/-- However long it runs, all links that a proxy stores are its own. A packet from a peer that the
table leads to is handled to the end exactly if nothing in it is stored. -/
theorem run_learns_nothing {env : Env} {tr : List (Step Proxy Op)} {st : Proxy} (hr : ProxyRun env tr st)
    (hx : ∀ x ∈ tr, HeardFrom env x) {cells : Cells} (hlist : NodeList st.heap st.memList.head cells) :
    (∀ c ∈ cells, c.2.localInfo = env.myProxyInfo) ∧
      ∀ (now : U64) (fd : Int) (m : Received), FromPeer env m → cells ≠ [] →
        st.findSocketfd m.source.macaddr ≠ none →
        ((∃ fuel st', handlePacket env fuel now fd m st = some st') ↔
          ∀ r ∈ m.links, (st.topology cells).stores env r = false) := by
  obtain ⟨t, cells', hs, ha⟩ := hr.alone hx
  have hcells := hs.list.unique hlist
  subst hcells
  have ht : st.topology cells' = t := by
    cases t
    simp only [Proxy.topology, hs.links, hs.size, hs.routes]
  constructor
  · intro c hc
    exact ha.own c.2.toLink (by rw [← hs.links]; exact List.mem_map_of_mem (f := fun x => x.2.toLink) hc)
  · intro now fd m hm hne hknown
    obtain ⟨e, he⟩ := Option.ne_none_iff_exists'.mp hknown
    have hlinks : t.links ≠ [] := fun hnil => hne (hs.links_eq_nil.mp hnil)
    rw [ht, ← ha.merge_iff hlinks now fd hm.back, handlePacket_isSome_iff hs]
    simp only [Topology.receive, hs.route, he]
    rfl

/-- `host 2` connects to `host 1` and sends its link. Then it tells of `host 3`, and `host 1` hangs. -/
theorem peer_learns_nothing : ∃ tr st cells, ProxyRun (hostEnv 1) tr st ∧ tr.length = 2 ∧
    NodeList st.heap st.memList.head cells ∧ (∀ c ∈ cells, c.2.localInfo = host 1) ∧
    ∀ fuel, handlePacket (hostEnv 1) fuel 9 4 (onePacket (host 2) (linkTo (host 2) (host 3))) st = none := by
  have hfrom : ∀ k ∈ [1, 3], FromPeer (hostEnv 1) (onePacket (host 2) (linkTo (host 2) (host k))) := by
    intro k hk
    simp only [List.mem_cons, List.not_mem_nil, or_false] at hk
    rcases hk with rfl | rfl <;> constructor <;> decide
  let op (now : U64) : Op := .packet 4 now (onePacket (host 2) (linkTo (host 2) (host 1)))
  obtain ⟨tr, st, hr, hlen, hops, hknown, cells, hcells, hne, hthird⟩ :=
    exists_proxyRun (hostEnv 1) 4 [op 0, op 7] (p := fun r => r.1.length = 2 ∧
      (∀ x ∈ r.1, x.input ∈ [op 0, op 7] ∧
        (x.pre.memList.head = none → x.pre.findSocketfd (host 2).macaddr = none)) ∧
      r.2.findSocketfd (host 2).macaddr ≠ none ∧ ∃ cells ∈ r.2.members, cells ≠ [] ∧
        (r.2.topology cells).stores (hostEnv 1) (linkTo (host 2) (host 3)) = true) (by decide +kernel)
  have hheard : ∀ x ∈ tr, HeardFrom (hostEnv 1) x := by
    intro x hx
    obtain ⟨hop, hempty⟩ := hops x hx
    simp only [List.mem_cons, List.not_mem_nil, or_false] at hop
    unfold HeardFrom
    rcases hop with hop | hop <;> rw [hop] <;> exact ⟨hfrom 1 (by simp), hempty⟩
  have hlist := members_eq_some.mp hcells
  obtain ⟨hown, hreturns⟩ := run_learns_nothing hr hheard hlist
  refine ⟨tr, st, cells, hr, hlen, hlist, hown, fun fuel => ?_⟩
  by_contra hsome
  obtain ⟨st', h⟩ := Option.ne_none_iff_exists'.mp hsome
  have hnone := (hreturns 9 4 _ (hfrom 3 (by simp)) hne hknown).mp ⟨fuel, st', h⟩
    (linkTo (host 2) (host 3)) (by simp [Received.links, onePacket])
  rw [hthird] at hnone
  cases hnone

end Cs352Proxy
