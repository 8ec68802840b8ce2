import Cs352Proxy.Returning
import Cs352Proxy.Membership

/-!
# Renewal

Which packet gives which stored node a new time? The packet's links and the list it finds on
arrival decide; the times of the list do not matter.

* `Topology.looks`: the links that `add_member_connect` looks at, each with what is known then.
* `Topology.Renews`: one of them leads to the node with `k` nodes behind it.
* `merge_links`: a merged list puts new links in front and renews these nodes.
* `lastRenewal`: the last packet of a run that stored or renewed a node; the node carries its time
  (`ProxyRun.lastRenewal`).
-/

namespace Cs352Proxy

open Base

namespace Topology

/-! ## Nodes that are found -/

/-- How many links stand behind the first one that joins the endpoints of `r` the other way
round. -/
def behindReverse (r : Link) : List Link → Option Nat
  | [] => none
  | l :: ls => if reverses r l then some ls.length else behindReverse r ls

theorem behindReverse_lt {r : Link} {ls : List Link} {k : Nat} (h : behindReverse r ls = some k) :
    k < ls.length := by
  induction ls with
  | nil => cases h
  | cons l ls ih =>
    unfold behindReverse at h
    split at h
    · cases h
      exact Nat.lt_succ_self _
    · exact Nat.lt_succ_of_lt (ih h)

theorem reverses_faces (r : Link) {l l' : Link} (h : face l = face l') :
    reverses r l = reverses r l' := by
  obtain ⟨hlocal, hrest⟩ := Prod.mk.inj h
  simp only [reverses, hlocal, (Prod.mk.inj hrest).1]

theorem behindReverse_faces (r : Link) {ls ls' : List Link} (h : ls.map face = ls'.map face) :
    behindReverse r ls = behindReverse r ls' := by
  induction ls generalizing ls' with
  | nil =>
    have hnil : ls' = [] := List.map_eq_nil_iff.mp h.symm
    rw [hnil]
  | cons l ls ih =>
    cases ls' with
    | nil => cases h
    | cons l' ls' =>
      obtain ⟨hl, hrest⟩ := List.cons.inj h
      have hlen := congrArg List.length hrest
      rw [List.length_map, List.length_map] at hlen
      rw [behindReverse, behindReverse, reverses_faces r hl, hlen, ih hrest]

/-! ## New times -/

/-- The links that have `k` links behind them get a new time where `p k`. -/
def restamp (now : U64) (p : Nat → Bool) : List Link → List Link
  | [] => []
  | l :: ls => (if p ls.length then { l with ID := now } else l) :: restamp now p ls

variable {env : Env} {now : U64} {gw : Int} {t t' : Topology} {ls : List Link}

@[simp] theorem length_restamp (p : Nat → Bool) (ls : List Link) :
    (restamp now p ls).length = ls.length := by
  induction ls with
  | nil => rfl
  | cons l ls ih => rw [restamp, List.length_cons, ih, List.length_cons]

theorem restamp_congr {p q : Nat → Bool} (h : ∀ k < ls.length, p k = q k) :
    restamp now p ls = restamp now q ls := by
  induction ls with
  | nil => rfl
  | cons l ls ih =>
    rw [restamp, restamp, h ls.length (Nat.lt_succ_self _),
      ih fun k hk => h k (Nat.lt_succ_of_lt hk)]

theorem restamp_of_not {p : Nat → Bool} (h : ∀ k < ls.length, p k = false) :
    restamp now p ls = ls := by
  induction ls with
  | nil => rfl
  | cons l ls ih =>
    rw [restamp, h ls.length (Nat.lt_succ_self _), ih fun k hk => h k (Nat.lt_succ_of_lt hk)]
    rfl

theorem restamp_restamp (p q : Nat → Bool) (ls : List Link) :
    restamp now p (restamp now q ls) = restamp now (fun k => q k || p k) ls := by
  induction ls with
  | nil => rfl
  | cons l ls ih =>
    rw [restamp, restamp, restamp, ih, length_restamp]
    by_cases hq : q ls.length <;> by_cases hp : p ls.length <;> simp [hp, hq]

theorem restamp_append (now : U64) (p : Nat → Bool) (new ls : List Link) :
    ∃ new', restamp now p (new ++ ls) = new' ++ restamp now p ls ∧
      ((∀ l ∈ new, l.ID = now) → ∀ l ∈ new', l.ID = now) := by
  induction new with
  | nil => exact ⟨[], rfl, fun h => h⟩
  | cons x new ih =>
    obtain ⟨new', heq, hnew⟩ := ih
    refine ⟨_ :: new', by rw [List.cons_append, restamp, heq, List.cons_append], fun h => ?_⟩
    obtain ⟨hx, hrest⟩ := List.forall_mem_cons.mp h
    refine List.forall_mem_cons.mpr ⟨?_, hnew hrest⟩
    split
    · rfl
    · exact hx

theorem refresh_eq_restamp (now : U64) (r : Link) (ls : List Link) :
    refresh now r ls = restamp now (fun k => behindReverse r ls = some k) ls := by
  induction ls with
  | nil => rfl
  | cons l ls ih =>
    unfold refresh behindReverse restamp
    by_cases hrev : reverses r l
    · have hrest : ∀ k < ls.length, decide (some ls.length = some k) = false := by
        intro k hk
        simp only [Option.some.injEq, decide_eq_false_iff_not]
        omega
      simp only [hrev, if_true, decide_true, restamp_of_not hrest]
    · have hne : behindReverse r ls ≠ some ls.length :=
        fun h => Nat.lt_irrefl _ (behindReverse_lt h)
      simp only [hrev, if_false, Bool.false_eq_true, hne, decide_false, ih]

/-! ## What a packet renews -/

/-- The links that are looked at while `rs` is merged, each with what is known then. Behind the
first link that is stored the walk goes on over the list as it was. -/
def looks (env : Env) (now : U64) (gw : Int) : List Link → Topology → List (Link × Topology)
  | [], _ => []
  | r :: rs, t =>
    if t.stores env r then t.links.map fun l => (l, t.store now gw r)
    else (r, t) :: looks env now gw rs t

/-- A link with a remote address that is not in the table leads to its reverse, and there are `k`
links behind that. -/
def LeadsTo (k : Nat) (x : Link × Topology) : Prop :=
  x.2.route x.1.remoteInfo.macaddr = none ∧ behindReverse x.1 x.2.links = some k

instance (k : Nat) (x : Link × Topology) : Decidable (LeadsTo k x) :=
  inferInstanceAs (Decidable (_ ∧ _))

/-- Merging `rs` renews the link with `k` links behind it. -/
def Renews (env : Env) (now : U64) (gw : Int) (rs : List Link) (t : Topology) (k : Nat) : Prop :=
  ∃ x ∈ looks env now gw rs t, LeadsTo k x

instance (env : Env) (now : U64) (gw : Int) (rs : List Link) (t : Topology) (k : Nat) :
    Decidable (Renews env now gw rs t k) := inferInstanceAs (Decidable (∃ x ∈ _, _))

theorem leadsTo_keep (q r : Link) (t : Topology) (k : Nat) :
    LeadsTo k (r, t.keep now q) ↔ LeadsTo k (r, t) := by
  unfold LeadsTo
  simp only [route, keep_routes, behindReverse_faces r (keep_faces now q t)]

theorem leadsTo_ends {l l' : Link} (h : face l = face l') (t : Topology) (k : Nat) :
    LeadsTo k (l, t) ↔ LeadsTo k (l', t) := by
  obtain ⟨hlocal, hrest⟩ := Prod.mk.inj h
  obtain ⟨hremote, _⟩ := Prod.mk.inj hrest
  have hback : ∀ ls, behindReverse l ls = behindReverse l' ls := by
    intro ls
    induction ls with
    | nil => rfl
    | cons x ls ih => rw [behindReverse, behindReverse, reverses_ends hlocal hremote, ih]
  simp only [LeadsTo, hremote, hback]

theorem leadsTo_store_keep (q r l : Link) (t : Topology) (k : Nat) :
    LeadsTo k (l, (t.keep now q).store now gw r) ↔ LeadsTo k (l, t.store now gw r) := by
  have hroute : ((t.keep now q).store now gw r).route l.remoteInfo.macaddr = none ↔
      (t.store now gw r).route l.remoteInfo.macaddr = none := by
    rw [← Option.not_isSome_iff_eq_none, ← Option.not_isSome_iff_eq_none, store_route_isSome,
      store_route_isSome, route, keep_routes, route]
  have hlinks : behindReverse l ((t.keep now q).store now gw r).links =
      behindReverse l (t.store now gw r).links := by
    obtain ⟨w, hw⟩ := store_links now gw r t
    obtain ⟨w', hw'⟩ := store_links now gw r (t.keep now q)
    have hnew : ∀ w, reverses l { r with linkweight := w, ID := now } = reverses l r := fun _ => rfl
    rw [hw, hw', behindReverse, behindReverse, hnew, hnew, length_keep,
      behindReverse_faces l (keep_faces now q t)]
  simp only [LeadsTo, hroute, hlinks]

/-- The times of the list do not matter. -/
theorem renews_keep (q : Link) (rs : List Link) (t : Topology) (k : Nat) :
    Renews env now gw rs (t.keep now q) k ↔ Renews env now gw rs t k := by
  unfold Renews
  induction rs with
  | nil => exact Iff.rfl
  | cons r rs ih =>
    simp only [looks, keep_stores]
    split
    · simp only [List.mem_map, exists_exists_and_eq_and, leadsTo_store_keep]
      constructor
      · intro h
        obtain ⟨l, hl, hk⟩ := h
        obtain ⟨l', hl', heq⟩ := exists_face_of_mem_keep hl
        exact ⟨l', hl', (leadsTo_ends heq _ k).mpr hk⟩
      · intro h
        obtain ⟨l, hl, hk⟩ := h
        obtain ⟨l', hl', heq⟩ := exists_keep_of_mem now q hl
        exact ⟨l', hl', (leadsTo_ends heq _ k).mpr hk⟩
    · simp only [List.exists_mem_cons_iff, leadsTo_keep, ih]

theorem keep_links (r : Link) (t : Topology) :
    (t.keep now r).links = restamp now (fun k => LeadsTo k (r, t)) t.links := by
  by_cases hroute : t.route r.remoteInfo.macaddr = none
  · rw [keep, hroute, refresh_eq_restamp]
    exact restamp_congr fun k _ => decide_eq_decide.mpr (and_iff_right hroute).symm
  · obtain ⟨e, hroute'⟩ := Option.ne_none_iff_exists'.mp hroute
    rw [keep, hroute']
    exact (restamp_of_not fun k _ => decide_eq_false fun h => hroute h.1).symm

theorem rewalk_links (h : t.rewalk env now ls = some t') :
    t'.links = restamp now (fun k => ∃ l ∈ ls, LeadsTo k (l, t)) t.links := by
  induction ls generalizing t with
  | nil =>
    cases h
    exact (restamp_of_not fun k _ => by simp).symm
  | cons l ls ih =>
    unfold rewalk at h
    split at h
    · cases h
    · rw [ih h, keep_links, restamp_restamp]
      refine restamp_congr fun k _ => ?_
      rw [← Bool.decide_or, decide_eq_decide]
      simp only [leadsTo_keep, List.exists_mem_cons_iff]

/-- A merged list: the links stored anew, in front of the old ones of which some are renewed. -/
theorem merge_links {rs : List Link} (h : t.merge env now gw rs = some t') :
    ∃ new, t'.links = new ++ restamp now (fun k => Renews env now gw rs t k) t.links ∧
      ∀ l ∈ new, l.ID = now := by
  induction rs generalizing t with
  | nil =>
    cases h
    exact ⟨[], (restamp_of_not fun k _ => by simp [Renews, looks]).symm, by simp⟩
  | cons r rs ih =>
    unfold merge at h
    split at h
    · rename_i hst
      obtain ⟨w, hlinks⟩ := store_links now gw r t
      obtain ⟨new, heq, hnew⟩ := restamp_append now
        (fun k => ∃ l ∈ t.links, LeadsTo k (l, t.store now gw r))
        [{ r with linkweight := w, ID := now }] t.links
      refine ⟨new, ?_, hnew (by simp)⟩
      rw [rewalk_links h, hlinks, ← List.singleton_append, heq]
      congr 1
      refine restamp_congr fun k _ => ?_
      simp only [Renews, looks, hst, if_true, List.mem_map, exists_exists_and_eq_and]
    · rename_i hst
      obtain ⟨new, heq, hnew⟩ := ih h
      refine ⟨new, ?_, hnew⟩
      rw [heq, keep_links, restamp_restamp]
      congr 1
      refine restamp_congr fun k _ => ?_
      rw [← Bool.decide_or, decide_eq_decide, renews_keep]
      simp only [Renews, looks, hst, if_false, Bool.false_eq_true, List.exists_mem_cons_iff]

/-- The packet renews the link that has `k` links behind it on arrival. -/
def ReceiptRenews (env : Env) (now : U64) (fd : Int) (m : Received) (t : Topology) (k : Nat) : Prop :=
  match t.route m.source.macaddr with
  | some _ => Renews env now fd m.links t k
  | none =>
    m.first.remoteInfo.macaddr = Mac.zero ∧ Renews env now fd m.links
      { links := client env m.source now :: t.links, size := t.size + 1
        routes := { macaddr := m.source.macaddr, sockFd := fd } :: t.routes } k

instance (env : Env) (now : U64) (fd : Int) (m : Received) (t : Topology) (k : Nat) :
    Decidable (ReceiptRenews env now fd m t k) := by
  unfold ReceiptRenews
  split <;> infer_instance

/-- A handled packet leaves the link to the client that connected, or the old links behind those
that it stored. -/
theorem receive_links {fd : Int} {m : Received}
    (h : t.receive env now fd m.numNeighbors m.source m.first m.rest = some t') :
    (∃ l, t'.links = [l] ∧ l.ID = now) ∧ (t.route m.source.macaddr = none ∧
        m.first.remoteInfo.macaddr ≠ Mac.zero ∧ m.numNeighbors = 1) ∨
      (∃ new, t'.links = new ++ restamp now (fun k => ReceiptRenews env now fd m t k) t.links ∧
          ∀ l ∈ new, l.ID = now) ∧ ¬ (t.route m.source.macaddr = none ∧
        m.first.remoteInfo.macaddr ≠ Mac.zero ∧ m.numNeighbors = 1) := by
  unfold receive at h
  cases hroute : t.route m.source.macaddr with
  | some e =>
    simp only [hroute] at h
    refine .inr ⟨?_, by simp⟩
    simp only [ReceiptRenews, hroute]
    exact merge_links h
  | none =>
    simp only [hroute] at h
    by_cases hzero : m.first.remoteInfo.macaddr = Mac.zero
    · rw [if_pos hzero] at h
      obtain ⟨new, heq, hnew⟩ := merge_links h
      rw [← List.singleton_append] at heq
      obtain ⟨client', hclient, htime⟩ := restamp_append now (fun k => Renews env now fd m.links
        { links := client env m.source now :: t.links, size := t.size + 1
          routes := { macaddr := m.source.macaddr, sockFd := fd } :: t.routes } k)
        [client env m.source now] t.links
      refine .inr ⟨⟨new ++ client', ?_, List.forall_mem_append.mpr ⟨hnew, htime ?_⟩⟩, by simp [hzero]⟩
      · simp only [ReceiptRenews, hroute, hzero, true_and]
        rw [List.append_assoc, ← hclient]
        exact heq
      · exact List.forall_mem_singleton.mpr rfl
    · rw [if_neg hzero] at h
      by_cases hnn : m.numNeighbors = 1
      · rw [if_pos hnn] at h
        cases h
        exact .inl ⟨⟨_, rfl, rfl⟩, rfl, hzero, hnn⟩
      · rw [if_neg hnn] at h
        cases h
        refine .inr ⟨⟨[], (restamp_of_not fun k _ => ?_).symm, by simp⟩, fun h => hnn h.2.2⟩
        simp only [ReceiptRenews, hroute, hzero, false_and, decide_false]

end Topology

/-! ## The nodes -/

/-- How many nodes stand behind the node at `p`. -/
def behind (p : Addr) : Cells → Option Nat
  | [] => none
  | x :: xs => if x.1 = p then some xs.length else behind p xs

theorem behind_eq_none {p : Addr} {cells : Cells} (h : p ∉ cells.map Prod.fst) :
    behind p cells = none := by
  induction cells with
  | nil => rfl
  | cons x xs ih =>
    rw [List.map_cons, List.mem_cons, not_or] at h
    rw [behind, if_neg fun hx => h.1 hx.symm, ih h.2]

/-- The node at `p` gets its time from the packet. A node that is not on the list when the packet
comes in, and is afterwards, was put there by it. -/
def Proxy.Renewed (env : Env) (now : U64) (fd : Int) (m : Received) (st : Proxy) (p : Addr) : Prop :=
  ∃ cells ∈ st.members, ∀ k ∈ behind p cells, (st.topology cells).ReceiptRenews env now fd m k

instance (env : Env) (now : U64) (fd : Int) (m : Received) (st : Proxy) (p : Addr) :
    Decidable (st.Renewed env now fd m p) :=
  inferInstanceAs (Decidable (∃ cells ∈ _, ∀ k ∈ _, _))

theorem renewed_iff {env : Env} {now : U64} {fd : Int} {m : Received} {st : Proxy} {cells : Cells}
    (hlist : NodeList st.heap st.memList.head cells) (p : Addr) :
    st.Renewed env now fd m p ↔
      ∀ k ∈ behind p cells, (st.topology cells).ReceiptRenews env now fd m k := by
  unfold Proxy.Renewed
  rw [members_eq_some.mpr hlist]
  simp

/-- The list whose links were renewed in place, node by node. -/
theorem restamped_cells {now : U64} {p : Nat → Bool} {cells : Cells} :
    ∀ {old : Cells}, old.map Prod.fst = cells.map Prod.fst →
      old.links = Topology.restamp now p cells.links → (cells.map Prod.fst).Nodup →
      ∀ y ∈ old, ∃ x ∈ cells, ∃ k, x.1 = y.1 ∧ behind y.1 cells = some k ∧
        y.2.ID = if p k then now else x.2.ID := by
  induction cells with
  | nil =>
    intro old haddr _ _ y hy
    rw [List.map_eq_nil_iff.mp haddr] at hy
    cases hy
  | cons x xs ih =>
    intro old haddr hlinks hnd y hy
    cases old with
    | nil => cases hy
    | cons z zs =>
      obtain ⟨hz, haddr⟩ := List.cons.inj haddr
      obtain ⟨hlink, hlinks⟩ := List.cons.inj hlinks
      obtain ⟨hx, hnd⟩ := List.nodup_cons.mp hnd
      rcases List.mem_cons.mp hy with rfl | hy
      · have hid : y.2.ID = _ := congrArg Link.ID hlink
        refine ⟨x, List.mem_cons_self, xs.length, hz.symm, by rw [behind, if_pos hz.symm], ?_⟩
        rw [hid, List.length_map]
        split <;> rfl
      · obtain ⟨x', hx', k, hx'y, hk, hid⟩ := ih haddr hlinks hnd y hy
        have hne : x.1 ≠ y.1 := fun h => hx (h ▸ hx'y ▸ List.mem_map_of_mem hx')
        exact ⟨x', List.mem_cons_of_mem _ hx', k, hx'y, by rw [behind, if_neg hne, hk], hid⟩

/-- A list that new nodes were put in front of, and whose links were renewed in place. -/
theorem grown_cells {now : U64} {p : Nat → Bool} {cells cells' : Cells} {new : List Link}
    (hsuffix : cells.map Prod.fst <:+ cells'.map Prod.fst) (hnd : (cells'.map Prod.fst).Nodup)
    (hlinks : cells'.links = new ++ Topology.restamp now p cells.links) (hnew : ∀ l ∈ new, l.ID = now) :
    ∀ y ∈ cells', (y.1 ∉ cells.map Prod.fst ∧ y.2.ID = now) ∨
      ∃ x ∈ cells, ∃ k, x.1 = y.1 ∧ behind y.1 cells = some k ∧ y.2.ID = if p k then now else x.2.ID := by
  obtain ⟨front, hfront⟩ := hsuffix
  obtain ⟨newc, old, rfl, _, hold⟩ := List.map_eq_append_iff.mp hfront.symm
  have hlen := congrArg List.length hold
  rw [Cells.links_append] at hlinks
  obtain ⟨hnl, hol⟩ := List.append_inj' hlinks (by simpa using hlen)
  rw [List.map_append, hold, List.nodup_append] at hnd
  obtain ⟨_, hcells, hapart⟩ := hnd
  intro y hy
  rcases List.mem_append.mp hy with hy | hy
  · refine .inl ⟨fun hmem => hapart y.1 (List.mem_map_of_mem hy) y.1 hmem rfl, hnew _ ?_⟩
    rw [← hnl]
    exact List.mem_map_of_mem hy
  · exact .inr (restamped_cells hold hol hcells y hy)

section Packet

variable {env : Env} {fuel : Nat} {now : U64} {fd : Int} {m : Received} {st st' : Proxy}
  {cells cells' : Cells}

/-- A packet puts its nodes in front of the list, unless a client connects. -/
theorem handlePacket_suffix (hlist : NodeList st.heap st.memList.head cells)
    (hlist' : NodeList st'.heap st'.memList.head cells')
    (h : handlePacket env fuel now fd m st = some st') (hclient : ¬ InitialConnect st m) :
    cells.map Prod.fst <:+ cells'.map Prod.fst := by
  have hs := (shows_topology hlist).alloc m.links
  have hgrown : ∀ cells₁, Grown cells (st.alloc m.links) cells₁ st' →
      cells.map Prod.fst <:+ cells'.map Prod.fst := by
    intro cells₁ hgrown
    rw [hlist'.unique hgrown.list]
    have hmap := hgrown.suffix.map Prod.fst
    simpa only [Cells.stamps, List.map_map, Function.comp_def] using hmap
  obtain ⟨first, node, hfirst, hnode, hcases⟩ := handleLinkstate_cases h
  rcases hcases with ⟨_, _, hwalk⟩ | ⟨_, _, hback⟩ | ⟨hroute, hzero, hnn, _⟩ | ⟨_, _, _, rfl⟩
  · obtain ⟨cells₁, hg⟩ := addMembersLoop_grows fuel hs.list hwalk
    exact hgrown cells₁ hg
  · obtain ⟨cells₁, hg⟩ := gotPacketBack_grows hs.list hback
    exact hgrown cells₁ hg
  · obtain ⟨node', hnode', hremote⟩ := alloc_first m st
    cases hfirst
    rw [hnode] at hnode'
    cases hnode'
    rw [hremote] at hzero
    exact absurd ⟨hroute, hzero, hnn⟩ hclient
  · cases hlist'.unique hs.list
    exact List.suffix_refl _

/-- The one node of a proxy that a client connected to is new. -/
theorem handlePacket_client (hlist : NodeList st.heap st.memList.head cells)
    (hlist' : NodeList st'.heap st'.memList.head cells')
    (h : handlePacket env fuel now fd m st = some st') (hclient : InitialConnect st m) :
    ∀ y ∈ cells', y.1 ∉ cells.map Prod.fst := by
  obtain ⟨hroute, hzero, hnn⟩ := hclient
  rw [handlePacket_original hroute hzero, if_pos hnn] at h
  obtain ⟨⟨node, hone⟩, _⟩ := gotOriginalPacket_cuts h
  rw [hlist'.unique hone]
  refine List.forall_mem_singleton.mpr fun hmem => ?_
  obtain ⟨x, hx, hxa⟩ := List.mem_map.mp hmem
  have hlt := hlist.lt_length x hx
  rw [hxa] at hlt
  have hlen : (st.alloc m.links).heap.length ≥ st.heap.length := by simp [Proxy.alloc]
  omega

/-- A node that is new gets the packet's time. -/
theorem renewed_of_not_mem (hlist : NodeList st.heap st.memList.head cells) {p : Addr}
    (hp : p ∉ cells.map Prod.fst) : st.Renewed env now fd m p := by
  rw [renewed_iff hlist, behind_eq_none hp]
  simp

/-- After a packet, a node carries the packet's time if it was renewed and its old time if not. -/
theorem handlePacket_times (hlist : NodeList st.heap st.memList.head cells)
    (hlist' : NodeList st'.heap st'.memList.head cells')
    (h : handlePacket env fuel now fd m st = some st') :
    ∀ y ∈ cells', st.Renewed env now fd m y.1 ∧ y.2.ID = now ∨
      ¬ st.Renewed env now fd m y.1 ∧ ∃ x ∈ cells, x.1 = y.1 ∧ y.2.ID = x.2.ID := by
  have hs := shows_topology hlist
  obtain ⟨t', cells₁, hreceive, hs'⟩ := handlePacket_refines hs h
  cases hs'.list.unique hlist'
  intro y hy
  rcases Topology.receive_links hreceive with ⟨⟨l, hl, hid⟩, hclient⟩ | ⟨⟨new, hlinks, hids⟩, hclient⟩
  · rw [hs.route] at hclient
    have hylink : y.2.toLink ∈ t'.links := by
      rw [← hs'.links]
      exact List.mem_map_of_mem hy
    rw [hl, List.mem_singleton] at hylink
    refine .inl ⟨renewed_of_not_mem hlist (handlePacket_client hlist hlist' h hclient y hy), ?_⟩
    rw [← hid, ← hylink]
  · rw [hs.route] at hclient
    rw [← hs'.links] at hlinks
    rcases grown_cells (handlePacket_suffix hlist hlist' h hclient) hlist'.nodup hlinks hids y hy with
      ⟨hoff, hid⟩ | ⟨x, hx, k, hxy, hk, hid⟩
    · exact .inl ⟨renewed_of_not_mem hlist hoff, hid⟩
    · have hiff : st.Renewed env now fd m y.1 ↔ (st.topology cells).ReceiptRenews env now fd m k := by
        rw [renewed_iff hlist, hk]
        simp
      by_cases hrenew : (st.topology cells).ReceiptRenews env now fd m k
      · refine .inl ⟨hiff.mpr hrenew, ?_⟩
        rw [hid, if_pos (decide_eq_true hrenew)]
      · refine .inr ⟨fun h => hrenew (hiff.mp h), x, hx, hxy, ?_⟩
        rw [hid, if_neg (by simpa using hrenew)]

end Packet

/-! ## Runs -/

/-- When the node at `p` was last renewed. Traces have the latest step first. -/
def lastRenewal (env : Env) (p : Addr) : List (Step Proxy Op) → Option U64
  | [] => none
  | ⟨st, .packet fd now m, _⟩ :: older =>
    if st.Renewed env now fd m p then some now else lastRenewal env p older
  | ⟨_, .sweep .., _⟩ :: older => lastRenewal env p older

/-- In every state of a run, a stored node carries the time of the packet that last renewed it. -/
theorem ProxyRun.lastRenewal {env : Env} {tr : List (Step Proxy Op)} {st : Proxy}
    (hr : ProxyRun env tr st) {cells : Cells} (hlist : NodeList st.heap st.memList.head cells) :
    ∀ x ∈ cells, lastRenewal env x.1 tr = some x.2.ID := by
  induction hr generalizing cells with
  | start =>
    rw [hlist.unique shows_start.list]
    simp
  | @snoc tr s s' i hr hstep ih =>
    obtain ⟨⟨t, cells₀, hs⟩, _⟩ := ProxyRun.shows hr
    obtain ⟨fuel, hperform⟩ := hstep
    intro x hx
    cases i with
    | packet fd now m =>
      rcases handlePacket_times hs.list hlist hperform x hx with ⟨hrenew, hid⟩ | ⟨hrenew, y, hy, hyx, hid⟩
      · rw [Cs352Proxy.lastRenewal, if_pos hrenew, hid]
      · rw [Cs352Proxy.lastRenewal, if_neg hrenew, hid, ← hyx]
        exact ih hs.list y hy
    | sweep now linkTimeout =>
      obtain ⟨cells₁, hs', hsub⟩ := removeExpiredMembers_refines hs hperform
      cases hs'.list.unique hlist
      have hmem : (x.1, x.2.toLink) ∈ cells₀.bare :=
        hsub.subset (List.mem_map_of_mem hx)
      obtain ⟨y, hy, hyx⟩ := List.mem_map.mp hmem
      obtain ⟨haddr, hlink⟩ := Prod.mk.inj hyx
      rw [Cs352Proxy.lastRenewal, ← haddr, ih hs.list y hy, ← hlink]

end Cs352Proxy
