import Cs352Proxy.Renewal

/-!
# KeepAlive

Does advertising a stored link keep it on the list? Handling an advertisement may renew the link's
nodes, other nodes or none at all, and a sweep deletes, for every expired node, the first node with
its remote MAC address.

* `Heard`: a node was last renewed with the link's latest advertisement or within the timeout.
* `Sheltered`: enough nodes with the link's remote address stand in front of one of its nodes.
* `run_keepAlive_iff`: a link that is advertised in time survives every sweep exactly if each one
  finds it sheltered from the nodes that were not heard of.
-/

namespace Cs352Proxy

open Base

abbrev Endpoints := ProxyInfo × ProxyInfo

def Link.ends (l : Link) : Endpoints := (l.localInfo, l.remoteInfo)

/-- A link with these endpoints is on the membership list. -/
def Stored (ends : Endpoints) (st : Proxy) : Prop :=
  ∃ cells : Cells, NodeList st.heap st.memList.head cells ∧ ∃ x ∈ cells, x.2.toLink.ends = ends

instance (ends : Endpoints) (st : Proxy) : Decidable (Stored ends st) :=
  decidable_of_iff (∃ cells ∈ st.members, ∃ x ∈ cells, x.2.toLink.ends = ends)
    (exists_congr fun _ => and_congr_left fun _ => members_eq_some)

/-! ## Advertisements -/

/-- `add_members` handles a packet that carries the link. -/
def Advertises (ends : Endpoints) (st : Proxy) (m : Received) : Prop :=
  (st.findSocketfd m.source.macaddr ≠ none ∨ m.first.remoteInfo.macaddr = Mac.zero) ∧
    ∃ l ∈ m.links, l.ends = ends

instance (ends : Endpoints) (st : Proxy) (m : Received) : Decidable (Advertises ends st m) :=
  inferInstanceAs (Decidable (_ ∧ _))

/-- When the link was last advertised. Traces have the latest step first. -/
def lastAdvert (ends : Endpoints) : List (Step Proxy Op) → Option U64
  | [] => none
  | ⟨st, .packet _ now m, _⟩ :: older =>
    if Advertises ends st m then some now else lastAdvert ends older
  | ⟨_, .sweep .., _⟩ :: older => lastAdvert ends older

/-- There was an advertisement, at most the timeout ago. -/
def Recent (now : U64) (linkTimeout : Int) : Option U64 → Prop
  | none => False
  | some time => (now.toNat : Int) - time.toNat ≤ linkTimeout * 1000

instance (now : U64) (linkTimeout : Int) (o : Option U64) : Decidable (Recent now linkTimeout o) :=
  match o with
  | none => isFalse id
  | some _ => inferInstanceAs (Decidable (_ ≤ _))

/-- At every sweep that finds the link its latest advertisement is at most the timeout old. -/
def AdvertisedInTime (ends : Endpoints) : List (Step Proxy Op) → Prop
  | [] => True
  | ⟨_, .packet .., _⟩ :: older => AdvertisedInTime ends older
  | ⟨st, .sweep now linkTimeout, _⟩ :: older =>
    (Stored ends st → Recent now linkTimeout (lastAdvert ends older)) ∧ AdvertisedInTime ends older

instance (ends : Endpoints) : (tr : List (Step Proxy Op)) → Decidable (AdvertisedInTime ends tr)
  | [] => isTrue trivial
  | ⟨_, .packet .., _⟩ :: older =>
    have : Decidable (AdvertisedInTime ends older) := instDecidableAdvertisedInTime ends older
    this
  | ⟨_, .sweep .., _⟩ :: older =>
    have : Decidable (AdvertisedInTime ends older) := instDecidableAdvertisedInTime ends older
    inferInstanceAs (Decidable ((_ → Recent _ _ _) ∧ _))

/-- The step is not a sweep that removes the link. -/
def SurvivesSweep (ends : Endpoints) (x : Step Proxy Op) : Prop :=
  match x.input with
  | .packet .. => True
  | .sweep .. => Stored ends x.pre → Stored ends x.post

instance (ends : Endpoints) (x : Step Proxy Op) : Decidable (SurvivesSweep ends x) :=
  match x with
  | ⟨_, .packet .., _⟩ => isTrue trivial
  | ⟨_, .sweep .., _⟩ => inferInstanceAs (Decidable (_ → _))

/-! ## What a sweep spares -/

/-- Some node of the link has as many nodes with its remote MAC address in front of it as there are
nodes with this address that are gone. -/
def Sheltered (ends : Endpoints) (gone : Addr × LinkstateNode → Prop) [DecidablePred gone]
    (cells : Cells) : Prop :=
  ∃ newer x older, cells = newer ++ x :: older ∧ x.2.toLink.ends = ends ∧
    cells.countP (fun y => y.2.remoteInfo.macaddr = ends.2.macaddr ∧ gone y) ≤
      newer.countP fun y => y.2.remoteInfo.macaddr = ends.2.macaddr

theorem exists_mem_drop_filter {α : Type} {p : α → Bool} {q : α → Prop} (hqp : ∀ x, q x → p x = true)
    (ls : List α) (k : Nat) : (∃ x ∈ (ls.filter p).drop k, q x) ↔
      ∃ newer x older, ls = newer ++ x :: older ∧ q x ∧ k ≤ (newer.filter p).length := by
  constructor
  · intro h
    obtain ⟨x, hx, hq⟩ := h
    have hk : k < (ls.filter p).length := by
      have hpos := List.length_pos_of_mem hx
      rw [List.length_drop] at hpos
      omega
    obtain ⟨left, right, hdrop⟩ := List.append_of_mem hx
    have hfilter : ls.filter p = ((ls.filter p).take k ++ left) ++ x :: right := by
      rw [List.append_assoc, ← hdrop, List.take_append_drop]
    obtain ⟨newer, rest, hls, hnewer, hrest⟩ := List.filter_eq_append_iff.mp hfilter
    obtain ⟨between, older, rfl, _, _, _⟩ := List.filter_eq_cons_iff.mp hrest
    refine ⟨newer ++ between, x, older, by rw [hls, List.append_assoc], hq, ?_⟩
    rw [List.filter_append, hnewer, List.length_append, List.length_append,
      List.length_take_of_le (Nat.le_of_lt hk)]
    omega
  · intro h
    obtain ⟨newer, x, older, rfl, hq, hk⟩ := h
    refine ⟨x, ?_, hq⟩
    rw [List.filter_append, List.filter_cons_of_pos (hqp x hq), List.drop_append_of_le_length hk]
    exact List.mem_append_right _ List.mem_cons_self

section Sheltered

variable {ends : Endpoints} {gone gone' : Addr × LinkstateNode → Prop} [DecidablePred gone]
  [DecidablePred gone'] {cells : Cells}

/-- The nodes with the remote address without as many of the first ones as are gone. -/
theorem sheltered_iff : Sheltered ends gone cells ↔
    ∃ x ∈ (cells.filter fun y => y.2.remoteInfo.macaddr = ends.2.macaddr).drop
      (cells.countP fun y => y.2.remoteInfo.macaddr = ends.2.macaddr ∧ gone y),
      x.2.toLink.ends = ends := by
  have hmac : ∀ x : Addr × LinkstateNode, x.2.toLink.ends = ends →
      decide (x.2.remoteInfo.macaddr = ends.2.macaddr) = true :=
    fun x hx => decide_eq_true (congrArg (fun e => e.2.macaddr) hx)
  rw [exists_mem_drop_filter hmac]
  simp only [Sheltered, List.countP_eq_length_filter]

instance : Decidable (Sheltered ends gone cells) := decidable_of_iff _ sheltered_iff.symm

theorem sheltered_congr (h : ∀ y ∈ cells, gone y ↔ gone' y) :
    Sheltered ends gone cells ↔ Sheltered ends gone' cells := by
  have hcount : cells.countP (fun y => y.2.remoteInfo.macaddr = ends.2.macaddr ∧ gone y) =
      cells.countP fun y => y.2.remoteInfo.macaddr = ends.2.macaddr ∧ gone' y :=
    List.countP_congr fun y hy => by simp [h y hy]
  rw [sheltered_iff, sheltered_iff, hcount]

end Sheltered

theorem stored_iff {ends : Endpoints} {st : Proxy} {t : Topology} {cells : Cells}
    (hs : Shows st t cells) :
    Stored ends st ↔ ∃ l ∈ Topology.onTo ends.2.macaddr t.links, l.ends = ends := by
  have hlinks : Stored ends st ↔ ∃ l ∈ t.links, l.ends = ends := by
    rw [← hs.links]
    unfold Stored Cells.links
    simp only [List.mem_map]
    constructor
    · intro h
      obtain ⟨cells', hlist, x, hx, hends⟩ := h
      rw [hlist.unique hs.list] at hx
      exact ⟨_, ⟨x, hx, rfl⟩, hends⟩
    · intro h
      obtain ⟨_, ⟨x, hx, rfl⟩, hends⟩ := h
      exact ⟨cells, hs.list, x, hx, hends⟩
  rw [hlinks]
  unfold Topology.onTo
  simp only [List.mem_filter, decide_eq_true_eq]
  constructor
  · intro h
    obtain ⟨l, hl, rfl⟩ := h
    exact ⟨l, ⟨hl, rfl⟩, rfl⟩
  · intro h
    obtain ⟨l, ⟨hl, _⟩, hends⟩ := h
    exact ⟨l, hl, hends⟩

/-- A sweep keeps exactly the links that are sheltered from the expired nodes. -/
theorem sweep_stored_iff {env : Env} {st st' : Proxy} {now : U64} {linkTimeout : Int} {cells : Cells}
    (hlist : NodeList st.heap st.memList.head cells)
    (h : Performs env st (.sweep now linkTimeout) st') (ends : Endpoints) :
    Stored ends st' ↔
      Sheltered ends (fun y => Topology.Expired now.toNat (linkTimeout * 1000) y.2.toLink) cells := by
  obtain ⟨t', cells', hperform, hs'⟩ := performs_refines (shows_topology hlist) h
  cases hperform
  have honTo : Topology.onTo ends.2.macaddr cells.links =
      (cells.filter fun y => y.2.remoteInfo.macaddr = ends.2.macaddr).map fun x => x.2.toLink :=
    List.filter_map
  have hexpired : Topology.expiredOnTo now.toNat (linkTimeout * 1000) ends.2.macaddr cells.links =
      cells.countP fun y => y.2.remoteInfo.macaddr = ends.2.macaddr ∧
        Topology.Expired now.toNat (linkTimeout * 1000) y.2.toLink := by
    rw [Topology.expiredOnTo, honTo, List.countP_map, List.countP_filter]
    exact List.countP_congr fun y _ => by simp [and_comm]
  rw [stored_iff hs', Topology.expire_onTo, sheltered_iff]
  simp only [Proxy.topology, honTo, hexpired, ← List.map_drop, List.mem_map, exists_exists_and_eq_and]

/-! ## Which nodes are heard of -/

/-- The last packet to renew the node came when the link was last advertised, or at most the timeout
ago. -/
def Heard (env : Env) (ends : Endpoints) (now : U64) (linkTimeout : Int)
    (older : List (Step Proxy Op)) (p : Addr) : Prop :=
  lastRenewal env p older = lastAdvert ends older ∨ Recent now linkTimeout (lastRenewal env p older)

instance (env : Env) (ends : Endpoints) (now : U64) (linkTimeout : Int)
    (older : List (Step Proxy Op)) (p : Addr) : Decidable (Heard env ends now linkTimeout older p) :=
  inferInstanceAs (Decidable (_ ∨ _))

/-- Every sweep that finds the link finds it sheltered from the nodes that were not heard of. -/
def HeardInTime (env : Env) (ends : Endpoints) : List (Step Proxy Op) → Prop
  | [] => True
  | ⟨_, .packet .., _⟩ :: older => HeardInTime env ends older
  | ⟨st, .sweep now linkTimeout, _⟩ :: older =>
    (Stored ends st → ∀ cells ∈ st.members,
        Sheltered ends (fun y => ¬ Heard env ends now linkTimeout older y.1) cells) ∧
      HeardInTime env ends older

instance (env : Env) (ends : Endpoints) :
    (tr : List (Step Proxy Op)) → Decidable (HeardInTime env ends tr)
  | [] => isTrue trivial
  | ⟨_, .packet .., _⟩ :: older =>
    have : Decidable (HeardInTime env ends older) := instDecidableHeardInTime env ends older
    this
  | ⟨_, .sweep .., _⟩ :: older =>
    have : Decidable (HeardInTime env ends older) := instDecidableHeardInTime env ends older
    inferInstanceAs (Decidable ((_ → ∀ cells ∈ _, Sheltered _ _ _) ∧ _))

/-- While the link is advertised in time, the nodes that have expired are those not heard of. -/
theorem not_heard_iff_expired {env : Env} {ends : Endpoints} {older : List (Step Proxy Op)}
    {st : Proxy} {now : U64} {linkTimeout : Int} {cells : Cells} (hr : ProxyRun env older st)
    (hlist : NodeList st.heap st.memList.head cells)
    (hadv : Recent now linkTimeout (lastAdvert ends older)) :
    ∀ y ∈ cells, ¬ Heard env ends now linkTimeout older y.1 ↔
      Topology.Expired now.toNat (linkTimeout * 1000) y.2.toLink := by
  intro y hy
  have hlast := hr.lastRenewal hlist y hy
  have hrecent : Recent now linkTimeout (some y.2.ID) ↔
      ¬ Topology.Expired now.toNat (linkTimeout * 1000) y.2.toLink := Int.not_lt.symm
  unfold Heard
  rw [hlast, ← not_iff_not, not_not, ← hrecent]
  constructor
  · intro h
    rcases h with hsame | h
    · rw [hsame]
      exact hadv
    · exact h
  · exact .inr

/-- A link that is advertised in time survives every sweep of a run exactly if every sweep finds it
sheltered from the nodes that were not heard of. -/
theorem run_keepAlive_iff {env : Env} {tr : List (Step Proxy Op)} {st : Proxy}
    (hr : ProxyRun env tr st) (ends : Endpoints) (hadv : AdvertisedInTime ends tr) :
    (∀ x ∈ tr, SurvivesSweep ends x) ↔ HeardInTime env ends tr := by
  induction hr with
  | start => simp [HeardInTime]
  | @snoc tr s s' i hr hstep ih =>
    rw [List.forall_mem_cons]
    cases i with
    | packet fd now m => exact (and_iff_right trivial).trans (ih hadv)
    | sweep now linkTimeout =>
      obtain ⟨hrecent, hadv⟩ := hadv
      obtain ⟨⟨t, cells, hs⟩, _⟩ := ProxyRun.shows hr
      refine and_congr (forall_congr' fun hstored => ?_) (ih hadv)
      rw [sweep_stored_iff hs.list hstep, members_eq_some.mpr hs.list]
      simp only [Option.mem_some_iff, forall_eq']
      exact (sheltered_congr (not_heard_iff_expired hr hs.list (hrecent hstored))).symm

/-- A neighbour on the same machine advertises the link to itself 6 seconds before a sweep with a
timeout of 15 seconds; the node still carries the time of the connection, and is deleted. -/
theorem advertised_link_swept : ∃ env tr st ends, ProxyRun env tr st ∧ AdvertisedInTime ends tr ∧
    ¬ ∀ x ∈ tr, SurvivesSweep ends x := by
  obtain ⟨tr, st, hr, hadv, hswept⟩ := exists_proxyRun (hostEnv 1) 4
    [.packet 4 0 (onePacket cohost (linkTo cohost (host 1))),
      .packet 4 10000 (onePacket cohost (linkTo (host 1) cohost)), .sweep 16000 15]
    (p := fun r => AdvertisedInTime (host 1, cohost) r.1 ∧
      ¬ ∀ x ∈ r.1, SurvivesSweep (host 1, cohost) x) (by decide +kernel)
  exact ⟨hostEnv 1, tr, st, (host 1, cohost), hr, hadv, hswept⟩

/-- The neighbour also advertises its own link to `host 1`, which leads to the node of the link to the
neighbour: the node is renewed with the advertisement and is 6 seconds old at the sweep. -/
theorem advertised_link_survives : ∃ tr st, ProxyRun (hostEnv 1) tr st ∧ tr.length = 3 ∧
    AdvertisedInTime (host 1, cohost) tr ∧ (∃ x ∈ tr, x.input = .sweep 16000 15 ∧
      Stored (host 1, cohost) x.pre) ∧ ∀ x ∈ tr, SurvivesSweep (host 1, cohost) x := by
  let both : Received :=
    { head := { type := pktLinkstate, length := 86 }, numNeighbors := 2, source := cohost
      first := linkTo cohost (host 1), rest := [linkTo (host 1) cohost] }
  obtain ⟨tr, st, hr, hlen, hadv, hsweep, hheard⟩ := exists_proxyRun (hostEnv 1) 4
    [.packet 4 0 (onePacket cohost (linkTo cohost (host 1))), .packet 4 10000 both, .sweep 16000 15]
    (p := fun r => r.1.length = 3 ∧ AdvertisedInTime (host 1, cohost) r.1 ∧
      (∃ x ∈ r.1, x.input = .sweep 16000 15 ∧ Stored (host 1, cohost) x.pre) ∧
      HeardInTime (hostEnv 1) (host 1, cohost) r.1) (by decide +kernel)
  exact ⟨tr, st, hr, hlen, hadv, hsweep, (run_keepAlive_iff hr (host 1, cohost) hadv).mpr hheard⟩

end Cs352Proxy
