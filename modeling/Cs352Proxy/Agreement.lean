import Cs352Proxy.Membership
import Cs352Proxy.Addresses

/-!
# Agreement

Does a MAC address have a forwarding entry exactly when some stored link leads to it? Storing a
link keeps the two in step. Two operations do not: the reply to a client that connects adds an
entry for the packet's source while it cuts the list down to a link to the first link's local
address, and a sweep removes the only entry of an address with the first of its links.

Packets carry no MAC address with a zero byte in it, but a remote address may be all zero.
-/

namespace Cs352Proxy

open Base

/-- Some node on the membership list has the remote address `mac`. -/
def LeadsTo (st : Proxy) (mac : Mac) : Prop :=
  ∃ cells : Cells, NodeList st.heap st.memList.head cells ∧
    ∃ x ∈ cells, x.2.remoteInfo.macaddr = mac

/-- The forwarding table and the membership list have the same addresses. -/
def TableAgrees (st : Proxy) : Prop :=
  ∀ mac : Mac, mac.ZeroFree → ((st.findSocketfd mac).isSome ↔ LeadsTo st mac)

/-- No address of the packet has a zero byte, but a remote one may be all zero. -/
def Op.Clean : Op → Prop
  | .packet _ _ m => m.source.macaddr.ZeroFree ∧
      ∀ l ∈ m.links, l.remoteInfo.macaddr = Mac.zero ∨ l.remoteInfo.macaddr.ZeroFree
  | .sweep .. => True

instance (op : Op) : Decidable op.Clean :=
  match op with
  | .packet _ _ m => inferInstanceAs (Decidable (m.source.macaddr.ZeroFree ∧
      ∀ l ∈ m.links, l.remoteInfo.macaddr = Mac.zero ∨ l.remoteInfo.macaddr.ZeroFree))
  | .sweep .. => isTrue trivial

/-- What the source does not check: a client that connects finds the list empty and names itself
in its link, and the links to one address expire in one sweep. -/
def KeepsAgreement (st : Proxy) : Op → Prop
  | .packet _ _ m => InitialConnect st m →
      st.memList.head = none ∧ m.first.localInfo.macaddr = m.source.macaddr
  | .sweep now linkTimeout => ∀ cells ∈ st.members,
      Topology.ExpireTogether now.toNat (linkTimeout * 1000) cells.links

instance (st : Proxy) (op : Op) : Decidable (KeepsAgreement st op) :=
  match op with
  | .packet _ _ m => inferInstanceAs (Decidable (InitialConnect st m →
      st.memList.head = none ∧ m.first.localInfo.macaddr = m.source.macaddr))
  | .sweep now linkTimeout => inferInstanceAs (Decidable (∀ cells ∈ st.members,
      Topology.ExpireTogether now.toNat (linkTimeout * 1000) cells.links))

theorem tableAgrees_iff {st : Proxy} {t : Topology} {cells : Cells} (hs : Shows st t cells) :
    TableAgrees st ↔ t.Agrees := by
  have hlinks : ∀ mac, LeadsTo st mac ↔ mac ∈ Topology.macs t.links := by
    intro mac
    rw [← hs.links]
    simp only [Topology.macs, Cells.links, List.map_map, List.mem_map, Function.comp_apply]
    constructor
    · intro h
      obtain ⟨cells', hlist, x, hx, hmac⟩ := h
      rw [hlist.unique hs.list] at hx
      exact ⟨x, hx, hmac⟩
    · intro h
      obtain ⟨x, hx, hmac⟩ := h
      exact ⟨cells, hs.list, x, hx, hmac⟩
  unfold TableAgrees Topology.Agrees
  simp only [hs.route, hlinks]

/-- The knowledge of a state that clean operations led to. -/
def Tidy (st : Proxy) : Prop := ∃ t cells, Shows st t cells ∧ t.Clean

theorem receive_agrees {env : Env} {now : U64} {fd : Int} {m : Received} {t t' : Topology}
    (hclean : (Op.packet fd now m).Clean) (hc : t.Clean) (ht : t.Agrees)
    (h : t.receive env now fd m.numNeighbors m.source m.first m.rest = some t') :
    (t'.Agrees ↔ (t.route m.source.macaddr = none ∧ m.first.remoteInfo.macaddr ≠ Mac.zero ∧
      m.numNeighbors = 1 → t.links = [] ∧ m.first.localInfo.macaddr = m.source.macaddr)) ∧
    (t'.Agrees → t'.Clean) := by
  obtain ⟨hsource, hregular⟩ := hclean
  unfold Topology.receive at h
  cases hroute : t.route m.source.macaddr with
  | some e =>
    simp only [hroute] at h
    have hmerge := Topology.merge_agrees hregular hc ht h
    simp [hmerge]
  | none =>
    simp only [hroute] at h
    split at h
    · rename_i hzero
      obtain ⟨hc', ht'⟩ := Topology.client_agrees env now hc ht hsource hroute fd
      have hmerge := Topology.merge_agrees hregular hc' ht' h
      simp [hmerge, hzero]
    · rename_i hzero
      split at h
      · rename_i hnn
        cases h
        have hiff := Topology.reply_agrees_iff env now hc ht hsource hroute fd
          m.first.localInfo.macaddr (t.size + 1)
        refine ⟨?_, fun ht' => ?_⟩
        · rw [hiff]
          exact ⟨fun h _ => h, fun h => h ⟨rfl, hzero, hnn⟩⟩
        · obtain ⟨_, hmac⟩ := hiff.mp ht'
          obtain ⟨hkeys, hentries⟩ := Topology.clean_cons fd hc hsource hroute
          refine ⟨hkeys, hentries, ?_⟩
          intro mac hmem
          rw [List.mem_singleton.mp hmem]
          exact hmac ▸ hsource
      · rename_i hnn
        cases h
        exact ⟨⟨fun _ hx => absurd hx.2.2 hnn, fun _ => ht⟩, fun _ => hc⟩

theorem performs_tableAgrees {env : Env} {st st' : Proxy} {op : Op} (hclean : op.Clean)
    (htidy : Tidy st) (ha : TableAgrees st) (h : Performs env st op st') :
    (TableAgrees st' ↔ KeepsAgreement st op) ∧ (KeepsAgreement st op → Tidy st') := by
  obtain ⟨t, cells, hs, hc⟩ := htidy
  have ht := (tableAgrees_iff hs).mp ha
  obtain ⟨t', cells', hperform, hs'⟩ := performs_refines hs h
  rw [tableAgrees_iff hs']
  cases op with
  | packet tcpFd now m =>
    obtain ⟨hiff, htidy⟩ := receive_agrees hclean hc ht hperform
    have hcond : KeepsAgreement st (.packet tcpFd now m) ↔ (t.route m.source.macaddr = none ∧
        m.first.remoteInfo.macaddr ≠ Mac.zero ∧ m.numNeighbors = 1 →
        t.links = [] ∧ m.first.localInfo.macaddr = m.source.macaddr) := by
      unfold KeepsAgreement InitialConnect
      rw [hs.route, head_eq_none_iff hs]
    rw [hcond]
    exact ⟨hiff, fun h => ⟨t', cells', hs', htidy (hiff.mpr h)⟩⟩
  | sweep now linkTimeout =>
    cases hperform
    have hcond : KeepsAgreement st (.sweep now linkTimeout) ↔
        Topology.ExpireTogether now.toNat (linkTimeout * 1000) t.links := by
      unfold KeepsAgreement
      rw [members_eq_some.mpr hs.list, ← hs.links]
      simp
    rw [hcond]
    exact ⟨Topology.expire_agrees_iff hc ht, fun _ => ⟨_, cells', hs', Topology.expire_clean _ _ hc⟩⟩

/-- The table agrees with the list in every state of a run exactly if every step meets the
condition. -/
theorem run_tableAgrees_iff {env : Env} {tr : List (Step Proxy Op)} {st : Proxy}
    (hr : ProxyRun env tr st) (hclean : ∀ x ∈ tr, x.input.Clean) :
    (TableAgrees st ∧ ∀ x ∈ tr, TableAgrees x.pre) ↔ ∀ x ∈ tr, KeepsAgreement x.pre x.input := by
  have hstart : TableAgrees Proxy.start := by
    rw [tableAgrees_iff shows_start]
    intro mac _
    simp [Topology.route, Topology.start, Topology.macs, lookup]
  have htidy : Tidy Proxy.start := ⟨_, _, shows_start, ⟨List.nodup_nil, by simp [Topology.start],
    by simp [Topology.start, Topology.macs]⟩⟩
  refine Run.holds_iff (J := Tidy) htidy hstart ?_ ?_ (hr.restrict hclean)
  · intro s i s' hj ha hk hs
    exact (performs_tableAgrees hs.1 hj ha hs.2).2 hk
  · intro s i s' hj ha hs
    exact (performs_tableAgrees hs.1 hj ha hs.2).1

/-- A neighbour advertises a second link to itself; when the older one expires, the sweep takes
the new link and the only entry, and the expired link stays. -/
theorem sweep_drops_entry : ∃ env tr st, ProxyRun env tr st ∧ (∀ x ∈ tr, x.input.Clean) ∧
    ¬ TableAgrees st := by
  obtain ⟨tr, st, hr, hclean, hfree, hroute, cells, hcells, x, hx, hmac⟩ :=
    exists_proxyRun (hostEnv 1) 4
      [.packet 4 0 (onePacket cohost (linkTo cohost (host 1))),
        .packet 4 10000 (onePacket cohost (linkTo (host 3) cohost)), .sweep 16000 15]
      (p := fun r => (∀ x ∈ r.1, x.input.Clean) ∧ cohost.macaddr.ZeroFree ∧
        r.2.findSocketfd cohost.macaddr = none ∧
        ∃ cells ∈ r.2.members, ∃ x ∈ cells, x.2.remoteInfo.macaddr = cohost.macaddr)
      (by decide +kernel)
  refine ⟨hostEnv 1, tr, st, hr, hclean, fun ha => ?_⟩
  have hentry := (ha cohost.macaddr hfree).mpr ⟨cells, members_eq_some.mp hcells, x, hx, hmac⟩
  rw [hroute] at hentry
  cases hentry

/-- A client connects, refreshes its link and times out. -/
theorem one_client_tableAgrees : ∃ tr st, ProxyRun (hostEnv 1) tr st ∧ tr.length = 3 ∧
    TableAgrees st ∧ ∀ x ∈ tr, TableAgrees x.pre := by
  obtain ⟨tr, st, hr, hlen, hclean, hk⟩ := exists_proxyRun (hostEnv 1) 4
    [.packet 4 0 (onePacket (host 2) (linkTo (host 2) (host 1))),
      .packet 4 10 (onePacket (host 2) (linkTo (host 2) (host 1))), .sweep 16000 15]
    (p := fun r => r.1.length = 3 ∧ (∀ x ∈ r.1, x.input.Clean) ∧
      ∀ x ∈ r.1, KeepsAgreement x.pre x.input) (by decide +kernel)
  exact ⟨tr, st, hr, hlen, (run_tableAgrees_iff hr hclean).mpr hk⟩

end Cs352Proxy
