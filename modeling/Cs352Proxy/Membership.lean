import Cs352Proxy.System
import Cs352Proxy.Knowledge

/-!
# Membership

Is the membership list a null-terminated list of `mem_list->size` distinct nodes? Every operation
keeps it so but one: the reply to a client that connects aliases the live list and cuts it behind
its first node, and `size` still counts the nodes that were cut off.
-/

namespace Cs352Proxy

open Base

/-- Following `next` from `mem_list->head` reaches `NULL` after `mem_list->size` distinct nodes. -/
def WellFormed (st : Proxy) : Prop :=
  ∃ cells : Cells, NodeList st.heap st.memList.head cells ∧ (cells.map Prod.fst).Nodup ∧
    st.memList.size = cells.length

instance (st : Proxy) : Decidable (WellFormed st) :=
  decidable_of_iff (∃ cells ∈ st.members, (cells.map Prod.fst).Nodup ∧ st.memList.size = cells.length)
    (exists_congr fun _ => and_congr_left fun _ => members_eq_some)

/-- The packet takes the branch for a client that connects. -/
def InitialConnect (st : Proxy) (m : Received) : Prop :=
  st.findSocketfd m.source.macaddr = none ∧ m.first.remoteInfo.macaddr ≠ Mac.zero ∧
    m.numNeighbors = 1

instance (st : Proxy) (m : Received) : Decidable (InitialConnect st m) :=
  inferInstanceAs (Decidable (_ ∧ _ ∧ _))

/-- A client connects only while the list is empty. -/
def ConnectsFirst (st : Proxy) : Op → Prop
  | .packet _ _ m => InitialConnect st m → st.memList.head = none
  | .sweep .. => True

instance (st : Proxy) (op : Op) : Decidable (ConnectsFirst st op) := by
  cases op
  · exact inferInstanceAs (Decidable (_ → _))
  · exact inferInstanceAs (Decidable True)

theorem wellFormed_iff_counted {st : Proxy} {t : Topology} {cells : Cells} (hs : Shows st t cells) :
    WellFormed st ↔ t.Counted := by
  have hlen : cells.length = t.links.length := by rw [← hs.links, Cells.length_links]
  unfold WellFormed Topology.Counted
  rw [← hs.size, ← hlen]
  constructor
  · intro h
    obtain ⟨cells', hlist, _, hsize⟩ := h
    rw [hlist.unique hs.list] at hsize
    exact hsize
  · intro h
    exact ⟨cells, hs.list, hs.list.nodup, h⟩

theorem head_eq_none_iff {st : Proxy} {t : Topology} {cells : Cells} (hs : Shows st t cells) :
    st.memList.head = none ↔ t.links = [] := by
  have hlist := hs.list
  rw [← hs.links]
  cases cells with
  | nil => exact ⟨fun _ => rfl, fun _ => hlist⟩
  | cons x xs => simp [hlist.1]

theorem receive_counted {env : Env} {now : U64} {fd : Int} {m : Received} {t t' : Topology}
    (ht : t.Counted)
    (h : t.receive env now fd m.numNeighbors m.source m.first m.rest = some t') :
    t'.Counted ↔ (t.route m.source.macaddr = none ∧ m.first.remoteInfo.macaddr ≠ Mac.zero ∧
      m.numNeighbors = 1 → t.links = []) := by
  unfold Topology.receive at h
  cases hroute : t.route m.source.macaddr with
  | some e =>
    simp only [hroute] at h
    simp [Topology.merge_counted ht h]
  | none =>
    simp only [hroute] at h
    split at h
    · rename_i hzero
      have hclient : Topology.Counted
          { links := Topology.client env m.source now :: t.links, size := t.size + 1
            routes := { macaddr := m.source.macaddr, sockFd := fd } :: t.routes } := by
        unfold Topology.Counted at ht ⊢
        simp [ht]
      simp [Topology.merge_counted hclient h, hzero]
    · rename_i hzero
      split at h
      · rename_i hnn
        cases h
        unfold Topology.Counted at ht ⊢
        simp only [ht, List.length_singleton, true_and, hzero, hnn, ne_eq, not_false_eq_true,
          forall_const]
        rw [← List.length_eq_zero_iff]
        omega
      · rename_i hnn
        cases h
        exact ⟨fun _ hc => absurd hc.2.2 hnn, fun _ => ht⟩

theorem performs_wellFormed {env : Env} {st st' : Proxy} {op : Op} (hw : WellFormed st)
    (h : Performs env st op st') : WellFormed st' ↔ ConnectsFirst st op := by
  have hlist := hw
  obtain ⟨cells, hlist, _⟩ := hlist
  have hs := shows_topology hlist
  have ht := (wellFormed_iff_counted hs).mp hw
  obtain ⟨t', cells', hperform, hs'⟩ := performs_refines hs h
  rw [wellFormed_iff_counted hs']
  cases op with
  | packet tcpFd now m =>
    unfold ConnectsFirst InitialConnect
    rw [receive_counted ht hperform, hs.route, head_eq_none_iff hs]
  | sweep now linkTimeout =>
    cases hperform
    simp [ConnectsFirst, Topology.expire_counted _ _ ht]

theorem wellFormed_start : WellFormed Proxy.start := ⟨[], rfl, List.nodup_nil, rfl⟩

/-- Every state of a run has a well-formed list exactly if clients connect to an empty one. -/
theorem run_wellFormed_iff {env : Env} {tr : List (Step Proxy Op)} {st : Proxy}
    (hr : ProxyRun env tr st) :
    (WellFormed st ∧ ∀ x ∈ tr, WellFormed x.pre) ↔ ∀ x ∈ tr, ConnectsFirst x.pre x.input :=
  Run.holds_iff (J := fun _ => True) trivial wellFormed_start (fun _ _ _ _ _ _ _ => trivial)
    (fun _ _ _ _ hw h => performs_wellFormed hw h) hr

/-- Two clients connect one after the other: the list ends behind the second one, the size is 2. -/
theorem two_clients_truncate : ∃ env tr st, ProxyRun env tr st ∧ ¬ WellFormed st :=
  ⟨hostEnv 1, exists_proxyRun (hostEnv 1) 3
    [.packet 4 0 (onePacket (host 2) (linkTo (host 2) (host 1))),
      .packet 5 0 (onePacket (host 3) (linkTo (host 3) (host 1)))]
    (p := fun r => ¬ WellFormed r.2) (by decide +kernel)⟩

/-- One client connects, sends its list and times out. -/
theorem one_client_wellFormed : ∃ tr st, ProxyRun (hostEnv 1) tr st ∧ tr.length = 3 ∧
    WellFormed st ∧ ∀ x ∈ tr, WellFormed x.pre := by
  obtain ⟨tr, st, hr, hlen, hc⟩ := exists_proxyRun (hostEnv 1) 4
    [.packet 4 0 (onePacket (host 2) (linkTo (host 2) (host 1))),
      .packet 4 10 (onePacket (host 2) (linkTo (host 2) (host 1))), .sweep 16000 15]
    (p := fun r => r.1.length = 3 ∧ ∀ x ∈ r.1, ConnectsFirst x.pre x.input) (by decide +kernel)
  exact ⟨tr, st, hr, hlen, (run_wellFormed_iff hr).mpr hc⟩

end Cs352Proxy
