import Cs352Proxy.Capacity
import Cs352Proxy.Merge

/-!
# Readvertise

Does hearing of a link a second time change anything? The search for a duplicate compares the
endpoints crosswise: it finds the opposite link, not the same one. So a link that was stored is stored
again, unless the opposite link is there too.

* `stores_of_known`, `stores_of_unknown`: when a link is stored, by the forwarding key of its remote.
* `learn_pairs`, `mem_keys_learn`, `learn_any_reverses`: what one link adds.
* `HearsOf`: `add_member_connect` on a fresh record, on the pointers.
-/

namespace Cs352Proxy

open Base

namespace Topology

variable {env : Env} {now : U64} {gw : Int} {t : Topology} {r : Link}

/-- The two proxies of a link. -/
def ends (l : Link) : ProxyInfo × ProxyInfo := (l.localInfo, l.remoteInfo)

def pairs (t : Topology) : List (ProxyInfo × ProxyInfo) := t.links.map ends

/-- The forwarding keys. -/
def keys (t : Topology) : List (List U8) := t.routes.map ProxySocketfd.key

theorem route_eq_none : t.route r.remoteInfo.macaddr = none ↔ r.remoteInfo.macaddr.key ∉ t.keys :=
  lookup_none

/-! ### When a link is stored -/

/-- The MAC address is set and not that of this proxy. -/
def Foreign (env : Env) (mac : Mac) : Prop := mac ≠ Mac.zero ∧ mac ≠ env.myProxyInfo.macaddr

instance (env : Env) (mac : Mac) : Decidable (Foreign env mac) := inferInstanceAs (Decidable (_ ∧ _))

theorem stores_of_known (h : r.remoteInfo.macaddr.key ∈ t.keys) :
    t.stores env r = true ↔ t.links.any (reverses r) = false := by
  cases hroute : t.route r.remoteInfo.macaddr with
  | none => exact absurd h (route_eq_none.mp hroute)
  | some e => simp only [stores, hroute, Bool.not_eq_true']

theorem stores_of_unknown (h : r.remoteInfo.macaddr.key ∉ t.keys) :
    t.stores env r = true ↔ Foreign env r.remoteInfo.macaddr := by
  simp only [stores, route_eq_none.mpr h, Foreign, decide_eq_true_eq]

/-! ### What a link adds -/

theorem keep_pairs (now : U64) (r : Link) (t : Topology) : (t.keep now r).pairs = t.pairs := by
  have hends : ∀ ls : List Link, ls.map ends = (ls.map face).map fun f => (f.1, f.2.1) := by
    intro ls
    rw [List.map_map]
    rfl
  rw [pairs, pairs, hends, hends, keep_faces]

theorem learn_pairs (env : Env) (now : U64) (gw : Int) (r : Link) (t : Topology) :
    (t.learn env now gw r).pairs = if t.stores env r then ends r :: t.pairs else t.pairs := by
  unfold learn
  split
  · obtain ⟨w, hlinks⟩ := store_links now gw r t
    rw [pairs, hlinks]
    rfl
  · exact keep_pairs now r t

theorem learn_size (env : Env) (now : U64) (gw : Int) (r : Link) (t : Topology) :
    (t.learn env now gw r).size = if t.stores env r then t.size + 1 else t.size := by
  unfold learn
  split
  · exact store_size r t
  · exact keep_size r t

theorem store_keys (now : U64) (gw : Int) (r : Link) (t : Topology) :
    (t.store now gw r).keys =
      if r.remoteInfo.macaddr.key ∈ t.keys then t.keys else r.remoteInfo.macaddr.key :: t.keys := by
  unfold store
  cases hroute : t.route r.remoteInfo.macaddr with
  | none =>
    rw [if_neg (route_eq_none.mp hroute)]
    rfl
  | some e =>
    have hkey : r.remoteInfo.macaddr.key ∈ t.keys := by
      by_contra h
      rw [route_eq_none.mpr h] at hroute
      cases hroute
    rw [if_pos hkey]
    simp only [keys]
    split
    · exact keys_assign_sockFd gw t.routes _
    · rfl

theorem mem_keys_learn (env : Env) (now : U64) (gw : Int) (r : Link) (t : Topology) (k : List U8) :
    k ∈ (t.learn env now gw r).keys ↔
      k ∈ t.keys ∨ (Foreign env r.remoteInfo.macaddr ∧ k = r.remoteInfo.macaddr.key) := by
  have hkeep : (t.keep now r).keys = t.keys := by rw [keys, keep_routes, keys]
  unfold learn
  by_cases hknown : r.remoteInfo.macaddr.key ∈ t.keys
  · have hsame : (if t.stores env r = true then t.store now gw r else t.keep now r).keys = t.keys := by
      split
      · rw [store_keys, if_pos hknown]
      · exact hkeep
    rw [hsame]
    exact ⟨.inl, fun h => h.elim id fun heq => heq.2 ▸ hknown⟩
  · by_cases hforeign : Foreign env r.remoteInfo.macaddr
    · rw [if_pos ((stores_of_unknown hknown).mpr hforeign), store_keys, if_neg hknown, List.mem_cons]
      simp [hforeign, or_comm]
    · rw [if_neg (mt (stores_of_unknown hknown).mp hforeign), hkeep]
      simp [hforeign]

theorem learn_any_reverses (env : Env) (now : U64) (gw : Int) (l r : Link) (t : Topology) :
    (t.learn env now gw l).links.any (reverses r) =
      (t.links.any (reverses r) || (t.stores env l && reverses r l)) := by
  unfold learn
  split
  · rename_i hst
    obtain ⟨w, hlinks⟩ := store_links now gw l t
    rw [hlinks, List.any_cons, hst, Bool.true_and, Bool.or_comm]
    rfl
  · rename_i hst
    rw [keep_any_reverses, eq_false_of_ne_true hst, Bool.false_and, Bool.or_false]

/-! ### The second time -/

theorem stores_of_ends {r r' : Link} (h : ends r' = ends r) (env : Env) (t : Topology) :
    t.stores env r' = t.stores env r := by
  obtain ⟨hlocal, hremote⟩ := Prod.mk.inj h
  have hrev : reverses r' = reverses r := by
    funext l
    simp only [reverses, hlocal, hremote]
  simp only [stores, hremote, hrev]

/-- The second record of a link is not stored if the opposite link is there, the link is its own
opposite, or already the first record was turned down for its MAC address. -/
theorem learn_stores_again_iff (env : Env) (now : U64) (gw : Int) (r : Link) (t : Topology) :
    (t.learn env now gw r).stores env r = false ↔ t.links.any (reverses r) = true ∨
      r.localInfo.ip = r.remoteInfo.ip ∨
      (t.route r.remoteInfo.macaddr = none ∧ ¬ Foreign env r.remoteInfo.macaddr) := by
  have hself : reverses r r = true ↔ r.localInfo.ip = r.remoteInfo.ip := by
    simp only [reverses, decide_eq_true_eq]
    exact ⟨fun h => h.1, fun h => ⟨h, h.symm⟩⟩
  have hkey := mem_keys_learn env now gw r t r.remoteInfo.macaddr.key
  have hany := learn_any_reverses env now gw r r t
  rw [← Bool.not_eq_true, route_eq_none, ← hself]
  by_cases hknown : r.remoteInfo.macaddr.key ∈ t.keys
  · have hknown' := hkey.mpr (.inl hknown)
    rw [stores_of_known hknown', hany]
    cases hrev : t.links.any (reverses r) with
    | true => simp
    | false =>
      have hst : t.stores env r = true := (stores_of_known hknown).mpr hrev
      simp [hst, hknown]
  · by_cases hforeign : Foreign env r.remoteInfo.macaddr
    · have hst := (stores_of_unknown hknown).mpr hforeign
      have hknown' := hkey.mpr (.inr ⟨hforeign, rfl⟩)
      rw [stores_of_known hknown', hany, hst]
      cases t.links.any (reverses r) <;> simp [hforeign]
    · have hunknown : r.remoteInfo.macaddr.key ∉ (t.learn env now gw r).keys := by
        rw [hkey]
        simp [hknown, hforeign]
      rw [stores_of_unknown hunknown]
      simp [hforeign, hknown]

end Topology

/-! ## On the pointers -/

/-- The (local, remote) pairs on the membership list. -/
def Proxy.pairs (st : Proxy) : Option (List (ProxyInfo × ProxyInfo)) :=
  st.members.map fun cells => cells.links.map Topology.ends

theorem Shows.pairs_eq {st : Proxy} {t : Topology} {cells : Cells} (hs : Shows st t cells) :
    st.pairs = some t.pairs := by
  rw [Proxy.pairs, members_eq_some.mpr hs.list, Option.map_some, hs.links]
  rfl

/-- `st'` is the state after `add_member_connect` on a fresh record of `r`. -/
def HearsOf (env : Env) (now : U64) (gw : Int) (r : LinkstateNode) (st st' : Proxy) : Prop :=
  ∃ fuel, addMemberConnect env fuel now gw st.heap.length (st.malloc r) = some st'

section HearsOf

variable {env : Env} {now : U64} {gw : Int} {r : LinkstateNode} {st st' : Proxy} {t : Topology}
  {cells : Cells}

theorem HearsOf.learn (hs : Shows st t cells) (h : HearsOf env now gw r st st') :
    ∃ cells', Shows st' (t.learn env now gw r.toLink) cells' := by
  obtain ⟨fuel, h⟩ := h
  have hget : (st.malloc r).heap[st.heap.length]? = some r := by simp
  have hoff : st.heap.length ∉ cells.map Prod.fst := by
    intro hmem
    obtain ⟨x, hx, haddr⟩ := List.mem_map.mp hmem
    exact Nat.ne_of_lt (hs.list.lt_length x hx) haddr
  exact addMemberConnect_learn (hs.malloc r) hget hoff h

theorem exists_hearsOf (env : Env) (now : U64) (gw : Int) (r : LinkstateNode)
    (hs : Shows st t cells) :
    ∃ st', HearsOf env now gw r st st' ∧ ∃ cells', Shows st' (t.learn env now gw r.toLink) cells' := by
  have hget : (st.malloc r).heap[st.heap.length]? = some r := by simp
  obtain ⟨st', h⟩ := addMemberConnect_isSome (hs.malloc r).list hget (Nat.lt_succ_self cells.length)
  have hhears : HearsOf env now gw r st st' := ⟨_, h⟩
  exact ⟨st', hhears, hhears.learn hs⟩

end HearsOf

/-- A record of `r` is handled, then a record `r'` of the same link; the second one changes neither
the size nor the pairs on the list. -/
def AddsNothing (env : Env) (now now' : U64) (gw : Int) (r r' : LinkstateNode) (st : Proxy) : Prop :=
  ∃ st₁ st₂, HearsOf env now gw r st st₁ ∧ HearsOf env now' gw r' st₁ st₂ ∧
    st₂.memList.size = st₁.memList.size ∧ ∃ ps₁ ∈ st₁.pairs, ∃ ps₂ ∈ st₂.pairs, ps₂.Perm ps₁

theorem addsNothing_iff_stores {env : Env} {now now' : U64} {gw : Int} {r r' : LinkstateNode}
    {st : Proxy} {t : Topology} {cells : Cells} (hs : Shows st t cells) :
    AddsNothing env now now' gw r r' st ↔
      (t.learn env now gw r.toLink).stores env r'.toLink = false := by
  constructor
  · intro h
    obtain ⟨st₁, st₂, hfirst, hsecond, hsize, _⟩ := h
    obtain ⟨cells₁, hs₁⟩ := hfirst.learn hs
    obtain ⟨cells₂, hs₂⟩ := hsecond.learn hs₁
    rw [hs₂.size, hs₁.size, Topology.learn_size env now' gw] at hsize
    by_contra hst
    rw [if_pos (eq_true_of_ne_false hst)] at hsize
    omega
  · intro hst
    obtain ⟨st₁, hfirst, cells₁, hs₁⟩ := exists_hearsOf env now gw r hs
    obtain ⟨st₂, hsecond, cells₂, hs₂⟩ := exists_hearsOf env now' gw r' hs₁
    have hpairs := hs₂.pairs_eq
    rw [Topology.learn_pairs, hst, if_neg Bool.false_ne_true] at hpairs
    refine ⟨st₁, st₂, hfirst, hsecond, ?_, _, hs₁.pairs_eq, _, hpairs, List.Perm.refl _⟩
    rw [hs₂.size, Topology.learn_size, hst, if_neg Bool.false_ne_true, hs₁.size]

theorem addsNothing_iff {env : Env} {now now' : U64} {gw : Int} {r r' : LinkstateNode} {st : Proxy}
    {cells : Cells} (hlist : NodeList st.heap st.memList.head cells)
    (hsame : Topology.ends r'.toLink = Topology.ends r.toLink) :
    AddsNothing env now now' gw r r' st ↔
      cells.links.any (Topology.reverses r.toLink) = true ∨ r.localInfo.ip = r.remoteInfo.ip ∨
        (st.findSocketfd r.remoteInfo.macaddr = none ∧
          ¬ Topology.Foreign env r.remoteInfo.macaddr) := by
  have hs := shows_topology hlist
  rw [addsNothing_iff_stores hs, Topology.stores_of_ends hsame, Topology.learn_stores_again_iff,
    hs.route]
  rfl

/-- In every state of a run, a link that is heard of again adds nothing exactly if the opposite link
is stored, its two proxies have one IP address, or its unknown MAC address is zero or the own one. -/
theorem run_addsNothing_iff {env : Env} {tr : List (Step Proxy KeyOp)} {st : Proxy}
    (hr : KeyRun env tr st) : ∃ cells : Cells, NodeList st.heap st.memList.head cells ∧
      ∀ (now now' : U64) (gw : Int) (r r' : LinkstateNode),
        Topology.ends r'.toLink = Topology.ends r.toLink →
        (AddsNothing env now now' gw r r' st ↔
          cells.links.any (Topology.reverses r.toLink) = true ∨ r.localInfo.ip = r.remoteInfo.ip ∨
            (st.findSocketfd r.remoteInfo.macaddr = none ∧
              ¬ Topology.Foreign env r.remoteInfo.macaddr)) := by
  obtain ⟨cells, hlist, _⟩ := hr.covered
  exact ⟨cells, hlist, fun _ _ _ _ _ hsame => addsNothing_iff hlist hsame⟩

/-- `host 2` is connected and tells of its link to `host 3` every period: each time it is stored. -/
theorem repeated_link_is_stored_again : ∃ env tr st now now' gw r, KeyRun env tr st ∧
    ¬ AddsNothing env now now' gw r r st := by
  let r : LinkstateNode := { linkTo (host 2) (host 3) with next := none }
  obtain ⟨tr, st, hr, cells, hcells, hnone⟩ := exists_keyRun (hostEnv 1) 3
    [.packet (hostEnv 1).uninit 4 0 (fromHost 2)]
    (p := fun st => ∃ cells ∈ st.2.members,
      cells.links.any (Topology.reverses r.toLink) = false) (by decide +kernel)
  refine ⟨hostEnv 1, tr, st, 10, 20, 4, r, hr, fun h => ?_⟩
  rcases (addsNothing_iff (members_eq_some.mp hcells) rfl).mp h with h | h | ⟨_, h⟩
  · rw [hnone] at h
    cases h
  · revert h
    decide
  · revert h
    decide

/-- The link of `host 2` back to this proxy. -/
theorem opposite_link_adds_nothing : ∃ tr st, KeyRun (hostEnv 1) tr st ∧ st.memList.size = 1 ∧
    AddsNothing (hostEnv 1) 10 20 4 { linkTo (host 2) (host 1) with next := none }
      { linkTo (host 2) (host 1) with ID := 15, next := none } st := by
  obtain ⟨tr, st, hr, hsize, hroute⟩ := exists_keyRun (hostEnv 1) 3
    [.packet (hostEnv 1).uninit 4 0 (fromHost 2)]
    (p := fun st => st.2.memList.size = 1 ∧ st.2.findSocketfd (host 1).macaddr = none)
    (by decide +kernel)
  obtain ⟨cells, _, hall⟩ := run_addsNothing_iff hr
  have hown : ¬ Topology.Foreign (hostEnv 1) (host 1).macaddr := by decide
  let r : LinkstateNode := { linkTo (host 2) (host 1) with next := none }
  exact ⟨tr, st, hr, hsize, (hall 10 20 4 r { r with ID := 15 } rfl).mpr (.inr (.inr ⟨hroute, hown⟩))⟩

end Cs352Proxy
