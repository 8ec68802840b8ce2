import Cs352Proxy.Addresses
import Cs352Proxy.Learn
import Cs352Proxy.Base.EarliestMin
import Cs352Proxy.Base.Runs

/-!
# Routes

While a proxy only learns links, the forwarding entry of an address is the gateway of its cheapest
stored link, the earliest one among equals. The gateways of the stored links are kept beside the
topology, newest first like the list.
-/

namespace Cs352Proxy

open Base

/-! ## The log of stored links -/

structure LogEntry where
  mac : Mac
  weight : U32
  gateway : Int

def logOf (ls : List Link) (gateways : List Int) : List LogEntry :=
  List.zipWith (fun l gw => { mac := l.remoteInfo.macaddr, weight := l.linkweight, gateway := gw })
    ls gateways

/-- The entry is the earliest cheapest one to `mac`. -/
def Cheapest (mac : Mac) : List LogEntry → LogEntry → Prop :=
  EarliestMin (fun x => x.mac = mac) (fun x => x.weight.toNat)

theorem logOf_faces {ls ls' : List Link} (h : ls.map Topology.face = ls'.map Topology.face)
    (gs : List Int) : logOf ls gs = logOf ls' gs := by
  have hzip : ∀ ls : List Link, logOf ls gs = List.zipWith
      (fun f gw => { mac := f.2.1.macaddr, weight := f.2.2, gateway := gw }) (ls.map Topology.face) gs := by
    intro ls
    rw [List.zipWith_map_left]
    rfl
  rw [hzip, hzip, h]

theorem forall_logOf_iff {ls : List Link} {gs : List Int} (hlen : gs.length = ls.length)
    {P : Mac → U32 → Prop} :
    (∀ x ∈ logOf ls gs, P x.mac x.weight) ↔ ∀ l ∈ ls, P l.remoteInfo.macaddr l.linkweight := by
  induction ls generalizing gs with
  | nil => simp [logOf]
  | cons l ls ih =>
    cases gs with
    | nil => cases hlen
    | cons g gs =>
      have hrest := @ih gs (by simpa using hlen)
      unfold logOf at hrest ⊢
      rw [List.zipWith_cons_cons, List.forall_mem_cons, List.forall_mem_cons, hrest]

theorem le_leastWeight {mac : Mac} {ls : List Link} {k : Nat} (hk : k < 2 ^ 32)
    (h : ∀ l ∈ ls, l.remoteInfo.macaddr = mac → k ≤ l.linkweight.toNat) :
    k ≤ Topology.leastWeight mac ls := by
  induction ls with
  | nil =>
    unfold Topology.leastWeight
    omega
  | cons a as ih =>
    have hrest := ih fun l hl => h l (List.mem_cons_of_mem _ hl)
    have hhead := h a List.mem_cons_self
    unfold Topology.leastWeight
    split
    · rename_i hmac
      have := hhead hmac
      omega
    · exact hrest

/-! ## Learning a link -/

namespace Topology

/-- The entries lead to the gateways of the cheapest links. -/
structure Optimal (t : Topology) (gateways : List Int) : Prop where
  clean : t.Clean
  agrees : t.Agrees
  length : gateways.length = t.links.length
  best : ∀ mac e, t.route mac = some e →
    ∃ x, Cheapest mac (logOf t.links gateways) x ∧ x.gateway = e.sockFd

variable {env : Env} {now : U64} {gw : Int} {t : Topology} {gs : List Int} {r : Link}

theorem keep_optimal (ht : t.Optimal gs) (r : Link) : (t.keep now r).Optimal gs := by
  refine ⟨keep_clean ht.clean r, keep_agrees ht.agrees r, by rw [length_keep]; exact ht.length, ?_⟩
  intro mac e he
  rw [route, keep_routes] at he
  rw [logOf_faces (keep_faces now r t) gs]
  exact ht.best mac e he

theorem store_route_ne (hr : r.remoteInfo.macaddr.ZeroFree) {mac : Mac}
    (hne : r.remoteInfo.macaddr ≠ mac) : (t.store now gw r).route mac = t.route mac := by
  have hkey : r.remoteInfo.macaddr.key ≠ mac.key := fun h => hne (hr.unambiguous.key_inj.mp h)
  unfold store
  cases hroute : t.route r.remoteInfo.macaddr with
  | none => exact lookup_cons.trans (if_neg hkey)
  | some e =>
    simp only [route]
    split
    · rw [lookup_assign_sockFd, if_neg hkey]
    · rfl

/-- The first link to an address is the cheapest one. -/
theorem store_route_new (hagrees : t.Agrees) (hlen : gs.length = t.links.length)
    (hr : r.remoteInfo.macaddr.ZeroFree) (hroute : t.route r.remoteInfo.macaddr = none)
    {e : ProxySocketfd} (he : (t.store now gw r).route r.remoteInfo.macaddr = some e) :
    ∃ x, Cheapest r.remoteInfo.macaddr (logOf (t.store now gw r).links (gw :: gs)) x ∧
      x.gateway = e.sockFd := by
  have hnone : ∀ l ∈ t.links, l.remoteInfo.macaddr ≠ r.remoteInfo.macaddr := by
    intro l hl hmac
    have hentry := (hagrees _ hr).mpr (hmac ▸ List.mem_map_of_mem hl)
    rw [hroute] at hentry
    cases hentry
  have hlog := (forall_logOf_iff hlen (P := fun mac _ => mac ≠ r.remoteInfo.macaddr)).mpr hnone
  unfold store at he ⊢
  rw [hroute] at he ⊢
  have hsock : e = { macaddr := r.remoteInfo.macaddr, sockFd := gw } :=
    (Option.some.inj ((lookup_cons.trans (if_pos rfl)).symm.trans he)).symm
  subst hsock
  exact ⟨_, EarliestMin.cheaper rfl fun y hy hmac => absurd hmac (hlog y hy), rfl⟩

/-- A further link takes the entry exactly when it is strictly cheaper than the others. -/
theorem store_route_known (ht : t.Optimal gs) {e₀ e : ProxySocketfd}
    (hroute : t.route r.remoteInfo.macaddr = some e₀)
    (he : (t.store now gw r).route r.remoteInfo.macaddr = some e) :
    ∃ x, Cheapest r.remoteInfo.macaddr (logOf (t.store now gw r).links (gw :: gs)) x ∧
      x.gateway = e.sockFd := by
  unfold store at he ⊢
  rw [hroute] at he ⊢
  simp only [route] at he ⊢
  split at he
  · rename_i hlt
    have hlog := (forall_logOf_iff ht.length (P := fun mac w => mac = r.remoteInfo.macaddr →
      leastWeight r.remoteInfo.macaddr t.links ≤ w.toNat)).mpr fun l hl hmac => leastWeight_le hl hmac
    rw [lookup_assign_sockFd, if_pos rfl] at he
    obtain ⟨e₁, _, rfl⟩ := Option.map_eq_some_iff.mp he
    exact ⟨_, EarliestMin.cheaper rfl fun y hy hmac => Nat.lt_of_lt_of_le hlt (hlog y hy hmac), rfl⟩
  · rename_i hge
    obtain ⟨x, hx, hgw⟩ := ht.best _ e he
    refine ⟨x, EarliestMin.keep hx fun _ => ?_, hgw⟩
    have hall := (forall_logOf_iff ht.length (P := fun mac w => mac = r.remoteInfo.macaddr →
      x.weight.toNat ≤ w.toNat)).mp hx.le
    have hle := le_leastWeight x.weight.isLt hall
    exact Nat.le_trans hle (Nat.le_of_not_lt hge)

theorem store_optimal (ht : t.Optimal gs) (hst : t.stores env r = true)
    (hr : r.remoteInfo.macaddr.ZeroFree) : (t.store now gw r).Optimal (gw :: gs) := by
  have hclean : (t.store now gw r).Clean := store_clean ht.clean hst (.inr hr)
  have hagrees : (t.store now gw r).Agrees := store_agrees ht.agrees hst (.inr hr)
  obtain ⟨w, hlinks⟩ := store_links now gw r t
  refine ⟨hclean, hagrees, by rw [hlinks, List.length_cons, List.length_cons, ht.length], ?_⟩
  intro mac e he
  by_cases hmac : r.remoteInfo.macaddr = mac
  · subst hmac
    cases hroute : t.route r.remoteInfo.macaddr with
    | none => exact store_route_new ht.agrees ht.length hr hroute he
    | some e₀ => exact store_route_known ht hroute he
  · rw [store_route_ne hr hmac] at he
    obtain ⟨x, hx, hgw⟩ := ht.best mac e he
    rw [hlinks]
    exact ⟨x, EarliestMin.keep hx fun h => absurd h hmac, hgw⟩

theorem learn_optimal (ht : t.Optimal gs) (hr : r.remoteInfo.macaddr.ZeroFree) :
    (t.learn env now gw r).Optimal (if t.stores env r then gw :: gs else gs) := by
  unfold learn
  split
  · rename_i hst
    exact store_optimal ht hst hr
  · exact keep_optimal ht r

end Topology

/-! ## Runs -/

structure Call where
  now : U64
  gateway : Int
  record : LinkstateNode
deriving DecidableEq

/-- `add_member_connect` on a record that was just allocated. -/
def connect (env : Env) (fuel : Nat) (st : Proxy) (c : Call) : Option Proxy :=
  addMemberConnect env fuel c.now c.gateway st.heap.length (st.malloc c.record)

abbrev ConnectRun (env : Env) := Run Proxy.start fun st c st' => ∃ fuel, connect env fuel st c = some st'

/-- The gateways of the calls that stored their link, newest first. -/
def gateways : List (Step Proxy Call) → List Int
  | [] => []
  | x :: older =>
    if x.post.memList.size = x.pre.memList.size then gateways older
    else x.input.gateway :: gateways older

theorem connect_learn {env : Env} {fuel : Nat} {c : Call} {st st' : Proxy} {t : Topology}
    {cells : Cells} (hs : Shows st t cells) (h : connect env fuel st c = some st') :
    ∃ cells', Shows st' (t.learn env c.now c.gateway c.record.toLink) cells' := by
  refine addMemberConnect_learn (hs.malloc c.record) (by simp) ?_ h
  intro hmem
  obtain ⟨x, hx, hxa⟩ := List.mem_map.mp hmem
  have hlt := hs.list.lt_length x hx
  rw [hxa] at hlt
  exact absurd hlt (Nat.lt_irrefl _)

theorem connect_isSome (env : Env) {st : Proxy} {t : Topology} {cells : Cells}
    (hs : Shows st t cells) (c : Call) {fuel : Nat} (hfuel : cells.length < fuel) :
    ∃ st', connect env fuel st c = some st' := by
  have hget : (st.malloc c.record).heap[st.heap.length]? = some c.record := by simp
  exact addMemberConnect_isSome (hs.malloc c.record).list hget hfuel

theorem connectRun_optimal {env : Env} {tr : List (Step Proxy Call)} {st : Proxy}
    (hr : ConnectRun env tr st)
    (hmacs : ∀ x ∈ tr, x.input.record.remoteInfo.macaddr.ZeroFree) :
    ∃ t cells, Shows st t cells ∧ t.Optimal (gateways tr) := by
  induction hr with
  | start =>
    refine ⟨Topology.start, [], ⟨rfl, rfl, rfl, rfl⟩, ⟨List.nodup_nil, ?_, ?_⟩, ?_, rfl, ?_⟩
    · intro mac h; cases h
    · intro mac h; cases h
    · intro mac _; simp [Topology.route, Topology.start, Topology.macs, lookup]
    · intro mac e h; cases h
  | @snoc tr s s' c _ hstep ih =>
    obtain ⟨t, cells, hs, ht⟩ := ih fun x hx => hmacs x (List.mem_cons_of_mem _ hx)
    have hmac := hmacs _ List.mem_cons_self
    obtain ⟨fuel, hstep⟩ := hstep
    obtain ⟨cells', hs'⟩ := connect_learn hs hstep
    refine ⟨_, cells', hs', ?_⟩
    have hopt : (t.learn env c.now c.gateway c.record.toLink).Optimal _ :=
      Topology.learn_optimal ht hmac
    have hsize : s'.memList.size = s.memList.size ↔ ¬ t.stores env c.record.toLink = true := by
      rw [hs'.size, hs.size]
      unfold Topology.learn
      split
      · rename_i hst
        rw [Topology.store_size]
        simp only [hst, not_true_eq_false, iff_false]
        omega
      · rename_i hst
        simp [hst]
    unfold gateways
    simp only [hsize]
    by_cases hst : t.stores env c.record.toLink = true
    · simpa [hst] using hopt
    · simpa [hst] using hopt

/-- In every state of a run: an address has an entry exactly if a stored link leads to it, the entry
holds the gateway of the cheapest such link, and every further call returns. -/
theorem connectRun_routes {env : Env} {tr : List (Step Proxy Call)} {st : Proxy}
    (hr : ConnectRun env tr st)
    (hmacs : ∀ x ∈ tr, x.input.record.remoteInfo.macaddr.ZeroFree) :
    ∃ cells : Cells, NodeList st.heap st.memList.head cells ∧
      (gateways tr).length = cells.length ∧
      (∀ mac, (st.findSocketfd mac).isSome ↔ ∃ x ∈ cells, x.2.remoteInfo.macaddr = mac) ∧
      (∀ mac e, st.findSocketfd mac = some e →
        ∃ x, Cheapest mac (logOf cells.links (gateways tr)) x ∧ x.gateway = e.sockFd) ∧
      ∀ c fuel, cells.length < fuel → ∃ st', connect env fuel st c = some st' := by
  obtain ⟨t, cells, hs, ht⟩ := connectRun_optimal hr hmacs
  refine ⟨cells, hs.list, ?_, ?_, ?_, fun c fuel hfuel => connect_isSome env hs c hfuel⟩
  · rw [ht.length, ← hs.links, Cells.length_links]
  · intro mac
    rw [← hs.route, ht.agrees.all ht.clean, ← hs.links]
    simp [Topology.macs, Cells.links]
  · intro mac e he
    rw [← hs.route] at he
    rw [hs.links]
    exact ht.best mac e he

/-- `host 3` is learned through `host 2`, then through `host 4`: the distance to `host 4` is unknown,
so the `-1` added to the weight 1 makes the second link the cheapest. -/
theorem cheaper_route_replaces : ∃ tr st, ConnectRun (hostEnv 1) tr st ∧
    gateways tr = [6, 5] ∧ (st.findSocketfd (host 3).macaddr).map (·.sockFd) = some 6 ∧
    ∃ cells : Cells, NodeList st.heap st.memList.head cells ∧
      ∀ mac e, st.findSocketfd mac = some e →
        ∃ x, Cheapest mac (logOf cells.links (gateways tr)) x ∧ x.gateway = e.sockFd := by
  have hex : ∃ r ∈ replay (connect (hostEnv 1) 3)
      [⟨0, 5, { linkTo (host 2) (host 3) with linkweight := 9, next := none }⟩,
        ⟨10, 6, { linkTo (host 4) (host 3) with next := none }⟩] [] Proxy.start,
      gateways r.1 = [6, 5] ∧ (r.2.findSocketfd (host 3).macaddr).map (·.sockFd) = some 6 ∧
      ∀ x ∈ r.1, x.input.record.remoteInfo.macaddr.ZeroFree := by decide +kernel
  obtain ⟨⟨tr, st⟩, hreplay, hgw, hsock, hmacs⟩ := hex
  have hr : ConnectRun (hostEnv 1) tr st := Run.replay (fun _ _ _ hs => ⟨3, hs⟩) _ .start hreplay
  obtain ⟨cells, hlist, _, _, hbest, _⟩ := connectRun_routes hr hmacs
  exact ⟨tr, st, hr, hgw, hsock, cells, hlist, hbest⟩

end Cs352Proxy
