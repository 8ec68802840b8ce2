import Cs352Proxy.Knowledge

/-!
# Addresses

The MAC addresses a topology has entries for and links to.

* `Clean`: entries have different keys, and no address has a zero byte in it. Then a key stands
  for one address.
* `Agrees`: an address has an entry exactly if a stored link leads to it. Storing a link keeps
  this; `reply_agrees_iff` and `expire_agrees_iff` say when the other two operations do.
-/

namespace Cs352Proxy

open Base

namespace Topology

/-- The remote addresses of the stored links. -/
def macs (ls : List Link) : List Mac := ls.map fun l => l.remoteInfo.macaddr

/-- What a run with clean packets keeps: entries have different keys and no zero bytes. -/
structure Clean (t : Topology) : Prop where
  keys : (t.routes.map ProxySocketfd.key).Nodup
  entries : ∀ mac ∈ t.routes.map ProxySocketfd.macaddr, mac.ZeroFree
  remotes : ∀ mac ∈ macs t.links, mac.ZeroFree

def Agrees (t : Topology) : Prop :=
  ∀ mac : Mac, mac.ZeroFree → ((t.route mac).isSome ↔ mac ∈ macs t.links)

/-- An address, or the placeholder a client sends for an address it does not know. -/
def Regular (mac : Mac) : Prop := mac = Mac.zero ∨ mac.ZeroFree

variable {env : Env} {now : U64} {gw : Int}

theorem keep_macs (r : Link) (t : Topology) : macs (t.keep now r).links = macs t.links := by
  have h := congrArg (List.map fun f => f.2.1.macaddr) (keep_faces now r t)
  simpa [macs, face, Function.comp_def] using h

theorem store_macs (r : Link) (t : Topology) :
    macs (t.store now gw r).links = r.remoteInfo.macaddr :: macs t.links := by
  obtain ⟨w, hlinks⟩ := store_links now gw r t
  rw [hlinks]
  rfl

theorem keep_clean {t : Topology} (ht : t.Clean) (r : Link) : (t.keep now r).Clean :=
  ⟨by rw [keep_routes]; exact ht.keys, by rw [keep_routes]; exact ht.entries,
    by rw [keep_macs]; exact ht.remotes⟩

theorem keep_agrees {t : Topology} (ht : t.Agrees) (r : Link) : (t.keep now r).Agrees := by
  intro mac hmac
  rw [keep_macs, ← ht mac hmac, route, route, keep_routes]

theorem clean_cons (fd : Int) {t : Topology} (ht : t.Clean) {mac : Mac} (hmac : mac.ZeroFree)
    (hroute : t.route mac = none) :
    (({ macaddr := mac, sockFd := fd } :: t.routes).map ProxySocketfd.key).Nodup ∧
      ∀ mac' ∈ ({ macaddr := mac, sockFd := fd } :: t.routes).map ProxySocketfd.macaddr,
        mac'.ZeroFree :=
  ⟨List.nodup_cons.mpr ⟨lookup_none.mp hroute, ht.keys⟩, List.forall_mem_cons.mpr ⟨hmac, ht.entries⟩⟩

theorem route_cons {t : Topology} {mac mac' : Mac} (hmac : mac.ZeroFree) {fd : Int} :
    (lookup ProxySocketfd.key ({ macaddr := mac, sockFd := fd } :: t.routes) mac'.key).isSome ↔
      mac = mac' ∨ (t.route mac').isSome := by
  have hkey : ProxySocketfd.key { macaddr := mac, sockFd := fd } = mac'.key ↔ mac = mac' :=
    hmac.unambiguous.key_inj
  simp only [lookup_cons, hkey]
  unfold route
  split <;> rename_i h <;> simp [h]

theorem entry_mac {t : Topology} (ht : t.Clean) {mac : Mac} {e : ProxySocketfd}
    (h : t.route mac = some e) : e.macaddr = mac := by
  obtain ⟨hmem, hkey⟩ := lookup_some h
  exact (ht.entries _ (List.mem_map_of_mem hmem)).unambiguous.key_inj.mp hkey

theorem Agrees.all {t : Topology} (ht : t.Agrees) (hc : t.Clean) (mac : Mac) :
    (t.route mac).isSome ↔ mac ∈ macs t.links := by
  by_cases hmac : mac.ZeroFree
  · exact ht mac hmac
  · refine ⟨fun h => ?_, fun h => absurd (hc.remotes mac h) hmac⟩
    obtain ⟨e, he⟩ := Option.isSome_iff_exists.mp h
    have hentry := hc.entries _ (List.mem_map_of_mem (lookup_some he).1)
    rw [entry_mac hc he] at hentry
    exact absurd hentry hmac

theorem store_clean {t : Topology} (ht : t.Clean) {r : Link} (hst : t.stores env r = true)
    (hr : Regular r.remoteInfo.macaddr) : (t.store now gw r).Clean := by
  have hremotes : r.remoteInfo.macaddr.ZeroFree →
      ∀ mac ∈ macs (t.store now gw r).links, mac.ZeroFree := by
    intro h
    rw [store_macs]
    exact List.forall_mem_cons.mpr ⟨h, ht.remotes⟩
  cases hroute : t.route r.remoteInfo.macaddr with
  | none =>
    have hmac : r.remoteInfo.macaddr.ZeroFree := by
      simp only [stores, hroute, decide_eq_true_eq] at hst
      exact hr.resolve_left hst.1
    obtain ⟨hkeys, hentries⟩ := clean_cons gw ht hmac hroute
    refine ⟨?_, ?_, hremotes hmac⟩ <;> unfold store <;> rw [hroute]
    · exact hkeys
    · exact hentries
  | some e =>
    have hmac : r.remoteInfo.macaddr.ZeroFree := by
      rw [← entry_mac ht hroute]
      exact ht.entries _ (List.mem_map_of_mem (lookup_some hroute).1)
    refine ⟨?_, ?_, hremotes hmac⟩ <;> unfold store <;> rw [hroute] <;> simp only <;> split
    · rw [keys_assign_sockFd]; exact ht.keys
    · exact ht.keys
    · rw [macaddrs_assign_sockFd]; exact ht.entries
    · exact ht.entries

theorem store_agrees {t : Topology} (ht : t.Agrees) {r : Link}
    (hst : t.stores env r = true) (hr : Regular r.remoteInfo.macaddr) :
    (t.store now gw r).Agrees := by
  intro mac hmac
  rw [store_macs, List.mem_cons, ← ht mac hmac]
  cases hroute : t.route r.remoteInfo.macaddr with
  | none =>
    have hrmac : r.remoteInfo.macaddr.ZeroFree := by
      simp only [stores, hroute, decide_eq_true_eq] at hst
      exact hr.resolve_left hst.1
    have hroutes : (t.store now gw r).routes =
        { macaddr := r.remoteInfo.macaddr, sockFd := gw } :: t.routes := by
      unfold store; rw [hroute]
    rw [route, hroutes, route_cons hrmac, eq_comm (a := mac)]
  | some e =>
    -- the entry is there before and after, whichever gateway it gets
    have hsame : ((t.store now gw r).route mac).isSome = (t.route mac).isSome := by
      rw [route, store, hroute]
      simp only
      split
      · rw [lookup_assign_sockFd]
        split <;> simp [route]
      · rfl
    rw [hsame]
    constructor
    · exact .inr
    · intro h
      rcases h with h | h
      · rw [h, hroute]; rfl
      · exact h

theorem merge_agrees {rs : List Link} (hrs : ∀ r ∈ rs, Regular r.remoteInfo.macaddr)
    {t t' : Topology} (hc : t.Clean) (ht : t.Agrees) (h : t.merge env now gw rs = some t') :
    t'.Clean ∧ t'.Agrees :=
  merge_induction (P := fun t => t.Clean ∧ t.Agrees)
    (fun _ r ht => ⟨keep_clean ht.1 r, keep_agrees ht.2 r⟩)
    (fun _ r hr hst ht => ⟨store_clean ht.1 hst (hrs r hr), store_agrees ht.2 hst (hrs r hr)⟩)
    ⟨hc, ht⟩ h

/-! ### A new client -/

theorem client_agrees (env : Env) (now : U64) {t : Topology} (hc : t.Clean) (ht : t.Agrees) {source : ProxyInfo}
    (hmac : source.macaddr.ZeroFree) (hroute : t.route source.macaddr = none) (fd : Int) :
    let t' : Topology := { links := client env source now :: t.links, size := t.size + 1
                           routes := { macaddr := source.macaddr, sockFd := fd } :: t.routes }
    t'.Clean ∧ t'.Agrees := by
  obtain ⟨hkeys, hentries⟩ := clean_cons fd hc hmac hroute
  refine ⟨⟨hkeys, hentries, List.forall_mem_cons.mpr ⟨hmac, hc.remotes⟩⟩, ?_⟩
  intro mac hmac'
  rw [show macs (client env source now :: t.links) = source.macaddr :: macs t.links from rfl,
    List.mem_cons, ← ht mac hmac', eq_comm (a := mac)]
  exact route_cons hmac

/-- The reply leaves one link, and the entries it found besides the source's. -/
theorem reply_agrees_iff (env : Env) (now : U64) {t : Topology} (hc : t.Clean) (ht : t.Agrees) {source : ProxyInfo}
    (hmac : source.macaddr.ZeroFree) (hroute : t.route source.macaddr = none) (fd : Int) (mac : Mac)
    (n : Int) :
    Agrees { links := [client env { source with macaddr := mac } now], size := n
             routes := { macaddr := source.macaddr, sockFd := fd } :: t.routes } ↔
      t.links = [] ∧ mac = source.macaddr := by
  have hlinks : macs [client env { source with macaddr := mac } now] = [mac] := rfl
  unfold Agrees
  rw [hlinks]
  constructor
  · intro h
    have hsource : source.macaddr = mac := by
      have hmem := (h source.macaddr hmac).mp ((route_cons hmac).mpr (.inl rfl))
      exact List.mem_singleton.mp hmem
    refine ⟨?_, hsource.symm⟩
    by_contra hne
    obtain ⟨l, hl⟩ := List.exists_mem_of_ne_nil _ hne
    have hmem : l.remoteInfo.macaddr ∈ macs t.links := List.mem_map_of_mem hl
    have hfree := hc.remotes _ hmem
    have hentry := (ht _ hfree).mpr hmem
    have heq := List.mem_singleton.mp ((h _ hfree).mp ((route_cons hmac).mpr (.inr hentry)))
    rw [heq, ← hsource, hroute] at hentry
    cases hentry
  · intro h
    obtain ⟨hnil, heq⟩ := h
    subst heq
    intro mac' hmac'
    have hempty : (t.route mac').isSome ↔ mac' ∈ macs [] := by
      rw [← hnil]; exact ht mac' hmac'
    rw [List.mem_singleton, eq_comm (a := mac')]
    refine (route_cons hmac).trans ?_
    rw [hempty]
    simp [macs]

/-! ### A sweep -/

theorem mem_macs_iff {mac : Mac} {ls : List Link} : mac ∈ macs ls ↔ 0 < (onTo mac ls).length := by
  rw [List.length_pos_iff_exists_mem]
  simp [macs, onTo]

theorem expired_pos_iff {time timeout : Int} {mac : Mac} {ls : List Link} :
    0 < expiredOnTo time timeout mac ls ↔
      ∃ l ∈ ls, Expired time timeout l ∧ l.remoteInfo.macaddr = mac := by
  unfold expiredOnTo onTo
  rw [List.countP_pos_iff]
  simp only [List.mem_filter, decide_eq_true_eq]
  constructor <;> rintro ⟨l, h⟩
  · exact ⟨l, h.1.1, h.2, h.1.2⟩
  · exact ⟨l, ⟨h.1, h.2.2⟩, h.2.1⟩

theorem expire_clean (time timeout : Int) {t : Topology} (hc : t.Clean) :
    (t.expire time timeout).Clean := by
  have hroutes := expire_routes time timeout t
  have hlinks := expire_links time timeout t
  exact ⟨(hroutes.map _).nodup hc.keys, fun mac h => hc.entries mac ((hroutes.map _).subset h),
    fun mac h => hc.remotes mac ((hlinks.map _).subset h)⟩

theorem expire_route_isSome (time timeout : Int) {t : Topology} (hc : t.Clean) {mac : Mac}
    (hmac : mac.ZeroFree) : ((t.expire time timeout).route mac).isSome ↔
      expiredOnTo time timeout mac t.links = 0 ∧ (t.route mac).isSome := by
  have hkey : (∃ l ∈ t.links, Expired time timeout l ∧ l.remoteInfo.macaddr.key = mac.key) ↔
      0 < expiredOnTo time timeout mac t.links := by
    rw [expired_pos_iff]
    constructor
    · intro h
      obtain ⟨l, hl, he, hk⟩ := h
      exact ⟨l, hl, he, (hmac.unambiguous.key_inj.mp hk.symm).symm⟩
    · intro h
      obtain ⟨l, hl, he, rfl⟩ := h
      exact ⟨l, hl, he, rfl⟩
  rw [expire_route time timeout hc.keys]
  by_cases h : 0 < expiredOnTo time timeout mac t.links
  · rw [if_pos (hkey.mpr h)]
    simp; omega
  · rw [if_neg (fun hx => h (hkey.mp hx))]
    have hzero : expiredOnTo time timeout mac t.links = 0 := by omega
    simp [hzero]

/-- Links to one address expire together. -/
def ExpireTogether (time timeout : Int) (ls : List Link) : Prop :=
  ∀ l ∈ ls, ∀ l' ∈ ls, l.remoteInfo.macaddr = l'.remoteInfo.macaddr →
    Expired time timeout l → Expired time timeout l'

instance (time timeout : Int) (ls : List Link) : Decidable (ExpireTogether time timeout ls) :=
  inferInstanceAs (Decidable (∀ l ∈ ls, ∀ l' ∈ ls, _ → _ → _))

theorem expiredOnTo_eq_length {time timeout : Int} {mac : Mac} {ls : List Link} :
    expiredOnTo time timeout mac ls = (onTo mac ls).length ↔
      ∀ l ∈ ls, l.remoteInfo.macaddr = mac → Expired time timeout l := by
  unfold expiredOnTo onTo
  rw [List.countP_eq_length]
  simp only [List.mem_filter, decide_eq_true_eq, and_imp]

theorem expire_agrees_iff {time timeout : Int} {t : Topology} (hc : t.Clean) (ht : t.Agrees) :
    (t.expire time timeout).Agrees ↔ ExpireTogether time timeout t.links := by
  have hiff : ∀ mac : Mac, mac.ZeroFree →
      ((((t.expire time timeout).route mac).isSome ↔ mac ∈ macs (t.expire time timeout).links) ↔
        (0 < expiredOnTo time timeout mac t.links →
          expiredOnTo time timeout mac t.links = (onTo mac t.links).length)) := by
    intro mac hmac
    have hle := expiredOnTo_le time timeout mac t.links
    rw [expire_route_isSome time timeout hc hmac, ht mac hmac, mem_macs_iff, mem_macs_iff,
      expire_onTo, List.length_drop]
    omega
  constructor
  · intro h l hl l' hl' hmac he
    have hfree := hc.remotes _ (List.mem_map_of_mem hl)
    have hall := (hiff _ hfree).mp (h _ hfree) (expired_pos_iff.mpr ⟨l, hl, he, rfl⟩)
    exact expiredOnTo_eq_length.mp hall l' hl' hmac.symm
  · intro h mac hmac
    refine (hiff mac hmac).mpr fun hpos => ?_
    obtain ⟨l, hl, he, hlmac⟩ := expired_pos_iff.mp hpos
    exact expiredOnTo_eq_length.mpr fun l' hl' hmac' => h l hl l' hl' (hlmac.trans hmac'.symm) he

end Topology

end Cs352Proxy
