import Cs352Proxy.Topology

/-!
# Knowledge

Laws of the operations on a topology.

* `merge_induction`: what `keep` and `store` preserve, a merged list preserves.
* `onTo mac`: the stored links to a MAC address. A sweep drops as many of them from the front as
  have expired (`expire_onTo`), and the forwarding entry when there is one such link
  (`expire_route`).
* `Counted`: the size counter is the number of links (`expire_counted`).
-/

namespace Cs352Proxy

open Base

namespace Topology

variable {env : Env} {now : U64} {gw : Int}

/-! ## One link -/

/-- Everything but the time of a stored link. -/
def face (l : Link) : ProxyInfo × ProxyInfo × U32 := (l.localInfo, l.remoteInfo, l.linkweight)

@[simp] theorem refresh_faces (now : U64) (r : Link) (ls : List Link) :
    (refresh now r ls).map face = ls.map face := by
  induction ls with
  | nil => rfl
  | cons l ls ih =>
    unfold refresh
    split
    · rfl
    · rw [List.map_cons, ih, List.map_cons]

theorem keep_faces (now : U64) (r : Link) (t : Topology) :
    (t.keep now r).links.map face = t.links.map face := by
  unfold keep
  split
  · exact refresh_faces now r t.links
  · rfl

@[simp] theorem keep_routes (r : Link) (t : Topology) : (t.keep now r).routes = t.routes := by
  unfold keep; split <;> rfl

@[simp] theorem keep_size (r : Link) (t : Topology) : (t.keep now r).size = t.size := by
  unfold keep; split <;> rfl

@[simp] theorem length_keep (r : Link) (t : Topology) : (t.keep now r).links.length = t.links.length := by
  have h := congrArg List.length (keep_faces now r t)
  rwa [List.length_map, List.length_map] at h

/-- Which stored links join which addresses does not change. -/
@[simp] theorem keep_any_reverses (now : U64) (r r' : Link) (t : Topology) :
    (t.keep now r).links.any (reverses r') = t.links.any (reverses r') := by
  have hany : ∀ ls : List Link, ls.any (reverses r') = (ls.map face).any fun f =>
      decide (f.1.ip = r'.remoteInfo.ip ∧ f.2.1.ip = r'.localInfo.ip) := by
    intro ls
    rw [List.any_map]
    rfl
  rw [hany, hany, keep_faces]

theorem store_links (now : U64) (gw : Int) (r : Link) (t : Topology) :
    ∃ w, (t.store now gw r).links = { r with linkweight := w, ID := now } :: t.links := by
  unfold store
  split <;> exact ⟨_, rfl⟩

@[simp] theorem store_size (r : Link) (t : Topology) : (t.store now gw r).size = t.size + 1 := by
  unfold store; split <;> rfl

/-! ## A list of links -/

theorem rewalk_induction {P : Topology → Prop} (hkeep : ∀ t r, P t → P (t.keep now r))
    {ls : List Link} {t t' : Topology} (ht : P t) (h : t.rewalk env now ls = some t') : P t' := by
  induction ls generalizing t with
  | nil => cases h; exact ht
  | cons l ls ih =>
    unfold rewalk at h
    split at h
    · cases h
    · exact ih (hkeep t l ht) h

theorem merge_induction {P : Topology → Prop} (hkeep : ∀ t r, P t → P (t.keep now r))
    {rs : List Link} (hstore : ∀ t, ∀ r ∈ rs, t.stores env r = true → P t → P (t.store now gw r))
    {t t' : Topology} (ht : P t) (h : t.merge env now gw rs = some t') : P t' := by
  induction rs generalizing t with
  | nil => cases h; exact ht
  | cons r rs ih =>
    unfold merge at h
    split at h
    · rename_i hst
      exact rewalk_induction hkeep (hstore t r List.mem_cons_self hst ht) h
    · exact ih (fun t x hx => hstore t x (List.mem_cons_of_mem r hx)) (hkeep t r ht) h

/-! ## A sweep -/

/-- The stored links to a MAC address. -/
def onTo (mac : Mac) (ls : List Link) : List Link := ls.filter fun l => l.remoteInfo.macaddr = mac

section Sweep

variable (time timeout : Int)

theorem expireStep_pos {l : Link} (he : Expired time timeout l) (t : Topology) :
    expireStep time timeout t l =
      { links := dropFirst l.remoteInfo.macaddr t.links
        size := t.size - 1
        routes := remove ProxySocketfd.key t.routes l.remoteInfo.macaddr.key } := if_pos he

theorem expireStep_neg {l : Link} (he : ¬ Expired time timeout l) (t : Topology) :
    expireStep time timeout t l = t := if_neg he

def expiredOnTo (mac : Mac) (ls : List Link) : Nat :=
  (onTo mac ls).countP fun l => Expired time timeout l

theorem onTo_cons (mac : Mac) (l : Link) (ls : List Link) :
    onTo mac (l :: ls) = if l.remoteInfo.macaddr = mac then l :: onTo mac ls else onTo mac ls := by
  unfold onTo
  rw [List.filter_cons]
  simp

theorem onTo_dropFirst (mac mac' : Mac) (ls : List Link) :
    onTo mac (dropFirst mac' ls) = if mac' = mac then (onTo mac ls).drop 1 else onTo mac ls := by
  induction ls with
  | nil => simp [dropFirst, onTo]
  | cons l ls ih =>
    unfold dropFirst at ih ⊢
    by_cases hl : l.remoteInfo.macaddr = mac'
    · rw [List.eraseP_cons_of_pos (by simp [hl]), onTo_cons, hl]
      split <;> rfl
    · rw [List.eraseP_cons_of_neg (by simp [hl]), onTo_cons, onTo_cons, ih]
      by_cases hm : l.remoteInfo.macaddr = mac
      · have hne : mac' ≠ mac := fun h => hl (hm.trans h.symm)
        simp only [hm, hne, if_true, if_false]
      · simp only [hm, if_false]

theorem expiredOnTo_cons (mac : Mac) (l : Link) (ls : List Link) :
    expiredOnTo time timeout mac (l :: ls) =
      expiredOnTo time timeout mac ls +
        if l.remoteInfo.macaddr = mac ∧ Expired time timeout l then 1 else 0 := by
  unfold expiredOnTo
  rw [onTo_cons]
  by_cases hl : l.remoteInfo.macaddr = mac
  · by_cases he : Expired time timeout l <;> simp [hl, he]
  · simp [hl]

theorem expiredOnTo_le (mac : Mac) (ls : List Link) :
    expiredOnTo time timeout mac ls ≤ (onTo mac ls).length := List.countP_le_length

theorem foldl_expire_onTo (mac : Mac) (ls : List Link) (t : Topology) :
    onTo mac (ls.foldl (expireStep time timeout) t).links =
      (onTo mac t.links).drop (expiredOnTo time timeout mac ls) := by
  induction ls generalizing t with
  | nil => rfl
  | cons l ls ih =>
    rw [List.foldl_cons, ih, expiredOnTo_cons]
    by_cases he : Expired time timeout l
    · rw [expireStep_pos time timeout he, onTo_dropFirst]
      by_cases hl : l.remoteInfo.macaddr = mac
      · simp only [hl, he, and_self, if_true, List.drop_drop, Nat.add_comm]
      · simp only [hl, false_and, if_false, Nat.add_zero]
    · rw [expireStep_neg time timeout he]
      simp only [he, if_false, and_false, Nat.add_zero]

/-- A sweep drops as many links to an address as have expired, from the front. -/
theorem expire_onTo (mac : Mac) (t : Topology) :
    onTo mac (t.expire time timeout).links =
      (onTo mac t.links).drop (expiredOnTo time timeout mac t.links) :=
  foldl_expire_onTo time timeout mac t.links t

theorem expire_onTo_length (mac : Mac) (t : Topology) :
    (onTo mac (t.expire time timeout).links).length =
      (onTo mac t.links).countP fun l => ¬ Expired time timeout l := by
  have hsum := List.length_eq_countP_add_countP (fun l => decide (Expired time timeout l))
    (l := onTo mac t.links)
  rw [expire_onTo, List.length_drop, expiredOnTo, hsum]
  simp only [decide_eq_true_eq, decide_not]
  omega

/-! ### The size counter -/

/-- The size counter is the number of stored links. -/
def Counted (t : Topology) : Prop := t.size = t.links.length

theorem length_dropFirst {mac : Mac} {ls : List Link} (h : 0 < (onTo mac ls).length) :
    (dropFirst mac ls).length + 1 = ls.length := by
  obtain ⟨l, hl⟩ := List.exists_mem_of_length_pos h
  have hmem := List.mem_filter.mp hl
  have hlen : (dropFirst mac ls).length = ls.length - 1 :=
    List.length_eraseP_of_mem hmem.1 hmem.2
  have hpos := List.length_pos_of_mem hmem.1
  omega

/-- What the size counter is ahead of the number of links. -/
def surplus (t : Topology) : Int := t.size - t.links.length

theorem counted_iff {t : Topology} : t.Counted ↔ t.surplus = 0 := by
  unfold Counted surplus
  omega

/-- While the links still to be looked at are on the list, an expired one deletes a link. -/
theorem expireStep_surplus {l : Link} {ls : List Link} {t : Topology}
    (hon : ∀ mac, (onTo mac (l :: ls)).length ≤ (onTo mac t.links).length) :
    (expireStep time timeout t l).surplus = t.surplus ∧
      ∀ mac, (onTo mac ls).length ≤ (onTo mac (expireStep time timeout t l).links).length := by
  have hcons : ∀ mac, (onTo mac (l :: ls)).length =
      (onTo mac ls).length + if l.remoteInfo.macaddr = mac then 1 else 0 := by
    intro mac
    rw [onTo_cons]
    split <;> rfl
  by_cases he : Expired time timeout l
  · rw [expireStep_pos time timeout he]
    have hpos : 0 < (onTo l.remoteInfo.macaddr t.links).length := by
      have h := hon l.remoteInfo.macaddr
      rw [hcons, if_pos rfl] at h
      omega
    have hlen := length_dropFirst hpos
    refine ⟨by simp only [surplus, ← hlen]; omega, fun mac => ?_⟩
    have h := hon mac
    rw [hcons] at h
    rw [onTo_dropFirst]
    split
    · rename_i hmac
      rw [if_pos hmac] at h
      rw [List.length_drop]
      omega
    · rename_i hmac
      rw [if_neg hmac] at h
      exact h
  · rw [expireStep_neg time timeout he]
    refine ⟨rfl, fun mac => ?_⟩
    have h := hon mac
    rw [hcons] at h
    omega

theorem foldl_expire_surplus {ls : List Link} {t : Topology}
    (hon : ∀ mac, (onTo mac ls).length ≤ (onTo mac t.links).length) :
    (ls.foldl (expireStep time timeout) t).surplus = t.surplus := by
  induction ls generalizing t with
  | nil => rfl
  | cons l ls ih =>
    obtain ⟨hsurplus, hrest⟩ := expireStep_surplus time timeout hon
    rw [List.foldl_cons, ih hrest, hsurplus]

theorem expire_surplus (t : Topology) : (t.expire time timeout).surplus = t.surplus :=
  foldl_expire_surplus time timeout fun _ => Nat.le_refl _

theorem expire_counted {t : Topology} (ht : t.Counted) : (t.expire time timeout).Counted :=
  counted_iff.mpr ((expire_surplus time timeout t).trans (counted_iff.mp ht))

/-! ### The forwarding entries -/

theorem foldl_expire_route {ls : List Link} {t : Topology}
    (hnd : (t.routes.map ProxySocketfd.key).Nodup) (mac : Mac) :
    (ls.foldl (expireStep time timeout) t).route mac =
      if ∃ l ∈ ls, Expired time timeout l ∧ l.remoteInfo.macaddr.key = mac.key then none
      else t.route mac := by
  induction ls generalizing t with
  | nil => simp
  | cons l ls ih =>
    rw [List.foldl_cons]
    by_cases he : Expired time timeout l
    · rw [expireStep_pos time timeout he, ih (nodup_keys_remove hnd)]
      have hroute : route mac
          { links := dropFirst l.remoteInfo.macaddr t.links, size := t.size - 1
            routes := remove ProxySocketfd.key t.routes l.remoteInfo.macaddr.key } =
          if l.remoteInfo.macaddr.key = mac.key then none else t.route mac := lookup_remove hnd
      rw [hroute]
      by_cases hk : l.remoteInfo.macaddr.key = mac.key
      · simp [hk, he]
      · simp [hk]
    · rw [expireStep_neg time timeout he, ih hnd]
      simp [he]

/-- A sweep removes the entries of the addresses that an expired link leads to. -/
theorem expire_route {t : Topology} (hnd : (t.routes.map ProxySocketfd.key).Nodup) (mac : Mac) :
    (t.expire time timeout).route mac =
      if ∃ l ∈ t.links, Expired time timeout l ∧ l.remoteInfo.macaddr.key = mac.key then none
      else t.route mac :=
  foldl_expire_route time timeout hnd mac

theorem foldl_expire_routes (ls : List Link) (t : Topology) :
    (ls.foldl (expireStep time timeout) t).routes.Sublist t.routes := by
  induction ls generalizing t with
  | nil => exact List.Sublist.refl _
  | cons l ls ih =>
    rw [List.foldl_cons]
    refine (ih _).trans ?_
    unfold expireStep
    split
    · exact List.eraseP_sublist
    · exact List.Sublist.refl _

theorem expire_routes (t : Topology) : (t.expire time timeout).routes.Sublist t.routes :=
  foldl_expire_routes time timeout t.links t

/-- The keys a sweep over `ls` deletes from the table, one for each expired link. -/
def expiredKeys (ls : List Link) : List (List U8) :=
  (ls.filter fun l => Expired time timeout l).map fun l => l.remoteInfo.macaddr.key

theorem expiredKeys_cons (l : Link) (ls : List Link) :
    expiredKeys time timeout (l :: ls) =
      if Expired time timeout l then l.remoteInfo.macaddr.key :: expiredKeys time timeout ls
      else expiredKeys time timeout ls := by
  unfold expiredKeys
  by_cases he : Expired time timeout l <;> simp [he]

theorem foldl_expire_filter {ls : List Link} {t : Topology}
    (hnd : (t.routes.map ProxySocketfd.key).Nodup) :
    (ls.foldl (expireStep time timeout) t).routes =
      t.routes.filter fun e => e.key ∉ expiredKeys time timeout ls := by
  induction ls generalizing t with
  | nil => simp [expiredKeys]
  | cons l ls ih =>
    rw [List.foldl_cons, expiredKeys_cons]
    by_cases he : Expired time timeout l
    · rw [expireStep_pos time timeout he, ih (nodup_keys_remove hnd), if_pos he]
      simp only [remove_eq_filter hnd, List.filter_filter, List.mem_cons, not_or]
      congr 1
      funext e
      simp [Bool.and_comm]
    · rw [expireStep_neg time timeout he, ih hnd, if_neg he]

theorem expire_filter {t : Topology} (hnd : (t.routes.map ProxySocketfd.key).Nodup) :
    (t.expire time timeout).routes =
      t.routes.filter fun e => e.key ∉ expiredKeys time timeout t.links :=
  foldl_expire_filter time timeout hnd

theorem foldl_expire_size (ls : List Link) (t : Topology) :
    (ls.foldl (expireStep time timeout) t).size =
      t.size - (ls.countP fun l => Expired time timeout l : Nat) := by
  induction ls generalizing t with
  | nil => simp
  | cons l ls ih =>
    rw [List.foldl_cons, ih, List.countP_cons]
    by_cases he : Expired time timeout l
    · rw [expireStep_pos time timeout he]
      simp only [he, decide_true, if_true]
      omega
    · rw [expireStep_neg time timeout he]
      simp [he]

theorem expire_size (t : Topology) :
    (t.expire time timeout).size = t.size - (t.links.countP fun l => Expired time timeout l : Nat) :=
  foldl_expire_size time timeout t.links t

theorem foldl_expire_links (ls : List Link) (t : Topology) :
    (ls.foldl (expireStep time timeout) t).links.Sublist t.links := by
  induction ls generalizing t with
  | nil => exact List.Sublist.refl _
  | cons l ls ih =>
    rw [List.foldl_cons]
    refine (ih _).trans ?_
    unfold expireStep
    split
    · exact List.eraseP_sublist
    · exact List.Sublist.refl _

theorem expire_links (t : Topology) : (t.expire time timeout).links.Sublist t.links :=
  foldl_expire_links time timeout t.links t

end Sweep

/-! ## Counting through a packet -/

theorem merge_counted {rs : List Link} {t t' : Topology} (ht : t.Counted)
    (h : t.merge env now gw rs = some t') : t'.Counted := by
  refine merge_induction (P := Counted) ?_ ?_ ht h
  · intro t r ht
    unfold Counted at ht ⊢
    rw [keep_size, length_keep, ht]
  · intro t r _ _ ht
    obtain ⟨w, hlinks⟩ := store_links now gw r t
    unfold Counted at ht ⊢
    rw [store_size, hlinks, ht, List.length_cons]
    rfl

end Topology

end Cs352Proxy
