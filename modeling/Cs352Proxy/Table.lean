import Cs352Proxy.State
import Cs352Proxy.Base.Runs

/-!
# Table

Is the forwarding table a finite map on MAC addresses? `addsockfd`, `deletesockfd` and
`find_socketfd` measure their keys with `strlen`, so an address with a zero byte among its first
five is the same key as every address that agrees with it up to that byte. The table is a map
exactly while no such address is added.
-/

namespace Cs352Proxy

open Base

inductive TableOp where
  | add (macaddr : Mac) (fd : Int)
  | delete (macaddr : Mac)
deriving DecidableEq

def TableOp.macaddr : TableOp → Mac
  | .add macaddr _ => macaddr
  | .delete macaddr => macaddr

/-- The socket of the last addition of `mac` that no deletion follows; latest operation first. -/
def lastAdd (mac : Mac) : List TableOp → Option Int
  | [] => none
  | .add m fd :: older => if m = mac then some fd else lastAdd mac older
  | .delete m :: older => if m = mac then none else lastAdd mac older

/-- A table with the operations that were made on it. Addresses are added only when `find_socketfd`
did not find them. -/
def tableStep (s : Proxy × List TableOp) : TableOp → Option (Proxy × List TableOp)
  | .add mac fd =>
    if s.1.findSocketfd mac = none then some (s.1.addsockfd mac fd, .add mac fd :: s.2) else none
  | .delete mac => some (s.1.deletesockfd mac, .delete mac :: s.2)

abbrev TableRun := Run (Proxy.start, []) fun s op s' => tableStep s op = some s'

/-- Every lookup finds what was added last. -/
def IsMap (s : Proxy × List TableOp) : Prop :=
  ∀ mac : Mac, (s.1.findSocketfd mac).map (·.sockFd) = lastAdd mac s.2

/-- The address fills its key. -/
def AddsWholeKey : TableOp → Prop
  | .add mac _ => mac.Unambiguous
  | .delete _ => True

instance (op : TableOp) : Decidable (AddsWholeKey op) := by
  cases op
  · exact inferInstanceAs (Decidable (Mac.Unambiguous _))
  · exact inferInstanceAs (Decidable True)

/-- Different entries have different keys, and each key stands for one address. -/
structure Distinct (st : Proxy) : Prop where
  keys : (st.socketfds.map ProxySocketfd.key).Nodup
  entries : ∀ e ∈ st.socketfds, e.macaddr.Unambiguous

/-! ## Ambiguous addresses -/

theorem cstr_append_of_mem {l : List U8} (h0 : (0 : U8) ∈ l) (r r' : List U8) :
    cstr (l ++ r) = cstr (l ++ r') := by
  induction l with
  | nil => cases h0
  | cons a as ih =>
    by_cases ha : a = 0
    · simp [cstr, ha]
    · have h0' : (0 : U8) ∈ as := (List.mem_cons.mp h0).resolve_left fun h => ha h.symm
      rw [List.cons_append, List.cons_append, cstr_cons_of_ne _ ha, cstr_cons_of_ne _ ha, ih h0']

/-- Changing the last byte of an ambiguous address does not change its key. -/
theorem exists_same_key {mac : Mac} (h : ¬ mac.Unambiguous) : ∃ mac' : Mac, mac' ≠ mac ∧ mac'.key = mac.key := by
  obtain ⟨l, b, hbytes⟩ : ∃ l b, mac.bytes = l ++ [b] := by
    rcases List.eq_nil_or_concat mac.bytes with hnil | ⟨l, b, hcat⟩
    · have hlen := mac.length_bytes
      rw [hnil] at hlen
      cases hlen
    · exact ⟨l, b, by rw [hcat, List.concat_eq_append]⟩
  have hzero : (0 : U8) ∈ l := by
    have hz := not_not.mp h
    rwa [hbytes, List.dropLast_concat] at hz
  have hlen : (l ++ [b + 1]).length = 6 := by
    have hlen := mac.length_bytes
    rw [hbytes] at hlen
    simpa using hlen
  refine ⟨⟨l ++ [b + 1], hlen⟩, ?_, ?_⟩
  · intro heq
    have hb := congrArg Mac.bytes heq
    rw [hbytes] at hb
    have hlast := List.singleton_inj.mp (List.append_cancel_left hb)
    bv_omega
  · unfold Mac.key
    rw [hbytes, List.append_assoc, List.append_assoc]
    exact cstr_append_of_mem hzero _ _

/-! ## One operation -/

theorem find_addsockfd (mac mac' : Mac) (fd : Int) (st : Proxy) :
    (st.addsockfd mac fd).findSocketfd mac' =
      if mac.key = mac'.key then some { macaddr := mac, sockFd := fd } else st.findSocketfd mac' :=
  lookup_cons

theorem find_deletesockfd {st : Proxy} (hd : Distinct st) (mac mac' : Mac) :
    (st.deletesockfd mac).findSocketfd mac' =
      if mac.key = mac'.key then none else st.findSocketfd mac' := by
  unfold Proxy.findSocketfd
  rw [Proxy.deletesockfd_socketfds]
  exact lookup_remove hd.keys

theorem deletesockfd_isMap {st : Proxy} {ops : List TableOp} (hd : Distinct st)
    (hm : IsMap (st, ops)) (mac : Mac) : IsMap (st.deletesockfd mac, .delete mac :: ops) := by
  intro mac'
  simp only [lastAdd]
  rw [find_deletesockfd hd]
  by_cases hk : mac.key = mac'.key
  · rw [if_pos hk, Option.map_none]
    split
    · rfl
    · rename_i hne
      -- an entry that both keys lead to would be an entry for both addresses
      rw [← hm mac']
      cases hfind : st.findSocketfd mac' with
      | none => rfl
      | some e =>
        obtain ⟨hmem, hkey⟩ := lookup_some hfind
        have he := hd.entries e hmem
        have hmac' : e.macaddr = mac' := he.key_inj.mp hkey
        have hmac : e.macaddr = mac := he.key_inj.mp (hkey.trans hk.symm)
        exact absurd (hmac.symm.trans hmac') hne
  · have hne : mac ≠ mac' := fun h => hk (congrArg Mac.key h)
    rw [if_neg hk, if_neg hne]
    exact hm mac'

theorem addsockfd_isMap_iff {st : Proxy} {ops : List TableOp} (hm : IsMap (st, ops)) {mac : Mac}
    (hnone : st.findSocketfd mac = none) (fd : Int) :
    IsMap (st.addsockfd mac fd, .add mac fd :: ops) ↔ mac.Unambiguous := by
  constructor
  · intro h
    by_contra hamb
    obtain ⟨mac', hne, hkey⟩ := exists_same_key hamb
    have hfind' : st.findSocketfd mac' = none := by
      unfold Proxy.findSocketfd at hnone ⊢
      rw [hkey, hnone]
    have hold := hm mac'
    have hnew := h mac'
    simp only [lastAdd] at hold hnew
    rw [hfind'] at hold
    rw [find_addsockfd, if_pos hkey.symm, if_neg hne.symm, ← hold] at hnew
    cases hnew
  · intro hu mac'
    simp only [lastAdd]
    rw [find_addsockfd]
    by_cases hmac : mac = mac'
    · rw [if_pos (hu.key_inj.mpr hmac), if_pos hmac]
      rfl
    · rw [if_neg (fun hk => hmac (hu.key_inj.mp hk)), if_neg hmac]
      exact hm mac'

theorem tableStep_add {s s' : Proxy × List TableOp} {mac : Mac} {fd : Int}
    (h : tableStep s (.add mac fd) = some s') :
    s.1.findSocketfd mac = none ∧ s' = (s.1.addsockfd mac fd, .add mac fd :: s.2) := by
  simp only [tableStep] at h
  split at h
  · rename_i hnone
    exact ⟨hnone, (Option.some.inj h).symm⟩
  · cases h

theorem tableStep_distinct {s s' : Proxy × List TableOp} {op : TableOp} (hd : Distinct s.1)
    (hc : AddsWholeKey op) (h : tableStep s op = some s') : Distinct s'.1 := by
  cases op with
  | add mac fd =>
    obtain ⟨hnone, rfl⟩ := tableStep_add h
    exact ⟨List.nodup_cons.mpr ⟨lookup_none.mp hnone, hd.keys⟩,
      List.forall_mem_cons.mpr ⟨hc, hd.entries⟩⟩
  | delete mac =>
    cases h
    have hsub : (s.1.deletesockfd mac).socketfds.Sublist s.1.socketfds := by
      rw [Proxy.deletesockfd_socketfds]
      exact List.eraseP_sublist
    exact ⟨(hsub.map _).nodup hd.keys, fun e he => hd.entries e (hsub.subset he)⟩

theorem tableStep_isMap_iff {s s' : Proxy × List TableOp} {op : TableOp} (hd : Distinct s.1)
    (hm : IsMap s) (h : tableStep s op = some s') : IsMap s' ↔ AddsWholeKey op := by
  obtain ⟨st, ops⟩ := s
  cases op with
  | add mac fd =>
    obtain ⟨hnone, rfl⟩ := tableStep_add h
    exact addsockfd_isMap_iff hm hnone fd
  | delete mac =>
    cases h
    exact ⟨fun _ => trivial, fun _ => deletesockfd_isMap hd hm mac⟩

/-! ## Runs -/

/-- Lookups of other addresses find the same socket before and after. -/
def KeepsOthers (x : Step (Proxy × List TableOp) TableOp) : Prop :=
  ∀ mac : Mac, mac ≠ x.input.macaddr →
    (x.post.1.findSocketfd mac).map (·.sockFd) = (x.pre.1.findSocketfd mac).map (·.sockFd)

theorem keepsOthers_of_isMap {s s' : Proxy × List TableOp} {op : TableOp} (h : tableStep s op = some s')
    (hpre : IsMap s) (hpost : IsMap s') : KeepsOthers ⟨s, op, s'⟩ := by
  intro mac hne
  have hold := hpre mac
  have hnew := hpost mac
  have hsame : lastAdd mac s'.2 = lastAdd mac s.2 := by
    cases op with
    | add m fd =>
      obtain ⟨_, rfl⟩ := tableStep_add h
      exact if_neg hne.symm
    | delete m =>
      cases h
      exact if_neg hne.symm
  exact hnew.trans (hsame.trans hold.symm)

/-- The table is a map on whole addresses throughout a run exactly if every address added is one
that fills its key. -/
theorem run_isMap_iff {tr : List (Step (Proxy × List TableOp) TableOp)} {s : Proxy × List TableOp}
    (hr : TableRun tr s) :
    ((IsMap s ∧ ∀ x ∈ tr, IsMap x.pre) ∧ ∀ x ∈ tr, KeepsOthers x) ↔
      ∀ x ∈ tr, AddsWholeKey x.input := by
  have hstart : Distinct Proxy.start := ⟨List.nodup_nil, by simp [Proxy.start]⟩
  have hiff := Run.holds_iff (J := fun s => Distinct s.1) (P := IsMap)
    (C := fun _ op => AddsWholeKey op) hstart (fun _ => rfl)
    (fun _ _ _ hd _ hc h => tableStep_distinct hd hc h)
    (fun _ _ _ hd hm h => tableStep_isMap_iff hd hm h) hr
  constructor
  · intro h
    exact hiff.mp h.1
  · intro hc
    obtain ⟨hs, hpre⟩ := hiff.mpr hc
    have hpost := hr.post_holds hs hpre
    exact ⟨⟨hs, hpre⟩, fun x hx => keepsOthers_of_isMap (hr.step_of_mem x hx) (hpre x hx) (hpost x hx)⟩

/-- Two addresses of one vendor whose first byte is zero share the empty key. -/
theorem zero_byte_shares_entry : ∃ tr s, TableRun tr s ∧ ¬ IsMap s := by
  have hr : TableRun _ _ := Run.replay (fun _ _ _ hs => hs)
    [.add ⟨[0, 22, 62, 0, 0, 1], rfl⟩ 4] .start rfl
  refine ⟨_, _, hr, fun hm => ?_⟩
  have hfind := hm ⟨[0, 22, 62, 0, 0, 2], rfl⟩
  revert hfind
  decide

/-- An address is added and deleted again. -/
theorem whole_key_isMap : ∃ tr s, TableRun tr s ∧ tr.length = 2 ∧
    ((IsMap s ∧ ∀ x ∈ tr, IsMap x.pre) ∧ ∀ x ∈ tr, KeepsOthers x) := by
  have hr : TableRun _ _ := Run.replay (fun _ _ _ hs => hs)
    [.add ⟨[2, 22, 62, 7, 9, 0], rfl⟩ 4, .delete ⟨[2, 22, 62, 7, 9, 0], rfl⟩] .start rfl
  exact ⟨_, _, hr, rfl, (run_isMap_iff hr).mpr (by decide)⟩

end Cs352Proxy
