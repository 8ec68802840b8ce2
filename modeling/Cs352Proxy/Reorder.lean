import Cs352Proxy.Readvertise

/-!
# Reorder

Does it matter which of two links is heard of first? Which addresses are known afterwards does not
depend on it. Which links are stored does: a link is turned down when the opposite link came before
it, and a link to an unknown address is stored without that test.

* `Disturbs`: storing one link changes whether the other one is stored.
* `reorder_pairs_iff`, `reorder_keys`: what two orders have in common.
-/

namespace Cs352Proxy

open Base

namespace Topology

variable {env : Env}

/-- Storing `l` first changes whether `r` is stored. Either the MAC address of `r` is known and `l` is
the first link opposite to `r`; or `l` makes that address known, and then `r` is tested for opposite
links and no longer for its address. -/
def Disturbs (env : Env) (t : Topology) (l r : Link) : Prop :=
  t.stores env l = true ∧
    (r.remoteInfo.macaddr.key ∈ t.keys ∧ reverses r l = true ∧ t.links.any (reverses r) = false ∨
      r.remoteInfo.macaddr.key ∉ t.keys ∧ l.remoteInfo.macaddr.key = r.remoteInfo.macaddr.key ∧
        (Foreign env r.remoteInfo.macaddr ↔
          reverses r l = true ∨ t.links.any (reverses r) = true))

instance (env : Env) (t : Topology) (l r : Link) : Decidable (Disturbs env t l r) :=
  inferInstanceAs (Decidable (_ ∧ (_ ∧ _ ∧ _ ∨ _ ∧ _ ∧ (_ ↔ _))))

theorem learn_stores_iff (env : Env) (now : U64) (gw : Int) (l r : Link) (t : Topology) :
    (t.learn env now gw l).stores env r ≠ t.stores env r ↔ Disturbs env t l r := by
  unfold Disturbs
  by_cases hl : t.stores env l = true
  · have hkey := mem_keys_learn env now gw l t r.remoteInfo.macaddr.key
    have hany := learn_any_reverses env now gw l r t
    rw [hl, Bool.true_and] at hany
    rw [ne_eq, Bool.eq_iff_iff]
    by_cases hknown : r.remoteInfo.macaddr.key ∈ t.keys
    · have hknown' := hkey.mpr (.inl hknown)
      rw [stores_of_known hknown, stores_of_known hknown', hany]
      cases t.links.any (reverses r) <;> cases reverses r l <;> simp [hl, hknown]
    · rw [stores_of_unknown hknown]
      by_cases hsame : l.remoteInfo.macaddr.key = r.remoteInfo.macaddr.key
      · have hlunknown : l.remoteInfo.macaddr.key ∉ t.keys := hsame ▸ hknown
        have hknown' := hkey.mpr (.inr ⟨(stores_of_unknown hlunknown).mp hl, hsame.symm⟩)
        rw [stores_of_known hknown', hany]
        by_cases hforeign : Foreign env r.remoteInfo.macaddr <;>
          cases t.links.any (reverses r) <;> cases reverses r l <;> simp [hl, hknown, hsame, hforeign]
      · have hunknown : r.remoteInfo.macaddr.key ∉ (t.learn env now gw l).keys := by
          rw [hkey]
          exact fun h => h.elim hknown fun heq => hsame heq.2.symm
        rw [stores_of_unknown hunknown]
        simp [hknown, hsame]
  · have hkeep : t.learn env now gw l = t.keep now l := if_neg hl
    simp [hkeep, keep_stores, hl]

theorem mem_pairs_learn (env : Env) (now : U64) (gw : Int) (r : Link) (t : Topology)
    (p : ProxyInfo × ProxyInfo) :
    p ∈ (t.learn env now gw r).pairs ↔ p ∈ t.pairs ∨ (t.stores env r = true ∧ p = ends r) := by
  rw [learn_pairs]
  split <;> rename_i hst <;> simp [hst, or_comm]

section Orders

variable (env : Env) (n₁ n₂ m₁ m₂ : U64) (gw : Int) (l₁ l₂ : Link) (t : Topology)

theorem reorder_keys (k : List U8) :
    k ∈ ((t.learn env n₁ gw l₁).learn env n₂ gw l₂).keys ↔
      k ∈ ((t.learn env m₂ gw l₂).learn env m₁ gw l₁).keys := by
  rw [mem_keys_learn, mem_keys_learn, mem_keys_learn, mem_keys_learn, or_right_comm]

/-- Both orders store the same pairs exactly if neither link disturbs the other one, unless that one
has been there before or both are the same. -/
theorem reorder_pairs_iff :
    (∀ p, p ∈ ((t.learn env n₁ gw l₁).learn env n₂ gw l₂).pairs ↔
      p ∈ ((t.learn env m₂ gw l₂).learn env m₁ gw l₁).pairs) ↔
    ends l₁ = ends l₂ ∨
      (Disturbs env t l₂ l₁ → ends l₁ ∈ t.pairs) ∧ (Disturbs env t l₁ l₂ → ends l₂ ∈ t.pairs) := by
  simp only [mem_pairs_learn]
  have h₁ := learn_stores_iff env m₂ gw l₂ l₁ t
  have h₂ := learn_stores_iff env n₁ gw l₁ l₂ t
  constructor
  · intro h
    by_cases hends : ends l₁ = ends l₂
    · exact .inl hends
    · refine .inr ⟨fun hd => ?_, fun hd => ?_⟩
      · by_contra hnew
        have hp := h (ends l₁)
        simp only [hnew, hends, false_or, and_true, and_false, or_false] at hp
        exact h₁.mpr hd (Bool.eq_iff_iff.mpr hp.symm)
      · by_contra hnew
        have hp := h (ends l₂)
        simp only [hnew, Ne.symm hends, false_or, and_true, and_false, or_false] at hp
        exact h₂.mpr hd (Bool.eq_iff_iff.mpr hp)
  · intro hcond p
    rcases hcond with hends | ⟨hd₁, hd₂⟩
    · -- one and the same link: if it is stored at all, then by the first call
      have hsame : t.stores env l₁ = t.stores env l₂ := stores_of_ends hends env t
      rw [← hends, ← hsame]
      by_cases hst : t.stores env l₁ = true
      · simp only [hst, true_and]
        constructor <;> rintro ((hp | rfl) | ⟨_, rfl⟩) <;> simp [*]
      · have hnot : ∀ {l l' : Link}, t.stores env l ≠ true → ¬ Disturbs env t l l' := fun hl hd => hl hd.1
        have hst₂ : t.stores env l₂ ≠ true := hsame ▸ hst
        rw [not_not.mp (mt h₁.mp (hnot hst₂)), not_not.mp (mt h₂.mp (hnot hst)), ← hsame]
    · have hmem : ∀ {l l' : Link} {b : Bool}, (b ≠ t.stores env l' ↔ Disturbs env t l l') →
          (Disturbs env t l l' → ends l' ∈ t.pairs) →
          (p ∈ t.pairs ∨ b = true ∧ p = ends l' ↔ p ∈ t.pairs ∨ t.stores env l' = true ∧ p = ends l') := by
        intro l l' b hb hd
        by_cases hdist : Disturbs env t l l'
        · have hin := hd hdist
          constructor <;> rintro (hp | ⟨_, rfl⟩) <;> exact .inl ‹_›
        · rw [not_not.mp (mt hb.mp hdist)]
      have e₁ := hmem h₁ hd₁
      have e₂ := hmem h₂ hd₂
      rw [or_right_comm, e₂, or_right_comm, ← e₁, or_right_comm]

end Orders

end Topology

/-! ## On the pointers -/

/-- Two fresh records from one gateway, handled in either order: the same pairs are stored and the
same keys are known. -/
def OrderFree (env : Env) (n₁ n₂ m₁ m₂ : U64) (gw : Int) (r₁ r₂ : LinkstateNode) (st : Proxy) : Prop :=
  ∃ st₁ st₁₂ st₂ st₂₁, HearsOf env n₁ gw r₁ st st₁ ∧ HearsOf env n₂ gw r₂ st₁ st₁₂ ∧
    HearsOf env m₂ gw r₂ st st₂ ∧ HearsOf env m₁ gw r₁ st₂ st₂₁ ∧
    (∃ ps ∈ st₁₂.pairs, ∃ ps' ∈ st₂₁.pairs, ∀ p, p ∈ ps ↔ p ∈ ps') ∧
    ∀ k, k ∈ st₁₂.socketfds.map ProxySocketfd.key ↔ k ∈ st₂₁.socketfds.map ProxySocketfd.key

section Pointers

variable {env : Env} {n₁ n₂ m₁ m₂ : U64} {gw : Int} {r₁ r₂ : LinkstateNode} {st : Proxy}
  {cells : Cells}

theorem orderFree_iff (hlist : NodeList st.heap st.memList.head cells) :
    OrderFree env n₁ n₂ m₁ m₂ gw r₁ r₂ st ↔
      Topology.ends r₁.toLink = Topology.ends r₂.toLink ∨
        (Topology.Disturbs env (st.topology cells) r₂.toLink r₁.toLink →
          Topology.ends r₁.toLink ∈ cells.links.map Topology.ends) ∧
        (Topology.Disturbs env (st.topology cells) r₁.toLink r₂.toLink →
          Topology.ends r₂.toLink ∈ cells.links.map Topology.ends) := by
  have hs := shows_topology hlist
  have hpairs := Topology.reorder_pairs_iff env n₁ n₂ m₁ m₂ gw r₁.toLink r₂.toLink (st.topology cells)
  have hkeys := Topology.reorder_keys env n₁ n₂ m₁ m₂ gw r₁.toLink r₂.toLink (st.topology cells)
  refine Iff.trans ?_ hpairs
  constructor
  · intro h
    obtain ⟨st₁, st₁₂, st₂, st₂₁, ha₁, ha₁₂, ha₂, ha₂₁, ⟨ps, hps, ps', hps', hsame⟩, _⟩ := h
    obtain ⟨_, hs₁⟩ := ha₁.learn hs
    obtain ⟨_, hs₁₂⟩ := ha₁₂.learn hs₁
    obtain ⟨_, hs₂⟩ := ha₂.learn hs
    obtain ⟨_, hs₂₁⟩ := ha₂₁.learn hs₂
    rw [hs₁₂.pairs_eq] at hps
    rw [hs₂₁.pairs_eq] at hps'
    cases hps
    cases hps'
    exact hsame
  · intro h
    obtain ⟨st₁, ha₁, _, hs₁⟩ := exists_hearsOf env n₁ gw r₁ hs
    obtain ⟨st₁₂, ha₁₂, _, hs₁₂⟩ := exists_hearsOf env n₂ gw r₂ hs₁
    obtain ⟨st₂, ha₂, _, hs₂⟩ := exists_hearsOf env m₂ gw r₂ hs
    obtain ⟨st₂₁, ha₂₁, _, hs₂₁⟩ := exists_hearsOf env m₁ gw r₁ hs₂
    refine ⟨st₁, st₁₂, st₂, st₂₁, ha₁, ha₁₂, ha₂, ha₂₁,
      ⟨_, hs₁₂.pairs_eq, _, hs₂₁.pairs_eq, h⟩, fun k => ?_⟩
    rw [hs₁₂.routes, hs₂₁.routes]
    exact hkeys k

end Pointers

/-- In every state of a run, the order of two links does not matter exactly if they are the same link
or neither disturbs the other one, unless that one was stored before. -/
theorem run_orderFree_iff {env : Env} {tr : List (Step Proxy KeyOp)} {st : Proxy}
    (hr : KeyRun env tr st) : ∃ cells : Cells, NodeList st.heap st.memList.head cells ∧
      ∀ (n₁ n₂ m₁ m₂ : U64) (gw : Int) (r₁ r₂ : LinkstateNode),
        OrderFree env n₁ n₂ m₁ m₂ gw r₁ r₂ st ↔
          Topology.ends r₁.toLink = Topology.ends r₂.toLink ∨
            (Topology.Disturbs env (st.topology cells) r₂.toLink r₁.toLink →
              Topology.ends r₁.toLink ∈ cells.links.map Topology.ends) ∧
            (Topology.Disturbs env (st.topology cells) r₁.toLink r₂.toLink →
              Topology.ends r₂.toLink ∈ cells.links.map Topology.ends) := by
  obtain ⟨cells, hlist, _⟩ := hr.covered
  exact ⟨cells, hlist, fun _ _ _ _ _ _ _ => orderFree_iff hlist⟩

/-- The hosts 2 and 3 are connected. Their link is stored in the direction that is heard of first. -/
theorem first_direction_wins : ∃ env tr st n₁ n₂ m₁ m₂ gw r₁ r₂, KeyRun env tr st ∧
    ¬ OrderFree env n₁ n₂ m₁ m₂ gw r₁ r₂ st := by
  let r₁ : LinkstateNode := { linkTo (host 2) (host 3) with next := none }
  let r₂ : LinkstateNode := { linkTo (host 3) (host 2) with next := none }
  obtain ⟨tr, st, hr, cells, hcells, hdisturbs, hnew⟩ := exists_keyRun (hostEnv 1) 3
    [.packet (hostEnv 1).uninit 4 0 (fromHost 2), .packet (hostEnv 1).uninit 5 0 (fromHost 3)]
    (p := fun r => ∃ cells ∈ r.2.members,
      Topology.Disturbs (hostEnv 1) (r.2.topology cells) r₂.toLink r₁.toLink ∧
        Topology.ends r₁.toLink ∉ cells.links.map Topology.ends) (by decide +kernel)
  refine ⟨hostEnv 1, tr, st, 1, 2, 2, 1, 4, r₁, r₂, hr, fun h => ?_⟩
  rcases (orderFree_iff (members_eq_some.mp hcells)).mp h with h | ⟨h, _⟩
  · revert h
    decide
  · exact hnew (h hdisturbs)

/-- Two links of `host 2` to hosts that nobody knew. -/
theorem two_new_hosts_commute : ∃ tr st, KeyRun (hostEnv 1) tr st ∧ st.memList.size = 1 ∧
    OrderFree (hostEnv 1) 1 2 3 4 4 { linkTo (host 2) (host 3) with next := none }
      { linkTo (host 2) (host 5) with next := none } st := by
  let r₁ : LinkstateNode := { linkTo (host 2) (host 3) with next := none }
  let r₂ : LinkstateNode := { linkTo (host 2) (host 5) with next := none }
  obtain ⟨tr, st, hr, hsize, hnone⟩ := exists_keyRun (hostEnv 1) 3
    [.packet (hostEnv 1).uninit 4 0 (fromHost 2)]
    (p := fun r => r.2.memList.size = 1 ∧ ∀ cells ∈ r.2.members,
      ¬ Topology.Disturbs (hostEnv 1) (r.2.topology cells) r₂.toLink r₁.toLink ∧
        ¬ Topology.Disturbs (hostEnv 1) (r.2.topology cells) r₁.toLink r₂.toLink) (by decide +kernel)
  obtain ⟨cells, hlist, hall⟩ := run_orderFree_iff hr
  obtain ⟨h₂₁, h₁₂⟩ := hnone cells (members_eq_some.mpr hlist)
  exact ⟨tr, st, hr, hsize, (hall 1 2 3 4 4 r₁ r₂).mpr
    (.inr ⟨fun hd => absurd hd h₂₁, fun hd => absurd hd h₁₂⟩)⟩

end Cs352Proxy
