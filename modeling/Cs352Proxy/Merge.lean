import Cs352Proxy.Knowledge
import Cs352Proxy.Learn
import Cs352Proxy.RoundTrip

/-!
# Merge

Does `add_members` look at every received link once? It goes on through `ptr->next`, which
`add_member_connect` redirects to the membership list when it stores the node. So the walk sees the
whole received list only if it stores nothing before the last node, and ends there only if the last
node is not stored either or the membership list is empty.
-/

namespace Cs352Proxy

open Base

/-- The loop of `add_members` with the nodes it calls `add_member_connect` on, in order. -/
def addMembersCalls (env : Env) (fuel : Nat) (now : U64) (gatewaySockID : Int) :
    Nat → Ptr → Proxy → Option (List Addr × Proxy)
  | 0, _, _ => none
  | _ + 1, none, st => some ([], st)
  | n + 1, some ptr, st => do
    let (next, st) ← addMembersStep env fuel now gatewaySockID ptr st
    let (calls, st) ← addMembersCalls env fuel now gatewaySockID n next st
    some (ptr :: calls, st)

theorem addMembersLoop_eq_calls (env : Env) (fuel : Nat) (now : U64) (gw : Int) (n : Nat) (p : Ptr)
    (st : Proxy) :
    addMembersLoop env fuel now gw n p st = (addMembersCalls env fuel now gw n p st).map Prod.snd := by
  induction n generalizing p st with
  | zero => rfl
  | succ n ih =>
    cases p with
    | none => rfl
    | some ptr =>
      simp only [addMembersLoop, addMembersCalls, Option.bind_eq_bind]
      cases addMembersStep env fuel now gw ptr st with
      | none => rfl
      | some r =>
        simp only [Option.bind_some, ih]
        cases addMembersCalls env fuel now gw n r.1 r.2 <;> rfl

theorem addMembersCalls_some {env : Env} {fuel : Nat} {now : U64} {gw : Int} {n : Nat} {a : Addr}
    {calls : List Addr} {st st' : Proxy}
    (h : addMembersCalls env fuel now gw (n + 1) (some a) st = some (calls, st')) :
    ∃ p st₁ rest, addMembersStep env fuel now gw a st = some (p, st₁) ∧
      addMembersCalls env fuel now gw n p st₁ = some (rest, st') ∧ calls = a :: rest := by
  simp only [addMembersCalls, Option.bind_eq_bind, Option.bind_eq_some_iff] at h
  obtain ⟨⟨p, st₁⟩, hstep, ⟨rest, st₂⟩, hrest, h⟩ := h
  cases h
  exact ⟨p, st₁, rest, hstep, hrest, rfl⟩

/-- Whether a link would be stored does not depend on the times of the stored links. -/
theorem keep_stores (env : Env) (now : U64) (r r' : Link) (t : Topology) :
    (t.keep now r).stores env r' = t.stores env r' := by
  simp only [Topology.stores, Topology.route, Topology.keep_routes, Topology.keep_any_reverses]

theorem addMembersCalls_head {env : Env} {fuel : Nat} {now : U64} {gw : Int} {n : Nat} {p : Ptr}
    {calls : List Addr} {st st' : Proxy}
    (h : addMembersCalls env fuel now gw n p st = some (calls, st')) : calls.head? = p := by
  cases n with
  | zero => cases h
  | succ n =>
    cases p with
    | none => cases h; rfl
    | some a => obtain ⟨_, _, _, _, _, rfl⟩ := addMembersCalls_some h; rfl

/-- Of the links `ls`, only the last one would be stored, and that only on an empty list. -/
def StaysOnList (env : Env) (t : Topology) (ls : List Link) : Prop :=
  ∀ pre r post, ls = pre ++ r :: post → t.stores env r → t.links = [] ∧ post = []

section Stays

variable {env : Env} {t : Topology} {r : Link} {ls : List Link}

theorem staysOnList_cons_of_not (hr : t.stores env r = false) :
    StaysOnList env t (r :: ls) ↔ StaysOnList env t ls := by
  constructor
  · intro hstays pre r' post hsplit
    exact hstays (r :: pre) r' post (by rw [hsplit]; rfl)
  · intro hstays pre r' post hsplit hstores
    cases pre with
    | nil =>
      obtain ⟨rfl, _⟩ := List.cons.inj hsplit
      rw [hr] at hstores
      cases hstores
    | cons z pre => exact hstays pre r' post (List.cons.inj hsplit).2 hstores

theorem staysOnList_cons_of_stores (hr : t.stores env r = true) :
    StaysOnList env t (r :: ls) ↔ t.links = [] ∧ ls = [] := by
  constructor
  · intro hstays
    exact hstays [] r ls rfl hr
  · intro hc pre r' post hsplit _
    obtain ⟨hlinks, rfl⟩ := hc
    have hlen := congrArg List.length hsplit
    simp only [List.length_cons, List.length_append, List.length_nil] at hlen
    exact ⟨hlinks, List.length_eq_zero_iff.mp (by omega)⟩

theorem staysOnList_keep (now : U64) (r' : Link) :
    StaysOnList env (t.keep now r') ls ↔ StaysOnList env t ls := by
  have hnil : (t.keep now r').links = [] ↔ t.links = [] := by
    rw [← List.length_eq_zero_iff, Topology.length_keep, List.length_eq_zero_iff]
  simp only [StaysOnList, keep_stores, hnil]

end Stays

section Walk

variable {env : Env} {fuel : Nat} {now : U64} {gw : Int}

theorem Shows.links_eq_nil {st : Proxy} {t : Topology} {cells : Cells} (hs : Shows st t cells) :
    t.links = [] ↔ cells = [] := by
  rw [← hs.links]
  exact List.map_eq_nil_iff

theorem addMembersCalls_stays (n : Nat) :
    ∀ {p : Ptr} {st st' : Proxy} {t : Topology} {cells new : Cells},
      addMembersCalls env fuel now gw n p st = some (new.map Prod.fst, st') → Shows st t cells →
      NodeList st.heap p new → (∀ x ∈ new, x.1 ∉ cells.map Prod.fst) → StaysOnList env t new.links := by
  induction n with
  | zero => intro p st st' t cells new h; cases h
  | succ n ih =>
    intro p st st' t cells new h hs hnew hoff
    cases new with
    | nil => intro pre r post hsplit; cases pre <;> cases hsplit
    | cons x new =>
      rw [hnew.1] at h
      obtain ⟨p₁, st₁, rest, hstep, hrest, hcalls⟩ := addMembersCalls_some h
      obtain ⟨_, rfl⟩ := List.cons.inj hcalls
      rw [Cells.links_cons]
      rcases addMembersStep_refines hs hnew hoff hstep with
        ⟨hst, cells', _, hs₁, hnew₁, hoff₁⟩ | ⟨hst, hp₁, _⟩
      · exact (staysOnList_cons_of_not hst).mpr ((staysOnList_keep now _).mp (ih hrest hs₁ hnew₁ hoff₁))
      · -- the walk goes on with the membership list, where no received node is
        have hhead := addMembersCalls_head hrest
        rw [hp₁] at hhead
        refine (staysOnList_cons_of_stores hst).mpr ?_
        have hlist := hs.list
        rw [← hhead] at hlist
        cases new with
        | nil =>
          cases cells with
          | nil => exact ⟨hs.links_eq_nil.mpr rfl, rfl⟩
          | cons y cells => cases hlist.1
        | cons y new =>
          cases cells with
          | nil => cases hlist
          | cons z cells =>
            have hyz : y.1 = z.1 := Option.some.inj hlist.1
            exact absurd (by simp [hyz]) (hoff y (by simp))

theorem addMembersStep_isSome {a : Addr} {st : Proxy} {cells : Cells} {recv : LinkstateNode}
    (hlist : NodeList st.heap st.memList.head cells) (hr : st.heap[a]? = some recv)
    (hfuel : cells.length < fuel) :
    ∃ p₁ st₁, addMembersStep env fuel now gw a st = some (p₁, st₁) := by
  have hsome : ∃ st₁, addMemberConnect env fuel now gw a st = some st₁ :=
    addMemberConnect_isSome hlist hr hfuel
  obtain ⟨st₁, hcall⟩ := hsome
  have hremote := addMemberConnect_remote hcall a
  rw [hr] at hremote
  obtain ⟨node, hnode, _⟩ := Option.map_eq_some_iff.mp hremote
  exact ⟨node.next, st₁, by simp [addMembersStep, hcall, hnode]⟩

theorem addMembersCalls_of_stays (n : Nat) :
    ∀ {p : Ptr} {st : Proxy} {t : Topology} {cells new : Cells}, StaysOnList env t new.links →
      Shows st t cells → NodeList st.heap p new → (∀ x ∈ new, x.1 ∉ cells.map Prod.fst) →
      cells.length < fuel → new.length < n →
      ∃ st', addMembersCalls env fuel now gw n p st = some (new.map Prod.fst, st') := by
  induction n with
  | zero => intros; omega
  | succ n ih =>
    intro p st t cells new hstays hs hnew hoff hfuel hn
    cases new with
    | nil =>
      cases hnew
      exact ⟨st, rfl⟩
    | cons x new =>
      have hsome : ∃ p₁ st₁, addMembersStep env fuel now gw x.1 st = some (p₁, st₁) :=
        addMembersStep_isSome hs.list hnew.2.1 hfuel
      obtain ⟨p₁, st₁, hstep⟩ := hsome
      have hrest : ∃ st', addMembersCalls env fuel now gw n p₁ st₁ = some (new.map Prod.fst, st') := by
        rw [Cells.links_cons] at hstays
        rcases addMembersStep_refines hs hnew hoff hstep with
          ⟨hst, cells', hlen, hs₁, hnew₁, hoff₁⟩ | ⟨hst, hp₁, _⟩
        · have hstays₁ := (staysOnList_keep now x.2.toLink).mpr ((staysOnList_cons_of_not hst).mp hstays)
          exact ih hstays₁ hs₁ hnew₁ hoff₁ (by omega) (Nat.lt_of_succ_lt_succ hn)
        · obtain ⟨hlinks, hnil⟩ := (staysOnList_cons_of_stores hst).mp hstays
          have hcells := hs.links_eq_nil.mp hlinks
          subst hcells
          have hnew₁ : new = [] := List.map_eq_nil_iff.mp hnil
          subst hnew₁
          rw [hp₁, show st.memList.head = none from hs.list]
          obtain ⟨n, rfl⟩ := Nat.exists_eq_add_one.mpr (Nat.lt_of_succ_lt_succ hn)
          exact ⟨st₁, rfl⟩
      obtain ⟨st', hcalls⟩ := hrest
      rw [hnew.1]
      exact ⟨st', by simp [addMembersCalls, hstep, hcalls]⟩

end Walk

/-- `add_members` returns after one call on each received node, in order, exactly if it stores none
of them, or only the last one and that on an empty list. -/
theorem callsEach_iff (env : Env) (now : U64) (gw : Int) {list : Ptr} {st : Proxy}
    {cells new : Cells} (hlist : NodeList st.heap st.memList.head cells)
    (hnew : NodeList st.heap list new) (hoff : ∀ x ∈ new, x.1 ∉ cells.map Prod.fst) :
    (∃ fuel st', addMembersCalls env fuel now gw fuel list st = some (new.map Prod.fst, st')) ↔
      StaysOnList env (st.topology cells) new.links := by
  have hs := shows_topology hlist
  constructor
  · intro h
    obtain ⟨fuel, st', h⟩ := h
    exact addMembersCalls_stays fuel h hs hnew hoff
  · intro hstays
    exact ⟨cells.length + new.length + 1,
      addMembersCalls_of_stays _ hstays hs hnew hoff (by omega) (by omega)⟩

/-- `host 1`, which only knows its peer `host 2`, on a list received from there. -/
def peered (received : List LinkstateNode) : Proxy :=
  { heap := { linkTo (host 1) (host 2) with next := none } :: received
    memList := { head := some 0, size := 1 }
    socketfds := [{ macaddr := (host 2).macaddr, sockFd := 4 }]
    trace := [] }

/-- `host 2` has a third neighbour: the new link is stored, and the walk leaves the received list. -/
theorem third_host_ends_walk : ∃ (env : Env) (now : U64) (gw : Int) (list : Ptr) (st : Proxy)
    (cells new : Cells), NodeList st.heap st.memList.head cells ∧ NodeList st.heap list new ∧
      (∀ x ∈ new, x.1 ∉ cells.map Prod.fst) ∧
      ¬ ∃ fuel st', addMembersCalls env fuel now gw fuel list st = some (new.map Prod.fst, st') := by
  let known : LinkstateNode := { linkTo (host 1) (host 2) with next := none }
  let third : LinkstateNode := { linkTo (host 2) (host 3) with next := some 2 }
  let back : LinkstateNode := { linkTo (host 2) (host 1) with next := none }
  let st := peered [third, back]
  have hlist : NodeList st.heap st.memList.head [(0, known)] := ⟨rfl, rfl, rfl⟩
  have hnew : NodeList st.heap (some 1) [(1, third), (2, back)] := ⟨rfl, rfl, rfl, rfl, rfl⟩
  refine ⟨hostEnv 1, 7, 4, some 1, st, [(0, known)], _, hlist, hnew, by decide, fun h => ?_⟩
  obtain ⟨fuel, st', h⟩ := h
  have hstays := addMembersCalls_stays fuel h (shows_topology hlist) hnew (by decide)
  have hempty := (hstays [] third.toLink [back.toLink] rfl (by decide)).1
  cases hempty

/-- Links back to `host 1` are not stored, and each of them is looked at. -/
theorem own_links_are_called : ∃ fuel st',
    addMembersCalls (hostEnv 1) fuel 7 4 fuel (some 1)
      (peered [{ linkTo (host 2) (host 1) with next := some 2 },
        { linkTo (host 5) (host 1) with next := none }]) = some ([1, 2], st') := by
  let known : LinkstateNode := { linkTo (host 1) (host 2) with next := none }
  let second : LinkstateNode := { linkTo (host 2) (host 1) with next := some 2 }
  let fifth : LinkstateNode := { linkTo (host 5) (host 1) with next := none }
  let st := peered [second, fifth]
  have hlist : NodeList st.heap st.memList.head [(0, known)] := ⟨rfl, rfl, rfl⟩
  have hnew : NodeList st.heap (some 1) [(1, second), (2, fifth)] := ⟨rfl, rfl, rfl, rfl, rfl⟩
  have hnone : ∀ r ∈ [second.toLink, fifth.toLink],
      (st.topology [(0, known)]).stores (hostEnv 1) r = false := by decide
  refine (callsEach_iff (hostEnv 1) 7 4 hlist hnew (by decide)).mpr fun pre r post hsplit hstores => ?_
  have hmem : r ∈ [second.toLink, fifth.toLink] := by
    rw [show [second.toLink, fifth.toLink] = pre ++ r :: post from hsplit]
    simp
  rw [hnone r hmem] at hstores
  cases hstores

end Cs352Proxy
