import Cs352Proxy.System
import Cs352Proxy.Knowledge
import Cs352Proxy.Trace
import Mathlib.Data.List.Perm.Subperm

/-!
# Locking

Does a thread hold `deleterlock` whenever it writes the membership list, and let go of it exactly
when it holds it? Adding links always does. In a sweep `deletesockfd` releases the lock when the
table has no entry for the node that is being deleted, and `delete_members` then writes the list
without it. So a sweep is right exactly if the table has an entry for every expired node, and two
entries when two of them have one key.
-/

namespace Cs352Proxy

open Base

/-- The lock, held or not, after an event. `none` if the event is not allowed there: a write or an
unlock without the lock, or a lock that would wait for itself. -/
def lockStep (held : Bool) : Event → Option Bool
  | .lock => if held then none else some true
  | .unlock => if held then some false else none
  | .writeHead _ | .writeSize _ | .writeNext _ _ => if held then some true else none
  | .tapWrite .. | .send .. => some held

/-- The lock after some events, latest first. -/
def lockAfter (held : Bool) : List Event → Option Bool
  | [] => some held
  | ev :: evs => (lockAfter held evs).bind fun b => lockStep b ev

theorem lockAfter_append (held : Bool) (evs' evs : List Event) :
    lockAfter held (evs' ++ evs) = (lockAfter held evs).bind fun b => lockAfter b evs' := by
  induction evs' with
  | nil => simp [lockAfter]
  | cons ev evs' ih =>
    simp only [List.cons_append, lockAfter, ih, Option.bind_assoc]

/-- The events from `st` to `st'` take the lock from `held` to `after`. -/
def Locks (held : Bool) (after : Option Bool) (st st' : Proxy) : Prop :=
  ∃ evs, st'.trace = evs ++ st.trace ∧ lockAfter held evs = after

/-- A thread that starts without the lock writes the list only while it holds the lock, unlocks
only what it holds, and ends without the lock. -/
def Disciplined (st st' : Proxy) : Prop := Locks false (some false) st st'

namespace Locks

variable {held b : Bool} {after after' : Option Bool} {st st₁ st' : Proxy}

theorem trans (h : Locks held (some b) st st₁) (h' : Locks b after st₁ st') :
    Locks held after st st' := by
  obtain ⟨evs, htrace, hlock⟩ := h
  obtain ⟨evs', htrace', hlock'⟩ := h'
  refine ⟨evs' ++ evs, by rw [htrace', htrace, List.append_assoc], ?_⟩
  rw [lockAfter_append, hlock, Option.bind_some, hlock']

/-- Nothing that follows mends a breach. -/
theorem broken (h : Locks held none st st₁) (h' : Locks b after st₁ st') :
    Locks held none st st' := by
  obtain ⟨evs, htrace, hlock⟩ := h
  obtain ⟨evs', htrace', _⟩ := h'
  refine ⟨evs' ++ evs, by rw [htrace', htrace, List.append_assoc], ?_⟩
  rw [lockAfter_append, hlock, Option.bind_none]

theorem unique (h : Locks held after st st') (h' : Locks held after' st st') : after = after' := by
  obtain ⟨evs, htrace, hlock⟩ := h
  obtain ⟨evs', htrace', hlock'⟩ := h'
  rw [htrace] at htrace'
  rw [← hlock, ← hlock', List.append_cancel_right htrace']

end Locks

instance (st st' : Proxy) : Decidable (Disciplined st st') :=
  decidable_of_iff
    (lockAfter false (st'.trace.take (st'.trace.length - st.trace.length)) = some false ∧
      st'.trace = st'.trace.take (st'.trace.length - st.trace.length) ++ st.trace)
    ⟨fun h => ⟨_, h.2, h.1⟩, fun h => by
      obtain ⟨evs, htrace, hlock⟩ := h
      simp [htrace, hlock]⟩

/-! ## Adding links -/

theorem addMemberConnect_disciplined {env : Env} {fuel : Nat} {now : U64} {gw : Int} {a : Addr}
    {st st' : Proxy} (h : addMemberConnect env fuel now gw a st = some st') : Disciplined st st' := by
  rcases addMemberConnect_trace h with htrace | ⟨n, p, htrace⟩
  · exact ⟨[.unlock, .lock], htrace, rfl⟩
  · exact ⟨[.unlock, .writeSize n, .writeHead (some a), .writeNext a p, .lock], htrace, rfl⟩

theorem addMembersLoop_disciplined {env : Env} {fuel : Nat} {now : U64} {gw : Int} (n : Nat) {p : Ptr}
    {st st' : Proxy} (h : addMembersLoop env fuel now gw n p st = some st') : Disciplined st st' :=
  addMembersLoop_induction (P := Disciplined) (fun _ => ⟨[], rfl, rfl⟩)
    (fun hcall hrest => (addMemberConnect_disciplined hcall).trans hrest) n h

/-! ## Sweeping -/

theorem deleteNode_locks (prev : Ptr) (x : LinkstateNode) (st : Proxy) :
    Locks true (if x.remoteInfo.macaddr.key ∈ st.socketfds.map ProxySocketfd.key then some true else none)
      st (st.deleteNode prev x) := by
  cases hroute : st.findSocketfd x.remoteInfo.macaddr with
  | none =>
    -- the entry is missing, so the lock is released before the two writes
    have hkey := lookup_none.mp hroute
    rw [if_neg hkey]
    unfold Proxy.deleteNode Proxy.deletesockfd
    simp only [hroute]
    cases prev with
    | none => exact ⟨[.writeSize _, .writeHead x.next, .unlock], rfl, rfl⟩
    | some p => exact ⟨[.writeSize _, .writeNext p x.next, .unlock], rfl, rfl⟩
  | some e =>
    obtain ⟨hmem, hkey⟩ := lookup_some hroute
    rw [if_pos (List.mem_map.mpr ⟨e, hmem, hkey⟩)]
    unfold Proxy.deleteNode Proxy.deletesockfd
    simp only [hroute]
    cases prev with
    | none => exact ⟨[.writeSize _, .writeHead x.next], rfl, rfl⟩
    | some p => exact ⟨[.writeSize _, .writeNext p x.next], rfl, rfl⟩

theorem cons_subperm_iff {α : Type} [DecidableEq α] {a : α} {l₁ l₂ : List α} :
    List.Subperm (a :: l₁) l₂ ↔ a ∈ l₂ ∧ List.Subperm l₁ (l₂.erase a) := by
  constructor
  · intro h
    have herase := h.erase a
    rw [List.erase_cons_head] at herase
    exact ⟨h.subset List.mem_cons_self, herase⟩
  · intro h
    exact ((List.subperm_cons a).mpr h.2).trans (List.perm_cons_erase h.1).symm.subperm

theorem removeExpiredLoop_locks {fuel : Nat} {time timeout : Int} (n : Nat) {p : Ptr}
    {st st' : Proxy} {pre cur : Cells} (h : removeExpiredLoop fuel time timeout n p st = some st')
    (hs : NodeList st.heap st.memList.head (pre ++ cur)) (hcur : NodeList st.heap p cur) :
    Locks true
      (if List.Subperm (Topology.expiredKeys time timeout cur.links) (st.socketfds.map ProxySocketfd.key) then
        some true else none) st st' := by
  refine removeExpiredLoop_induction (P := fun _ cur st => Locks true
    (if List.Subperm (Topology.expiredKeys time timeout (Cells.links cur))
      (st.socketfds.map ProxySocketfd.key) then some true else none) st st') ?done ?delete ?keep n h hs hcur
  case done =>
    intro pre
    exact ⟨[], rfl, by simp [lockAfter, Topology.expiredKeys]⟩
  case delete =>
    intro pre y cur st st₁ hs hexp hdel ih
    obtain ⟨c1, x, c2, c1', _, hx, _, hst, _, hlist, hcur'⟩ := deleteMembers_node hs hdel
    have hdelete := deleteNode_locks (lastOr none c1) x.2 st
    have hloop := ih hlist hcur'
    rw [hst, Proxy.deleteNode_socketfds, keys_remove, hx, ← hst] at hloop
    rw [← hst, hx] at hdelete
    simp only [Cells.links_cons, Topology.expiredKeys_cons, if_pos hexp, cons_subperm_iff]
    by_cases hkey : y.2.remoteInfo.macaddr.key ∈ st.socketfds.map ProxySocketfd.key
    · rw [if_pos hkey] at hdelete
      simpa [hkey] using hdelete.trans hloop
    · rw [if_neg hkey] at hdelete
      simpa [hkey] using hdelete.broken hloop
  case keep =>
    intro pre y cur st hexp ih
    rw [Cells.links_cons, Topology.expiredKeys_cons, if_neg hexp]
    exact ih

/-! ### A sweep that ends -/

theorem deleteMembers_ends {st st' : Proxy} {fuel : Nat} {a : Addr}
    (h : deleteMembers fuel a st = some st') {p : Ptr} {cells : Cells}
    (hs : NodeList st'.heap p cells) : ∃ cells, NodeList st.heap p cells := by
  rcases deleteMembers_cases h with hst | ⟨prev, curr, x, hx, hst, hat⟩
  · rw [hst] at hs
    exact ⟨cells, hs⟩
  · rcases hat with hprev | ⟨b, nb, hprev, hb, hnext⟩
    · rw [hst, hprev] at hs
      exact ⟨cells, by simpa [Proxy.deleteNode] using hs⟩
    · -- put `curr` back behind `b`
      have hheap : st'.heap = st.heap.modify b fun n => { n with next := x.next } := by
        rw [hst, hprev]
        simp [Proxy.deleteNode]
      have hb' : st'.heap[b]? = some { nb with next := x.next } := by simp [hheap, hb]
      exact hs.reinsert hx hb hnext hb' rfl fun y hy => by
        rw [hheap, List.getElem?_modify_ne _ _ hy.symm]

/-- A walk that sweeps to the end walked a null-terminated list. -/
theorem removeExpiredLoop_ends {fuel : Nat} {time timeout : Int} (n : Nat) :
    ∀ {p : Ptr} {st st' : Proxy}, removeExpiredLoop fuel time timeout n p st = some st' →
      ∃ cells, NodeList st.heap p cells := by
  induction n with
  | zero => intro p st st' h; cases h
  | succ n ih =>
    intro p st st' h
    cases p with
    | none => exact ⟨[], rfl⟩
    | some a =>
      obtain ⟨node, hnode, _, hround⟩ := removeExpiredLoop_some h
      have hcons : (∃ cells, NodeList st.heap node.next cells) →
          ∃ cells, NodeList st.heap (some a) cells := fun hrest => by
        obtain ⟨cells, hrest⟩ := hrest
        exact ⟨(a, node) :: cells, rfl, hnode, hrest⟩
      rcases hround with ⟨_, st₁, hdel, h⟩ | ⟨_, h⟩
      · obtain ⟨cells, hrest⟩ := ih h
        exact hcons (deleteMembers_ends hdel hrest)
      · exact hcons (ih h)

/-! ## The operations -/

/-- The operations that take the lock. -/
inductive LockOp where
  | connect (gatewaySockID : Int) (recvNode : Addr)
  | merge (gatewaySockID : Int) (list : Ptr)
  | sweep (linkTimeout : Int)

def LockOp.run (env : Env) (fuel : Nat) (now : U64) (st : Proxy) : LockOp → Option Proxy
  | .connect gw a => addMemberConnect env fuel now gw a st
  | .merge gw p => addMembers env fuel now p gw st
  | .sweep linkTimeout => removeExpiredMembers fuel now linkTimeout st

/-- A sweep finds an entry for each expired node: two nodes with one key need two entries. -/
def LockOp.Covered (now : U64) (st : Proxy) : LockOp → Prop
  | .connect .. | .merge .. => True
  | .sweep linkTimeout =>
    ∃ cells ∈ st.members, List.Subperm (Topology.expiredKeys now.toNat (linkTimeout * 1000) (Cells.links cells))
      (st.socketfds.map ProxySocketfd.key)

instance (now : U64) (st : Proxy) (op : LockOp) : Decidable (op.Covered now st) :=
  match op with
  | .connect .. | .merge .. => inferInstanceAs (Decidable True)
  | .sweep linkTimeout =>
    inferInstanceAs (Decidable (∃ cells ∈ st.members,
      List.Subperm (Topology.expiredKeys now.toNat (linkTimeout * 1000) (Cells.links cells))
        (st.socketfds.map ProxySocketfd.key)))

theorem removeExpiredMembers_disciplined_iff {fuel : Nat} {now : U64} {linkTimeout : Int}
    {st st' : Proxy} (h : removeExpiredMembers fuel now linkTimeout st = some st') :
    Disciplined st st' ↔ (LockOp.sweep linkTimeout).Covered now st := by
  obtain ⟨_, _, st₁, hloop, rfl⟩ := removeExpiredMembers_some h
  obtain ⟨cells, hlist⟩ := removeExpiredLoop_ends fuel hloop
  have hmembers : st.members = some cells := members_eq_some.mpr hlist
  have hall : NodeList (st.emit .lock).heap (st.emit .lock).memList.head ([] ++ cells) := hlist
  have hlocks := removeExpiredLoop_locks fuel hloop hall hlist
  have hlock : Locks false (some true) st (st.emit .lock) := ⟨[.lock], rfl, rfl⟩
  have hunlock : Locks true (some false) st₁ (st₁.emit .unlock) := ⟨[.unlock], rfl, rfl⟩
  unfold LockOp.Covered Disciplined
  simp only [hmembers, Option.mem_def, Option.some.injEq, exists_eq_left']
  split at hlocks
  · rename_i hcov
    exact ⟨fun _ => hcov, fun _ => (hlock.trans hlocks).trans hunlock⟩
  · rename_i hcov
    refine ⟨fun hd => ?_, fun hc => absurd hc hcov⟩
    cases hd.unique ((hlock.trans hlocks).broken hunlock)

/-- An operation keeps the lock discipline exactly if, when it is a sweep, each expired node has an
entry in the table. -/
theorem disciplined_iff {env : Env} {fuel : Nat} {now : U64} {st st' : Proxy} {op : LockOp}
    (h : op.run env fuel now st = some st') : Disciplined st st' ↔ op.Covered now st := by
  cases op with
  | connect gw a => exact ⟨fun _ => trivial, fun _ => addMemberConnect_disciplined h⟩
  | merge gw p => exact ⟨fun _ => trivial, fun _ => addMembersLoop_disciplined fuel h⟩
  | sweep linkTimeout => exact removeExpiredMembers_disciplined_iff h

/-- Two links to one proxy are stored with one entry, and both expire: the sweep deletes the second
one without the lock and unlocks twice. -/
theorem two_links_unlock_twice : ∃ env tr st st', ProxyRun env tr st ∧
    removeExpiredMembers 5 20000 15 st = some st' ∧ ¬ Disciplined st st' := by
  obtain ⟨tr, st, hr, st', hst', hnot⟩ := exists_proxyRun (hostEnv 1) 5
    [.packet 4 0 (onePacket cohost (linkTo cohost (host 1))),
      .packet 4 10 (onePacket cohost (linkTo (host 3) cohost))]
    (p := fun r => ∃ st' ∈ removeExpiredMembers 5 20000 15 r.2, ¬ Disciplined r.2 st') (by
      decide +kernel)
  exact ⟨hostEnv 1, tr, st, st', hr, hst', hnot⟩

/-- A client that connected is swept under the lock. -/
theorem one_link_keeps_lock : ∃ tr st st', ProxyRun (hostEnv 1) tr st ∧
    removeExpiredMembers 5 20000 15 st = some st' ∧ st'.memList.head = none ∧ Disciplined st st' := by
  obtain ⟨tr, st, hr, st', hst', hhead, hcov⟩ := exists_proxyRun (hostEnv 1) 5
    [.packet 4 0 (onePacket (host 2) (linkTo (host 2) (host 1)))]
    (p := fun r => ∃ st' ∈ removeExpiredMembers 5 20000 15 r.2, st'.memList.head = none ∧
      (LockOp.sweep 15).Covered 20000 r.2) (by decide +kernel)
  have hrun : (LockOp.sweep 15).run (hostEnv 1) 5 20000 st = some st' := hst'
  exact ⟨tr, st, st', hr, hst', hhead, (disciplined_iff hrun).mpr hcov⟩

end Cs352Proxy
