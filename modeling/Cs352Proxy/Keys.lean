import Cs352Proxy.Receive
import Cs352Proxy.Sweep
import Cs352Proxy.Base.Runs

/-!
# Keys

No two forwarding entries ever have one key, although `addsockfd` never looks for an entry that is
already there: each of its three calls follows a lookup that found nothing.

The property is about every state an operation goes through. `connectStages` and the other `stages`
list the states after each write to the table and to the head, a link or the counter of the list, and
those at the start and at the end. A walk of `add_members` is followed for any number of rounds, also
when it never ends.
-/

namespace Cs352Proxy

open Base

/-! ## The states of an operation -/

section Stages

variable (env : Env) (fuel : Nat) (now : U64)

/-- The node is linked, is the first one, and is counted. -/
def linkStages (ptr : Addr) (w : U32) (st : Proxy) : List Proxy :=
  [st.setNext ptr st.memList.head, st.linkNode ptr w, st.pushNode ptr w now]

def connectStages (gw : Int) (recvNode : Addr) (st : Proxy) : List Proxy :=
  let locked := st.emit .lock
  let linking :=
    match st.heap[recvNode]? with
    | none => []
    | some recv =>
      match st.findSocketfd recv.remoteInfo.macaddr with
      | none =>
        if compMacZero recv.remoteInfo.macaddr ≠ 0 ∨
            compMacAddrs recv.remoteInfo.macaddr env.myProxyInfo.macaddr = 0 then []
        else
          let added := locked.addsockfd recv.remoteInfo.macaddr gw
          added :: linkStages now recvNode (recv.linkweight + 1) added
      | some _ =>
        match inMemberList fuel recv.localInfo recv.remoteInfo locked,
            getLowestSavedDistance fuel recv.localInfo.macaddr locked,
            getLowestSavedDistance fuel recv.remoteInfo.macaddr locked with
        | some none, some dist, some _ => linkStages now recvNode (recv.linkweight + u32OfInt dist) locked
        | _, _, _ => []
  st :: (linking ++ (addMemberConnect env fuel now gw recvNode st).toList)

/-- `n` rounds of the loop of `add_members`. -/
def walkStages (gw : Int) : Nat → Ptr → Proxy → List Proxy
  | 0, _, st => [st]
  | _ + 1, none, st => [st]
  | n + 1, some ptr, st =>
    connectStages env fuel now gw ptr st ++
      match addMembersStep env fuel now gw ptr st with
      | none => []
      | some (ptr, st) => walkStages gw n ptr st

def backStages (n : Nat) (tcpFd : Int) (pkt : LinkstatePkt) (st : Proxy) : List Proxy :=
  let st := st.addsockfd pkt.source.macaddr tcpFd
  st :: st.linkClient env pkt.source now ::
    walkStages env fuel now tcpFd n pkt.list (st.pushClient env pkt.source now)

def originalStages (tcpFd : Int) (pkt : LinkstatePkt) (first : Addr) (st : Proxy) : List Proxy :=
  let st₁ := (st.addsockfd pkt.source.macaddr tcpFd).setRemoteMac first env.myProxyInfo.macaddr
  let pushed :=
    match st₁.heap[first]? with
    | none => []
    | some node =>
      let remote := { pkt.source with macaddr := node.localInfo.macaddr }
      [st₁.linkClient env remote now, st₁.pushClient env remote now]
  st.addsockfd pkt.source.macaddr tcpFd ::
    (pushed ++ (gotOriginalPacket env fuel now tcpFd pkt first st).toList)

def handleStages (n : Nat) (tcpFd : Int) (pkt : LinkstatePkt) (st : Proxy) : List Proxy :=
  match pkt.list with
  | none => [st]
  | some first =>
    match st.heap[first]? with
    | none => [st]
    | some node =>
      match st.findSocketfd pkt.source.macaddr with
      | some _ => walkStages env fuel now tcpFd n pkt.list st
      | none =>
        let back := compMacZero node.remoteInfo.macaddr ≠ 0
        st :: ((if back then backStages env fuel now n tcpFd pkt st else []) ++
          match if back then gotPacketBack env fuel now tcpFd pkt st else some st with
          | none => []
          | some st =>
            match st.heap[first]? with
            | none => [st]
            | some node =>
              if compMacZero node.remoteInfo.macaddr = 0 ∧ pkt.numNeighbors = 1 then
                originalStages env fuel now tcpFd pkt first st
              else [st])

def tcpStages (n : Nat) (tcpFd : Int) (bytes : Buf) (st : Proxy) : List Proxy :=
  if readU16 env.endian (recvBuf bytes) 0 = some pktLinkstate then
    match ntohLinkstate env.endian env.uninit st.heap (recvBuf bytes) with
    | none => [st]
    | some (pkt, heap) => st :: handleStages env fuel now n tcpFd pkt { st with heap }
  else [st, (tcpHandle env fuel now tcpFd bytes st).state]

def deleteLoopStages (mac : Mac) : Nat → Ptr → Ptr → Proxy → List Proxy
  | 0, _, _, _ => []
  | _ + 1, _, none, _ => []
  | fuel + 1, prev, some curr, st =>
    match st.heap[curr]? with
    | none => []
    | some node =>
      if compMacAddrs node.remoteInfo.macaddr mac = 0 then
        let st := st.deletesockfd node.remoteInfo.macaddr
        [st, match prev with
          | none => st.setHead node.next
          | some p => st.setNext p node.next]
      else deleteLoopStages mac fuel (some curr) node.next st

/-- The states of `delete_members` before it counts. -/
def deleteStages (link : Addr) (st : Proxy) : List Proxy :=
  match st.heap[link]? with
  | none => []
  | some node => deleteLoopStages node.remoteInfo.macaddr fuel none st.memList.head st

/-- `n` rounds of the loop of `removeExpiredMembers`. -/
def sweepStages (time microTimeout : Int) : Nat → Ptr → Proxy → List Proxy
  | 0, _, st => [st]
  | _ + 1, none, st => [st]
  | n + 1, some ptr, st =>
    st :: match st.heap[ptr]? with
      | none => []
      | some node =>
        match doubleOfU64 node.ID with
        | none => []
        | some id =>
          if time - id > microTimeout then
            deleteStages fuel ptr st ++
              match deleteMembers fuel ptr st with
              | none => []
              | some st => sweepStages time microTimeout n node.next st
          else sweepStages time microTimeout n node.next st

end Stages

/-! ### The state at the end is one of them -/

section Ends

variable {env : Env} {fuel : Nat} {now : U64}

theorem addMembersLoop_mem_walkStages {gw : Int} (n : Nat) :
    ∀ {p : Ptr} {st st' : Proxy}, addMembersLoop env fuel now gw n p st = some st' →
      st' ∈ walkStages env fuel now gw n p st := by
  induction n with
  | zero => intro p st st' h; cases h
  | succ n ih =>
    intro p st st' h
    cases p with
    | none => cases h; simp [walkStages]
    | some a =>
      obtain ⟨p₁, st₁, hstep, h⟩ := addMembersLoop_some h
      simp only [walkStages, hstep]
      exact List.mem_append_right _ (ih h)

theorem handleLinkstate_mem_handleStages {tcpFd : Int} {pkt : LinkstatePkt} {st st' : Proxy}
    (h : handleLinkstate env fuel now tcpFd pkt st = some st') :
    st' ∈ handleStages env fuel now fuel tcpFd pkt st := by
  obtain ⟨first, node, hfirst, hnode, hcases⟩ := handleLinkstate_cases h
  simp only [handleStages, hfirst, hnode]
  rcases hcases with ⟨e, hroute, hwalk⟩ | ⟨hroute, hzero, hback⟩ | ⟨hroute, hzero, hnn, horig⟩ |
    ⟨hroute, hzero, hnn, hst⟩
  · rw [hfirst] at hwalk
    simp only [hroute]
    exact addMembersLoop_mem_walkStages fuel hwalk
  · have hwalk := addMembersLoop_mem_walkStages fuel hback
    simp [hroute, hzero, compMacZero_ne_zero, backStages, hwalk]
  · simp [hroute, hzero, hnn, compMacZero_eq_zero, hnode, originalStages, horig]
  · simp [hroute, hzero, compMacZero_eq_zero, hnode, hst]

theorem removeExpiredLoop_mem_sweepStages {time timeout : Int} (n : Nat) :
    ∀ {p : Ptr} {st st' : Proxy}, removeExpiredLoop fuel time timeout n p st = some st' →
      st' ∈ sweepStages fuel time timeout n p st := by
  induction n with
  | zero => intro p st st' h; cases h
  | succ n ih =>
    intro p st st' h
    cases p with
    | none => cases h; simp [sweepStages]
    | some a =>
      obtain ⟨node, hnode, hid, hround⟩ := removeExpiredLoop_some h
      simp only [sweepStages, hnode, hid]
      refine List.mem_cons_of_mem _ ?_
      unfold Topology.Expired at hround
      rcases hround with ⟨hexp, st₁, hdel, h⟩ | ⟨hexp, h⟩
      · rw [if_pos hexp, hdel]
        exact List.mem_append_right _ (ih h)
      · rw [if_neg hexp]
        exact ih h

end Ends

/-! ### Which states these are -/

section Cases

variable {env : Env} {fuel : Nat} {now : U64} {st s : Proxy}

theorem connectStages_cases {gw : Int} {a : Addr} (hs : s ∈ connectStages env fuel now gw a st) :
    s = st ∨ (∃ mac, st.findSocketfd mac = none ∧ s = (st.emit .lock).addsockfd mac gw) ∨
      (∃ recv w st₀, st.heap[a]? = some recv ∧ s ∈ linkStages now a w st₀ ∧ (st₀ = st.emit .lock ∨
        ∃ mac, st.findSocketfd mac = none ∧ st₀ = (st.emit .lock).addsockfd mac gw)) ∨
      addMemberConnect env fuel now gw a st = some s := by
  rcases List.mem_cons.mp hs with hs | hs
  · exact .inl hs
  · refine .inr ?_
    rcases List.mem_append.mp hs with hs | hs
    · split at hs
      · cases hs
      · rename_i recv hrecv
        split at hs
        · rename_i hroute
          split at hs
          · cases hs
          · rcases List.mem_cons.mp hs with hs | hs
            · exact .inl ⟨_, hroute, hs⟩
            · exact .inr (.inl ⟨recv, _, _, hrecv, hs, .inr ⟨_, hroute, rfl⟩⟩)
        · split at hs
          · exact .inr (.inl ⟨recv, _, _, hrecv, hs, .inl rfl⟩)
          · cases hs
    · exact .inr (.inr (Option.mem_toList.mp hs))

/-- What a step of `add_members` keeps holds in every state of the walk. `I` may depend on the node
that the walk has come to. -/
theorem walkStages_forall {gw : Int} {I : Ptr → Proxy → Prop} {P : Proxy → Prop}
    (hP : ∀ {p st}, I p st → P (st.emit .lock) ∧ P st)
    (hadd : ∀ {p st mac}, I p st → st.findSocketfd mac = none → P ((st.emit .lock).addsockfd mac gw))
    (hlink : ∀ {a st w recv} (st₀ : Proxy), I (some a) st → st.heap[a]? = some recv →
      st₀.heap = st.heap → st₀.memList = st.memList → P st₀ → ∀ s ∈ linkStages now a w st₀, P s)
    (hstep : ∀ {a st p₁ st₁}, I (some a) st →
      addMembersStep env fuel now gw a st = some (p₁, st₁) → I p₁ st₁) (n : Nat) :
    ∀ {p : Ptr} {st : Proxy}, I p st → ∀ s ∈ walkStages env fuel now gw n p st, P s := by
  induction n with
  | zero => intro p st hi; simpa [walkStages] using (hP hi).2
  | succ n ih =>
    intro p st hi s hs
    cases p with
    | none => rw [List.mem_singleton.mp hs]; exact (hP hi).2
    | some a =>
      rcases List.mem_append.mp hs with hs | hs
      · rcases connectStages_cases hs with
          rfl | ⟨mac, hroute, rfl⟩ | ⟨recv, w, _, hrecv, hlinked, rfl | ⟨mac, hroute, rfl⟩⟩ | hcall
        · exact (hP hi).2
        · exact hadd hi hroute
        · exact hlink (st.emit .lock) hi hrecv rfl rfl (hP hi).1 s hlinked
        · exact hlink ((st.emit .lock).addsockfd mac gw) hi hrecv rfl rfl (hadd hi hroute) s hlinked
        · obtain ⟨recv, hrecv, _⟩ := addMemberConnect_cases hcall
          have hremote := addMemberConnect_remote hcall a
          rw [hrecv] at hremote
          obtain ⟨node, hnode, _⟩ := Option.map_eq_some_iff.mp hremote
          have hnext : addMembersStep env fuel now gw a st = some (node.next, s) := by
            simp only [addMembersStep, hcall, hnode, Option.bind_eq_bind, Option.bind_some]
          exact (hP (hstep hi hnext)).2
      · split at hs
        · cases hs
        · rename_i p₁ st₁ hnext
          exact ih (hstep hi hnext) s hs

theorem originalStages_cases {tcpFd : Int} {pkt : LinkstatePkt} {first : Addr}
    (hs : s ∈ originalStages env fuel now tcpFd pkt first st) :
    s = st.addsockfd pkt.source.macaddr tcpFd ∨
      (∃ remote st₁,
        st₁ = (st.addsockfd pkt.source.macaddr tcpFd).setRemoteMac first env.myProxyInfo.macaddr ∧
          (s = st₁.linkClient env remote now ∨ s = st₁.pushClient env remote now)) ∨
      gotOriginalPacket env fuel now tcpFd pkt first st = some s := by
  rcases List.mem_cons.mp hs with hs | hs
  · exact .inl hs
  · rcases List.mem_append.mp hs with hs | hs
    · split at hs
      · cases hs
      · rcases List.mem_cons.mp hs with hs | hs
        · exact .inr (.inl ⟨_, _, rfl, .inl hs⟩)
        · exact .inr (.inl ⟨_, _, rfl, .inr (List.mem_singleton.mp hs)⟩)
    · exact .inr (.inr (Option.mem_toList.mp hs))

/-- The branches for an unknown source never both add it: the first one leaves the zero address
alone that sent the packet there. -/
theorem handleStages_cases {n : Nat} {tcpFd : Int} {pkt : LinkstatePkt}
    (hs : s ∈ handleStages env fuel now n tcpFd pkt st) :
    s = st ∨ (∃ n, s ∈ walkStages env fuel now tcpFd n pkt.list st) ∨
      st.findSocketfd pkt.source.macaddr = none ∧
        ((∃ n, s ∈ backStages env fuel now n tcpFd pkt st) ∨
          ∃ first, s ∈ originalStages env fuel now tcpFd pkt first st) := by
  unfold handleStages at hs
  split at hs
  · exact .inl (List.mem_singleton.mp hs)
  · rename_i first _
    split at hs
    · exact .inl (List.mem_singleton.mp hs)
    · rename_i node hnode
      split at hs
      · exact .inr (.inl ⟨n, hs⟩)
      · rename_i hroute
        simp only [compMacZero_ne_zero, compMacZero_eq_zero] at hs
        rcases List.mem_cons.mp hs with hs | hs
        · exact .inl hs
        · by_cases hzero : node.remoteInfo.macaddr = Mac.zero
          · simp only [if_pos hzero] at hs
            refine .inr (.inr ⟨hroute, .inl ?_⟩)
            rcases List.mem_append.mp hs with hs | hs
            · exact ⟨n, hs⟩
            · split at hs
              · cases hs
              · rename_i st₁ hback
                obtain ⟨node₁, hnode₁, hremote⟩ := gotPacketBack_remote hnode hback
                rw [hnode₁] at hs
                simp only [hremote, hzero, ne_eq, not_true_eq_false, false_and, if_false,
                  List.mem_singleton] at hs
                rw [hs]
                have hmem := addMembersLoop_mem_walkStages fuel hback
                exact ⟨fuel, List.mem_cons_of_mem _ (List.mem_cons_of_mem _ hmem)⟩
          · simp only [if_neg hzero, hnode, List.nil_append] at hs
            split at hs
            · exact .inr (.inr ⟨hroute, .inr ⟨first, hs⟩⟩)
            · exact .inl (List.mem_singleton.mp hs)

/-- Only a link-state packet changes the list or the table. -/
theorem tcpStages_cases {n : Nat} {tcpFd : Int} {bytes : Buf}
    (hs : s ∈ tcpStages env fuel now n tcpFd bytes st) :
    s.heap = st.heap ∧ s.memList = st.memList ∧ s.socketfds = st.socketfds ∨
      ∃ pkt heap, ntohLinkstate env.endian env.uninit st.heap (recvBuf bytes) = some (pkt, heap) ∧
        s ∈ handleStages env fuel now n tcpFd pkt { st with heap } := by
  unfold tcpStages at hs
  split at hs
  · split at hs
    · rw [List.mem_singleton.mp hs]
      exact .inl ⟨rfl, rfl, rfl⟩
    · rename_i pkt heap hdecode
      rcases List.mem_cons.mp hs with hs | hs
      · rw [hs]
        exact .inl ⟨rfl, rfl, rfl⟩
      · exact .inr ⟨pkt, heap, hdecode, hs⟩
  · rename_i htype
    refine .inl ?_
    rcases List.mem_cons.mp hs with hs | hs
    · rw [hs]
      exact ⟨rfl, rfl, rfl⟩
    · rw [List.mem_singleton.mp hs]
      rcases tcpHandle_cases env fuel now tcpFd bytes st with ⟨_, hround⟩ | ⟨hlink, _⟩ |
        ⟨_, hround | ⟨_, hround | hround⟩⟩
      · rw [hround]; exact ⟨rfl, rfl, rfl⟩
      · exact absurd hlink htype
      all_goals rw [hround]; exact ⟨rfl, rfl, rfl⟩

theorem deleteLoopStages_cases {mac : Mac} {prev p : Ptr}
    (hs : s ∈ deleteLoopStages mac fuel prev p st) : (∃ mac, s = st.deletesockfd mac) ∨
      deleteMembersLoop mac fuel prev p st = some (s.setSize (s.memList.size - 1)) := by
  induction fuel generalizing prev p with
  | zero => cases hs
  | succ fuel ih =>
    cases p with
    | none => cases hs
    | some curr =>
      unfold deleteLoopStages at hs
      split at hs
      · cases hs
      · rename_i node hnode
        simp only [deleteMembersLoop, hnode, Option.bind_eq_bind, Option.bind_some]
        split at hs
        · rename_i hfound
          rcases List.mem_cons.mp hs with hs | hs
          · exact .inl ⟨_, hs⟩
          · rw [if_pos hfound, List.mem_singleton.mp hs]
            exact .inr rfl
        · rename_i hother
          rw [if_neg hother]
          exact ih hs

theorem deleteStages_cases {a : Addr} (hs : s ∈ deleteStages fuel a st) :
    (∃ mac, s = st.deletesockfd mac) ∨
      deleteMembers fuel a st = some (s.setSize (s.memList.size - 1)) := by
  unfold deleteStages at hs
  split at hs
  · cases hs
  · rename_i node hnode
    simp only [deleteMembers, hnode, Option.bind_eq_bind, Option.bind_some]
    exact deleteLoopStages_cases hs

/-- What a deletion keeps holds in every state of a sweep. -/
theorem sweepStages_forall {time timeout : Int} {P : Proxy → Prop}
    (hsock : ∀ {st} mac, P st → P (st.deletesockfd mac))
    (hcount : ∀ {st}, P (st.setSize (st.memList.size - 1)) → P st)
    (hdel : ∀ {a st st'}, P st → deleteMembers fuel a st = some st' → P st') (n : Nat) :
    ∀ {p : Ptr} {st : Proxy}, P st → ∀ s ∈ sweepStages fuel time timeout n p st, P s := by
  induction n with
  | zero => intro p st hp; simpa [sweepStages] using hp
  | succ n ih =>
    intro p st hp
    cases p with
    | none => simpa [sweepStages] using hp
    | some a =>
      refine List.forall_mem_cons.mpr ⟨hp, ?_⟩
      split
      · simp
      · split
        · simp
        · split
          · refine List.forall_mem_append.mpr ⟨fun s hs => ?_, ?_⟩
            · rcases deleteStages_cases hs with ⟨mac, rfl⟩ | hdel₁
              · exact hsock mac hp
              · exact hcount (hdel hp hdel₁)
            · split
              · simp
              · rename_i st₁ hdel₁
                exact ih (hdel hp hdel₁)
          · exact ih hp

end Cases

/-! ## Unique keys -/

/-- No two forwarding entries have one key. -/
def UniqueKeys (st : Proxy) : Prop := (st.socketfds.map ProxySocketfd.key).Nodup

theorem UniqueKeys.of_eq {st st' : Proxy} (h : UniqueKeys st) (heq : st'.socketfds = st.socketfds) :
    UniqueKeys st' := by
  unfold UniqueKeys at h ⊢
  rw [heq]
  exact h

theorem UniqueKeys.addsockfd {st : Proxy} (h : UniqueKeys st) {mac : Mac}
    (hroute : st.findSocketfd mac = none) (fd : Int) : UniqueKeys (st.addsockfd mac fd) :=
  List.nodup_cons.mpr ⟨lookup_none.mp hroute, h⟩

theorem UniqueKeys.deletesockfd {st : Proxy} (h : UniqueKeys st) (mac : Mac) :
    UniqueKeys (st.deletesockfd mac) := by
  unfold UniqueKeys at h ⊢
  rw [Proxy.deletesockfd_socketfds]
  exact nodup_keys_remove h

theorem addMemberConnect_uniqueKeys {env : Env} {fuel : Nat} {now : U64} {gw : Int} {a : Addr}
    {st st' : Proxy} (hu : UniqueKeys st) (h : addMemberConnect env fuel now gw a st = some st') :
    UniqueKeys st' := by
  obtain ⟨recv, _, hcases⟩ := addMemberConnect_cases h
  rcases hcases with ⟨_, _, _, _, _, _, hsock⟩ | ⟨hroute, _, _, hsock⟩ | ⟨_, _, _, _, _, _, hsock⟩ |
    ⟨_, _, _, _, _, _, _, _, hsock⟩
  · exact hu.of_eq hsock
  · exact (hu.addsockfd hroute gw).of_eq hsock
  · exact hu.of_eq hsock
  · unfold UniqueKeys at hu ⊢
    rw [hsock]
    split
    · rw [keys_assign_sockFd]
      exact hu
    · exact hu

theorem deleteMembers_uniqueKeys {fuel : Nat} {a : Addr} {st st' : Proxy} (hu : UniqueKeys st)
    (h : deleteMembers fuel a st = some st') : UniqueKeys st' := by
  rcases deleteMembers_cases h with rfl | ⟨prev, curr, x, _, rfl, _⟩
  · exact hu
  · unfold UniqueKeys at hu ⊢
    rw [Proxy.deleteNode_socketfds]
    exact nodup_keys_remove hu

section Stages

variable {env : Env} {fuel : Nat} {now : U64}

theorem walkStages_uniqueKeys {gw : Int} (n : Nat) {p : Ptr} {st : Proxy} (hu : UniqueKeys st) :
    ∀ s ∈ walkStages env fuel now gw n p st, UniqueKeys s := by
  refine walkStages_forall (I := fun _ st => UniqueKeys st) (fun hu => ⟨hu.of_eq rfl, hu⟩)
    (fun hu hroute => (hu.addsockfd hroute gw).of_eq rfl) (fun _ _ _ _ _ hu s hs => ?_)
    (fun hu hstep => addMemberConnect_uniqueKeys hu (addMembersStep_some hstep).1) n hu
  simp only [linkStages, List.mem_cons, List.not_mem_nil, or_false] at hs
  rcases hs with rfl | rfl | rfl <;> exact hu.of_eq rfl

theorem gotOriginalPacket_socketfds {tcpFd : Int} {pkt : LinkstatePkt} {first : Addr} {st st' : Proxy}
    (h : gotOriginalPacket env fuel now tcpFd pkt first st = some st') :
    st'.socketfds = (st.addsockfd pkt.source.macaddr tcpFd).socketfds := by
  obtain ⟨st₁, node, buf, rfl, _, rfl⟩ := gotOriginalPacket_some h
  rfl

theorem originalStages_uniqueKeys {tcpFd : Int} {pkt : LinkstatePkt} {first : Addr} {st : Proxy}
    (hadd : UniqueKeys (st.addsockfd pkt.source.macaddr tcpFd)) :
    ∀ s ∈ originalStages env fuel now tcpFd pkt first st, UniqueKeys s := by
  intro s hs
  rcases originalStages_cases hs with rfl | ⟨remote, st₁, rfl, rfl | rfl⟩ | horig
  · exact hadd
  · exact hadd.of_eq rfl
  · exact hadd.of_eq rfl
  · exact hadd.of_eq (gotOriginalPacket_socketfds horig)

theorem backStages_uniqueKeys {n : Nat} {tcpFd : Int} {pkt : LinkstatePkt} {st : Proxy}
    (hadd : UniqueKeys (st.addsockfd pkt.source.macaddr tcpFd)) :
    ∀ s ∈ backStages env fuel now n tcpFd pkt st, UniqueKeys s :=
  List.forall_mem_cons.mpr
    ⟨hadd, List.forall_mem_cons.mpr ⟨hadd.of_eq rfl, walkStages_uniqueKeys n (hadd.of_eq rfl)⟩⟩

theorem handleStages_uniqueKeys {n : Nat} {tcpFd : Int} {pkt : LinkstatePkt} {st : Proxy}
    (hu : UniqueKeys st) : ∀ s ∈ handleStages env fuel now n tcpFd pkt st, UniqueKeys s := by
  intro s hs
  rcases handleStages_cases hs with rfl | ⟨n, hwalk⟩ | ⟨hroute, hadded⟩
  · exact hu
  · exact walkStages_uniqueKeys n hu s hwalk
  · have hadd := hu.addsockfd hroute tcpFd
    rcases hadded with ⟨n, hback⟩ | ⟨first, horig⟩
    · exact backStages_uniqueKeys hadd s hback
    · exact originalStages_uniqueKeys hadd s horig

theorem tcpStages_uniqueKeys {n : Nat} {tcpFd : Int} {bytes : Buf} {st : Proxy} (hu : UniqueKeys st) :
    ∀ s ∈ tcpStages env fuel now n tcpFd bytes st, UniqueKeys s := by
  intro s hs
  rcases tcpStages_cases hs with ⟨_, _, hsock⟩ | ⟨pkt, heap, _, hhandle⟩
  · exact hu.of_eq hsock
  · have hdecoded : UniqueKeys { st with heap } := hu
    exact handleStages_uniqueKeys hdecoded s hhandle

theorem sweepStages_uniqueKeys {time timeout : Int} (n : Nat) {p : Ptr} {st : Proxy}
    (hu : UniqueKeys st) : ∀ s ∈ sweepStages fuel time timeout n p st, UniqueKeys s :=
  sweepStages_forall (fun mac hu => hu.deletesockfd mac) (fun hu => hu.of_eq rfl)
    (fun hu hdel => deleteMembers_uniqueKeys hu hdel) n hu

end Stages

/-! ## Runs -/

/-- A chunk received over a socket, or a sweep. `uninit` is what fresh memory holds at the time. -/
inductive KeyOp where
  | packet (uninit : Uninit) (tcpFd : Int) (now : U64) (bytes : Buf)
  | sweep (now : U64) (linkTimeout : Int)

def KeyOp.stages (env : Env) (fuel n : Nat) (st : Proxy) : KeyOp → List Proxy
  | .packet uninit tcpFd now bytes => tcpStages { env with uninit } fuel now n tcpFd bytes st
  | .sweep now linkTimeout =>
    st :: match doubleOfU64 now, mulInt linkTimeout 1000 with
      | some time, some microTimeout =>
        sweepStages fuel time microTimeout n st.memList.head (st.emit .lock)
      | _, _ => []

/-- `st'` is the state after the operation. -/
def KeyOp.Completes (env : Env) (st : Proxy) (op : KeyOp) (st' : Proxy) : Prop :=
  ∃ fuel, match op with
    | .packet uninit tcpFd now bytes => tcpHandle { env with uninit } fuel now tcpFd bytes st = .next st'
    | .sweep now linkTimeout => removeExpiredMembers fuel now linkTimeout st = some st'

/-- An operation with a bound on the loops it runs. -/
def KeyOp.perform (env : Env) (fuel : Nat) (st : Proxy) : KeyOp → Option Proxy
  | .packet uninit tcpFd now bytes =>
    match tcpHandle { env with uninit } fuel now tcpFd bytes st with
    | .next st' => some st'
    | _ => none
  | .sweep now linkTimeout => removeExpiredMembers fuel now linkTimeout st

theorem KeyOp.completes_of_perform {env : Env} {fuel : Nat} {st st' : Proxy} {op : KeyOp}
    (h : op.perform env fuel st = some st') : op.Completes env st st' := by
  refine ⟨fuel, ?_⟩
  cases op with
  | packet uninit tcpFd now bytes =>
    simp only [perform] at h
    split at h
    · rename_i hnext
      cases h
      exact hnext
    · cases h
  | sweep now linkTimeout => exact h

/-- `s` is one of the states the operation goes through, whether it ends or not. -/
def KeyOp.GoesThrough (env : Env) (st : Proxy) (op : KeyOp) (s : Proxy) : Prop :=
  ∃ fuel n, s ∈ op.stages env fuel n st

theorem KeyOp.goesThrough_uniqueKeys {env : Env} {st s : Proxy} {op : KeyOp} (hu : UniqueKeys st)
    (h : op.GoesThrough env st s) : UniqueKeys s := by
  obtain ⟨fuel, n, hs⟩ := h
  cases op with
  | packet uninit tcpFd now bytes => exact tcpStages_uniqueKeys hu s hs
  | sweep now linkTimeout =>
    rcases List.mem_cons.mp hs with hs | hs
    · rw [hs]; exact hu
    · have hlocked : UniqueKeys (st.emit .lock) := hu.of_eq rfl
      split at hs
      · exact sweepStages_uniqueKeys n hlocked s hs
      · cases hs

theorem KeyOp.Completes.goesThrough {env : Env} {st st' : Proxy} {op : KeyOp}
    (h : op.Completes env st st') :
    ∃ s, op.GoesThrough env st s ∧ st'.socketfds = s.socketfds := by
  obtain ⟨fuel, h⟩ := h
  cases op with
  | packet uninit tcpFd now bytes =>
    refine ⟨st', ⟨fuel, fuel, ?_⟩, rfl⟩
    simp only [stages, tcpStages]
    rcases tcpHandle_next h with ⟨htype, _⟩ | ⟨htype, pkt, heap, hdecode, hhandle⟩
    · rw [if_neg htype, h]
      simp [Round.state]
    · rw [if_pos htype, hdecode]
      exact List.mem_cons_of_mem _ (handleLinkstate_mem_handleStages hhandle)
  | sweep now linkTimeout =>
    obtain ⟨htime, htimeout, st₁, hloop, rfl⟩ := removeExpiredMembers_some h
    refine ⟨st₁, ⟨fuel, fuel, ?_⟩, rfl⟩
    simp only [stages, htime, htimeout]
    exact List.mem_cons_of_mem _ (removeExpiredLoop_mem_sweepStages fuel hloop)

abbrev KeyRun (env : Env) := Run Proxy.start (fun st (op : KeyOp) st' => op.Completes env st st')

/-- Every loop of the operations gets `fuel` rounds. -/
theorem exists_keyRun (env : Env) (fuel : Nat) (ops : List KeyOp)
    {p : List (Step Proxy KeyOp) × Proxy → Prop}
    (h : ∃ r ∈ replay (KeyOp.perform env fuel) ops [] Proxy.start, p r) :
    ∃ tr st, KeyRun env tr st ∧ p (tr, st) := by
  obtain ⟨⟨tr, st⟩, hr, hp⟩ := h
  have hstep : ∀ (s : Proxy) (op : KeyOp) (s' : Proxy), op.perform env fuel s = some s' →
      op.Completes env s s' := fun _ _ _ hs => KeyOp.completes_of_perform hs
  exact ⟨tr, st, Run.replay hstep ops .start hr, hp⟩

theorem KeyRun.uniqueKeys {env : Env} {tr : List (Step Proxy KeyOp)} {st : Proxy}
    (hr : KeyRun env tr st) : UniqueKeys st := by
  have hstart : UniqueKeys Proxy.start := List.nodup_nil
  refine (Run.invariant hstart (fun st op st' hu h => ?_) hr).1
  obtain ⟨s, hs, hsock⟩ := h.goesThrough
  exact (op.goesThrough_uniqueKeys hu hs).of_eq hsock

/-- In every state of a run the keys are unique: an address has at most one entry, and one
`deletesockfd` removes all there is. -/
theorem run_uniqueKeys {env : Env} {tr : List (Step Proxy KeyOp)} {st : Proxy} (hr : KeyRun env tr st)
    {op : KeyOp} {s : Proxy} (hs : op.GoesThrough env st s) :
    UniqueKeys s ∧
      (∀ (mac : Mac), ∀ e ∈ s.socketfds, ∀ e' ∈ s.socketfds, e.key = mac.key → e'.key = mac.key →
        e = e') ∧
      ∀ (mac : Mac), ∀ e ∈ (s.deletesockfd mac).socketfds, e.key ≠ mac.key := by
  have hu : UniqueKeys s := op.goesThrough_uniqueKeys hr.uniqueKeys hs
  refine ⟨hu, fun mac e he e' he' hk hk' => ?_, fun mac e he hk => ?_⟩
  · exact List.inj_on_of_nodup_map hu he he' (hk.trans hk'.symm)
  · rw [Proxy.deletesockfd_socketfds, remove_eq_filter hu] at he
    simpa [hk] using (List.mem_filter.mp he).2

/-- The hosts 2 and 3 have greeted, and `host 2` tells of `host 4`: the new entry is there before the
link is stored. -/
theorem third_entry_uniqueKeys : ∃ (tr : List (Step Proxy KeyOp)) (st : Proxy) (op : KeyOp) (s : Proxy),
    KeyRun (hostEnv 1) tr st ∧ tr.length = 2 ∧ op.GoesThrough (hostEnv 1) st s ∧
    s.socketfds.map ProxySocketfd.macaddr = [host 4, host 3, host 2].map ProxyInfo.macaddr ∧
    s.memList.size = 2 ∧ UniqueKeys s := by
  let greet : U8 → Int → KeyOp := fun k fd => .packet (hostEnv 1).uninit fd 0
    (wireBytes { type := pktLinkstate, length := 50 } 1 (host k)
      [linkTo (host k) { host 1 with macaddr := Mac.zero }])
  let op : KeyOp := .packet (hostEnv 1).uninit 4 10
    (wireBytes { type := pktLinkstate, length := 50 } 1 (host 2) [linkTo (host 2) (host 4)])
  obtain ⟨tr, st, hr, hlen, s, hs, hadded, hsize⟩ := exists_keyRun (hostEnv 1) 4 [greet 2 4, greet 3 5]
    (p := fun r => r.1.length = 2 ∧ ∃ s ∈ op.stages (hostEnv 1) 4 4 r.2,
      s.socketfds.map ProxySocketfd.macaddr = [host 4, host 3, host 2].map ProxyInfo.macaddr ∧
        s.memList.size = 2) (by decide +kernel)
  exact ⟨tr, st, op, s, hr, hlen, ⟨4, 4, hs⟩, hadded, hsize, (run_uniqueKeys hr ⟨4, 4, hs⟩).1⟩

end Cs352Proxy
