import Cs352Proxy.Frames
import Cs352Proxy.Keys
import Cs352Proxy.Tap

/-!
# Process

The whole process. `main` starts four kinds of threads: a `TCPHandle` for each connection,
`TAPHandle`, `sendPackets` and `checkLinkTimeOut`. One step is one round of the loop of one of them,
in any order.

* `Blind`: an operation that does not depend on what was done before, only on the heap, the list and
  the table. All operations are (`tcpHandle_blind`, `removeExpiredMembers_blind`).
* `ThreadOp.control`, `ThreadOp.written`: the part of a round that may change the list and the table,
  and the part that is written to the tap device.
* `process_planes`: a run is the run of its link-state packets and sweeps; all else passes by.
-/

namespace Cs352Proxy

open Base

/-! ## What an operation sees -/

/-- All of a state that the process can read. -/
def Proxy.bare (st : Proxy) : Proxy := { st with trace := [] }

def Blind (f : Proxy → Option Proxy) : Prop :=
  ∀ st, (f st.bare).map Proxy.bare = (f st).map Proxy.bare

namespace Blind

variable {f : Proxy → Option Proxy}

theorem congr (hf : Blind f) {st st' : Proxy} (h : st.bare = st'.bare) :
    (f st).map Proxy.bare = (f st').map Proxy.bare := by
  rw [← hf st, h, hf st']

theorem total {g : Proxy → Proxy} (hg : ∀ st, (g st.bare).bare = (g st).bare) :
    Blind fun st => some (g st) :=
  fun st => congrArg some (hg st)

theorem bind {g : Proxy → Option Proxy} (hf : Blind f) (hg : Blind g) :
    Blind fun st => (f st).bind g := by
  intro st
  have hfst := hf st
  cases h : f st with
  | none =>
    rw [h, Option.map_none, Option.map_eq_none_iff] at hfst
    simp only [h, hfst, Option.bind_none]
  | some s =>
    rw [h] at hfst
    obtain ⟨s', hs', hbare⟩ := Option.map_eq_some_iff.mp hfst
    simp only [h, hs', Option.bind_some]
    exact hg.congr hbare

theorem read {α : Type} {r : Proxy → Option α} (hr : ∀ st, r st.bare = r st)
    {g : α → Proxy → Option Proxy} (hg : ∀ x, Blind (g x)) :
    Blind fun st => (r st).bind fun x => g x st := by
  intro st
  simp only [hr]
  cases r st with
  | none => rfl
  | some x => exact hg x st

theorem ite {c : Prop} [Decidable c] {g : Proxy → Option Proxy} (hf : Blind f) (hg : Blind g) :
    Blind fun st => if c then f st else g st := by
  by_cases hc : c
  · simpa only [if_pos hc] using hf
  · simpa only [if_neg hc] using hg

/-- A step that completes in a state completes in every state that looks the same. -/
theorem exists_some (hf : Blind f) {st st' st₀ : Proxy} (h : f st = some st') (hst : st₀.bare = st.bare) :
    ∃ st₀', f st₀ = some st₀' ∧ st₀'.bare = st'.bare := by
  have hmap := hf.congr hst
  rw [h] at hmap
  exact Option.map_eq_some_iff.mp hmap

end Blind

section Operations

variable (env : Env) (fuel : Nat) (now : U64)

theorem addMemberConnect_blind (gw : Int) (a : Addr) : Blind (addMemberConnect env fuel now gw a) := by
  intro st
  have hheap : (st.bare.emit .lock).heap = (st.emit .lock).heap := rfl
  have hfind : ∀ m, (st.bare.emit .lock).findSocketfd m = (st.emit .lock).findSocketfd m :=
    fun _ => rfl
  have hmember : ∀ l r, inMemberList fuel l r (st.bare.emit .lock) =
      inMemberList fuel l r (st.emit .lock) := fun _ _ => rfl
  have hdist : ∀ m, getLowestSavedDistance fuel m (st.bare.emit .lock) =
      getLowestSavedDistance fuel m (st.emit .lock) := fun _ => rfl
  simp only [addMemberConnect, hheap, hfind, hmember, hdist]
  cases (st.emit .lock).heap[a]? with
  | none => rfl
  | some recv =>
    simp only [Option.bind_eq_bind, Option.bind_some]
    split
    · split
      · cases inMemberList fuel recv.localInfo recv.remoteInfo (st.emit .lock) with
        | none => rfl
        | some finder => cases finder <;> rfl
      · rfl
    · cases inMemberList fuel recv.localInfo recv.remoteInfo (st.emit .lock) with
      | none => rfl
      | some finder =>
        cases finder with
        | some f => rfl
        | none =>
          cases getLowestSavedDistance fuel recv.localInfo.macaddr (st.emit .lock) with
          | none => rfl
          | some dist =>
            cases getLowestSavedDistance fuel recv.remoteInfo.macaddr (st.emit .lock) with
            | none => rfl
            | some save =>
              simp only [Option.bind_some]
              split <;> rfl

theorem addMembersLoop_blind (gw : Int) (n : Nat) :
    ∀ p : Ptr, Blind (addMembersLoop env fuel now gw n p) := by
  induction n with
  | zero => intro p st; rfl
  | succ n ih =>
    intro p
    cases p with
    | none => intro st; rfl
    | some a =>
      have hnext : Blind fun st => (st.heap[a]?).bind fun node =>
          addMembersLoop env fuel now gw n node.next st :=
        Blind.read (fun _ => rfl) fun node => ih node.next
      have hround := (addMemberConnect_blind env fuel now gw a).bind hnext
      have heq : addMembersLoop env fuel now gw (n + 1) (some a) = fun st =>
          (addMemberConnect env fuel now gw a st).bind fun st => (st.heap[a]?).bind fun node =>
            addMembersLoop env fuel now gw n node.next st := by
        funext st
        simp only [addMembersLoop, addMembersStep, Option.bind_eq_bind, Option.bind_assoc,
          Option.bind_some]
      rw [heq]
      exact hround

theorem gotPacketBack_blind (tcpFd : Int) (pkt : LinkstatePkt) :
    Blind (gotPacketBack env fuel now tcpFd pkt) := by
  have hpush : Blind fun st =>
      some ((st.addsockfd pkt.source.macaddr tcpFd).pushClient env pkt.source now) :=
    Blind.total fun _ => rfl
  exact hpush.bind (addMembersLoop_blind env fuel now tcpFd fuel pkt.list)

theorem gotOriginalPacket_blind (tcpFd : Int) (pkt : LinkstatePkt) (first : Addr) :
    Blind (gotOriginalPacket env fuel now tcpFd pkt first) := by
  have hreply : ∀ head : Addr, Blind fun st =>
      (htonLinkstate env.endian fuel (st.setNext head none).heap
        { head := { type := pktLinkstate, length := 50 }
          numNeighbors := BitVec.ofInt 16 st.memList.size
          source := env.myProxyInfo
          list := some head } (env.stackBuf 54)).bind fun buf2 =>
        some ((st.setNext head none).emit (.send tcpFd buf2)) :=
    fun head => Blind.read (fun _ => rfl) fun _ => Blind.total fun _ => rfl
  have hpush : ∀ node : LinkstateNode, Blind fun st =>
      some (st.pushClient env { pkt.source with macaddr := node.localInfo.macaddr } now) :=
    fun node => Blind.total fun _ => rfl
  have hstart : Blind fun st =>
      some ((st.addsockfd pkt.source.macaddr tcpFd).setRemoteMac first env.myProxyInfo.macaddr) :=
    Blind.total fun _ => rfl
  have hcut := Blind.read (r := fun st => st.memList.head) (fun _ => rfl) hreply
  have hnode := Blind.read (r := fun st => st.heap[first]?) (fun _ => rfl) fun node =>
    (hpush node).bind hcut
  intro st
  have hblind := hstart.bind hnode st
  simp only [Option.bind_some] at hblind
  exact hblind

theorem handleLinkstate_blind (tcpFd : Int) (pkt : LinkstatePkt) :
    Blind (handleLinkstate env fuel now tcpFd pkt) := by
  have horiginal : ∀ first, ∀ node : LinkstateNode, Blind fun st =>
      if compMacZero node.remoteInfo.macaddr = 0 ∧ pkt.numNeighbors = 1 then
        gotOriginalPacket env fuel now tcpFd pkt first st else some st :=
    fun first node => (gotOriginalPacket_blind env fuel now tcpFd pkt first).ite
      (Blind.total fun _ => rfl)
  have hrest := fun first : Addr =>
    Blind.read (r := fun st => st.heap[first]?) (fun _ => rfl) (horiginal first)
  have hunknown := fun first (node : LinkstateNode) =>
    ((gotPacketBack_blind env fuel now tcpFd pkt).bind (hrest first)).ite
      (c := compMacZero node.remoteInfo.macaddr ≠ 0) (hrest first)
  intro st
  have hfind : st.bare.findSocketfd pkt.source.macaddr = st.findSocketfd pkt.source.macaddr := rfl
  have hheap : st.bare.heap = st.heap := rfl
  cases hlist : pkt.list with
  | none => simp only [handleLinkstate, hlist, Option.bind_eq_bind, Option.bind_none]
  | some first =>
    cases hnode : st.heap[first]? with
    | none =>
      simp only [handleLinkstate, hlist, hheap, hnode, Option.bind_eq_bind, Option.bind_some,
        Option.bind_none]
    | some node =>
      simp only [handleLinkstate, hlist, hheap, hnode, hfind, Option.bind_eq_bind, Option.bind_some]
      cases st.findSocketfd pkt.source.macaddr with
      | some e => exact addMembersLoop_blind env fuel now tcpFd fuel (some first) st
      | none => 
        have h := hunknown first node st
        simp only [hheap, hnode, Option.bind_some] at h
        exact h

/-! ### Sweeping -/

theorem deleteMembersLoop_blind (mac : Mac) (n : Nat) :
    ∀ prev curr : Ptr, Blind (deleteMembersLoop mac n prev curr) := by
  induction n with
  | zero => intro prev curr st; rfl
  | succ n ih =>
    intro prev curr
    cases curr with
    | none => intro st; rfl
    | some a =>
      have hdelete : ∀ node : LinkstateNode, Blind fun st =>
          if compMacAddrs node.remoteInfo.macaddr mac = 0 then some (st.deleteNode prev node)
          else deleteMembersLoop mac n (some a) node.next st := by
        intro node
        refine Blind.ite (Blind.total fun st => ?_) (ih (some a) node.next)
        have hfind : st.bare.findSocketfd node.remoteInfo.macaddr =
            st.findSocketfd node.remoteInfo.macaddr := rfl
        simp only [Proxy.deleteNode, Proxy.deletesockfd, hfind]
        cases st.findSocketfd node.remoteInfo.macaddr <;> cases prev <;> rfl
      exact Blind.read (r := fun st => st.heap[a]?) (fun _ => rfl) hdelete

theorem deleteMembers_blind (a : Addr) : Blind (deleteMembers fuel a) := by
  have hloop : ∀ node : LinkstateNode, Blind fun st =>
      deleteMembersLoop node.remoteInfo.macaddr fuel none st.memList.head st :=
    fun node st => deleteMembersLoop_blind node.remoteInfo.macaddr fuel none st.memList.head st
  exact Blind.read (r := fun st => st.heap[a]?) (fun _ => rfl) hloop

theorem removeExpiredLoop_blind (time timeout : Int) (n : Nat) :
    ∀ p : Ptr, Blind (removeExpiredLoop fuel time timeout n p) := by
  induction n with
  | zero => intro p st; rfl
  | succ n ih =>
    intro p
    cases p with
    | none => intro st; rfl
    | some a =>
      have hround : ∀ node : LinkstateNode, Blind fun st => (doubleOfU64 node.ID).bind fun id =>
          if time - id > timeout then
            (deleteMembers fuel a st).bind (removeExpiredLoop fuel time timeout n node.next)
          else removeExpiredLoop fuel time timeout n node.next st :=
        fun node => Blind.read (r := fun _ => doubleOfU64 node.ID) (fun _ => rfl) fun _ =>
          ((deleteMembers_blind fuel a).bind (ih node.next)).ite (ih node.next)
      exact Blind.read (r := fun st => st.heap[a]?) (fun _ => rfl) hround

theorem removeExpiredMembers_blind (linkTimeout : Int) :
    Blind (removeExpiredMembers fuel now linkTimeout) := by
  have hloop : ∀ time timeout : Int, Blind fun st =>
      removeExpiredLoop fuel time timeout fuel st.memList.head (st.emit .lock) := by
    intro time timeout st
    have hlock : (st.bare.emit .lock).bare = (st.emit .lock).bare := rfl
    exact (removeExpiredLoop_blind fuel time timeout fuel st.memList.head).congr hlock
  have hunlock : Blind fun st => some (st.emit .unlock) := Blind.total fun _ => rfl
  exact Blind.read (r := fun _ => doubleOfU64 now) (fun _ => rfl) fun time =>
    Blind.read (r := fun _ => mulInt linkTimeout 1000) (fun _ => rfl) fun timeout =>
      (hloop time timeout).bind hunlock

end Operations

/-- A packet that is handled in a state is handled in every state that looks the same. -/
theorem tcpHandle_blind {env : Env} {fuel : Nat} {now : U64} {tcpFd : Int} {bytes : Buf}
    {st st' st₀ : Proxy} (htype : readU16 env.endian (recvBuf bytes) 0 = some pktLinkstate)
    (h : tcpHandle env fuel now tcpFd bytes st = .next st') (hst : st₀.bare = st.bare) :
    ∃ st₀', tcpHandle env fuel now tcpFd bytes st₀ = .next st₀' ∧ st₀'.bare = st'.bare := by
  rcases tcpHandle_next h with ⟨hother, _⟩ | ⟨_, pkt, heap, hdecode, hhandle⟩
  · exact absurd htype hother
  · have hheap : st₀.bare.heap = st.bare.heap := congrArg Proxy.heap hst
    have hdecoded : ({ st₀ with heap } : Proxy).bare = ({ st with heap } : Proxy).bare := by
      have hput := congrArg (fun s : Proxy => { s with heap }) hst
      exact hput
    obtain ⟨st₀', hhandle₀, hbare⟩ :=
      (handleLinkstate_blind env fuel now tcpFd pkt).exists_some hhandle hdecoded
    refine ⟨st₀', ?_, hbare⟩
    have hleave : pktLinkstate ≠ pktLeave := by decide
    have hquit : pktLinkstate ≠ pktQuit := by decide
    have hdata : pktLinkstate ≠ pktData := by decide
    have hdecode₀ : ntohLinkstate env.endian env.uninit st₀.heap (recvBuf bytes) = some (pkt, heap) := by
      rw [← hdecode]
      exact congrArg (fun heap => ntohLinkstate env.endian env.uninit heap (recvBuf bytes)) hheap
    simp only [tcpHandle, htype, if_neg hdata, if_neg hleave, if_neg hquit, if_true, hdecode₀,
      hhandle₀]

/-! ## Threads -/

structure Process where
  st : Proxy
  /-- No thread has called `exit`. -/
  running : Bool

/-- One round of the loop of a thread. `uninit` is what fresh memory holds at the time. -/
inductive ThreadOp where
  | tcpHandle (uninit : Uninit) (tcpFd : Int) (now : U64) (bytes : Buf)
  | tapHandle (read : Option Buf)
  | sendPackets (uninit : Uninit)
  | checkLinkTimeOut (now : U64) (linkTimeout : Int)

namespace ThreadOp

variable (env : Env)

/-- What the round does to the state of a process that is running. -/
def round (fuel : Nat) (st : Proxy) : ThreadOp → Option Process
  | tcpHandle uninit tcpFd now bytes =>
    match Cs352Proxy.tcpHandle { env with uninit } fuel now tcpFd bytes st with
    | .next st => some { st, running := true }
    | .exit st => some { st, running := false }
    | .stuck _ => none
  | tapHandle read => do
    let st ← Cs352Proxy.tapHandle env read st
    some { st, running := true }
  | sendPackets uninit => do
    let st ← Cs352Proxy.sendPackets { env with uninit } fuel st
    some { st, running := true }
  | checkLinkTimeOut now linkTimeout => do
    let st ← removeExpiredMembers fuel now linkTimeout st
    some { st, running := true }

/-- The round as an operation on the list and the table, if it may change them. -/
def control : ThreadOp → Option KeyOp
  | tcpHandle uninit tcpFd now bytes =>
    if readU16 env.endian (recvBuf bytes) 0 = some pktLinkstate then
      some (.packet uninit tcpFd now bytes)
    else none
  | checkLinkTimeOut now linkTimeout => some (.sweep now linkTimeout)
  | tapHandle _ | sendPackets _ => none

/-- What the round writes to the tap device. -/
def written : ThreadOp → Option (Nat × Buf)
  | tcpHandle _ _ _ bytes => if IsData env bytes then some (writeOf bytes) else none
  | tapHandle _ | sendPackets _ | checkLinkTimeOut .. => none

def quits : ThreadOp → Bool
  | tcpHandle _ _ _ bytes => readU16 env.endian (recvBuf bytes) 0 = some pktQuit
  | tapHandle _ | sendPackets _ | checkLinkTimeOut .. => false

end ThreadOp

def Process.Performs (env : Env) (p : Process) (op : ThreadOp) (p' : Process) : Prop :=
  p.running = true ∧ ∃ fuel, op.round env fuel p.st = some p'

def Process.start : Process := { st := Proxy.start, running := true }

/-- The rounds of all threads from start-up on, in any order. -/
abbrev ProcessRun (env : Env) := Run Process.start (Process.Performs env)

/-! ### One round -/

@[simp] theorem writeLoop_bare (bytes : Buf) (l : List ProxySocketfd) (st : Proxy) :
    (writeLoop bytes l st).bare = st.bare := by
  induction l generalizing st with
  | nil => rfl
  | cons s l ih => exact ih _

theorem sendLoop_bare {env : Env} {fuel : Nat} {lstate : LinkstatePkt} {l : List ProxySocketfd}
    {st st' : Proxy} (h : sendLoop env fuel lstate l st = some st') : st'.bare = st.bare := by
  induction l generalizing st with
  | nil => cases h; rfl
  | cons s l ih =>
    simp only [sendLoop, Option.bind_eq_bind, Option.bind_eq_some_iff] at h
    obtain ⟨bytes, _, h⟩ := h
    have hrest := ih h
    exact hrest

theorem sendPackets_bare {env : Env} {fuel : Nat} {st st' : Proxy}
    (h : sendPackets env fuel st = some st') : st'.bare = st.bare := by
  unfold sendPackets at h
  split at h
  · cases h; rfl
  · exact sendLoop_bare h

theorem writeLoop_emits (bytes : Buf) (l : List ProxySocketfd) (st : Proxy) :
    Emits Event.NotTap st (writeLoop bytes l st) := by
  induction l generalizing st with
  | nil => exact .of_trace_eq rfl
  | cons s l ih =>
    have hsend : Emits Event.NotTap st (st.emit (.send s.sockFd bytes)) := .emit st trivial
    exact hsend.trans (ih _)

theorem sendLoop_emits {env : Env} {fuel : Nat} {lstate : LinkstatePkt} {l : List ProxySocketfd}
    {st st' : Proxy} (h : sendLoop env fuel lstate l st = some st') : Emits Event.NotTap st st' := by
  induction l generalizing st with
  | nil => cases h; exact .of_trace_eq rfl
  | cons s l ih =>
    simp only [sendLoop, Option.bind_eq_bind, Option.bind_eq_some_iff] at h
    obtain ⟨bytes, _, h⟩ := h
    have hsend : Emits Event.NotTap st (st.emit (.send s.sockFd bytes)) := .emit st trivial
    exact hsend.trans (ih h)

theorem sendPackets_emits {env : Env} {fuel : Nat} {st st' : Proxy}
    (h : sendPackets env fuel st = some st') : Emits Event.NotTap st st' := by
  unfold sendPackets at h
  split at h
  · cases h; exact .of_trace_eq rfl
  · exact sendLoop_emits h

theorem tcpHandle_quit {env : Env} {fuel : Nat} {now : U64} {fd : Int} {bytes : Buf} (st : Proxy)
    (htype : readU16 env.endian (recvBuf bytes) 0 = some pktQuit) :
    tcpHandle env fuel now fd bytes st = .exit st := by
  have hdata : pktQuit ≠ pktData := by decide
  have hleave : pktQuit ≠ pktLeave := by decide
  simp only [tcpHandle, htype, if_neg hdata, if_neg hleave, if_true]

/-- Only a `PKT_QUIT` ends the process. -/
theorem tcpHandle_exit {env : Env} {fuel : Nat} {now : U64} {fd : Int} {bytes : Buf} {st st' : Proxy}
    (h : tcpHandle env fuel now fd bytes st = .exit st') :
    readU16 env.endian (recvBuf bytes) 0 = some pktQuit := by
  simp only [tcpHandle] at h
  cases htype : readU16 env.endian (recvBuf bytes) 0 with
  | none => rw [htype] at h; cases h
  | some pktType =>
    by_contra hne
    have hother : pktType ≠ pktQuit := fun heq => hne (congrArg some heq)
    simp only [htype, if_neg hother] at h
    repeat' split at h
    all_goals cases h

theorem tapHandle_some {env : Env} {read : Option Buf} {st st' : Proxy}
    (h : tapHandle env read st = some st') : ∃ bytes, tapFrame env.endian read = some bytes ∧
      st' = writeLoop bytes st.socketfds.reverse st := by
  simp only [tapHandle, Option.bind_eq_bind, Option.bind_eq_some_iff] at h
  obtain ⟨bytes, hframe, h⟩ := h
  cases h
  exact ⟨bytes, hframe, rfl⟩

section Round

variable {env : Env} {fuel : Nat} {st : Proxy} {p' : Process} {op : ThreadOp}

theorem ThreadOp.round_tapWrites (h : op.round env fuel st = some p') :
    tapWrites p'.st.trace = (op.written env).toList ++ tapWrites st.trace := by
  cases op with
  | tcpHandle uninit tcpFd now bytes =>
    have hround := tcpHandle_tapWrites { env with uninit } fuel now tcpFd bytes st
    have hwritten : ((ThreadOp.tcpHandle uninit tcpFd now bytes).written env).toList =
        if IsData { env with uninit } bytes then [writeOf bytes] else [] := by
      simp only [written]
      exact apply_ite Option.toList _ _ _
    simp only [round] at h
    rw [hwritten, ← hround]
    split at h
    · rename_i hnext
      cases h
      rw [hnext]
      rfl
    · rename_i hexit
      cases h
      rw [hexit]
      rfl
    · cases h
  | tapHandle read =>
    simp only [round, Option.bind_eq_bind, Option.bind_eq_some_iff] at h
    obtain ⟨st', htap, h⟩ := h
    obtain ⟨bytes, _, rfl⟩ := tapHandle_some htap
    cases h
    exact tapWrites_of_emits (writeLoop_emits bytes _ st)
  | sendPackets uninit =>
    simp only [round, Option.bind_eq_bind, Option.bind_eq_some_iff] at h
    obtain ⟨st', hsend, h⟩ := h
    cases h
    exact tapWrites_of_emits (sendPackets_emits hsend)
  | checkLinkTimeOut now linkTimeout =>
    simp only [round, Option.bind_eq_bind, Option.bind_eq_some_iff] at h
    obtain ⟨st', hsweep, h⟩ := h
    cases h
    exact tapWrites_of_emits ((removeExpiredMembers_emits hsweep).mono fun _ h => h.notTap)

/-- A round that is no control operation leaves all that the process can read as it is. -/
theorem ThreadOp.round_bare (hcontrol : op.control env = none) (h : op.round env fuel st = some p') :
    p'.st.bare = st.bare := by
  cases op with
  | tcpHandle uninit tcpFd now bytes =>
    have htype : readU16 env.endian (recvBuf bytes) 0 ≠ some pktLinkstate := by
      intro htype
      simp only [control, if_pos htype] at hcontrol
      cases hcontrol
    simp only [round] at h
    rcases tcpHandle_cases { env with uninit } fuel now tcpFd bytes st with ⟨_, hround⟩ |
      ⟨hlink, _⟩ | ⟨_, hround | ⟨_, hround | hround⟩⟩
    · rw [hround] at h; cases h; rfl
    · exact absurd hlink htype
    · rw [hround] at h; cases h
    · rw [hround] at h; cases h; rfl
    · rw [hround] at h; cases h; rfl
  | tapHandle read =>
    simp only [round, Option.bind_eq_bind, Option.bind_eq_some_iff] at h
    obtain ⟨st', htap, h⟩ := h
    obtain ⟨bytes, _, rfl⟩ := tapHandle_some htap
    cases h
    exact writeLoop_bare bytes _ st
  | sendPackets uninit =>
    simp only [round, Option.bind_eq_bind, Option.bind_eq_some_iff] at h
    obtain ⟨st', hsend, h⟩ := h
    cases h
    exact sendPackets_bare hsend
  | checkLinkTimeOut now linkTimeout => cases hcontrol

/-- A control operation does the same in every state that looks the same. -/
theorem ThreadOp.round_completes {kop : KeyOp} (hcontrol : op.control env = some kop)
    (h : op.round env fuel st = some p') {kst : Proxy} (hst : kst.bare = st.bare) :
    ∃ kst', kop.Completes env kst kst' ∧ kst'.bare = p'.st.bare := by
  cases op with
  | tcpHandle uninit tcpFd now bytes =>
    simp only [control] at hcontrol
    split at hcontrol
    · rename_i htype
      cases hcontrol
      simp only [round] at h
      split at h
      · rename_i hnext
        cases h
        obtain ⟨kst', hkst, hbare⟩ := tcpHandle_blind (by exact htype) hnext hst
        exact ⟨kst', ⟨fuel, hkst⟩, hbare⟩
      · rename_i hexit
        have hquit := tcpHandle_exit hexit
        exact absurd (htype.symm.trans hquit) (by decide)
      · cases h
    · cases hcontrol
  | checkLinkTimeOut now linkTimeout =>
    cases hcontrol
    simp only [round, Option.bind_eq_bind, Option.bind_eq_some_iff] at h
    obtain ⟨st', hsweep, h⟩ := h
    cases h
    obtain ⟨kst', hkst, hbare⟩ :=
      (removeExpiredMembers_blind fuel now linkTimeout).exists_some hsweep hst
    exact ⟨kst', ⟨fuel, hkst⟩, hbare⟩
  | tapHandle read => cases hcontrol
  | sendPackets uninit => cases hcontrol

theorem ThreadOp.round_running (h : op.round env fuel st = some p') : p'.running = !op.quits env := by
  cases op with
  | tcpHandle uninit tcpFd now bytes =>
    have hquits : (ThreadOp.tcpHandle uninit tcpFd now bytes).quits env = true ↔
        readU16 env.endian (recvBuf bytes) 0 = some pktQuit := decide_eq_true_iff
    simp only [round] at h
    split at h
    · rename_i hnext
      cases h
      have hno : ¬ readU16 env.endian (recvBuf bytes) 0 = some pktQuit := by
        intro htype
        have hexit := hnext.symm.trans (tcpHandle_quit st htype)
        cases hexit
      simp only [Bool.eq_false_iff.mpr fun hq => hno (hquits.mp hq), Bool.not_false]
    · rename_i hexit
      cases h
      have htype := tcpHandle_exit hexit
      simp only [hquits.mpr htype, Bool.not_true]
    · cases h
  | tapHandle read =>
    simp only [round, Option.bind_eq_bind, Option.bind_eq_some_iff] at h
    obtain ⟨st', _, h⟩ := h
    cases h
    rfl
  | sendPackets uninit =>
    simp only [round, Option.bind_eq_bind, Option.bind_eq_some_iff] at h
    obtain ⟨st', _, h⟩ := h
    cases h
    rfl
  | checkLinkTimeOut now linkTimeout =>
    simp only [round, Option.bind_eq_bind, Option.bind_eq_some_iff] at h
    obtain ⟨st', _, h⟩ := h
    cases h
    rfl

end Round

/-! ### Runs -/

/-- The operations of a run, latest first. -/
def inputs {σ ι : Type} (tr : List (Step σ ι)) : List ι := tr.map Step.input

/-- The list and the table of a process are those of a proxy that does nothing but handle the
link-state packets and the sweeps, in their order. The tap device gets the data packets, in theirs.
The process runs until the first `PKT_QUIT`. -/
theorem process_planes {env : Env} {tr : List (Step Process ThreadOp)} {p : Process}
    (hr : ProcessRun env tr p) :
    (∃ ktr kst, KeyRun env ktr kst ∧ inputs ktr = (inputs tr).filterMap (ThreadOp.control env) ∧
      kst.bare = p.st.bare) ∧
    tapWrites p.st.trace = (inputs tr).filterMap (ThreadOp.written env) ∧
    (p.running = true ↔ ∀ op ∈ inputs tr, op.quits env = false) := by
  induction hr with
  | start => exact ⟨⟨[], Proxy.start, .start, rfl, rfl⟩, rfl, by simp [inputs, Process.start]⟩
  | @snoc tr p p' op _ hstep ih =>
    obtain ⟨hrunning, fuel, hround⟩ := hstep
    obtain ⟨⟨ktr, kst, hkr, hops, hbare⟩, hwrites, hquits⟩ := ih
    have hcons : inputs (⟨p, op, p'⟩ :: tr) = op :: inputs tr := rfl
    rw [hcons]
    refine ⟨?_, ?_, ?_⟩
    · cases hcontrol : op.control env with
      | none =>
        refine ⟨ktr, kst, hkr, ?_, hbare.trans (op.round_bare hcontrol hround).symm⟩
        rw [hops, List.filterMap_cons_none hcontrol]
      | some kop =>
        obtain ⟨kst', hkop, hbare'⟩ := op.round_completes hcontrol hround hbare
        refine ⟨⟨kst, kop, kst'⟩ :: ktr, kst', .snoc hkr hkop, ?_, hbare'⟩
        rw [List.filterMap_cons_some hcontrol, ← hops]
        rfl
    · rw [op.round_tapWrites hround, hwrites, List.filterMap_cons]
      cases op.written env <;> rfl
    · rw [op.round_running hround, List.forall_mem_cons]
      have hall := hquits.mp hrunning
      rw [and_iff_left hall]
      cases op.quits env <;> simp

/-- `host 2` connects to `host 1` and sends a frame, then a third process ends `host 1`. -/
theorem some_planes : ∃ tr p, ProcessRun (hostEnv 1) tr p ∧ tr.length = 5 ∧ p.running = false ∧
    p.st.memList.size = 1 ∧ tapWrites p.st.trace = [(2, [1, 2])] ∧
    ∃ ktr kst, KeyRun (hostEnv 1) ktr kst ∧ inputs ktr = (inputs tr).filterMap (ThreadOp.control (hostEnv 1)) ∧
      kst.bare = p.st.bare := by
  let packet : Buf := wireBytes { type := pktLinkstate, length := 50 } 1 (host 2) [linkTo (host 2) (host 1)]
  let quit : Buf := beBytes 2 pktQuit.toNat
  obtain ⟨⟨tr, p⟩, hreplay, hlen, hrunning, hsize, hwrites⟩ : ∃ r ∈ replay
      (fun (p : Process) (op : ThreadOp) =>
        if p.running = true then op.round (hostEnv 1) 3 p.st else none)
      [.tcpHandle (hostEnv 1).uninit 4 0 packet, .tapHandle (some [7]), .sendPackets (hostEnv 1).uninit,
        .tcpHandle (hostEnv 1).uninit 4 1 (dataBytes [1, 2]), .tcpHandle (hostEnv 1).uninit 5 2 quit] []
      Process.start,
      r.1.length = 5 ∧ r.2.running = false ∧ r.2.st.memList.size = 1 ∧
        tapWrites r.2.st.trace = [(2, [1, 2])] := by
    decide +kernel
  have hr : ProcessRun (hostEnv 1) tr p := by
    refine Run.replay ?_ _ .start hreplay
    intro p op p' h
    split at h
    · rename_i hrunning
      exact ⟨hrunning, 3, h⟩
    · cases h
  exact ⟨tr, p, hr, hlen, hrunning, hsize, hwrites, (process_planes hr).1⟩

end Cs352Proxy
