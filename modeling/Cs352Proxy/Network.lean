import Cs352Proxy.Telling
import Cs352Proxy.Tunnel

/-!
# Network

Any number of proxies from start-up on, and the connections between them. In any order clients
connect, chunks are handled in the order they were sent on their connection, lists are flooded,
frames are sent and lists are swept. What one `send` wrote one `recv` returns.

* `Network.Distinguished`: no two hosts have the same address, no two are connected twice.
* `Woven`: the invariant, every host is surrounded by its peers. `Performs.woven`: every step keeps it.
* `network_knows_peers`: no host ever knows more than its own links, and a packet with several links
  stops every host that knows its sender.
-/

namespace Cs352Proxy

open Base

/-- The hosts and the two ends of each connection, with their sockets. -/
structure Network (ι κ : Type) where
  env : ι → Env
  host : κ → Side → ι
  fd : κ → Side → Int

structure Net (ι κ : Type) where
  st : ι → Proxy
  /-- How many chunks each end of a connection has handled. -/
  handled : κ × Side → Nat

def Net.start {ι κ : Type} : Net ι κ := { st := fun _ => Proxy.start, handled := fun _ => 0 }

/-- One host moves on. -/
def Net.put {ι κ : Type} [DecidableEq ι] (p : Net ι κ) (i : ι) (st : Proxy) : Net ι κ :=
  { p with st := Function.update p.st i st }

/-- One end of a connection has handled a chunk. -/
def Net.count {ι κ : Type} [DecidableEq κ] (p : Net ι κ) (c : κ) (x : Side) : Net ι κ :=
  { p with handled := Function.update p.handled (c, x) (p.handled (c, x) + 1) }

theorem Net.le_count {ι κ : Type} [DecidableEq κ] (p : Net ι κ) (c : κ) (x : Side) (e : κ × Side) :
    p.handled e ≤ (p.count c x).handled e := by
  by_cases he : e = (c, x)
  · subst he
    simp [Net.count]
  · simp [Net.count, he]

theorem Net.count_eq_zero {ι κ : Type} [DecidableEq κ] {p : Net ι κ} {c : κ} {x : Side} {e : κ × Side}
    (h : (p.count c x).handled e = 0) : e ≠ (c, x) ∧ p.handled e = 0 := by
  refine ⟨fun he => ?_, Nat.le_zero.mp (h ▸ p.le_count c x e)⟩
  simp [he, Net.count] at h

inductive NetOp (ι κ : Type) where
  /-- `connecttohost`, which leaves the MAC address unset. -/
  | connect (c : κ) (now : U64) (remoteIp : U32) (remotePort : U16) (macaddr : Mac)
  /-- A round of `TCPHandle` at one end, on the next chunk from the other one. -/
  | deliver (c : κ) (x : Side) (uninit : Uninit) (now : U64)
  | flood (i : ι) (uninit : Uninit)
  | frame (i : ι) (read : Option Buf)
  | sweep (i : ι) (now : U64) (linkTimeout : Int)

namespace Network

variable {ι κ : Type} (nw : Network ι κ)

/-- The proxy at the end `x` of a connection. -/
def info (c : κ) (x : Side) : ProxyInfo := (nw.env (nw.host c x)).myProxyInfo

/-- What the other end sent to `x`, oldest first. -/
def sentTo (p : Net ι κ) (c : κ) (x : Side) : List Buf :=
  sentOn (nw.fd c x.other) (p.st (nw.host c x.other))

/-- A round at the end `x` on a chunk. -/
def handle (p : Net ι κ) (c : κ) (x : Side) (uninit : Uninit) (fuel : Nat) (now : U64) (bytes : Buf) :
    Round :=
  tcpHandle { nw.env (nw.host c x) with uninit } fuel now (nw.fd c x) bytes (p.st (nw.host c x))

/-- The end `x` has an entry for the other end. -/
def Knows (p : Net ι κ) (c : κ) (x : Side) : Prop :=
  (p.st (nw.host c x)).findSocketfd (nw.info c x.other).macaddr ≠ none

def perform [DecidableEq ι] [DecidableEq κ] (fuel : Nat) (p : Net ι κ) :
    NetOp ι κ → Option (Net ι κ)
  | .connect c now remoteIp remotePort macaddr => do
    let i := nw.host c .client
    let hello ← connecttohost (nw.env i) now remoteIp remotePort macaddr
    some (p.put i ((p.st i).emit (.send (nw.fd c .client) hello)))
  | .deliver c x uninit now => do
    let bytes ← (nw.sentTo p c x)[p.handled (c, x)]?
    match nw.handle p c x uninit fuel now bytes with
    | .next st => some ((p.put (nw.host c x) st).count c x)
    | .exit _ | .stuck _ => none
  | .flood i uninit => do
    let st ← sendPackets { nw.env i with uninit } fuel (p.st i)
    some (p.put i st)
  | .frame i read => do
    let st ← tapHandle (nw.env i) read (p.st i)
    some (p.put i st)
  | .sweep i now linkTimeout => do
    let st ← removeExpiredMembers fuel now linkTimeout (p.st i)
    some (p.put i st)

/-- A client connects once, and before it sends anything else. A packet of a client that connects comes
to a list that is empty, as the reply would cut it. -/
def Allowed (p : Net ι κ) : NetOp ι κ → Prop
  | .connect c .. => nw.sentTo p c .server = []
  | .deliver c x uninit _ => ∀ bytes ∈ (nw.sentTo p c x)[p.handled (c, x)]?,
    ConnectsWith { nw.env (nw.host c x) with uninit } bytes (p.st (nw.host c x)) →
      (p.st (nw.host c x)).memList.head = none
  | .flood .. | .frame .. | .sweep .. => True

instance (p : Net ι κ) (op : NetOp ι κ) : Decidable (nw.Allowed p op) := by
  cases op
  · exact inferInstanceAs (Decidable (_ = _))
  · exact inferInstanceAs (Decidable (∀ bytes ∈ _, ConnectsWith _ bytes _ → _))
  all_goals exact inferInstanceAs (Decidable True)

def Performs [DecidableEq ι] [DecidableEq κ] (p : Net ι κ) (op : NetOp ι κ) (p' : Net ι κ) :
    Prop :=
  nw.Allowed p op ∧ ∃ fuel, nw.perform fuel p op = some p'

/-- All that a step can do. -/
inductive Outcome [DecidableEq ι] [DecidableEq κ] (p : Net ι κ) : NetOp ι κ → Net ι κ → Prop where
  | connect {c : κ} {now : U64} {remoteIp : U32} {remotePort : U16} {macaddr : Mac} {hello : Buf}
      (hfirst : nw.sentTo p c .server = [])
      (hhello : connecttohost (nw.env (nw.host c .client)) now remoteIp remotePort macaddr = some hello) :
      Outcome p (.connect c now remoteIp remotePort macaddr)
        (p.put (nw.host c .client) ((p.st (nw.host c .client)).emit (.send (nw.fd c .client) hello)))
  | deliver {c : κ} {x : Side} {uninit : Uninit} {now : U64} {fuel : Nat} {bytes : Buf} {st : Proxy}
      (hbytes : (nw.sentTo p c x)[p.handled (c, x)]? = some bytes)
      (hempty : ConnectsWith { nw.env (nw.host c x) with uninit } bytes (p.st (nw.host c x)) →
        (p.st (nw.host c x)).memList.head = none)
      (hround : nw.handle p c x uninit fuel now bytes = .next st) :
      Outcome p (.deliver c x uninit now) ((p.put (nw.host c x) st).count c x)
  | flood {i : ι} {uninit : Uninit} {fuel : Nat} {st : Proxy}
      (hsend : sendPackets { nw.env i with uninit } fuel (p.st i) = some st) :
      Outcome p (.flood i uninit) (p.put i st)
  | frame {i : ι} {read : Option Buf} {st : Proxy} (htap : tapHandle (nw.env i) read (p.st i) = some st) :
      Outcome p (.frame i read) (p.put i st)
  | sweep {i : ι} {now : U64} {linkTimeout : Int} {fuel : Nat} {st : Proxy}
      (hsweep : removeExpiredMembers fuel now linkTimeout (p.st i) = some st) :
      Outcome p (.sweep i now linkTimeout) (p.put i st)

theorem Performs.outcome [DecidableEq ι] [DecidableEq κ] {nw : Network ι κ} {p p' : Net ι κ}
    {op : NetOp ι κ} (h : nw.Performs p op p') : nw.Outcome p op p' := by
  obtain ⟨hallowed, fuel, h⟩ := h
  cases op <;> simp only [perform, Option.bind_eq_bind, Option.bind_eq_some_iff] at h
  case connect c now remoteIp remotePort macaddr =>
    obtain ⟨hello, hhello, h⟩ := h
    cases h
    exact .connect hallowed hhello
  case deliver c x uninit now =>
    obtain ⟨bytes, hbytes, h⟩ := h
    split at h
    · rename_i hround
      cases h
      exact .deliver hbytes (hallowed bytes hbytes) hround
    · cases h
    · cases h
  case flood i uninit =>
    obtain ⟨st, hsend, h⟩ := h
    cases h
    exact .flood hsend
  case frame i read =>
    obtain ⟨st, htap, h⟩ := h
    cases h
    exact .frame htap
  case sweep i now linkTimeout =>
    obtain ⟨st, hsweep, h⟩ := h
    cases h
    exact .sweep hsweep

/-- Each host has an address and sockets of its own, and a pair of hosts at most one connection. -/
structure Distinguished : Prop where
  key : ∀ i j, (nw.env i).myProxyInfo.macaddr.key = (nw.env j).myProxyInfo.macaddr.key → i = j
  named : ∀ i, (nw.env i).myProxyInfo.macaddr.key ≠ Mac.zero.key
  ip : ∀ i j, (nw.env i).myProxyInfo.ip = (nw.env j).myProxyInfo.ip → i = j
  apart : ∀ c x, nw.host c x.other ≠ nw.host c x
  once : ∀ c x c' x', nw.host c x = nw.host c' x' → nw.host c x.other = nw.host c' x'.other →
    (c, x) = (c', x')
  socket : ∀ c x c' x', nw.host c x = nw.host c' x' → nw.fd c x = nw.fd c' x' → (c, x) = (c', x')

/-- The proxy that the host `i` reaches through a socket. -/
def Peer (i : ι) (peer : ProxyInfo) (fd : Int) : Prop :=
  ∃ c x, nw.host c x = i ∧ nw.fd c x = fd ∧ nw.info c x.other = peer

/-! ## The invariant -/

/-- What can be on its way as the `n`th chunk to the end `x`: a frame, what is true, or what
`connecttohost` sent. -/
def Fits (c : κ) (x : Side) (n : Nat) (bytes : Buf) : Prop :=
  (∃ read, bytes = frameBytes read) ∨
    ∃ links, Tells (nw.env (nw.host c x.other)) links bytes ∧
      (Truthful (nw.env (nw.host c x)) links ∨ links.length = 1 ∧ n = 0)

structure Woven (p : Net ι κ) : Prop where
  side : ∀ i, ∃ t cells, Shows (p.st i) t cells ∧ t.Surrounded (nw.env i) (nw.Peer i)
  sent : ∀ c x n bytes, (nw.sentTo p c x)[n]? = some bytes → nw.Fits c x n bytes
  fresh : ∀ c x, p.handled (c, x) = 0 → ¬ nw.Knows p c x

variable {nw} {p p' : Net ι κ} {i : ι} {c : κ} {x : Side} {st : Proxy} {t : Topology} {bytes : Buf}

theorem start_woven : nw.Woven .start where
  side i := ⟨_, _, shows_start, Topology.surrounded_start _ _⟩
  sent c x n bytes hget := by cases hget
  fresh c x _ hknows := hknows rfl

/-- What a host has sent so far fits, so what is new must. -/
theorem Woven.extends (hw : nw.Woven p) (hi : nw.host c x = i)
    (hnew : ∃ new, sentOn (nw.fd c x) st = sentOn (nw.fd c x) (p.st i) ++ new ∧
      ∀ b ∈ new, ∀ n, nw.Fits c x.other n b) {n : Nat}
    (hget : (sentOn (nw.fd c x) st)[n]? = some bytes) : nw.Fits c x.other n bytes := by
  obtain ⟨new, hnew, hall⟩ := hnew
  rw [hnew, List.getElem?_append] at hget
  split at hget
  · exact hw.sent c x.other n bytes (by simpa [sentTo, hi] using hget)
  · exact hall bytes (List.mem_of_getElem? hget) n

/-- What a step of one host must do. -/
theorem Woven.put [DecidableEq ι] (hw : nw.Woven p) {handled : κ × Side → Nat}
    (hside : ∃ t cells, Shows st t cells ∧ t.Surrounded (nw.env i) (nw.Peer i))
    (hsent : ∀ c x n bytes, nw.host c x = i → (sentOn (nw.fd c x) st)[n]? = some bytes →
      nw.Fits c x.other n bytes)
    (hfresh : ∀ c x, nw.host c x = i → handled (c, x) = 0 →
      st.findSocketfd (nw.info c x.other).macaddr = none)
    (hhandled : ∀ e, p.handled e ≤ handled e) : nw.Woven { p.put i st with handled } := by
  refine ⟨fun j => ?_, fun c x n bytes hget => ?_, fun c x hzero hknows => ?_⟩
  · by_cases hj : j = i
    · subst hj
      simpa [Net.put] using hside
    · simpa [Net.put, hj] using hw.side j
  · by_cases hi : nw.host c x.other = i
    · have hfits := hsent c x.other n bytes hi (by simpa [sentTo, Net.put, hi] using hget)
      rwa [Side.other_other] at hfits
    · exact hw.sent c x n bytes (by simpa [sentTo, Net.put, hi] using hget)
  · by_cases hi : nw.host c x = i
    · refine hknows ?_
      simpa [Net.put, hi] using hfresh c x hi hzero
    · refine hw.fresh c x (Nat.le_zero.mp ?_) (by simpa [Knows, Net.put, hi] using hknows)
      rw [← hzero]
      exact hhandled (c, x)

/-! ## What is told is true -/

theorem Distinguished.apart_env (hd : nw.Distinguished) (c : κ) (x : Side) (uninit : Uninit) :
    Apart { nw.env (nw.host c x) with uninit } (nw.env (nw.host c x.other)) :=
  ⟨fun h => hd.apart c x (hd.key _ _ h), hd.named _, fun h => hd.apart c x (hd.ip _ _ h)⟩

theorem Distinguished.named_mac (hd : nw.Distinguished) (c : κ) (x : Side) :
    (nw.info c x).macaddr ≠ Mac.zero :=
  fun h => hd.named (nw.host c x) (congrArg Mac.key h)

theorem Distinguished.peer_eq (hd : nw.Distinguished) {peer : ProxyInfo}
    (h : nw.Peer (nw.host c x) peer (nw.fd c x)) : peer = nw.info c x.other := by
  obtain ⟨c', x', hhost, hfd, rfl⟩ := h
  have heq := hd.socket c' x' c x hhost hfd
  cases heq
  rfl

/-- A host that an entry leads to is told of itself. -/
theorem Distinguished.truthful (hd : nw.Distinguished)
    (ht : t.Surrounded (nw.env (nw.host c x)) (nw.Peer (nw.host c x))) {e : ProxySocketfd}
    (he : e ∈ t.routes) (hfd : e.sockFd = nw.fd c x) :
    Truthful (nw.env (nw.host c x.other)) t.links := by
  have hpeer : ∀ l ∈ t.links, ∃ c' x', l.remoteInfo = nw.info c' x' := by
    intro l hl
    obtain ⟨_, _, c', x', _, _, hremote⟩ := ht.peered hl
    exact ⟨c', x'.other, hremote.symm⟩
  refine ⟨fun l hl hip => ?_, fun l hl => ?_, ?_, ht.keys⟩
  · obtain ⟨c', x', hremote⟩ := hpeer l hl
    rw [hremote] at hip ⊢
    have hhost := hd.ip _ _ hip
    rw [info, hhost]
  · obtain ⟨c', x', hremote⟩ := hpeer l hl
    rw [hremote]
    exact hd.named_mac c' x'
  · obtain ⟨l, hl, _, hlink⟩ := ht.entries e he
    rw [hfd] at hlink
    exact ⟨l, hl, hd.peer_eq hlink⟩

/-- The link in the answer to a client. -/
theorem Distinguished.truthful_client (hd : nw.Distinguished) (c : κ) (x : Side) (env : Env)
    (now : U64) : Truthful (nw.env (nw.host c x)) [Topology.client env (nw.info c x) now] := by
  refine ⟨fun l hl _ => ?_, fun l hl => ?_, ⟨_, List.mem_singleton_self _, rfl⟩,
    List.nodup_singleton _⟩
  · rw [List.mem_singleton.mp hl]
    rfl
  · rw [List.mem_singleton.mp hl]
    exact hd.named_mac c x

/-- What is new on the sockets of a host, if it is all right for whoever gets it. -/
theorem fits_of_truthful {links : List Link} (htells : Tells (nw.env (nw.host c x.other)) links bytes)
    (htrue : Truthful (nw.env (nw.host c x)) links) (n : Nat) : nw.Fits c x n bytes :=
  .inr ⟨links, htells, .inl htrue⟩

/-- The end `x` knows the sender, or what comes may be the first packet. -/
theorem Woven.hears (hw : nw.Woven p) {links : List Link} {cells : Cells} (uninit : Uninit)
    (hs : Shows (p.st (nw.host c x)) t cells)
    (hfits : Truthful (nw.env (nw.host c x)) links ∨ links.length = 1 ∧ p.handled (c, x) = 0) :
    t.Hears { nw.env (nw.host c x) with uninit } (nw.env (nw.host c x.other)) links := by
  rcases hfits with htrue | ⟨hone, hzero⟩
  · exact .inl ⟨htrue.back, htrue.named, htrue.here, htrue.keys⟩
  · exact .inr ⟨hone, (hs.route _).trans (not_not.mp (hw.fresh c x hzero))⟩

/-! ## Steps -/

section Steps

variable [DecidableEq ι]

theorem Woven.moves (hw : nw.Woven p)
    (hside : ∃ t cells, Shows st t cells ∧ t.Surrounded (nw.env i) (nw.Peer i))
    (hsent : ∀ c x n bytes, nw.host c x = i → (sentOn (nw.fd c x) st)[n]? = some bytes →
      nw.Fits c x.other n bytes)
    (hroutes : ∀ mac, (p.st i).findSocketfd mac = none → st.findSocketfd mac = none) :
    nw.Woven (p.put i st) := by
  refine hw.put hside hsent (fun c x hi hzero => hroutes _ ?_) fun e => Nat.le_refl _
  have hfresh := not_not.mp (hw.fresh c x hzero)
  rwa [hi] at hfresh

theorem Woven.connect {now : U64} {remoteIp : U32} {remotePort : U16} {macaddr : Mac} {hello : Buf}
    (hd : nw.Distinguished) (hw : nw.Woven p) (hfirst : nw.sentTo p c .server = [])
    (h : connecttohost (nw.env (nw.host c .client)) now remoteIp remotePort macaddr = some hello) :
    nw.Woven (p.put (nw.host c .client)
      ((p.st (nw.host c .client)).emit (.send (nw.fd c .client) hello))) := by
  obtain ⟨t, cells, hs, ht⟩ := hw.side (nw.host c .client)
  refine hw.moves ⟨t, cells, ⟨hs.list, hs.links, hs.size, hs.routes⟩, ht⟩ ?_ fun _ hnone => hnone
  intro c' x' n bytes hi hget
  have hsent := sentOn_emit (nw.fd c' x') (nw.fd c .client) hello (p.st (nw.host c .client))
  by_cases hfd : nw.fd c .client = nw.fd c' x'
  · -- it is the first chunk on its connection
    cases hd.socket c' x' c .client hi hfd.symm
    rw [if_pos rfl, show sentOn (nw.fd c .client) (p.st (nw.host c .client)) = [] from hfirst] at hsent
    rw [hsent] at hget
    cases n with
    | succ n => cases hget
    | zero =>
      cases hget
      rw [connecttohost_eq] at h
      cases h
      exact .inr ⟨_, tells_one rfl, .inr ⟨rfl, rfl⟩⟩
  · rw [if_neg hfd] at hsent
    exact hw.extends hi ⟨[], hsent, by simp⟩ hget

theorem Woven.flood {fuel : Nat} {uninit : Uninit} (hd : nw.Distinguished) (hw : nw.Woven p)
    (h : sendPackets { nw.env i with uninit } fuel (p.st i) = some st) : nw.Woven (p.put i st) := by
  obtain ⟨t, cells, hs, ht⟩ := hw.side i
  obtain ⟨hs', hsent⟩ := sendPackets_tells hs (ht.reseed uninit) h
  refine hw.moves ⟨t, cells, hs', ht⟩ (fun c x n bytes hi => hw.extends hi ?_) fun mac hnone => ?_
  · obtain ⟨new, hnew, hall⟩ := hsent (nw.fd c x)
    refine ⟨new, hnew, fun b hb n => ?_⟩
    obtain ⟨htells, e, he, hfd⟩ := hall b hb
    subst hi
    exact fits_of_truthful (by rw [Side.other_other]; exact htells.reseed) (hd.truthful ht he hfd) n
  · rw [← hs'.route, hs.route]
    exact hnone

theorem Woven.frame {read : Option Buf} (hw : nw.Woven p)
    (h : tapHandle (nw.env i) read (p.st i) = some st) : nw.Woven (p.put i st) := by
  obtain ⟨t, cells, hs, ht⟩ := hw.side i
  obtain ⟨bytes, hframe, rfl⟩ := tapHandle_some h
  rw [tapFrame_eq (nw.env i).endian (length_of_tapFrame hframe)] at hframe
  cases hframe
  have hbare := writeLoop_bare (frameBytes read) (p.st i).socketfds.reverse (p.st i)
  have hs' : Shows (writeLoop (frameBytes read) (p.st i).socketfds.reverse (p.st i)).bare t cells := by
    rw [hbare]
    exact ⟨hs.list, hs.links, hs.size, hs.routes⟩
  refine hw.moves ⟨t, cells, ⟨hs'.list, hs'.links, hs'.size, hs'.routes⟩, ht⟩
    (fun c x n bytes hi => hw.extends hi ⟨_, sentOn_writeLoop _ _ _ _, fun b hb n => ?_⟩)
    fun mac hnone => ?_
  · exact .inl ⟨read, List.eq_of_mem_replicate hb⟩
  · rw [Proxy.findSocketfd, writeLoop_socketfds]
    exact hnone

theorem Woven.sweep {fuel : Nat} {now : U64} {linkTimeout : Int} (hw : nw.Woven p)
    (h : removeExpiredMembers fuel now linkTimeout (p.st i) = some st) : nw.Woven (p.put i st) := by
  obtain ⟨t, cells, hs, ht⟩ := hw.side i
  obtain ⟨cells', hs', _⟩ := removeExpiredMembers_refines hs h
  have hsends := (removeExpiredMembers_emits h).sends_eq
  refine hw.moves ⟨_, cells', hs', Topology.expire_surrounded ht _ _⟩
    (fun c x n bytes hi => hw.extends hi (sentOn_same hsends _)) fun mac hnone => ?_
  rw [← hs'.route, Topology.expire_route _ _ ht.table]
  split
  · rfl
  · exact (hs.route mac).trans hnone

variable [DecidableEq κ]

theorem Woven.deliver {fuel : Nat} {uninit : Uninit} {now : U64} (hd : nw.Distinguished)
    (hw : nw.Woven p) (hbytes : (nw.sentTo p c x)[p.handled (c, x)]? = some bytes)
    (hempty : ConnectsWith { nw.env (nw.host c x) with uninit } bytes (p.st (nw.host c x)) →
      (p.st (nw.host c x)).memList.head = none)
    (h : nw.handle p c x uninit fuel now bytes = .next st) :
    nw.Woven ((p.put (nw.host c x) st).count c x) := by
  obtain ⟨t, cells, hs, ht⟩ := hw.side (nw.host c x)
  rcases hw.sent c x _ bytes hbytes with ⟨read, rfl⟩ | ⟨links, htells, hfits⟩
  · -- a frame only goes to the tap device
    rw [handle, tcpHandle_isData _ _ _ _ _ (isData_frameBytes _ read)] at h
    cases h
    refine hw.put ⟨t, cells, ⟨hs.list, hs.links, hs.size, hs.routes⟩, ht⟩
      (fun c' x' n bytes hi => hw.extends hi (sentOn_same rfl _)) (fun c' x' hi hzero => ?_)
      (p.le_count c x)
    have hfresh := not_not.mp (hw.fresh c' x' (Net.count_eq_zero hzero).2)
    rwa [hi] at hfresh
  · have hhears := hw.hears uninit hs hfits
    obtain ⟨⟨t', cells', hs', ht', hreaches⟩, hsends⟩ := tcpHandle_surrounded hs (ht.reseed uninit)
      (hd.apart_env c x uninit) ⟨c, x, rfl, rfl, rfl⟩ htells hhears hempty h
    refine hw.put ⟨t', cells', hs', ht'.reseed (nw.env (nw.host c x)).uninit⟩
      (fun c' x' n bytes hi => hw.extends hi ?_) (fun c' x' hi hzero => ?_) (p.le_count c x)
    · rcases hsends with hsame | ⟨b, hreply, htold⟩
      · exact sentOn_same hsame _
      · refine ⟨_, sentOn_cons hreply _, fun b' hb' n => ?_⟩
        split at hb'
        · rename_i hfd
          cases hd.socket c' x' c x hi hfd.symm
          rw [List.mem_singleton.mp hb']
          refine fits_of_truthful ?_ (hd.truthful_client c x.other (nw.env (nw.host c x)) now) n
          rw [Side.other_other]
          exact htold.reseed
        · cases hb'
    · obtain ⟨hne, hold⟩ := Net.count_eq_zero hzero
      have hfresh := not_not.mp (hw.fresh c' x' hold)
      rw [hi] at hfresh
      rw [← hs'.route]
      refine hreaches _ (fun hkey => hne ?_) ((hs.route _).trans hfresh)
      exact hd.once c' x' c x hi (hd.key _ _ hkey)

theorem Performs.woven {op : NetOp ι κ} (hd : nw.Distinguished) (hw : nw.Woven p)
    (h : nw.Performs p op p') : nw.Woven p' := by
  cases h.outcome with
  | connect hfirst hhello => exact hw.connect hd hfirst hhello
  | deliver hbytes hempty hround => exact hw.deliver hd hbytes hempty hround
  | flood hsend => exact hw.flood hd hsend
  | frame htap => exact hw.frame htap
  | sweep hsweep => exact hw.sweep hsweep

end Steps

/-! ## Runs -/

/-- The list and the table of a host: a link of its own to each of some peers, and the socket that
leads there. -/
structure KnowsPeers (nw : Network ι κ) (i : ι) (st : Proxy) (cells : Cells) : Prop where
  list : NodeList st.heap st.memList.head cells
  size : st.memList.size = cells.length
  once : (cells.map fun x => x.2.remoteInfo.macaddr.key).Nodup
  links : ∀ x ∈ cells, x.2.localInfo = (nw.env i).myProxyInfo ∧
    ∃ e, st.findSocketfd x.2.remoteInfo.macaddr = some e ∧ nw.Peer i x.2.remoteInfo e.sockFd
  entries : ∀ e ∈ st.socketfds, ∃ x ∈ cells, x.2.remoteInfo.macaddr = e.macaddr

theorem Woven.knowsPeers (hw : nw.Woven p) (i : ι) : ∃ cells, nw.KnowsPeers i (p.st i) cells := by
  obtain ⟨t, cells, hs, ht⟩ := hw.side i
  have hcounted : t.size = t.links.length := ht.counted
  have hlink : ∀ x ∈ cells, x.2.toLink ∈ t.links := fun x hx => by
    rw [← hs.links]
    exact List.mem_map_of_mem (f := fun x => x.2.toLink) hx
  refine ⟨cells, hs.list, ?_, ?_, fun x hx => ⟨ht.own _ (hlink x hx), ?_⟩, fun e he => ?_⟩
  · rw [hs.size, hcounted, ← hs.links, Cells.length_links]
  · have hkeys := ht.keys
    rw [← hs.links, Cells.links, List.map_map] at hkeys
    exact hkeys
  · obtain ⟨e, hroute, hpeer⟩ := ht.peered (hlink x hx)
    exact ⟨e, (hs.route _).symm.trans hroute, hpeer⟩
  · rw [hs.routes] at he
    obtain ⟨l, hl, hmac, _⟩ := ht.entries e he
    rw [← hs.links] at hl
    obtain ⟨x, hx, rfl⟩ := List.mem_map.mp hl
    exact ⟨x, hx, hmac.symm⟩

theorem Woven.handle_iff (hd : nw.Distinguished) (hw : nw.Woven p)
    (hbytes : (nw.sentTo p c x)[p.handled (c, x)]? = some bytes) (uninit : Uninit) (now : U64) :
    (∃ fuel st, nw.handle p c x uninit fuel now bytes = .next st) ↔
      (nw.Knows p c x →
        readU16 (nw.env (nw.host c x)).endian (recvBuf bytes) 0 = some pktLinkstate →
        readU16 (nw.env (nw.host c x)).endian (recvBuf bytes) 4 = some 1) := by
  obtain ⟨t, cells, hs, ht⟩ := hw.side (nw.host c x)
  rcases hw.sent c x _ bytes hbytes with ⟨read, rfl⟩ | ⟨links, htells, hfits⟩
  · have hdata := isData_frameBytes { nw.env (nw.host c x) with uninit } read
    refine ⟨fun _ _ htype => ?_, fun _ => ⟨0, _, tcpHandle_isData _ _ _ _ _ hdata⟩⟩
    have hnot := htype.symm.trans (of_decide_eq_true hdata)
    exact absurd (Option.some.inj hnot) (by decide)
  · have hreturns := tcpHandle_returns_iff hs (ht.reseed uninit) (hd.apart_env c x uninit) htells
      (hw.hears uninit hs hfits) now (nw.fd c x)
    have hcount := htells.count (nw.env (nw.host c x)).endian
    have hknows : nw.Knows p c x ↔ t.route (nw.info c x.other).macaddr ≠ none := by
      rw [Knows, hs.route]
    have hone : BitVec.ofNat 16 links.length = 1 ↔ links.length = 1 :=
      ⟨fun h => by_contra fun hlen => htells.count_ne_one hlen h, fun h => by rw [h]; rfl⟩
    refine hreturns.trans ?_
    rw [hcount, Option.some.injEq, hone, hknows]
    constructor
    · intro h hsome _
      exact h.resolve_left hsome
    · intro h
      by_cases hnone : t.route (nw.info c x.other).macaddr = none
      · exact .inl hnone
      · exact .inr (h hnone (htells.type _))

/-- However many hosts there are and whatever their order of steps, each knows its own links and
nothing else. What it is sent it handles to the end exactly if it is no packet of a sender that it
knows with any other number of links than one. -/
theorem network_knows_peers [DecidableEq ι] [DecidableEq κ] {tr : List (Step (Net ι κ) (NetOp ι κ))}
    (hd : nw.Distinguished) (hr : Run .start nw.Performs tr p) :
    (∀ i, ∃ cells, nw.KnowsPeers i (p.st i) cells) ∧
      ∀ c x bytes, (nw.sentTo p c x)[p.handled (c, x)]? = some bytes → ∀ uninit now,
        ((∃ fuel st, nw.handle p c x uninit fuel now bytes = .next st) ↔
          (nw.Knows p c x →
            readU16 (nw.env (nw.host c x)).endian (recvBuf bytes) 0 = some pktLinkstate →
            readU16 (nw.env (nw.host c x)).endian (recvBuf bytes) 4 = some 1)) := by
  obtain ⟨hw, _⟩ := Run.invariant (P := nw.Woven) start_woven
    (fun _ _ _ hw hs => Performs.woven hd hw hs) hr
  exact ⟨hw.knowsPeers, fun c x bytes hbytes uninit now => hw.handle_iff hd hbytes uninit now⟩

end Network

/-- Two clients of `host 1`. -/
def threeHosts : Network (Fin 3) (Fin 2) where
  env i := hostEnv (BitVec.ofNat 8 (i.val + 1))
  host c
    | .client => c.succ
    | .server => 0
  fd c
    | .client => 4
    | .server => 5 + c.val

theorem threeHosts_distinguished : threeHosts.Distinguished where
  key := by decide
  named := by decide
  ip := by decide
  apart c x := by cases x <;> revert c <;> decide
  once c x c' x' := by cases x <;> cases x' <;> revert c c' <;> decide
  socket c x c' x' := by cases x <;> cases x' <;> revert c c' <;> decide

theorem threeHosts_run {ops : List (NetOp (Fin 3) (Fin 2))}
    {tr : List (Step (Net (Fin 3) (Fin 2)) (NetOp (Fin 3) (Fin 2)))} {p : Net (Fin 3) (Fin 2)}
    (h : replay (fun p op => if threeHosts.Allowed p op then threeHosts.perform 4 p op else none) ops []
      .start = some (tr, p)) : Run .start threeHosts.Performs tr p := by
  refine Run.replay ?_ ops .start h
  intro p op p' h
  split at h
  · rename_i hallowed
    exact ⟨hallowed, 4, h⟩
  · cases h

/-- The clients connect one after the other. The first one knows the server when it is told of both
links, and hangs. -/
theorem three_hosts_hang : ∃ tr p bytes, Run .start threeHosts.Performs tr p ∧ tr.length = 7 ∧
    (threeHosts.sentTo p 0 .client)[p.handled (0, .client)]? = some bytes ∧
    (∀ i, ∃ cells, threeHosts.KnowsPeers i (p.st i) cells) ∧
    ¬ ∃ fuel st, threeHosts.handle p 0 .client (hostEnv 2).uninit fuel 12 bytes = .next st := by
  let u : Uninit := (hostEnv 2).uninit
  let connect (c : Fin 2) : NetOp (Fin 3) (Fin 2) := .connect c 0 (host 1).ip (host 1).portno Mac.zero
  obtain ⟨⟨tr, p⟩, hreplay, hlen, bytes, hbytes, hknows, htype, hcount⟩ : ∃ r ∈ replay
      (fun p op => if threeHosts.Allowed p op then threeHosts.perform 4 p op else none)
      [connect 0, .deliver 0 .server u 9, .flood 0 u, .deliver 0 .client u 10, connect 1,
        .deliver 1 .server u 11, .flood 0 u] [] .start,
      r.1.length = 7 ∧ ∃ bytes ∈ (threeHosts.sentTo r.2 0 .client)[r.2.handled (0, .client)]?,
        (r.2.st 1).findSocketfd (host 1).macaddr ≠ none ∧
        readU16 .little (recvBuf bytes) 0 = some pktLinkstate ∧
        readU16 .little (recvBuf bytes) 4 ≠ some 1 := by
    decide +kernel
  have hr := threeHosts_run hreplay
  obtain ⟨hknown, hhandle⟩ := Network.network_knows_peers threeHosts_distinguished hr
  refine ⟨tr, p, bytes, hr, hlen, hbytes, hknown, fun hreturns => hcount ?_⟩
  exact (hhandle 0 .client bytes hbytes u 12).mp hreturns hknows htype

end Cs352Proxy
