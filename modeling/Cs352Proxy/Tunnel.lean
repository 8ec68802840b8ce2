import Cs352Proxy.Neighbours
import Cs352Proxy.Process
import Cs352Proxy.Reply

/-!
# Tunnel

What the process is for: two hosts whose tap devices are joined by one connection. Each host is a
whole process; what one `recv` of a host returns is the next thing the other host sent.

* `htonLinkstate_take`: every encoded packet begins with its type.
* `ThreadOp.writesFor`: what a round puts on a connection for the tap device of the other host. A round
  that is not one of `TAPHandle` sends link-state packets only (`ThreadOp.round_sentOn`).
* `tunnel_delivers`: in every run, what is written to a tap device is what the other host read from
  its own, in order.
-/

namespace Cs352Proxy

open Base

/-! ## The type field -/

section Encoder

variable {e : Endian} {buf buf' : Buf}

theorem htonHeader_take {head : PktHeader} (h : htonHeader e head buf = some buf') :
    buf'.take 2 = beBytes 2 head.type.toNat := by
  simp only [htonHeader, Option.bind_eq_bind, Option.bind_eq_some_iff, store_htons] at h
  obtain ⟨typed, htype, hlength⟩ := h
  rw [memcpy_take hlength (Nat.le_refl 2)]
  simp only [memcpy] at htype
  split at htype
  · cases htype
    simp
  · cases htype

theorem htonProxyInfo_take {proxy : ProxyInfo} {off : Nat} (hoff : 2 ≤ off)
    (h : htonProxyInfo e proxy buf off = some buf') : buf'.take 2 = buf.take 2 := by
  simp only [htonProxyInfo, Option.bind_eq_bind, Option.bind_eq_some_iff] at h
  obtain ⟨b₁, h₁, b₂, h₂, h₃⟩ := h
  rw [memcpy_take h₃ (by omega), memcpy_take h₂ (by omega), memcpy_take h₁ hoff]

theorem htonNode_take {node : Link} {i : Nat} (h : htonNode e node i buf = some buf') :
    buf'.take 2 = buf.take 2 := by
  simp only [htonNode, Option.bind_eq_bind, Option.bind_eq_some_iff] at h
  obtain ⟨b₁, h₁, b₂, h₂, b₃, h₃, h₄⟩ := h
  rw [memcpy_take h₄ (by omega), memcpy_take h₃ (by omega), htonProxyInfo_take (by omega) h₂,
    htonProxyInfo_take (by omega) h₁]

theorem htonNodes_take {heap : List LinkstateNode} {fuel : Nat} :
    ∀ {p : Ptr} {i : Nat} {buf : Buf}, htonNodes e heap fuel p i buf = some buf' →
      buf'.take 2 = buf.take 2 := by
  induction fuel with
  | zero => intro p i buf h; cases h
  | succ fuel ih =>
    intro p i buf h
    cases p with
    | none => cases h; rfl
    | some a =>
      simp only [htonNodes, Option.bind_eq_bind, Option.bind_eq_some_iff] at h
      obtain ⟨node, _, b, hnode, h⟩ := h
      rw [ih h, htonNode_take hnode]

theorem htonLinkstate_take {fuel : Nat} {heap : List LinkstateNode} {pkt : LinkstatePkt}
    (h : htonLinkstate e fuel heap pkt buf = some buf') : buf'.take 2 = beBytes 2 pkt.head.type.toNat := by
  simp only [htonLinkstate, Option.bind_eq_bind, Option.bind_eq_some_iff] at h
  obtain ⟨b₁, hhead, b₂, hcount, b₃, hsource, hnodes⟩ := h
  rw [htonNodes_take hnodes, htonProxyInfo_take (by omega) hsource, memcpy_take hcount (by omega),
    htonHeader_take hhead]

end Encoder

theorem sendBytes_take {env : Env} {fuel : Nat} {lstate : LinkstatePkt} {buf bytes : Buf} {st : Proxy}
    (h : sendBytes env fuel lstate buf st = some bytes) :
    bytes.take 2 = beBytes 2 lstate.head.type.toNat := by
  simp only [sendBytes, Option.bind_eq_bind, Option.bind_eq_some_iff] at h
  obtain ⟨b, hencode, hslice⟩ := h
  rw [← htonLinkstate_take hencode]
  simp only [slice] at hslice
  split at hslice
  · have hheader : layoutPktHeader.size = 4 := by decide
    cases hslice
    rw [List.take_take, List.drop_zero, hheader, Nat.min_eq_left (by omega)]
  · cases hslice

theorem readU16_typed (e : Endian) {bytes : Buf} {type : U16} (h : bytes.take 2 = beBytes 2 type.toNat) :
    readU16 e (recvBuf bytes) 0 = some type := by
  have hsplit : recvBuf bytes = [] ++ (beBytes 2 type.toNat ++
      (bytes.drop 2 ++ List.replicate (maxPktLen - bytes.length) 0)) := by
    rw [← h, List.nil_append, ← List.append_assoc, List.take_append_drop]
    rfl
  rw [hsplit]
  exact readU16_eq e type 0 [] _ rfl

/-- The bytes of a link-state packet. -/
def IsLinkstate (bytes : Buf) : Prop := bytes.take 2 = beBytes 2 pktLinkstate.toNat

theorem IsLinkstate.not_isData {bytes : Buf} (h : IsLinkstate bytes) (env : Env) :
    IsData env bytes = false := by
  unfold IsData
  rw [readU16_typed env.endian h]
  decide

theorem wireBytes_isLinkstate {head : PktHeader} (htype : head.type = pktLinkstate) (nn : U16)
    (source : ProxyInfo) (links : List Link) : IsLinkstate (wireBytes head nn source links) := by
  unfold IsLinkstate wireBytes prefixBytes headerBytes
  simp only [List.append_assoc, htype]
  exact List.take_left' (length_beBytes _ _)

/-! ## What a round sends -/

/-- What the receiver writes to its tap device for a round of `TAPHandle`. A failed `read`, `none`, still
sends three bytes of a header, and the receiver's count is then `(size_t) -1`. -/
def delivery (read : Option Buf) : Nat × Buf := writeOf (frameBytes read)

theorem delivery_some {bytes : Buf} (hlen : bytes.length ≤ maxDataLen) :
    delivery (some bytes) = (bytes.length, bytes) := writeOf_dataBytes hlen

/-- What the receiver of these chunks writes to its tap device. -/
def tapData (env : Env) (chunks : List Buf) : List (Nat × Buf) := (chunks.filter (IsData env)).map writeOf

theorem tapData_append (env : Env) (l l' : List Buf) :
    tapData env (l ++ l') = tapData env l ++ tapData env l' := by
  rw [tapData, List.filter_append, List.map_append]
  rfl

theorem tapData_linkstate (env : Env) {chunks : List Buf} (h : ∀ bytes ∈ chunks, IsLinkstate bytes) :
    tapData env chunks = [] := by
  have hnil : chunks.filter (IsData env) = [] :=
    List.filter_eq_nil_iff.mpr fun bytes hmem => by simp [(h bytes hmem).not_isData env]
  rw [tapData, hnil]
  rfl

theorem isData_frameBytes (env : Env) (read : Option Buf) : IsData env (frameBytes read) = true := by
  cases read with
  | none =>
    have htype : (frameBytes none).take 2 = beBytes 2 pktData.toNat := by decide
    simp [IsData, readU16_typed env.endian htype]
  | some bytes => exact isData_dataBytes env bytes

theorem tapData_replicate (env : Env) (n : Nat) (read : Option Buf) :
    tapData env (List.replicate n (frameBytes read)) = List.replicate n (delivery read) := by
  rw [tapData, List.filter_replicate, if_pos (isData_frameBytes env read), List.map_replicate]
  rfl

theorem sentOn_cons {s : Int} {bytes : Buf} {st st' : Proxy} (h : sends st' = (s, bytes) :: sends st)
    (fd : Int) : sentOn fd st' = sentOn fd st ++ if s = fd then [bytes] else [] := by
  rw [sentOn, h, sentOn]
  by_cases hs : s = fd <;> simp [hs]

theorem sentOn_emit (fd s : Int) (bytes : Buf) (st : Proxy) :
    sentOn fd (st.emit (.send s bytes)) = sentOn fd st ++ if s = fd then [bytes] else [] :=
  sentOn_cons rfl fd

/-- How many entries of the table have the socket. -/
def entries (fd : Int) (st : Proxy) : Nat := (st.socketfds.map ProxySocketfd.sockFd).count fd

theorem sentOn_writeLoop (fd : Int) (bytes : Buf) (l : List ProxySocketfd) (st : Proxy) :
    sentOn fd (writeLoop bytes l st) =
      sentOn fd st ++ List.replicate ((l.map ProxySocketfd.sockFd).count fd) bytes := by
  induction l generalizing st with
  | nil => simp [writeLoop]
  | cons s l ih =>
    rw [writeLoop, ih, sentOn_emit, List.append_assoc, List.map_cons, List.count_cons]
    by_cases hs : s.sockFd = fd
    · simp [hs, List.replicate_succ]
    · simp [hs]

theorem sentOn_sendLoop {env : Env} {fuel : Nat} {lstate : LinkstatePkt} {l : List ProxySocketfd}
    {st st' : Proxy} (htype : lstate.head.type = pktLinkstate)
    (h : sendLoop env fuel lstate l st = some st') (fd : Int) :
    ∃ new, sentOn fd st' = sentOn fd st ++ new ∧ ∀ bytes ∈ new, IsLinkstate bytes := by
  induction l generalizing st with
  | nil => cases h; exact ⟨[], (List.append_nil _).symm, by simp⟩
  | cons s l ih =>
    simp only [sendLoop, Option.bind_eq_bind, Option.bind_eq_some_iff] at h
    obtain ⟨bytes, hbytes, h⟩ := h
    have hlink : IsLinkstate bytes := by
      rw [IsLinkstate, sendBytes_take hbytes, htype]
    obtain ⟨new, hnew, hall⟩ := ih h
    refine ⟨(if s.sockFd = fd then [bytes] else []) ++ new, ?_, ?_⟩
    · rw [hnew, sentOn_emit, List.append_assoc]
    · intro b hb
      rcases List.mem_append.mp hb with hb | hb
      · split at hb
        · rw [List.mem_singleton.mp hb]; exact hlink
        · cases hb
      · exact hall b hb

theorem sentOn_sendPackets {env : Env} {fuel : Nat} {st st' : Proxy}
    (h : sendPackets env fuel st = some st') (fd : Int) :
    ∃ new, sentOn fd st' = sentOn fd st ++ new ∧ ∀ bytes ∈ new, IsLinkstate bytes := by
  unfold sendPackets at h
  cases hcreate : createLinkPacket env st with
  | none =>
    rw [hcreate] at h
    cases h
    exact ⟨[], (List.append_nil _).symm, by simp⟩
  | some lstate =>
    rw [hcreate] at h
    refine sentOn_sendLoop ?_ h fd
    unfold createLinkPacket at hcreate
    split at hcreate
    · cases hcreate
    · cases hcreate
      rfl

theorem sentOn_tcpHandle {env : Env} {fuel : Nat} {now : U64} {tcpFd : Int} {bytes : Buf}
    {st st' : Proxy} (h : tcpHandle env fuel now tcpFd bytes st = .next st') (fd : Int) :
    ∃ new, sentOn fd st' = sentOn fd st ++ new ∧ ∀ b ∈ new, IsLinkstate b := by
  rcases tcpHandle_cases env fuel now tcpFd bytes st with ⟨_, hround⟩ |
    ⟨_, pkt, heap, st₁, _, hhandle, hround⟩ | ⟨_, hround | ⟨_, hround | hround⟩⟩
  all_goals rw [h] at hround; cases hround
  · exact sentOn_same rfl fd
  · obtain ⟨first, node, _, _, hcases⟩ := handleLinkstate_cases hhandle
    rcases hcases with ⟨_, _, hwalk⟩ | ⟨_, _, hback⟩ | ⟨_, _, _, horig⟩ | ⟨_, _, _, hst⟩
    · have hsends : sends st' = sends st := (addMembers_emits hwalk).sends_eq
      exact sentOn_same hsends fd
    · have hsends : sends st' = sends st := (gotPacketBack_emits hback).sends_eq
      exact sentOn_same hsends fd
    · obtain ⟨node, _, hsends⟩ := gotOriginalPacket_sends horig
      have hlink : IsLinkstate (replyBytes env { pkt.source with macaddr := node.localInfo.macaddr }
          now st.memList.size) := wireBytes_isLinkstate rfl _ _ _
      refine ⟨_, sentOn_cons hsends fd, fun b hb => ?_⟩
      split at hb
      · rw [List.mem_singleton.mp hb]; exact hlink
      · cases hb
    · have hsends : sends st' = sends st := by rw [hst]; rfl
      exact sentOn_same hsends fd
  · exact sentOn_same rfl fd

/-- What the host at the other end of `fd` has to write to its tap device for a round: as often as the
table has the socket. -/
def ThreadOp.writesFor (fd : Int) (st : Proxy) : ThreadOp → List (Nat × Buf)
  | .tapHandle read => List.replicate (entries fd st) (delivery read)
  | .tcpHandle .. | .sendPackets _ | .checkLinkTimeOut .. => []

/-- The frame that a round read, as often as it is sent through `fd`. -/
def ThreadOp.frames (fd : Int) (st : Proxy) : ThreadOp → List (Nat × Buf)
  | .tapHandle (some bytes) => List.replicate (entries fd st) (bytes.length, bytes)
  | .tapHandle none | .tcpHandle .. | .sendPackets _ | .checkLinkTimeOut .. => []

/-- The round is one of `TAPHandle` in which `read` failed. -/
def ThreadOp.readFails : ThreadOp → Bool
  | .tapHandle none => true
  | .tapHandle (some _) | .tcpHandle .. | .sendPackets _ | .checkLinkTimeOut .. => false

theorem length_of_tapFrame {e : Endian} {read : Option Buf} {frame : Buf}
    (h : tapFrame e read = some frame) : ∀ bytes ∈ read, bytes.length ≤ maxDataLen := by
  intro bytes hread
  cases hread
  simp only [tapFrame, Option.bind_eq_bind, Option.bind_eq_some_iff] at h
  obtain ⟨b, hcopy, _⟩ := h
  have hfit := (memcpy_length hcopy).2
  have hpkt : maxPktLen = maxDataLen + 4 := rfl
  rw [Option.getD_some, List.length_replicate] at hfit
  omega

theorem ThreadOp.round_sentOn {env : Env} {fuel : Nat} {st : Proxy} {p' : Process} {op : ThreadOp}
    (h : op.round env fuel st = some p') (fd : Int) (env' : Env) :
    ∃ new, sentOn fd p'.st = sentOn fd st ++ new ∧ tapData env' new = op.writesFor fd st := by
  have hquiet : ∀ {st' : Proxy}, (∃ new, sentOn fd st' = sentOn fd st ++ new ∧
      ∀ bytes ∈ new, IsLinkstate bytes) → ∃ new, sentOn fd st' = sentOn fd st ++ new ∧
      tapData env' new = [] := by
    intro st' h
    obtain ⟨new, hnew, hall⟩ := h
    exact ⟨new, hnew, tapData_linkstate env' hall⟩
  cases op with
  | tcpHandle uninit tcpFd now bytes =>
    simp only [round] at h
    split at h
    · rename_i hnext
      cases h
      exact hquiet (sentOn_tcpHandle hnext fd)
    · rename_i hexit
      cases h
      rw [tcpHandle_quit st (tcpHandle_exit hexit)] at hexit
      cases hexit
      exact hquiet (sentOn_same rfl fd)
    · cases h
  | tapHandle read =>
    simp only [round, Option.bind_eq_bind, Option.bind_eq_some_iff] at h
    obtain ⟨st', htap, h⟩ := h
    obtain ⟨bytes, hframe, rfl⟩ := tapHandle_some htap
    cases h
    rw [tapFrame_eq env.endian (length_of_tapFrame hframe)] at hframe
    cases hframe
    refine ⟨_, sentOn_writeLoop fd (frameBytes read) _ st, ?_⟩
    rw [tapData_replicate, List.map_reverse, List.count_reverse]
    rfl
  | sendPackets uninit =>
    simp only [round, Option.bind_eq_bind, Option.bind_eq_some_iff] at h
    obtain ⟨st', hsend, h⟩ := h
    cases h
    exact hquiet (sentOn_sendPackets hsend fd)
  | checkLinkTimeOut now linkTimeout =>
    simp only [round, Option.bind_eq_bind, Option.bind_eq_some_iff] at h
    obtain ⟨st', hsweep, h⟩ := h
    cases h
    exact hquiet (sentOn_same (removeExpiredMembers_emits hsweep).sends_eq fd)

theorem ThreadOp.writesFor_eq_frames {env : Env} {fuel : Nat} {st : Proxy} {p' : Process} {op : ThreadOp}
    (h : op.round env fuel st = some p') (hread : op.readFails = false) (fd : Int) :
    op.writesFor fd st = op.frames fd st := by
  cases op with
  | tapHandle read =>
    cases read with
    | none => cases hread
    | some bytes =>
      simp only [round, Option.bind_eq_bind, Option.bind_eq_some_iff] at h
      obtain ⟨_, htap, _⟩ := h
      obtain ⟨_, hframe, _⟩ := tapHandle_some htap
      rw [writesFor, frames, delivery_some (length_of_tapFrame hframe bytes rfl)]
  | _ => rfl

/-! ## Two hosts -/

structure Tunnel where
  process : Side → Process
  /-- How many sends of the other side were received. -/
  received : Side → Nat

namespace Tunnel

variable (nb : Neighbours)

/-- What the other side sent to `x`, oldest first. -/
def sentTo (t : Tunnel) (x : Side) : List Buf := sentOn (nb.fd x.other) (t.process x.other).st

/-- A `recv` returns the next of them. -/
def Arrives (t : Tunnel) (x : Side) : ThreadOp → Prop
  | .tcpHandle _ tcpFd _ bytes => tcpFd = nb.fd x ∧ (sentTo nb t x)[t.received x]? = some bytes
  | .tapHandle _ | .sendPackets _ | .checkLinkTimeOut .. => True

instance (t : Tunnel) (x : Side) (op : ThreadOp) : Decidable (Arrives nb t x op) := by
  cases op
  · exact inferInstanceAs (Decidable (_ ∧ _))
  all_goals exact inferInstanceAs (Decidable True)

def recvs : ThreadOp → Nat
  | .tcpHandle .. => 1
  | .tapHandle _ | .sendPackets _ | .checkLinkTimeOut .. => 0

def put (t : Tunnel) (x : Side) (op : ThreadOp) (p : Process) : Tunnel :=
  { process := Function.update t.process x p
    received := Function.update t.received x (t.received x + recvs op) }

/-- One round of a thread of one side. -/
def Performs (t : Tunnel) (op : Side × ThreadOp) (t' : Tunnel) : Prop :=
  Arrives nb t op.1 op.2 ∧ ∃ p, (t.process op.1).Performs (nb.env op.1) op.2 p ∧ t' = t.put op.1 op.2 p

/-- What `x` has to write to its tap device for the rounds of `TAPHandle` at the other side, those in
which `read` failed included. -/
def writesFor (x : Side) : List (Step Tunnel (Side × ThreadOp)) → List (Nat × Buf)
  | [] => []
  | s :: tr => writesFor x tr ++
      if s.input.1 = x.other then s.input.2.writesFor (nb.fd x.other) (s.pre.process x.other).st else []

/-- The frames that the other side read from its tap device, each once for every entry of its table with
the socket. -/
def framesTo (x : Side) : List (Step Tunnel (Side × ThreadOp)) → List (Nat × Buf)
  | [] => []
  | s :: tr => framesTo x tr ++
      if s.input.1 = x.other then s.input.2.frames (nb.fd x.other) (s.pre.process x.other).st else []

/-- What `x` wrote to its tap device, oldest first. -/
def delivered (t : Tunnel) (x : Side) : List (Nat × Buf) := (tapWrites (t.process x).st.trace).reverse

/-- Nothing was written to the tap devices, and no data packet is on its way. -/
structure Quiet (t : Tunnel) : Prop where
  delivered : ∀ x, delivered t x = []
  sent : ∀ x, tapData (nb.env x) (sentTo nb t x) = []
  counted : ∀ x, t.received x ≤ (sentTo nb t x).length

/-- What was sent for a tap device is what is to be written to it, and what was written is the received
part of it. -/
structure Carries (tr : List (Step Tunnel (Side × ThreadOp))) (t : Tunnel) : Prop where
  sent : ∀ x, tapData (nb.env x) (sentTo nb t x) = writesFor nb x tr
  delivered : ∀ x, delivered t x = tapData (nb.env x) ((sentTo nb t x).take (t.received x))
  counted : ∀ x, t.received x ≤ (sentTo nb t x).length

variable {nb} {t t' : Tunnel} {tr : List (Step Tunnel (Side × ThreadOp))}

theorem tapData_take (env : Env) (chunks : List Buf) (n : Nat) :
    tapData env (chunks.take n) <+: tapData env chunks := by
  have happend := tapData_append env (chunks.take n) (chunks.drop n)
  rw [List.take_append_drop] at happend
  exact ⟨_, happend.symm⟩

theorem Quiet.carries (h : Quiet nb t) : Carries nb [] t := by
  refine ⟨h.sent, fun x => ?_, h.counted⟩
  have hprefix := tapData_take (nb.env x) (sentTo nb t x) (t.received x)
  rw [h.sent x] at hprefix
  rw [h.delivered x, List.prefix_nil.mp hprefix]

@[simp] theorem put_process (t : Tunnel) (x : Side) (op : ThreadOp) (p : Process) :
    (t.put x op p).process x = p := Function.update_self ..

@[simp] theorem put_process_other (t : Tunnel) (x : Side) (op : ThreadOp) (p : Process) :
    (t.put x op p).process x.other = t.process x.other := Function.update_of_ne x.other_ne ..

@[simp] theorem put_received (t : Tunnel) (x : Side) (op : ThreadOp) (p : Process) :
    (t.put x op p).received x = t.received x + recvs op := Function.update_self ..

@[simp] theorem put_received_other (t : Tunnel) (x : Side) (op : ThreadOp) (p : Process) :
    (t.put x op p).received x.other = t.received x.other := Function.update_of_ne x.other_ne ..

theorem Arrives.counted {x : Side} {op : ThreadOp} (h : Arrives nb t x op)
    (hcounted : t.received x ≤ (sentTo nb t x).length) :
    t.received x + recvs op ≤ (sentTo nb t x).length := by
  cases op with
  | tcpHandle uninit tcpFd now bytes =>
    obtain ⟨_, hbytes⟩ := h
    obtain ⟨hlt, _⟩ := List.getElem?_eq_some_iff.mp hbytes
    exact hlt
  | _ => exact hcounted

/-- What `x` writes in a round is the data it received in the round. -/
theorem Arrives.tapData_take {x : Side} {op : ThreadOp} (h : Arrives nb t x op) :
    tapData (nb.env x) ((sentTo nb t x).take (t.received x + recvs op)) =
      tapData (nb.env x) ((sentTo nb t x).take (t.received x)) ++ (op.written (nb.env x)).toList := by
  cases op with
  | tcpHandle uninit tcpFd now bytes =>
    obtain ⟨_, hbytes⟩ := h
    rw [recvs, List.take_add_one, hbytes, tapData_append]
    congr 1
    cases hdata : IsData (nb.env x) bytes <;> simp [tapData, ThreadOp.written, hdata]
  | _ => exact (List.append_nil _).symm

theorem Performs.carries {op : Side × ThreadOp} (hc : Carries nb tr t) (h : Performs nb t op t') :
    Carries nb (⟨t, op, t'⟩ :: tr) t' := by
  obtain ⟨x, op⟩ := op
  obtain ⟨harrives, p, ⟨_, fuel, hround⟩, rfl⟩ := h
  have hne := x.other_ne
  obtain ⟨new, hnew, hwrites⟩ := op.round_sentOn hround (nb.fd x) (nb.env x.other)
  -- the side of the round sends to the other one, which stays as it is
  have hto : sentTo nb (t.put x op p) x = sentTo nb t x := by
    simp only [sentTo, put_process_other]
  have hfrom : sentTo nb (t.put x op p) x.other = sentTo nb t x.other ++ new := by
    simp only [sentTo, Side.other_other, put_process, hnew]
  have hcounted := hc.counted x.other
  refine ⟨fun y => ?_, fun y => ?_, fun y => ?_⟩
  · rcases x.eq_or_eq_other y with rfl | rfl
    · rw [hto, hc.sent y, writesFor, if_neg hne.symm, List.append_nil]
    · rw [hfrom, tapData_append, hc.sent x.other, hwrites, writesFor, Side.other_other, if_pos rfl]
  · rcases x.eq_or_eq_other y with rfl | rfl
    · rw [hto, put_received, harrives.tapData_take, ← hc.delivered y]
      simp only [delivered, put_process, op.round_tapWrites hround, List.reverse_append]
      cases op.written (nb.env y) <;> rfl
    · rw [hfrom, put_received_other, List.take_append_of_le_length hcounted, ← hc.delivered x.other]
      simp only [delivered, put_process_other]
  · rcases x.eq_or_eq_other y with rfl | rfl
    · rw [hto, put_received]
      exact harrives.counted (hc.counted y)
    · rw [hfrom, put_received_other, List.length_append]
      exact Nat.le_add_right_of_le hcounted

theorem writesFor_eq_framesTo {t₀ : Tunnel} (hr : Run t₀ (Performs nb) tr t) {x : Side}
    (hread : ∀ s ∈ tr, s.input.1 = x.other → s.input.2.readFails = false) :
    writesFor nb x tr = framesTo nb x tr := by
  induction hr with
  | start => rfl
  | @snoc tr t t' op _ hstep ih =>
    obtain ⟨hlast, hread⟩ := List.forall_mem_cons.mp hread
    obtain ⟨_, p, ⟨_, fuel, hround⟩, _⟩ := hstep
    rw [writesFor, framesTo, ih hread]
    by_cases hop : op.1 = x.other
    · rw [if_pos hop, if_pos hop, ← hop, op.2.writesFor_eq_frames hround (hlast hop)]
    · rw [if_neg hop, if_neg hop]

end Tunnel

end Cs352Proxy
