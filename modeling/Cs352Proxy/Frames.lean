import Cs352Proxy.Trace
import Cs352Proxy.Wire

/-!
# Frames

Do the frames of a connection reach the tap device? `TCPHandle` takes what one `recv` returned for
one packet and writes all of it but four bytes. So the frames arrive exactly if every `recv` returns
one whole packet; any other way TCP may split or join the stream changes the writes.
-/

namespace Cs352Proxy

open Base

/-- A data packet. -/
def dataBytes (payload : Buf) : Buf :=
  headerBytes { type := pktData, length := BitVec.ofNat 16 payload.length } ++ payload

@[simp] theorem length_dataBytes (payload : Buf) : (dataBytes payload).length = payload.length + 4 := by
  simp [dataBytes, Nat.add_comm]

theorem tapPacket_eq (e : Endian) {payload : Buf} (hlen : payload.length ≤ maxDataLen) :
    tapPacket e payload = some (dataBytes payload) := by
  have hzero : (List.replicate maxPktLen 0 : Buf) =
      List.replicate 4 0 ++ List.replicate maxDataLen 0 := by
    rw [show maxPktLen = 4 + maxDataLen from rfl]
    exact List.replicate_append_replicate.symm
  have h1 := memcpy_append 4 (List.replicate 4 (0 : U8)) payload (List.replicate maxDataLen 0) rfl
    (by simpa using hlen)
  have h2 := memcpy_append 0 [] (beBytes 2 pktData.toNat)
    (List.replicate 4 0 ++ payload ++ (List.replicate maxDataLen 0).drop payload.length) rfl (by simp)
  have h3 := memcpy_append 2 (beBytes 2 pktData.toNat)
    (beBytes 2 (BitVec.ofNat 16 payload.length).toNat)
    (List.replicate 2 0 ++ payload ++ (List.replicate maxDataLen 0).drop payload.length)
    (by simp) (by simp)
  have h4 := slice_append [] (dataBytes payload) ((List.replicate maxDataLen 0).drop payload.length) rfl
    (length_dataBytes payload).symm
  have hdrop2 : (List.replicate 4 (0 : U8) ++ payload ++
      (List.replicate maxDataLen 0).drop payload.length).drop 2 =
      List.replicate 2 0 ++ payload ++ (List.replicate maxDataLen 0).drop payload.length := rfl
  have hdrop4 : (List.replicate 2 (0 : U8) ++ payload ++
      (List.replicate maxDataLen 0).drop payload.length).drop 2 =
      payload ++ (List.replicate maxDataLen 0).drop payload.length := rfl
  rw [List.nil_append, List.nil_append, length_beBytes, hdrop2] at h2
  rw [length_beBytes, hdrop4] at h3
  unfold tapPacket
  simp only [hzero, h1, h2, store_htons, h3, Option.bind_eq_bind, Option.bind_some]
  rw [← h4]
  simp [dataBytes, headerBytes]

/-- Count and bytes of the writes to the tap device, latest first. -/
def tapWrites (trace : List Event) : List (Nat × Buf) :=
  trace.filterMap fun ev => match ev with
    | .tapWrite count data => some (count, data)
    | _ => none

theorem tapWrites_of_emits {st st' : Proxy} (h : Emits Event.NotTap st st') :
    tapWrites st'.trace = tapWrites st.trace := by
  refine h.filterMap_eq fun ev hev => ?_
  cases ev with
  | tapWrite count data => exact hev.elim
  | _ => rfl

/-! ## One chunk -/

section Round

variable (env : Env)

def IsData (bytes : Buf) : Bool := readU16 env.endian (recvBuf bytes) 0 = some pktData

/-- The write for a chunk that is taken for a data packet. -/
def writeOf (bytes : Buf) : Nat × Buf :=
  let count := (((bytes.length : Int) - 4) % 2 ^ 64).toNat
  (count, ((recvBuf bytes).drop 4).take count)

theorem tcpHandle_tapWrites (fuel : Nat) (now : U64) (fd : Int) (bytes : Buf) (st : Proxy) :
    tapWrites (tcpHandle env fuel now fd bytes st).state.trace =
      (if IsData env bytes then [writeOf bytes] else []) ++ tapWrites st.trace := by
  rcases tcpHandle_cases env fuel now fd bytes st with ⟨htype, hround⟩ |
    ⟨htype, pkt, heap, st', _, hhandle, hround⟩ | ⟨htype, hround⟩
  · rw [hround, if_pos (by simp [IsData, htype])]
    rfl
  · have hnot : ¬ IsData env bytes = true := by simp [IsData, htype]; decide
    rw [hround, if_neg hnot, List.nil_append]
    have hemits := handleLinkstate_emits hhandle
    exact tapWrites_of_emits hemits
  · have hnot : ¬ IsData env bytes = true := by simpa [IsData] using htype
    rw [if_neg hnot, List.nil_append]
    rcases hround with hround | ⟨_, hround | hround⟩ <;> rw [hround] <;> rfl

theorem tcpHandle_isData (fuel : Nat) (now : U64) (fd : Int) {bytes : Buf} (st : Proxy)
    (h : IsData env bytes = true) :
    tcpHandle env fuel now fd bytes st = .next (writeTap (recvBuf bytes) bytes.length st) := by
  have htype : readU16 env.endian (recvBuf bytes) 0 = some pktData := of_decide_eq_true h
  simp only [tcpHandle, htype, if_true]

end Round

/-! ## A connection -/

/-- The loop stops early or handles every chunk; it writes once for each handled chunk that looks
like a data packet. -/
theorem tcpLoop_tapWrites (env : Env) (fuel : Nat) (fd : Int) (chunks : List (Buf × U64)) :
    ∀ st : Proxy, ∃ ws : List Buf, ws.Sublist (chunks.map Prod.fst) ∧
      tapWrites (tcpLoop env fuel fd chunks st).state.trace =
        (ws.map writeOf).reverse ++ tapWrites st.trace := by
  induction chunks with
  | nil => intro st; exact ⟨[], List.Sublist.refl _, rfl⟩
  | cons c chunks ih =>
    intro st
    have hround := tcpHandle_tapWrites env fuel c.2 fd c.1 st
    have hone : ∀ ws : List Buf, ws.Sublist (chunks.map Prod.fst) →
        ((if IsData env c.1 then [c.1] else []) ++ ws).Sublist ((c :: chunks).map Prod.fst) := by
      intro ws hws
      split
      · exact hws.cons_cons c.1
      · exact hws.cons c.1
    have hwrites : (if IsData env c.1 then [writeOf c.1] else []) =
        ((if IsData env c.1 then [c.1] else []).map writeOf).reverse := by
      split <;> rfl
    rw [hwrites] at hround
    simp only [tcpLoop]
    cases hc : tcpHandle env fuel c.2 fd c.1 st with
    | next st' =>
      rw [hc] at hround
      obtain ⟨ws, hsub, hws⟩ := ih st'
      refine ⟨_, hone ws hsub, ?_⟩
      rw [show (Round.next st').state = st' from rfl] at hround
      simp only [hws, hround, List.map_append, List.reverse_append, List.append_assoc]
    | exit st' =>
      rw [hc] at hround
      exact ⟨_, hone [] (List.nil_sublist _), by rw [List.append_nil]; exact hround⟩
    | stuck st' =>
      rw [hc] at hround
      exact ⟨_, hone [] (List.nil_sublist _), by rw [List.append_nil]; exact hround⟩

/-- The writes to the tap device are the payloads, one write each, in order. -/
def FramesDelivered (env : Env) (fuel : Nat) (fd : Int) (st : Proxy) (payloads : List Buf)
    (chunks : List (Buf × U64)) : Prop :=
  tapWrites (tcpLoop env fuel fd chunks st).state.trace =
    (payloads.map fun p => (p.length, p)).reverse ++ tapWrites st.trace

instance (env : Env) (fuel : Nat) (fd : Int) (st : Proxy) (payloads : List Buf)
    (chunks : List (Buf × U64)) : Decidable (FramesDelivered env fuel fd st payloads chunks) :=
  inferInstanceAs (Decidable (_ = _))

/-- A chunk written with a payload's length has room for that payload and a header. -/
theorem length_of_writeOf {bytes payload : Buf} (hbytes : bytes.length ≤ maxPktLen)
    (hlen : payload.length ≤ maxDataLen) (h : writeOf bytes = (payload.length, payload)) :
    bytes.length = payload.length + 4 := by
  have hcount : (((bytes.length : Int) - 4) % 2 ^ 64).toNat = payload.length := congrArg Prod.fst h
  have hpkt : maxPktLen = 2052 := rfl
  have hmax : maxDataLen = 2048 := rfl
  omega

theorem writeOf_dataBytes {payload : Buf} (hlen : payload.length ≤ maxDataLen) :
    writeOf (dataBytes payload) = (payload.length, payload) := by
  have hmax : maxDataLen = 2048 := rfl
  have hcount : ((((dataBytes payload).length : Int) - 4) % 2 ^ 64).toNat = payload.length := by
    rw [length_dataBytes]
    omega
  have hdrop : (recvBuf (dataBytes payload)).drop 4 =
      payload ++ List.replicate (maxPktLen - (dataBytes payload).length) 0 := by
    unfold recvBuf dataBytes
    rw [List.append_assoc, List.drop_left' (length_headerBytes _)]
  simp only [writeOf, hcount, hdrop, List.take_left]

theorem isData_dataBytes (env : Env) (payload : Buf) : IsData env (dataBytes payload) = true := by
  have hread := readU16_eq env.endian pktData 0 []
    (beBytes 2 (BitVec.ofNat 16 payload.length).toNat ++ (payload ++
      List.replicate (maxPktLen - (dataBytes payload).length) 0)) rfl
  unfold IsData recvBuf
  rw [List.nil_append] at hread
  simp only [dataBytes, headerBytes, List.append_assoc] at hread ⊢
  rw [hread]
  simp

theorem flatten_length_le {ws cs : List Buf} (hsub : ws.Sublist cs) :
    ws.flatten.length ≤ cs.flatten.length := by
  induction hsub with
  | slnil => exact Nat.le_refl _
  | cons c _ ih =>
    rw [List.flatten_cons, List.length_append]
    omega
  | cons_cons c _ ih =>
    rw [List.flatten_cons, List.flatten_cons, List.length_append, List.length_append]
    omega

/-- A sublist of chunks that are not empty with the length of all of them is all of them. -/
theorem eq_of_sublist_of_length {ws cs : List Buf} (hsub : ws.Sublist cs)
    (hpos : ∀ c ∈ cs, 1 ≤ c.length) (hlen : ws.flatten.length = cs.flatten.length) : ws = cs := by
  induction hsub with
  | slnil => rfl
  | @cons ws cs c hsub _ =>
    have hle := flatten_length_le hsub
    have hc := hpos c List.mem_cons_self
    rw [List.flatten_cons, List.length_append] at hlen
    omega
  | @cons_cons ws cs c _ ih =>
    have hrest := ih (fun x hx => hpos x (List.mem_cons_of_mem _ hx)) (by simpa using hlen)
    rw [hrest]

theorem lengths_of_writes {ws payloads : List Buf} (hws : ∀ w ∈ ws, w.length ≤ maxPktLen)
    (hlen : ∀ p ∈ payloads, p.length ≤ maxDataLen)
    (h : ws.map writeOf = payloads.map fun p => (p.length, p)) :
    ws.map List.length = (payloads.map dataBytes).map List.length := by
  induction ws generalizing payloads with
  | nil =>
    cases payloads with
    | nil => rfl
    | cons p ps => cases h
  | cons w ws ih =>
    cases payloads with
    | nil => cases h
    | cons p ps =>
      obtain ⟨hw, hrest⟩ := List.cons.inj h
      have hone := length_of_writeOf (hws w List.mem_cons_self) (hlen p List.mem_cons_self) hw
      have hih := ih (fun x hx => hws x (List.mem_cons_of_mem _ hx))
        (fun x hx => hlen x (List.mem_cons_of_mem _ hx)) hrest
      simp only [List.map_cons, hih, hone, length_dataBytes]

theorem tcpLoop_dataBytes (env : Env) (fuel : Nat) (fd : Int) {payloads : List Buf}
    (hlen : ∀ p ∈ payloads, p.length ≤ maxDataLen) {chunks : List (Buf × U64)}
    (hchunks : chunks.map Prod.fst = payloads.map dataBytes) (st : Proxy) :
    FramesDelivered env fuel fd st payloads chunks := by
  induction chunks generalizing payloads st with
  | nil =>
    cases payloads with
    | nil => rfl
    | cons p ps => cases hchunks
  | cons c chunks ih =>
    cases payloads with
    | nil => cases hchunks
    | cons p ps =>
      obtain ⟨hc, hrest⟩ := List.cons.inj hchunks
      have hp := hlen p List.mem_cons_self
      have hround := tcpHandle_tapWrites env fuel c.2 fd c.1 st
      have hnext := tcpHandle_isData env fuel c.2 fd st (isData_dataBytes env p)
      rw [hc, hnext, isData_dataBytes, writeOf_dataBytes hp] at hround
      have hloop := ih (fun x hx => hlen x (List.mem_cons_of_mem _ hx)) hrest
        (writeTap (recvBuf (dataBytes p)) (dataBytes p).length st)
      unfold FramesDelivered at hloop ⊢
      simp only [tcpLoop, hc, hnext, hloop]
      rw [show (Round.next (writeTap (recvBuf (dataBytes p)) (dataBytes p).length st)).state =
        writeTap (recvBuf (dataBytes p)) (dataBytes p).length st from rfl] at hround
      rw [hround, List.map_cons, List.reverse_cons, List.append_assoc]
      rfl

/-- The frames are delivered exactly if every `recv` returns one packet. -/
theorem framesDelivered_iff (env : Env) (fuel : Nat) (fd : Int) (st : Proxy) {payloads : List Buf}
    (hlen : ∀ p ∈ payloads, p.length ≤ maxDataLen) {chunks : List (Buf × U64)}
    (hchunk : ∀ c ∈ chunks, 1 ≤ c.1.length ∧ c.1.length ≤ maxPktLen)
    (hstream : (chunks.map Prod.fst).flatten = (payloads.map dataBytes).flatten) :
    FramesDelivered env fuel fd st payloads chunks ↔
      chunks.map Prod.fst = payloads.map dataBytes := by
  have hpos : ∀ c ∈ chunks.map Prod.fst, 1 ≤ c.length := by
    intro c hc
    obtain ⟨x, hx, rfl⟩ := List.mem_map.mp hc
    exact (hchunk x hx).1
  have hbound : ∀ c ∈ chunks.map Prod.fst, c.length ≤ maxPktLen := by
    intro c hc
    obtain ⟨x, hx, rfl⟩ := List.mem_map.mp hc
    exact (hchunk x hx).2
  constructor
  · intro hdel
    obtain ⟨ws, hsub, hws⟩ := tcpLoop_tapWrites env fuel fd chunks st
    unfold FramesDelivered at hdel
    rw [hws] at hdel
    have hmap : ws.map writeOf = payloads.map fun p => (p.length, p) :=
      List.reverse_injective (List.append_cancel_right hdel)
    have hlengths : ws.map List.length = (payloads.map dataBytes).map List.length :=
      lengths_of_writes (fun w hw => hbound w (hsub.subset hw)) hlen hmap
    have hall : ws = chunks.map Prod.fst := by
      refine eq_of_sublist_of_length hsub hpos ?_
      rw [hstream, List.length_flatten, List.length_flatten, hlengths]
    rw [← hall]
    refine List.eq_iff_flatten_eq.mpr ⟨?_, hlengths⟩
    rw [hall, hstream]
  · intro hchunks
    exact tcpLoop_dataBytes env fuel fd hlen hchunks st

/-- Two frames in one `recv`: the second header is written to the tap device with them. -/
theorem joined_frames_corrupt : ∃ env fuel fd st payloads chunks,
    (∀ p ∈ payloads, p.length ≤ maxDataLen) ∧
    (∀ c ∈ chunks, 1 ≤ c.1.length ∧ c.1.length ≤ maxPktLen) ∧
    (chunks.map Prod.fst).flatten = (payloads.map dataBytes).flatten ∧
    ¬ FramesDelivered env fuel fd st payloads chunks :=
  ⟨hostEnv 1, 1, 4, Proxy.start, [[1], [2]], [(dataBytes [1] ++ dataBytes [2], 0)], by decide,
    by decide +kernel, by decide +kernel, by decide +kernel⟩

/-- Two frames, one `recv` each. -/
theorem single_frames_delivered :
    FramesDelivered (hostEnv 1) 1 4 Proxy.start [[1, 2], []] [(dataBytes [1, 2], 0), (dataBytes [], 5)] :=
  (framesDelivered_iff (hostEnv 1) 1 4 Proxy.start (by decide) (by decide +kernel) rfl).mpr rfl

end Cs352Proxy
