import Cs352Proxy.Frames
import Cs352Proxy.Keys

/-!
# Tap

What `TAPHandle` puts on the wire. It writes every frame once for each forwarding entry, and entries
that were learned through one gateway share a socket; and it only prints that a `read` failed.
-/

namespace Cs352Proxy

open Base

/-- The value of `read(tap_fd, buf+4, MAX_DATA_LEN)`; `none` is a failed call. -/
def readResult : Option Buf → Int
  | none => -1
  | some bytes => bytes.length

/-- The bytes of one round that go to every socket: the first `n + 4` of the buffer. -/
def tapFrame (e : Endian) (read : Option Buf) : Option Buf := do
  let n := readResult read
  let buf ← memcpy (List.replicate maxPktLen 0) 4 (read.getD [])
  let buf ← memcpy buf 0 (e.store 2 (htons e pktData).toNat)
  let buf ← memcpy buf 2 (e.store 2 (htons e (BitVec.ofInt 16 n)).toNat)
  slice buf 0 (n + 4).toNat

def writeLoop (bytes : Buf) : List ProxySocketfd → Proxy → Proxy
  | [], st => st
  | s :: rest, st => writeLoop bytes rest (st.emit (.send s.sockFd bytes))

/-- One round of the loop of `TAPHandle`. -/
def tapHandle (env : Env) (read : Option Buf) (st : Proxy) : Option Proxy := do
  let bytes ← tapFrame env.endian read
  some (writeLoop bytes st.socketfds.reverse st)

def tapLoop (env : Env) : List (Option Buf) → Proxy → Option Proxy
  | [], st => some st
  | read :: rest, st => do
    let st ← tapHandle env read st
    tapLoop env rest st

/-- All that was written to the socket `fd`, in order. -/
def bytesTo (fd : Int) (st : Proxy) : Buf :=
  ((sends st).reverse.filter fun s => s.1 = fd).flatMap Prod.snd

/-- One data packet for each frame that was read. -/
def packets (reads : List (Option Buf)) : Buf := (reads.filterMap id).flatMap dataBytes

/-- Every socket of the table gets these packets and nothing else. -/
def FramesSent (env : Env) (reads : List (Option Buf)) (st : Proxy) : Prop :=
  ∃ st', tapLoop env reads st = some st' ∧ ∀ fd ∈ st.socketfds.map ProxySocketfd.sockFd,
    bytesTo fd st' = bytesTo fd st ++ packets reads

/-! ## One round -/

/-- A round that read a frame writes the packet of `tapPacket`. -/
theorem tapFrame_some (e : Endian) {bytes : Buf} (hlen : bytes.length ≤ maxDataLen) :
    tapFrame e (some bytes) = some (dataBytes bytes) := by
  rw [← tapPacket_eq e hlen]
  have hcount : ((bytes.length : Int) + 4).toNat = bytes.length + 4 := rfl
  simp only [tapFrame, tapPacket, readResult, Option.getD_some, BitVec.ofInt_natCast, hcount]

/-- A failed one still writes three bytes of a header. -/
theorem tapFrame_none (e : Endian) : tapFrame e none = some [0xAB, 0xCD, 0xFF] := by
  cases e <;> decide +kernel

/-- What a round writes to one socket. -/
def frameBytes : Option Buf → Buf
  | none => [0xAB, 0xCD, 0xFF]
  | some bytes => dataBytes bytes

theorem tapFrame_eq (e : Endian) {read : Option Buf} (hlen : ∀ bytes ∈ read, bytes.length ≤ maxDataLen) :
    tapFrame e read = some (frameBytes read) := by
  cases read with
  | none => exact tapFrame_none e
  | some bytes => exact tapFrame_some e (hlen bytes rfl)

@[simp] theorem writeLoop_socketfds (bytes : Buf) (l : List ProxySocketfd) (st : Proxy) :
    (writeLoop bytes l st).socketfds = st.socketfds := by
  induction l generalizing st with
  | nil => rfl
  | cons s l ih => exact ih _

theorem bytesTo_emit (fd : Int) (s : Int) (bytes : Buf) (st : Proxy) :
    bytesTo fd (st.emit (.send s bytes)) = bytesTo fd st ++ if s = fd then bytes else [] := by
  have hsends : sends (st.emit (.send s bytes)) = (s, bytes) :: sends st := rfl
  unfold bytesTo
  rw [hsends, List.reverse_cons, List.filter_append, List.flatMap_append]
  by_cases hs : s = fd <;> simp [hs]

theorem bytesTo_writeLoop (fd : Int) (bytes : Buf) (l : List ProxySocketfd) (st : Proxy) :
    bytesTo fd (writeLoop bytes l st) =
      bytesTo fd st ++ (List.replicate ((l.map ProxySocketfd.sockFd).count fd) bytes).flatten := by
  induction l generalizing st with
  | nil => simp [writeLoop]
  | cons s l ih =>
    rw [writeLoop, ih, bytesTo_emit, List.append_assoc, List.map_cons, List.count_cons]
    by_cases hs : s.sockFd = fd
    · simp [hs, List.replicate_succ]
    · simp [hs]

/-! ## A sequence of rounds -/

/-- `m` copies of what each round writes. -/
def copies (m : Nat) (reads : List (Option Buf)) : Buf :=
  reads.flatMap fun read => (List.replicate m (frameBytes read)).flatten

theorem tapLoop_eq (env : Env) {reads : List (Option Buf)}
    (hlen : ∀ read ∈ reads, ∀ bytes ∈ read, bytes.length ≤ maxDataLen) (st : Proxy) :
    ∃ st', tapLoop env reads st = some st' ∧ ∀ fd,
      bytesTo fd st' =
        bytesTo fd st ++ copies ((st.socketfds.map ProxySocketfd.sockFd).count fd) reads := by
  induction reads generalizing st with
  | nil => exact ⟨st, rfl, fun fd => (List.append_nil _).symm⟩
  | cons read reads ih =>
    have hframe := tapFrame_eq env.endian (hlen read List.mem_cons_self)
    obtain ⟨st', hloop, hbytes⟩ := ih (fun r hr => hlen r (List.mem_cons_of_mem _ hr))
      (writeLoop (frameBytes read) st.socketfds.reverse st)
    refine ⟨st', ?_, fun fd => ?_⟩
    · simp only [tapLoop, tapHandle, hframe, Option.bind_eq_bind, Option.bind_some, hloop]
    · rw [hbytes fd, bytesTo_writeLoop, writeLoop_socketfds, List.map_reverse, List.count_reverse,
        List.append_assoc]
      rfl

theorem packets_none (reads : List (Option Buf)) : packets (none :: reads) = packets reads := rfl

theorem packets_some (bytes : Buf) (reads : List (Option Buf)) :
    packets (some bytes :: reads) = dataBytes bytes ++ packets reads := rfl

theorem length_copies (m : Nat) (reads : List (Option Buf)) :
    (copies m reads).length = m * ((packets reads).length + 3 * reads.count none) := by
  induction reads with
  | nil => rfl
  | cons read reads ih =>
    have hcons : copies m (read :: reads) =
        (List.replicate m (frameBytes read)).flatten ++ copies m reads := rfl
    have hround : (List.replicate m (frameBytes read)).flatten.length =
        m * (frameBytes read).length := by
      rw [List.length_flatten, List.map_replicate, List.sum_replicate_nat]
    rw [hcons, List.length_append, ih, hround, ← Nat.mul_add]
    congr 1
    cases read with
    | none =>
      have hlen : (frameBytes none).length = 3 := rfl
      rw [hlen, packets_none, List.count_cons_self]
      omega
    | some bytes =>
      have hcount : (some bytes :: reads).count none = reads.count none :=
        List.count_cons_of_ne (by simp)
      rw [hcount, packets_some, List.length_append, frameBytes]
      omega

theorem copies_one {reads : List (Option Buf)} (h : none ∉ reads) : copies 1 reads = packets reads := by
  induction reads with
  | nil => rfl
  | cons read reads ih =>
    have hih := ih fun hm => h (List.mem_cons_of_mem _ hm)
    cases read with
    | none => exact absurd List.mem_cons_self h
    | some bytes =>
      have hcons : copies 1 (some bytes :: reads) = dataBytes bytes ++ [] ++ copies 1 reads := rfl
      rw [hcons, hih, List.append_nil, packets_some]

theorem packets_pos {reads : List (Option Buf)} {bytes : Buf} (h : some bytes ∈ reads) :
    0 < (packets reads).length := by
  obtain ⟨pre, post, rfl⟩ := List.append_of_mem h
  have hsplit : packets (pre ++ some bytes :: post) = packets pre ++ (dataBytes bytes ++ packets post) := by
    rw [← packets_some, packets, packets, packets, List.filterMap_append, List.flatMap_append]
  rw [hsplit, List.length_append, List.length_append, length_dataBytes]
  omega

/-- A second copy of a frame, or three bytes for a failed read, would be seen. -/
theorem copies_eq_packets_iff {m : Nat} (hm : 1 ≤ m) {reads : List (Option Buf)} :
    copies m reads = packets reads ↔ reads = [] ∨ none ∉ reads ∧ m = 1 := by
  constructor
  · intro h
    have hlength := length_copies m reads
    rw [h] at hlength
    by_cases hreads : reads = []
    · exact .inl hreads
    have hle := Nat.le_mul_of_pos_left ((packets reads).length + 3 * reads.count none) hm
    have hcount : reads.count none = 0 := by omega
    have hnone : none ∉ reads := List.count_eq_zero.mp hcount
    refine .inr ⟨hnone, ?_⟩
    have hframe : 0 < (packets reads).length := by
      obtain ⟨read, hread⟩ := List.exists_mem_of_ne_nil _ hreads
      cases read with
      | none => exact absurd hread hnone
      | some bytes => exact packets_pos hread
    rw [hcount, Nat.mul_zero, Nat.add_zero] at hlength
    exact Nat.eq_of_mul_eq_mul_right hframe (by rw [← hlength, Nat.one_mul])
  · intro hcond
    rcases hcond with rfl | ⟨hnone, rfl⟩
    · rfl
    · exact copies_one hnone

/-- What each socket gets depends on the number of its entries. -/
theorem framesSent_copies (env : Env) {reads : List (Option Buf)}
    (hlen : ∀ read ∈ reads, ∀ bytes ∈ read, bytes.length ≤ maxDataLen) (st : Proxy) :
    FramesSent env reads st ↔ ∀ fd ∈ st.socketfds.map ProxySocketfd.sockFd,
      copies ((st.socketfds.map ProxySocketfd.sockFd).count fd) reads = packets reads := by
  obtain ⟨st', hloop, hbytes⟩ := tapLoop_eq env hlen st
  constructor
  · intro h fd hfd
    obtain ⟨st₁, hloop₁, hall⟩ := h
    rw [hloop] at hloop₁
    cases hloop₁
    have hsent := hall fd hfd
    rw [hbytes fd] at hsent
    exact List.append_cancel_left hsent
  · intro h
    exact ⟨st', hloop, fun fd hfd => by rw [hbytes fd, h fd hfd]⟩

/-- The output is right exactly if there is nothing to write, or no read fails and no two entries
share a socket. -/
theorem framesSent_iff (env : Env) {reads : List (Option Buf)}
    (hlen : ∀ read ∈ reads, ∀ bytes ∈ read, bytes.length ≤ maxDataLen) (st : Proxy) :
    FramesSent env reads st ↔ st.socketfds = [] ∨ reads = [] ∨
      none ∉ reads ∧ (st.socketfds.map ProxySocketfd.sockFd).Nodup := by
  rw [framesSent_copies env hlen st, List.nodup_iff_count_eq_one]
  have hone : ∀ fd ∈ st.socketfds.map ProxySocketfd.sockFd,
      (copies ((st.socketfds.map ProxySocketfd.sockFd).count fd) reads = packets reads ↔
        reads = [] ∨ none ∉ reads ∧ (st.socketfds.map ProxySocketfd.sockFd).count fd = 1) :=
    fun fd hfd => copies_eq_packets_iff (List.count_pos_iff.mpr hfd)
  constructor
  · intro h
    by_cases htable : st.socketfds = []
    · exact .inl htable
    by_cases hreads : reads = []
    · exact .inr (.inl hreads)
    have hcopies : ∀ fd ∈ st.socketfds.map ProxySocketfd.sockFd,
        none ∉ reads ∧ (st.socketfds.map ProxySocketfd.sockFd).count fd = 1 :=
      fun fd hfd => ((hone fd hfd).mp (h fd hfd)).resolve_left hreads
    obtain ⟨s, hs⟩ := List.exists_mem_of_ne_nil _ htable
    exact .inr (.inr ⟨(hcopies _ (List.mem_map_of_mem hs)).1, fun fd hfd => (hcopies fd hfd).2⟩)
  · intro hcond fd hfd
    rcases hcond with htable | hreads | ⟨hnone, hcount⟩
    · rw [htable] at hfd
      cases hfd
    · exact (hone fd hfd).mpr (.inl hreads)
    · exact (hone fd hfd).mpr (.inr ⟨hnone, hcount fd hfd⟩)

/-- A neighbour on the machine of `host 1` connects and announces `host 3`: both addresses lead to
its socket, so a frame goes out twice. -/
theorem shared_socket_duplicates : ∃ env tr st reads, KeyRun env tr st ∧
    (∀ read ∈ reads, ∀ bytes ∈ read, bytes.length ≤ maxDataLen) ∧ ¬ FramesSent env reads st := by
  let packet : ProxyInfo → Buf := fun remote =>
    wireBytes { type := pktLinkstate, length := 50 } 1 cohost [linkTo cohost remote]
  obtain ⟨tr, st, hr, hfds, hsent⟩ := exists_keyRun (hostEnv 1) 4
    [.packet (hostEnv 1).uninit 4 0 (packet (host 1)), .packet (hostEnv 1).uninit 4 10 (packet (host 3))]
    (p := fun r => 4 ∈ r.2.socketfds.map ProxySocketfd.sockFd ∧
      ∀ st' ∈ tapLoop (hostEnv 1) [some [7]] r.2, bytesTo 4 st' ≠ bytesTo 4 r.2 ++ dataBytes [7])
    (by decide +kernel)
  refine ⟨hostEnv 1, tr, st, [some [7]], hr, by decide, fun h => ?_⟩
  obtain ⟨st', hloop, hall⟩ := h
  exact hsent st' hloop (hall 4 hfds)

/-- Two frames to two neighbours. -/
theorem own_sockets_deliver : FramesSent (hostEnv 1) [some [1, 2], some []]
    { Proxy.start with socketfds := [⟨(host 2).macaddr, 4⟩, ⟨(host 3).macaddr, 5⟩] } :=
  (framesSent_iff (hostEnv 1) (by decide) _).mpr (.inr (.inr (by decide)))

end Cs352Proxy
