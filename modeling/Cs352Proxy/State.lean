import Cs352Proxy.Codec
import Cs352Proxy.Base.Keyed

/-!
# State

The global state of a proxy and the functions on the forwarding table.

* `Proxy` holds the heap of link-state nodes, `mem_list`, the uthash table `socketfds` and a
  trace (latest event first) of what the program does to the lock, the membership list and the
  outside world.
* `socketfds` lists the entries newest first. The key of an entry is its MAC address as a C
  string, `ProxySocketfd.key`: `HASH_ADD_STR` and `HASH_FIND_STR` measure keys with `strlen`.
  uthash adds an entry at the front of its bucket, so a search meets newer entries first; its own
  iteration order (`hh.next`) is oldest first.
-/

namespace Cs352Proxy

open Base

structure ProxySocketfd where
  macaddr : Mac
  sockFd : Int
deriving DecidableEq

/-- The bytes `strlen` counts. -/
def cstr : List U8 → List U8
  | [] => []
  | b :: bs => if b = 0 then [] else b :: cstr bs

/-- The key of `macaddr[7]`, which ends in `'\0'`. -/
def Mac.key (m : Mac) : List U8 := cstr (m.bytes ++ [0])

def ProxySocketfd.key (s : ProxySocketfd) : List U8 := s.macaddr.key

inductive Event where
  | lock
  | unlock
  | writeHead (p : Ptr)
  | writeSize (n : Int)
  | writeNext (a : Addr) (p : Ptr)
  /-- `write(tap_fd, data, count)`. -/
  | tapWrite (count : Nat) (data : Buf)
  /-- `send` or `write` on a socket. -/
  | send (fd : Int) (data : Buf)
deriving DecidableEq

structure Proxy where
  heap : List LinkstateNode
  memList : MembershipList
  socketfds : List ProxySocketfd
  trace : List Event
deriving DecidableEq

/-- The state `main` sets up. -/
def Proxy.start : Proxy :=
  { heap := [], memList := { head := none, size := 0 }, socketfds := [], trace := [] }

/-- What a proxy knows for its whole run: its own address, the byte order of its host and the
contents of uninitialised memory. -/
structure Env where
  myProxyInfo : ProxyInfo
  endian : Endian
  uninit : Uninit

namespace Proxy

def emit (ev : Event) (st : Proxy) : Proxy := { st with trace := ev :: st.trace }

def setHead (p : Ptr) (st : Proxy) : Proxy :=
  emit (.writeHead p) { st with memList := { st.memList with head := p } }

def setSize (n : Int) (st : Proxy) : Proxy :=
  emit (.writeSize n) { st with memList := { st.memList with size := n } }

def setNext (a : Addr) (p : Ptr) (st : Proxy) : Proxy :=
  emit (.writeNext a p) { st with heap := st.heap.modify a fun n => { n with next := p } }

def setLinkweight (a : Addr) (w : U32) (st : Proxy) : Proxy :=
  { st with heap := st.heap.modify a fun n => { n with linkweight := w } }

def setID (a : Addr) (time : U64) (st : Proxy) : Proxy :=
  { st with heap := st.heap.modify a fun n => { n with ID := time } }

def setRemoteMac (a : Addr) (m : Mac) (st : Proxy) : Proxy :=
  { st with heap := st.heap.modify a fun n =>
      { n with remoteInfo := { n.remoteInfo with macaddr := m } } }

/-- A new object at the end of the heap. -/
def malloc (n : LinkstateNode) (st : Proxy) : Proxy := { st with heap := st.heap ++ [n] }

def findSocketfd (macaddr : Mac) (st : Proxy) : Option ProxySocketfd :=
  lookup ProxySocketfd.key st.socketfds macaddr.key

def addsockfd (newMacaddr : Mac) (fd : Int) (st : Proxy) : Proxy :=
  { st with socketfds := { macaddr := newMacaddr, sockFd := fd } :: st.socketfds }

/-- An entry that is not there makes the function release the lock of its caller. -/
def deletesockfd (macaddr : Mac) (st : Proxy) : Proxy :=
  match st.findSocketfd macaddr with
  | none => st.emit .unlock
  | some _ => { st with socketfds := remove ProxySocketfd.key st.socketfds macaddr.key }

/-- `pkt_sockfd->sock_fd = fd` for the entry that `find_socketfd(macaddr)` returned. -/
def setSockFd (macaddr : Mac) (fd : Int) (st : Proxy) : Proxy :=
  { st with socketfds :=
      assign ProxySocketfd.key (fun s => { s with sockFd := fd }) st.socketfds macaddr.key }

/-! ### What each update leaves alone -/

@[simp] theorem emit_heap (ev : Event) (st : Proxy) : (st.emit ev).heap = st.heap := rfl
@[simp] theorem emit_memList (ev : Event) (st : Proxy) : (st.emit ev).memList = st.memList := rfl
@[simp] theorem emit_socketfds (ev : Event) (st : Proxy) : (st.emit ev).socketfds = st.socketfds := rfl
@[simp] theorem emit_trace (ev : Event) (st : Proxy) : (st.emit ev).trace = ev :: st.trace := rfl

@[simp] theorem setHead_heap (p : Ptr) (st : Proxy) : (st.setHead p).heap = st.heap := rfl
@[simp] theorem setHead_memList (p : Ptr) (st : Proxy) :
    (st.setHead p).memList = { st.memList with head := p } := rfl
@[simp] theorem setHead_socketfds (p : Ptr) (st : Proxy) : (st.setHead p).socketfds = st.socketfds := rfl

@[simp] theorem setSize_heap (n : Int) (st : Proxy) : (st.setSize n).heap = st.heap := rfl
@[simp] theorem setSize_memList (n : Int) (st : Proxy) :
    (st.setSize n).memList = { st.memList with size := n } := rfl
@[simp] theorem setSize_socketfds (n : Int) (st : Proxy) : (st.setSize n).socketfds = st.socketfds := rfl

@[simp] theorem setNext_heap (a : Addr) (p : Ptr) (st : Proxy) :
    (st.setNext a p).heap = st.heap.modify a fun n => { n with next := p } := rfl
@[simp] theorem setNext_memList (a : Addr) (p : Ptr) (st : Proxy) :
    (st.setNext a p).memList = st.memList := rfl
@[simp] theorem setNext_socketfds (a : Addr) (p : Ptr) (st : Proxy) :
    (st.setNext a p).socketfds = st.socketfds := rfl

@[simp] theorem setLinkweight_heap (a : Addr) (w : U32) (st : Proxy) :
    (st.setLinkweight a w).heap = st.heap.modify a fun n => { n with linkweight := w } := rfl
@[simp] theorem setLinkweight_memList (a : Addr) (w : U32) (st : Proxy) :
    (st.setLinkweight a w).memList = st.memList := rfl
@[simp] theorem setLinkweight_socketfds (a : Addr) (w : U32) (st : Proxy) :
    (st.setLinkweight a w).socketfds = st.socketfds := rfl

@[simp] theorem setID_heap (a : Addr) (t : U64) (st : Proxy) :
    (st.setID a t).heap = st.heap.modify a fun n => { n with ID := t } := rfl
@[simp] theorem setID_memList (a : Addr) (t : U64) (st : Proxy) :
    (st.setID a t).memList = st.memList := rfl
@[simp] theorem setID_socketfds (a : Addr) (t : U64) (st : Proxy) :
    (st.setID a t).socketfds = st.socketfds := rfl

@[simp] theorem setRemoteMac_heap (a : Addr) (m : Mac) (st : Proxy) :
    (st.setRemoteMac a m).heap = st.heap.modify a fun n =>
      { n with remoteInfo := { n.remoteInfo with macaddr := m } } := rfl
@[simp] theorem setRemoteMac_memList (a : Addr) (m : Mac) (st : Proxy) :
    (st.setRemoteMac a m).memList = st.memList := rfl
@[simp] theorem setRemoteMac_socketfds (a : Addr) (m : Mac) (st : Proxy) :
    (st.setRemoteMac a m).socketfds = st.socketfds := rfl

@[simp] theorem malloc_heap (n : LinkstateNode) (st : Proxy) : (st.malloc n).heap = st.heap ++ [n] := rfl
@[simp] theorem malloc_memList (n : LinkstateNode) (st : Proxy) :
    (st.malloc n).memList = st.memList := rfl
@[simp] theorem malloc_socketfds (n : LinkstateNode) (st : Proxy) :
    (st.malloc n).socketfds = st.socketfds := rfl

@[simp] theorem addsockfd_heap (m : Mac) (fd : Int) (st : Proxy) : (st.addsockfd m fd).heap = st.heap := rfl
@[simp] theorem addsockfd_memList (m : Mac) (fd : Int) (st : Proxy) :
    (st.addsockfd m fd).memList = st.memList := rfl
@[simp] theorem addsockfd_socketfds (m : Mac) (fd : Int) (st : Proxy) :
    (st.addsockfd m fd).socketfds = { macaddr := m, sockFd := fd } :: st.socketfds := rfl

@[simp] theorem setSockFd_heap (m : Mac) (fd : Int) (st : Proxy) : (st.setSockFd m fd).heap = st.heap := rfl
@[simp] theorem setSockFd_memList (m : Mac) (fd : Int) (st : Proxy) :
    (st.setSockFd m fd).memList = st.memList := rfl
@[simp] theorem setSockFd_socketfds (m : Mac) (fd : Int) (st : Proxy) :
    (st.setSockFd m fd).socketfds =
      assign ProxySocketfd.key (fun s => { s with sockFd := fd }) st.socketfds m.key := rfl

@[simp] theorem deletesockfd_heap (m : Mac) (st : Proxy) : (st.deletesockfd m).heap = st.heap := by
  unfold deletesockfd; split <;> rfl

@[simp] theorem deletesockfd_memList (m : Mac) (st : Proxy) :
    (st.deletesockfd m).memList = st.memList := by
  unfold deletesockfd; split <;> rfl

@[simp] theorem deletesockfd_socketfds (m : Mac) (st : Proxy) :
    (st.deletesockfd m).socketfds = remove ProxySocketfd.key st.socketfds m.key := by
  unfold deletesockfd
  split
  · rename_i h
    exact (remove_of_lookup_none h).symm
  · rfl

end Proxy

@[simp] theorem keys_assign_sockFd (fd : Int) (l : List ProxySocketfd) (k : List U8) :
    (assign ProxySocketfd.key (fun s => { s with sockFd := fd }) l k).map ProxySocketfd.key =
      l.map ProxySocketfd.key := map_assign fun _ => rfl

@[simp] theorem macaddrs_assign_sockFd (fd : Int) (l : List ProxySocketfd) (k : List U8) :
    (assign ProxySocketfd.key (fun s => { s with sockFd := fd }) l k).map ProxySocketfd.macaddr =
      l.map ProxySocketfd.macaddr := map_assign fun _ => rfl

theorem lookup_assign_sockFd (fd : Int) (l : List ProxySocketfd) (k k' : List U8) :
    lookup ProxySocketfd.key (assign ProxySocketfd.key (fun s => { s with sockFd := fd }) l k) k' =
      if k = k' then (lookup ProxySocketfd.key l k').map fun s => { s with sockFd := fd }
      else lookup ProxySocketfd.key l k' := lookup_assign fun _ => rfl

/-! ## Keys -/

theorem cstr_cons_of_ne {b : U8} (bs : List U8) (hb : b ≠ 0) : cstr (b :: bs) = b :: cstr bs :=
  if_neg hb

theorem cstr_zero_cons (bs : List U8) : cstr (0 :: bs) = [] := rfl

theorem cstr_append_zero_inj {l l' : List U8} (hlen : l.length = l'.length)
    (h0 : (0 : U8) ∉ l.dropLast) (h : cstr (l ++ [0]) = cstr (l' ++ [0])) : l = l' := by
  induction l generalizing l' with
  | nil => exact (List.length_eq_zero_iff.mp hlen.symm).symm
  | cons a as ih =>
    cases l' with
    | nil => cases hlen
    | cons b bs =>
      have hlen' : as.length = bs.length := by simpa using hlen
      rw [List.cons_append, List.cons_append] at h
      by_cases ha : a = 0
      · -- a zero byte can only be the last one
        have has : as = [] := by
          cases as with
          | nil => rfl
          | cons x xs => exact absurd (by simp [ha]) h0
        have hbs : bs = [] := List.length_eq_zero_iff.mp (by rw [← hlen', has, List.length_nil])
        by_cases hb : b = 0
        · rw [ha, hb, has, hbs]
        · rw [ha, cstr_zero_cons, cstr_cons_of_ne _ hb] at h; cases h
      · by_cases hb : b = 0
        · rw [hb, cstr_zero_cons, cstr_cons_of_ne _ ha] at h; cases h
        · rw [cstr_cons_of_ne _ ha, cstr_cons_of_ne _ hb] at h
          obtain ⟨hab, hrest⟩ := List.cons.inj h
          have h0' : (0 : U8) ∉ as.dropLast := by
            cases as with
            | nil => simp
            | cons x xs =>
              exact fun hm => h0 (by
                rw [List.dropLast_cons_of_ne_nil (by simp)]; exact List.mem_cons_of_mem _ hm)
          rw [hab, ih hlen' h0' hrest]

namespace Mac

/-- No zero byte before the last one: no other address has the same key. -/
def Unambiguous (m : Mac) : Prop := (0 : U8) ∉ m.bytes.dropLast

instance (m : Mac) : Decidable m.Unambiguous := inferInstanceAs (Decidable (_ ∉ _))

/-- No zero byte at all. -/
def ZeroFree (m : Mac) : Prop := (0 : U8) ∉ m.bytes

instance (m : Mac) : Decidable m.ZeroFree := inferInstanceAs (Decidable (_ ∉ _))

theorem ZeroFree.unambiguous {m : Mac} (h : m.ZeroFree) : m.Unambiguous :=
  fun hm => h (List.dropLast_subset _ hm)

theorem Unambiguous.key_inj {m m' : Mac} (h : m.Unambiguous) : m.key = m'.key ↔ m = m' := by
  constructor
  · intro hk
    exact Mac.ext (cstr_append_zero_inj (m.length_bytes.trans m'.length_bytes.symm) h hk)
  · rintro rfl; rfl

end Mac

/-! ## A small network -/

/-- A proxy of a small network. -/
def host (k : U8) : ProxyInfo :=
  { ip := 0x0A000000 + k.setWidth 32, portno := 8000, macaddr := ⟨[k, k, k, k, k, k], rfl⟩ }

/-- A second proxy on the machine of `host 1`, with its own MAC address. -/
def cohost : ProxyInfo := { host 2 with ip := (host 1).ip, portno := 8001 }

/-- A link as a packet carries it. -/
def linkTo (a b : ProxyInfo) : Link := { localInfo := a, remoteInfo := b, linkweight := 1, ID := 0 }

/-- `host k` on a little-endian machine whose fresh memory is zero. -/
def hostEnv (k : U8) : Env :=
  { myProxyInfo := host k
    endian := .little
    uninit :=
      { node := fun _ => { linkTo (host 0) (host 0) with next := none }
        list := fun _ => none
        stack := fun _ => 0 } }

end Cs352Proxy
