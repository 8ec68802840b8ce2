import Cs352Proxy.State

/-!
# Members

The functions of `cs352proxy.c` on the membership list, over the heap of nodes.

Every loop over the list takes fuel, one unit a node: lists become circular when `add_members`
stores a node that is already stored, and then the loops of the source never end. A function
returns `none` when its fuel runs out or when the source has no defined behaviour (a wild pointer,
signed overflow). `now` is what `gettimeid()` returns while the operation runs.
-/

namespace Cs352Proxy

open Base

/-! ## C integers -/

/-- `uint32_t` to `int`, as the usual compilers convert it. -/
def intOfU32 (w : U32) : Int := w.toInt

/-- `int` to `uint32_t`. -/
def u32OfInt (i : Int) : U32 := BitVec.ofInt 32 i

/-- `int` multiplication; overflow is undefined. -/
def mulInt (a b : Int) : Option Int :=
  if -(2 ^ 31) ≤ a * b ∧ a * b < 2 ^ 31 then some (a * b) else none

/-- A millisecond count as a `double`. Every integer up to `2 ^ 53` is one; beyond that (the year
287396) the conversion rounds, which the model leaves undefined. -/
def doubleOfU64 (t : U64) : Option Int := if t.toNat ≤ 2 ^ 53 then some t.toNat else none

/-! ## Searches -/

def inMemberListLoop (heap : List LinkstateNode) (localRecv remoteRecv : ProxyInfo) :
    Nat → Ptr → Option Ptr
  | 0, _ => none
  | _ + 1, none => some none
  | fuel + 1, some a => do
    let node ← heap[a]?
    if node.localInfo.ip = remoteRecv.ip ∧ node.remoteInfo.ip = localRecv.ip then some (some a)
    else inMemberListLoop heap localRecv remoteRecv fuel node.next

def inMemberList (fuel : Nat) (localRecv remoteRecv : ProxyInfo) (st : Proxy) : Option Ptr :=
  inMemberListLoop st.heap localRecv remoteRecv fuel st.memList.head

/-- The comparison `dist > linkweight` converts `dist` to `uint32_t`. -/
def getLowestSavedDistanceLoop (heap : List LinkstateNode) (mac : Mac) :
    Nat → Ptr → Int → Option Int
  | 0, _, _ => none
  | _ + 1, none, dist => some dist
  | fuel + 1, some a, dist => do
    let node ← heap[a]?
    if compMacAddrs node.remoteInfo.macaddr mac = 0 ∧ u32OfInt dist > node.linkweight then
      getLowestSavedDistanceLoop heap mac fuel node.next (intOfU32 node.linkweight)
    else getLowestSavedDistanceLoop heap mac fuel node.next dist

def getLowestSavedDistance (fuel : Nat) (mac : Mac) (st : Proxy) : Option Int :=
  getLowestSavedDistanceLoop st.heap mac fuel st.memList.head (-1)

/-! ## Deleting -/

def deleteMembersLoop (mac : Mac) : Nat → Ptr → Ptr → Proxy → Option Proxy
  | 0, _, _, _ => none
  | _ + 1, _, none, st => some st
  | fuel + 1, prev, some curr, st => do
    let node ← st.heap[curr]?
    if compMacAddrs node.remoteInfo.macaddr mac = 0 then
      let st := st.deletesockfd node.remoteInfo.macaddr
      let st := match prev with
        | none => st.setHead node.next
        | some p => st.setNext p node.next
      some (st.setSize (st.memList.size - 1))
    else deleteMembersLoop mac fuel (some curr) node.next st

def deleteMembers (fuel : Nat) (link : Addr) (st : Proxy) : Option Proxy := do
  let node ← st.heap[link]?
  deleteMembersLoop node.remoteInfo.macaddr fuel none st.memList.head st

/-- The loop reads `ptr->next` before it deletes. -/
def removeExpiredLoop (fuel : Nat) (time microTimeout : Int) : Nat → Ptr → Proxy → Option Proxy
  | 0, _, _ => none
  | _ + 1, none, st => some st
  | n + 1, some ptr, st => do
    let node ← st.heap[ptr]?
    let id ← doubleOfU64 node.ID
    if time - id > microTimeout then
      let st ← deleteMembers fuel ptr st
      removeExpiredLoop fuel time microTimeout n node.next st
    else removeExpiredLoop fuel time microTimeout n node.next st

def removeExpiredMembers (fuel : Nat) (now : U64) (linkTimeout : Int) (st : Proxy) :
    Option Proxy := do
  let st := st.emit .lock
  let time ← doubleOfU64 now
  let microTimeout ← mulInt linkTimeout 1000
  let st ← removeExpiredLoop fuel time microTimeout fuel st.memList.head st
  some (st.emit .unlock)

/-! ## Adding -/

/-- `ptr->next = mem_list->head; ptr->linkweight = w; mem_list->head = ptr`. -/
def Proxy.linkNode (ptr : Addr) (w : U32) (st : Proxy) : Proxy :=
  let st := st.setNext ptr st.memList.head
  let st := st.setLinkweight ptr w
  st.setHead (some ptr)

/-- `linkNode`, then `mem_list->head->ID = gettimeid(); mem_list->size++`. -/
def Proxy.pushNode (ptr : Addr) (w : U32) (now : U64) (st : Proxy) : Proxy :=
  let st := st.linkNode ptr w
  let st := st.setID ptr now
  st.setSize (st.memList.size + 1)

def addMemberConnect (env : Env) (fuel : Nat) (now : U64) (gatewaySockID : Int) (recvNode : Addr)
    (st : Proxy) : Option Proxy := do
  let st := st.emit .lock
  let recv ← st.heap[recvNode]?
  match st.findSocketfd recv.remoteInfo.macaddr with
  | none =>
    if compMacZero recv.remoteInfo.macaddr ≠ 0 ∨
        compMacAddrs recv.remoteInfo.macaddr env.myProxyInfo.macaddr = 0 then
      let finder ← inMemberList fuel recv.localInfo recv.remoteInfo st
      match finder with
      | some f => some ((st.setID f now).emit .unlock)
      | none => some (st.emit .unlock)
    else
      let st := st.addsockfd recv.remoteInfo.macaddr gatewaySockID
      let st := st.pushNode recvNode (recv.linkweight + 1) now
      some (st.emit .unlock)
  | some _ =>
    let finder ← inMemberList fuel recv.localInfo recv.remoteInfo st
    match finder with
    | none =>
      let dist ← getLowestSavedDistance fuel recv.localInfo.macaddr st
      let saveDist ← getLowestSavedDistance fuel recv.remoteInfo.macaddr st
      let w := recv.linkweight + u32OfInt dist
      let st := st.pushNode recvNode w now
      if w < u32OfInt saveDist then
        let st := st.setSockFd recv.remoteInfo.macaddr gatewaySockID
        some (st.emit .unlock)
      else some (st.emit .unlock)
    | some _ => some (st.emit .unlock)

/-- The loop body: one call, then `ptr = ptr->next`. -/
def addMembersStep (env : Env) (fuel : Nat) (now : U64) (gatewaySockID : Int) (ptr : Addr)
    (st : Proxy) : Option (Ptr × Proxy) := do
  let st ← addMemberConnect env fuel now gatewaySockID ptr st
  let node ← st.heap[ptr]?
  some (node.next, st)

def addMembersLoop (env : Env) (fuel : Nat) (now : U64) (gatewaySockID : Int) :
    Nat → Ptr → Proxy → Option Proxy
  | 0, _, _ => none
  | _ + 1, none, st => some st
  | n + 1, some ptr, st => do
    let (ptr, st) ← addMembersStep env fuel now gatewaySockID ptr st
    addMembersLoop env fuel now gatewaySockID n ptr st

def addMembers (env : Env) (fuel : Nat) (now : U64) (list : Ptr) (gatewaySockID : Int)
    (st : Proxy) : Option Proxy :=
  addMembersLoop env fuel now gatewaySockID fuel list st

end Cs352Proxy
