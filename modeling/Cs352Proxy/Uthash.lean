import Cs352Proxy.State

/-!
# Uthash

The hash table of `uthash.h` that `socketfds` is kept in, as its macros leave it in memory.

* An `Elem` is a user's struct with its `UT_hash_handle`. The handle lies at one place in every
  struct, so an element and its handle have one address; the heap is the list of all elements.
* `keyptr` is what lies in memory from an element's key on. The handle's `key` points into its own
  element and `tbl` to the one table, so neither is kept.
* The counters are natural numbers: 2 ^ 32 elements do not fit the address space.
* `hashFind`, `hashAddKeyptr`, `hashDelete`: the three macros. `hashExpandBuckets` runs when a
  bucket has become too long; a chain is followed with fuel, one unit an element.
* `hashFsck`: the integrity check that is compiled with `HASH_DEBUG`.
* `Uthash.addsockfd` and the functions below it: the accesses of `cs352proxy.c`.
-/

namespace Cs352Proxy

open Base

def hashInitialNumBuckets : Nat := 32
def hashInitialNumBucketsLog2 : Nat := 5
def hashBktCapacityThresh : Nat := 10

structure UtHashHandle where
  prev : Ptr
  next : Ptr
  hhPrev : Ptr
  hhNext : Ptr
  keylen : Nat
  hashv : U32
deriving DecidableEq

structure Elem (α : Type) where
  item : α
  hh : UtHashHandle
deriving DecidableEq

structure UtHashBucket where
  hhHead : Ptr
  count : Nat
  expandMult : Nat
deriving DecidableEq

/-- What `memset` leaves of a bucket. -/
def UtHashBucket.zero : UtHashBucket := { hhHead := none, count := 0, expandMult := 0 }

structure UtHashTable where
  buckets : List UtHashBucket
  numBuckets : Nat
  log2NumBuckets : Nat
  numItems : Nat
  tail : Ptr
  idealChainMaxlen : Nat
  nonidealItems : Nat
  ineffExpands : Nat
  noexpand : Nat
deriving DecidableEq

/-- The heap, the user's pointer to the first element, and the table while there is one. -/
structure UtHash (α : Type) where
  elems : List (Elem α)
  head : Ptr
  tbl : Option UtHashTable
deriving DecidableEq

/-! ## The hash function -/

/-- `HASH_JEN_MIX`. -/
def hashJenMix (a b c : U32) : U32 × U32 × U32 :=
  let a := a - b - c ^^^ (c >>> 13)
  let b := b - c - a ^^^ (a <<< 8)
  let c := c - a - b ^^^ (b >>> 13)
  let a := a - b - c ^^^ (c >>> 12)
  let b := b - c - a ^^^ (a <<< 16)
  let c := c - a - b ^^^ (b >>> 5)
  let a := a - b - c ^^^ (c >>> 3)
  let b := b - c - a ^^^ (a <<< 10)
  let c := c - a - b ^^^ (b >>> 15)
  (a, b, c)

/-- `(unsigned) key[n]`. -/
def keyByte (key : List U8) (n : Nat) : U32 := (key.getD n 0).setWidth 32

def keyWord (key : List U8) (n : Nat) : U32 :=
  keyByte key n + (keyByte key (n + 1) <<< 8) + (keyByte key (n + 2) <<< 16) +
    (keyByte key (n + 3) <<< 24)

/-- The rounds of twelve bytes: what is left of the key, and `i`, `j` and `hashv`. -/
def hashJenLoop : Nat → List U8 → U32 × U32 × U32 → List U8 × U32 × U32 × U32
  | 0, key, s => (key, s)
  | n + 1, key, (i, j, hashv) =>
    hashJenLoop n (key.drop 12)
      (hashJenMix (i + keyWord key 0) (j + keyWord key 4) (hashv + keyWord key 8))

/-- What `case n + 1` of the `switch` on `k` adds. The cases fall through. -/
def hashJenCase (k : Nat) (key : List U8) (n shift : Nat) : U32 :=
  if n + 1 ≤ k then keyByte key n <<< shift else 0

/-- `HASH_JEN`. -/
def hashJen (key : List U8) (keylen : Nat) : U32 :=
  let (key, i, j, hashv) := hashJenLoop (keylen / 12) key (0x9e3779b9, 0x9e3779b9, 0xfeedbeef)
  let k := keylen % 12
  let hashv := hashv + BitVec.ofNat 32 keylen
  let hashv := hashv + hashJenCase k key 10 24 + hashJenCase k key 9 16 + hashJenCase k key 8 8
  let j := j + hashJenCase k key 7 24 + hashJenCase k key 6 16 + hashJenCase k key 5 8 +
    hashJenCase k key 4 0
  let i := i + hashJenCase k key 3 24 + hashJenCase k key 2 16 + hashJenCase k key 1 8 +
    hashJenCase k key 0 0
  (hashJenMix i j hashv).2.2

/-- `HASH_TO_BKT`. -/
def hashToBkt (hashv : U32) (numBkts : Nat) : Nat :=
  (hashv &&& BitVec.ofNat 32 (numBkts - 1)).toNat

/-! ## Finding -/

section Macros

variable {α : Type} (keyptr : α → List U8)

/-- Write a field of the handle at `a`. -/
def setHh (a : Addr) (f : UtHashHandle → UtHashHandle) (elems : List (Elem α)) : List (Elem α) :=
  elems.modify a fun e => { e with hh := f e.hh }

/-- The same through a pointer that is tested first: `if (p) p->field = ..`. -/
def setHhIf (p : Ptr) (f : UtHashHandle → UtHashHandle) (elems : List (Elem α)) : List (Elem α) :=
  match p with
  | none => elems
  | some a => setHh a f elems

/-- `HASH_FIND_IN_BKT`; `HASH_KEYCMP` is `memcmp`. -/
def hashFindInBkt (elems : List (Elem α)) (key : List U8) (keylenIn : Nat) : Nat → Ptr → Option Ptr
  | 0, _ => none
  | _ + 1, none => some none
  | n + 1, some out => do
    let e ← elems[out]?
    if e.hh.keylen = keylenIn ∧ (keyptr e.item).take keylenIn = key.take keylenIn then some (some out)
    else hashFindInBkt elems key keylenIn n e.hh.hhNext

/-- `HASH_FIND`. -/
def hashFind (fuel : Nat) (key : List U8) (keylen : Nat) (s : UtHash α) : Option Ptr :=
  match s.head with
  | none => some none
  | some _ => do
    let tbl ← s.tbl
    let bucket ← tbl.buckets[hashToBkt (hashJen key keylen) tbl.numBuckets]?
    hashFindInBkt keyptr s.elems key keylen fuel bucket.hhHead

/-! ## Adding -/

/-- What `HASH_EXPAND_BUCKETS` changes while it moves the elements. -/
structure Expansion (α : Type) where
  elems : List (Elem α)
  newBuckets : List UtHashBucket
  nonidealItems : Nat

/-- One element, to the front of its new bucket. -/
def expandItem (numBuckets idealChainMaxlen : Nat) (thh : Addr) (x : Expansion α) :
    Option (Ptr × Expansion α) := do
  let e ← x.elems[thh]?
  let bkt := hashToBkt e.hh.hashv (numBuckets * 2)
  let newbkt ← x.newBuckets[bkt]?
  let count := newbkt.count + 1
  let elems := setHh thh (fun hh => { hh with hhPrev := none, hhNext := newbkt.hhHead }) x.elems
  let elems := setHhIf newbkt.hhHead (fun hh => { hh with hhPrev := some thh }) elems
  some (e.hh.hhNext,
    { elems
      newBuckets := x.newBuckets.set bkt
        { hhHead := some thh
          count
          expandMult := if count > idealChainMaxlen then count / idealChainMaxlen else newbkt.expandMult }
      nonidealItems := if count > idealChainMaxlen then x.nonidealItems + 1 else x.nonidealItems })

/-- The chain of one old bucket. -/
def expandChain (numBuckets idealChainMaxlen : Nat) : Nat → Ptr → Expansion α → Option (Expansion α)
  | 0, _, _ => none
  | _ + 1, none, x => some x
  | n + 1, some thh, x => do
    let (nxt, x) ← expandItem numBuckets idealChainMaxlen thh x
    expandChain numBuckets idealChainMaxlen n nxt x

def expandLoop (fuel numBuckets idealChainMaxlen : Nat) : List UtHashBucket → Expansion α →
    Option (Expansion α)
  | [], x => some x
  | b :: bs, x => do
    let x ← expandChain numBuckets idealChainMaxlen fuel b.hhHead x
    expandLoop fuel numBuckets idealChainMaxlen bs x

/-- `tbl->ideal_chain_maxlen` for twice as many buckets. -/
def newIdealMaxlen (tbl : UtHashTable) : Nat :=
  (tbl.numItems >>> (tbl.log2NumBuckets + 1)) +
    if tbl.numItems &&& (tbl.numBuckets * 2 - 1) ≠ 0 then 1 else 0

/-- The table once the elements are moved. -/
def UtHashTable.expanded (tbl : UtHashTable) (x : Expansion α) : UtHashTable :=
  let ineffExpands := if x.nonidealItems > tbl.numItems >>> 1 then tbl.ineffExpands + 1 else 0
  { tbl with
    buckets := x.newBuckets
    numBuckets := tbl.numBuckets * 2
    log2NumBuckets := tbl.log2NumBuckets + 1
    idealChainMaxlen := newIdealMaxlen tbl
    nonidealItems := x.nonidealItems
    ineffExpands
    noexpand := if ineffExpands > 1 then 1 else tbl.noexpand }

/-- `HASH_EXPAND_BUCKETS`. -/
def hashExpandBuckets (fuel : Nat) (elems : List (Elem α)) (tbl : UtHashTable) :
    Option (List (Elem α) × UtHashTable) := do
  let newBuckets := List.replicate (2 * tbl.numBuckets) UtHashBucket.zero
  let x ← expandLoop fuel tbl.numBuckets (newIdealMaxlen tbl) tbl.buckets
    { elems, newBuckets, nonidealItems := 0 }
  some (x.elems, tbl.expanded x)

/-- `HASH_ADD_TO_BKT`. -/
def hashAddToBkt (fuel bkt : Nat) (addhh : Addr) (elems : List (Elem α)) (tbl : UtHashTable) :
    Option (List (Elem α) × UtHashTable) := do
  let head ← tbl.buckets[bkt]?
  let elems := setHh addhh (fun hh => { hh with hhNext := head.hhHead, hhPrev := none }) elems
  let elems := setHhIf head.hhHead (fun hh => { hh with hhPrev := some addhh }) elems
  let tbl := { tbl with
    buckets := tbl.buckets.set bkt { head with count := head.count + 1, hhHead := some addhh } }
  if head.count + 1 ≥ (head.expandMult + 1) * hashBktCapacityThresh ∧ tbl.noexpand ≠ 1 then
    hashExpandBuckets fuel elems tbl
  else some (elems, tbl)

/-- `HASH_MAKE_TABLE`. -/
def hashMakeTable (head : Addr) : UtHashTable :=
  { buckets := List.replicate hashInitialNumBuckets UtHashBucket.zero
    numBuckets := hashInitialNumBuckets
    log2NumBuckets := hashInitialNumBucketsLog2
    numItems := 0
    tail := some head
    idealChainMaxlen := 0
    nonidealItems := 0
    ineffExpands := 0
    noexpand := 0 }

/-- `HASH_ADD_KEYPTR` with the key of the element at `add`. -/
def hashAddKeyptr (fuel : Nat) (keylenIn : Nat) (add : Addr) (s : UtHash α) : Option (UtHash α) := do
  let e ← s.elems[add]?
  let elems := setHh add (fun hh => { hh with next := none, keylen := keylenIn }) s.elems
  let (head, elems, tbl) ← match s.head with
    | none =>
      some (add, setHh add (fun hh => { hh with prev := none }) elems, hashMakeTable add)
    | some head => do
      let tbl ← s.tbl
      let elems := setHhIf tbl.tail (fun hh => { hh with next := some add }) elems
      let elems := setHh add (fun hh => { hh with prev := tbl.tail }) elems
      some (head, elems, { tbl with tail := some add })
  let tbl := { tbl with numItems := tbl.numItems + 1 }
  let hashv := hashJen (keyptr e.item) keylenIn
  let elems := setHh add (fun hh => { hh with hashv := hashv }) elems
  let (elems, tbl) ← hashAddToBkt fuel (hashToBkt hashv tbl.numBuckets) add elems tbl
  some { elems, head := some head, tbl := some tbl }

/-! ## Deleting -/

/-- `HASH_DEL_IN_BKT`. -/
def hashDelInBkt (hhDel : Addr) (hh : UtHashHandle) (b : UtHashBucket) (elems : List (Elem α)) :
    UtHashBucket × List (Elem α) :=
  let elems := setHhIf hh.hhPrev (fun p => { p with hhNext := hh.hhNext }) elems
  let elems := setHhIf hh.hhNext (fun n => { n with hhPrev := hh.hhPrev }) elems
  ({ b with
      count := b.count - 1
      hhHead := if b.hhHead = some hhDel then hh.hhNext else b.hhHead }, elems)

/-- `HASH_DELETE`. The last element takes the table with it. -/
def hashDelete (delptr : Addr) (s : UtHash α) : Option (UtHash α) := do
  let e ← s.elems[delptr]?
  if e.hh.prev = none ∧ e.hh.next = none then some { s with head := none, tbl := none }
  else
    let tbl ← s.tbl
    let tail := if tbl.tail = some delptr then e.hh.prev else tbl.tail
    let elems := setHhIf e.hh.prev (fun hh => { hh with next := e.hh.next }) s.elems
    let head := if e.hh.prev = none then e.hh.next else s.head
    let elems := setHhIf e.hh.next (fun hh => { hh with prev := e.hh.prev }) elems
    let bkt := hashToBkt e.hh.hashv tbl.numBuckets
    let b ← tbl.buckets[bkt]?
    let (b, elems) := hashDelInBkt delptr e.hh b elems
    some
      { elems, head
        tbl := some { tbl with tail, buckets := tbl.buckets.set bkt b, numItems := tbl.numItems - 1 } }

/-! ## The integrity check -/

/-- Along one pair of links: `none` when a link back is wrong, else how many elements there are. -/
def fsckLoop (prevOf nextOf : UtHashHandle → Ptr) (elems : List (Elem α)) :
    Nat → Ptr → Ptr → Option Nat
  | 0, _, _ => none
  | _ + 1, _, none => some 0
  | n + 1, prev, some thh => do
    let e ← elems[thh]?
    if prevOf e.hh ≠ prev then none
    else
      let count ← fsckLoop prevOf nextOf elems n (some thh) (nextOf e.hh)
      some (count + 1)

/-- The chain of one bucket. -/
def fsckBkt (elems : List (Elem α)) (fuel : Nat) (hhHead : Ptr) : Option Nat :=
  fsckLoop (·.hhPrev) (·.hhNext) elems fuel none hhHead

/-- All buckets: `none` when a count is wrong, else how many elements there are. -/
def fsckBkts (fuel : Nat) (elems : List (Elem α)) : List UtHashBucket → Option Nat
  | [] => some 0
  | b :: bs => do
    let bktCount ← fsckBkt elems fuel b.hhHead
    if b.count ≠ bktCount then none
    else
      let count ← fsckBkts fuel elems bs
      some (bktCount + count)

/-- The elements in the order they were added. -/
def fsckApp (elems : List (Elem α)) (fuel : Nat) (head : Ptr) : Option Nat :=
  fsckLoop (·.prev) (·.next) elems fuel none head

/-- `HASH_FSCK`: false when it would report, or not come to an end. -/
def hashFsck (fuel : Nat) (s : UtHash α) : Bool :=
  match s.head, s.tbl with
  | none, _ => true
  | some _, none => false
  | some head, some tbl =>
    fsckBkts fuel s.elems (tbl.buckets.take tbl.numBuckets) = some tbl.numItems ∧
      fsckApp s.elems fuel (some head) = some tbl.numItems

end Macros

/-! ## The forwarding table in it -/

/-- `macaddr[7]`. -/
def ProxySocketfd.keyptr (s : ProxySocketfd) : List U8 := s.macaddr.bytes ++ [0]

/-- What `strlen` returns. -/
def strlen (s : List U8) : Nat := (cstr s).length

namespace Uthash

/-- `hh` is what `malloc` left in the new element. -/
def addsockfd (fuel : Nat) (hh : UtHashHandle) (newMacaddr : Mac) (fd : Int)
    (s : UtHash ProxySocketfd) : Option (UtHash ProxySocketfd) :=
  let elem : Elem ProxySocketfd := { item := { macaddr := newMacaddr, sockFd := fd }, hh }
  hashAddKeyptr ProxySocketfd.keyptr fuel (strlen elem.item.keyptr) s.elems.length
    { s with elems := s.elems ++ [elem] }

def findSocketfd (fuel : Nat) (macaddr : Mac) (s : UtHash ProxySocketfd) : Option Ptr :=
  let macaddr2 := macaddr.bytes ++ [0]
  hashFind ProxySocketfd.keyptr fuel macaddr2 (strlen macaddr2) s

def deletesockfd (fuel : Nat) (macaddr : Mac) (s : UtHash ProxySocketfd) :
    Option (UtHash ProxySocketfd) := do
  match ← findSocketfd fuel macaddr s with
  | none => some s
  | some a => hashDelete a s

/-- `pkt_sockfd->sock_fd = fd`. -/
def setSockFd (pktSockfd : Addr) (fd : Int) (s : UtHash ProxySocketfd) : UtHash ProxySocketfd :=
  { s with elems := s.elems.modify pktSockfd fun e => { e with item := { e.item with sockFd := fd } } }

/-- The elements from `s` on: `for (; s != NULL; s = s->hh.next)`. -/
def iterate (elems : List (Elem ProxySocketfd)) : Nat → Ptr → Option (List ProxySocketfd)
  | 0, _ => none
  | _ + 1, none => some []
  | n + 1, some a => do
    let e ← elems[a]?
    let rest ← iterate elems n e.hh.next
    some (e.item :: rest)

end Uthash

end Cs352Proxy
