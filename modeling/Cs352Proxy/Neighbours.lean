import Cs352Proxy.Settled
import Cs352Proxy.Base.Runs
import Mathlib.Logic.Function.Basic

/-!
# Neighbours

Two proxies that store nothing but the link to each other, on one connection. They flood their
lists, handle what the other one sent in the order it was sent, and sweep, in any order of steps.

* `Pair`: the two proxies. What is in flight to a side is what the other side has sent on the
  connection beyond the packets the side has handled.
* `Neighbours.Kept`: the invariant, both sides `Settled` and only adverts in flight.
* `Kept.put`: what one step of one side must do to keep it.
-/

namespace Cs352Proxy

open Base

inductive Side where
  | client
  | server
deriving DecidableEq

namespace Side

def other : Side → Side
  | client => server
  | server => client

@[simp] theorem other_other (x : Side) : x.other.other = x := by cases x <;> rfl

theorem other_ne (x : Side) : x.other ≠ x := by cases x <;> decide

theorem eq_or_eq_other (x y : Side) : y = x ∨ y = x.other := by
  cases x <;> cases y <;> decide

end Side

structure Pair where
  st : Side → Proxy
  /-- How many packets of the other side were handled. -/
  handled : Side → Nat
  /-- When the last one was; before that, the `ID` of the side's link. -/
  heard : Side → U64

/-- One side moves on. -/
def Pair.put (p : Pair) (x : Side) (st : Proxy) (handled : Nat) (heard : U64) : Pair :=
  { st := Function.update p.st x st
    handled := Function.update p.handled x handled
    heard := Function.update p.heard x heard }

inductive PairOp where
  | send (x : Side)
  /-- `x` handles the next packet of the other side. -/
  | deliver (x : Side) (now : U64)
  | sweep (x : Side) (now : U64) (linkTimeout : Int)
deriving DecidableEq

/-- The two proxies and the sockets of their connection. -/
structure Neighbours where
  env : Side → Env
  fd : Side → Int

namespace Neighbours

variable (nb : Neighbours)

def info (x : Side) : ProxyInfo := (nb.env x).myProxyInfo

/-- What the other side sent to `x`, oldest first. -/
def sentTo (p : Pair) (x : Side) : List Buf := sentOn (nb.fd x.other) (p.st x.other)

def perform (fuel : Nat) (p : Pair) : PairOp → Option Pair
  | .send x => do
    let st ← sendPackets (nb.env x) fuel (p.st x)
    some (p.put x st (p.handled x) (p.heard x))
  | .deliver x now => do
    let bytes ← (nb.sentTo p x)[p.handled x]?
    match tcpHandle (nb.env x) fuel now (nb.fd x) bytes (p.st x) with
    | .next st => some (p.put x st (p.handled x + 1) now)
    | .exit _ | .stuck _ => none
  | .sweep x now linkTimeout => do
    let st ← removeExpiredMembers fuel now linkTimeout (p.st x)
    some (p.put x st (p.handled x) (p.heard x))

/-- A sweep comes no later than the timeout after the last packet. -/
def Allowed (p : Pair) : PairOp → Prop
  | .send _ | .deliver _ _ => True
  | .sweep x now linkTimeout => Timely now (p.heard x) linkTimeout

instance (p : Pair) (op : PairOp) : Decidable (Allowed p op) := by
  cases op
  · exact inferInstanceAs (Decidable True)
  · exact inferInstanceAs (Decidable True)
  · exact inferInstanceAs (Decidable (Timely _ _ _))

def Performs (p : Pair) (op : PairOp) (p' : Pair) : Prop :=
  Allowed p op ∧ ∃ fuel, nb.perform fuel p op = some p'

/-- The operation has something to work on. -/
def Ready (p : Pair) : PairOp → Prop
  | .send _ => True
  | .deliver x _ => p.handled x < (nb.sentTo p x).length
  | .sweep x now linkTimeout =>
    Timely now (p.heard x) linkTimeout ∧ Representable now (p.heard x) linkTimeout

/-- Each side stores its link to the other side and reaches it through the connection, and its own
address is not in its table. So it is when the table has the one entry (`find_only_entry`). -/
structure Established (p : Pair) : Prop where
  list : ∀ x, ∃ a, NodeList (p.st x).heap (p.st x).memList.head
    [(a, peerNode (nb.env x) (nb.info x.other) (p.heard x))]
  size : ∀ x, (p.st x).memList.size = 1
  peer : ∀ x, ((p.st x).findSocketfd (nb.info x.other).macaddr).map (·.sockFd) = some (nb.fd x)
  own : ∀ x, (p.st x).findSocketfd (nb.info x).macaddr = none
  quiet : ∀ x, p.handled x = (nb.sentTo p x).length

/-! ## The invariant -/

structure Kept (a : Side → Addr) (routes : Side → List ProxySocketfd) (p : Pair) : Prop where
  settled : ∀ x, Settled (nb.env x) (nb.info x.other) (a x) (routes x) (p.heard x) (p.st x)
  adverts : ∀ x, ∀ bytes ∈ (nb.sentTo p x).drop (p.handled x),
    IsAdvert (nb.env x.other) (nb.info x) bytes

/-- The table of each side, as lookups. -/
structure Tables (routes : Side → List ProxySocketfd) : Prop where
  peer : ∀ x, ∃ e, lookup ProxySocketfd.key (routes x) (nb.info x.other).macaddr.key = some e
  own : ∀ x, lookup ProxySocketfd.key (routes x) (nb.info x).macaddr.key = none

variable {nb} {a : Side → Addr} {routes : Side → List ProxySocketfd} {p p' : Pair}

theorem Kept.put (hk : nb.Kept a routes p) {x : Side} {st : Proxy} {handled : Nat} {heard : U64}
    (hs : Settled (nb.env x) (nb.info x.other) (a x) (routes x) heard st)
    (hsent : ∃ new, sentOn (nb.fd x) st = sentOn (nb.fd x) (p.st x) ++ new ∧
      ∀ bytes ∈ new, IsAdvert (nb.env x) (nb.info x.other) bytes)
    (hhandled : p.handled x ≤ handled) : nb.Kept a routes (p.put x st handled heard) := by
  have hne := x.other_ne
  constructor
  · intro y
    rcases x.eq_or_eq_other y with rfl | rfl
    · simpa [Pair.put] using hs
    · simpa [Pair.put, hne] using hk.settled x.other
  · intro y bytes hmem
    rcases x.eq_or_eq_other y with rfl | rfl
    · -- what the other side sent is as before
      have hsub : (nb.sentTo p y).drop handled ⊆ (nb.sentTo p y).drop (p.handled y) :=
        (List.drop_sublist_drop_left _ hhandled).subset
      refine hk.adverts y bytes (hsub ?_)
      simpa [Pair.put, sentTo, hne] using hmem
    · obtain ⟨new, hnew, hall⟩ := hsent
      have hmem' : bytes ∈ (sentOn (nb.fd x) (p.st x) ++ new).drop (p.handled x.other) := by
        simpa [Pair.put, sentTo, hne, hnew] using hmem
      rw [List.drop_append] at hmem'
      rw [Side.other_other]
      rcases List.mem_append.mp hmem' with hold | hold
      · have hadvert := hk.adverts x.other bytes (by simpa [sentTo] using hold)
        rwa [Side.other_other] at hadvert
      · exact hall bytes (List.drop_subset _ _ hold)

/-- The next packet to `x` is an advert, and `x` knows its source. -/
theorem Kept.tcpHandle_eq (hk : nb.Kept a routes p) (ht : nb.Tables routes) {x : Side} {bytes : Buf}
    (hbytes : (nb.sentTo p x)[p.handled x]? = some bytes) (now : U64) :
    ∃ ls, ∀ fuel, tcpHandle (nb.env x) fuel now (nb.fd x) bytes (p.st x) =
      if 2 ≤ fuel then .next ((p.st x).refresh (a x) now ls) else .stuck (p.st x) := by
  have hs := hk.settled x
  obtain ⟨e, he⟩ := ht.peer x
  have hpeer : (p.st x).findSocketfd (nb.env x.other).myProxyInfo.macaddr = some e := by
    rw [Proxy.findSocketfd, hs.routes]; exact he
  have hown : (p.st x).findSocketfd (nb.env x).myProxyInfo.macaddr = none := by
    rw [Proxy.findSocketfd, hs.routes]; exact ht.own x
  have hnext : ((nb.sentTo p x).drop (p.handled x))[0]? = some bytes := by
    rw [List.getElem?_drop]; exact hbytes
  exact tcpHandle_settled hs hpeer hown (hk.adverts x bytes (List.mem_of_getElem? hnext))

theorem Performs.kept {op : PairOp} (ht : nb.Tables routes) (hk : nb.Kept a routes p)
    (h : nb.Performs p op p') : nb.Kept a routes p' := by
  obtain ⟨hallowed, fuel, h⟩ := h
  cases op with
  | send x =>
    simp only [perform, Option.bind_eq_bind, Option.bind_eq_some_iff] at h
    obtain ⟨st, hst, h⟩ := h
    cases h
    obtain ⟨e, he⟩ := ht.peer x
    have hne : routes x ≠ [] := fun hnil => by rw [hnil] at he; cases he
    obtain ⟨hs, hsent⟩ := sendPackets_some (hk.settled x) hne (nb.fd x) hst
    exact hk.put hs hsent (Nat.le_refl _)
  | deliver x now =>
    simp only [perform, Option.bind_eq_bind, Option.bind_eq_some_iff] at h
    obtain ⟨bytes, hbytes, h⟩ := h
    obtain ⟨ls, hhandle⟩ := hk.tcpHandle_eq ht hbytes now
    rw [hhandle] at h
    by_cases hfuel : 2 ≤ fuel
    · rw [if_pos hfuel] at h
      cases h
      exact hk.put ((hk.settled x).refresh now ls)
        ⟨[], by rw [sentOn_refresh, List.append_nil], by simp⟩ (Nat.le_succ _)
    · rw [if_neg hfuel] at h
      cases h
  | sweep x now linkTimeout =>
    simp only [perform, Option.bind_eq_bind, Option.bind_eq_some_iff] at h
    obtain ⟨st, hst, h⟩ := h
    cases h
    have hs := hk.settled x
    have heq := removeExpiredMembers_settled hs hallowed hst
    subst heq
    exact hk.put ⟨hs.memList, hs.node, hs.routes⟩ ⟨[], by rw [List.append_nil]; rfl, by simp⟩
      (Nat.le_refl _)

/-- Nothing an operation waits for is missing: two rounds of each loop are enough. -/
theorem Ready.performs {op : PairOp} (ht : nb.Tables routes) (hk : nb.Kept a routes p)
    (hr : nb.Ready p op) : ∃ p', nb.Performs p op p' := by
  cases op with
  | send x =>
    obtain ⟨bytes, _, heq⟩ := sendPackets_settled (hk.settled x) 0
    exact ⟨_, trivial, 2, by simp only [perform, heq]; rfl⟩
  | deliver x now =>
    have hbytes := List.getElem?_eq_getElem hr
    obtain ⟨ls, hhandle⟩ := hk.tcpHandle_eq ht hbytes now
    exact ⟨_, trivial, 2, by simp only [perform, hbytes, Option.bind_eq_bind, Option.bind_some, hhandle 2]; rfl⟩
  | sweep x now linkTimeout =>
    obtain ⟨htimely, hnow, htime, htimeout⟩ := hr
    have hsome : ∃ st, removeExpiredMembers 2 now linkTimeout (p.st x) = some st :=
      removeExpiredMembers_isSome (hk.settled x).list (by simp) hnow
        (List.forall_mem_singleton.mpr htime) htimeout
    obtain ⟨st, hst⟩ := hsome
    exact ⟨_, htimely, 2, by simp only [perform, hst]; rfl⟩

/-! ## Runs -/

theorem Established.kept (h : nb.Established p) :
    ∃ a, nb.Tables (fun x => (p.st x).socketfds) ∧ nb.Kept a (fun x => (p.st x).socketfds) p := by
  choose a ha using h.list
  refine ⟨a, ⟨?_, h.own⟩, ?_, ?_⟩
  · intro x
    obtain ⟨e, he, _⟩ := Option.map_eq_some_iff.mp (h.peer x)
    exact ⟨e, he⟩
  · intro x
    obtain ⟨hhead, hnode, _⟩ := ha x
    refine ⟨?_, hnode, rfl⟩
    rw [← hhead, ← h.size x]
  · intro x bytes hmem
    rw [h.quiet x, List.drop_length] at hmem
    cases hmem

/-- The time of the last packet that `x` handled in a run, or `first` if it handled none. -/
def lastHeard (x : Side) (first : U64) : List (Step Pair PairOp) → U64
  | [] => first
  | s :: tr =>
    match s.input with
    | .deliver y now => if y = x then now else lastHeard x first tr
    | .send _ | .sweep .. => lastHeard x first tr

theorem heard_eq {p₀ : Pair} {tr : List (Step Pair PairOp)} (hr : Run p₀ nb.Performs tr p)
    (x : Side) : p.heard x = lastHeard x (p₀.heard x) tr := by
  induction hr with
  | start => rfl
  | @snoc tr p p' op _ hs ih =>
    obtain ⟨_, fuel, hs⟩ := hs
    cases op with
    | send y =>
      simp only [perform, Option.bind_eq_bind, Option.bind_eq_some_iff] at hs
      obtain ⟨st, _, hs⟩ := hs
      cases hs
      simp [lastHeard, Pair.put, ih]
    | deliver y now =>
      simp only [perform, Option.bind_eq_bind, Option.bind_eq_some_iff] at hs
      obtain ⟨bytes, _, hs⟩ := hs
      split at hs <;> cases hs
      by_cases hxy : y = x
      · simp [lastHeard, Pair.put, hxy]
      · simp [lastHeard, Pair.put, hxy, Function.update_of_ne (Ne.symm hxy), ih]
    | sweep y now linkTimeout =>
      simp only [perform, Option.bind_eq_bind, Option.bind_eq_some_iff] at hs
      obtain ⟨st, _, hs⟩ := hs
      cases hs
      simp [lastHeard, Pair.put, ih]

/-- The list and the table of `x` are those of `p₀`, but for the time of the one link. -/
def Unchanged (p₀ p : Pair) (x : Side) (time : U64) : Prop :=
  (p.st x).socketfds = (p₀.st x).socketfds ∧ (p.st x).memList = (p₀.st x).memList ∧
    ∃ a node, NodeList (p₀.st x).heap (p₀.st x).memList.head [(a, node)] ∧
      NodeList (p.st x).heap (p.st x).memList.head [(a, { node with ID := time })]

theorem Kept.unchanged {p₀ : Pair} {x : Side} (h₀ : nb.Kept a routes p₀) (hk : nb.Kept a routes p) :
    Unchanged p₀ p x (p.heard x) := by
  have hs₀ := h₀.settled x
  have hs := hk.settled x
  exact ⟨hs.routes.trans hs₀.routes.symm, hs.memList.trans hs₀.memList.symm, a x, _, hs₀.list, hs.list⟩

/-- However the two sides send, handle and sweep, neither list and neither table changes, and no
operation gets stuck. -/
theorem neighbours_stable {p₀ : Pair} {tr : List (Step Pair PairOp)} (h : nb.Established p₀)
    (hr : Run p₀ nb.Performs tr p) :
    (∀ x, Unchanged p₀ p x (lastHeard x (p₀.heard x) tr)) ∧
      ∀ op, nb.Ready p op → ∃ p', nb.Performs p op p' := by
  obtain ⟨a, ht, h₀⟩ := h.kept
  obtain ⟨hk, _⟩ := Run.invariant (P := nb.Kept a _) h₀ (fun _ _ _ hk hs => hs.kept ht hk) hr
  refine ⟨?_, fun op hready => hready.performs ht hk⟩
  intro x
  rw [← heard_eq hr x]
  exact h₀.unchanged hk

end Neighbours

/-- A table with one entry, for an address whose key differs from the proxy's own. -/
theorem find_only_entry {st : Proxy} {peer own : Mac} {fd : Int} (hkey : peer.key ≠ own.key)
    (htable : st.socketfds = [{ macaddr := peer, sockFd := fd }]) :
    (st.findSocketfd peer).map (·.sockFd) = some fd ∧ st.findSocketfd own = none := by
  unfold Proxy.findSocketfd
  have hentry : ProxySocketfd.key { macaddr := peer, sockFd := fd } = peer.key := rfl
  rw [htable, lookup_cons, lookup_cons, hentry, if_pos rfl, if_neg hkey]
  exact ⟨rfl, rfl⟩

/-! ## Two hosts -/

/-- The client is `host 2`, the server `host 1`. -/
def twoHosts : Neighbours where
  env
    | .client => hostEnv 2
    | .server => hostEnv 1
  fd
    | .client => 4
    | .server => 5

/-- Each host has stored its link at time 0. -/
def twoHostsPair : Pair where
  st x :=
    { heap := [peerNode (twoHosts.env x) (twoHosts.info x.other) 0]
      memList := { head := some 0, size := 1 }
      socketfds := [{ macaddr := (twoHosts.info x.other).macaddr, sockFd := twoHosts.fd x }]
      trace := [] }
  handled _ := 0
  heard _ := 0

theorem twoHosts_keys (x : Side) :
    (twoHosts.info x.other).macaddr.key ≠ (twoHosts.info x).macaddr.key := by
  cases x <;> decide

theorem twoHosts_established : twoHosts.Established twoHostsPair where
  list _ := ⟨0, rfl, rfl, rfl⟩
  size _ := rfl
  peer x := (find_only_entry (twoHosts_keys x) rfl).1
  own x := (find_only_entry (twoHosts_keys x) rfl).2
  quiet _ := rfl

/-- Both flood, the server handles one packet of two, and both sweep in time. -/
theorem two_hosts_stable : ∃ tr p, Run twoHostsPair twoHosts.Performs tr p ∧ tr.length = 6 ∧
    p.heard .server = 9000 ∧
    ∀ x, Neighbours.Unchanged twoHostsPair p x (Neighbours.lastHeard x 0 tr) := by
  obtain ⟨⟨tr, p⟩, hreplay, hlen, hheard⟩ : ∃ r ∈ replay
      (fun p op => if Neighbours.Allowed p op then twoHosts.perform 2 p op else none)
      [.send .client, .send .client, .deliver .server 9000, .send .server, .sweep .server 24000 15,
        .sweep .client 15000 15] [] twoHostsPair, r.1.length = 6 ∧ r.2.heard .server = 9000 := by
    decide +kernel
  have hr : Run twoHostsPair twoHosts.Performs tr p := by
    refine Run.replay ?_ _ .start hreplay
    intro p op p' h
    split at h
    · rename_i hallowed; exact ⟨hallowed, 2, h⟩
    · cases h
  exact ⟨tr, p, hr, hlen, hheard, (Neighbours.neighbours_stable twoHosts_established hr).1⟩

end Cs352Proxy
