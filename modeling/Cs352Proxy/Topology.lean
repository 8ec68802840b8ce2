import Cs352Proxy.State

/-!
# Topology

What a proxy knows, without pointers: the stored links newest first, the size counter and the
forwarding entries. The operations say what handling one packet or one sweep does to this
knowledge when it comes to an end.

* `learn`: one received link. It is stored (`stores`, `store`) or at most the stored link in the
  opposite direction is refreshed (`keep`).
* `merge`: a received list. The walk stays on the received list until a link is stored; it then
  follows the stored node's new pointer onto the list that was stored before (`rewalk`). Storing
  one of those again would make the list circular and the walk endless, so `rewalk` then fails.
* `expire`: one sweep. Each expired link removes the first stored link to its remote MAC address.
-/

namespace Cs352Proxy

open Base

structure Topology where
  links : List Link
  size : Int
  routes : List ProxySocketfd
deriving DecidableEq

namespace Topology

def start : Topology := { links := [], size := 0, routes := [] }

/-- The forwarding entry a MAC address leads to. -/
def route (mac : Mac) (t : Topology) : Option ProxySocketfd :=
  lookup ProxySocketfd.key t.routes mac.key

/-- `l` joins the endpoints of `r` the other way round. -/
def reverses (r l : Link) : Bool :=
  l.localInfo.ip = r.remoteInfo.ip ∧ l.remoteInfo.ip = r.localInfo.ip

/-- The least weight of a stored link to `mac`, or the largest `uint32_t`. -/
def leastWeight (mac : Mac) : List Link → Nat
  | [] => 2 ^ 32 - 1
  | l :: ls =>
    if l.remoteInfo.macaddr = mac then min l.linkweight.toNat (leastWeight mac ls)
    else leastWeight mac ls

def stores (env : Env) (r : Link) (t : Topology) : Bool :=
  match t.route r.remoteInfo.macaddr with
  | none => r.remoteInfo.macaddr ≠ Mac.zero ∧ r.remoteInfo.macaddr ≠ env.myProxyInfo.macaddr
  | some _ => !t.links.any (reverses r)

/-- The weight a known remote address is stored with. -/
def knownWeight (r : Link) (ls : List Link) : U32 :=
  r.linkweight + BitVec.ofNat 32 (leastWeight r.localInfo.macaddr ls)

def store (now : U64) (gateway : Int) (r : Link) (t : Topology) : Topology :=
  match t.route r.remoteInfo.macaddr with
  | none =>
    { links := { r with linkweight := r.linkweight + 1, ID := now } :: t.links
      size := t.size + 1
      routes := { macaddr := r.remoteInfo.macaddr, sockFd := gateway } :: t.routes }
  | some _ =>
    { links := { r with linkweight := knownWeight r t.links, ID := now } :: t.links
      size := t.size + 1
      routes :=
        if (knownWeight r t.links).toNat < leastWeight r.remoteInfo.macaddr t.links then
          assign ProxySocketfd.key (fun s => { s with sockFd := gateway }) t.routes
            r.remoteInfo.macaddr.key
        else t.routes }

def refresh (now : U64) (r : Link) : List Link → List Link
  | [] => []
  | l :: ls => if reverses r l then { l with ID := now } :: ls else l :: refresh now r ls

def keep (now : U64) (r : Link) (t : Topology) : Topology :=
  match t.route r.remoteInfo.macaddr with
  | none => { t with links := refresh now r t.links }
  | some _ => t

def learn (env : Env) (now : U64) (gateway : Int) (r : Link) (t : Topology) : Topology :=
  if t.stores env r then t.store now gateway r else t.keep now r

def rewalk (env : Env) (now : U64) : List Link → Topology → Option Topology
  | [], t => some t
  | l :: ls, t => if t.stores env l then none else rewalk env now ls (t.keep now l)

def merge (env : Env) (now : U64) (gateway : Int) : List Link → Topology → Option Topology
  | [], t => some t
  | r :: rs, t =>
    if t.stores env r then rewalk env now t.links (t.store now gateway r)
    else merge env now gateway rs (t.keep now r)

/-- A new link from this proxy to `remote`. -/
def client (env : Env) (remote : ProxyInfo) (now : U64) : Link :=
  { localInfo := env.myProxyInfo, remoteInfo := remote, linkweight := 1, ID := now }

/-- A link-state packet from `source` on socket `fd` carrying the links `first :: rest`. -/
def receive (env : Env) (now : U64) (fd : Int) (numNeighbors : U16) (source : ProxyInfo)
    (first : Link) (rest : List Link) (t : Topology) : Option Topology :=
  let entry : ProxySocketfd := { macaddr := source.macaddr, sockFd := fd }
  match t.route source.macaddr with
  | some _ => merge env now fd (first :: rest) t
  | none =>
    if first.remoteInfo.macaddr = Mac.zero then
      merge env now fd (first :: rest)
        { links := client env source now :: t.links, size := t.size + 1, routes := entry :: t.routes }
    else if numNeighbors = 1 then
      -- the reply cuts the list behind the new link
      some { links := [client env { source with macaddr := first.localInfo.macaddr } now]
             size := t.size + 1
             routes := entry :: t.routes }
    else some t

def dropFirst (mac : Mac) (ls : List Link) : List Link :=
  ls.eraseP fun l => l.remoteInfo.macaddr = mac

def Expired (time timeout : Int) (l : Link) : Prop := time - (l.ID.toNat : Int) > timeout

instance (time timeout : Int) (l : Link) : Decidable (Expired time timeout l) :=
  inferInstanceAs (Decidable (_ > _))

def expireStep (time timeout : Int) (t : Topology) (l : Link) : Topology :=
  if Expired time timeout l then
    { links := dropFirst l.remoteInfo.macaddr t.links
      size := t.size - 1
      routes := remove ProxySocketfd.key t.routes l.remoteInfo.macaddr.key }
  else t

def expire (time timeout : Int) (t : Topology) : Topology :=
  t.links.foldl (expireStep time timeout) t

end Topology

end Cs352Proxy
