import Cs352Proxy.Receive
import Cs352Proxy.Sweep
import Cs352Proxy.Base.Runs

/-!
# System

One proxy as a transition system: it handles link-state packets and sweeps its list, one
operation at a time. An operation that never returns (`add_members` on a circular list) has no
step.

* `perform`: an operation with a bound on the loops it runs; `Performs`: it completes.
* `Topology.perform`: the same operations on what the proxy knows.
* `performs_refines`: a completed operation does the latter.
-/

namespace Cs352Proxy

open Base

inductive Op where
  | packet (tcpFd : Int) (now : U64) (m : Received)
  | sweep (now : U64) (linkTimeout : Int)
deriving DecidableEq

def perform (env : Env) (fuel : Nat) (st : Proxy) : Op → Option Proxy
  | .packet tcpFd now m => handlePacket env fuel now tcpFd m st
  | .sweep now linkTimeout => removeExpiredMembers fuel now linkTimeout st

/-- `st'` is the state after `op` completes in `st`. -/
def Performs (env : Env) (st : Proxy) (op : Op) (st' : Proxy) : Prop :=
  ∃ fuel, perform env fuel st op = some st'

def Topology.perform (env : Env) (t : Topology) : Op → Option Topology
  | .packet tcpFd now m => t.receive env now tcpFd m.numNeighbors m.source m.first m.rest
  | .sweep now linkTimeout => some (t.expire now.toNat (linkTimeout * 1000))

theorem performs_refines {env : Env} {st st' : Proxy} {op : Op} {t : Topology} {cells : Cells}
    (hs : Shows st t cells) (h : Performs env st op st') :
    ∃ t' cells', t.perform env op = some t' ∧ Shows st' t' cells' := by
  obtain ⟨fuel, h⟩ := h
  cases op with
  | packet tcpFd now m => exact handlePacket_refines hs h
  | sweep now linkTimeout =>
    obtain ⟨cells', hs', _⟩ := removeExpiredMembers_refines hs h
    exact ⟨_, cells', rfl, hs'⟩

/-- The runs of one proxy from start-up. -/
abbrev ProxyRun (env : Env) := Run Proxy.start (Performs env)

theorem shows_start : Shows Proxy.start Topology.start [] := ⟨rfl, rfl, rfl, rfl⟩

/-- In every state of a run the membership list is null-terminated. -/
theorem ProxyRun.shows {env : Env} {tr : List (Step Proxy Op)} {st : Proxy}
    (hr : ProxyRun env tr st) :
    (∃ t cells, Shows st t cells) ∧ ∀ x ∈ tr, ∃ t cells, Shows x.pre t cells := by
  refine Run.invariant (P := fun st => ∃ t cells, Shows st t cells) ⟨_, _, shows_start⟩ ?_ hr
  intro s i s' hs hstep
  obtain ⟨t, cells, hs⟩ := hs
  obtain ⟨t', cells', _, hs'⟩ := performs_refines hs hstep
  exact ⟨t', cells', hs'⟩

/-! ## Reading the list -/

/-- The membership list, computed. -/
def Proxy.members (st : Proxy) : Option Cells :=
  walk LinkstateNode.next st.heap st.heap.length st.memList.head

theorem members_eq_some {st : Proxy} {cells : Cells} :
    st.members = some cells ↔ NodeList st.heap st.memList.head cells := walk_eq_some

/-! ## Runs that are computed -/

/-- Every loop of the operation gets `fuel` rounds. -/
theorem exists_proxyRun (env : Env) (fuel : Nat) (ops : List Op)
    {p : List (Step Proxy Op) × Proxy → Prop}
    (h : ∃ r ∈ replay (perform env fuel) ops [] Proxy.start, p r) :
    ∃ tr st, ProxyRun env tr st ∧ p (tr, st) := by
  obtain ⟨⟨tr, st⟩, hr, hp⟩ := h
  exact ⟨tr, st, Run.replay (fun _ _ _ hs => ⟨fuel, hs⟩) ops .start hr, hp⟩

/-- A packet about one link. -/
def onePacket (source : ProxyInfo) (l : Link) : Received :=
  { head := { type := pktLinkstate, length := 50 }, numNeighbors := 1, source, first := l, rest := [] }

end Cs352Proxy
