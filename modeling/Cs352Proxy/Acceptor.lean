import Cs352Proxy.Base.Runs
import Mathlib.Data.List.Basic

/-!
# Acceptor

The loop of `acceptconn`. Every accepted connection gets a thread that runs `TCPHandle`; the thread is
given the address of `connfd`, the one variable of the loop, and reads it when it gets to run. By then
another `accept` may have returned.

* `Acceptor`, `AcceptorOp`: the variable, the threads, and the two things that happen to them.
* `Prompt`: no thread is still to read the variable when it is written.
* `acceptor_serves_iff`: then, and only then, every connection has a thread of its own.
-/

namespace Cs352Proxy

open Base

structure Acceptor where
  connfd : Int
  /-- How many threads were created and have not read `connfd`. -/
  created : Nat
  /-- The `tcp_fd` of the others, latest first. -/
  tcpFds : List Int
deriving DecidableEq

inductive AcceptorOp where
  /-- `connfd = accept(..)`, and `pthread_create` unless the call failed. -/
  | accept (connfd : Int)
  /-- A thread executes `int tcp_fd = *(int*)fd`. -/
  | start
deriving DecidableEq

namespace Acceptor

def perform (s : Acceptor) : AcceptorOp → Option Acceptor
  | .accept connfd =>
    some { s with connfd, created := if connfd < 0 then s.created else s.created + 1 }
  | .start =>
    if s.created = 0 then none
    else some { s with created := s.created - 1, tcpFds := s.connfd :: s.tcpFds }

def Performs (s : Acceptor) (op : AcceptorOp) (s' : Acceptor) : Prop := s.perform op = some s'

/-- `connfd` is not set before the first call. -/
def init (connfd : Int) : Acceptor := { connfd, created := 0, tcpFds := [] }

/-- The accepted connections, latest first. -/
def connections : List (Step Acceptor AcceptorOp) → List Int
  | [] => []
  | x :: tr =>
    match x.input with
    | .accept connfd => if connfd < 0 then connections tr else connfd :: connections tr
    | .start => connections tr

/-- Every thread that was created before a call returns has read its socket. -/
def Prompt (x : Step Acceptor AcceptorOp) : Prop :=
  match x.input with
  | .accept _ => x.pre.created = 0
  | .start => True

instance (x : Step Acceptor AcceptorOp) : Decidable (Prompt x) := by
  unfold Prompt
  split
  · exact inferInstanceAs (Decidable (_ = _))
  · exact inferInstanceAs (Decidable True)

/-- All connections are served, the last one perhaps soon. -/
def Serves (tr : List (Step Acceptor AcceptorOp)) (s : Acceptor) : Prop :=
  (s.created = 0 ∧ s.tcpFds = connections tr) ∨
    (s.created = 1 ∧ s.connfd :: s.tcpFds = connections tr)

/-- A connection is served by no thread, and will not be. -/
def Loses (tr : List (Step Acceptor AcceptorOp)) (s : Acceptor) : Prop :=
  ∃ c ∈ connections tr, c ∉ s.tcpFds ∧ s.connfd ≠ c

variable {s s' : Acceptor} {tr : List (Step Acceptor AcceptorOp)}

theorem connections_nonneg (tr : List (Step Acceptor AcceptorOp)) : ∀ c ∈ connections tr, 0 ≤ c := by
  induction tr with
  | nil => simp [connections]
  | cons x tr ih =>
    intro c hc
    simp only [connections] at hc
    split at hc
    · split at hc
      · exact ih c hc
      · rename_i connfd hpos
        rcases List.mem_cons.mp hc with rfl | hc
        · exact Int.not_lt.mp hpos
        · exact ih c hc
    · exact ih c hc

theorem connections_accept (s s' : Acceptor) (connfd : Int) (tr : List (Step Acceptor AcceptorOp)) :
    connections (⟨s, .accept connfd, s'⟩ :: tr) =
      if connfd < 0 then connections tr else connfd :: connections tr := rfl

theorem accept_ne {connfd : Int} (hnd : (connections (⟨s, .accept connfd, s'⟩ :: tr)).Nodup) :
    ∀ c ∈ connections tr, connfd ≠ c := by
  rintro c hc rfl
  have hpos := connections_nonneg tr connfd hc
  rw [connections_accept, if_neg (Int.not_lt.mpr hpos)] at hnd
  exact (List.nodup_cons.mp hnd).1 hc

theorem mem_connections_cons {x : Step Acceptor AcceptorOp} {c : Int} (hc : c ∈ connections tr) :
    c ∈ connections (x :: tr) := by
  simp only [connections]
  split
  · split
    · exact hc
    · exact List.mem_cons_of_mem _ hc
  · exact hc

theorem nodup_of_cons {x : Step Acceptor AcceptorOp} (hnd : (connections (x :: tr)).Nodup) :
    (connections tr).Nodup := by
  simp only [connections] at hnd
  split at hnd
  · split at hnd
    · exact hnd
    · exact (List.nodup_cons.mp hnd).2
  · exact hnd

theorem start_some (h : s.perform .start = some s') :
    s.created ≠ 0 ∧ s' = { s with created := s.created - 1, tcpFds := s.connfd :: s.tcpFds } := by
  simp only [perform] at h
  split at h
  · cases h
  · rename_i hcreated
    exact ⟨hcreated, (Option.some.inj h).symm⟩

theorem Loses.step {op : AcceptorOp} (hl : Loses tr s) (h : s.perform op = some s')
    (hnd : (connections (⟨s, op, s'⟩ :: tr)).Nodup) : Loses (⟨s, op, s'⟩ :: tr) s' := by
  obtain ⟨c, hc, hserved, hconnfd⟩ := hl
  refine ⟨c, mem_connections_cons hc, ?_⟩
  cases op with
  | accept connfd =>
    have hne := accept_ne hnd c hc
    cases h
    exact ⟨hserved, hne⟩
  | start =>
    obtain ⟨_, rfl⟩ := start_some h
    exact ⟨by simp [hserved, Ne.symm hconnfd], hconnfd⟩

theorem Serves.step {op : AcceptorOp} (hv : Serves tr s) (h : s.perform op = some s')
    (hp : Prompt ⟨s, op, s'⟩) : Serves (⟨s, op, s'⟩ :: tr) s' := by
  cases op with
  | accept connfd =>
    have hcreated : s.created = 0 := hp
    rcases hv with ⟨_, hserved⟩ | ⟨hone, _⟩
    · cases h
      simp only [Serves, connections_accept]
      split
      · exact .inl ⟨hcreated, hserved⟩
      · exact .inr ⟨by rw [hcreated], by rw [hserved]⟩
    · omega
  | start =>
    obtain ⟨hcreated, rfl⟩ := start_some h
    rcases hv with ⟨hzero, _⟩ | ⟨hone, hserved⟩
    · exact absurd hzero hcreated
    · exact .inl ⟨by simp [hone], hserved⟩

/-- A step that is not prompt overwrites the socket of a thread. -/
theorem Serves.loses {op : AcceptorOp} (hv : Serves tr s) (h : s.perform op = some s')
    (hp : ¬ Prompt ⟨s, op, s'⟩) (hnd : (connections (⟨s, op, s'⟩ :: tr)).Nodup) :
    Loses (⟨s, op, s'⟩ :: tr) s' := by
  cases op with
  | start => exact absurd trivial hp
  | accept connfd =>
    have hcreated : s.created ≠ 0 := hp
    rcases hv with ⟨hzero, _⟩ | ⟨_, hserved⟩
    · exact absurd hzero hcreated
    · have hmem : s.connfd ∈ connections tr := by rw [← hserved]; exact List.mem_cons_self
      have hfresh := nodup_of_cons hnd
      rw [← hserved] at hfresh
      have hne := accept_ne hnd s.connfd hmem
      cases h
      exact ⟨s.connfd, mem_connections_cons hmem, (List.nodup_cons.mp hfresh).1, hne⟩

theorem serves_or_loses {connfd : Int} (hr : Run (init connfd) Performs tr s)
    (hnd : (connections tr).Nodup) :
    ((∀ x ∈ tr, Prompt x) ∧ Serves tr s) ∨ ((¬ ∀ x ∈ tr, Prompt x) ∧ Loses tr s) := by
  induction hr with
  | start => exact .inl ⟨by simp, .inl ⟨rfl, rfl⟩⟩
  | @snoc tr s s' op _ hstep ih =>
    rw [List.forall_mem_cons]
    rcases ih (nodup_of_cons hnd) with ⟨hall, hv⟩ | ⟨hnot, hl⟩
    · by_cases hp : Prompt ⟨s, op, s'⟩
      · exact .inl ⟨⟨hp, hall⟩, hv.step hstep hp⟩
      · exact .inr ⟨fun h => hp h.1, hv.loses hstep hp hnd⟩
    · exact .inr ⟨fun h => hnot h.2, hl.step hstep hnd⟩

/-- When all threads run, each accepted connection has one thread exactly if no `accept` returned,
with a connection or without, while a thread was still to read its socket. -/
theorem acceptor_serves_iff {connfd : Int} (hr : Run (init connfd) Performs tr s)
    (hnd : (connections tr).Nodup) (hdone : s.created = 0) :
    s.tcpFds.Perm (connections tr) ↔ ∀ x ∈ tr, Prompt x := by
  rcases serves_or_loses hr hnd with ⟨hall, hv⟩ | ⟨hnot, c, hc, hserved, _⟩
  · refine ⟨fun _ => hall, fun _ => ?_⟩
    rcases hv with ⟨_, hserved⟩ | ⟨hone, _⟩
    · rw [hserved]
    · omega
  · refine ⟨fun hperm => absurd (hperm.mem_iff.mpr hc) hserved, fun hall => absurd hall hnot⟩

/-- Two clients connect before the first thread runs: both threads read from the second one. -/
theorem first_client_lost : ∃ tr s, Run (init 0) Performs tr s ∧ connections tr = [5, 4] ∧
    s.tcpFds = [5, 5] ∧ ¬ s.tcpFds.Perm (connections tr) := by
  obtain ⟨⟨tr, s⟩, hreplay, hconnections, hserved, hdone, hlate⟩ :
      ∃ r ∈ replay perform [.accept 4, .accept 5, .start, .start] [] (init 0),
        connections r.1 = [5, 4] ∧ r.2.tcpFds = [5, 5] ∧ r.2.created = 0 ∧
          ¬ ∀ x ∈ r.1, Prompt x := by decide +kernel
  have hr : Run (init 0) Performs tr s := Run.replay (fun _ _ _ h => h) _ .start hreplay
  refine ⟨tr, s, hr, hconnections, hserved, fun hperm => hlate ?_⟩
  exact (acceptor_serves_iff hr (by rw [hconnections]; decide) hdone).mp hperm

end Acceptor

end Cs352Proxy
