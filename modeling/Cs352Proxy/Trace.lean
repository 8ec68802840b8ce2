import Cs352Proxy.Receive
import Cs352Proxy.Sweep

/-!
# Trace

What the operations do to the outside world. `Emits P st st'` says that the events from `st` to
`st'` all satisfy `P`. Handling a link-state packet never writes to the tap device
(`handleLinkstate_emits`), and merging a list sends nothing (`addMembers_emits`), nor does a sweep
(`removeExpiredMembers_emits`). `sends` is the part of the trace that other proxies see.
-/

namespace Cs352Proxy

open Base

def Emits (P : Event → Prop) (st st' : Proxy) : Prop :=
  ∃ evs, st'.trace = evs ++ st.trace ∧ ∀ ev ∈ evs, P ev

/-- Not seen outside the process. -/
def Event.Inner : Event → Prop
  | .tapWrite .. | .send .. => False
  | _ => True

def Event.NotTap : Event → Prop
  | .tapWrite .. => False
  | _ => True

theorem Event.Inner.notTap {ev : Event} (h : ev.Inner) : ev.NotTap := by
  cases ev <;> trivial

variable {P Q : Event → Prop} {st st₁ st' : Proxy}

namespace Emits

theorem of_trace_eq (h : st'.trace = st.trace) : Emits P st st' := ⟨[], by rw [h]; rfl, by simp⟩

theorem trans (h : Emits P st st₁) (h' : Emits P st₁ st') : Emits P st st' := by
  obtain ⟨evs, htrace, hall⟩ := h
  obtain ⟨evs', htrace', hall'⟩ := h'
  refine ⟨evs' ++ evs, by rw [htrace', htrace, List.append_assoc], ?_⟩
  intro ev hev
  rcases List.mem_append.mp hev with hev | hev
  · exact hall' ev hev
  · exact hall ev hev

theorem emit (st : Proxy) {ev : Event} (h : P ev) : Emits P st (st.emit ev) :=
  ⟨[ev], rfl, by simpa using h⟩

theorem filterMap_eq {β : Type} {f : Event → Option β} (h : Emits P st st')
    (hf : ∀ ev, P ev → f ev = none) : st'.trace.filterMap f = st.trace.filterMap f := by
  obtain ⟨evs, htrace, hall⟩ := h
  have hnil : evs.filterMap f = [] :=
    List.filterMap_eq_nil_iff.mpr fun ev hev => hf ev (hall ev hev)
  rw [htrace, List.filterMap_append, hnil, List.nil_append]

theorem mono (h : Emits P st st') (hpq : ∀ ev, P ev → Q ev) : Emits Q st st' := by
  obtain ⟨evs, htrace, hall⟩ := h
  exact ⟨evs, htrace, fun ev hev => hpq ev (hall ev hev)⟩

end Emits

theorem pushClient_emits (env : Env) (remote : ProxyInfo) (now : U64) (st : Proxy) :
    Emits Event.Inner st (st.pushClient env remote now) :=
  ⟨[.unlock, .writeSize (st.memList.size + 1), .writeHead (some st.heap.length),
    .writeNext st.heap.length st.memList.head, .lock], rfl, by simp [Event.Inner]⟩

/-- One call takes the lock, stores its node or does not, and releases the lock. -/
theorem addMemberConnect_trace {env : Env} {fuel : Nat} {now : U64} {gw : Int} {a : Addr}
    (h : addMemberConnect env fuel now gw a st = some st') :
    st'.trace = .unlock :: .lock :: st.trace ∨
      ∃ n p, st'.trace =
        .unlock :: .writeSize n :: .writeHead (some a) :: .writeNext a p :: .lock :: st.trace := by
  simp only [addMemberConnect, Option.bind_eq_bind, Option.bind_eq_some_iff] at h
  obtain ⟨recv, _, h⟩ := h
  split at h
  · split at h
    · obtain ⟨finder, _, h⟩ := Option.bind_eq_some_iff.mp h
      cases finder <;> cases h <;> exact .inl rfl
    · cases h
      exact .inr ⟨_, _, rfl⟩
  · obtain ⟨finder, _, h⟩ := Option.bind_eq_some_iff.mp h
    cases finder with
    | some f => cases h; exact .inl rfl
    | none =>
      simp only [Option.bind_eq_some_iff] at h
      obtain ⟨dist, _, save, _, h⟩ := h
      split at h <;> cases h <;> exact .inr ⟨_, _, rfl⟩

theorem addMemberConnect_emits {env : Env} {fuel : Nat} {now : U64} {gw : Int} {a : Addr}
    (h : addMemberConnect env fuel now gw a st = some st') : Emits Event.Inner st st' := by
  rcases addMemberConnect_trace h with htrace | ⟨n, p, htrace⟩
  · exact ⟨[.unlock, .lock], htrace, by simp [Event.Inner]⟩
  · exact ⟨[.unlock, .writeSize n, .writeHead (some a), .writeNext a p, .lock], htrace, by
      simp [Event.Inner]⟩

theorem addMembersLoop_emits {env : Env} {fuel : Nat} {now : U64} {gw : Int} (n : Nat) {p : Ptr}
    (h : addMembersLoop env fuel now gw n p st = some st') : Emits Event.Inner st st' :=
  addMembersLoop_induction (P := Emits Event.Inner) (fun _ => .of_trace_eq rfl)
    (fun hcall hrest => (addMemberConnect_emits hcall).trans hrest) n h

theorem addMembers_emits {env : Env} {fuel : Nat} {now : U64} {gw : Int} {p : Ptr}
    (h : addMembers env fuel now p gw st = some st') : Emits Event.Inner st st' :=
  addMembersLoop_emits fuel h

theorem gotPacketBack_emits {env : Env} {fuel : Nat} {now : U64} {fd : Int} {pkt : LinkstatePkt}
    (h : gotPacketBack env fuel now fd pkt st = some st') : Emits Event.Inner st st' := by
  have hadd : Emits Event.Inner st (st.addsockfd pkt.source.macaddr fd) := .of_trace_eq rfl
  exact (hadd.trans (pushClient_emits env pkt.source now _)).trans (addMembers_emits h)

theorem gotOriginalPacket_emits {env : Env} {fuel : Nat} {now : U64} {fd : Int} {pkt : LinkstatePkt}
    {first : Addr} (h : gotOriginalPacket env fuel now fd pkt first st = some st') :
    Emits Event.NotTap st st' := by
  obtain ⟨st₁, node, buf, hst₁, _, rfl⟩ := gotOriginalPacket_some h
  have hadd : Emits Event.NotTap st st₁ := .of_trace_eq (by rw [hst₁]; rfl)
  have hpush := (pushClient_emits env { pkt.source with macaddr := node.localInfo.macaddr } now
    st₁).mono fun _ h => h.notTap
  have hcut : ∀ st : Proxy, Emits Event.NotTap st (st.setNext st₁.heap.length none) :=
    fun st => ⟨[.writeNext st₁.heap.length none], rfl, by simp [Event.NotTap]⟩
  exact ((hadd.trans hpush).trans (hcut _)).trans (.emit _ trivial)

theorem handleLinkstate_emits {env : Env} {fuel : Nat} {now : U64} {fd : Int} {pkt : LinkstatePkt}
    (h : handleLinkstate env fuel now fd pkt st = some st') : Emits Event.NotTap st st' := by
  obtain ⟨first, node, _, _, hcases⟩ := handleLinkstate_cases h
  rcases hcases with ⟨_, _, hwalk⟩ | ⟨_, _, hback⟩ | ⟨_, _, _, horig⟩ | ⟨_, _, _, hst⟩
  · exact (addMembers_emits hwalk).mono fun _ h => h.notTap
  · exact (gotPacketBack_emits hback).mono fun _ h => h.notTap
  · exact gotOriginalPacket_emits horig
  · exact .of_trace_eq (by rw [hst])

/-! ## Sweeps -/

theorem deleteNode_emits (prev : Ptr) (x : LinkstateNode) (st : Proxy) :
    Emits Event.Inner st (st.deleteNode prev x) := by
  have hdelete : Emits Event.Inner st (st.deletesockfd x.remoteInfo.macaddr) := by
    unfold Proxy.deletesockfd
    split
    · exact .emit st trivial
    · exact .of_trace_eq rfl
  refine hdelete.trans ?_
  cases prev with
  | none => exact ⟨[.writeSize _, .writeHead x.next], rfl, by simp [Event.Inner]⟩
  | some p => exact ⟨[.writeSize _, .writeNext p x.next], rfl, by simp [Event.Inner]⟩

theorem deleteMembers_emits {fuel : Nat} {a : Addr} (h : deleteMembers fuel a st = some st') :
    Emits Event.Inner st st' := by
  rcases deleteMembers_cases h with rfl | ⟨prev, _, x, _, rfl, _⟩
  · exact .of_trace_eq rfl
  · exact deleteNode_emits prev x st

theorem removeExpiredLoop_emits {fuel : Nat} {time timeout : Int} (n : Nat) :
    ∀ {p : Ptr} {st st' : Proxy}, removeExpiredLoop fuel time timeout n p st = some st' →
      Emits Event.Inner st st' := by
  induction n with
  | zero => intro p st st' h; cases h
  | succ n ih =>
    intro p st st' h
    cases p with
    | none => cases h; exact .of_trace_eq rfl
    | some a =>
      obtain ⟨_, _, _, hround⟩ := removeExpiredLoop_some h
      rcases hround with ⟨_, st₁, hdelete, h⟩ | ⟨_, h⟩
      · exact (deleteMembers_emits hdelete).trans (ih h)
      · exact ih h

theorem removeExpiredMembers_emits {fuel : Nat} {now : U64} {linkTimeout : Int}
    (h : removeExpiredMembers fuel now linkTimeout st = some st') : Emits Event.Inner st st' := by
  obtain ⟨_, _, st₁, hloop, rfl⟩ := removeExpiredMembers_some h
  have hlock : Emits Event.Inner st (st.emit .lock) := .emit st trivial
  exact (hlock.trans (removeExpiredLoop_emits fuel hloop)).trans (.emit st₁ trivial)

/-! ## Sends -/

/-- What the process sent, latest first. -/
def sends (st : Proxy) : List (Int × Buf) :=
  st.trace.filterMap fun
    | .send fd data => some (fd, data)
    | _ => none

theorem Emits.sends_eq (h : Emits Event.Inner st st') : sends st' = sends st := by
  refine h.filterMap_eq fun ev hev => ?_
  cases ev with
  | send fd data => exact hev.elim
  | _ => rfl

end Cs352Proxy
