import Cs352Proxy.Flood
import Cs352Proxy.Trace

/-!
# Stale

Do the bytes a proxy floods depend on what its stack held before? `sendPackets` does not clear
`buf`, and `send` gets the length that `create_link_packet` computed with 40 bytes a link, while
`htonLinkstate` writes 36. What lies between the two goes out as it was.
-/

namespace Cs352Proxy

open Base

/-- The same process with other bytes on its stack. -/
def Env.withStack (stack : Nat → U8) (env : Env) : Env :=
  { env with uninit := { env.uninit with stack := stack } }

/-- Two rounds of `sendPackets` on one state send the same, whatever the stack held. -/
def StackIndependent (env : Env) (st : Proxy) : Prop :=
  ∀ stack₁ stack₂ fuel₁ fuel₂ st₁ st₂, sendPackets (env.withStack stack₁) fuel₁ st = some st₁ →
    sendPackets (env.withStack stack₂) fuel₂ st = some st₂ → sends st₁ = sends st₂

theorem createLinkPacket_list {env : Env} {st : Proxy} {lstate : LinkstatePkt}
    (h : createLinkPacket env st = some lstate) : lstate.list = st.memList.head := by
  unfold createLinkPacket at h
  split at h
  · cases h
  · rename_i head hhead
    cases h
    exact hhead.symm

theorem sends_sent (l : List ProxySocketfd) (bytes : Buf) (st : Proxy) :
    sends { st with trace := (l.map fun s => .send s.sockFd bytes).reverse ++ st.trace } =
      (l.map fun s => (s.sockFd, bytes)).reverse ++ sends st := by
  simp [sends, List.filterMap_append, ← List.map_reverse, List.filterMap_map]

section Round

variable {env : Env} {st st' : Proxy} {cells : Cells} {lstate : LinkstatePkt} {fuel : Nat}

theorem sendPackets_sends (hcreate : createLinkPacket env st = some lstate)
    (hne : st.socketfds ≠ []) (h : sendPackets env fuel st = some st') :
    ∃ bytes, sendBytes env fuel lstate (env.stackBuf maxPktLen) st = some bytes ∧
      sends st' = (st.socketfds.reverse.map fun s => (s.sockFd, bytes)).reverse ++ sends st := by
  simp only [sendPackets, hcreate] at h
  obtain ⟨bytes, hbytes, heq⟩ := sendLoop_some (by simpa using hne) h
  exact ⟨bytes, hbytes, by rw [heq, sends_sent]⟩

theorem sendBytes_covered (hlist : NodeList st.heap lstate.list cells)
    (hcover : 4 + lstate.head.length.toNat ≤ 18 + 36 * cells.length) {buf bytes : Buf}
    (h : sendBytes env fuel lstate buf st = some bytes) :
    bytes = (wireBytes lstate.head lstate.numNeighbors lstate.source cells.links).take
      (4 + lstate.head.length.toNat) := by
  obtain ⟨_, _, hslice⟩ := sendBytes_some hlist h
  have hwire := length_wireBytes lstate.head lstate.numNeighbors lstate.source cells.links
  rw [Cells.length_links] at hwire
  simp only [slice] at hslice
  split at hslice
  · rw [List.drop_zero, Nat.add_comm, List.take_append_of_le_length (by omega)] at hslice
    exact (Option.some.inj hslice).symm
  · cases hslice

/-- What is sent from a stack full of `b`, when the length goes beyond what the encoder wrote. -/
def sentOver (lstate : LinkstatePkt) (links : List Link) (b : U8) : Buf :=
  wireBytes lstate.head lstate.numNeighbors lstate.source links ++
    List.replicate (4 + lstate.head.length.toNat - (18 + 36 * links.length)) b

theorem sendPackets_over (hlist : NodeList st.heap lstate.list cells)
    (hcreate : createLinkPacket env st = some lstate)
    (hlen : 4 + lstate.head.length.toNat ≤ maxPktLen)
    (hover : 18 + 36 * cells.length < 4 + lstate.head.length.toNat) (b : U8) :
    ∃ st', sendPackets (env.withStack fun _ => b) (cells.length + 1) st = some st' ∧
      sends st' = (st.socketfds.reverse.map fun s =>
        (s.sockFd, sentOver lstate cells.links b)).reverse ++ sends st := by
  have hstack : (env.withStack fun _ => b).stackBuf maxPktLen = List.replicate maxPktLen b := by
    simp [Env.stackBuf, Env.withStack]
  have hbytes : sendBytes (env.withStack fun _ => b) (cells.length + 1) lstate
      (List.replicate maxPktLen b) st = some (sentOver lstate cells.links b) := by
    have hrest : min (lstate.head.length.toNat - (14 + 36 * cells.length))
        (maxPktLen - (18 + 36 * cells.length)) =
        4 + lstate.head.length.toNat - (18 + 36 * cells.length) := by omega
    rw [sendBytes_eq hlist (Nat.lt_succ_self _) (by omega) (by rw [List.length_replicate]; omega),
      List.drop_replicate, List.take_replicate, hrest, sentOver, Cells.length_links]
  rw [← hstack] at hbytes
  have hcreate' : createLinkPacket (env.withStack fun _ => b) st = some lstate := hcreate
  exact ⟨_, by simp only [sendPackets, hcreate', sendLoop_eq _ hbytes], sends_sent _ _ _⟩

end Round

/-- The bytes sent do not depend on the stack exactly if there is nobody to send to, or the length
sent does not exceed what the encoder wrote, or that does not fit the buffer at all. -/
theorem stackIndependent_iff {env : Env} {st : Proxy} {cells : Cells} {lstate : LinkstatePkt}
    (hlist : NodeList st.heap st.memList.head cells)
    (hcreate : createLinkPacket env st = some lstate)
    (hlen : 4 + lstate.head.length.toNat ≤ maxPktLen) :
    StackIndependent env st ↔ st.socketfds = [] ∨
      4 + lstate.head.length.toNat ≤ 18 + 36 * cells.length ∨ maxPktLen < 18 + 36 * cells.length := by
  rw [← createLinkPacket_list hcreate] at hlist
  constructor
  · intro hind
    by_contra hc
    rw [not_or, not_or, Nat.not_le] at hc
    obtain ⟨hne, hover, _⟩ := hc
    obtain ⟨st₀, hrun₀, hsends₀⟩ := sendPackets_over hlist hcreate hlen hover 0
    obtain ⟨st₁, hrun₁, hsends₁⟩ := sendPackets_over hlist hcreate hlen hover 1
    have hsame := hind _ _ _ _ _ _ hrun₀ hrun₁
    rw [hsends₀, hsends₁, List.append_cancel_right_eq, List.reverse_inj] at hsame
    obtain ⟨s, hs⟩ := List.exists_mem_of_ne_nil _ hne
    have hbytes := congrArg Prod.snd (List.map_inj_left.mp hsame s (List.mem_reverse.mpr hs))
    -- the first byte behind the packet comes from the stack
    have hreplicate := List.append_cancel_left hbytes
    rw [Cells.length_links, List.replicate_inj] at hreplicate
    rcases hreplicate.2 with hzero | hb
    · omega
    · cases hb
  · intro hc stack₁ stack₂ fuel₁ fuel₂ st₁ st₂ h₁ h₂
    have hcreate₁ : createLinkPacket (env.withStack stack₁) st = some lstate := hcreate
    have hcreate₂ : createLinkPacket (env.withStack stack₂) st = some lstate := hcreate
    by_cases hempty : st.socketfds = []
    · simp only [sendPackets, hcreate₁, hempty, List.reverse_nil, sendLoop, Option.some.injEq] at h₁
      simp only [sendPackets, hcreate₂, hempty, List.reverse_nil, sendLoop, Option.some.injEq] at h₂
      rw [← h₁, ← h₂]
    · obtain ⟨bytes₁, hbytes₁, hsends₁⟩ := sendPackets_sends hcreate₁ hempty h₁
      obtain ⟨bytes₂, hbytes₂, hsends₂⟩ := sendPackets_sends hcreate₂ hempty h₂
      have hfit := (sendBytes_some hlist hbytes₁).2.1
      rw [length_stackBuf] at hfit
      have hcover : 4 + lstate.head.length.toNat ≤ 18 + 36 * cells.length := by
        rcases hc with hnone | hcover | hbig
        · exact absurd hnone hempty
        · exact hcover
        · omega
      rw [hsends₁, hsends₂, sendBytes_covered hlist hcover hbytes₁,
        sendBytes_covered hlist hcover hbytes₂]

/-- One link and one entry: four bytes of the stack follow the packet. -/
theorem one_link_sends_stack : ∃ (env : Env) (st : Proxy) (cells : Cells) (lstate : LinkstatePkt),
    NodeList st.heap st.memList.head cells ∧ cells ≠ [] ∧ st.memList.size = cells.length ∧
    createLinkPacket env st = some lstate ∧ 4 + lstate.head.length.toNat ≤ maxPktLen ∧
    ¬ StackIndependent env st := by
  let st : Proxy := { storing (star 1) with
    socketfds := [{ macaddr := (host 2).macaddr, sockFd := 4 }] }
  have hlist : NodeList st.heap st.memList.head (cellsAt 0 (linkNodes 0 (star 1) none)) :=
    storing_list (by decide)
  refine ⟨hostEnv 1, st, _, _, hlist, by decide, by decide, rfl, by decide, fun h => ?_⟩
  have hrun : ∀ b : U8, b = 0 ∨ b = 1 →
      ∃ st', sendPackets ((hostEnv 1).withStack fun _ => b) 2 st = some st' := by
    intro b hb
    refine Option.isSome_iff_exists.mp ?_
    rcases hb with rfl | rfl <;> decide +kernel
  obtain ⟨st₀, hrun₀⟩ := hrun 0 (.inl rfl)
  obtain ⟨st₁, hrun₁⟩ := hrun 1 (.inr rfl)
  have hdiff : (sendPackets ((hostEnv 1).withStack fun _ => 0) 2 st).map sends ≠
      (sendPackets ((hostEnv 1).withStack fun _ => 1) 2 st).map sends := by decide +kernel
  rw [hrun₀, hrun₁, Option.map_some, Option.map_some] at hdiff
  exact hdiff (congrArg some (h _ _ _ _ _ _ hrun₀ hrun₁))

/-- Two links of which one is counted: the 58 bytes sent are all written. -/
theorem low_count_is_independent : ∃ (st st' : Proxy) (bytes : Buf),
    sendPackets (hostEnv 1) 3 st = some st' ∧ sends st' = [(4, bytes)] ∧ bytes.length = 58 ∧
    StackIndependent (hostEnv 1) st := by
  let st : Proxy := { storing (star 2) with
    memList := { head := some 0, size := 1 }
    socketfds := [{ macaddr := (host 2).macaddr, sockFd := 4 }] }
  have hlist : NodeList st.heap st.memList.head (cellsAt 0 (linkNodes 0 (star 2) none)) :=
    storing_list (by decide)
  have hsent : ∃ st' ∈ sendPackets (hostEnv 1) 3 st, ∃ bytes ∈ (sends st').head?.map Prod.snd,
      sends st' = [(4, bytes)] ∧ bytes.length = 58 := by decide +kernel
  obtain ⟨st', hrun, bytes, _, hsends, hlen⟩ := hsent
  exact ⟨st, st', bytes, hrun, hsends, hlen, (stackIndependent_iff hlist
    (createLinkPacket_eq (hostEnv 1) rfl rfl) (by decide)).mpr (.inr (.inl (by decide)))⟩

end Cs352Proxy
