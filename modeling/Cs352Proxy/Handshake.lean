import Cs352Proxy.Receive
import Cs352Proxy.Trace

/-!
# Handshake

A client connects to a server that does not know it. The packet of `connecttohost` carries the
zero address as the remote MAC of its only link, and the server is meant to answer it. But
`comp_mac_zero` returns `-1` on the zero address, so the guard `!= 0` of the branch for the
answer ("Got the packet back") is the one that holds, and that branch sends nothing.

* `Handshake`: what the two calls of `TCPHandle` should come to.
* `tcpHandle_hello`: the branch the server takes.
-/

namespace Cs352Proxy

open Base

/-- `peer` is reached through the socket `fd`, and a link of weight 1 to it is stored. -/
def Adjacent (st : Proxy) (own peer : ProxyInfo) (fd : Int) : Prop :=
  (st.findSocketfd peer.macaddr).map (·.sockFd) = some fd ∧
    ∃ cells : Cells, NodeList st.heap st.memList.head cells ∧
      ∃ x ∈ cells, x.2.localInfo.macaddr = own.macaddr ∧ x.2.remoteInfo.macaddr = peer.macaddr ∧
        x.2.linkweight = 1

/-- The client's packet reaches the server on `fdS`, the server answers it once, and the answer
reaches the client on `fdC`. Each call gets as many rounds for its loops as it needs. -/
def Handshake (envS envC : Env) (time nowS nowC : U64) (remoteIp : U32) (remotePort : U16)
    (fdS fdC : Int) (stS stC : Proxy) : Prop :=
  ∃ fuel hello reply stS' stC',
    connecttohost envC time remoteIp remotePort Mac.zero = some hello ∧
    tcpHandle envS fuel nowS fdS hello stS = .next stS' ∧
    sends stS' = (fdS, reply) :: sends stS ∧
    tcpHandle envC fuel nowC fdC reply stC = .next stC' ∧
    Adjacent stS' envS.myProxyInfo envC.myProxyInfo fdS ∧
    Adjacent stC' envC.myProxyInfo envS.myProxyInfo fdC

/-- Two proxies that have not met. -/
structure Strangers (envS envC : Env) (stS stC : Proxy) : Prop where
  server : stS.findSocketfd envC.myProxyInfo.macaddr = none
  client : stC.findSocketfd envS.myProxyInfo.macaddr = none
  distinct : envS.myProxyInfo.macaddr ≠ envC.myProxyInfo.macaddr
  zeroFreeS : envS.myProxyInfo.macaddr.ZeroFree
  zeroFreeC : envC.myProxyInfo.macaddr.ZeroFree

/-! ## The client's packet -/

/-- The link the client announces: it does not know the server's MAC address. -/
def helloLink (env : Env) (time : U64) (remoteIp : U32) (remotePort : U16) (macaddr : Mac) : Link :=
  { localInfo := env.myProxyInfo
    remoteInfo := { ip := remoteIp, portno := remotePort, macaddr }
    linkweight := 1
    ID := time }

def hello (env : Env) (time : U64) (remoteIp : U32) (remotePort : U16) (macaddr : Mac) : Received :=
  { head := { type := pktLinkstate, length := 50 }
    numNeighbors := 1
    source := env.myProxyInfo
    first := helloLink env time remoteIp remotePort macaddr
    rest := [] }

theorem connecttohost_eq (env : Env) (time : U64) (remoteIp : U32) (remotePort : U16)
    (macaddr : Mac) :
    connecttohost env time remoteIp remotePort macaddr =
      some (wireBytes { type := pktLinkstate, length := 50 } 1 env.myProxyInfo
        [helloLink env time remoteIp remotePort macaddr]) := by
  let node : LinkstateNode := { helloLink env time remoteIp remotePort macaddr with next := none }
  have hs : NodeList [node] (some 0) [(0, node)] := ⟨rfl, rfl, rfl⟩
  unfold connecttohost
  rw [htonLinkstate_eq env.endian hs (by simp) (by simp [Env.stackBuf])]
  simp [Env.stackBuf, node]

/-- The server takes the client's packet for an answer to one of its own. -/
theorem tcpHandle_hello {envS envC : Env} {fuel : Nat} {time now : U64} {remoteIp : U32}
    {remotePort : U16} {fd : Int} {bytes : Buf} {st : Proxy}
    (hnew : st.findSocketfd envC.myProxyInfo.macaddr = none)
    (hbytes : connecttohost envC time remoteIp remotePort Mac.zero = some bytes) :
    tcpHandle envS fuel now fd bytes st =
      match gotPacketBack envS fuel now fd
        ((hello envC time remoteIp remotePort Mac.zero).pkt st.heap.length)
        (st.alloc (hello envC time remoteIp remotePort Mac.zero).links) with
      | none => .stuck st
      | some st' => .next st' := by
  rw [connecttohost_eq] at hbytes
  cases hbytes
  rw [← List.append_nil (wireBytes _ _ _ _),
    ← handlePacket_back (m := hello envC time remoteIp remotePort Mac.zero) hnew rfl]
  exact tcpHandle_wireBytes (m := hello envC time remoteIp remotePort Mac.zero) rfl
    (by simp [hello, Received.links]) rfl []

theorem tcpHandle_hello_sends {envS envC : Env} {fuel : Nat} {time now : U64} {remoteIp : U32}
    {remotePort : U16} {fd : Int} {bytes : Buf} {st st' : Proxy}
    (hnew : st.findSocketfd envC.myProxyInfo.macaddr = none)
    (hbytes : connecttohost envC time remoteIp remotePort Mac.zero = some bytes)
    (h : tcpHandle envS fuel now fd bytes st = .next st') : sends st' = sends st := by
  rw [tcpHandle_hello hnew hbytes] at h
  split at h
  · cases h
  · rename_i st₁ hback
    cases h
    exact (gotPacketBack_emits hback).sends_eq

/-- No server answers a client it does not know. -/
theorem handshake_fails {envS envC : Env} {time nowS nowC : U64} {remoteIp : U32} {remotePort : U16}
    {fdS fdC : Int} {stS stC : Proxy} (hst : Strangers envS envC stS stC) :
    ¬ Handshake envS envC time nowS nowC remoteIp remotePort fdS fdC stS stC := by
  intro h
  obtain ⟨fuel, bytes, reply, stS', stC', hbytes, hserver, hreply, _⟩ := h
  rw [tcpHandle_hello_sends hst.server hbytes hserver] at hreply
  exact List.cons_ne_self _ _ hreply.symm

/-- Two proxies that have just started: the server handles the packet and sends nothing. -/
theorem server_stays_silent :
    Strangers (hostEnv 1) (hostEnv 2) Proxy.start Proxy.start ∧
      (∃ bytes stS',
        connecttohost (hostEnv 2) 0 (host 1).ip (host 1).portno Mac.zero = some bytes ∧
        tcpHandle (hostEnv 1) 3 1 4 bytes Proxy.start = .next stS' ∧ sends stS' = []) ∧
      ¬ Handshake (hostEnv 1) (hostEnv 2) 0 1 2 (host 1).ip (host 1).portno 4 4 Proxy.start
        Proxy.start := by
  have hnew : Proxy.start.findSocketfd (hostEnv 2).myProxyInfo.macaddr = none := by decide
  refine ⟨by constructor <;> decide, ?_, ?_⟩
  · obtain ⟨bytes, hbytes⟩ : ∃ bytes, connecttohost (hostEnv 2) 0 (host 1).ip (host 1).portno
        Mac.zero = some bytes := ⟨_, connecttohost_eq _ _ _ _ _⟩
    have hsome : (gotPacketBack (hostEnv 1) 3 1 4
        ((hello (hostEnv 2) 0 (host 1).ip (host 1).portno Mac.zero).pkt 0)
        (Proxy.start.alloc (hello (hostEnv 2) 0 (host 1).ip (host 1).portno Mac.zero).links)).isSome := by
      decide +kernel
    obtain ⟨stS', hback⟩ := Option.isSome_iff_exists.mp hsome
    have hserver : tcpHandle (hostEnv 1) 3 1 4 bytes Proxy.start = .next stS' := by
      rw [tcpHandle_hello hnew hbytes, show Proxy.start.heap.length = 0 from rfl, hback]
    exact ⟨bytes, stS', hbytes, hserver, tcpHandle_hello_sends hnew hbytes hserver⟩
  · intro h
    obtain ⟨fuel, bytes, reply, stS', stC', hbytes, hserver, hreply, _⟩ := h
    rw [tcpHandle_hello_sends hnew hbytes hserver] at hreply
    cases hreply

/-- The server knows another client already. -/
theorem third_host_unanswered :
    ¬ Handshake (hostEnv 1) (hostEnv 2) 0 1 2 (host 1).ip (host 1).portno 5 4
      (((Proxy.start.addsockfd (host 3).macaddr 4).pushClient (hostEnv 1) (host 3) 0)) Proxy.start :=
  handshake_fails (by constructor <;> decide)

end Cs352Proxy
