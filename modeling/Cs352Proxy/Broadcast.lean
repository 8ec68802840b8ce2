import Cs352Proxy.Network

/-!
# Broadcast

The frames in a network. A host sends each frame to all that it knows, and no host sends on what it
is sent: what a tap device gets are the frames of the hosts that its own host is connected to.

* `Woven.entries_eq`: a host that is known has one entry in the table.
* `writesFor`, `written`: what a run sends to an end of a connection for its tap device, and what it
  hands to tap devices. `framesTo`: the frames behind the former.
* `network_frames`: each tap device gets the frames of each neighbour once and in their order, and
  nothing else.
-/

namespace Cs352Proxy

open Base

namespace Network

variable {ι κ : Type} (nw : Network ι κ)

/-! ## Entries -/

section Entries

variable {nw} {p : Net ι κ} {c : κ} {x : Side} {t : Topology} {e : ProxySocketfd}

theorem Distinguished.entry_key (hd : nw.Distinguished)
    (ht : t.Surrounded (nw.env (nw.host c x)) (nw.Peer (nw.host c x))) (he : e ∈ t.routes)
    (hfd : e.sockFd = nw.fd c x) : e.key = (nw.info c x.other).macaddr.key := by
  obtain ⟨l, _, hmac, hpeer⟩ := ht.entries e he
  rw [hfd] at hpeer
  rw [ProxySocketfd.key, hmac, hd.peer_eq hpeer]

theorem Distinguished.entry_socket (hd : nw.Distinguished)
    (ht : t.Surrounded (nw.env (nw.host c x)) (nw.Peer (nw.host c x))) (he : e ∈ t.routes)
    (hkey : e.key = (nw.info c x.other).macaddr.key) : e.sockFd = nw.fd c x := by
  obtain ⟨l, _, hmac, c', x', hhost, hfd, hremote⟩ := ht.entries e he
  rw [ProxySocketfd.key, hmac, ← hremote] at hkey
  cases hd.once c' x' c x hhost (hd.key _ _ hkey)
  exact hfd.symm

/-- A host has one entry for each end that it knows. -/
theorem Woven.entries_eq (hd : nw.Distinguished) (hw : nw.Woven p) (c : κ) (x : Side) :
    entries (nw.fd c x) (p.st (nw.host c x)) =
      if (p.st (nw.host c x)).findSocketfd (nw.info c x.other).macaddr ≠ none then 1 else 0 := by
  obtain ⟨t, cells, hs, ht⟩ := hw.side (nw.host c x)
  have hkeys : (t.routes.map ProxySocketfd.sockFd).count (nw.fd c x) ≤
      (t.routes.map ProxySocketfd.key).count (nw.info c x.other).macaddr.key := by
    rw [List.count, List.count, List.countP_map, List.countP_map]
    refine List.countP_mono_left fun e he hfd => ?_
    have hkey := hd.entry_key ht he (by simpa using hfd)
    simpa using hkey
  rw [entries, hs.routes, ← hs.route]
  cases hroute : t.route (nw.info c x.other).macaddr with
  | none =>
    have hzero := List.count_eq_zero.mpr (lookup_none.mp hroute)
    rw [hzero] at hkeys
    simpa using hkeys
  | some e =>
    obtain ⟨he, hkey⟩ := lookup_some hroute
    have hpos : 0 < (t.routes.map ProxySocketfd.sockFd).count (nw.fd c x) := by
      rw [List.count_pos_iff, ← hd.entry_socket ht he hkey]
      exact List.mem_map_of_mem he
    have hone := List.nodup_iff_count_le_one.mp ht.table (nw.info c x.other).macaddr.key
    rw [if_pos (by simp)]
    omega

end Entries

/-! ## The frames of a run -/

section Frames

/-- What a step hands to the tap device at an end in `P`. -/
def writtenIn (P : κ × Side → Bool) (s : Step (Net ι κ) (NetOp ι κ)) : List (Nat × Buf) :=
  match s.input with
  | .deliver c x _ _ =>
    if P (c, x) then
      tapData (nw.env (nw.host c x)) ((nw.sentTo s.pre c x)[s.pre.handled (c, x)]?).toList
    else []
  | .connect .. | .flood .. | .frame .. | .sweep .. => []

def written (P : κ × Side → Bool) (tr : List (Step (Net ι κ) (NetOp ι κ))) : List (Nat × Buf) :=
  tr.reverse.flatMap (nw.writtenIn P)

theorem written_cons (P : κ × Side → Bool) (s : Step (Net ι κ) (NetOp ι κ))
    (tr : List (Step (Net ι κ) (NetOp ι κ))) :
    nw.written P (s :: tr) = nw.written P tr ++ nw.writtenIn P s := by
  simp [written]

/-- What the tap device of a host was given, oldest first. -/
def tapped (p : Net ι κ) (i : ι) : List (Nat × Buf) := (tapWrites (p.st i).trace).reverse

variable [DecidableEq ι]

/-- What `x` has to write to its tap device for a round of `TAPHandle` at the other end, if that knows
`x`. A round in which `read` failed is one of them. -/
def writesIn (c : κ) (x : Side) (s : Step (Net ι κ) (NetOp ι κ)) : List (Nat × Buf) :=
  match s.input with
  | .frame i read =>
    if i = nw.host c x.other ∧ (s.pre.st i).findSocketfd (nw.info c x).macaddr ≠ none then
      [delivery read]
    else []
  | .connect .. | .deliver .. | .flood .. | .sweep .. => []

def writesFor (c : κ) (x : Side) (tr : List (Step (Net ι κ) (NetOp ι κ))) : List (Nat × Buf) :=
  tr.reverse.flatMap (nw.writesIn c x)

/-- The frame that the other end reads in a step, if it knows `x`. -/
def framesIn (c : κ) (x : Side) (s : Step (Net ι κ) (NetOp ι κ)) : List (Nat × Buf) :=
  match s.input with
  | .frame i (some bytes) =>
    if i = nw.host c x.other ∧ (s.pre.st i).findSocketfd (nw.info c x).macaddr ≠ none then
      [(bytes.length, bytes)]
    else []
  | .frame _ none | .connect .. | .deliver .. | .flood .. | .sweep .. => []

def framesTo (c : κ) (x : Side) (tr : List (Step (Net ι κ) (NetOp ι κ))) : List (Nat × Buf) :=
  tr.reverse.flatMap (nw.framesIn c x)

/-- The step is a round of `TAPHandle` at the host `i` in which `read` failed. -/
def readFails (i : ι) : NetOp ι κ → Bool
  | .frame j none => j = i
  | .frame _ (some _) | .connect .. | .deliver .. | .flood .. | .sweep .. => false

theorem writesFor_cons (s : Step (Net ι κ) (NetOp ι κ)) (tr : List (Step (Net ι κ) (NetOp ι κ)))
    (c : κ) (x : Side) : nw.writesFor c x (s :: tr) = nw.writesFor c x tr ++ nw.writesIn c x s := by
  simp [writesFor]

variable {nw} {p p' : Net ι κ} {i : ι} {c : κ} {x : Side} {st : Proxy}

theorem sentTo_put {frames : κ → Side → List (Nat × Buf)}
    (hsent : ∀ c x, nw.host c x = i → ∃ new,
      sentOn (nw.fd c x) st = sentOn (nw.fd c x) (p.st i) ++ new ∧
      tapData (nw.env (nw.host c x.other)) new = frames c x.other)
    (hother : ∀ c x, nw.host c x.other ≠ i → frames c x = []) (c : κ) (x : Side) :
    ∃ new, nw.sentTo (p.put i st) c x = nw.sentTo p c x ++ new ∧
      tapData (nw.env (nw.host c x)) new = frames c x := by
  by_cases hi : nw.host c x.other = i
  · obtain ⟨new, hnew, hframes⟩ := hsent c x.other hi
    rw [Side.other_other] at hframes
    exact ⟨new, by simp [sentTo, Net.put, hi, hnew], hframes⟩
  · exact ⟨[], by simp [sentTo, Net.put, hi], (hother c x hi).symm⟩

theorem tapped_put {writes : List (Nat × Buf)}
    (htap : tapWrites st.trace = writes.reverse ++ tapWrites (p.st i).trace) (j : ι) :
    Network.tapped (p.put i st) j = Network.tapped p j ++ if i = j then writes else [] := by
  by_cases hj : j = i
  · subst hj
    simp [Network.tapped, Net.put, htap]
  · simp [Network.tapped, Net.put, hj, Ne.symm hj]

/-! ## The invariant -/

variable [DecidableEq κ]

/-- What was sent for a tap device are the frames, what an end took is a first part of them, and a
tap device was given what the ends of its host took. -/
structure Carries (nw : Network ι κ) (tr : List (Step (Net ι κ) (NetOp ι κ))) (p : Net ι κ) :
    Prop where
  sent : ∀ c x, tapData (nw.env (nw.host c x)) (nw.sentTo p c x) = nw.writesFor c x tr
  taken : ∀ c x, nw.written (fun e => e = (c, x)) tr =
    tapData (nw.env (nw.host c x)) ((nw.sentTo p c x).take (p.handled (c, x)))
  counted : ∀ c x, p.handled (c, x) ≤ (nw.sentTo p c x).length
  tapped : ∀ i, tapped p i = nw.written (fun e => nw.host e.1 e.2 = i) tr

variable {tr : List (Step (Net ι κ) (NetOp ι κ))} {op : NetOp ι κ}

theorem start_carries : nw.Carries [] .start :=
  ⟨fun _ _ => rfl, fun _ _ => rfl, fun _ _ => Nat.zero_le _, fun _ => rfl⟩

/-- An end takes nothing in a step, or the next chunk. -/
def Takes (nw : Network ι κ) (s : Step (Net ι κ) (NetOp ι κ)) (c : κ) (x : Side) : Prop :=
  s.post.handled (c, x) = s.pre.handled (c, x) ∧ nw.writtenIn (fun e => e = (c, x)) s = [] ∨
    ∃ b, (nw.sentTo s.pre c x)[s.pre.handled (c, x)]? = some b ∧
      s.post.handled (c, x) = s.pre.handled (c, x) + 1 ∧
      nw.writtenIn (fun e => e = (c, x)) s = tapData (nw.env (nw.host c x)) [b]

theorem Carries.snoc {s : Step (Net ι κ) (NetOp ι κ)} (hc : nw.Carries tr s.pre)
    (hsent : ∀ c x, ∃ new, nw.sentTo s.post c x = nw.sentTo s.pre c x ++ new ∧
      tapData (nw.env (nw.host c x)) new = nw.writesIn c x s)
    (htaken : ∀ c x, nw.Takes s c x)
    (htapped : ∀ i, Network.tapped s.post i =
      Network.tapped s.pre i ++ nw.writtenIn (fun e => nw.host e.1 e.2 = i) s) :
    nw.Carries (s :: tr) s.post := by
  refine ⟨fun c x => ?_, fun c x => ?_, fun c x => ?_, fun i => ?_⟩
  · obtain ⟨new, hnew, hframes⟩ := hsent c x
    rw [hnew, tapData_append, hc.sent, hframes, writesFor_cons]
  · obtain ⟨new, hnew, _⟩ := hsent c x
    rw [written_cons, hc.taken, hnew]
    rcases htaken c x with ⟨hsame, hnone⟩ | ⟨b, hb, hnext, hone⟩
    · rw [hsame, hnone, List.append_nil, List.take_append_of_le_length (hc.counted c x)]
    · obtain ⟨hlt, _⟩ := List.getElem?_eq_some_iff.mp hb
      rw [hnext, hone, List.take_append_of_le_length hlt, List.take_add_one, hb, tapData_append]
      rfl
  · obtain ⟨new, hnew, _⟩ := hsent c x
    rw [hnew, List.length_append]
    rcases htaken c x with ⟨hsame, _⟩ | ⟨b, hb, hnext, _⟩
    · rw [hsame]
      exact Nat.le_add_right_of_le (hc.counted c x)
    · obtain ⟨hlt, _⟩ := List.getElem?_eq_some_iff.mp hb
      rw [hnext]
      exact Nat.le_add_right_of_le hlt
  · rw [htapped, written_cons, hc.tapped]

theorem Carries.put (hc : nw.Carries tr p)
    (htap : tapWrites st.trace = tapWrites (p.st i).trace)
    (hwritten : ∀ P, nw.writtenIn P ⟨p, op, p.put i st⟩ = [])
    (hsent : ∀ c x, nw.host c x = i → ∃ new,
      sentOn (nw.fd c x) st = sentOn (nw.fd c x) (p.st i) ++ new ∧
      tapData (nw.env (nw.host c x.other)) new = nw.writesIn c x.other ⟨p, op, p.put i st⟩)
    (hother : ∀ c x, nw.host c x.other ≠ i → nw.writesIn c x ⟨p, op, p.put i st⟩ = []) :
    nw.Carries (⟨p, op, p.put i st⟩ :: tr) (p.put i st) := by
  refine Carries.snoc (s := ⟨p, op, p.put i st⟩) hc (sentTo_put hsent hother)
    (fun c x => .inl ⟨rfl, hwritten _⟩) fun j => ?_
  have htapped : Network.tapped (p.put i st) j = Network.tapped p j ++ if i = j then [] else [] :=
    tapped_put (by rw [htap]; rfl) j
  rw [hwritten, htapped, ite_self]

/-- A frame goes once to each host that is known. -/
theorem Carries.frame {read : Option Buf} (hd : nw.Distinguished) (hw : nw.Woven p)
    (hc : nw.Carries tr p) (h : tapHandle (nw.env i) read (p.st i) = some st) :
    nw.Carries (⟨p, .frame i read, p.put i st⟩ :: tr) (p.put i st) := by
  have hround : (ThreadOp.tapHandle read).round (nw.env i) 0 (p.st i) =
      some { st, running := true } := by simp [ThreadOp.round, h]
  refine hc.put (ThreadOp.round_tapWrites hround) (fun _ => rfl) (fun c x hi => ?_) fun c x hi => ?_
  · obtain ⟨new, hnew, hframes⟩ :=
      ThreadOp.round_sentOn hround (nw.fd c x) (nw.env (nw.host c x.other))
    refine ⟨new, hnew, ?_⟩
    have hcount := hw.entries_eq hd c x
    rw [hi] at hcount
    simp only [writesIn, Side.other_other, hi, true_and]
    rw [hframes, ThreadOp.writesFor, hcount]
    split <;> rfl
  · exact if_neg fun hyes => hi hyes.1.symm

/-- What an end takes goes to the tap device or nowhere. -/
theorem Carries.deliver {uninit : Uninit} {now : U64} {fuel : Nat} {bytes : Buf}
    (hc : nw.Carries tr p) (hbytes : (nw.sentTo p c x)[p.handled (c, x)]? = some bytes)
    (h : nw.handle p c x uninit fuel now bytes = .next st) :
    nw.Carries (⟨p, .deliver c x uninit now, (p.put (nw.host c x) st).count c x⟩ :: tr)
      ((p.put (nw.host c x) st).count c x) := by
  have hround : (ThreadOp.tcpHandle uninit (nw.fd c x) now bytes).round (nw.env (nw.host c x)) fuel
      (p.st (nw.host c x)) = some { st, running := true } := by
    simp only [ThreadOp.round]
    rw [show tcpHandle _ _ _ _ _ _ = Round.next st from h]
  have hwritten : ∀ P p', nw.writtenIn P ⟨p, .deliver c x uninit now, p'⟩ =
      if P (c, x) then tapData (nw.env (nw.host c x)) [bytes] else [] := by
    intro P p'
    simp only [writtenIn, hbytes]
    rfl
  have hsent : ∀ c' x', ∃ new,
      nw.sentTo (p.put (nw.host c x) st) c' x' = nw.sentTo p c' x' ++ new ∧
      tapData (nw.env (nw.host c' x')) new = [] :=
    sentTo_put (fun _ _ _ => ThreadOp.round_sentOn hround _ _) fun _ _ _ => rfl
  have htap : tapWrites st.trace = (tapData (nw.env (nw.host c x)) [bytes]).reverse ++
      tapWrites (p.st (nw.host c x)).trace := by
    rw [ThreadOp.round_tapWrites hround, ThreadOp.written, tapData]
    cases hdata : IsData (nw.env (nw.host c x)) bytes <;> simp [hdata]
  refine Carries.snoc hc hsent (fun c' x' => ?_) fun j => ?_
  · by_cases he : (c', x') = (c, x)
    · cases he
      refine .inr ⟨bytes, hbytes, Function.update_self .., ?_⟩
      rw [hwritten, if_pos (decide_eq_true rfl)]
    · refine .inl ⟨Function.update_of_ne he .., ?_⟩
      rw [hwritten, if_neg (by simpa using Ne.symm he)]
  · simp only [hwritten, decide_eq_true_eq]
    exact tapped_put htap j

theorem Performs.carries (hd : nw.Distinguished) (hw : nw.Woven p) (hc : nw.Carries tr p)
    (h : nw.Performs p op p') : nw.Carries (⟨p, op, p'⟩ :: tr) p' := by
  cases h.outcome with
  | connect _ hhello =>
    rw [connecttohost_eq] at hhello
    cases hhello
    refine hc.put rfl (fun _ => rfl) (fun c' x' hi => ⟨_, sentOn_emit _ _ _ _, ?_⟩) fun _ _ _ => rfl
    refine tapData_linkstate _ fun b hb => ?_
    split at hb
    · rw [List.mem_singleton.mp hb]
      exact wireBytes_isLinkstate rfl _ _ _
    · cases hb
  | deliver hbytes _ hround => exact hc.deliver hbytes hround
  | @flood i uninit fuel st hsend =>
    have hround : (ThreadOp.sendPackets uninit).round (nw.env i) fuel (p.st i) =
        some { st, running := true } := by simp [ThreadOp.round, hsend]
    exact hc.put (ThreadOp.round_tapWrites hround) (fun _ => rfl)
      (fun c x _ => ThreadOp.round_sentOn hround _ _) fun _ _ _ => rfl
  | frame htap => exact hc.frame hd hw htap
  | @sweep i now linkTimeout fuel st hsweep =>
    have hround : (ThreadOp.checkLinkTimeOut now linkTimeout).round (nw.env i) fuel (p.st i) =
        some { st, running := true } := by simp [ThreadOp.round, hsweep]
    exact hc.put (ThreadOp.round_tapWrites hround) (fun _ => rfl)
      (fun c x _ => ThreadOp.round_sentOn hround _ _) fun _ _ _ => rfl

/-! ## Runs -/

theorem writesIn_eq_framesIn {s : Step (Net ι κ) (NetOp ι κ)} (h : nw.Performs s.pre s.input s.post)
    (hread : readFails (nw.host c x.other) s.input = false) : nw.writesIn c x s = nw.framesIn c x s := by
  obtain ⟨p, op, p'⟩ := s
  cases op with
  | frame i read =>
    cases read with
    | none =>
      have hne : i ≠ nw.host c x.other := by simpa [readFails] using hread
      exact if_neg fun h => hne h.1
    | some bytes =>
      obtain ⟨_, fuel, hperform⟩ := h
      simp only [perform, Option.bind_eq_bind, Option.bind_eq_some_iff] at hperform
      obtain ⟨st, htap, _⟩ := hperform
      obtain ⟨_, hframe, _⟩ := tapHandle_some htap
      simp only [writesIn, framesIn, delivery_some (length_of_tapFrame hframe bytes rfl)]
  | _ => rfl

theorem writesFor_eq_framesTo (hr : Run .start nw.Performs tr p)
    (hread : ∀ s ∈ tr, readFails (nw.host c x.other) s.input = false) :
    nw.writesFor c x tr = nw.framesTo c x tr := by
  have hstep : ∀ s ∈ tr.reverse, nw.writesIn c x s = nw.framesIn c x s := by
    intro s hs
    have hmem := List.mem_reverse.mp hs
    exact writesIn_eq_framesIn (hr.step_of_mem s hmem) (hread s hmem)
  exact List.flatMap_congr hstep

/-- However the steps of the hosts interleave, a tap device is given, step by step, what the ends of
its host take from their connections. From each this is a first part of what the rounds of `TAPHandle`
at the other end sent for it while that knew the host: all of it once, in order, and nothing of anyone
else. Once the end has taken all that was sent, it is everything. If no `read` of the other host failed,
these are the frames that it read. -/
theorem network_frames (hd : nw.Distinguished) (hr : Run .start nw.Performs tr p) :
    (∀ i, Network.tapped p i = nw.written (fun e => nw.host e.1 e.2 = i) tr) ∧
      ∀ c x, nw.written (fun e => e = (c, x)) tr <+: nw.writesFor c x tr ∧
        (p.handled (c, x) = (nw.sentTo p c x).length →
          nw.written (fun e => e = (c, x)) tr = nw.writesFor c x tr) ∧
        ((∀ s ∈ tr, readFails (nw.host c x.other) s.input = false) →
          nw.writesFor c x tr = nw.framesTo c x tr) := by
  have hboth : nw.Woven p ∧ nw.Carries tr p := by
    induction hr with
    | start => exact ⟨start_woven, start_carries⟩
    | snoc _ hstep ih => exact ⟨Performs.woven hd ih.1 hstep, Performs.carries hd ih.1 ih.2 hstep⟩
  obtain ⟨_, hc⟩ := hboth
  refine ⟨hc.tapped, fun c x => ?_⟩
  rw [hc.taken, ← hc.sent]
  refine ⟨Tunnel.tapData_take _ _ _, fun hall => ?_, fun hread => ?_⟩
  · rw [hall, List.take_length]
  · rw [hc.sent]
    exact writesFor_eq_framesTo hr hread

end Frames

end Network

/-- The first client sends a frame to the server, the server one to both clients. -/
theorem three_hosts_frames : ∃ tr p, Run .start threeHosts.Performs tr p ∧
    Network.tapped p 0 = [(1, [7])] ∧ Network.tapped p 2 = [(1, [8])] ∧
    threeHosts.written (fun e => e = (1, .client)) tr = threeHosts.framesTo 1 .client tr := by
  let u : Uninit := (hostEnv 2).uninit
  let connect (c : Fin 2) : NetOp (Fin 3) (Fin 2) := .connect c 0 (host 1).ip (host 1).portno Mac.zero
  obtain ⟨⟨tr, p⟩, hreplay, hserver, hclient, hread, hall⟩ : ∃ r ∈ replay
      (fun p op => if threeHosts.Allowed p op then threeHosts.perform 4 p op else none)
      [connect 0, .deliver 0 .server u 9, .flood 0 u, .deliver 0 .client u 10, connect 1,
        .deliver 1 .server u 11, .frame 1 (some [7]), .deliver 0 .server u 12, .deliver 0 .server u 12,
        .frame 0 (some [8]), .deliver 1 .client u 13] [] .start,
      Network.tapped r.2 0 = [(1, [7])] ∧ Network.tapped r.2 2 = [(1, [8])] ∧
        (∀ s ∈ r.1, Network.readFails (threeHosts.host 1 Side.client.other) s.input = false) ∧
        r.2.handled (1, .client) = (threeHosts.sentTo r.2 1 .client).length := by
    decide +kernel
  have hr := threeHosts_run hreplay
  obtain ⟨_, hall', hreads⟩ := (Network.network_frames threeHosts_distinguished hr).2 1 .client
  exact ⟨tr, p, hr, hserver, hclient, (hall' hall).trans (hreads hread)⟩

end Cs352Proxy
