import Cs352Proxy.Base.Chain
import Cs352Proxy.Recorded

/-!
# Peers

The list of peers in memory. For each line of the configuration file `main` allocates a `plist`, and
for a `peer` line it fills it and appends it with `LL_APPEND`, which walks to the end of the list. The
last loop of `main` walks it once more and calls `connecttohost` for each node.

* `llAppend_shows`: the macro adds the node at the end.
* `readPeers_refines`: the list in memory is the `head` of `Config`.
* `peers_called`: the calls are the peers of the file, in its order.
-/

namespace Cs352Proxy

open Base

structure PlistNode extends Peer where
  next : Option Nat
deriving DecidableEq

/-- The nodes that were allocated, and the global `head`. -/
structure Plist where
  heap : List PlistNode
  head : Option Nat

/-- `while (_tmp->next) { _tmp = _tmp->next; } _tmp->next = (add);`. -/
def llAppendLoop (add : Nat) : Nat → Nat → List PlistNode → Option (List PlistNode)
  | 0, _, _ => none
  | fuel + 1, tmp, heap => do
    let node ← heap[tmp]?
    match node.next with
    | some tmp => llAppendLoop add fuel tmp heap
    | none => some (heap.modify tmp fun n => { n with next := some add })

/-- `LL_APPEND(head, add)`. -/
def llAppend (fuel : Nat) (add : Nat) (l : Plist) : Option Plist :=
  let heap := l.heap.modify add fun n => { n with next := none }
  match l.head with
  | some tmp => do
    let heap ← llAppendLoop add fuel tmp heap
    some { l with heap }
  | none => some { heap, head := some add }

/-- The body of the configuration loop, as far as it concerns the peers. `fresh` is what `malloc`
returned. -/
def peerLine (fresh : PlistNode) (fuel : Nat) (linep : Buf) (l : Plist) : Option Plist := do
  let curr := l.heap.length
  let l := { l with heap := l.heap ++ [fresh] }
  let (pch, rest) ← strtok isSpace linep
  if Keyword.parse pch = some .peer then
    let (addr, rest) ← strtok isBreak rest
    let (pch, _) ← strtok isBreak rest
    let heap := l.heap.modify curr fun n => { n with IP := addr, port := atoi pch }
    llAppend fuel curr { l with heap }
  else some l

/-- The loop over the lines that `fgets` returns; `fresh i` is the memory of the `i`-th node. -/
def readPeers (fresh : Nat → PlistNode) (fuel : Nat) : List Buf → Plist → Option Plist
  | [], l => some l
  | linep :: lines, l => do
    let l ← peerLine (fresh l.heap.length) fuel (cstr linep) l
    readPeers fresh fuel lines l

/-- The last loop of `main`: the calls of `connecttohost`, each with what it returned. A call that
failed changes nothing for those after it. -/
def connectLoop (heap : List PlistNode) (connecttohost : Nat → Peer → Int) :
    Nat → Nat → Option Nat → Option (List (Peer × Int))
  | 0, _, _ => none
  | _ + 1, _, none => some []
  | fuel + 1, i, some curr => do
    let node ← heap[curr]?
    let calls ← connectLoop heap connecttohost fuel (i + 1) node.next
    some ((node.toPeer, connecttohost i node.toPeer) :: calls)

/-! ## The list -/

abbrev PlistCells := List (Nat × PlistNode)

/-- The peers of a null-terminated list. -/
def ShowsPeers (l : Plist) (peers : List Peer) : Prop :=
  ∃ cells : PlistCells, Seg PlistNode.next l.heap l.head cells none ∧
    cells.map (fun x => x.2.toPeer) = peers

theorem llAppendLoop_eq {add : Nat} {heap : List PlistNode} {pre : PlistCells} :
    ∀ {fuel tmp : Nat} {b : Nat} {cb : PlistNode},
      Seg PlistNode.next heap (some tmp) (pre ++ [(b, cb)]) none → pre.length < fuel →
        llAppendLoop add fuel tmp heap =
          some (heap.modify b fun n => { n with next := some add }) := by
  induction pre with
  | nil =>
    intro fuel tmp b cb hs hfuel
    obtain ⟨htmp, hget, hend⟩ := hs
    cases htmp
    obtain ⟨fuel, rfl⟩ := Nat.exists_eq_add_of_lt hfuel
    have hnext : cb.next = none := hend
    simp only [llAppendLoop, hget, Option.bind_eq_bind, Option.bind_some, hnext]
  | cons x pre ih =>
    intro fuel tmp b cb hs hfuel
    obtain ⟨htmp, hget, hrest⟩ := hs
    cases htmp
    cases fuel with
    | zero => cases hfuel
    | succ fuel =>
      have hlt : pre.length < fuel := Nat.lt_of_succ_lt_succ hfuel
      obtain ⟨n, hn⟩ : ∃ n, x.2.next = some n := by
        cases pre with
        | nil => exact ⟨_, hrest.1⟩
        | cons y pre => exact ⟨_, hrest.1⟩
      have hloop := ih (by rw [← hn]; exact hrest) hlt
      simp only [llAppendLoop, hget, Option.bind_eq_bind, Option.bind_some, hn, hloop]

/-- The macro adds a node that is not on the list at its end. -/
theorem llAppend_shows {l : Plist} {cells : PlistCells} {add : Nat} {node : PlistNode} {fuel : Nat}
    (hs : Seg PlistNode.next l.heap l.head cells none) (hadd : l.heap[add]? = some node)
    (hfresh : ∀ x ∈ cells, x.1 ≠ add) (hfuel : cells.length ≤ fuel) :
    ∃ l', llAppend fuel add l = some l' ∧ l'.heap.length = l.heap.length ∧
      ShowsPeers l' (cells.map (fun x => x.2.toPeer) ++ [node.toPeer]) := by
  let heap := l.heap.modify add fun n => { n with next := none }
  have hnode : heap[add]? = some { node with next := none } := by
    simp [heap, List.getElem?_modify_eq, hadd]
  have hframe : ∀ x, x ≠ add → heap[x]? = l.heap[x]? := fun x hx =>
    List.getElem?_modify_ne _ _ (Ne.symm hx)
  have hs' : Seg PlistNode.next heap l.head cells none :=
    hs.frame fun x hx => by rw [hframe _ (hfresh x hx)]; exact hs.get x hx
  rcases List.eq_nil_or_concat cells with rfl | ⟨pre, ⟨b, cb⟩, rfl⟩
  · have hhead : l.head = none := hs'
    refine ⟨{ heap, head := some add }, by simp only [llAppend, hhead]; rfl, by simp [heap], ?_⟩
    exact ⟨[(add, { node with next := none })], ⟨rfl, hnode, rfl⟩, rfl⟩
  · obtain ⟨tmp, hhead⟩ : ∃ tmp, l.head = some tmp := by
      cases pre with
      | nil => exact ⟨_, hs'.1⟩
      | cons y pre => exact ⟨_, hs'.1⟩
    rw [List.concat_eq_append] at hs' hfuel hfresh ⊢
    have hlt : pre.length < fuel := by
      rw [List.length_append, List.length_singleton] at hfuel
      exact hfuel
    rw [hhead] at hs'
    have hb : b ≠ add := hfresh (b, cb) (by simp)
    have hget : heap[b]? = some cb := hs'.get (b, cb) (by simp)
    let heap' := heap.modify b fun n => { n with next := some add }
    have hloop : llAppendLoop add fuel tmp heap = some heap' := llAppendLoop_eq hs' hlt
    have hb' : heap'[b]? = some { cb with next := some add } := by
      simp [heap', List.getElem?_modify_eq, hget]
    have hframe' : ∀ x, x ≠ b → heap'[x]? = heap[x]? := fun x hx =>
      List.getElem?_modify_ne _ _ (Ne.symm hx)
    have hlist := hs'.snoc hb' rfl ((hframe' add (Ne.symm hb)).trans hnode) rfl
      (fun x hx => hfresh x (by simp [hx])) fun x _ hx => hframe' x hx
    refine ⟨{ heap := heap', head := l.head }, ?_, by simp [heap', heap], ?_⟩
    · simp only [llAppend, hhead]
      change (llAppendLoop add fuel tmp heap).bind _ = _
      rw [hloop]
      rfl
    · exact ⟨_, by rw [hhead]; exact hlist, by simp⟩

/-! ## The configuration loop -/

theorem takeOne_head {rest : Buf} {record : Buf → Config} {cfg' : Config} {peers : List Peer}
    (h : takeOne rest record = .ok cfg') (hrecord : ∀ pch, (record pch).head = peers) :
    cfg'.head = peers := by
  unfold takeOne at h
  split at h
  · cases h
  · cases h
    exact hrecord _

theorem takeTwo_head {rest : Buf} {record : Buf → Buf → Config} {cfg' : Config} {peers : List Peer}
    (h : takeTwo rest record = .ok cfg') (hrecord : ∀ a pch, (record a pch).head = peers) :
    cfg'.head = peers := by
  unfold takeTwo at h
  split at h
  · cases h
  · exact takeOne_head h (hrecord _)

/-- A line that is recorded adds a peer if it is a `peer` line, and none if it is not. -/
theorem configLine_head {linep : Buf} {cfg cfg' : Config} (h : configLine linep cfg = .ok cfg') :
    ∃ pch rest, strtok isSpace linep = some (pch, rest) ∧
      ((Keyword.parse pch ≠ some .peer ∧ cfg'.head = cfg.head) ∨
        Keyword.parse pch = some .peer ∧ ∃ addr rest₁ port rest₂,
          strtok isBreak rest = some (addr, rest₁) ∧ strtok isBreak rest₁ = some (port, rest₂) ∧
            cfg'.head = cfg.head ++ [{ port := atoi port, IP := addr }]) := by
  unfold configLine at h
  split at h
  · cases h
  · rename_i pch rest htok
    refine ⟨pch, rest, htok, ?_⟩
    cases hk : Keyword.parse pch with
    | none => rw [hk] at h; cases h
    | some k =>
      rw [hk] at h
      cases k with
      | peer =>
        refine .inr ⟨rfl, ?_⟩
        simp only [takeTwo, takeOne] at h
        split at h
        · cases h
        · rename_i addr rest₁ haddr
          split at h
          · cases h
          · rename_i port rest₂ hport
            cases h
            exact ⟨addr, rest₁, port, rest₂, haddr, hport, rfl⟩
      | globalSecretKey => cases h; exact .inl ⟨by simp, rfl⟩
      | peerKey =>
        simp only at h
        exact .inl ⟨by simp, takeTwo_head h fun _ _ => rfl⟩
      | listenPort | linkPeriod | linkTimeout | quitAfter | tapDevice =>
        simp only at h
        exact .inl ⟨by simp, takeOne_head h fun _ => rfl⟩

theorem peerLine_refines (fresh : PlistNode) {fuel : Nat} {linep : Buf} {l : Plist} {cfg cfg' : Config}
    (hs : ShowsPeers l cfg.head) (hfuel : l.heap.length < fuel) (h : configLine linep cfg = .ok cfg') :
    ∃ l', peerLine fresh fuel linep l = some l' ∧ l'.heap.length = l.heap.length + 1 ∧
      ShowsPeers l' cfg'.head := by
  obtain ⟨cells, hlist, hpeers⟩ := hs
  have hgrown : ∀ node, Seg PlistNode.next (l.heap ++ [node]) l.head cells none := fun node =>
    hlist.frame fun x hx => by
      rw [List.getElem?_append_left (hlist.lt_length x hx)]
      exact hlist.get x hx
  obtain ⟨pch, rest, htok, ⟨hother, hhead⟩ | ⟨hpeer, addr, rest₁, port, rest₂, haddr, hport, hhead⟩⟩ :=
    configLine_head h
  · refine ⟨{ l with heap := l.heap ++ [fresh] }, ?_, List.length_append, ?_⟩
    · simp only [peerLine, htok, Option.bind_eq_bind, Option.bind_some, if_neg hother]
    · exact ⟨cells, hgrown fresh, hpeers.trans hhead.symm⟩
  · let node : PlistNode := { fresh with IP := addr, port := atoi port }
    have hfilled : (l.heap ++ [fresh]).modify l.heap.length
        (fun n => { n with IP := addr, port := atoi port }) = l.heap ++ [node] := by
      have hmodify := modify_append_add l.heap [fresh] 0
        fun n : PlistNode => { n with IP := addr, port := atoi port }
      exact hmodify
    have hnode : (l.heap ++ [node])[l.heap.length]? = some node := by simp
    have hcells : cells.length ≤ fuel := hlist.length_le.trans (Nat.le_of_lt hfuel)
    obtain ⟨l', happend, hlen, hshows⟩ := llAppend_shows (l := { l with heap := l.heap ++ [node] })
      (hgrown node) hnode (fun x hx => Nat.ne_of_lt (hlist.lt_length x hx)) hcells
    refine ⟨l', ?_, by simpa using hlen, ?_⟩
    · simp only [peerLine, htok, haddr, hport, Option.bind_eq_bind, Option.bind_some, if_pos hpeer,
        hfilled, happend]
    · rw [hhead, ← hpeers]
      exact hshows

theorem readPeers_refines (fresh : Nat → PlistNode) {fuel : Nat} {lines : List Buf} :
    ∀ {l : Plist} {cfg cfg' : Config}, ShowsPeers l cfg.head → l.heap.length + lines.length < fuel →
      configLoop lines cfg = .ok cfg' →
        ∃ l', readPeers fresh fuel lines l = some l' ∧
          l'.heap.length = l.heap.length + lines.length ∧ ShowsPeers l' cfg'.head := by
  induction lines with
  | nil => intro l cfg cfg' hs _ h; cases h; exact ⟨l, rfl, rfl, hs⟩
  | cons linep lines ih =>
    intro l cfg cfg' hs hfuel h
    rw [List.length_cons] at hfuel
    simp only [configLoop] at h
    split at h
    · cases h
    · rename_i cfg₁ hline
      obtain ⟨l₁, hl₁, hlen, hs₁⟩ := peerLine_refines (fresh l.heap.length) hs
        (by omega : l.heap.length < fuel) hline
      obtain ⟨l', hl', hlen', hs'⟩ := ih hs₁ (by omega) h
      refine ⟨l', ?_, by rw [List.length_cons]; omega, hs'⟩
      simp only [readPeers, hl₁, Option.bind_eq_bind, Option.bind_some, hl']

/-! ## The calls -/

theorem connectLoop_eq {heap : List PlistNode} {connecttohost : Nat → Peer → Int} {cells : PlistCells} :
    ∀ {fuel i : Nat} {curr : Option Nat}, Seg PlistNode.next heap curr cells none →
      cells.length < fuel → ∃ calls, connectLoop heap connecttohost fuel i curr = some calls ∧
        calls.map Prod.fst = cells.map fun x => x.2.toPeer := by
  induction cells with
  | nil =>
    intro fuel i curr hs hfuel
    obtain ⟨fuel, rfl⟩ := Nat.exists_eq_add_of_lt hfuel
    cases hs
    exact ⟨[], rfl, rfl⟩
  | cons x cells ih =>
    intro fuel i curr hs hfuel
    obtain ⟨hcurr, hget, hrest⟩ := hs
    cases hcurr
    cases fuel with
    | zero => cases hfuel
    | succ fuel =>
      obtain ⟨calls, hcalls, hpeers⟩ := ih (i := i + 1) hrest (Nat.lt_of_succ_lt_succ hfuel)
      refine ⟨(x.2.toPeer, connecttohost i x.2.toPeer) :: calls, ?_, ?_⟩
      · simp only [connectLoop, hget, hcalls, Option.bind_eq_bind, Option.bind_some]
      · rw [List.map_cons, List.map_cons, hpeers]

/-- For a file that `main` accepts, the list in memory is built and walked to its end: one call of
`connecttohost` for each peer, in the order of the file, whatever memory held and the calls return. -/
theorem peers_called {file : Buf} {garbage cfg : Config}
    (h : readConfig file (Config.start garbage) = .ok cfg) (fresh : Nat → PlistNode)
    (connecttohost : Nat → Peer → Int) :
    ∃ fuel l calls, readPeers fresh fuel (linesRead file) { heap := [], head := none } = some l ∧
      connectLoop l.heap connecttohost fuel 0 l.head = some calls ∧
      calls.map Prod.fst = cfg.head := by
  have hstart : ShowsPeers { heap := [], head := none } (Config.start garbage).head := ⟨[], rfl, rfl⟩
  obtain ⟨l, hl, hlen, cells, hlist, hpeers⟩ := readPeers_refines fresh hstart
    (by simp : _ < (linesRead file).length + 1) h
  have hcells : cells.length < (linesRead file).length + 1 := by
    have hle := hlist.length_le
    rw [hlen] at hle
    simpa using Nat.lt_succ_of_le hle
  obtain ⟨calls, hcalls, hmap⟩ := connectLoop_eq (i := 0) hlist hcells
  exact ⟨_, l, calls, hl, hcalls, hmap.trans hpeers⟩

/-- Two peers, a line between them, and a first call that fails. -/
theorem two_peers_called : ∃ cfg fuel l calls,
    readConfig (ascii "peer a 1\nlistenPort 5\npeer b 2\n") (Config.start Config.blank) = .ok cfg ∧
    readPeers (fun _ => { port := 7, IP := [], next := some 0 }) fuel
      (linesRead (ascii "peer a 1\nlistenPort 5\npeer b 2\n")) { heap := [], head := none } = some l ∧
    connectLoop l.heap (fun i _ => if i = 0 then -1 else 3) fuel 0 l.head = some calls ∧
    calls.map Prod.fst = [{ port := 1, IP := ascii "a" }, { port := 2, IP := ascii "b" }] := by
  have hhead : (readConfig (ascii "peer a 1\nlistenPort 5\npeer b 2\n")
      (Config.start Config.blank)).toOption.map Config.head =
        some [{ port := 1, IP := ascii "a" }, { port := 2, IP := ascii "b" }] := by decide +kernel
  cases h : readConfig (ascii "peer a 1\nlistenPort 5\npeer b 2\n") (Config.start Config.blank) with
  | error stop => rw [h] at hhead; cases hhead
  | ok cfg =>
    obtain ⟨fuel, l, calls, hl, hcalls, hpeers⟩ := peers_called h
      (fun _ => { port := 7, IP := [], next := some 0 }) fun i _ => if i = 0 then -1 else 3
    rw [h] at hhead
    exact ⟨cfg, fuel, l, calls, rfl, hl, hcalls, hpeers.trans (Option.some.inj hhead)⟩

end Cs352Proxy
