import Cs352Proxy.Uthash
import Cs352Proxy.Base.Doubly
import Mathlib.Data.List.Perm.Subperm

/-!
# Buckets

The buckets of a uthash table as doubly linked lists, and what adding an element does to them.

* `hhField`: a pointer field of every handle, as the links of a list.
* `SameApp`: two heaps that differ in links in buckets only.
* `Chains`: every bucket is linked from the elements that hash to it.
* `hashExpandBuckets_some`: an expansion takes each chain from its front and puts every element to
  the front of its new chain. No element is lost, and a chain comes out in reverse order.
* `WithinBound`: how long a chain may become.
-/

namespace Cs352Proxy

open Base

section Fields

variable {α β : Type} {elems elems' : List (Elem α)} {a b : Addr} {p q : Ptr}
  {f : UtHashHandle → UtHashHandle} {g : UtHashHandle → Ptr}

/-! ## Fields of handles -/

/-- A pointer in the handle at `a`. -/
def hhField (g : UtHashHandle → Ptr) (elems : List (Elem α)) (a : Addr) : Ptr :=
  ((elems[a]?).map fun e => g e.hh).join

theorem hhField_of_get {e : Elem α} (h : elems[a]? = some e) : hhField g elems a = g e.hh := by
  simp [hhField, h]

theorem hhField_of_le (h : elems.length ≤ a) : hhField g elems a = none := by
  rw [hhField, List.getElem?_eq_none h]
  rfl

theorem getElem?_setHh : (setHh a f elems)[b]? =
    (elems[b]?).map fun e => if a = b then { e with hh := f e.hh } else e := by
  rw [setHh, List.getElem?_modify]
  split <;> simp

@[simp] theorem length_setHh : (setHh a f elems).length = elems.length := by simp [setHh]

@[simp] theorem length_setHhIf : (setHhIf p f elems).length = elems.length := by
  cases p <;> simp [setHhIf]

theorem getElem?_setHhIf : (setHhIf p f elems)[b]? =
    (elems[b]?).map fun e => if p = some b then { e with hh := f e.hh } else e := by
  cases p with
  | none => simp [setHhIf]
  | some a => simp [setHhIf, getElem?_setHh]

theorem hhField_setHhIf_of_eq (hg : ∀ hh, g (f hh) = g hh) :
    hhField g (setHhIf p f elems) = hhField g elems := by
  funext b
  rw [hhField, getElem?_setHhIf, hhField]
  cases elems[b]? with
  | none => rfl
  | some e =>
    simp only [Option.map_some, Option.join_some]
    split
    · exact hg e.hh
    · rfl

theorem hhField_setHhIf (hg : ∀ hh, g (f hh) = q) (hb : b < elems.length) :
    hhField g (setHhIf p f elems) b = if p = some b then q else hhField g elems b := by
  rw [hhField, getElem?_setHhIf, hhField, List.getElem?_eq_getElem hb]
  simp only [Option.map_some, Option.join_some]
  split
  · exact hg _
  · rfl

theorem setHh_eq_setHhIf : setHh a f elems = setHhIf (some a) f elems := rfl

/-! ### What the links in the buckets do not touch -/

/-- An element without its links in a bucket. -/
def Elem.bare (e : Elem α) : Elem α := { e with hh := { e.hh with hhPrev := none, hhNext := none } }

/-- The two heaps differ in links in buckets only. -/
def SameApp (elems elems' : List (Elem α)) : Prop := elems'.map Elem.bare = elems.map Elem.bare

theorem SameApp.get (h : SameApp elems elems') (a : Addr) :
    (elems'[a]?).map Elem.bare = (elems[a]?).map Elem.bare := by
  rw [← List.getElem?_map, ← List.getElem?_map]
  exact congrArg (·[a]?) h

theorem SameApp.length (h : SameApp elems elems') : elems'.length = elems.length := by
  have hlen := congrArg List.length h
  rwa [List.length_map, List.length_map] at hlen

theorem SameApp.trans {elems'' : List (Elem α)} (h : SameApp elems elems') (h' : SameApp elems' elems'') :
    SameApp elems elems'' := Eq.trans h' h

theorem sameApp_setHhIf (hf : ∀ hh, { f hh with hhPrev := none, hhNext := none } =
    { hh with hhPrev := none, hhNext := none }) : SameApp elems (setHhIf p f elems) := by
  refine List.ext_getElem? fun b => ?_
  rw [List.getElem?_map, List.getElem?_map, getElem?_setHhIf, Option.map_map]
  congr 1
  funext e
  simp only [Function.comp_apply]
  split
  · simp only [Elem.bare, hf]
  · rfl

/-- A function of an element that does not look at its links in a bucket. -/
theorem SameApp.map_eq {F : Elem α → β} (h : SameApp elems elems') (hF : ∀ e, F e = F e.bare)
    (a : Addr) : (elems'[a]?).map F = (elems[a]?).map F := by
  have hcomp : ∀ o : Option (Elem α), o.map F = (o.map Elem.bare).map F := by
    intro o
    cases o with
    | none => rfl
    | some e => exact congrArg some (hF e)
  rw [hcomp, h.get, ← hcomp]

theorem SameApp.exists_get (h : SameApp elems elems') {P : Elem α → Prop} (hP : ∀ e, P e = P e.bare)
    {e : Elem α} (he : elems[a]? = some e) (hPe : P e) : ∃ e', elems'[a]? = some e' ∧ P e' := by
  have hmap := h.map_eq hP a
  rw [he, Option.map_some] at hmap
  obtain ⟨e', he', hPe'⟩ := Option.map_eq_some_iff.mp hmap
  exact ⟨e', he', hPe' ▸ hPe⟩

theorem SameApp.hhField_eq (h : SameApp elems elems')
    (hg : ∀ hh, g hh = g { hh with hhPrev := none, hhNext := none }) :
    hhField g elems' = hhField g elems := by
  funext a
  have hmap := h.map_eq (F := fun e => g e.hh) (fun e => hg e.hh) a
  rw [hhField, hhField, hmap]

/-! ## Keys and buckets -/

/-- The bucket of the element at `a` among `n`. -/
def bktAt (elems : List (Elem α)) (n : Nat) (a : Addr) : Nat :=
  ((elems[a]?).map fun e => hashToBkt e.hh.hashv n).getD 0

theorem hashToBkt_lt (hashv : U32) (k : Nat) : hashToBkt hashv (2 ^ k) < 2 ^ k := by
  have hpos : 0 < 2 ^ k := Nat.two_pow_pos k
  have hle : hashToBkt hashv (2 ^ k) ≤ (2 ^ k - 1) % 2 ^ 32 := by
    rw [hashToBkt, BitVec.toNat_and, BitVec.toNat_ofNat]
    exact Nat.and_le_right
  have hmod := Nat.mod_le (2 ^ k - 1) (2 ^ 32)
  omega

theorem bktAt_lt (elems : List (Elem α)) (k : Nat) (a : Addr) : bktAt elems (2 ^ k) a < 2 ^ k := by
  unfold bktAt
  cases elems[a]? with
  | none => exact Nat.two_pow_pos k
  | some e => exact hashToBkt_lt _ _

theorem SameApp.bktAt_eq (h : SameApp elems elems') : bktAt elems' = bktAt elems := by
  funext n a
  rw [bktAt, bktAt, h.map_eq (F := fun e => hashToBkt e.hh.hashv n) fun _ => rfl]

end Fields

/-! ## Chains -/

section Push

variable {α : Type} {elems : List (Elem α)} {x : Addr} {p q : Ptr} {as : List Addr}

/-- The elements `as`, linked in a bucket from `p` on. -/
def BktList (elems : List (Elem α)) (p : Ptr) (as : List Addr) : Prop :=
  ∃ last, DSeg (hhField (·.hhPrev) elems) (hhField (·.hhNext) elems) none p as last none

/-- The writes that put `x` in front of a chain. -/
def pushBkt (x : Addr) (p : Ptr) (elems : List (Elem α)) : List (Elem α) :=
  setHhIf p (fun hh => { hh with hhPrev := some x })
    (setHh x (fun hh => { hh with hhPrev := none, hhNext := p }) elems)

theorem hhPrev_pushBkt {b : Addr} (hb : b < elems.length) :
    hhField (·.hhPrev) (pushBkt x p elems) b =
      if p = some b then some x else if x = b then none else hhField (·.hhPrev) elems b := by
  rw [pushBkt, hhField_setHhIf (fun _ => by rfl) (by simpa using hb), setHh_eq_setHhIf,
    hhField_setHhIf (fun _ => by rfl) hb]
  simp only [Option.some.injEq]

theorem hhNext_pushBkt {b : Addr} (hb : b < elems.length) :
    hhField (·.hhNext) (pushBkt x p elems) b = if x = b then p else hhField (·.hhNext) elems b := by
  rw [pushBkt, hhField_setHhIf_of_eq (fun _ => by rfl), setHh_eq_setHhIf,
    hhField_setHhIf (fun _ => by rfl) hb]
  simp only [Option.some.injEq]

theorem sameApp_pushBkt (x : Addr) (p : Ptr) (elems : List (Elem α)) :
    SameApp elems (pushBkt x p elems) := by
  unfold pushBkt
  rw [setHh_eq_setHhIf]
  exact (sameApp_setHhIf fun _ => by rfl).trans (sameApp_setHhIf fun _ => by rfl)

theorem hhNext_pushBkt_of_ne {b : Addr} (hne : x ≠ b) :
    hhField (·.hhNext) (pushBkt x p elems) b = hhField (·.hhNext) elems b := by
  by_cases hlt : b < elems.length
  · exact (hhNext_pushBkt hlt).trans (if_neg hne)
  · have hle := Nat.le_of_not_lt hlt
    have hle' := Nat.le_trans (Nat.le_of_eq (sameApp_pushBkt x p elems).length) hle
    exact (hhField_of_le hle').trans (hhField_of_le hle).symm

theorem BktList.push (hs : BktList elems p as) (hnd : (x :: as).Nodup)
    (hlen : ∀ a ∈ x :: as, a < elems.length) : BktList (pushBkt x p elems) (some x) (x :: as) := by
  obtain ⟨last, hs⟩ := hs
  obtain ⟨hx, hnd⟩ := List.nodup_cons.mp hnd
  have hpx : p ≠ some x := by
    rw [hs.head_eq]
    intro hhead
    exact hx (List.mem_of_head? hhead)
  have hne : ∀ a ∈ as, x ≠ a := fun a ha hxa => hx (hxa ▸ ha)
  refine ⟨_, hs.push hnd ?_ ?_ (fun a ha => ?_) (fun a ha => ?_)⟩
  · rw [hhPrev_pushBkt (hlen x (by simp)), if_neg hpx, if_pos rfl]
  · rw [hhNext_pushBkt (hlen x (by simp)), if_pos rfl]
  · rw [hhPrev_pushBkt (hlen a (by simp [ha])), if_neg (hne a ha)]
  · rw [hhNext_pushBkt (hlen a (by simp [ha])), if_neg (hne a ha)]

theorem BktList.push_other (hs : BktList elems q as) (hlen : ∀ a ∈ as, a < elems.length)
    (hx : x ∉ as) (hp : ∀ a ∈ as, p ≠ some a) : BktList (pushBkt x p elems) q as := by
  obtain ⟨last, hs⟩ := hs
  refine ⟨last, hs.congr fun a ha => ?_⟩
  have hne : x ≠ a := fun hxa => hx (hxa ▸ ha)
  rw [hhPrev_pushBkt (hlen a ha), hhNext_pushBkt (hlen a ha), if_neg (hp a ha), if_neg hne, if_neg hne]
  exact ⟨rfl, rfl⟩

end Push

/-- Every bucket holds the elements that hash to it. -/
structure Chains {α : Type} (elems : List (Elem α)) (tbl : UtHashTable) (items : List Addr)
    (chain : Nat → List Addr) : Prop where
  size : tbl.numBuckets = 2 ^ tbl.log2NumBuckets
  length : tbl.buckets.length = tbl.numBuckets
  bucket : ∀ i b, tbl.buckets[i]? = some b → b.count = (chain i).length ∧
    BktList elems b.hhHead (chain i)
  nodup : ∀ i, (chain i).Nodup
  mem : ∀ i a, a ∈ chain i ↔ a ∈ items ∧ bktAt elems tbl.numBuckets a = i

/-! ## Expansion -/

section Expand

variable {α : Type} {elems : List (Elem α)} {tbl : UtHashTable} {items done : List Addr}
  {chain : Nat → List Addr} {n ideal : Nat} {x : Expansion α} {thh : Addr}

/-- What `done`, in the order they were moved, make of bucket `j` of `2 * n`. -/
def newChain (elems : List (Elem α)) (n j : Nat) (done : List Addr) : List Addr :=
  (done.filter fun a => bktAt elems (n * 2) a = j).reverse

/-- The count and the multiplier that go with a chain of `len` elements. -/
def BktSized (ideal len : Nat) (b : UtHashBucket) : Prop :=
  b.count = len ∧ b.expandMult = if len > ideal then len / ideal else 0

/-- The elements `done` have been moved, the others not yet. -/
structure Moved (elems : List (Elem α)) (n ideal : Nat) (done : List Addr) (x : Expansion α) :
    Prop where
  same : SameApp elems x.elems
  length : x.newBuckets.length = n * 2
  bucket : ∀ j b, x.newBuckets[j]? = some b →
    BktSized ideal (newChain elems n j done).length b ∧
      BktList x.elems b.hhHead (newChain elems n j done)
  rest : ∀ a, a ∉ done → hhField (·.hhNext) x.elems a = hhField (·.hhNext) elems a

theorem newChain_snoc (elems : List (Elem α)) (n j : Nat) (done : List Addr) (a : Addr) :
    newChain elems n j (done ++ [a]) =
      if bktAt elems (n * 2) a = j then a :: newChain elems n j done else newChain elems n j done := by
  unfold newChain
  rw [List.filter_append, List.filter_singleton]
  split <;> simp_all

theorem mem_newChain {j : Nat} {a : Addr} :
    a ∈ newChain elems n j done ↔ a ∈ done ∧ bktAt elems (n * 2) a = j := by
  simp [newChain]

theorem expandItem_some (hm : Moved elems n ideal done x) (hn : ∃ k, n = 2 ^ k)
    (hnd : (done ++ [thh]).Nodup) (hlen : ∀ a ∈ done ++ [thh], a < elems.length) :
    ∃ x', expandItem n ideal thh x = some (hhField (·.hhNext) elems thh, x') ∧
      Moved elems n ideal (done ++ [thh]) x' := by
  have hdone : thh ∉ done := fun h => (List.nodup_append.mp hnd).2.2 thh h thh (by simp) rfl
  have hlt : thh < x.elems.length := by rw [hm.same.length]; exact hlen thh (by simp)
  have hget := List.getElem?_eq_getElem hlt
  have hbkt : hashToBkt x.elems[thh].hh.hashv (n * 2) = bktAt elems (n * 2) thh := by
    rw [← congrFun (congrFun hm.same.bktAt_eq (n * 2)) thh, bktAt, hget]
    rfl
  have hbkt_lt : bktAt elems (n * 2) thh < x.newBuckets.length := by
    obtain ⟨k, rfl⟩ := hn
    rw [hm.length, ← Nat.pow_succ]
    exact bktAt_lt elems (k + 1) thh
  obtain ⟨newbkt, hnewbkt⟩ : ∃ b, x.newBuckets[bktAt elems (n * 2) thh]? = some b :=
    ⟨_, List.getElem?_eq_getElem hbkt_lt⟩
  obtain ⟨⟨hcount, hmult⟩, hlist⟩ := hm.bucket _ _ hnewbkt
  have hnext : x.elems[thh].hh.hhNext = hhField (·.hhNext) elems thh := by
    rw [← hm.rest thh hdone, hhField_of_get hget]
  refine ⟨_, by simp only [expandItem, hget, hbkt, hnewbkt, hnext, Option.bind_eq_bind,
    Option.bind_some]; rfl, ?_⟩
  have hin : ∀ j, ∀ a ∈ newChain elems n j done, a < x.elems.length := by
    intro j a ha
    rw [hm.same.length]
    exact hlen a (by simp [(mem_newChain.mp ha).1])
  have hhead : ∀ a, newbkt.hhHead = some a → a ∈ newChain elems n (bktAt elems (n * 2) thh) done := by
    intro a ha
    obtain ⟨last, hs⟩ := hlist
    rw [hs.head_eq] at ha
    exact List.mem_of_head? ha
  refine ⟨hm.same.trans (sameApp_pushBkt thh newbkt.hhHead x.elems), by simpa using hm.length, ?_, ?_⟩
  · intro j b hb
    rw [newChain_snoc]
    rw [List.getElem?_set] at hb
    by_cases hj : bktAt elems (n * 2) thh = j
    · subst hj
      rw [if_pos rfl, if_pos hbkt_lt] at hb
      cases hb
      rw [if_pos rfl]
      refine ⟨⟨by rw [hcount]; rfl, ?_⟩, ?_⟩
      · rw [List.length_cons, ← hcount]
        by_cases hideal : newbkt.count + 1 > ideal
        · rw [if_pos hideal, if_pos hideal]
        · rw [if_neg hideal, if_neg hideal, hmult, ← hcount, if_neg (by omega)]
      · refine hlist.push (List.nodup_cons.mpr ⟨fun h => hdone (mem_newChain.mp h).1, ?_⟩) ?_
        · exact List.nodup_reverse.mpr ((List.nodup_append.mp hnd).1.filter _)
        · intro a ha
          rcases List.mem_cons.mp ha with rfl | ha
          · exact hlt
          · exact hin _ a ha
    · rw [if_neg hj] at hb
      rw [if_neg hj]
      obtain ⟨hsized, hother⟩ := hm.bucket j b hb
      refine ⟨hsized, hother.push_other (hin j) (fun h => hdone (mem_newChain.mp h).1) ?_⟩
      intro a ha hpa
      exact hj ((mem_newChain.mp (hhead a hpa)).2.symm.trans (mem_newChain.mp ha).2)
  · intro a ha
    rw [← hm.rest a fun h => ha (by simp [h])]
    exact hhNext_pushBkt_of_ne fun h => ha (by simp [h])

theorem expandChain_some {cs : List Addr} (hn : ∃ k, n = 2 ^ k) :
    ∀ {fuel : Nat} {back p last : Ptr} {done : List Addr} {x : Expansion α},
      DSeg (hhField (·.hhPrev) elems) (hhField (·.hhNext) elems) back p cs last none →
      Moved elems n ideal done x → (done ++ cs).Nodup → (∀ a ∈ done ++ cs, a < elems.length) →
      cs.length < fuel →
      ∃ x', expandChain n ideal fuel p x = some x' ∧ Moved elems n ideal (done ++ cs) x' := by
  induction cs with
  | nil =>
    intro fuel back p last done x hs hm _ _ hfuel
    obtain ⟨rfl, _⟩ := hs
    obtain ⟨k, rfl⟩ := Nat.exists_eq_add_one.mpr hfuel
    exact ⟨x, rfl, by rwa [List.append_nil]⟩
  | cons a cs ih =>
    intro fuel back p last done x hs hm hnd hlen hfuel
    obtain ⟨rfl, _, hrest⟩ := hs
    obtain ⟨k, rfl⟩ := Nat.exists_eq_add_one.mpr (Nat.zero_lt_of_lt hfuel)
    rw [show done ++ a :: cs = (done ++ [a]) ++ cs by simp] at hnd hlen ⊢
    obtain ⟨x₁, hitem, hm₁⟩ := expandItem_some hm hn (List.nodup_append.mp hnd).1
      fun b hb => hlen b (List.mem_append_left _ hb)
    obtain ⟨x', hchain, hm'⟩ := ih hrest hm₁ hnd hlen (Nat.lt_of_succ_lt_succ hfuel)
    exact ⟨x', by simp [expandChain, hitem, hchain], hm'⟩

/-- The chains of `k` buckets from `i` on, one after the other. -/
def chainsFrom (chain : Nat → List Addr) (i k : Nat) : List Addr := (List.range' i k).flatMap chain

theorem chainsFrom_succ (chain : Nat → List Addr) (i k : Nat) :
    chainsFrom chain i (k + 1) = chain i ++ chainsFrom chain (i + 1) k := by
  rw [chainsFrom, List.range'_succ, List.flatMap_cons]
  rfl

theorem expandLoop_some (hn : ∃ k, n = 2 ^ k) {fuel : Nat} {bs : List UtHashBucket} :
    ∀ {i : Nat} {done : List Addr} {x : Expansion α},
      (∀ k b, bs[k]? = some b → BktList elems b.hhHead (chain (i + k))) →
      Moved elems n ideal done x → (done ++ chainsFrom chain i bs.length).Nodup →
      (∀ a ∈ done ++ chainsFrom chain i bs.length, a < elems.length) →
      (∀ j, (chain j).length < fuel) →
      ∃ x', expandLoop fuel n ideal bs x = some x' ∧
        Moved elems n ideal (done ++ chainsFrom chain i bs.length) x' := by
  induction bs with
  | nil =>
    intro i done x _ hm _ _ _
    exact ⟨x, rfl, by simpa [chainsFrom] using hm⟩
  | cons b bs ih =>
    intro i done x hbs hm hnd hlen hfuel
    rw [List.length_cons, chainsFrom_succ, ← List.append_assoc] at hnd hlen ⊢
    obtain ⟨last, hs⟩ := hbs 0 b rfl
    obtain ⟨x₁, hchain, hm₁⟩ := expandChain_some hn hs hm (List.nodup_append.mp hnd).1
      (fun a ha => hlen a (List.mem_append_left _ ha)) (hfuel _)
    have hbs' : ∀ k b', bs[k]? = some b' → BktList elems b'.hhHead (chain (i + 1 + k)) := by
      intro k b' hb'
      rw [Nat.add_assoc, Nat.add_comm 1 k]
      exact hbs (k + 1) b' hb'
    obtain ⟨x', hloop, hm'⟩ := ih hbs' hm₁ hnd hlen hfuel
    exact ⟨x', by simp only [expandLoop, hchain, Option.bind_eq_bind, Option.bind_some, hloop], hm'⟩

end Expand

section Chains

variable {α : Type} {elems elems' : List (Elem α)} {tbl : UtHashTable} {items : List Addr}
  {chain : Nat → List Addr}

namespace Chains

theorem two_pow (hc : Chains elems tbl items chain) : ∃ k, tbl.numBuckets = 2 ^ k := ⟨_, hc.size⟩

theorem bkt_lt (hc : Chains elems tbl items chain) (a : Addr) :
    bktAt elems tbl.numBuckets a < tbl.numBuckets := by
  rw [hc.size]
  exact bktAt_lt elems _ a

theorem mem_all (hc : Chains elems tbl items chain) {a : Addr} :
    a ∈ chainsFrom chain 0 tbl.numBuckets ↔ a ∈ items := by
  simp only [chainsFrom, List.mem_flatMap, List.mem_range'_1, hc.mem]
  constructor
  · intro h
    obtain ⟨_, _, ha, _⟩ := h
    exact ha
  · intro ha
    exact ⟨_, ⟨Nat.zero_le _, by simpa using hc.bkt_lt a⟩, ha, rfl⟩

theorem nodup_all (hc : Chains elems tbl items chain) (i k : Nat) : (chainsFrom chain i k).Nodup := by
  refine List.nodup_flatMap.mpr ⟨fun j _ => hc.nodup j, ?_⟩
  have hrange : (List.range' i k).Nodup := List.nodup_range'
  refine hrange.imp fun {j j'} hne => ?_
  intro a ha ha'
  exact hne (((hc.mem j a).mp ha).2.symm.trans ((hc.mem j' a).mp ha').2)

theorem perm_all (hc : Chains elems tbl items chain) (hnd : items.Nodup) :
    (chainsFrom chain 0 tbl.numBuckets).Perm items :=
  (List.perm_ext_iff_of_nodup (hc.nodup_all _ _) hnd).mpr fun _ => hc.mem_all

theorem length_le (hc : Chains elems tbl items chain) (i : Nat) : (chain i).length ≤ items.length :=
  (List.subperm_of_subset (hc.nodup i) fun _ ha => ((hc.mem i _).mp ha).1).length_le

end Chains

/-- How long the chains may be: the expansion keeps them short until it is given up. -/
def WithinBound (tbl : UtHashTable) : Prop :=
  tbl.noexpand = 1 ∨ ∀ b ∈ tbl.buckets,
    b.count ≤ (b.expandMult + 1) * max hashBktCapacityThresh tbl.idealChainMaxlen

theorem BktSized.within {ideal len : Nat} {b : UtHashBucket} (hb : BktSized ideal len b)
    (hideal : 0 < ideal) :
    b.count ≤ (b.expandMult + 1) * max hashBktCapacityThresh ideal := by
  obtain ⟨hcount, hmult⟩ := hb
  rw [hcount, hmult]
  split
  · calc len ≤ (len / ideal + 1) * ideal := by
          rw [Nat.mul_comm]; exact Nat.le_of_lt (Nat.lt_mul_div_succ len hideal)
      _ ≤ (len / ideal + 1) * max hashBktCapacityThresh ideal :=
          Nat.mul_le_mul_left _ (Nat.le_max_right _ _)
  · omega

theorem newIdealMaxlen_pos (hsize : tbl.numBuckets = 2 ^ tbl.log2NumBuckets)
    (hitems : 0 < tbl.numItems) : 0 < newIdealMaxlen tbl := by
  have hn : tbl.numBuckets * 2 = 2 ^ (tbl.log2NumBuckets + 1) := by rw [hsize, Nat.pow_succ]
  unfold newIdealMaxlen
  rw [hn, Nat.and_two_pow_sub_one_eq_mod, Nat.shiftRight_eq_div_pow]
  by_cases hmod : tbl.numItems % 2 ^ (tbl.log2NumBuckets + 1) = 0
  · have hdvd := Nat.div_pos (Nat.le_of_dvd hitems (Nat.dvd_of_mod_eq_zero hmod))
      (Nat.two_pow_pos _)
    omega
  · rw [if_pos hmod]
    exact Nat.succ_pos _

/-- What the expansion leaves alone. -/
structure SameTable (tbl tbl' : UtHashTable) : Prop where
  numItems : tbl'.numItems = tbl.numItems
  tail : tbl'.tail = tbl.tail

theorem hashExpandBuckets_some (hc : Chains elems tbl items chain)
    (hlen : ∀ a ∈ items, a < elems.length) {fuel : Nat} (hfuel : items.length < fuel) :
    ∃ elems' tbl' chain', hashExpandBuckets fuel elems tbl = some (elems', tbl') ∧
      SameApp elems elems' ∧ Chains elems' tbl' items chain' ∧ SameTable tbl tbl' ∧
      (0 < tbl.numItems → WithinBound tbl') := by
  let x₀ : Expansion α :=
    { elems, newBuckets := List.replicate (2 * tbl.numBuckets) UtHashBucket.zero, nonidealItems := 0 }
  have hm₀ : Moved elems tbl.numBuckets (newIdealMaxlen tbl) [] x₀ := by
    refine ⟨rfl, by simp [x₀, Nat.mul_comm], fun j b hb => ?_, fun _ _ => rfl⟩
    obtain ⟨_, rfl⟩ := List.mem_replicate.mp (List.mem_of_getElem? hb)
    exact ⟨⟨rfl, by simp [newChain, UtHashBucket.zero]⟩, none, rfl, rfl⟩
  have hbs : ∀ k b, tbl.buckets[k]? = some b → BktList elems b.hhHead (chain (0 + k)) := by
    intro k b hb
    rw [Nat.zero_add]
    exact (hc.bucket k b hb).2
  obtain ⟨x, hloop, hm⟩ := expandLoop_some hc.two_pow hbs hm₀
    (by rw [List.nil_append]; exact hc.nodup_all _ _)
    (by rw [List.nil_append, hc.length]; exact fun a ha => hlen a (hc.mem_all.mp ha))
    (fun j => Nat.lt_of_le_of_lt (hc.length_le j) hfuel)
  rw [List.nil_append, hc.length] at hm
  refine ⟨x.elems, tbl.expanded x,
    fun j => newChain elems tbl.numBuckets j (chainsFrom chain 0 tbl.numBuckets), ?_, hm.same, ?_,
    ⟨rfl, rfl⟩, fun hitems => .inr fun b hb => ?_⟩
  · simp only [hashExpandBuckets]
    rw [hloop]
    rfl
  · constructor
    · simp only [UtHashTable.expanded, hc.size, Nat.pow_succ]
    · exact hm.length
    · intro j b hb
      obtain ⟨⟨hcount, _⟩, hlist⟩ := hm.bucket j b hb
      exact ⟨hcount, hlist⟩
    · intro j
      exact List.nodup_reverse.mpr ((hc.nodup_all _ _).filter _)
    · intro j a
      rw [mem_newChain, hc.mem_all, hm.same.bktAt_eq]
      rfl
  · obtain ⟨j, hj⟩ := List.mem_iff_getElem?.mp hb
    exact (hm.bucket j b hj).1.within (newIdealMaxlen_pos hc.size hitems)

/-! ## Adding to a bucket -/

/-- The chains with `add` in front of its own. -/
def addedChain (elems : List (Elem α)) (n : Nat) (add : Addr) (chain : Nat → List Addr) (i : Nat) :
    List Addr :=
  if bktAt elems n add = i then add :: chain i else chain i

theorem Chains.head_mem (hc : Chains elems tbl items chain) {i : Nat} {b : UtHashBucket} {a : Addr}
    (hb : tbl.buckets[i]? = some b) (ha : b.hhHead = some a) : a ∈ chain i := by
  obtain ⟨_, last, hs⟩ := hc.bucket i b hb
  rw [hs.head_eq] at ha
  exact List.mem_of_head? ha

theorem Chains.add (hc : Chains elems tbl items chain) {add : Addr} {b : UtHashBucket}
    (hadd : add ∉ items) (hlen : ∀ a ∈ items ++ [add], a < elems.length)
    (hb : tbl.buckets[bktAt elems tbl.numBuckets add]? = some b) :
    Chains (pushBkt add b.hhHead elems)
      { tbl with
        buckets := tbl.buckets.set (bktAt elems tbl.numBuckets add)
          { b with count := b.count + 1, hhHead := some add } }
      (items ++ [add]) (addedChain elems tbl.numBuckets add chain) := by
  have hnotin : ∀ i, add ∉ chain i := fun i h => hadd ((hc.mem i add).mp h).1
  have hin : ∀ i, ∀ a ∈ chain i, a < elems.length := fun i a ha =>
    hlen a (List.mem_append_left _ ((hc.mem i a).mp ha).1)
  have hsame := sameApp_pushBkt add b.hhHead elems
  refine ⟨hc.size, by simpa using hc.length, fun i b' hb' => ?_, fun i => ?_, fun i a => ?_⟩
  · obtain ⟨hcount, hlist⟩ := hc.bucket _ b hb
    rw [List.getElem?_set] at hb'
    unfold addedChain
    by_cases hi : bktAt elems tbl.numBuckets add = i
    · subst hi
      rw [if_pos rfl, if_pos (List.getElem?_eq_some_iff.mp hb).1] at hb'
      cases hb'
      rw [if_pos rfl]
      refine ⟨by rw [hcount]; rfl, hlist.push (List.nodup_cons.mpr ⟨hnotin _, hc.nodup _⟩) ?_⟩
      intro a ha
      rcases List.mem_cons.mp ha with rfl | ha
      · exact hlen a (by simp)
      · exact hin _ a ha
    · rw [if_neg hi] at hb'
      rw [if_neg hi]
      obtain ⟨hcount', hother⟩ := hc.bucket i b' hb'
      refine ⟨hcount', hother.push_other (hin i) (hnotin i) fun a ha hpa => hi ?_⟩
      exact ((hc.mem _ a).mp (hc.head_mem hb hpa)).2.symm.trans ((hc.mem i a).mp ha).2
  · unfold addedChain
    split
    · exact List.nodup_cons.mpr ⟨hnotin i, hc.nodup i⟩
    · exact hc.nodup i
  · rw [hsame.bktAt_eq]
    unfold addedChain
    by_cases hi : bktAt elems tbl.numBuckets add = i
    · rw [if_pos hi, List.mem_cons, List.mem_append, List.mem_singleton, hc.mem]
      constructor
      · rintro (rfl | ⟨ha, hbkt⟩)
        · exact ⟨.inr rfl, hi⟩
        · exact ⟨.inl ha, hbkt⟩
      · rintro ⟨ha | rfl, hbkt⟩
        · exact .inr ⟨ha, hbkt⟩
        · exact .inl rfl
    · rw [if_neg hi, List.mem_append, List.mem_singleton, hc.mem]
      constructor
      · rintro ⟨ha, hbkt⟩
        exact ⟨.inl ha, hbkt⟩
      · rintro ⟨ha | rfl, hbkt⟩
        · exact ⟨ha, hbkt⟩
        · exact absurd hbkt hi

theorem hashAddToBkt_some (hc : Chains elems tbl items chain) {add : Addr} (hadd : add ∉ items)
    (hlen : ∀ a ∈ items ++ [add], a < elems.length) (hitems : 0 < tbl.numItems) {fuel : Nat}
    (hfuel : (items ++ [add]).length < fuel) :
    ∃ elems' tbl' chain',
      hashAddToBkt fuel (bktAt elems tbl.numBuckets add) add elems tbl = some (elems', tbl') ∧
      SameApp elems elems' ∧ Chains elems' tbl' (items ++ [add]) chain' ∧ SameTable tbl tbl' ∧
      (WithinBound tbl → WithinBound tbl') := by
  have hlt : bktAt elems tbl.numBuckets add < tbl.buckets.length := by
    rw [hc.length]
    exact hc.bkt_lt add
  have hb := List.getElem?_eq_getElem hlt
  generalize tbl.buckets[bktAt elems tbl.numBuckets add] = b at hb
  have hsame := sameApp_pushBkt add b.hhHead elems
  have hc' := hc.add hadd hlen hb
  have hlen' : ∀ a ∈ items ++ [add], a < (pushBkt add b.hhHead elems).length := by
    rw [hsame.length]
    exact hlen
  simp only [hashAddToBkt, hb, Option.bind_eq_bind, Option.bind_some]
  split
  · obtain ⟨elems', tbl', chain', hexpand, hsame', hchains, htable, hbound⟩ :=
      hashExpandBuckets_some hc' hlen' hfuel
    exact ⟨elems', tbl', chain', hexpand, hsame.trans hsame', hchains, ⟨htable.numItems, htable.tail⟩,
      fun _ => hbound hitems⟩
  · rename_i hshort
    refine ⟨_, _, _, rfl, hsame, hc', ⟨rfl, rfl⟩, fun hbound => ?_⟩
    rcases hbound with hno | hbound
    · exact .inl hno
    by_cases hno : tbl.noexpand = 1
    · exact .inl hno
    refine .inr fun b' hb' => ?_
    rcases List.mem_or_eq_of_mem_set hb' with hb' | rfl
    · exact hbound b' hb'
    · have hlt : b.count + 1 < (b.expandMult + 1) * hashBktCapacityThresh :=
        Nat.lt_of_not_le fun hle => hshort ⟨hle, hno⟩
      have hmono := Nat.mul_le_mul_left (b.expandMult + 1)
        (Nat.le_max_left hashBktCapacityThresh tbl.idealChainMaxlen)
      exact Nat.le_of_lt (Nat.lt_of_lt_of_le hlt hmono)

end Chains

end Cs352Proxy
