import Cs352Proxy.Integrity
import Cs352Proxy.Base.Runs

/-!
# Linking

What the two macros that change a uthash table do to it. Both keep it intact.

* `hashAddKeyptr_some`: adding puts the element behind the others, whatever its key.
* `hashDelete_some`: deleting takes out that element and no other.
-/

namespace Cs352Proxy

open Base

variable {α : Type} {keyptr : α → List U8} {elems elems' : List (Elem α)} {items : List Addr}

/-! ## Adding -/

/-- The part of an element that its user and `HASH_FIND` see. -/
def Elem.face (e : Elem α) : α × Nat := (e.item, e.hh.keylen)

/-- The writes that put `add` behind `tail` in the order of adding. -/
def linkApp (keylen : Nat) (hashv : U32) (add : Addr) (tail : Ptr) (elems : List (Elem α)) :
    List (Elem α) :=
  setHh add (fun hh => { hh with hashv })
    (setHh add (fun hh => { hh with prev := tail })
      (setHhIf tail (fun hh => { hh with next := some add })
        (setHh add (fun hh => { hh with next := none, keylen }) elems)))

section LinkApp

variable {keylen : Nat} {hashv : U32} {add : Addr} {tail : Ptr} {b : Addr}

@[simp] theorem length_linkApp : (linkApp keylen hashv add tail elems).length = elems.length := by
  simp [linkApp]

/-- What happens to one handle. -/
def linkedHh (keylen : Nat) (hashv : U32) (add : Addr) (tail : Ptr) (b : Addr) (hh : UtHashHandle) :
    UtHashHandle :=
  if add = b then { hh with next := none, keylen, prev := tail, hashv }
  else if tail = some b then { hh with next := some add } else hh

theorem getElem?_linkApp (htail : tail ≠ some add) : (linkApp keylen hashv add tail elems)[b]? =
    (elems[b]?).map fun e => { e with hh := linkedHh keylen hashv add tail b e.hh } := by
  simp only [linkApp, getElem?_setHh, getElem?_setHhIf, Option.map_map]
  congr 1
  funext e
  unfold linkedHh
  by_cases hb : add = b
  · subst hb
    simp [htail]
  · by_cases ht : tail = some b <;> simp [hb, ht]

theorem hhField_linkApp {g : UtHashHandle → Ptr} (htail : tail ≠ some add) (hb : b < elems.length) :
    hhField g (linkApp keylen hashv add tail elems) b =
      g (linkedHh keylen hashv add tail b elems[b].hh) := by
  rw [hhField, getElem?_linkApp htail, List.getElem?_eq_getElem hb]
  rfl

theorem hhField_linkApp_of_eq {g : UtHashHandle → Ptr} (htail : tail ≠ some add)
    (hg : ∀ hh, g (linkedHh keylen hashv add tail b hh) = g hh) :
    hhField g (linkApp keylen hashv add tail elems) b = hhField g elems b := by
  rw [hhField, getElem?_linkApp htail, hhField, Option.map_map]
  simp only [Function.comp_def, hg]

theorem bktAt_linkApp (htail : tail ≠ some add) (n : Nat) (hb : b ≠ add) :
    bktAt (linkApp keylen hashv add tail elems) n b = bktAt elems n b := by
  rw [bktAt, getElem?_linkApp htail, bktAt, Option.map_map]
  congr 2
  funext e
  simp only [Function.comp_apply, linkedHh, if_neg hb.symm]
  split <;> rfl

end LinkApp

/-- The chains do not depend on the order of adding. -/
theorem Chains.frame {tbl tbl' : UtHashTable} {chain : Nat → List Addr}
    (hc : Chains elems tbl items chain) (hsize : tbl'.numBuckets = tbl.numBuckets)
    (hlog : tbl'.log2NumBuckets = tbl.log2NumBuckets) (hbuckets : tbl'.buckets = tbl.buckets)
    (hprev : hhField (·.hhPrev) elems' = hhField (·.hhPrev) elems)
    (hnext : hhField (·.hhNext) elems' = hhField (·.hhNext) elems)
    (hbkt : ∀ a ∈ items, bktAt elems' tbl.numBuckets a = bktAt elems tbl.numBuckets a) :
    Chains elems' tbl' items chain := by
  refine ⟨by rw [hsize, hlog, hc.size], by rw [hsize, hbuckets, hc.length], ?_, hc.nodup, ?_⟩
  · intro i b hb
    rw [hbuckets] at hb
    obtain ⟨hcount, last, hs⟩ := hc.bucket i b hb
    refine ⟨hcount, last, ?_⟩
    rw [hprev, hnext]
    exact hs
  · intro i a
    rw [hc.mem, hsize]
    exact and_congr_right fun ha => by rw [hbkt a ha]

theorem chains_makeTable (elems : List (Elem α)) (head : Addr) :
    Chains elems (hashMakeTable head) [] fun _ => [] := by
  refine ⟨rfl, rfl, fun i b hb => ?_, fun _ => List.nodup_nil, by simp⟩
  obtain ⟨_, rfl⟩ := List.mem_replicate.mp (List.mem_of_getElem? hb)
  exact ⟨rfl, none, rfl, rfl⟩

theorem withinBound_makeTable (head : Addr) : WithinBound (hashMakeTable head) := by
  refine .inr fun b hb => ?_
  obtain ⟨_, rfl⟩ := List.mem_replicate.mp hb
  exact Nat.zero_le _

theorem Chains.linkApp {tbl : UtHashTable} {chain : Nat → List Addr} {add : Addr} {tail : Ptr}
    (hc : Chains elems tbl items chain) (hadd : add ∉ items) (htail : tail ≠ some add) (keylen : Nat)
    (hashv : U32) : Chains (Cs352Proxy.linkApp keylen hashv add tail elems) tbl items chain := by
  refine hc.frame rfl rfl rfl ?_ ?_ fun a ha => bktAt_linkApp htail _ fun h => hadd (h ▸ ha)
  all_goals
    funext b
    refine hhField_linkApp_of_eq htail fun hh => ?_
    unfold linkedHh
    split
    · rfl
    · split <;> rfl

theorem app_linkApp {head tail : Ptr} {add : Addr}
    (happ : DSeg (hhField (·.prev) elems) (hhField (·.next) elems) none head items tail none)
    (hlen : ∀ a ∈ items ++ [add], a < elems.length) (hnd : items.Nodup) (hadd : add ∉ items)
    (htail : tail ≠ some add) (keylen : Nat) (hashv : U32) :
    DSeg (hhField (·.prev) (linkApp keylen hashv add tail elems))
      (hhField (·.next) (linkApp keylen hashv add tail elems)) none (head.or (some add))
      (items ++ [add]) (some add) none := by
  have hlt := hlen add (by simp)
  refine happ.snoc hnd ?_ ?_ (fun a ha => ?_) (fun a ha => ?_)
  · rw [hhField_linkApp htail hlt]
    simp [linkedHh]
  · rw [hhField_linkApp htail hlt]
    simp [linkedHh]
  · have hne : add ≠ a := fun h => hadd (h ▸ ha)
    have hlt' := hlen a (by simp [ha])
    rw [hhField_linkApp htail hlt', hhField_of_get (List.getElem?_eq_getElem hlt'), linkedHh,
      if_neg hne]
    split <;> rfl
  · have hne : add ≠ a := fun h => hadd (h ▸ ha)
    refine hhField_linkApp_of_eq htail fun hh => ?_
    rw [linkedHh, if_neg hne]
    split <;> rfl

theorem tabled_linkApp (keyptr : α → List U8) (tbl : UtHashTable) (keylen : Nat) {head tail : Ptr}
    {chain : Nat → List Addr} {add : Addr} {fuel : Nat} {e : Elem α} (hget : elems[add]? = some e)
    (hlen : ∀ a ∈ items, a < elems.length) (hnd : (items ++ [add]).Nodup)
    (happ : DSeg (hhField (·.prev) elems) (hhField (·.next) elems) none head items tail none)
    (htbl : tbl.tail = some add) (hcount : tbl.numItems = items.length + 1)
    (hc : Chains elems tbl items chain) (hbound : WithinBound tbl)
    (hfuel : items.length + 1 < fuel) :
    ∃ elems' tbl' chain',
      hashAddToBkt fuel (hashToBkt (hashJen (keyptr e.item) keylen) tbl.numBuckets) add
        (linkApp keylen (hashJen (keyptr e.item) keylen) add tail elems) tbl = some (elems', tbl') ∧
      SameApp (linkApp keylen (hashJen (keyptr e.item) keylen) add tail elems) elems' ∧
      Tabled elems' (head.or (some add)) tbl' (items ++ [add]) chain' := by
  obtain ⟨hndi, _, hdisj⟩ := List.nodup_append.mp hnd
  have hadd : add ∉ items := fun h => hdisj add h add (by simp) rfl
  have hlt : add < elems.length := (List.getElem?_eq_some_iff.mp hget).1
  have htail : tail ≠ some add := by
    rw [happ.last_eq, Option.or_none]
    exact fun h => hadd (List.mem_of_getLast? h)
  have hall : ∀ a ∈ items ++ [add], a < elems.length := by
    intro a ha
    rcases List.mem_append.mp ha with ha | ha
    · exact hlen a ha
    · rw [List.mem_singleton.mp ha]
      exact hlt
  have hbkt : hashToBkt (hashJen (keyptr e.item) keylen) tbl.numBuckets =
      bktAt (linkApp keylen (hashJen (keyptr e.item) keylen) add tail elems) tbl.numBuckets add := by
    rw [bktAt, getElem?_linkApp htail, hget]
    simp [linkedHh]
  obtain ⟨elems', tbl', chain', hok, hsame, hchains, htable, hbound'⟩ :=
    hashAddToBkt_some (hc.linkApp hadd htail keylen (hashJen (keyptr e.item) keylen)) hadd
      (by simpa using hall) (by omega) (by simpa using hfuel)
  have happ' := app_linkApp happ hall hndi hadd htail keylen (hashJen (keyptr e.item) keylen)
  refine ⟨elems', tbl', chain', by rw [hbkt]; exact hok, hsame, ?_, ?_, hchains, hbound' hbound⟩
  · rw [hsame.hhField_eq fun _ => rfl, hsame.hhField_eq fun _ => rfl, htable.tail, htbl]
    exact happ'
  · rw [htable.numItems, hcount, List.length_append, List.length_singleton]

/-- What the new element leaves, and what `SameApp` keeps of it. -/
theorem intact_linkApp {s : UtHash α} (hi : Intact keyptr s items) {add : Addr} {e : Elem α}
    {keylen : Nat} {head tail : Ptr} {tbl : UtHashTable} {chain : Nat → List Addr}
    (hget : s.elems[add]? = some e) (hnd : (items ++ [add]).Nodup) (htail : tail ≠ some add)
    (hsame : SameApp (linkApp keylen (hashJen (keyptr e.item) keylen) add tail s.elems) elems')
    (ht : Tabled elems' head tbl (items ++ [add]) chain) :
    Intact keyptr { elems := elems', head, tbl := some tbl } (items ++ [add]) ∧
      ∀ b, (elems'[b]?).map Elem.face =
        if b = add then some (e.item, keylen) else (s.elems[b]?).map Elem.face := by
  refine ⟨⟨hnd, fun a ha => ?_, .inr ⟨by simp, tbl, chain, rfl, ht⟩⟩, fun b => ?_⟩
  · have hlinked : ∃ e', (linkApp keylen (hashJen (keyptr e.item) keylen) add tail s.elems)[a]? =
        some e' ∧ Hashed keyptr e' := by
      rw [getElem?_linkApp htail]
      by_cases hadd : a = add
      · subst hadd
        exact ⟨_, by rw [hget]; rfl, by simp [Hashed, linkedHh]⟩
      · obtain ⟨e', he', hhashed⟩ := hi.elem a ((List.mem_append.mp ha).resolve_right (by simpa))
        refine ⟨_, by rw [he']; rfl, ?_⟩
        simp only [Hashed, linkedHh, if_neg (Ne.symm hadd)]
        split <;> exact hhashed
    obtain ⟨e', he', hhashed⟩ := hlinked
    exact hsame.exists_get (fun _ => rfl) he' hhashed
  · rw [hsame.map_eq (F := Elem.face) fun _ => rfl, getElem?_linkApp htail, Option.map_map]
    split
    · rename_i hb
      subst hb
      simp [hget, Elem.face, linkedHh]
    · rename_i hb
      congr 1
      funext e'
      simp only [Function.comp_apply, Elem.face, linkedHh, if_neg (Ne.symm hb)]
      split <;> rfl

theorem hashAddKeyptr_some {s : UtHash α} (hi : Intact keyptr s items) {add : Addr} {e : Elem α}
    (hget : s.elems[add]? = some e) (hadd : add ∉ items) (keylen : Nat) {fuel : Nat}
    (hfuel : items.length + 1 < fuel) :
    ∃ s', hashAddKeyptr keyptr fuel keylen add s = some s' ∧ Intact keyptr s' (items ++ [add]) ∧
      ∀ b, (s'.elems[b]?).map Elem.face =
        if b = add then some (e.item, keylen) else (s.elems[b]?).map Elem.face := by
  have hnd : (items ++ [add]).Nodup := by
    rw [List.nodup_append]
    exact ⟨hi.nodup, by simp, fun a ha b hb hab => hadd (List.mem_singleton.mp hb ▸ hab ▸ ha)⟩
  rcases hi.table with ⟨rfl, hhead⟩ | ⟨hne, tbl, chain, htbl, ht⟩
  · -- the first element brings the table
    obtain ⟨elems', tbl', chain', hok, hsame, ht'⟩ :=
      tabled_linkApp keyptr { hashMakeTable add with numItems := 1 } keylen hget hi.lt hnd ⟨rfl, rfl⟩ rfl rfl
        ((chains_makeTable s.elems add).frame rfl rfl rfl rfl rfl fun _ _ => rfl)
        (withinBound_makeTable add) hfuel
    refine ⟨_, ?_, intact_linkApp hi hget hnd (by simp) hsame ht'⟩
    simp only [hashAddKeyptr, hget, hhead, Option.bind_eq_bind, Option.bind_some]
    exact Option.bind_eq_some_iff.mpr ⟨_, hok, rfl⟩
  · obtain ⟨h, hhead⟩ : ∃ h, s.head = some h := by
      rw [ht.app.head_eq]
      exact ⟨_, List.head?_eq_some_head hne⟩
    have htail : tbl.tail ≠ some add := by
      rw [ht.app.last_eq, Option.or_none]
      exact fun h => hadd (List.mem_of_getLast? h)
    obtain ⟨elems', tbl', chain', hok, hsame, ht'⟩ :=
      tabled_linkApp keyptr { tbl with tail := some add, numItems := tbl.numItems + 1 } keylen hget hi.lt hnd ht.app rfl
        (by rw [ht.count]) (ht.chains.frame rfl rfl rfl rfl rfl fun _ _ => rfl) ht.bound hfuel
    rw [hhead] at ht'
    refine ⟨_, ?_, intact_linkApp hi hget hnd htail hsame ht'⟩
    simp only [hashAddKeyptr, hget, hhead, htbl, Option.bind_eq_bind, Option.bind_some]
    exact Option.bind_eq_some_iff.mpr ⟨_, hok, rfl⟩

/-! ## Deleting -/

/-- The part of an element that no link is in. -/
def Elem.content (e : Elem α) : α × Nat × U32 := (e.item, e.hh.keylen, e.hh.hashv)

/-- The two heaps differ in links only. -/
def SameContent (elems elems' : List (Elem α)) : Prop :=
  elems'.map Elem.content = elems.map Elem.content

section SameContent

variable {p : Ptr} {f : UtHashHandle → UtHashHandle}

theorem SameContent.trans {elems'' : List (Elem α)} (h : SameContent elems elems')
    (h' : SameContent elems' elems'') : SameContent elems elems'' := Eq.trans h' h

theorem SameContent.map_eq {β : Type} (h : SameContent elems elems') (F : α × Nat × U32 → β) (a : Addr) :
    (elems'[a]?).map (fun e => F e.content) = (elems[a]?).map fun e => F e.content := by
  have hget : (elems'.map Elem.content)[a]? = (elems.map Elem.content)[a]? := by rw [h]
  rw [List.getElem?_map, List.getElem?_map] at hget
  have hmap := congrArg (Option.map F) hget
  rwa [Option.map_map, Option.map_map] at hmap

theorem SameContent.length (h : SameContent elems elems') : elems'.length = elems.length := by
  have hlen := congrArg List.length h
  rwa [List.length_map, List.length_map] at hlen

theorem SameContent.bktAt_eq (h : SameContent elems elems') : bktAt elems' = bktAt elems := by
  funext n a
  rw [bktAt, bktAt]
  exact congrArg (Option.getD · 0) (h.map_eq (fun c => hashToBkt c.2.2 n) a)

theorem SameContent.exists_hashed (h : SameContent elems elems') {a : Addr} {e : Elem α}
    (he : elems[a]? = some e) (hhashed : Hashed keyptr e) :
    ∃ e', elems'[a]? = some e' ∧ Hashed keyptr e' := by
  have hmap := h.map_eq (fun c => c.2.2 = hashJen (keyptr c.1) c.2.1) a
  rw [he, Option.map_some] at hmap
  obtain ⟨e', he', hhashed'⟩ := Option.map_eq_some_iff.mp hmap
  exact ⟨e', he', hhashed'.mpr hhashed⟩

theorem sameContent_setHhIf (hf : ∀ hh, (f hh).keylen = hh.keylen ∧ (f hh).hashv = hh.hashv) :
    SameContent elems (setHhIf p f elems) := by
  refine List.ext_getElem? fun b => ?_
  rw [List.getElem?_map, List.getElem?_map, getElem?_setHhIf, Option.map_map]
  congr 1
  funext e
  simp only [Function.comp_apply]
  split
  · simp only [Elem.content, hf]
  · rfl

end SameContent

section Unlink

variable {hh : UtHashHandle} {b : Addr}

/-- The writes that link the neighbours of `hh` to each other, in the order of adding. -/
def unlinkApp (hh : UtHashHandle) (elems : List (Elem α)) : List (Elem α) :=
  setHhIf hh.next (fun n => { n with prev := hh.prev })
    (setHhIf hh.prev (fun p => { p with next := hh.next }) elems)

/-- The same in its bucket. -/
def unlinkBkt (hh : UtHashHandle) (elems : List (Elem α)) : List (Elem α) :=
  setHhIf hh.hhNext (fun n => { n with hhPrev := hh.hhPrev })
    (setHhIf hh.hhPrev (fun p => { p with hhNext := hh.hhNext }) elems)

theorem sameContent_unlinkApp (hh : UtHashHandle) (elems : List (Elem α)) :
    SameContent elems (unlinkApp hh elems) :=
  (sameContent_setHhIf fun _ => by exact ⟨rfl, rfl⟩).trans
    (sameContent_setHhIf fun _ => by exact ⟨rfl, rfl⟩)

theorem sameContent_unlinkBkt (hh : UtHashHandle) (elems : List (Elem α)) :
    SameContent elems (unlinkBkt hh elems) :=
  (sameContent_setHhIf fun _ => by exact ⟨rfl, rfl⟩).trans
    (sameContent_setHhIf fun _ => by exact ⟨rfl, rfl⟩)

theorem sameApp_unlinkBkt (hh : UtHashHandle) (elems : List (Elem α)) :
    SameApp elems (unlinkBkt hh elems) :=
  (sameApp_setHhIf fun _ => by rfl).trans (sameApp_setHhIf fun _ => by rfl)

theorem next_unlinkApp (hb : b < elems.length) : hhField (·.next) (unlinkApp hh elems) b =
    if hh.prev = some b then hh.next else hhField (·.next) elems b := by
  rw [unlinkApp, hhField_setHhIf_of_eq (fun _ => by rfl), hhField_setHhIf (fun _ => by rfl) hb]

theorem prev_unlinkApp (hb : b < elems.length) : hhField (·.prev) (unlinkApp hh elems) b =
    if hh.next = some b then hh.prev else hhField (·.prev) elems b := by
  rw [unlinkApp, hhField_setHhIf (fun _ => by rfl) (by simpa using hb),
    hhField_setHhIf_of_eq (fun _ => by rfl)]

theorem hhNext_unlinkBkt (hb : b < elems.length) : hhField (·.hhNext) (unlinkBkt hh elems) b =
    if hh.hhPrev = some b then hh.hhNext else hhField (·.hhNext) elems b := by
  rw [unlinkBkt, hhField_setHhIf_of_eq (fun _ => by rfl), hhField_setHhIf (fun _ => by rfl) hb]

theorem hhPrev_unlinkBkt (hb : b < elems.length) : hhField (·.hhPrev) (unlinkBkt hh elems) b =
    if hh.hhNext = some b then hh.hhPrev else hhField (·.hhPrev) elems b := by
  rw [unlinkBkt, hhField_setHhIf (fun _ => by rfl) (by simpa using hb),
    hhField_setHhIf_of_eq (fun _ => by rfl)]

theorem hhField_unlinkApp (hh : UtHashHandle) (elems : List (Elem α)) :
    hhField (·.hhPrev) (unlinkApp hh elems) = hhField (·.hhPrev) elems ∧
      hhField (·.hhNext) (unlinkApp hh elems) = hhField (·.hhNext) elems := by
  unfold unlinkApp
  constructor <;> rw [hhField_setHhIf_of_eq (fun _ => by rfl), hhField_setHhIf_of_eq (fun _ => by rfl)]

theorem app_unlinkApp {head last : Ptr} {as bs : List Addr} {a : Addr} {e : Elem α}
    (hs : DSeg (hhField (·.prev) elems) (hhField (·.next) elems) none head (as ++ a :: bs) last none)
    (hnd : (as ++ a :: bs).Nodup) (hlen : ∀ b ∈ as ++ a :: bs, b < elems.length)
    (he : elems[a]? = some e) :
    DSeg (hhField (·.prev) (unlinkApp e.hh elems)) (hhField (·.next) (unlinkApp e.hh elems)) none
      (if e.hh.prev = none then e.hh.next else head) (as ++ bs)
      (if last = some a then e.hh.prev else last) none := by
  have hprev : hhField (·.prev) elems a = e.hh.prev := hhField_of_get he
  have hnext : hhField (·.next) elems a = e.hh.next := hhField_of_get he
  obtain ⟨_, hnda, hdisj⟩ := List.nodup_append.mp hnd
  have hndb := (List.nodup_cons.mp hnda).2
  have hcross : ∀ b ∈ as, b ∉ bs := fun b hb hb' => hdisj b hb b (by simp [hb']) rfl
  have hremove := DSeg.remove (hhField (·.prev) (unlinkApp e.hh elems))
    (hhField (·.next) (unlinkApp e.hh elems)) hs hnd
    (fun b hb => by rw [next_unlinkApp (hlen b (by simp [hb])), hprev, hnext])
    (fun c hc => by rw [prev_unlinkApp (hlen c (by simp [hc])), hprev, hnext])
    (fun c hc => ?_) (fun b hb => ?_)
  · have hif : (last = some a) = (e.hh.next = none) := propext (hnext ▸ hs.last_eq_some_iff hnd)
    simp only [hprev, hnext] at hremove
    simpa only [hif] using hremove
  · -- the element before `a` is not behind it
    rw [next_unlinkApp (hlen c (by simp [hc])), if_neg]
    rw [← hprev, hs.neighbours.1]
    exact fun h => hcross c (List.mem_of_getLast? h) hc
  · rw [prev_unlinkApp (hlen b (by simp [hb])), if_neg]
    rw [← hnext, hs.neighbours.2]
    exact fun h => hcross b hb (List.mem_of_head? h)

theorem bkt_unlinkBkt {p : Ptr} {cs ds : List Addr} {a : Addr} {e : Elem α}
    (hs : BktList elems p (cs ++ a :: ds)) (hnd : (cs ++ a :: ds).Nodup)
    (hlen : ∀ b ∈ cs ++ a :: ds, b < elems.length) (he : elems[a]? = some e) :
    BktList (unlinkBkt e.hh elems) (if p = some a then e.hh.hhNext else p) (cs ++ ds) := by
  obtain ⟨last, hs⟩ := hs
  have hprev : hhField (·.hhPrev) elems a = e.hh.hhPrev := hhField_of_get he
  have hnext : hhField (·.hhNext) elems a = e.hh.hhNext := hhField_of_get he
  obtain ⟨_, hnda, hdisj⟩ := List.nodup_append.mp hnd
  have hcross : ∀ b ∈ cs, b ∉ ds := fun b hb hb' => hdisj b hb b (by simp [hb']) rfl
  have hremove := DSeg.remove (hhField (·.hhPrev) (unlinkBkt e.hh elems))
    (hhField (·.hhNext) (unlinkBkt e.hh elems)) hs hnd
    (fun b hb => by rw [hhNext_unlinkBkt (hlen b (by simp [hb])), hprev, hnext])
    (fun c hc => by rw [hhPrev_unlinkBkt (hlen c (by simp [hc])), hprev, hnext])
    (fun c hc => ?_) (fun b hb => ?_)
  · have hif : (p = some a) = (e.hh.hhPrev = none) := propext (hprev ▸ hs.first_eq_some_iff hnd)
    simp only [hprev, hnext] at hremove
    exact ⟨_, by simpa only [hif] using hremove⟩
  · rw [hhNext_unlinkBkt (hlen c (by simp [hc])), if_neg]
    rw [← hprev, hs.neighbours.1]
    exact fun h => hcross c (List.mem_of_getLast? h) hc
  · rw [hhPrev_unlinkBkt (hlen b (by simp [hb])), if_neg]
    rw [← hnext, hs.neighbours.2]
    exact fun h => hcross b hb (List.mem_of_head? h)

theorem bkt_unlinkBkt_other {p q : Ptr} {cs ds as : List Addr} {a : Addr} {e : Elem α}
    (hs : BktList elems p (cs ++ a :: ds)) (hother : BktList elems q as)
    (hlen : ∀ b ∈ as, b < elems.length) (hdisj : ∀ b ∈ as, b ∉ cs ++ a :: ds)
    (he : elems[a]? = some e) : BktList (unlinkBkt e.hh elems) q as := by
  obtain ⟨last, hs⟩ := hs
  obtain ⟨hprev, hnext⟩ := hs.neighbours
  rw [hhField_of_get he] at hprev hnext
  obtain ⟨last', hother⟩ := hother
  refine ⟨last', hother.congr fun b hb => ?_⟩
  have hb' : ∀ c ∈ cs ++ ds, c ≠ b := by
    intro c hc hcb
    exact hdisj b hb (hcb ▸ by rcases List.mem_append.mp hc with h | h <;> simp [h])
  rw [hhPrev_unlinkBkt (hlen b hb), hhNext_unlinkBkt (hlen b hb), if_neg, if_neg]
  · exact ⟨rfl, rfl⟩
  · rw [hprev]
    exact fun h => hb' b (by simp [List.mem_of_getLast? h]) rfl
  · rw [hnext]
    exact fun h => hb' b (by simp [List.mem_of_head? h]) rfl

end Unlink

theorem Chains.remove {tbl : UtHashTable} {chain : Nat → List Addr} {as bs : List Addr} {a : Addr}
    {e : Elem α} {b : UtHashBucket} (hc : Chains elems tbl (as ++ a :: bs) chain)
    (hnd : (as ++ a :: bs).Nodup) (hlen : ∀ b ∈ as ++ a :: bs, b < elems.length)
    (he : elems[a]? = some e) (hb : tbl.buckets[bktAt elems tbl.numBuckets a]? = some b) :
    Chains (unlinkBkt e.hh elems)
      { tbl with
        buckets := tbl.buckets.set (bktAt elems tbl.numBuckets a)
          { b with
            count := b.count - 1
            hhHead := if b.hhHead = some a then e.hh.hhNext else b.hhHead } }
      (as ++ bs) (fun i => (chain i).erase a) := by
  have hin : ∀ i, ∀ c ∈ chain i, c < elems.length := fun i c hc' => hlen c ((hc.mem i c).mp hc').1
  obtain ⟨cs, ds, hcd⟩ := List.append_of_mem ((hc.mem _ a).mpr ⟨by simp, rfl⟩)
  have hndc := hc.nodup (bktAt elems tbl.numBuckets a)
  obtain ⟨hcount, hlist⟩ := hc.bucket _ b hb
  rw [hcd] at hndc hcount hlist
  have hacs : a ∉ cs := fun h => (List.nodup_append.mp hndc).2.2 a h a (by simp) rfl
  have herase : (chain (bktAt elems tbl.numBuckets a)).erase a = cs ++ ds := by
    rw [hcd, List.erase_append_right _ hacs, List.erase_cons_head]
  refine ⟨hc.size, by simpa using hc.length, fun i b' hb' => ?_, fun i => (hc.nodup i).erase a,
    fun i c => ?_⟩
  · rw [List.getElem?_set] at hb'
    by_cases hi : bktAt elems tbl.numBuckets a = i
    · subst hi
      rw [if_pos rfl, if_pos (List.getElem?_eq_some_iff.mp hb).1] at hb'
      cases hb'
      rw [herase]
      refine ⟨by simp [hcount], bkt_unlinkBkt hlist hndc (fun c hc' => ?_) he⟩
      exact hin _ c (hcd ▸ hc')
    · rw [if_neg hi] at hb'
      have hnot : a ∉ chain i := fun h => hi ((hc.mem i a).mp h).2
      obtain ⟨hcount', hother⟩ := hc.bucket i b' hb'
      rw [List.erase_of_not_mem hnot]
      refine ⟨hcount', bkt_unlinkBkt_other hlist hother (hin i) (fun c hc' hmem => hi ?_) he⟩
      exact ((hc.mem _ c).mp (hcd ▸ hmem)).2.symm.trans ((hc.mem i c).mp hc').2
  · rw [(sameContent_unlinkBkt e.hh elems).bktAt_eq, (hc.nodup i).mem_erase_iff, hc.mem]
    have hne : c ∈ as ++ bs → c ≠ a := by
      rintro hmem rfl
      exact (List.nodup_cons.mp (List.nodup_middle.mp hnd)).1 hmem
    constructor
    · rintro ⟨hca, hmem, hbkt⟩
      exact ⟨by simpa [hca] using hmem, hbkt⟩
    · rintro ⟨hmem, hbkt⟩
      refine ⟨hne hmem, ?_, hbkt⟩
      rcases List.mem_append.mp hmem with h | h <;> simp [h]

/-- The last element takes the table with it. -/
theorem hashDelete_last {s : UtHash α} {a : Addr} {e : Elem α} (he : s.elems[a]? = some e)
    (hprev : e.hh.prev = none) (hnext : e.hh.next = none) :
    hashDelete a s = some { s with head := none, tbl := none } := by
  simp [hashDelete, he, hprev, hnext]

theorem Tabled.remove {head : Ptr} {tbl : UtHashTable} {chain : Nat → List Addr} {as bs : List Addr}
    {a : Addr} {e : Elem α} {b : UtHashBucket} (ht : Tabled elems head tbl (as ++ a :: bs) chain)
    (hnd : (as ++ a :: bs).Nodup) (hlen : ∀ b ∈ as ++ a :: bs, b < elems.length)
    (he : elems[a]? = some e) (hb : tbl.buckets[bktAt elems tbl.numBuckets a]? = some b) :
    Tabled (unlinkBkt e.hh (unlinkApp e.hh elems)) (if e.hh.prev = none then e.hh.next else head)
      { tbl with
        tail := if tbl.tail = some a then e.hh.prev else tbl.tail
        buckets := tbl.buckets.set (bktAt elems tbl.numBuckets a)
          { b with
            count := b.count - 1
            hhHead := if b.hhHead = some a then e.hh.hhNext else b.hhHead }
        numItems := tbl.numItems - 1 }
      (as ++ bs) fun i => (chain i).erase a := by
  obtain ⟨hprev, hnext⟩ := ht.app.neighbours
  rw [hhField_of_get he] at hprev hnext
  have hnot := (List.nodup_cons.mp (List.nodup_middle.mp hnd)).1
  have hcontent := sameContent_unlinkApp e.hh elems
  have happ := app_unlinkApp ht.app hnd hlen he
  have hsame := sameApp_unlinkBkt e.hh (unlinkApp e.hh elems)
  rw [← hsame.hhField_eq fun _ => rfl, ← hsame.hhField_eq fun _ => rfl] at happ
  refine ⟨happ, ?_, ?_, ht.bound.imp id fun hbound b' hb' => ?_⟩
  · simp [ht.count]
  · have hprevs : e.hh.prev ≠ some a := by
      rw [hprev]
      exact fun h => hnot (List.mem_append_left _ (List.mem_of_getLast? h))
    have hnexts : e.hh.next ≠ some a := by
      rw [hnext]
      exact fun h => hnot (List.mem_append_right _ (List.mem_of_head? h))
    have he' : (unlinkApp e.hh elems)[a]? = some e := by
      simp [unlinkApp, getElem?_setHhIf, he, hprevs, hnexts]
    obtain ⟨hhprev, hhnext⟩ := hhField_unlinkApp e.hh elems
    have hc : Chains (unlinkApp e.hh elems) tbl (as ++ a :: bs) chain :=
      ht.chains.frame rfl rfl rfl hhprev hhnext fun _ _ => by rw [hcontent.bktAt_eq]
    have hremove := hc.remove hnd (by rw [hcontent.length]; exact hlen) he'
      (by rw [hcontent.bktAt_eq]; exact hb)
    rw [hcontent.bktAt_eq] at hremove
    exact hremove.frame rfl rfl rfl rfl rfl fun _ _ => rfl
  · rcases List.mem_or_eq_of_mem_set hb' with hb' | rfl
    · exact hbound b' hb'
    · exact Nat.le_trans (Nat.sub_le _ _) (hbound b (List.mem_of_getElem? hb))

theorem hashDelete_some {s : UtHash α} {as bs : List Addr} {a : Addr}
    (hi : Intact keyptr s (as ++ a :: bs)) :
    ∃ s', hashDelete a s = some s' ∧ Intact keyptr s' (as ++ bs) ∧
      ∀ b : Addr, (s'.elems[b]?).map Elem.face = (s.elems[b]?).map Elem.face := by
  obtain ⟨e, he, _⟩ := hi.elem a (by simp)
  obtain ⟨tbl, chain, htbl, ht⟩ : ∃ tbl chain, s.tbl = some tbl ∧
      Tabled s.elems s.head tbl (as ++ a :: bs) chain := by
    rcases hi.table with ⟨hnil, _⟩ | ⟨_, h⟩
    · simp at hnil
    · exact h
  obtain ⟨hprev, hnext⟩ := ht.app.neighbours
  rw [hhField_of_get he] at hprev hnext
  by_cases hlast : e.hh.prev = none ∧ e.hh.next = none
  · rw [hlast.1, eq_comm, List.getLast?_eq_none_iff] at hprev
    rw [hlast.2, eq_comm, List.head?_eq_none_iff] at hnext
    subst hprev hnext
    exact ⟨_, hashDelete_last he hlast.1 hlast.2, intact_nil _ _, fun _ => rfl⟩
  have hne : as ++ bs ≠ [] := by
    intro hnil
    obtain ⟨rfl, rfl⟩ := List.append_eq_nil_iff.mp hnil
    exact hlast ⟨hprev, hnext⟩
  have hndab := (List.nodup_cons.mp (List.nodup_middle.mp hi.nodup)).2
  have hlt : bktAt s.elems tbl.numBuckets a < tbl.buckets.length := by
    rw [ht.chains.length]
    exact ht.chains.bkt_lt a
  have hb := List.getElem?_eq_getElem hlt
  generalize tbl.buckets[bktAt s.elems tbl.numBuckets a] = b at hb
  have hbkt : hashToBkt e.hh.hashv tbl.numBuckets = bktAt s.elems tbl.numBuckets a := by
    rw [bktAt, he]
    rfl
  have hcontent := (sameContent_unlinkApp e.hh s.elems).trans
    (sameContent_unlinkBkt e.hh (unlinkApp e.hh s.elems))
  have htable := ht.remove hi.nodup hi.lt he hb
  refine ⟨{ elems := _, head := _, tbl := some _ }, ?_,
    ⟨hndab, fun c hc => ?_, .inr ⟨hne, _, _, rfl, htable⟩⟩,
    hcontent.map_eq fun c => (c.1, c.2.1)⟩
  · simp only [hashDelete, he, htbl, hbkt, hb, Option.bind_eq_bind, Option.bind_some, if_neg hlast]
    rfl
  · obtain ⟨ec, hec, hhashed⟩ := hi.elem c (by rcases List.mem_append.mp hc with h | h <;> simp [h])
    exact hcontent.exists_hashed hec hhashed

/-! ## Writing to the user's part of an element -/

/-- Writing to an element what is not in its key. -/
theorem Intact.modify_item {s : UtHash α} (hi : Intact keyptr s items) {f : α → α}
    (hf : ∀ x, keyptr (f x) = keyptr x) (a : Addr) :
    Intact keyptr { s with elems := s.elems.modify a fun e => { e with item := f e.item } } items := by
  have hfield : ∀ g : UtHashHandle → Ptr,
      hhField g (s.elems.modify a fun e => { e with item := f e.item }) = hhField g s.elems := by
    intro g
    funext b
    rw [hhField, List.getElem?_modify, hhField]
    cases s.elems[b]? <;> by_cases h : a = b <;> simp [h]
  have hbkt : ∀ n b, bktAt (s.elems.modify a fun e => { e with item := f e.item }) n b =
      bktAt s.elems n b := by
    intro n b
    rw [bktAt, List.getElem?_modify, bktAt]
    cases s.elems[b]? <;> by_cases h : a = b <;> simp [h]
  refine ⟨hi.nodup, fun b hb => ?_, ?_⟩
  · obtain ⟨e, he, hhashed⟩ := hi.elem b hb
    refine ⟨_, by rw [List.getElem?_modify, he]; rfl, ?_⟩
    split
    · simpa [Hashed, hf] using hhashed
    · exact hhashed
  · refine hi.table.imp id fun h => ?_
    obtain ⟨hne, tbl, chain, htbl, ht⟩ := h
    refine ⟨hne, tbl, chain, htbl, ?_, ht.count, ?_, ht.bound⟩
    · rw [hfield, hfield]
      exact ht.app
    · exact ht.chains.frame rfl rfl rfl (hfield _) (hfield _) fun b _ => hbkt _ b

/-! ## Runs -/

inductive UtHashOp (α : Type) where
  /-- `hh` is what the memory of the new element held. -/
  | add (item : α) (hh : UtHashHandle) (keylen : Nat)
  | delete (a : Addr)

/-- One macro on a table with the elements that are in it. Only these may be deleted. -/
def UtHashOp.perform (keyptr : α → List U8) (fuel : Nat) (x : UtHash α × List Addr) :
    UtHashOp α → Option (UtHash α × List Addr)
  | .add item hh keylen => do
    let add := x.1.elems.length
    let s ← hashAddKeyptr keyptr fuel keylen add { x.1 with elems := x.1.elems ++ [{ item, hh }] }
    some (s, x.2 ++ [add])
  | .delete a =>
    if a ∈ x.2 then do some (← hashDelete a x.1, x.2.erase a) else none

/-- The macros have the fuel for a chain that all elements are on. -/
def HashStep (keyptr : α → List U8) (x : UtHash α × List Addr) (op : UtHashOp α)
    (y : UtHash α × List Addr) : Prop :=
  ∃ fuel, x.2.length + 1 < fuel ∧ op.perform keyptr fuel x = some y

abbrev HashRun (keyptr : α → List U8) :=
  Run (({ elems := [], head := none, tbl := none }, []) : UtHash α × List Addr) (HashStep keyptr)

theorem hashAdd_new {s : UtHash α} (hi : Intact keyptr s items) (item : α) (hh : UtHashHandle)
    (keylen : Nat) {fuel : Nat} (hfuel : items.length + 1 < fuel) :
    ∃ s', hashAddKeyptr keyptr fuel keylen s.elems.length
        { s with elems := s.elems ++ [{ item, hh }] } = some s' ∧
      Intact keyptr s' (items ++ [s.elems.length]) := by
  let e : Elem α := { item, hh }
  have hget : (s.elems ++ [e])[s.elems.length]? = some e := by simp
  have hnew : s.elems.length ∉ items := fun h => Nat.lt_irrefl _ (hi.lt _ h)
  obtain ⟨s', hok, hi', _⟩ := hashAddKeyptr_some (hi.append e) hget hnew keylen hfuel
  exact ⟨s', hok, hi'⟩

theorem hashDelete_mem {s : UtHash α} (hi : Intact keyptr s items) {a : Addr} (ha : a ∈ items) :
    ∃ s', hashDelete a s = some s' ∧ Intact keyptr s' (items.erase a) := by
  obtain ⟨as, bs, rfl⟩ := List.append_of_mem ha
  obtain ⟨s', hok, hi', _⟩ := hashDelete_some hi
  have hnot : a ∉ as := fun h => (List.nodup_append.mp hi.nodup).2.2 a h a (by simp) rfl
  rw [List.erase_append_right _ hnot, List.erase_cons_head]
  exact ⟨s', hok, hi'⟩

theorem perform_some {x : UtHash α × List Addr} (hi : Intact keyptr x.1 x.2) {fuel : Nat}
    (hfuel : x.2.length + 1 < fuel) (op : UtHashOp α) (hop : ∀ a, op = .delete a → a ∈ x.2) :
    ∃ y, op.perform keyptr fuel x = some y ∧ Intact keyptr y.1 y.2 := by
  cases op with
  | add item hh keylen =>
    obtain ⟨s', hok, hi'⟩ := hashAdd_new hi item hh keylen hfuel
    exact ⟨(s', x.2 ++ [x.1.elems.length]), by simp [UtHashOp.perform, hok], hi'⟩
  | delete a =>
    have ha := hop a rfl
    obtain ⟨s', hok, hi'⟩ := hashDelete_mem hi ha
    exact ⟨(s', x.2.erase a), by simp [UtHashOp.perform, ha, hok], hi'⟩

theorem HashRun.intact {tr : List (Step (UtHash α × List Addr) (UtHashOp α))}
    {x : UtHash α × List Addr} (hr : HashRun keyptr tr x) : Intact keyptr x.1 x.2 := by
  refine (hr.invariant (P := fun x => Intact keyptr x.1 x.2) (intact_nil [] none) ?_).1
  intro x op y hi hstep
  obtain ⟨fuel, hfuel, hop⟩ := hstep
  have hdel : ∀ a, op = .delete a → a ∈ x.2 := by
    rintro a rfl
    by_contra ha
    simp [UtHashOp.perform, ha] at hop
  obtain ⟨z, hz, hiz⟩ := perform_some hi hfuel op hdel
  rw [hop] at hz
  cases hz
  exact hiz

/-- After any adds and deletes, also of elements with one key: the check of uthash finds nothing, a
search finds an element with the key if there is one, the count is right and no bucket is overfull
unless expanding was given up, and the macros will work again. -/
theorem hashRun_serves {tr : List (Step (UtHash α × List Addr) (UtHashOp α))} {s : UtHash α}
    (hr : HashRun keyptr tr (s, items)) {fuel : Nat} (hfuel : items.length + 1 < fuel) :
    hashFsck fuel s = true ∧
      (∀ key keylen, ∃ q, hashFind keyptr fuel key keylen s = some q ∧
        Found keyptr s.elems key keylen items q) ∧
      (items ≠ [] → ∃ tbl, s.tbl = some tbl ∧ tbl.numItems = items.length ∧ WithinBound tbl) ∧
      ∀ op : UtHashOp α, (∀ a, op = .delete a → a ∈ items) → ∃ y, HashStep keyptr (s, items) op y := by
  have hi : Intact keyptr s items := hr.intact
  have hlt : items.length < fuel := Nat.lt_of_succ_lt hfuel
  refine ⟨hashFsck_intact hi hlt, fun key keylen => hashFind_some hi key keylen hlt, fun hne => ?_,
    fun op hop => ?_⟩
  · obtain ⟨tbl, chain, htbl, ht⟩ := (hi.table.resolve_left fun h => hne h.1).2
    exact ⟨tbl, htbl, ht.count, ht.bound⟩
  · obtain ⟨y, hy, _⟩ := perform_some (x := (s, items)) hi hfuel op hop
    exact ⟨y, fuel, hfuel, hy⟩

/-- Three elements with one key, of which the first is deleted. -/
theorem equal_keys_serve : ∃ tr s, HashRun (fun key : List U8 => key) tr (s, [1, 2]) ∧
    tr.length = 4 ∧ hashFsck 4 s = true := by
  let hh : UtHashHandle :=
    { prev := some 1, next := none, hhPrev := none, hhNext := some 0, keylen := 0, hashv := 0 }
  have hstep : ∀ (x y : UtHash (List U8) × List Addr) (op : UtHashOp (List U8)),
      (if x.2.length + 1 < 5 then op.perform (fun key => key) 5 x else none) = some y →
      HashStep (fun key => key) x op y := by
    intro x y op h
    split at h
    · exact ⟨5, ‹_›, h⟩
    · cases h
  let step := fun (x : UtHash (List U8) × List Addr) (op : UtHashOp (List U8)) =>
    if x.2.length + 1 < 5 then op.perform (fun key => key) 5 x else none
  let ops : List (UtHashOp (List U8)) := [.add [7, 7] hh 2, .add [7, 7] hh 2, .add [7, 7] hh 2, .delete 0]
  let out := replay step ops [] ({ elems := [], head := none, tbl := none }, [])
  have hout : out.map (fun r => (r.1.length, r.2.2)) = some (4, [1, 2]) := by decide +kernel
  obtain ⟨⟨tr, s, items⟩, hreplay, heq⟩ := Option.map_eq_some_iff.mp hout
  obtain ⟨hlen, hitems⟩ := Prod.mk.inj heq
  have hr : HashRun (fun key : List U8 => key) tr (s, items) :=
    Run.replay (fun x op y h => hstep x y op h) ops .start hreplay
  subst hitems
  exact ⟨tr, s, hr, hlen, (hashRun_serves hr (by decide)).1⟩

end Cs352Proxy
