import Cs352Proxy.Buckets

/-!
# Integrity

What holds of a uthash table between two macros, whatever the keys are: elements with one key may be
in the table together.

* `Intact s items`: the elements `items`, in the order they were added, are linked in that order
  and in their buckets, and the counters are right.
* `hashFind_some`: a search finds an element with the key if there is one.
* `hashFsck_intact`: the integrity check has nothing to report.
-/

namespace Cs352Proxy

open Base

variable {α : Type} {keyptr : α → List U8} {elems : List (Elem α)} {items : List Addr}

/-- The hash value in the handle is that of the key. -/
def Hashed (keyptr : α → List U8) (e : Elem α) : Prop :=
  e.hh.hashv = hashJen (keyptr e.item) e.hh.keylen

/-- The table of a list of elements that is not empty. -/
structure Tabled (elems : List (Elem α)) (head : Ptr) (tbl : UtHashTable) (items : List Addr)
    (chain : Nat → List Addr) : Prop where
  app : DSeg (hhField (·.prev) elems) (hhField (·.next) elems) none head items tbl.tail none
  count : tbl.numItems = items.length
  chains : Chains elems tbl items chain
  bound : WithinBound tbl

structure Intact (keyptr : α → List U8) (s : UtHash α) (items : List Addr) : Prop where
  nodup : items.Nodup
  elem : ∀ a ∈ items, ∃ e, s.elems[a]? = some e ∧ Hashed keyptr e
  table : (items = [] ∧ s.head = none) ∨
    items ≠ [] ∧ ∃ tbl chain, s.tbl = some tbl ∧ Tabled s.elems s.head tbl items chain

theorem Intact.lt {s : UtHash α} (hi : Intact keyptr s items) : ∀ a ∈ items, a < s.elems.length := by
  intro a ha
  obtain ⟨e, he, _⟩ := hi.elem a ha
  exact (List.getElem?_eq_some_iff.mp he).1

theorem Intact.append {s : UtHash α} (hi : Intact keyptr s items) (e : Elem α) :
    Intact keyptr { s with elems := s.elems ++ [e] } items := by
  have hget : ∀ a ∈ items, (s.elems ++ [e])[a]? = s.elems[a]? := fun a ha =>
    List.getElem?_append_left (hi.lt a ha)
  have hfield : ∀ g : UtHashHandle → Ptr, ∀ a ∈ items,
      hhField g (s.elems ++ [e]) a = hhField g s.elems a := by
    intro g a ha
    rw [hhField, hget a ha, hhField]
  refine ⟨hi.nodup, fun a ha => by rw [hget a ha]; exact hi.elem a ha, hi.table.imp id fun h => ?_⟩
  obtain ⟨hne, tbl, chain, htbl, ht⟩ := h
  refine ⟨hne, tbl, chain, htbl, ?_, ht.count, ?_, ht.bound⟩
  · exact ht.app.congr fun a ha => ⟨hfield _ a ha, hfield _ a ha⟩
  · refine ⟨ht.chains.size, ht.chains.length, fun i b hb => ?_, ht.chains.nodup, fun i a => ?_⟩
    · obtain ⟨hcount, last, hs⟩ := ht.chains.bucket i b hb
      refine ⟨hcount, last, hs.congr fun a ha => ?_⟩
      have ha' := ((ht.chains.mem i a).mp ha).1
      exact ⟨hfield _ a ha', hfield _ a ha'⟩
    · rw [ht.chains.mem]
      exact and_congr_right fun ha => by rw [bktAt, bktAt, hget a ha]

theorem intact_nil (elems : List (Elem α)) (tbl : Option UtHashTable) :
    Intact keyptr { elems, head := none, tbl } [] :=
  ⟨List.nodup_nil, by simp, .inl ⟨rfl, rfl⟩⟩

/-! ## The hash value -/

theorem keyByte_congr {key key' : List U8} {n m : Nat} (h : key.take n = key'.take n) (hm : m < n) :
    keyByte key m = keyByte key' m := by
  have hget := congrArg (·[m]?) h
  simp only [List.getElem?_take, if_pos hm] at hget
  rw [keyByte, keyByte, List.getD_eq_getElem?_getD, List.getD_eq_getElem?_getD, hget]

theorem hashJenLoop_congr (r k : Nat) {key key' : List U8} (s : U32 × U32 × U32)
    (h : key.take (12 * r + k) = key'.take (12 * r + k)) :
    (hashJenLoop r key s).1.take k = (hashJenLoop r key' s).1.take k ∧
      (hashJenLoop r key s).2 = (hashJenLoop r key' s).2 := by
  induction r generalizing key key' s with
  | zero => exact ⟨by simpa [hashJenLoop] using h, rfl⟩
  | succ r ih =>
    have hword : ∀ m, m + 3 < 12 → keyWord key m = keyWord key' m := by
      intro m hm
      simp only [keyWord, keyByte_congr h (show m < _ by omega), keyByte_congr h (show m + 1 < _ by omega),
        keyByte_congr h (show m + 2 < _ by omega), keyByte_congr h (show m + 3 < _ by omega)]
    have hdrop : (key.drop 12).take (12 * r + k) = (key'.drop 12).take (12 * r + k) := by
      rw [List.take_drop, List.take_drop, show 12 + (12 * r + k) = 12 * (r + 1) + k by omega, h]
    simp only [hashJenLoop, hword 0 (by omega), hword 4 (by omega), hword 8 (by omega)]
    exact ih _ hdrop

theorem hashJen_congr {key key' : List U8} {n : Nat} (h : key.take n = key'.take n) :
    hashJen key n = hashJen key' n := by
  rw [show n = 12 * (n / 12) + n % 12 by omega] at h
  obtain ⟨hrest, hs⟩ := hashJenLoop_congr (n / 12) (n % 12) (0x9e3779b9, 0x9e3779b9, 0xfeedbeef) h
  have hcase : ∀ m shift, hashJenCase (n % 12)
      (hashJenLoop (n / 12) key (0x9e3779b9, 0x9e3779b9, 0xfeedbeef)).1 m shift =
      hashJenCase (n % 12)
        (hashJenLoop (n / 12) key' (0x9e3779b9, 0x9e3779b9, 0xfeedbeef)).1 m shift := by
    intro m shift
    unfold hashJenCase
    split
    · rename_i hm
      rw [keyByte_congr hrest hm]
    · rfl
  simp only [hashJen, hs, hcase]

/-! ## Finding -/

/-- The element at `a` has the first `keylen` bytes of `key` for its key. -/
def HasKey (keyptr : α → List U8) (elems : List (Elem α)) (key : List U8) (keylen : Nat) (a : Addr) :
    Prop :=
  ∃ e, elems[a]? = some e ∧ e.hh.keylen = keylen ∧ (keyptr e.item).take keylen = key.take keylen

/-- `q` points to one of `items` that has the key, or there is none. -/
def Found (keyptr : α → List U8) (elems : List (Elem α)) (key : List U8) (keylen : Nat)
    (items : List Addr) (q : Ptr) : Prop :=
  (∀ a, q = some a → a ∈ items ∧ HasKey keyptr elems key keylen a) ∧
    (q = none → ∀ a ∈ items, ¬ HasKey keyptr elems key keylen a)

theorem hashFindInBkt_some {key : List U8} {keylen : Nat} {cs : List Addr} :
    ∀ {fuel : Nat} {back p last : Ptr},
      DSeg (hhField (·.hhPrev) elems) (hhField (·.hhNext) elems) back p cs last none →
      (∀ a ∈ cs, a < elems.length) → cs.length < fuel →
      ∃ q, hashFindInBkt keyptr elems key keylen fuel p = some q ∧
        Found keyptr elems key keylen cs q := by
  induction cs with
  | nil =>
    intro fuel back p last hs _ hfuel
    obtain ⟨k, rfl⟩ := Nat.exists_eq_add_one.mpr hfuel
    rw [hs.1]
    exact ⟨none, rfl, by simp [Found]⟩
  | cons a cs ih =>
    intro fuel back p last hs hlen hfuel
    obtain ⟨k, rfl⟩ := Nat.exists_eq_add_one.mpr (Nat.zero_lt_of_lt hfuel)
    obtain ⟨rfl, _, hrest⟩ := hs
    have hget := List.getElem?_eq_getElem (hlen a (by simp))
    rw [hhField_of_get hget] at hrest
    simp only [hashFindInBkt, hget, Option.bind_eq_bind, Option.bind_some]
    split
    · rename_i hkey
      refine ⟨some a, rfl, fun b hb => ?_, fun hb => by cases hb⟩
      cases hb
      exact ⟨by simp, _, hget, hkey⟩
    · rename_i hkey
      obtain ⟨q, hq, hsome, hnone⟩ := ih hrest (fun b hb => hlen b (by simp [hb]))
        (Nat.lt_of_succ_lt_succ hfuel)
      refine ⟨q, hq, fun b hb => ?_, fun hb => ?_⟩
      · obtain ⟨hmem, hhas⟩ := hsome b hb
        exact ⟨List.mem_cons_of_mem a hmem, hhas⟩
      · intro b hmem
        rcases List.mem_cons.mp hmem with rfl | hmem
        · intro hhas
          obtain ⟨e, he, hmatch⟩ := hhas
          rw [hget] at he
          cases he
          exact hkey hmatch
        · exact hnone hb b hmem

theorem hashFind_some {s : UtHash α} (hi : Intact keyptr s items) (key : List U8) (keylen : Nat)
    {fuel : Nat} (hfuel : items.length < fuel) :
    ∃ q, hashFind keyptr fuel key keylen s = some q ∧ Found keyptr s.elems key keylen items q := by
  rcases hi.table with ⟨rfl, hhead⟩ | ⟨hne, tbl, chain, htbl, ht⟩
  · exact ⟨none, by simp [hashFind, hhead], by simp [Found]⟩
  have hhead : ∃ h, s.head = some h := by
    rw [ht.app.head_eq]
    exact ⟨_, List.head?_eq_some_head hne⟩
  obtain ⟨h, hhead⟩ := hhead
  have hlt : hashToBkt (hashJen key keylen) tbl.numBuckets < tbl.buckets.length := by
    rw [ht.chains.length, ht.chains.size]
    exact hashToBkt_lt _ _
  have hb := List.getElem?_eq_getElem hlt
  obtain ⟨_, last, hs⟩ := ht.chains.bucket _ _ hb
  have hin : ∀ a ∈ chain (hashToBkt (hashJen key keylen) tbl.numBuckets), a ∈ items :=
    fun a ha => ((ht.chains.mem _ a).mp ha).1
  have hsome : ∃ q, hashFindInBkt keyptr s.elems key keylen fuel
      (tbl.buckets[hashToBkt (hashJen key keylen) tbl.numBuckets]).hhHead = some q ∧
      Found keyptr s.elems key keylen (chain (hashToBkt (hashJen key keylen) tbl.numBuckets)) q :=
    hashFindInBkt_some hs (fun a ha => hi.lt a (hin a ha))
      (Nat.lt_of_le_of_lt (ht.chains.length_le _) hfuel)
  obtain ⟨q, hq, hsome, hnone⟩ := hsome
  refine ⟨q, by simp only [hashFind, hhead, htbl, hb, Option.bind_eq_bind, Option.bind_some, hq], ?_, ?_⟩
  · intro a ha
    obtain ⟨hmem, hhas⟩ := hsome a ha
    exact ⟨hin a hmem, hhas⟩
  · intro hqn a ha hhas
    -- an element with the key hashes to the bucket that was searched
    refine hnone hqn a ((ht.chains.mem _ a).mpr ⟨ha, ?_⟩) hhas
    obtain ⟨e, he, hlen, hkey⟩ := hhas
    obtain ⟨e', he', hhashed⟩ := hi.elem a ha
    rw [he] at he'
    cases he'
    rw [bktAt, he, Option.map_some, Option.getD_some, hhashed, hlen, hashJen_congr hkey]

/-! ## The integrity check -/

theorem fsckLoop_some {prevOf nextOf : UtHashHandle → Ptr} {as : List Addr} :
    ∀ {fuel : Nat} {back p last : Ptr},
      DSeg (hhField prevOf elems) (hhField nextOf elems) back p as last none →
      (∀ a ∈ as, a < elems.length) → as.length < fuel →
      fsckLoop prevOf nextOf elems fuel back p = some as.length := by
  induction as with
  | nil =>
    intro fuel back p last hs _ hfuel
    obtain ⟨k, rfl⟩ := Nat.exists_eq_add_one.mpr hfuel
    rw [hs.1]
    rfl
  | cons a as ih =>
    intro fuel back p last hs hlen hfuel
    obtain ⟨k, rfl⟩ := Nat.exists_eq_add_one.mpr (Nat.zero_lt_of_lt hfuel)
    obtain ⟨rfl, hback, hrest⟩ := hs
    have hget := List.getElem?_eq_getElem (hlen a (by simp))
    rw [hhField_of_get hget] at hback hrest
    have hloop := ih hrest (fun b hb => hlen b (by simp [hb])) (Nat.lt_of_succ_lt_succ hfuel)
    simp [fsckLoop, hget, hback, hloop]

theorem fsckBkts_some {chain : Nat → List Addr} {fuel : Nat} {bs : List UtHashBucket} :
    ∀ {i : Nat},
      (∀ k b, bs[k]? = some b → b.count = (chain (i + k)).length ∧
        BktList elems b.hhHead (chain (i + k))) →
      (∀ j, ∀ a ∈ chain j, a < elems.length) → (∀ j, (chain j).length < fuel) →
      fsckBkts fuel elems bs = some (chainsFrom chain i bs.length).length := by
  induction bs with
  | nil =>
    intro i _ _ _
    rfl
  | cons b bs ih =>
    intro i hbs hlen hfuel
    obtain ⟨hcount, last, hs⟩ := hbs 0 b rfl
    have hbkt : fsckBkt elems fuel b.hhHead = some (chain i).length :=
      fsckLoop_some hs (hlen _) (hfuel _)
    have hrest : fsckBkts fuel elems bs = some (chainsFrom chain (i + 1) bs.length).length := by
      refine ih (fun k b' hb' => ?_) hlen hfuel
      rw [Nat.add_assoc, Nat.add_comm 1 k]
      exact hbs (k + 1) b' hb'
    rw [List.length_cons, chainsFrom_succ, List.length_append]
    simp [fsckBkts, hbkt, hrest, hcount]

theorem hashFsck_intact {s : UtHash α} (hi : Intact keyptr s items) {fuel : Nat}
    (hfuel : items.length < fuel) : hashFsck fuel s = true := by
  rcases hi.table with ⟨rfl, hhead⟩ | ⟨hne, tbl, chain, htbl, ht⟩
  · simp [hashFsck, hhead]
  obtain ⟨h, hhead⟩ : ∃ h, s.head = some h := by
    rw [ht.app.head_eq]
    exact ⟨_, List.head?_eq_some_head hne⟩
  have happ : fsckApp s.elems fuel s.head = some tbl.numItems := by
    rw [ht.count]
    exact fsckLoop_some ht.app hi.lt hfuel
  have hbkts : fsckBkts fuel s.elems tbl.buckets = some tbl.numItems := by
    rw [ht.count, ← (ht.chains.perm_all hi.nodup).length_eq, ← ht.chains.length]
    refine fsckBkts_some (fun k b hb => ?_) (fun j a ha => ?_) fun j => ?_
    · rw [Nat.zero_add]
      exact ht.chains.bucket k b hb
    · exact hi.lt a ((ht.chains.mem j a).mp ha).1
    · exact Nat.lt_of_le_of_lt (ht.chains.length_le j) hfuel
  rw [hhead] at happ
  simp [hashFsck, hhead, htbl, ← ht.chains.length, happ, hbkts]

end Cs352Proxy
