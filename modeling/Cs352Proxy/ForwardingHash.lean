import Cs352Proxy.Linking

/-!
# ForwardingHash

The forwarding table is modelled as a list of entries, newest first. In memory it is a uthash table.
Here the table in memory refines the list: every access of the program returns the same on both.

* `Holds s items l`: the table `s` has the entries `l`, at the addresses `items`.
* `holds_find`, `holds_add`, `holds_delete`, `holds_setSockFd`: one access.
* `accesses_refine`: any sequence of accesses.
-/

namespace Cs352Proxy

open Base

variable {s : UtHash ProxySocketfd} {items : List Addr} {l : List ProxySocketfd} {mac : Mac} {fuel : Nat}

/-! ## Keys -/

theorem cstr_eq_take (l : List U8) : cstr l = l.take (strlen l) := by
  induction l with
  | nil => rfl
  | cons b bs ih =>
    by_cases hb : b = 0
    · rw [hb, cstr_zero_cons, strlen, cstr_zero_cons]
      rfl
    · rw [strlen, cstr_cons_of_ne _ hb, List.length_cons, List.take_succ_cons, ← strlen, ← ih]

/-- `memcmp` on as many bytes as both strings have compares the strings. -/
theorem cstr_eq_iff {l l' : List U8} :
    cstr l = cstr l' ↔ strlen l = strlen l' ∧ l.take (strlen l') = l'.take (strlen l') := by
  constructor
  · intro h
    have hlen : strlen l = strlen l' := congrArg List.length h
    refine ⟨hlen, ?_⟩
    rw [← cstr_eq_take l', ← h, cstr_eq_take l, hlen]
  · intro h
    obtain ⟨hlen, htake⟩ := h
    rw [cstr_eq_take l, cstr_eq_take l', hlen, htake]

/-! ## The table in memory and the list -/

/-- What the element at `a` has for its user and for `HASH_FIND`. -/
def faceAt (s : UtHash ProxySocketfd) (a : Addr) : Option (ProxySocketfd × Nat) :=
  (s.elems[a]?).map Elem.face

/-- The entry with the length of its key. -/
def ProxySocketfd.face (x : ProxySocketfd) : ProxySocketfd × Nat := (x, strlen x.keyptr)

structure Holds (s : UtHash ProxySocketfd) (items : List Addr) (l : List ProxySocketfd) : Prop where
  intact : Intact ProxySocketfd.keyptr s items
  entries : items.map (faceAt s) = l.reverse.map fun x => some x.face

theorem Holds.length (h : Holds s items l) : items.length = l.length := by
  have hlen := congrArg List.length h.entries
  rwa [List.length_map, List.length_map, List.length_reverse] at hlen

theorem Holds.split (h : Holds s items l) {a : Addr} (ha : a ∈ items) :
    ∃ as bs ys x xs, items = as ++ a :: bs ∧ l = ys ++ x :: xs ∧ faceAt s a = some x.face ∧
      as.map (faceAt s) = xs.reverse.map (fun x => some x.face) ∧
      bs.map (faceAt s) = ys.reverse.map fun x => some x.face := by
  obtain ⟨as, bs, rfl⟩ := List.append_of_mem ha
  have hentries := h.entries
  rw [List.map_append, List.map_cons, eq_comm, List.map_eq_append_iff] at hentries
  obtain ⟨l₁, l₂, hl, hl₁, hl₂⟩ := hentries
  obtain ⟨x, l₃, rfl, hx, hl₃⟩ := List.map_eq_cons_iff.mp hl₂
  refine ⟨as, bs, l₃.reverse, x, l₁.reverse, rfl, ?_, hx.symm, ?_, ?_⟩
  · rw [← List.reverse_reverse l, hl]
    simp
  · rw [List.reverse_reverse, hl₁]
  · rw [List.reverse_reverse, hl₃]

theorem hasKey_iff {a : Addr} {x : ProxySocketfd} (ha : faceAt s a = some x.face) :
    HasKey ProxySocketfd.keyptr s.elems (mac.bytes ++ [0]) (strlen (mac.bytes ++ [0])) a ↔
      x.key = mac.key := by
  obtain ⟨e, he, hface⟩ := Option.map_eq_some_iff.mp ha
  obtain ⟨hitem, hlen⟩ := Prod.mk.inj hface
  rw [show x.key = cstr x.keyptr from rfl, Mac.key, cstr_eq_iff]
  constructor
  · intro hhas
    obtain ⟨e', he', hlen', hkey⟩ := hhas
    rw [he] at he'
    cases he'
    rw [← hlen, hlen', ← hitem]
    exact ⟨rfl, hkey⟩
  · intro hkey
    exact ⟨e, he, hlen.trans hkey.1, hitem ▸ hkey.2⟩

theorem not_key_of_nodup {ys xs : List ProxySocketfd} {x : ProxySocketfd}
    (hnd : ((ys ++ x :: xs).map ProxySocketfd.key).Nodup) :
    ∀ y ∈ ys, ProxySocketfd.key y ≠ ProxySocketfd.key x := by
  intro y hy
  rw [List.map_append, List.map_cons] at hnd
  exact (List.nodup_append.mp hnd).2.2 _ (List.mem_map_of_mem hy) _ (by simp)

/-- What `find_socketfd` returns points to the entry that the list has for the address. -/
theorem holds_find (h : Holds s items l) (hnd : (l.map ProxySocketfd.key).Nodup)
    (hfuel : l.length < fuel) (mac : Mac) :
    ∃ q, Uthash.findSocketfd fuel mac s = some q ∧
      q.bind (fun a => (s.elems[a]?).map Elem.item) = lookup ProxySocketfd.key l mac.key ∧
      ∀ a, q = some a → a ∈ items := by
  obtain ⟨q, hq, hsome, hnone⟩ := hashFind_some h.intact (mac.bytes ++ [0]) (strlen (mac.bytes ++ [0]))
    (by rw [h.length]; exact hfuel)
  refine ⟨q, hq, ?_, fun a ha => (hsome a ha).1⟩
  cases q with
  | none =>
    refine (lookup_none.mpr fun hmem => ?_).symm
    obtain ⟨x, hx, hkey⟩ := List.mem_map.mp hmem
    have hface : some x.face ∈ items.map (faceAt s) := by
      rw [h.entries]
      exact List.mem_map_of_mem (f := fun x : ProxySocketfd => some x.face) (List.mem_reverse.mpr hx)
    obtain ⟨a, ha, hface⟩ := List.mem_map.mp hface
    exact hnone rfl a ha ((hasKey_iff hface).mpr hkey)
  | some a =>
    obtain ⟨ha, hhas⟩ := hsome a rfl
    obtain ⟨as, bs, ys, x, xs, rfl, rfl, hface, _, _⟩ := h.split ha
    have hkey := (hasKey_iff hface).mp hhas
    rw [← hkey, lookup_middle (not_key_of_nodup hnd) rfl]
    obtain ⟨e, he, heq⟩ := Option.map_eq_some_iff.mp hface
    rw [Option.bind_some, he, Option.map_some]
    exact congrArg (fun p => some p.1) heq

/-! ## One access -/

theorem holds_nil (elems : List (Elem ProxySocketfd)) (tbl : Option UtHashTable) :
    Holds { elems, head := none, tbl } [] [] := ⟨intact_nil _ _, rfl⟩

theorem holds_add (h : Holds s items l) (hfuel : l.length + 1 < fuel) (hh : UtHashHandle) (mac : Mac)
    (fd : Int) :
    ∃ s', Uthash.addsockfd fuel hh mac fd s = some s' ∧
      Holds s' (items ++ [s.elems.length]) ({ macaddr := mac, sockFd := fd } :: l) := by
  let x : ProxySocketfd := { macaddr := mac, sockFd := fd }
  let s₁ : UtHash ProxySocketfd := { s with elems := s.elems ++ [{ item := x, hh }] }
  have hold : ∀ a ∈ items, s₁.elems[a]? = s.elems[a]? := fun a ha =>
    List.getElem?_append_left (h.intact.lt a ha)
  have hget : s₁.elems[s.elems.length]? = some { item := x, hh } := by simp [s₁]
  have hnew : s.elems.length ∉ items := fun ha => Nat.lt_irrefl _ (h.intact.lt _ ha)
  have hintact : Intact ProxySocketfd.keyptr s₁ items := h.intact.append _
  obtain ⟨s', hok, hintact', hface⟩ := hashAddKeyptr_some hintact hget hnew (strlen x.keyptr)
    (by rw [h.length]; exact hfuel)
  refine ⟨s', hok, hintact', ?_⟩
  have hsame : items.map (faceAt s') = items.map (faceAt s) := by
    refine List.map_congr_left fun a ha => ?_
    rw [faceAt, hface, if_neg (fun heq => hnew (by rwa [heq] at ha)), hold a ha]
    rfl
  rw [List.map_append, hsame, h.entries, List.map_singleton, faceAt, hface, if_pos rfl,
    List.reverse_cons, List.map_append]
  rfl

theorem holds_delete (h : Holds s items l) (hnd : (l.map ProxySocketfd.key).Nodup)
    (hfuel : l.length < fuel) (mac : Mac) :
    ∃ s' items', Uthash.deletesockfd fuel mac s = some s' ∧
      Holds s' items' (remove ProxySocketfd.key l mac.key) := by
  obtain ⟨q, hq, hlookup, hmem⟩ := holds_find h hnd hfuel mac
  simp only [Uthash.deletesockfd, hq, Option.bind_eq_bind, Option.bind_some]
  cases q with
  | none =>
    rw [remove_of_lookup_none hlookup.symm]
    exact ⟨s, items, rfl, h⟩
  | some a =>
    obtain ⟨as, bs, ys, x, xs, rfl, rfl, hface, has, hbs⟩ := h.split (hmem a rfl)
    obtain ⟨s', hok, hintact, hsame⟩ := hashDelete_some h.intact
    obtain ⟨e, he, heq⟩ := Option.map_eq_some_iff.mp hface
    rw [Option.bind_some, he, Option.map_some, show e.item = x from congrArg Prod.fst heq] at hlookup
    have hkey := (lookup_some hlookup.symm).2
    refine ⟨s', as ++ bs, hok, hintact, ?_⟩
    rw [← hkey, remove_middle (not_key_of_nodup hnd) rfl, show faceAt s' = faceAt s from funext hsame,
      List.map_append, List.reverse_append, List.map_append, has, hbs]

theorem holds_setSockFd (h : Holds s items l) (hnd : (l.map ProxySocketfd.key).Nodup) {a : Addr}
    (ha : a ∈ items) {x : ProxySocketfd} (hx : (s.elems[a]?).map Elem.item = some x) (fd : Int) :
    Holds (Uthash.setSockFd a fd s) items
      (assign ProxySocketfd.key (fun s => { s with sockFd := fd }) l x.key) := by
  have hintact : Intact ProxySocketfd.keyptr (Uthash.setSockFd a fd s) items :=
    h.intact.modify_item (f := fun s => { s with sockFd := fd }) (fun _ => rfl) a
  obtain ⟨as, bs, ys, y, xs, rfl, rfl, hface, has, hbs⟩ := h.split ha
  obtain ⟨e, he, heq⟩ := Option.map_eq_some_iff.mp hface
  rw [he, Option.map_some, show e.item = y from congrArg Prod.fst heq] at hx
  cases hx
  refine ⟨hintact, ?_⟩
  obtain ⟨hnda, hndb⟩ := List.nodup_cons.mp (List.nodup_middle.mp h.intact.nodup)
  have hother : ∀ b, b ≠ a → faceAt (Uthash.setSockFd a fd s) b = faceAt s b := by
    intro b hb
    simp only [faceAt, Uthash.setSockFd, List.getElem?_modify_ne _ _ (Ne.symm hb)]
  have hwritten : faceAt (Uthash.setSockFd a fd s) a =
      some ({ x with sockFd := fd } : ProxySocketfd).face := by
    obtain ⟨hitem, hlen⟩ := Prod.mk.inj heq
    simp only [faceAt, Uthash.setSockFd, List.getElem?_modify_eq, he, Option.map_eq_map,
      Option.map_some, Elem.face, hitem]
    rw [show e.hh.keylen = strlen x.keyptr from hlen]
    rfl
  rw [assign_middle (not_key_of_nodup hnd) rfl, List.map_append, List.map_cons, hwritten,
    List.map_congr_left fun b hb => hother b fun h => hnda (h ▸ List.mem_append_left _ hb),
    List.map_congr_left fun b hb => hother b fun h => hnda (h ▸ List.mem_append_right _ hb), has, hbs]
  simp

theorem iterate_some {elems : List (Elem ProxySocketfd)} {as : List Addr} {xs : List ProxySocketfd} :
    ∀ {fuel : Nat} {back p last : Ptr},
      DSeg (hhField (·.prev) elems) (hhField (·.next) elems) back p as last none →
      as.map (fun a => (elems[a]?).map Elem.item) = xs.map some → as.length < fuel →
      Uthash.iterate elems fuel p = some xs := by
  induction as generalizing xs with
  | nil =>
    intro fuel back p last hs hxs hfuel
    obtain ⟨k, rfl⟩ := Nat.exists_eq_add_one.mpr hfuel
    rw [hs.1, List.map_eq_nil_iff.mp hxs.symm]
    rfl
  | cons a as ih =>
    intro fuel back p last hs hxs hfuel
    obtain ⟨k, rfl⟩ := Nat.exists_eq_add_one.mpr (Nat.zero_lt_of_lt hfuel)
    obtain ⟨rfl, _, hrest⟩ := hs
    obtain ⟨x, xs', rfl, hx, hxs'⟩ := List.map_eq_cons_iff.mp hxs.symm
    obtain ⟨e, he, hitem⟩ := Option.map_eq_some_iff.mp hx.symm
    rw [hhField_of_get he] at hrest
    have hloop := ih hrest hxs'.symm (Nat.lt_of_succ_lt_succ hfuel)
    simp [Uthash.iterate, he, hloop, hitem]

/-- The loops over `socketfds` meet the oldest entry first. -/
theorem holds_iterate (h : Holds s items l) (hfuel : l.length < fuel) :
    Uthash.iterate s.elems fuel s.head = some l.reverse := by
  have hitems : items.map (fun a => (s.elems[a]?).map Elem.item) = l.reverse.map some := by
    have hmap := congrArg (List.map (Option.map Prod.fst)) h.entries
    rw [List.map_map, List.map_map] at hmap
    simpa [Function.comp_def, faceAt, Option.map_map, Elem.face, ProxySocketfd.face] using hmap
  rcases h.intact.table with ⟨rfl, hhead⟩ | ⟨_, tbl, _, _, ht⟩
  · have hs : DSeg (hhField (·.prev) s.elems) (hhField (·.next) s.elems) none none [] none none :=
      ⟨rfl, rfl⟩
    rw [hhead]
    exact iterate_some hs hitems (by rw [h.length]; exact hfuel)
  · exact iterate_some ht.app hitems (by rw [h.length]; exact hfuel)

/-! ## Any sequence of accesses -/

/-- What the program does with `socketfds`. -/
inductive TableAccess where
  | find (macaddr : Mac)
  /-- `addsockfd` where `find_socketfd` returned `NULL`. -/
  | add (macaddr : Mac) (fd : Int)
  /-- `pkt_sockfd->sock_fd = fd` where it did not. -/
  | setFd (macaddr : Mac) (fd : Int)
  | delete (macaddr : Mac)
  /-- A loop over all entries. -/
  | iterate
deriving DecidableEq

/-- The access in memory, and the entries it met. `uninit` is what `malloc` leaves in a handle. -/
def Uthash.access (fuel : Nat) (uninit : Addr → UtHashHandle) (s : UtHash ProxySocketfd) :
    TableAccess → Option (List ProxySocketfd × UtHash ProxySocketfd)
  | .find macaddr => do
    let q ← findSocketfd fuel macaddr s
    some ((q.bind fun a => (s.elems[a]?).map Elem.item).toList, s)
  | .add macaddr fd => do
    match ← findSocketfd fuel macaddr s with
    | none => some ([], ← addsockfd fuel (uninit s.elems.length) macaddr fd s)
    | some _ => some ([], s)
  | .setFd macaddr fd => do
    match ← findSocketfd fuel macaddr s with
    | none => some ([], s)
    | some a => some ([], setSockFd a fd s)
  | .delete macaddr => do some ([], ← deletesockfd fuel macaddr s)
  | .iterate => do some (← iterate s.elems fuel s.head, s)

/-- The access on the list. -/
def Proxy.access (st : Proxy) : TableAccess → List ProxySocketfd × Proxy
  | .find macaddr => ((st.findSocketfd macaddr).toList, st)
  | .add macaddr fd =>
    ([], if st.findSocketfd macaddr = none then st.addsockfd macaddr fd else st)
  | .setFd macaddr fd => ([], st.setSockFd macaddr fd)
  | .delete macaddr => ([], st.deletesockfd macaddr)
  | .iterate => (st.socketfds.reverse, st)

def Uthash.accesses (fuel : Nat) (uninit : Addr → UtHashHandle) :
    List TableAccess → UtHash ProxySocketfd → Option (List (List ProxySocketfd) × UtHash ProxySocketfd)
  | [], s => some ([], s)
  | op :: ops, s => do
    let (met, s) ← access fuel uninit s op
    let (rest, s) ← accesses fuel uninit ops s
    some (met :: rest, s)

def Proxy.accesses : List TableAccess → Proxy → List (List ProxySocketfd) × Proxy
  | [], st => ([], st)
  | op :: ops, st =>
    let (met, st) := st.access op
    let (rest, st) := accesses ops st
    (met :: rest, st)

/-- `socketfds = NULL`. -/
def Uthash.empty : UtHash ProxySocketfd := { elems := [], head := none, tbl := none }

/-- One access meets the same entries on both, and leaves one more entry at most. -/
theorem access_refines {st : Proxy} (h : Holds s items st.socketfds)
    (hnd : (st.socketfds.map ProxySocketfd.key).Nodup) (hfuel : st.socketfds.length + 1 < fuel)
    (uninit : Addr → UtHashHandle) (op : TableAccess) :
    ∃ s' items', Uthash.access fuel uninit s op = some ((st.access op).1, s') ∧
      Holds s' items' (st.access op).2.socketfds ∧
      ((st.access op).2.socketfds.map ProxySocketfd.key).Nodup ∧
      (st.access op).2.socketfds.length ≤ st.socketfds.length + 1 := by
  have hfuel' : st.socketfds.length < fuel := by omega
  cases op with
  | find mac =>
    obtain ⟨q, hq, hlookup, _⟩ := holds_find h hnd hfuel' mac
    exact ⟨s, items, by simp [Uthash.access, hq, hlookup, Proxy.access, Proxy.findSocketfd], h, hnd,
      Nat.le_succ _⟩
  | add mac fd =>
    obtain ⟨q, hq, hlookup, hmem⟩ := holds_find h hnd hfuel' mac
    simp only [Uthash.access, hq, Option.bind_eq_bind, Option.bind_some, Proxy.access]
    cases q with
    | none =>
      have hnone : st.findSocketfd mac = none := hlookup.symm
      obtain ⟨s', hadd, hholds⟩ := holds_add h hfuel (uninit s.elems.length) mac fd
      rw [if_pos hnone]
      refine ⟨s', _, by simp [hadd], hholds, List.nodup_cons.mpr ⟨?_, hnd⟩, Nat.le_refl _⟩
      exact lookup_none.mp hnone
    | some a =>
      have hsome : st.findSocketfd mac ≠ none := by
        obtain ⟨e, he, _⟩ := h.intact.elem a (hmem a rfl)
        rw [Option.bind_some, he] at hlookup
        exact fun h => by rw [Proxy.findSocketfd, ← hlookup] at h; cases h
      rw [if_neg hsome]
      exact ⟨s, items, rfl, h, hnd, Nat.le_succ _⟩
  | setFd mac fd =>
    obtain ⟨q, hq, hlookup, hmem⟩ := holds_find h hnd hfuel' mac
    simp only [Uthash.access, hq, Option.bind_eq_bind, Option.bind_some, Proxy.access,
      Proxy.setSockFd_socketfds, keys_assign_sockFd]
    cases q with
    | none =>
      rw [assign_of_lookup_none hlookup.symm]
      exact ⟨s, items, rfl, h, hnd, Nat.le_succ _⟩
    | some a =>
      obtain ⟨e, he, _⟩ := h.intact.elem a (hmem a rfl)
      have hitem : (s.elems[a]?).map Elem.item = some e.item := by rw [he]; rfl
      rw [Option.bind_some, hitem] at hlookup
      have hholds := holds_setSockFd h hnd (hmem a rfl) hitem fd
      rw [(lookup_some hlookup.symm).2] at hholds
      refine ⟨_, items, rfl, hholds, hnd, ?_⟩
      rw [← hholds.length, h.length]
      exact Nat.le_succ _
  | delete mac =>
    obtain ⟨s', items', hok, hholds⟩ := holds_delete h hnd hfuel' mac
    simp only [Proxy.access, Proxy.deletesockfd_socketfds]
    refine ⟨s', items', by simp [Uthash.access, hok], hholds, nodup_keys_remove hnd, ?_⟩
    exact Nat.le_succ_of_le (List.eraseP_sublist.length_le)
  | iterate =>
    exact ⟨s, items, by simp [Uthash.access, holds_iterate h hfuel', Proxy.access], h, hnd,
      Nat.le_succ _⟩

theorem accesses_holds (uninit : Addr → UtHashHandle) {ops : List TableAccess} :
    ∀ (st : Proxy) {s : UtHash ProxySocketfd} {items : List Addr}, Holds s items st.socketfds →
      (st.socketfds.map ProxySocketfd.key).Nodup → st.socketfds.length + ops.length < fuel →
      ∃ s' items', Uthash.accesses fuel uninit ops s = some ((Proxy.accesses ops st).1, s') ∧
        Holds s' items' (Proxy.accesses ops st).2.socketfds ∧ items'.length < fuel := by
  induction ops with
  | nil =>
    intro st s items h _ hfuel
    exact ⟨s, items, rfl, h, by rw [h.length]; exact hfuel⟩
  | cons op ops ih =>
    intro st s items h hnd hfuel
    rw [List.length_cons] at hfuel
    have hfuel₁ : st.socketfds.length + 1 < fuel := by omega
    obtain ⟨s₁, items₁, hop, h₁, hnd₁, hlen⟩ := access_refines h hnd hfuel₁ uninit op
    obtain ⟨s', items', hops, h', hlen'⟩ := ih _ h₁ hnd₁ (by omega)
    exact ⟨s', items', by simp [Uthash.accesses, Proxy.accesses, hop, hops], h', hlen'⟩

/-- Any accesses, from an empty table on, meet the same entries in memory as on the list, and what
they leave in memory passes the check of uthash. -/
theorem accesses_refine (uninit : Addr → UtHashHandle) (ops : List TableAccess)
    (hfuel : ops.length < fuel) :
    ∃ s, Uthash.accesses fuel uninit ops Uthash.empty =
        some ((Proxy.accesses ops Proxy.start).1, s) ∧
      hashFsck fuel s = true := by
  obtain ⟨s, items, hok, h, hlen⟩ := accesses_holds uninit Proxy.start
    (holds_nil [] none) List.nodup_nil (by simpa [Proxy.start] using hfuel)
  exact ⟨s, hok, hashFsck_intact h.intact hlen⟩

/-- An entry is added twice, redirected and deleted. -/
theorem some_accesses_refine :
    let ops : List TableAccess :=
      [.add (host 2).macaddr 4, .add (host 3).macaddr 5, .add (host 2).macaddr 6, .setFd (host 3).macaddr 7,
        .iterate, .delete (host 2).macaddr, .find (host 2).macaddr, .iterate]
    let hh : UtHashHandle := { prev := some 1, next := some 2, hhPrev := none, hhNext := some 3, keylen := 9, hashv := 0 }
    ∃ s, Uthash.accesses 9 (fun _ => hh) ops Uthash.empty = some ((Proxy.accesses ops Proxy.start).1, s) ∧
      hashFsck 9 s = true := by
  intro ops hh
  exact accesses_refine (fun _ => hh) ops (by decide)

end Cs352Proxy
