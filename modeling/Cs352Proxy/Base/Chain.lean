import Mathlib.Tactic.Common
import Mathlib.Data.List.Nodup
import Mathlib.Data.List.Perm.Subperm

/-!
# Base.Chain

Singly linked lists in a heap. The heap is the list of all cells ever allocated, an address is an
index into it, and `next` reads a cell's link (`none` is the null pointer).

* `Seg next h p xs q`: following `next` from `p` visits exactly the cells `xs` (address and
  content, in order) and then stands at `q`. A null-terminated list is `Seg next h p xs none`.
* `Seg.unique`, `Seg.nodup`: a null-terminated list is determined by its first pointer and visits
  no address twice.
* `Seg.frame`: what a write must leave alone for a list to stay where it is.
* `Seg.update`, `Seg.unlink`: rewriting a cell, removing a cell behind another one. `Seg.reinsert`: putting it back.
* `Looped`: a set of addresses that `next` never leaves; a walk inside it never sees null.
* `walk`: the list at a pointer, computed; `walk_eq_some` says when it is null-terminated.
* `cellsAt`: cells laid out one behind the other.
-/

namespace Base

variable {α : Type} (next : α → Option Nat)

def Seg (h : List α) : Option Nat → List (Nat × α) → Option Nat → Prop
  | p, [], q => p = q
  | p, (a, c) :: xs, q => p = some a ∧ h[a]? = some c ∧ Seg h (next c) xs q

variable {next} {h h' : List α} {p q : Option Nat} {xs ys : List (Nat × α)}

theorem seg_append :
    Seg next h p (xs ++ ys) q ↔ ∃ m, Seg next h p xs m ∧ Seg next h m ys q := by
  induction xs generalizing p with
  | nil => simp [Seg]
  | cons x xs ih =>
    obtain ⟨a, c⟩ := x
    simp only [List.cons_append, Seg, ih]
    constructor
    · intro hs
      obtain ⟨hp, hc, m, hxs, hys⟩ := hs
      exact ⟨m, ⟨hp, hc, hxs⟩, hys⟩
    · intro hs
      obtain ⟨m, ⟨hp, hc, hxs⟩, hys⟩ := hs
      exact ⟨hp, hc, m, hxs, hys⟩

namespace Seg

theorem get (hs : Seg next h p xs q) : ∀ x ∈ xs, h[x.1]? = some x.2 := by
  induction xs generalizing p with
  | nil => intro x hx; cases hx
  | cons y ys ih =>
    obtain ⟨_, hc, hrest⟩ := hs
    intro x hx
    rcases List.mem_cons.mp hx with rfl | hx
    · exact hc
    · exact ih hrest x hx

theorem lt_length (hs : Seg next h p xs q) : ∀ x ∈ xs, x.1 < h.length := by
  intro x hx
  exact (List.getElem?_eq_some_iff.mp (hs.get x hx)).1

theorem frame (hs : Seg next h p xs q) (hf : ∀ x ∈ xs, h'[x.1]? = some x.2) :
    Seg next h' p xs q := by
  induction xs generalizing p with
  | nil => exact hs
  | cons y ys ih =>
    obtain ⟨hp, _, hrest⟩ := hs
    exact ⟨hp, hf y (by simp), ih hrest fun x hx => hf x (by simp [hx])⟩

theorem unique (hx : Seg next h p xs none) (hy : Seg next h p ys none) : xs = ys := by
  induction xs generalizing p ys with
  | nil =>
    cases ys with
    | nil => rfl
    | cons y ys => obtain ⟨hp, _, _⟩ := hy; rw [hx] at hp; cases hp
  | cons x xs ih =>
    obtain ⟨hpx, hcx, hrx⟩ := hx
    cases ys with
    | nil => rw [hy] at hpx; cases hpx
    | cons y ys =>
      obtain ⟨hpy, hcy, hry⟩ := hy
      have ha : x.1 = y.1 := Option.some.inj (hpx.symm.trans hpy)
      have hc : x.2 = y.2 := by rw [ha] at hcx; exact Option.some.inj (hcx.symm.trans hcy)
      rw [hc] at hrx
      rw [Prod.ext ha hc, ih hrx hry]

theorem same_end {q' : Option Nat} (hx : Seg next h p xs q) (hy : Seg next h p ys q')
    (hlen : xs.length = ys.length) : q = q' := by
  induction xs generalizing p ys with
  | nil =>
    cases ys with
    | nil => exact hx.symm.trans hy
    | cons y ys => cases hlen
  | cons x xs ih =>
    cases ys with
    | nil => cases hlen
    | cons y ys =>
      obtain ⟨hpx, hcx, hrx⟩ := hx
      obtain ⟨hpy, hcy, hry⟩ := hy
      have ha : x.1 = y.1 := Option.some.inj (hpx.symm.trans hpy)
      rw [ha] at hcx
      rw [Option.some.inj (hcx.symm.trans hcy)] at hrx
      exact ih hrx hry (Nat.succ.inj hlen)

theorem nodup (hs : Seg next h p xs none) : (xs.map Prod.fst).Nodup := by
  induction xs generalizing p with
  | nil => simp
  | cons x xs ih =>
    obtain ⟨hp, hc, hrest⟩ := hs
    rw [List.map_cons, List.nodup_cons]
    refine ⟨?_, ih hrest⟩
    intro hmem
    obtain ⟨y, hy, hyx⟩ := List.mem_map.mp hmem
    -- `x` again further down would make the list its own proper suffix
    obtain ⟨pre, post, rfl⟩ := List.append_of_mem hy
    obtain ⟨m, _, hm, hcy, hpost⟩ := seg_append.mp hrest
    have hsame : (y :: post) = x :: (pre ++ y :: post) := by
      refine unique (p := some x.1) ⟨by rw [hyx], hcy, hpost⟩ ⟨rfl, hc, hrest⟩
    have hlen := congrArg List.length hsame
    simp only [List.length_cons, List.length_append] at hlen
    omega

theorem next_mem (hs : Seg next h p xs q) :
    ∀ x ∈ xs, next x.2 = q ∨ ∃ y ∈ xs, next x.2 = some y.1 := by
  induction xs generalizing p with
  | nil => intro x hx; cases hx
  | cons z zs ih =>
    obtain ⟨_, _, hrest⟩ := hs
    intro x hx
    rcases List.mem_cons.mp hx with rfl | hx
    · cases zs with
      | nil => exact .inl hrest
      | cons y ys => exact .inr ⟨y, by simp, hrest.1⟩
    · rcases ih hrest x hx with hq | ⟨y, hy, hn⟩
      · exact .inl hq
      · exact .inr ⟨y, by simp [hy], hn⟩

theorem not_mem_behind {pre post : List (Nat × α)} {b : Nat} {cb : α}
    (hs : Seg next h p (pre ++ (b, cb) :: post) none) : ∀ x ∈ post, x.1 ≠ b := by
  have hnd := hs.nodup
  simp only [List.map_append, List.map_cons] at hnd
  intro x hx hxb
  exact (List.nodup_cons.mp (List.nodup_append.mp hnd).2.1).1 (hxb ▸ List.mem_map_of_mem hx)

theorem splice {pre post tail : List (Nat × α)} {b : Nat} {cb cb' : α}
    (hs : Seg next h p (pre ++ (b, cb) :: tail) none) (hb : h'[b]? = some cb')
    (hpost : Seg next h (next cb') post none) (hne : ∀ x ∈ post, x.1 ≠ b)
    (hf : ∀ x, x ≠ b → h'[x]? = h[x]?) : Seg next h' p (pre ++ (b, cb') :: post) none := by
  have hnd := hs.nodup
  rw [List.map_append, List.map_cons] at hnd
  obtain ⟨m, hpre, hm, _, _⟩ := seg_append.mp hs
  have hpre_ne : ∀ x ∈ pre, x.1 ≠ b := fun x hx =>
    (List.nodup_append.mp hnd).2.2 x.1 (List.mem_map_of_mem hx) b (by simp)
  refine seg_append.mpr ⟨m, hpre.frame fun x hx => ?_, hm, hb, hpost.frame fun x hx => ?_⟩
  · rw [hf _ (hpre_ne x hx)]
    exact hpre.get x hx
  · rw [hf _ (hne x hx)]
    exact hpost.get x hx

theorem snoc {pre : List (Nat × α)} {a b : Nat} {ca cb cb' : α}
    (hs : Seg next h p (pre ++ [(b, cb)]) none) (hb : h'[b]? = some cb') (hn : next cb' = some a)
    (ha : h'[a]? = some ca) (hend : next ca = none) (hfresh : ∀ x ∈ pre, x.1 ≠ a)
    (hf : ∀ x, x ≠ a → x ≠ b → h'[x]? = h[x]?) : Seg next h' p (pre ++ [(b, cb'), (a, ca)]) none := by
  have hnd := hs.nodup
  rw [List.map_append, List.map_cons] at hnd
  obtain ⟨m, hpre, hm, _, _⟩ := seg_append.mp hs
  refine seg_append.mpr ⟨m, hpre.frame fun x hx => ?_, hm, hb, hn, ha, hend⟩
  have hxb : x.1 ≠ b := (List.nodup_append.mp hnd).2.2 x.1 (List.mem_map_of_mem hx) b (by simp)
  rw [hf _ (hfresh x hx) hxb]
  exact hpre.get x hx

/-- Redirecting the link of `b` over its successor `a` removes `a` from the list. -/
theorem unlink {pre post : List (Nat × α)} {a b : Nat} {ca cb cb' : α}
    (hs : Seg next h p (pre ++ (b, cb) :: (a, ca) :: post) none)
    (hb : h'[b]? = some cb') (hn : next cb' = next ca)
    (hf : ∀ x, x ≠ b → h'[x]? = h[x]?) :
    Seg next h' p (pre ++ (b, cb') :: post) none := by
  obtain ⟨m, _, _, _, _, _, hpost⟩ := seg_append.mp hs
  rw [← hn] at hpost
  exact hs.splice hb hpost (fun x hx => hs.not_mem_behind x (by simp [hx])) hf

theorem update {pre post : List (Nat × α)} {b : Nat} {cb cb' : α}
    (hs : Seg next h p (pre ++ (b, cb) :: post) none) (hb : h'[b]? = some cb')
    (hn : next cb' = next cb) (hf : ∀ x, x ≠ b → h'[x]? = h[x]?) :
    Seg next h' p (pre ++ (b, cb') :: post) none := by
  obtain ⟨m, _, _, _, hpost⟩ := seg_append.mp hs
  rw [← hn] at hpost
  exact hs.splice hb hpost hs.not_mem_behind hf

/-- A list that ends where the link of `b` leads over `a` also ends where it leads to `a`. -/
theorem reinsert {a b : Nat} {ca cb cb' : α} (hs : Seg next h' p xs none) (ha : h[a]? = some ca)
    (hb : h[b]? = some cb) (hn : next cb = some a) (hb' : h'[b]? = some cb')
    (hn' : next cb' = next ca) (hf : ∀ x, x ≠ b → h'[x]? = h[x]?) :
    ∃ ys, Seg next h p ys none := by
  by_cases hmem : b ∈ xs.map Prod.fst
  · obtain ⟨x, hx, hxb⟩ := List.mem_map.mp hmem
    obtain ⟨pre, post, rfl⟩ := List.append_of_mem hx
    have hnd := hs.nodup
    rw [List.map_append, List.map_cons, hxb] at hnd
    have hne : ∀ y ∈ pre ++ post, y.1 ≠ b := by
      intro y hy hyb
      rcases List.mem_append.mp hy with hy | hy
      · exact (List.nodup_append.mp hnd).2.2 y.1 (List.mem_map_of_mem hy) b (by simp) hyb
      · exact (List.nodup_cons.mp (List.nodup_append.mp hnd).2.1).1 (hyb ▸ List.mem_map_of_mem hy)
    obtain ⟨m, hpre, hm, hget, hpost⟩ := seg_append.mp hs
    rw [hxb] at hm hget
    rw [← Option.some.inj (hb'.symm.trans hget), hn'] at hpost
    refine ⟨pre ++ (b, cb) :: (a, ca) :: post, seg_append.mpr ⟨m, ?_, hm, hb, hn, ha, ?_⟩⟩
    · exact hpre.frame fun y hy => by rw [← hf _ (hne y (by simp [hy]))]; exact hpre.get y hy
    · exact hpost.frame fun y hy => by rw [← hf _ (hne y (by simp [hy]))]; exact hpost.get y hy
  · refine ⟨xs, hs.frame fun y hy => ?_⟩
    rw [← hf _ fun hyb => hmem (hyb ▸ List.mem_map_of_mem hy)]
    exact hs.get y hy

end Seg

/-! ## Reading a list -/

/-- The null-terminated list at `p`, if it ends within `n` steps. -/
def walk (next : α → Option Nat) (h : List α) : Nat → Option Nat → Option (List (Nat × α))
  | _, none => some []
  | 0, some _ => none
  | n + 1, some a => do
    let c ← h[a]?
    let xs ← walk next h n (next c)
    some ((a, c) :: xs)

theorem Seg.walk_eq (hs : Seg next h p xs none) {n : Nat} (hn : xs.length ≤ n) :
    walk next h n p = some xs := by
  induction xs generalizing p n with
  | nil =>
    cases hs
    unfold walk
    rfl
  | cons x xs ih =>
    obtain ⟨hp, hc, hrest⟩ := hs
    subst hp
    cases n with
    | zero => simp at hn
    | succ n =>
      have hxs := ih hrest (by simpa using hn)
      simp only [walk, hc, hxs, Option.bind_eq_bind, Option.bind_some]

theorem seg_of_walk {n : Nat} (hw : walk next h n p = some xs) : Seg next h p xs none := by
  induction n generalizing p xs with
  | zero =>
    cases p with
    | none => cases hw; rfl
    | some a => cases hw
  | succ n ih =>
    cases p with
    | none => cases hw; rfl
    | some a =>
      simp only [walk, Option.bind_eq_bind, Option.bind_eq_some_iff, Option.some.injEq] at hw
      obtain ⟨c, hc, ys, hys, rfl⟩ := hw
      exact ⟨rfl, hc, ih hys⟩

theorem Seg.length_le (hs : Seg next h p xs none) : xs.length ≤ h.length := by
  have hsub : xs.map Prod.fst ⊆ List.range h.length := by
    intro a ha
    obtain ⟨x, hx, rfl⟩ := List.mem_map.mp ha
    exact List.mem_range.mpr (hs.lt_length x hx)
  have hle := (List.subperm_of_subset hs.nodup hsub).length_le
  simpa using hle

theorem walk_eq_some : walk next h h.length p = some xs ↔ Seg next h p xs none :=
  ⟨seg_of_walk, fun hs => hs.walk_eq hs.length_le⟩

/-! ## Loops -/

/-- `next` leads from every address in `S` to an address in `S`. -/
def Looped (next : α → Option Nat) (h : List α) (S : Nat → Prop) : Prop :=
  ∀ a, S a → ∃ c b, h[a]? = some c ∧ next c = some b ∧ S b

theorem Looped.frame {S : Nat → Prop} (hr : Looped next h S)
    (hf : ∀ a, S a → (h'[a]?).map next = (h[a]?).map next) : Looped next h' S := by
  intro a ha
  obtain ⟨c, b, hc, hn, hb⟩ := hr a ha
  have hmap := hf a ha
  rw [hc, Option.map_some] at hmap
  obtain ⟨c', hc', hn'⟩ := Option.map_eq_some_iff.mp hmap
  exact ⟨c', b, hc', hn'.trans hn, hb⟩

theorem Looped.not_seg {S : Nat → Prop} {a : Nat} (hr : Looped next h S) (ha : S a) :
    ¬ Seg next h (some a) xs none := by
  induction xs generalizing a with
  | nil => intro hs; cases hs
  | cons x xs ih =>
    intro hs
    obtain ⟨hp, hget, hrest⟩ := hs
    obtain ⟨c, b, hc, hn, hb⟩ := hr a ha
    cases hp
    rw [hc] at hget
    cases hget
    rw [hn] at hrest
    exact ih hb hrest

theorem Looped.relink {S : Nat → Prop} {a b : Nat} {c : α} (hr : Looped next h S) (hb : S b)
    (hc : h'[a]? = some c) (hn : next c = some b)
    (hf : ∀ x, x ≠ a → (h'[x]?).map next = (h[x]?).map next) : Looped next h' S := by
  intro x hx
  by_cases hxa : x = a
  · subst hxa; exact ⟨c, b, hc, hn, hb⟩
  · obtain ⟨cx, bx, hcx, hnx, hbx⟩ := hr x hx
    have hmap := hf x hxa
    rw [hcx, Option.map_some] at hmap
    obtain ⟨c', hc', hn'⟩ := Option.map_eq_some_iff.mp hmap
    exact ⟨c', bx, hc', hn'.trans hnx, hbx⟩

/-- Linking the last cell of a segment back to its first address closes a loop. -/
theorem Seg.closes {pre : List (Nat × α)} {a b : Nat} {ca c : α}
    (hs : Seg next h (some b) (pre ++ [(a, ca)]) q)
    (hc : h'[a]? = some c) (hn : next c = some b)
    (hf : ∀ x, x ≠ a → (h'[x]?).map next = (h[x]?).map next) :
    Looped next h' fun x => x ∈ (pre ++ [(a, ca)]).map Prod.fst := by
  obtain ⟨m, hpre, hm, _, _⟩ := seg_append.mp hs
  subst hm
  have hb : b ∈ (pre ++ [(a, ca)]).map Prod.fst := by
    cases pre with
    | nil => cases hpre; simp
    | cons y ys => obtain ⟨hy, _, _⟩ := hpre; cases hy; simp
  intro x hx
  by_cases hxa : x = a
  · subst hxa; exact ⟨c, b, hc, hn, hb⟩
  · obtain ⟨y, hy, rfl⟩ := List.mem_map.mp hx
    have hypre : y ∈ pre := by
      rcases List.mem_append.mp hy with hy | hy
      · exact hy
      · rw [List.mem_singleton] at hy; subst hy; exact absurd rfl hxa
    have hmap := hf y.1 hxa
    rw [hpre.get y hypre, Option.map_some] at hmap
    obtain ⟨c', hc', hn'⟩ := Option.map_eq_some_iff.mp hmap
    rcases hpre.next_mem y hypre with hq | ⟨z, hz, hzn⟩
    · exact ⟨c', a, hc', hn'.trans hq, by simp⟩
    · exact ⟨c', z.1, hc', hn'.trans hzn, by simp; exact .inl ⟨_, hz⟩⟩

/-- Linking a cell of a list to the first one closes a loop. -/
theorem Seg.closes_first {pre cur : List (Nat × α)} {x : Nat × α} {c : α}
    (hs : Seg next h p (pre ++ x :: cur) q) (hc : h'[x.1]? = some c) (hn : next c = p)
    (hf : ∀ y, y ≠ x.1 → (h'[y]?).map next = (h[y]?).map next) :
    ∃ (S : Nat → Prop) (b : Nat), p = some b ∧ Looped next h' S ∧ S b ∧ S x.1 := by
  rw [show pre ++ x :: cur = (pre ++ [x]) ++ cur by simp] at hs
  obtain ⟨m, hseg, _⟩ := seg_append.mp hs
  have hfirst : ∃ b, p = some b ∧ b ∈ (pre ++ [x]).map Prod.fst := by
    cases pre with
    | nil => exact ⟨_, hseg.1, by simp⟩
    | cons y ys => exact ⟨_, hseg.1, by simp⟩
  obtain ⟨b, hb, hmem⟩ := hfirst
  rw [hb] at hseg hn
  exact ⟨_, b, hb, hseg.closes hc hn hf, hmem, by simp⟩

/-! ## Cells in a row -/

/-- The cells `ns` with the addresses they get when laid out from `base`. -/
def cellsAt (base : Nat) : List α → List (Nat × α)
  | [] => []
  | c :: cs => (base, c) :: cellsAt (base + 1) cs

@[simp] theorem length_cellsAt (base : Nat) (ns : List α) : (cellsAt base ns).length = ns.length := by
  induction ns generalizing base with
  | nil => rfl
  | cons c cs ih => rw [cellsAt, List.length_cons, ih, List.length_cons]

theorem le_of_mem_cellsAt {base : Nat} {ns : List α} : ∀ x ∈ cellsAt base ns, base ≤ x.1 := by
  induction ns generalizing base with
  | nil => simp [cellsAt]
  | cons c cs ih =>
    intro x hx
    rcases List.mem_cons.mp hx with rfl | hx
    · exact Nat.le_refl _
    · exact Nat.le_of_succ_le (ih x hx)

theorem modify_append_add (l₁ l₂ : List α) (i : Nat) (f : α → α) :
    (l₁ ++ l₂).modify (l₁.length + i) f = l₁ ++ l₂.modify i f := by
  induction l₁ with
  | nil => simp
  | cons x xs ih =>
    have hi : (x :: xs).length + i = (xs.length + i) + 1 := by simp; omega
    rw [hi, List.cons_append, List.modify_succ_cons, ih, List.cons_append]

end Base
