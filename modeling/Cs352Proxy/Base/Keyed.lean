import Mathlib.Tactic.Common
import Mathlib.Data.List.Nodup

/-!
# Base.Keyed

A table as a list of entries, newest first, each with a key computed from the entry. `lookup`
finds the newest entry with a key, `remove` drops it and `assign` rewrites it. While no two
entries share a key the list is a finite map: `lookup_remove`, `lookup_assign` and `lookup_cons`
are its laws.
-/

namespace Base

variable {ε κ : Type} [DecidableEq κ] (key : ε → κ)

def lookup (l : List ε) (k : κ) : Option ε := l.find? fun e => key e == k

def remove (l : List ε) (k : κ) : List ε := l.eraseP fun e => key e == k

/-- Rewrite the newest entry with key `k` by `f`. -/
def assign (f : ε → ε) (l : List ε) (k : κ) : List ε :=
  match l with
  | [] => []
  | e :: es => if key e = k then f e :: es else e :: assign f es k

variable {key} {l : List ε} {k k' : κ} {e : ε} {f : ε → ε}

theorem lookup_cons : lookup key (e :: l) k = if key e = k then some e else lookup key l k := by
  by_cases h : key e = k <;> simp [lookup, h]

theorem lookup_some (h : lookup key l k = some e) : e ∈ l ∧ key e = k := by
  have hp := List.find?_some h
  exact ⟨List.mem_of_find?_eq_some h, by simpa using hp⟩

theorem lookup_none : lookup key l k = none ↔ k ∉ l.map key := by
  simp [lookup, List.find?_eq_none]

theorem remove_of_lookup_none (h : lookup key l k = none) : remove key l k = l :=
  List.eraseP_of_forall_not fun e he hk =>
    lookup_none.mp h (List.mem_map.mpr ⟨e, he, by simpa using hk⟩)

theorem remove_eq_self_iff : remove key l k = l ↔ lookup key l k = none := by
  refine ⟨fun h => ?_, remove_of_lookup_none⟩
  cases hlookup : lookup key l k with
  | none => rfl
  | some e =>
    obtain ⟨hmem, hkey⟩ := lookup_some hlookup
    have hlen := List.length_eraseP_of_mem (p := fun e => key e == k) hmem (by simpa using hkey)
    have hpos := List.length_pos_of_mem hmem
    rw [show l.eraseP (fun e => key e == k) = l from h] at hlen
    omega

theorem keys_remove : (remove key l k).map key = (l.map key).erase k := by
  induction l with
  | nil => rfl
  | cons x xs ih =>
    by_cases h : key x = k
    · simp [remove, h]
    · simpa [remove, h, List.erase_cons_tail] using ih

theorem nodup_keys_remove (hnd : (l.map key).Nodup) : ((remove key l k).map key).Nodup :=
  (List.eraseP_sublist.map key).nodup hnd

theorem remove_eq_filter (hnd : (l.map key).Nodup) :
    remove key l k = l.filter fun e => key e ≠ k := by
  induction l with
  | nil => rfl
  | cons x xs ih =>
    rw [List.map_cons, List.nodup_cons] at hnd
    by_cases hx : key x = k
    · have hrest : ∀ e ∈ xs, key e ≠ k := fun e he hk =>
        hnd.1 (List.mem_map.mpr ⟨e, he, hk.trans hx.symm⟩)
      have hrem : remove key (x :: xs) k = xs := by simp [remove, hx]
      rw [hrem, List.filter_cons_of_neg (by simp [hx]),
        List.filter_eq_self.mpr (by simpa using hrest)]
    · have hrem : remove key (x :: xs) k = x :: remove key xs k := by simp [remove, hx]
      rw [hrem, List.filter_cons_of_pos (by simp [hx]), ih hnd.2]

section Split

variable {ys xs : List ε}

theorem lookup_middle (hys : ∀ y ∈ ys, key y ≠ k) (he : key e = k) :
    lookup key (ys ++ e :: xs) k = some e := by
  rw [lookup, List.find?_append, List.find?_eq_none.mpr (by simpa using hys)]
  simp [he]

theorem remove_middle (hys : ∀ y ∈ ys, key y ≠ k) (he : key e = k) :
    remove key (ys ++ e :: xs) k = ys ++ xs := by
  rw [remove, List.eraseP_append_right _ (by simpa using hys), List.eraseP_cons_of_pos (by simpa using he)]

theorem assign_middle (hys : ∀ y ∈ ys, key y ≠ k) (he : key e = k) :
    assign key f (ys ++ e :: xs) k = ys ++ f e :: xs := by
  induction ys with
  | nil => simp [assign, he]
  | cons y ys ih =>
    rw [List.cons_append, assign, if_neg (hys y (by simp)), ih fun z hz => hys z (by simp [hz])]
    rfl

theorem assign_of_lookup_none (h : lookup key l k = none) : assign key f l k = l := by
  induction l with
  | nil => rfl
  | cons y ys ih =>
    have hmem := lookup_none.mp h
    rw [List.map_cons, List.mem_cons, not_or] at hmem
    rw [assign, if_neg (Ne.symm hmem.1), ih (lookup_none.mpr hmem.2)]

end Split

theorem map_assign {β : Type} {g : ε → β} (hg : ∀ e, g (f e) = g e) :
    (assign key f l k).map g = l.map g := by
  induction l with
  | nil => rfl
  | cons x xs ih =>
    unfold assign
    split
    · simp [hg]
    · simp [ih]

theorem lookup_remove (hnd : (l.map key).Nodup) :
    lookup key (remove key l k) k' = if k = k' then none else lookup key l k' := by
  by_cases h : k = k'
  · subst h
    rw [if_pos rfl, lookup_none, keys_remove]
    exact hnd.not_mem_erase
  · rw [if_neg h]
    induction l with
    | nil => rfl
    | cons x xs ih =>
      rw [List.map_cons, List.nodup_cons] at hnd
      by_cases hx : key x = k
      · have hrem : remove key (x :: xs) k = xs := by simp [remove, hx]
        rw [hrem, lookup_cons, if_neg (fun hk => h (hx.symm.trans hk))]
      · have hrem : remove key (x :: xs) k = x :: remove key xs k := by simp [remove, hx]
        rw [hrem, lookup_cons, lookup_cons, ih hnd.2]

theorem lookup_assign (hf : ∀ e, key (f e) = key e) :
    lookup key (assign key f l k) k' =
      if k = k' then (lookup key l k').map f else lookup key l k' := by
  induction l with
  | nil => simp [assign, lookup]
  | cons x xs ih =>
    simp only [assign]
    by_cases hx : key x = k
    · simp only [if_pos hx, lookup_cons, hf]
      by_cases hk : k = k'
      · simp [hk, hx.trans hk]
      · have hxk : key x ≠ k' := fun h => hk (hx.symm.trans h)
        simp [hk, hxk]
    · simp only [if_neg hx, lookup_cons, ih]
      by_cases hk : k = k'
      · have hxk : key x ≠ k' := fun h => hx (h.trans hk.symm)
        simp [hk, hxk]
      · simp [hk]

end Base
