import Mathlib.Tactic.Common
import Mathlib.Data.List.Nodup
import Mathlib.Logic.Function.Basic

/-!
# Base.Doubly

Doubly linked lists. `prev` and `next` are the links of every address, `none` is the null pointer.

* `DSeg prev next back p as last q`: following `next` from `p` visits the addresses `as` and then
  stands at `q`; every address links back to the one before it, the first one to `back`, and `last`
  is the last one (`back` if there is none).
* `DSeg.setEnd`, `DSeg.setBack`: redirecting the link out of either end.
* `DSeg.push`, `DSeg.snoc`, `DSeg.remove`: a node at the front, at the end, and out of the middle.
-/

namespace Base

variable {ι : Type}

def DSeg (prev next : ι → Option ι) :
    Option ι → Option ι → List ι → Option ι → Option ι → Prop
  | back, p, [], last, q => p = q ∧ back = last
  | back, p, a :: as, last, q => p = some a ∧ prev a = back ∧ DSeg prev next (some a) (next a) as last q

variable {prev next prev' next' : ι → Option ι} {back p last q : Option ι} {as bs : List ι}

theorem dseg_append : DSeg prev next back p (as ++ bs) last q ↔
    ∃ l m, DSeg prev next back p as l m ∧ DSeg prev next l m bs last q := by
  induction as generalizing back p with
  | nil =>
    constructor
    · intro h
      exact ⟨back, p, ⟨rfl, rfl⟩, h⟩
    · intro h
      obtain ⟨l, m, ⟨rfl, rfl⟩, h⟩ := h
      exact h
  | cons a as ih =>
    simp only [List.cons_append, DSeg, ih]
    constructor
    · intro h
      obtain ⟨hp, hback, l, m, has, hbs⟩ := h
      exact ⟨l, m, ⟨hp, hback, has⟩, hbs⟩
    · intro h
      obtain ⟨l, m, ⟨hp, hback, has⟩, hbs⟩ := h
      exact ⟨hp, hback, l, m, has, hbs⟩

namespace DSeg

theorem congr (hs : DSeg prev next back p as last q)
    (hf : ∀ a ∈ as, prev' a = prev a ∧ next' a = next a) : DSeg prev' next' back p as last q := by
  induction as generalizing back p with
  | nil => exact hs
  | cons a as ih =>
    obtain ⟨hp, hback, hrest⟩ := hs
    obtain ⟨hprev, hnext⟩ := hf a (by simp)
    refine ⟨hp, hprev.trans hback, ?_⟩
    rw [hnext]
    exact ih hrest fun x hx => hf x (by simp [hx])

theorem eq_nil_iff (hs : DSeg prev next back p as last none) : as = [] ↔ p = none := by
  cases as with
  | nil => simp [hs.1]
  | cons a as => simp [hs.1]

theorem last_eq (hs : DSeg prev next back p as last q) : last = as.getLast?.or back := by
  induction as generalizing back p with
  | nil => exact hs.2.symm
  | cons a as ih =>
    rw [ih hs.2.2, List.getLast?_cons]
    cases as.getLast? <;> rfl

theorem head_eq (hs : DSeg prev next back p as last none) : p = as.head? := by
  cases as with
  | nil => exact hs.1
  | cons a as => exact hs.1

theorem unique {back' last' : Option ι} (hs : DSeg prev next back p as last none)
    (hs' : DSeg prev next back' p bs last' none) : as = bs := by
  induction as generalizing back back' p bs with
  | nil =>
    rw [hs.1] at hs'
    exact (hs'.eq_nil_iff.mpr rfl).symm
  | cons a as ih =>
    obtain ⟨hp, _, hrest⟩ := hs
    cases bs with
    | nil => rw [hs'.1] at hp; cases hp
    | cons b bs =>
      obtain ⟨hp', _, hrest'⟩ := hs'
      cases hp.symm.trans hp'
      rw [ih hrest hrest']

theorem neighbours {a : ι} (hs : DSeg prev next none p (as ++ a :: bs) last none) :
    prev a = as.getLast? ∧ next a = bs.head? := by
  obtain ⟨l, m, has, _, hl, hbs⟩ := dseg_append.mp hs
  refine ⟨?_, hbs.head_eq⟩
  rw [hl, has.last_eq, Option.or_none]

theorem setEnd {b : ι} {q' : Option ι} (hs : DSeg prev next back p (as ++ [b]) last q)
    (hb : next' b = q') (hnext : ∀ a ∈ as, next' a = next a) (hprev : ∀ a ∈ as ++ [b], prev' a = prev a) :
    DSeg prev' next' back p (as ++ [b]) (some b) q' := by
  obtain ⟨l, m, has, hm, hl, _⟩ := dseg_append.mp hs
  refine dseg_append.mpr ⟨l, m, has.congr fun a ha => ⟨hprev a (by simp [ha]), hnext a ha⟩, hm, ?_, hb,
    rfl⟩
  rw [hprev b (by simp), hl]

theorem setBack {a : ι} {back' : Option ι} (hs : DSeg prev next back p (a :: as) last q)
    (ha : prev' a = back') (hprev : ∀ x ∈ as, prev' x = prev x) (hnext : ∀ x ∈ a :: as, next' x = next x) :
    DSeg prev' next' back' p (a :: as) last q := by
  obtain ⟨hp, _, hrest⟩ := hs
  refine ⟨hp, ha, ?_⟩
  rw [hnext a (by simp)]
  exact hrest.congr fun x hx => ⟨hprev x hx, hnext x (by simp [hx])⟩

/-- The pointer to the end of the list points to `a` exactly if nothing follows it. -/
theorem last_eq_some_iff {a : ι} (hs : DSeg prev next none p (as ++ a :: bs) last none)
    (hnd : (as ++ a :: bs).Nodup) : last = some a ↔ next a = none := by
  rw [hs.neighbours.2, hs.last_eq, Option.or_none, List.getLast?_append_cons]
  cases bs with
  | nil => simp
  | cons b bs =>
    have ha := (List.nodup_cons.mp (List.nodup_append.mp hnd).2.1).1
    rw [List.getLast?_cons_cons]
    constructor
    · intro hlast
      exact absurd (List.mem_of_getLast? hlast) ha
    · intro hnil
      cases hnil

theorem first_eq_some_iff {a : ι} (hs : DSeg prev next none p (as ++ a :: bs) last none)
    (hnd : (as ++ a :: bs).Nodup) : p = some a ↔ prev a = none := by
  rw [hs.neighbours.1, hs.head_eq]
  cases as with
  | nil => simp
  | cons b as =>
    have hne : b ≠ a := (List.nodup_append.mp hnd).2.2 b (by simp) a (by simp)
    simp [hne]

section Operations

variable [DecidableEq ι]

theorem push {x : ι} (hs : DSeg prev next none p as last none) (hnd : as.Nodup)
    (hprev : prev' x = none) (hnext : next' x = p)
    (hprevs : ∀ a ∈ as, prev' a = if p = some a then some x else prev a)
    (hnexts : ∀ a ∈ as, next' a = next a) :
    DSeg prev' next' none (some x) (x :: as) (last.or (some x)) none := by
  refine ⟨rfl, hprev, ?_⟩
  rw [hnext]
  cases as with
  | nil =>
    obtain ⟨rfl, rfl⟩ := hs
    exact ⟨rfl, rfl⟩
  | cons a as =>
    have hlast : last.or (some x) = last := by
      rw [hs.last_eq, List.getLast?_cons]
      rfl
    rw [hlast]
    refine hs.setBack ?_ (fun y hy => ?_) hnexts
    · rw [hprevs a (by simp), if_pos hs.1]
    · rw [hprevs y (by simp [hy]), if_neg]
      rw [hs.1]
      intro hay
      exact (List.nodup_cons.mp hnd).1 (Option.some.inj hay ▸ hy)

theorem snoc {x : ι} (hs : DSeg prev next back p as last none) (hnd : as.Nodup)
    (hprev : prev' x = last) (hnext : next' x = none)
    (hnexts : ∀ a ∈ as, next' a = if last = some a then some x else next a)
    (hprevs : ∀ a ∈ as, prev' a = prev a) :
    DSeg prev' next' back (p.or (some x)) (as ++ [x]) (some x) none := by
  rcases List.eq_nil_or_concat as with rfl | ⟨init, b, rfl⟩
  · obtain ⟨rfl, rfl⟩ := hs
    exact ⟨rfl, hprev, hnext, rfl⟩
  · rw [List.concat_eq_append] at *
    have hp : p.or (some x) = p := by
      rw [hs.head_eq]
      cases init <;> rfl
    have hlast : last = some b := by
      rw [hs.last_eq]
      simp
    rw [hp]
    refine dseg_append.mpr ⟨some b, some x, ?_, rfl, by rw [hprev, hlast], hnext, rfl⟩
    refine hs.setEnd ?_ (fun a ha => ?_) hprevs
    · rw [hnexts b (by simp), if_pos hlast]
    · rw [hnexts a (by simp [ha]), if_neg]
      rw [hlast]
      intro hba
      exact (List.nodup_append.mp hnd).2.2 a ha b (by simp) (Option.some.inj hba).symm

/-- Taking `a` out: its neighbours are linked to each other, and where it has none the pointer to
that end of the list moves on. -/
theorem remove {a : ι} (prev' next' : ι → Option ι) (hs : DSeg prev next none p (as ++ a :: bs) last none)
    (hnd : (as ++ a :: bs).Nodup)
    (hnext : ∀ b ∈ as, next' b = if prev a = some b then next a else next b)
    (hprev : ∀ c ∈ bs, prev' c = if next a = some c then prev a else prev c)
    (hnexts : ∀ c ∈ bs, next' c = next c) (hprevs : ∀ b ∈ as, prev' b = prev b) :
    DSeg prev' next' none (if prev a = none then next a else p) (as ++ bs)
      (if next a = none then prev a else last) none := by
  obtain ⟨l, m, has, rfl, hl, hbs⟩ := dseg_append.mp hs
  obtain ⟨hnda, hndb, hdisj⟩ := List.nodup_append.mp hnd
  have hleft : DSeg prev' next' none (if prev a = none then next a else p) as (prev a) (next a) := by
    rcases List.eq_nil_or_concat as with rfl | ⟨init, b, rfl⟩
    · rw [hl, if_pos has.2.symm]
      exact ⟨rfl, has.2⟩
    · rw [List.concat_eq_append] at *
      have hlb : l = some b := by rw [has.last_eq]; simp
      rw [hl, hlb, if_neg (by simp)]
      refine has.setEnd ?_ (fun c hc => ?_) hprevs
      · rw [hnext b (by simp), hl, hlb, if_pos rfl]
      · rw [hnext c (by simp [hc]), if_neg]
        rw [hl, hlb]
        intro hbc
        exact (List.nodup_append.mp hnda).2.2 c hc b (by simp) (Option.some.inj hbc).symm
  have hright : DSeg prev' next' (prev a) (next a) bs (if next a = none then prev a else last) none := by
    cases bs with
    | nil =>
      rw [if_pos hbs.1]
      exact ⟨hbs.1, rfl⟩
    | cons c bs =>
      have hc : next a = some c := hbs.1
      rw [hc] at hbs ⊢
      rw [if_neg (by simp)]
      refine hbs.setBack ?_ (fun x hx => ?_) hnexts
      · rw [hprev c (by simp), if_pos hc]
      · rw [hprev x (by simp [hx]), if_neg]
        rw [hc]
        intro hcx
        have hndc := (List.nodup_cons.mp (List.nodup_cons.mp hndb).2).1
        exact hndc (Option.some.inj hcx ▸ hx)
  exact dseg_append.mpr ⟨_, _, hleft, hright⟩

end Operations

end DSeg

end Base
