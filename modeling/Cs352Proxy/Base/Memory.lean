import Mathlib.Tactic.Common

/-!
# Base.Memory

Flat memory of up to `size` cells. A cell that is not mapped can neither be read nor written, and
writing maps nothing. `put` is the write without the check, `store` the one with it; `copy` is
`memcpy`, which is undefined on ranges that overlap.

* `load_eq_some_iff`: a load is its cells, one by one.
* `load_put_self`, `load_put_disjoint`: what is read from a range after it, or another one, was
  written.
-/

namespace Base

structure Memory (size : Nat) (α : Type) where
  cell : Nat → Option α
  inside : ∀ a, (cell a).isSome → a < size

namespace Memory

variable {size : Nat} {α : Type}

/-- The `n` cells from `a` on can be accessed. -/
def Mapped (mem : Memory size α) (a n : Nat) : Prop := ∀ i < n, (mem.cell (a + i)).isSome

instance (mem : Memory size α) (a n : Nat) : Decidable (mem.Mapped a n) :=
  inferInstanceAs (Decidable (∀ i < n, _))

def load (mem : Memory size α) : Nat → Nat → Option (List α)
  | _, 0 => some []
  | a, n + 1 => do
    let b ← mem.cell a
    let bs ← mem.load (a + 1) n
    some (b :: bs)

/-- Put `bs` at `a`, as far as there is memory. -/
def put (mem : Memory size α) (a : Nat) (bs : List α) : Memory size α where
  cell x := (mem.cell x).map fun old => if a ≤ x then bs[x - a]?.getD old else old
  inside x hx := mem.inside x (by simpa using hx)

def store (mem : Memory size α) (a : Nat) (bs : List α) : Option (Memory size α) :=
  if mem.Mapped a bs.length then some (mem.put a bs) else none

/-- The ranges of `n` cells at `a` and of `k` cells at `b` have no cell in common. -/
def Separate (a n b k : Nat) : Prop := a + n ≤ b ∨ b + k ≤ a

instance (a n b k : Nat) : Decidable (Separate a n b k) := inferInstanceAs (Decidable (_ ∨ _))

def copy (mem : Memory size α) (dst src n : Nat) : Option (Memory size α) :=
  if Separate dst n src n then do
    let bs ← mem.load src n
    mem.store dst bs
  else none

/-- The `n` cells from `base` on hold `b`, the others are not mapped. -/
def filled (base n : Nat) (hn : base + n ≤ size) (b : α) : Memory size α where
  cell x := if base ≤ x ∧ x < base + n then some b else none
  inside x hx := by
    split at hx
    · omega
    · cases hx

variable {mem mem' : Memory size α} {a b n k : Nat} {bs : List α}

theorem mapped_filled {hn : b + n ≤ size} {c : α} (hbase : b ≤ a) (hfit : a + k ≤ b + n) :
    (filled b n hn c).Mapped a k := by
  intro i hi
  have hin : b ≤ a + i ∧ a + i < b + n := by omega
  simp [filled, hin]

@[simp] theorem mapped_put : (mem.put a bs).Mapped b n ↔ mem.Mapped b n := by simp [Mapped, put]

theorem Mapped.sub (h : mem.Mapped a n) (hfit : b + k ≤ n) : mem.Mapped (a + b) k := by
  intro i hi
  rw [Nat.add_assoc]
  exact h (b + i) (by omega)

theorem Mapped.lt (h : mem.Mapped a n) (hk : k < n) : a + k < size := mem.inside _ (h k hk)

theorem load_eq_some_iff :
    mem.load a n = some bs ↔ bs.length = n ∧ ∀ i < n, mem.cell (a + i) = bs[i]? := by
  induction n generalizing a bs with
  | zero => simp [load, eq_comm]
  | succ n ih =>
    simp only [load, Option.bind_eq_bind, Option.bind_eq_some_iff, Option.some.injEq]
    constructor
    · intro h
      obtain ⟨c, hc, cs, hcs, rfl⟩ := h
      obtain ⟨hlen, hcells⟩ := ih.mp hcs
      refine ⟨by rw [List.length_cons, hlen], fun i hi => ?_⟩
      cases i with
      | zero => exact hc
      | succ i =>
        have h := hcells i (by omega)
        rw [Nat.add_assoc, Nat.add_comm 1 i] at h
        rw [h, List.getElem?_cons_succ]
    · intro h
      obtain ⟨hlen, hcells⟩ := h
      cases bs with
      | nil => cases hlen
      | cons c cs =>
        refine ⟨c, hcells 0 (by omega), cs, ih.mpr ⟨by simpa using hlen, fun i hi => ?_⟩, rfl⟩
        have h := hcells (i + 1) (by omega)
        rw [List.getElem?_cons_succ] at h
        rw [Nat.add_assoc, Nat.add_comm 1 i, h]

theorem load_length (h : mem.load a n = some bs) : bs.length = n := (load_eq_some_iff.mp h).1

theorem exists_load_iff : (∃ bs, mem.load a n = some bs) ↔ mem.Mapped a n := by
  induction n generalizing a with
  | zero => simp [load, Mapped]
  | succ n ih =>
    have hcons : mem.Mapped a (n + 1) ↔ (mem.cell a).isSome ∧ mem.Mapped (a + 1) n := by
      simp only [Mapped, Nat.forall_lt_succ_left, Nat.add_zero]
      simp only [Nat.add_assoc, Nat.add_comm 1]
    rw [hcons, ← ih, Option.isSome_iff_exists]
    simp only [load, Option.bind_eq_bind, Option.bind_eq_some_iff, Option.some.injEq]
    constructor
    · intro h
      obtain ⟨_, c, hc, cs, hcs, _⟩ := h
      exact ⟨⟨c, hc⟩, cs, hcs⟩
    · intro h
      obtain ⟨⟨c, hc⟩, cs, hcs⟩ := h
      exact ⟨_, c, hc, cs, hcs, rfl⟩

theorem load_take (h : mem.load a n = some bs) (hk : k ≤ n) : mem.load a k = some (bs.take k) := by
  obtain ⟨hlen, hcells⟩ := load_eq_some_iff.mp h
  refine load_eq_some_iff.mpr ⟨by rw [List.length_take]; omega, fun i hi => ?_⟩
  rw [hcells i (by omega), List.getElem?_take_of_lt hi]

theorem load_congr (h : ∀ i < n, mem.cell (a + i) = mem'.cell (a + i)) :
    mem.load a n = mem'.load a n := by
  induction n generalizing a with
  | zero => rfl
  | succ n ih =>
    have hrest : mem.load (a + 1) n = mem'.load (a + 1) n := ih fun i hi => by
      have hi := h (i + 1) (by omega)
      rwa [Nat.add_comm i 1, ← Nat.add_assoc] at hi
    rw [load, load, hrest, show mem.cell a = mem'.cell a from h 0 (by omega)]

theorem load_put_disjoint (h : Separate a bs.length b n) :
    (mem.put a bs).load b n = mem.load b n := by
  refine load_congr fun i hi => ?_
  have hkeep : (fun old => if a ≤ b + i then bs[b + i - a]?.getD old else old) = id := by
    funext old
    split
    · rw [List.getElem?_eq_none (by rcases h with h | h <;> omega)]
      rfl
    · rfl
  simp only [put, hkeep, Option.map_id, id]

theorem load_put_self (h : mem.Mapped a bs.length) :
    (mem.put a bs).load a bs.length = some bs := by
  refine load_eq_some_iff.mpr ⟨rfl, fun i hi => ?_⟩
  obtain ⟨old, hold⟩ := Option.isSome_iff_exists.mp (h i hi)
  simp [put, hold, List.getElem?_eq_getElem hi]

theorem store_eq (h : mem.Mapped a bs.length) : mem.store a bs = some (mem.put a bs) := if_pos h

/-- `memcpy` into mapped memory succeeds exactly on a separate range that can be read. -/
theorem copy_eq_some_iff (hdst : mem.Mapped a n) :
    mem.copy a b n = some mem' ↔
      Separate a n b n ∧ ∃ bs, mem.load b n = some bs ∧ mem' = mem.put a bs := by
  unfold copy
  by_cases hsep : Separate a n b n
  · rw [if_pos hsep, Option.bind_eq_bind, Option.bind_eq_some_iff]
    simp only [hsep, true_and]
    refine exists_congr fun bs => and_congr_right fun hbs => ?_
    have hlen := load_length hbs
    rw [store_eq (by rwa [hlen]), Option.some.injEq, eq_comm]
  · simp [hsep]

end Memory

end Base
