import Mathlib.Tactic.Common

/-!
# Base.EarliestMin

The earliest cheapest entry of a log that is kept newest first, among the entries with a property.
A new entry takes its place if it is strictly cheaper than every entry with the property, and
leaves it there if it is not cheaper.
-/

namespace Base

variable {α : Type} {p : α → Prop} {cost : α → Nat} {l : List α} {x y : α}

def EarliestMin (p : α → Prop) (cost : α → Nat) (l : List α) (x : α) : Prop :=
  ∃ newer older, l = newer ++ x :: older ∧ p x ∧ (∀ y ∈ newer, p y → cost x ≤ cost y) ∧
    ∀ y ∈ older, p y → cost x < cost y

namespace EarliestMin

theorem le (h : EarliestMin p cost l x) : ∀ y ∈ l, p y → cost x ≤ cost y := by
  obtain ⟨newer, older, rfl, _, hnewer, holder⟩ := h
  intro y hy hpy
  rcases List.mem_append.mp hy with hy | hy
  · exact hnewer y hy hpy
  · rcases List.mem_cons.mp hy with rfl | hy
    · exact Nat.le_refl _
    · exact Nat.le_of_lt (holder y hy hpy)

theorem cheaper (hp : p x) (hlt : ∀ y ∈ l, p y → cost x < cost y) : EarliestMin p cost (x :: l) x :=
  ⟨[], l, rfl, hp, by simp, hlt⟩

theorem keep (h : EarliestMin p cost l x) (hy : p y → cost x ≤ cost y) :
    EarliestMin p cost (y :: l) x := by
  obtain ⟨newer, older, rfl, hp, hnewer, holder⟩ := h
  exact ⟨y :: newer, older, rfl, hp, List.forall_mem_cons.mpr ⟨hy, hnewer⟩, holder⟩

end EarliestMin

end Base
