import Mathlib.Tactic.Common

/-!
# Base.Runs

Runs of a transition system given by an initial state and a step relation labelled with its
input. A run records its steps, latest first, each with the state before and after it.

* `Run.invariant`: what holds initially and is kept by every step holds in every state of a run.
* `Run.guarded`: the same when the steps are known to meet a condition.
* `Run.holds_iff`: when, from a state where the property holds, a step keeps it exactly if the step
  meets a condition, the property holds throughout a run exactly if every step meets the condition.
* `replay`: runs that are computed.
* `foldl_last`, `foldl_log`: what a run of total operations leaves in a field that each operation
  overwrites or leaves alone, and in a log.
-/

namespace Base

variable {σ ι : Type}

structure Step (σ ι : Type) where
  pre : σ
  input : ι
  post : σ

inductive Run (init : σ) (step : σ → ι → σ → Prop) : List (Step σ ι) → σ → Prop where
  | start : Run init step [] init
  | snoc {tr : List (Step σ ι)} {s s' : σ} {i : ι} :
      Run init step tr s → step s i s' → Run init step (⟨s, i, s'⟩ :: tr) s'

variable {init : σ} {step : σ → ι → σ → Prop} {tr : List (Step σ ι)} {s : σ}

namespace Run

theorem guarded {P : σ → Prop} {C : σ → ι → Prop} (h0 : P init)
    (hstep : ∀ s i s', P s → C s i → step s i s' → P s') (hr : Run init step tr s)
    (hc : ∀ x ∈ tr, C x.pre x.input) : P s ∧ ∀ x ∈ tr, P x.pre := by
  induction hr with
  | start => exact ⟨h0, by simp⟩
  | @snoc tr s s' i _ hs ih =>
    obtain ⟨hp, hall⟩ := ih fun x hx => hc x (by simp [hx])
    refine ⟨hstep s i s' hp (hc ⟨s, i, s'⟩ (by simp)) hs, ?_⟩
    intro x hx
    rcases List.mem_cons.mp hx with rfl | hx
    · exact hp
    · exact hall x hx

theorem invariant {P : σ → Prop} (h0 : P init) (hstep : ∀ s i s', P s → step s i s' → P s')
    (hr : Run init step tr s) : P s ∧ ∀ x ∈ tr, P x.pre :=
  hr.guarded (C := fun _ _ => True) h0 (fun s i s' hp _ hs => hstep s i s' hp hs) (by simp)

/-- `J` is what the step argument may use about a state reached by steps that met the condition. -/
theorem holds_iff {J P : σ → Prop} {C : σ → ι → Prop} (hJ0 : J init) (h0 : P init)
    (hJ : ∀ s i s', J s → P s → C s i → step s i s' → J s')
    (hstep : ∀ s i s', J s → P s → step s i s' → (P s' ↔ C s i)) (hr : Run init step tr s) :
    (P s ∧ ∀ x ∈ tr, P x.pre) ↔ ∀ x ∈ tr, C x.pre x.input := by
  have hboth : ∀ {tr : List (Step σ ι)} {s : σ}, Run init step tr s → (∀ x ∈ tr, C x.pre x.input) →
      (J s ∧ P s) ∧ ∀ x ∈ tr, J x.pre ∧ P x.pre := fun hr hc =>
    hr.guarded (P := fun s => J s ∧ P s) ⟨hJ0, h0⟩
      (fun s i s' h hc hs => ⟨hJ s i s' h.1 h.2 hc hs, (hstep s i s' h.1 h.2 hs).mpr hc⟩) hc
  constructor
  · intro hall
    induction hr with
    | start => simp
    | @snoc tr s s' i hr hs ih =>
      have hp : P s := hall.2 ⟨s, i, s'⟩ (by simp)
      have hc := ih ⟨hp, fun y hy => hall.2 y (by simp [hy])⟩
      have hj := (hboth hr hc).1.1
      intro x hx
      rcases List.mem_cons.mp hx with rfl | hx
      · exact (hstep s i s' hj hp hs).mp hall.1
      · exact hc x hx
  · intro hc
    obtain ⟨h, hall⟩ := hboth hr hc
    exact ⟨h.2, fun x hx => (hall x hx).2⟩

/-- The state after a step is the next step's state before it, or the last state. -/
theorem post_holds {P : σ → Prop} (hr : Run init step tr s) (hs : P s) (hall : ∀ x ∈ tr, P x.pre) :
    ∀ x ∈ tr, P x.post := by
  induction hr with
  | start => simp
  | @snoc tr s s' i _ _ ih =>
    intro x hx
    rcases List.mem_cons.mp hx with rfl | hx
    · exact hs
    · exact ih (hall ⟨s, i, s'⟩ (by simp)) (fun y hy => hall y (by simp [hy])) x hx

/-- A condition on the inputs of a run may be read as a condition on the steps. -/
theorem restrict {C : ι → Prop} (hr : Run init step tr s) (hc : ∀ x ∈ tr, C x.input) :
    Run init (fun s i s' => C i ∧ step s i s') tr s := by
  induction hr with
  | start => exact .start
  | @snoc tr s s' i _ hs ih =>
    exact .snoc (ih fun x hx => hc x (by simp [hx])) ⟨hc ⟨s, i, s'⟩ (by simp), hs⟩

theorem append {tr' : List (Step σ ι)} {s' : σ} (hr : Run init step tr s) (hr' : Run s step tr' s') :
    Run init step (tr' ++ tr) s' := by
  induction hr' with
  | start => exact hr
  | snoc _ hs ih => exact .snoc ih hs

theorem step_of_mem (hr : Run init step tr s) : ∀ x ∈ tr, step x.pre x.input x.post := by
  induction hr with
  | start => simp
  | snoc _ hs ih =>
    intro x hx
    rcases List.mem_cons.mp hx with rfl | hx
    · exact hs
    · exact ih x hx

end Run

/-- The trace of feeding `inputs` to a partial function, latest step first. -/
def replay (f : σ → ι → Option σ) : List ι → List (Step σ ι) → σ → Option (List (Step σ ι) × σ)
  | [], tr, s => some (tr, s)
  | i :: is, tr, s => do
    let s' ← f s i
    replay f is (⟨s, i, s'⟩ :: tr) s'

theorem Run.replay {f : σ → ι → Option σ} (hf : ∀ s i s', f s i = some s' → step s i s')
    (inputs : List ι) {tr' : List (Step σ ι)} {s' : σ} (hr : Run init step tr s)
    (h : Base.replay f inputs tr s = some (tr', s')) : Run init step tr' s' := by
  induction inputs generalizing tr s with
  | nil => cases h; exact hr
  | cons i is ih =>
    simp only [Base.replay, Option.bind_eq_bind, Option.bind_eq_some_iff] at h
    obtain ⟨s₁, hs₁, h⟩ := h
    exact ih (.snoc hr (hf s i s₁ hs₁)) h

section Total

variable {β : Type} {apply : σ → ι → σ}

theorem foldl_last {field : σ → β} {write : ι → Option β}
    (hstep : ∀ s i, field (apply s i) = (write i).getD (field s)) (inputs : List ι) (s : σ) :
    field (inputs.foldl apply s) = (inputs.filterMap write).getLast?.getD (field s) := by
  induction inputs generalizing s with
  | nil => rfl
  | cons i is ih =>
    rw [List.foldl_cons, ih, hstep]
    cases hw : write i with
    | none => simp [hw]
    | some value => cases ht : (is.filterMap write).getLast? <;> simp [hw, List.getLast?_cons, ht]

theorem foldl_log {log : σ → List β} {entry : ι → Option β}
    (hstep : ∀ s i, log (apply s i) = log s ++ (entry i).toList) (inputs : List ι) (s : σ) :
    log (inputs.foldl apply s) = log s ++ inputs.filterMap entry := by
  induction inputs generalizing s with
  | nil => simp
  | cons i is ih =>
    rw [List.foldl_cons, ih, hstep, List.append_assoc]
    cases he : entry i <;> simp [he]

end Total

end Base
