import Mathlib.Logic.Relation

/-!
# Runs of a transition system

A transition system is a set of first states and a step relation.  A state is
reachable if a run of steps leads to it.  What holds at first and is kept by every
step holds in every reachable state (`Reachable.invariant`), where the step may be
taken to start in a reachable state, so invariants can be used one for the next.

A system whose steps show as steps of another, or do not show, only reaches what
the other reaches (`Reachable.map`).

Where the steps are operations that can be executed, a list of operations that are all
enabled is a run (`Reachable.perform`).

Where the steps have labels, a run leaves a trace of them.  A system whose steps are
followed by steps of another with the same labels leaves only traces the other leaves
(`Traces.simulate`).
-/

namespace Run

variable {σ τ : Type} {init : σ → Prop} {step : σ → σ → Prop}

/-- A run of the system leads to the state. -/
def Reachable (init : σ → Prop) (step : σ → σ → Prop) (s : σ) : Prop :=
  ∃ s0, init s0 ∧ Relation.ReflTransGen step s0 s

variable {s : σ}

theorem Reachable.first (h : init s) : Reachable init step s := ⟨s, h, .refl⟩

theorem Reachable.next {s' : σ} (h : Reachable init step s) (hs : step s s') :
    Reachable init step s' := by
  obtain ⟨s0, h0, hrun⟩ := h
  exact ⟨s0, h0, hrun.tail hs⟩

/-- What holds at first and is kept by every step holds in every reachable state. -/
theorem Reachable.invariant {I : σ → Prop} (h : Reachable init step s) (h0 : ∀ s, init s → I s)
    (hs : ∀ s s', Reachable init step s → I s → step s s' → I s') : I s := by
  obtain ⟨s0, hinit, hrun⟩ := h
  induction hrun with
  | refl => exact h0 s0 hinit
  | @tail s1 s2 hrun1 hstep ih => exact hs s1 s2 ⟨s0, hinit, hrun1⟩ ih hstep

/-- A system that is seen through `f` as another one, where some of its steps do not show. -/
theorem Reachable.map {init' : τ → Prop} {step' : τ → τ → Prop} {f : σ → τ}
    (h : Reachable init step s) (h0 : ∀ s, init s → init' (f s))
    (hs : ∀ s s', Reachable init step s → step s s' → step' (f s) (f s') ∨ f s' = f s) :
    Reachable init' step' (f s) := by
  refine h.invariant (I := fun s => Reachable init' step' (f s))
    (fun s hinit => .first (h0 s hinit)) fun s s' hr ih hstep => ?_
  rcases hs s s' hr hstep with h | h
  · exact ih.next h
  · exact h ▸ ih

/-! ## Runs of operations -/

section Perform

variable {α ε : Type} {enabled : σ → α → Prop} {exec : σ → α → Except ε σ}

/-- The state after the operations, if each is enabled and made. -/
def perform (enabled : σ → α → Prop) [∀ s a, Decidable (enabled s a)] (exec : σ → α → Except ε σ) :
    σ → List α → Option σ
  | s, [] => some s
  | s, a :: as =>
    if enabled s a then
      match exec s a with
      | .ok s' => perform enabled exec s' as
      | .error _ => none
    else none

theorem Reachable.perform [∀ s a, Decidable (enabled s a)]
    (hstep : ∀ s a s', enabled s a → exec s a = .ok s' → step s s') (as : List α) {s' : σ}
    (h : Reachable init step s) (hrun : Run.perform enabled exec s as = some s') :
    Reachable init step s' := by
  induction as generalizing s with
  | nil => exact Option.some.inj hrun ▸ h
  | cons a as ih =>
    rw [Run.perform] at hrun
    split at hrun
    · rename_i ha
      split at hrun
      · rename_i s1 hs1
        exact ih (h.next (hstep _ _ _ ha hs1)) hrun
      · cases hrun
    · cases hrun

/-- What the operations lead to, seen by executing them. -/
theorem Reachable.performed [∀ s a, Decidable (enabled s a)] {P : σ → Prop} [DecidablePred P]
    (hstep : ∀ s a s', enabled s a → exec s a = .ok s' → step s s') (as : List α)
    (h : Reachable init step s) (hrun : (Run.perform enabled exec s as).any (P ·) = true) :
    ∃ s', Reachable init step s' ∧ P s' := by
  cases hs : Run.perform enabled exec s as with
  | none =>
    rw [hs] at hrun
    cases hrun
  | some s' =>
    rw [hs] at hrun
    exact ⟨s', h.perform hstep as hs, of_decide_eq_true hrun⟩

end Perform

/-! ## Traces -/

section Traces

variable {α : Type} {lstep : σ → α → σ → Prop} {init' : τ → Prop} {lstep' : τ → α → τ → Prop}

/-- A run leads to the state and leaves the labels of its steps, first to last. -/
inductive Traces (init : σ → Prop) (lstep : σ → α → σ → Prop) : List α → σ → Prop
  | first {s : σ} : init s → Traces init lstep [] s
  | next {tr : List α} {s s' : σ} {a : α} : Traces init lstep tr s → lstep s a s' →
      Traces init lstep (tr ++ [a]) s'

/-- Forward simulation: every run is followed by a run of the other system with the same trace. -/
theorem Traces.simulate {R : σ → τ → Prop} {tr : List α} (h : Traces init lstep tr s)
    (h0 : ∀ s, init s → ∃ t, init' t ∧ R s t)
    (hs : ∀ s a s' t, R s t → lstep s a s' → ∃ t', lstep' t a t' ∧ R s' t') :
    ∃ t, Traces init' lstep' tr t ∧ R s t := by
  induction h with
  | first hinit =>
    obtain ⟨t, ht, hR⟩ := h0 _ hinit
    exact ⟨t, .first ht, hR⟩
  | next _ hstep ih =>
    obtain ⟨t, ht, hR⟩ := ih
    obtain ⟨t', hstep', hR'⟩ := hs _ _ _ t hR hstep
    exact ⟨t', ht.next hstep', hR'⟩

/-- What holds at first and is kept by every step, as a statement about the trace and the state. -/
theorem Traces.invariant {I : List α → σ → Prop} {tr : List α} (h : Traces init lstep tr s)
    (h0 : ∀ s, init s → I [] s) (hs : ∀ tr s a s', I tr s → lstep s a s' → I (tr ++ [a]) s') :
    I tr s := by
  induction h with
  | first hinit => exact h0 _ hinit
  | next _ hstep ih => exact hs _ _ _ _ ih hstep

end Traces

end Run
