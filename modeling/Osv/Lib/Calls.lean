import Mathlib.Data.List.Basic
import Osv.Lib.Prog

/-!
# Code that makes calls

The code of a function, as far as others see it: it returns, or it makes a call and
goes on with what the call returns.  What a call returns is not fixed, since other
threads run meanwhile, so code is a tree with a branch for each result.

Some calls are *events* of a protocol, which is an automaton with a partial step
`δ`.  `Obeys ev δ p Q i` says that the code follows the protocol from state `i`
whatever its calls return, and that `Q` holds of its result and the state where it
ends.  The rules push `Obeys` through the text of the code, as `wp` does for
programs.  What it says of a whole run of the code is `Path.follows`.

A thread that runs alone gets its results from programs, one for each call.  `exec` is
the code as a program then, and `Avoids` says that it never makes a call of some kind.
-/

/-- Code with results in `α`.  A call `c` returns a value of `R c`. -/
inductive Calls (C : Type) (R : C → Type) (α : Type) : Type
  | ret (a : α)
  | call (c : C) (k : R c → Calls C R α)

namespace Calls

variable {C : Type} {R : C → Type} {α β E S S' : Type}

/-- Run one code after the other. -/
def bind : Calls C R α → (α → Calls C R β) → Calls C R β
  | ret a, f => f a
  | call c k, f => call c fun r => bind (k r) f

instance : Monad (Calls C R) where
  pure := ret
  bind := bind

/-- Make a call. -/
def perform (c : C) : Calls C R (R c) := call c ret

/-! ## Following a protocol -/

section Protocol

variable (ev : C → Option E) (δ : S → E → Option S)

/-- The state after a call, if the protocol allows it. -/
def advance (i : S) : Option E → Option S
  | none => some i
  | some e => δ i e

/-- The code follows the protocol from `i`, and `Q` holds of its result and the state at its end. -/
def Obeys : Calls C R α → (α → S → Prop) → S → Prop
  | ret a, Q, i => Q a i
  | call c k, Q, i => ∃ j, advance δ i (ev c) = some j ∧ ∀ r, Obeys (k r) Q j

/-- A run of the code to its end: the events of its calls and its result. -/
inductive Path : Calls C R α → List E → α → Prop
  | ret (a : α) : Path (ret a) [] a
  | call {c : C} {k : R c → Calls C R α} (r : R c) {l : List E} {a : α} :
      Path (k r) l a → Path (call c k) ((ev c).toList ++ l) a

/-- None of the calls is an event. -/
def Silent : Calls C R α → Prop
  | ret _ => True
  | call c k => ev c = none ∧ ∀ r, Silent (k r)

end Protocol

variable {ev : C → Option E} {δ : S → E → Option S} {Q : α → S → Prop} {i : S}

@[simp] theorem obeys_pure {a : α} : Obeys ev δ (pure a : Calls C R α) Q i ↔ Q a i := Iff.rfl

variable {p : Calls C R α} {f : α → Calls C R β}

theorem obeys_bind {Q : β → S → Prop} :
    Obeys ev δ (p >>= f) Q i ↔ Obeys ev δ p (fun a j => Obeys ev δ (f a) Q j) i := by
  induction p generalizing i with
  | ret a => exact Iff.rfl
  | call c k ih => exact exists_congr fun j => and_congr_right fun _ => forall_congr' fun r => ih r

theorem Obeys.mono {Q' : α → S → Prop} (h : Obeys ev δ p Q i) (hQ : ∀ a j, Q a j → Q' a j) :
    Obeys ev δ p Q' i := by
  induction p generalizing i with
  | ret a => exact hQ a i h
  | call c k ih =>
    obtain ⟨j, hj, hk⟩ := h
    exact ⟨j, hj, fun r => ih r (hk r)⟩

/-- A call that is an event, and the code after it. -/
theorem obeys_event {c : C} {e : E} {j : S} {f : R c → Calls C R α} (he : ev c = some e)
    (hj : δ i e = some j) (hf : ∀ r, Obeys ev δ (f r) Q j) : Obeys ev δ (perform c >>= f) Q i :=
  obeys_bind.mpr ⟨j, by rw [he]; exact hj, hf⟩

/-- A call that is no event, and the code after it. -/
theorem obeys_silent {c : C} {f : R c → Calls C R α} (he : ev c = none)
    (hf : ∀ r, Obeys ev δ (f r) Q i) : Obeys ev δ (perform c >>= f) Q i :=
  obeys_bind.mpr ⟨i, by rw [he]; rfl, hf⟩

/-- A protocol whose states are seen through `φ` as those of another that allows more. -/
theorem Obeys.map {δ' : S' → E → Option S'} {φ : S → S'}
    (hφ : ∀ i e j, δ i e = some j → δ' (φ i) e = some (φ j)) (h : Obeys ev δ p Q i) :
    Obeys ev δ' p (fun a j' => ∃ j, φ j = j' ∧ Q a j) (φ i) := by
  induction p generalizing i with
  | ret a => exact ⟨i, rfl, h⟩
  | call c k ih =>
    obtain ⟨j, hj, hk⟩ := h
    refine ⟨φ j, ?_, fun r => ih r (hk r)⟩
    cases hc : ev c with
    | none =>
      rw [hc] at hj
      exact congrArg (some ∘ φ) (Option.some.inj hj)
    | some e =>
      rw [hc] at hj
      exact hφ i e j hj

/-! ## Code without events -/

theorem silent_pure (a : α) : Silent ev (pure a : Calls C R α) := trivial

theorem silent_perform {c : C} (h : ev c = none) : Silent ev (perform c : Calls C R (R c)) :=
  ⟨h, fun _ => trivial⟩

theorem Silent.bind (hp : Silent ev p) (hf : ∀ a, Silent ev (f a)) : Silent ev (p >>= f) := by
  induction p with
  | ret a => exact hf a
  | call c k ih => exact ⟨hp.1, fun r => ih r (hp.2 r)⟩

theorem Silent.mono {E' : Type} {ev' : C → Option E'} (hp : Silent ev p)
    (h : ∀ c, ev c = none → ev' c = none) : Silent ev' p := by
  induction p with
  | ret a => trivial
  | call c k ih => exact ⟨h c hp.1, fun r => ih r (hp.2 r)⟩

theorem Silent.obeys (hp : Silent ev p) (hQ : ∀ a, Q a i) : Obeys ev δ p Q i := by
  induction p with
  | ret a => exact hQ a
  | call c k ih => exact ⟨i, by rw [hp.1]; rfl, fun r => ih r (hp.2 r)⟩

/-- Code without events, and the code after it. -/
theorem Silent.obeys_bind {Q : β → S → Prop} (hp : Silent ev p) (hf : ∀ a, Obeys ev δ (f a) Q i) :
    Obeys ev δ (p >>= f) Q i :=
  Calls.obeys_bind.mpr (hp.obeys hf)

/-! ## Whole runs -/

/-- A run of code that follows the protocol is a word of the protocol. -/
theorem Path.follows {l : List E} {a : α} (h : Path ev p l a) (hp : Obeys ev δ p Q i) :
    ∃ j, l.foldlM δ i = some j ∧ Q a j := by
  induction h generalizing i with
  | ret a => exact ⟨i, rfl, hp⟩
  | @call c k r l a _ ih =>
    obtain ⟨j, hj, hk⟩ := hp
    obtain ⟨m, hm, hQ⟩ := ih (hk r)
    refine ⟨m, ?_, hQ⟩
    cases hc : ev c with
    | none =>
      rw [hc] at hj
      rw [Option.some.inj hj]
      exact hm
    | some e =>
      rw [hc] at hj
      rw [Option.toList_some, List.singleton_append, List.foldlM_cons, show δ i e = some j from hj]
      exact hm

/-! ## One thread alone -/

section Alone

variable {ε σ : Type} (h : (c : C) → Prog ε σ (R c)) (bad : C → Prop)

/-- The code when no other thread runs. -/
def exec : Calls C R α → Prog ε σ α
  | ret a => pure a
  | call c k => h c >>= fun r => exec (k r)

/-- The code makes no bad call when no other thread runs, and `Q` holds where it returns. -/
def Avoids : Calls C R α → (α → σ → Prop) → σ → Prop
  | ret a, Q, s => Q a s
  | call c k, Q, s => ¬ bad c ∧ ∀ r s', h c s = .ok (r, s') → Avoids (k r) Q s'

variable {h bad} {s : σ}

/-- A sequence runs as the programs of its parts in sequence. -/
theorem exec_bind : exec h (p >>= f) = exec h p >>= fun a => exec h (f a) := by
  induction p with
  | ret a => rfl
  | call c k ih =>
    funext s
    show (h c >>= fun r => exec h (k r >>= f)) s =
        ((h c >>= fun r => exec h (k r)) >>= fun a => exec h (f a)) s
    simp only [ih, Prog.bind_run]
    cases h c s <;> rfl

theorem exec_perform (c : C) : exec h (perform c) = h c := by
  funext s
  show (h c >>= fun r => pure r) s = h c s
  rw [Prog.bind_run]
  cases h c s <;> rfl

theorem exec_bind_ok {s' : σ} {b : β} :
    exec h (p >>= f) s = .ok (b, s') ↔ ∃ a t, exec h p s = .ok (a, t) ∧
      exec h (f a) t = .ok (b, s') := by
  rw [exec_bind, Prog.bind_ok]

theorem avoids_call {Q : α → σ → Prop} {c : C} {f : R c → Calls C R α} :
    Avoids h bad (perform c >>= f) Q s ↔ ¬ bad c ∧ ∀ r s', h c s = .ok (r, s') →
      Avoids h bad (f r) Q s' :=
  Iff.rfl

theorem avoids_bind {Q : β → σ → Prop} :
    Avoids h bad (p >>= f) Q s ↔ Avoids h bad p (fun a s' => Avoids h bad (f a) Q s') s := by
  induction p generalizing s with
  | ret a => exact Iff.rfl
  | call c k ih =>
    exact and_congr_right fun _ => forall_congr' fun r => forall_congr' fun s' =>
      imp_congr_right fun _ => ih r

theorem Avoids.mono {Q Q' : α → σ → Prop} (hp : Avoids h bad p Q s)
    (hQ : ∀ a s', Q a s' → Q' a s') : Avoids h bad p Q' s := by
  induction p generalizing s with
  | ret a => exact hQ a s hp
  | call c k ih => exact ⟨hp.1, fun r s' hr => ih r (hp.2 r s' hr)⟩

theorem Silent.avoids (hp : Silent ev p) (hbad : ∀ c, bad c → ev c ≠ none) :
    Avoids h bad p (fun a s' => exec h p s = .ok (a, s')) s := by
  induction p generalizing s with
  | ret a => rfl
  | call c k ih =>
    refine ⟨fun hc => hbad c hc hp.1, fun r s' hr => (ih r (hp.2 r)).mono fun a t ht => ?_⟩
    rw [exec, Prog.bind_of_ok hr]
    exact ht

end Alone

end Calls
