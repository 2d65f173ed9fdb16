import Osv.Lib.Prog

/-!
# Programs that do not look at a part of the state

A program *commutes* with a change `f` of the state when it makes no difference whether
the change is made before a run or after it: the run has the same result, or the same
trap, and the state that it leaves is changed by `f`.  So the program neither looks at
what `f` changes nor changes it otherwise, and what is known of its runs from one value
of that part is known from all (`Prog.Commutes.wp`).
-/

namespace Prog

variable {ε σ α β : Type} {f : σ → σ}

/-- The change `f` can be made before or after. -/
def Commutes (f : σ → σ) (m : Prog ε σ α) : Prop := ∀ s, m (f s) = (m s).map fun r => (r.1, f r.2)

theorem commutes_update {g : σ → σ} (h : ∀ s, g (f s) = f (g s)) :
    Commutes f (update g : Prog ε σ Unit) := by
  intro s
  rw [update_run, update_run, h]
  rfl

theorem commutes_check {p : σ → Bool} {e : ε} (h : ∀ s, p (f s) = p s) :
    Commutes f (check p e : Prog ε σ Unit) := by
  intro s
  rw [check_run, check_run, h]
  split <;> rfl

theorem commutes_bind {m : Prog ε σ α} {g : α → Prog ε σ β} (hm : Commutes f m)
    (hg : ∀ a, Commutes f (g a)) : Commutes f (m >>= g) := by
  intro s
  rw [bind_run, bind_run, hm s]
  cases m s with
  | error e => rfl
  | ok r => exact hg r.1 r.2

/-- What is read of the state is the same after the change. -/
theorem commutes_read_bind {k : σ → Prog ε σ β} (hk : ∀ s, k (f s) = k s)
    (h : ∀ s, Commutes f (k s)) : Commutes f (read >>= k) := by
  intro s
  rw [read_bind, read_bind, hk]
  exact h s s

theorem Commutes.wp {m : Prog ε σ α} (h : Commutes f m) {Q : α → σ → Prop} {E : ε → Prop} {s : σ} :
    Prog.wp m Q E (f s) ↔ Prog.wp m (fun a s' => Q a (f s')) E s := by
  unfold Prog.wp
  rw [h s]
  cases m s with
  | error e | ok r => exact Iff.rfl

end Prog
