import Mathlib.Algebra.Notation.Defs
import Mathlib.Logic.Function.Basic

/-!
# Places that own things

Each of a set of places holds at most one thing, and 0 is no thing.  The places
*own* what they hold when everything held is live and nothing is held in two
places.  A thing that is not live can then be made live and given to a place that
holds nothing (`Owned.assign`).
-/

/-- The places `K` hold live things, each held in one place only. -/
structure Owned {κ β : Type} [Zero β] (val : κ → β) (K : κ → Prop) (live : β → Prop) : Prop where
  live : ∀ k, K k → val k ≠ 0 → live (val k)
  inj : ∀ k k', K k → K k' → val k ≠ 0 → val k = val k' → k = k'

namespace Owned

variable {κ β : Type} [Zero β] {val val' : κ → β} {K K' : κ → Prop} {live live' : β → Prop}

theorem congr (h : Owned val K live) (hval : ∀ k, K k → val' k = val k)
    (hlive : ∀ k, K k → live (val k) → live' (val k)) : Owned val' K live' where
  live k hk h0 := by
    rw [hval k hk] at h0 ⊢
    exact hlive k hk (h.live k hk h0)
  inj k k' hk hk' h0 he := by
    rw [hval k hk] at h0 he
    rw [hval k' hk'] at he
    exact h.inj k k' hk hk' h0 he

theorem extend (h : Owned val K live) (hval : ∀ k, K' k → val k = 0 ∨ K k) : Owned val K' live where
  live k hk h0 := h.live k ((hval k hk).resolve_left h0) h0
  inj k k' hk hk' h0 he :=
    h.inj k k' ((hval k hk).resolve_left h0) ((hval k' hk').resolve_left (he ▸ h0)) h0 he

/-- A place that held nothing gets a thing that no place holds. -/
theorem assign {k0 : κ} {b : β} (h : Owned val K live) (hfree : ∀ k, K k → val k ≠ b) (hb : live b)
    (h0 : val' k0 = b) (hval : ∀ k, K k → k ≠ k0 → val' k = val k) : Owned val' K live where
  live k hk hne := by
    by_cases hk0 : k = k0
    · rw [hk0, h0]
      exact hb
    · rw [hval k hk hk0] at hne ⊢
      exact h.live k hk hne
  inj k k' hk hk' hne he := by
    by_cases hk0 : k = k0
    · by_cases hk0' : k' = k0
      · rw [hk0, hk0']
      · rw [hk0, h0, hval k' hk' hk0'] at he
        exact absurd he.symm (hfree k' hk')
    · rw [hval k hk hk0] at hne he
      by_cases hk0' : k' = k0
      · rw [hk0', h0] at he
        exact absurd he (hfree k hk)
      · rw [hval k' hk' hk0'] at he
        exact h.inj k k' hk hk' hne he

end Owned
