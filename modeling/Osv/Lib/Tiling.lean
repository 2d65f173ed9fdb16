import Mathlib.Logic.Function.Basic
import Osv.Lib.Dyadic

/-!
# Tilings by dyadic blocks

A tiling of `[0, N)` cuts the interval into dyadic blocks, each with a tag.
It is given by its heads: `tile h` is the order and the tag of the block that
starts at `h`, or nothing when no block starts there.  The structure carries
the proof that the blocks are aligned, lie inside the interval, do not meet and
cover it, so every operation below yields a tiling again.

The operations are those of a buddy system.  A block may be given another tag,
a block may be split into its two halves, two halves may be joined, and a block
may be laid down at the end of the interval.  `Tiling.buddy_head` is the fact that makes
a buddy system work from the data at heads alone: the buddy of a block, if it
starts inside the interval, starts a block itself, of no larger order.
-/

namespace Dyadic

open Function (update update_self update_of_ne update_apply)

/-- An entry of an updated table is the new one, or an old one elsewhere. -/
theorem update_some {β : Type} {f : ℕ → Option β} {a c : ℕ} {o : Option β} {z : β}
    (h : update f a o c = some z) : c = a ∧ o = some z ∨ c ≠ a ∧ f c = some z := by
  rcases eq_or_ne c a with rfl | hne
  · rw [update_self] at h
    exact .inl ⟨rfl, h⟩
  · rw [update_of_ne hne] at h
    exact .inr ⟨hne, h⟩

/-- A division of `[0, N)` into tagged dyadic blocks, given by their heads. -/
@[ext] structure Tiling (τ : Type) (N : ℕ) where
  /-- Order and tag of the block that starts at a position. -/
  tile : ℕ → Option (ℕ × τ)
  aligned : ∀ {h k t}, tile h = some (k, t) → 2 ^ k ∣ h
  inside : ∀ {h k t}, tile h = some (k, t) → h + 2 ^ k ≤ N
  disjoint : ∀ {h k t a j u x}, tile h = some (k, t) → tile a = some (j, u) →
    x ∈ block k h → x ∈ block j a → h = a
  cover : ∀ {x}, x < N → ∃ h k t, tile h = some (k, t) ∧ x ∈ block k h

namespace Tiling

variable {τ : Type} {N : ℕ}

section

variable {h k : ℕ} {t : τ} (T : Tiling τ N) (hh : T.tile h = some (k, t))

include T hh

theorem head_lt : h < N := by
  have h1 := T.inside hh
  have h2 := Nat.two_pow_pos k
  omega

/-- The buddy of a block starts a block of no larger order, if it starts inside at all. -/
theorem buddy_head (hN : buddy k h < N) : ∃ j u, T.tile (buddy k h) = some (j, u) ∧ j ≤ k := by
  have hal := T.aligned hh
  have hbal := buddy_aligned hal
  obtain ⟨a, j, u, ha, hmem⟩ := T.cover hN
  have haal := T.aligned ha
  rcases Nat.lt_or_ge k j with hgt | hle
  · -- a larger block at the buddy would contain the block itself
    exfalso
    have hsub := pair_subset hgt hal haal (.inr (head_mem k _)) hmem
    have heq := T.disjoint hh ha (head_mem k h) (hsub.1 (head_mem k h))
    subst heq
    rw [ha] at hh
    cases hh
    omega
  · have heq := head_eq hle haal hbal hmem
    exact ⟨j, u, heq ▸ ha, hle⟩

/-- Positions strictly inside a block start no block. -/
theorem tile_eq_none {x : ℕ} (hx : x ∈ block k h) (hne : x ≠ h) : T.tile x = none := by
  cases hx' : T.tile x with
  | none => rfl
  | some p =>
    obtain ⟨j, u⟩ := p
    exact absurd (T.disjoint hh hx' hx (head_mem j x)).symm hne

end

variable {h k : ℕ}

theorem upper_eq_none (T : Tiling τ N) {t : τ} (hh : T.tile h = some (k + 1, t)) :
    T.tile (h + 2 ^ k) = none := by
  have hpos := Nat.two_pow_pos k
  refine T.tile_eq_none hh ?_ (by omega)
  rw [mem_block, Nat.two_pow_succ]
  omega

/-! ## Changing a tag -/

/-- Give the block at `h` the tag `u`. -/
def retag (T : Tiling τ N) {h k : ℕ} {t : τ} (hh : T.tile h = some (k, t)) (u : τ) :
    Tiling τ N where
  tile := update T.tile h (some (k, u))
  aligned := by
    intro a j v ha
    rcases update_some ha with ⟨rfl, h1⟩ | ⟨-, ha⟩
    · cases h1; exact T.aligned hh
    · exact T.aligned ha
  inside := by
    intro a j v ha
    rcases update_some ha with ⟨rfl, h1⟩ | ⟨-, ha⟩
    · cases h1; exact T.inside hh
    · exact T.inside ha
  disjoint := by
    intro a j v b i w x ha hb hxa hxb
    have back : ∀ {c l z}, update T.tile h (some (k, u)) c = some (l, z) →
        ∃ z', T.tile c = some (l, z') := by
      intro c l z hc
      rcases update_some hc with ⟨rfl, h1⟩ | ⟨-, hc⟩
      · cases h1; exact ⟨t, hh⟩
      · exact ⟨z, hc⟩
    obtain ⟨v', ha'⟩ := back ha
    obtain ⟨w', hb'⟩ := back hb
    exact T.disjoint ha' hb' hxa hxb
  cover := by
    intro x hx
    obtain ⟨a, j, v, ha, hmem⟩ := T.cover hx
    rcases eq_or_ne a h with rfl | hne
    · rw [hh] at ha; cases ha
      exact ⟨a, k, u, update_self .., hmem⟩
    · exact ⟨a, j, v, by rw [update_of_ne hne]; exact ha, hmem⟩

theorem retag_tile (T : Tiling τ N) {t : τ} (hh : T.tile h = some (k, t)) (u : τ) (a : ℕ) :
    (T.retag hh u).tile a = if a = h then some (k, u) else T.tile a := by
  simp only [retag, update_apply]

/-- Giving a block the tag it has changes nothing. -/
theorem retag_self (T : Tiling τ N) {t : τ} (hh : T.tile h = some (k, t)) : T.retag hh t = T := by
  refine Tiling.ext (funext fun a => ?_)
  rw [retag_tile]
  split
  · rename_i h1; rw [h1]; exact hh.symm
  · rfl

/-! ## Splitting a block -/

section

variable (T : Tiling τ N) {h k : ℕ} {t t' u : τ} (hh : T.tile h = some (k + 1, t))

section

variable {c l : ℕ} {z : τ}
  (hc : update (update T.tile h (some (k, t'))) (h + 2 ^ k) (some (k, u)) c = some (l, z))

include hc

/-- The tiles after the block at `h`, of order `k + 1`, is split. -/
theorem split_back : (c = h ∧ l = k) ∨ (c = h + 2 ^ k ∧ l = k) ∨
    (c ≠ h ∧ T.tile c = some (l, z)) := by
  rcases update_some hc with ⟨rfl, h1⟩ | ⟨-, hc⟩
  · cases h1
    exact .inr (.inl ⟨rfl, rfl⟩)
  · rcases update_some hc with ⟨rfl, h1⟩ | hc
    · cases h1
      exact .inl ⟨rfl, rfl⟩
    · exact .inr (.inr hc)

include hh

theorem split_aligned : 2 ^ l ∣ c := by
  have hal : 2 ^ k ∣ h := dvd_of_le (Nat.le_succ k) (T.aligned hh)
  rcases T.split_back hc with ⟨rfl, rfl⟩ | ⟨rfl, rfl⟩ | ⟨-, hc'⟩
  · exact hal
  · exact Nat.dvd_add hal (dvd_refl _)
  · exact T.aligned hc'

theorem split_inside : c + 2 ^ l ≤ N := by
  have hin := T.inside hh
  have hp := Nat.two_pow_succ k
  have hpos := Nat.two_pow_pos k
  rcases T.split_back hc with ⟨rfl, rfl⟩ | ⟨rfl, rfl⟩ | ⟨-, hc'⟩
  · omega
  · omega
  · exact T.inside hc'

theorem split_disjoint {b i x : ℕ} {w : τ}
    (hb : update (update T.tile h (some (k, t'))) (h + 2 ^ k) (some (k, u)) b = some (i, w))
    (hxc : x ∈ block l c) (hxb : x ∈ block i b) : c = b := by
  have hp := Nat.two_pow_succ k
  have old : ∀ {c l z}, T.tile c = some (l, z) → c ≠ h → x ∈ block l c →
      ¬ (h ≤ x ∧ x < h + 2 ^ (k + 1)) := by
    intro c l z hc hne hxc hx
    exact hne (T.disjoint hc hh hxc hx)
  simp only [mem_block] at hxc hxb
  rcases T.split_back hc with ⟨rfl, rfl⟩ | ⟨rfl, rfl⟩ | ⟨hnc, hc'⟩ <;>
    rcases T.split_back hb with ⟨hb1, hb2⟩ | ⟨hb1, hb2⟩ | ⟨hnb, hb'⟩
  · exact hb1.symm
  · subst hb1 hb2; omega
  · exact absurd ⟨by omega, by omega⟩ (old hb' hnb hxb)
  · subst hb1 hb2; omega
  · exact hb1.symm
  · exact absurd ⟨by omega, by omega⟩ (old hb' hnb hxb)
  · subst hb1 hb2; exact absurd ⟨by omega, by omega⟩ (old hc' hnc hxc)
  · subst hb1 hb2; exact absurd ⟨by omega, by omega⟩ (old hc' hnc hxc)
  · exact T.disjoint hc' hb' hxc hxb

end

include hh

theorem split_cover {x : ℕ} (hx : x < N) : ∃ a j v,
    update (update T.tile h (some (k, t'))) (h + 2 ^ k) (some (k, u)) a =
      some (j, v) ∧ x ∈ block j a := by
  have hp := Nat.two_pow_succ k
  have hpos := Nat.two_pow_pos k
  obtain ⟨a, j, v, ha, hmem⟩ := T.cover hx
  rcases eq_or_ne a h with rfl | hne
  · rw [hh] at ha; cases ha
    simp only [mem_block] at hmem
    rcases Nat.lt_or_ge x (a + 2 ^ k) with hlt | hge
    · refine ⟨a, k, t', ?_, by simp only [mem_block]; omega⟩
      rw [update_of_ne (by omega), update_self]
    · exact ⟨a + 2 ^ k, k, u, update_self .., by simp only [mem_block]; omega⟩
  · have hne' : a ≠ h + 2 ^ k := by
      rintro rfl
      rw [T.upper_eq_none hh] at ha
      cases ha
    refine ⟨a, j, v, ?_, hmem⟩
    rw [update_of_ne hne', update_of_ne hne]
    exact ha

end

/-- Split the block at `h` into halves, the lower with tag `t'` and the upper with tag `u`. -/
def split (T : Tiling τ N) {h k : ℕ} {t : τ} (hh : T.tile h = some (k + 1, t)) (t' u : τ) :
    Tiling τ N where
  tile := update (update T.tile h (some (k, t'))) (h + 2 ^ k) (some (k, u))
  aligned := T.split_aligned hh
  inside := T.split_inside hh
  disjoint hc hb := T.split_disjoint hh hc hb
  cover := T.split_cover hh

theorem split_tile (T : Tiling τ N) {t : τ} (hh : T.tile h = some (k + 1, t)) (t' u : τ) (a : ℕ) :
    (T.split hh t' u).tile a =
      if a = h + 2 ^ k then some (k, u) else if a = h then some (k, t') else T.tile a := by
  simp only [split, update_apply]

/-! ## Joining two halves -/

section

variable (T : Tiling τ N) {h k : ℕ} {u v t : τ}

section

variable {c l : ℕ} {z : τ} (hc :
    update (update T.tile (h + 2 ^ k) none) h (some (k + 1, t)) c = some (l, z))

include hc

/-- The tiles after the halves at `h` and `h + 2 ^ k` are joined. -/
theorem join_back : (c = h ∧ l = k + 1) ∨ (c ≠ h ∧ c ≠ h + 2 ^ k ∧ T.tile c = some (l, z)) := by
  rcases update_some hc with ⟨rfl, h1⟩ | ⟨hne, hc⟩
  · cases h1
    exact .inl ⟨rfl, rfl⟩
  · rcases update_some hc with ⟨-, h1⟩ | hc
    · cases h1
    · exact .inr ⟨hne, hc⟩

theorem join_aligned (hal : 2 ^ (k + 1) ∣ h) : 2 ^ l ∣ c := by
  rcases T.join_back hc with ⟨rfl, rfl⟩ | ⟨-, -, hc'⟩
  · exact hal
  · exact T.aligned hc'

theorem join_inside (hhi : T.tile (h + 2 ^ k) = some (k, v)) : c + 2 ^ l ≤ N := by
  have hp := Nat.two_pow_succ k
  rcases T.join_back hc with ⟨rfl, rfl⟩ | ⟨-, -, hc'⟩
  · have := T.inside hhi; omega
  · exact T.inside hc'

end

variable (hlo : T.tile h = some (k, u)) (hhi : T.tile (h + 2 ^ k) = some (k, v))

include hlo hhi

theorem join_disjoint {a j b i x : ℕ} {w w' : τ}
    (ha : update (update T.tile (h + 2 ^ k) none) h (some (k + 1, t)) a = some (j, w))
    (hb : update (update T.tile (h + 2 ^ k) none) h (some (k + 1, t)) b = some (i, w'))
    (hxa : x ∈ block j a) (hxb : x ∈ block i b) : a = b := by
  have hp := Nat.two_pow_succ k
  have old : ∀ {c l z}, T.tile c = some (l, z) → c ≠ h → c ≠ h + 2 ^ k → x ∈ block l c →
      x ∉ block (k + 1) h := by
    intro c l z hc hne hne' hxc hx
    simp only [mem_block] at hx
    rcases Nat.lt_or_ge x (h + 2 ^ k) with hlt | hge
    · exact hne (T.disjoint hc hlo hxc ⟨by omega, by omega⟩)
    · exact hne' (T.disjoint hc hhi hxc ⟨by omega, by omega⟩)
  rcases T.join_back ha with ⟨rfl, rfl⟩ | ⟨ha1, ha2, ha'⟩ <;>
    rcases T.join_back hb with ⟨hb1, hb2⟩ | ⟨hb1, hb2, hb'⟩
  · exact hb1.symm
  · exact absurd hxa (old hb' hb1 hb2 hxb)
  · subst hb1 hb2; exact absurd hxb (old ha' ha1 ha2 hxa)
  · exact T.disjoint ha' hb' hxa hxb

theorem join_cover {x : ℕ} (hx : x < N) : ∃ a j w,
    update (update T.tile (h + 2 ^ k) none) h (some (k + 1, t)) a =
      some (j, w) ∧ x ∈ block j a := by
  have hp := Nat.two_pow_succ k
  obtain ⟨a, j, w, ha, hmem⟩ := T.cover hx
  have hin : ∀ {z : ℕ × τ}, a = h ∨ a = h + 2 ^ k → T.tile a = some z →
      x ∈ block (k + 1) h := by
    intro z hor _
    simp only [mem_block] at hmem ⊢
    rcases hor with rfl | rfl
    · rw [hlo] at ha; cases ha; omega
    · rw [hhi] at ha; cases ha; omega
  by_cases hor : a = h ∨ a = h + 2 ^ k
  · exact ⟨h, k + 1, t, update_self .., hin hor ha⟩
  · refine ⟨a, j, w, ?_, hmem⟩
    rw [update_of_ne (by tauto), update_of_ne (by tauto)]
    exact ha

end

/-- Join the halves of order `k` at `h` and `h + 2 ^ k` into one block with tag `t`. -/
def join (T : Tiling τ N) {h k : ℕ} {u v : τ} (hal : 2 ^ (k + 1) ∣ h)
    (hlo : T.tile h = some (k, u)) (hhi : T.tile (h + 2 ^ k) = some (k, v)) (t : τ) :
    Tiling τ N where
  tile := update (update T.tile (h + 2 ^ k) none) h (some (k + 1, t))
  aligned hc := T.join_aligned hc hal
  inside hc := T.join_inside hc hhi
  disjoint hc hb := T.join_disjoint hlo hhi hc hb
  cover := T.join_cover hlo hhi

theorem join_tile (T : Tiling τ N) {u v : τ} (hal : 2 ^ (k + 1) ∣ h) (hlo : T.tile h = some (k, u))
    (hhi : T.tile (h + 2 ^ k) = some (k, v)) (t : τ) (a : ℕ) : (T.join hal hlo hhi t).tile a =
      if a = h then some (k + 1, t) else if a = h + 2 ^ k then none else T.tile a := by
  simp only [join, update_apply]

/-! ## Laying blocks down from the left -/

/-- The tiling of nothing. -/
def empty (τ : Type) : Tiling τ 0 where
  tile _ := none
  aligned := by intro h k t hh; cases hh
  inside := by intro h k t hh; cases hh
  disjoint := by intro h k t a j u x hh; cases hh
  cover := by intro x hx; exact absurd hx (Nat.not_lt_zero x)

/-- Lay a block of order `k` at the end. -/
def snoc (T : Tiling τ N) {k : ℕ} (hal : 2 ^ k ∣ N) (t : τ) : Tiling τ (N + 2 ^ k) where
  tile := update T.tile N (some (k, t))
  aligned := by
    intro c l z hc
    rcases update_some hc with ⟨rfl, h1⟩ | ⟨-, hc⟩
    · cases h1; exact hal
    · exact T.aligned hc
  inside := by
    intro c l z hc
    rcases update_some hc with ⟨rfl, h1⟩ | ⟨-, hc⟩
    · cases h1; exact le_rfl
    · exact Nat.le_add_right_of_le (T.inside hc)
  disjoint := by
    intro a j v b i w x ha hb hxa hxb
    rcases update_some ha with ⟨ha1, ha2⟩ | ⟨ha1, ha2⟩ <;>
      rcases update_some hb with ⟨hb1, hb2⟩ | ⟨hb1, hb2⟩
    · exact ha1.trans hb1.symm
    · exact absurd (hxb.2.trans_le (T.inside hb2)) (Nat.not_lt.mpr (ha1 ▸ hxa.1))
    · exact absurd (hxa.2.trans_le (T.inside ha2)) (Nat.not_lt.mpr (hb1 ▸ hxb.1))
    · exact T.disjoint ha2 hb2 hxa hxb
  cover := by
    intro x hx
    rcases Nat.lt_or_ge x N with hlt | hge
    · obtain ⟨a, j, v, ha, hmem⟩ := T.cover hlt
      exact ⟨a, j, v, by rw [update_of_ne (T.head_lt ha).ne]; exact ha, hmem⟩
    · exact ⟨N, k, t, update_self .., hge, hx⟩

theorem snoc_tile (T : Tiling τ N) {k : ℕ} (hal : 2 ^ k ∣ N) (t : τ) (a : ℕ) :
    (T.snoc hal t).tile a = if a = N then some (k, t) else T.tile a := by
  simp only [snoc, update_apply]

end Tiling

end Dyadic
