import Mathlib.Algebra.Order.Ring.Nat
import Mathlib.Data.Set.Basic
import Mathlib.Tactic.Ring
import Mathlib.Tactic.Linarith

/-!
# Dyadic blocks of the naturals

A dyadic block of order `k` is an interval `[h, h + 2^k)` whose head `h` is a
multiple of `2^k`.  Two facts carry everything a binary buddy system rests on.
Two dyadic blocks that meet are nested (`Dyadic.nested`), so a block never
straddles another.  And a head that lies in a block of no larger order is the
head of that block (`Dyadic.head_eq`), so an aligned position is never strictly
inside a smaller block.

The *buddy* of a block is the other half of the block one order up.  A family
of pairwise disjoint blocks is *coalesced* up to order `M` when no block of
order below `M` has its buddy in the family.  A coalesced family is determined
by the set it covers (`Dyadic.Coalesced.ext`): its blocks are the maximal dyadic
blocks of that set.
-/

namespace Dyadic

/-- The positions of the block of order `k` at `h`. -/
def block (k h : ℕ) : Set ℕ := {x | h ≤ x ∧ x < h + 2 ^ k}

@[simp] theorem mem_block {k h x : ℕ} : x ∈ block k h ↔ h ≤ x ∧ x < h + 2 ^ k := Iff.rfl

theorem head_mem (k h : ℕ) : h ∈ block k h :=
  ⟨le_refl h, Nat.lt_add_of_pos_right (Nat.two_pow_pos k)⟩

theorem dvd_of_le {j k h : ℕ} (hjk : j ≤ k) (hh : 2 ^ k ∣ h) : 2 ^ j ∣ h :=
  dvd_trans (pow_dvd_pow 2 hjk) hh

section

variable {j k a b : ℕ} (hjk : j ≤ k) (ha : 2 ^ j ∣ a) (hb : 2 ^ k ∣ b)

include hjk ha hb

theorem nested {x : ℕ} (hxa : x ∈ block j a) (hxb : x ∈ block k b) :
    b ≤ a ∧ a + 2 ^ j ≤ b + 2 ^ k := by
  obtain ⟨m, rfl⟩ := ha
  obtain ⟨n, hn⟩ := dvd_of_le hjk hb
  obtain ⟨c, hc⟩ := pow_dvd_pow 2 hjk
  simp only [mem_block] at hxa hxb
  have hpos : 0 < 2 ^ j := Nat.two_pow_pos j
  have h1 : 2 ^ j * n < 2 ^ j * (m + 1) := by rw [Nat.mul_add, Nat.mul_one]; omega
  have h2 : 2 ^ j * m < 2 ^ j * (n + c) := by rw [Nat.mul_add]; omega
  have h3 : n ≤ m := Nat.lt_succ_iff.mp (Nat.lt_of_mul_lt_mul_left h1)
  have h4 : m + 1 ≤ n + c := Nat.lt_of_mul_lt_mul_left h2
  have h5 := Nat.mul_le_mul_left (2 ^ j) h3
  have h6 := Nat.mul_le_mul_left (2 ^ j) h4
  rw [Nat.mul_add, Nat.mul_one, Nat.mul_add] at h6
  omega

theorem block_subset {x : ℕ} (hxa : x ∈ block j a) (hxb : x ∈ block k b) :
    block j a ⊆ block k b := by
  obtain ⟨h1, h2⟩ := nested hjk ha hb hxa hxb
  intro y hy
  simp only [mem_block] at hy ⊢
  omega

/-- An aligned head inside a block of no larger order is that block's head. -/
theorem head_eq (h : b ∈ block j a) : b = a := by
  have h1 := (nested hjk ha hb h (head_mem k b)).1
  exact Nat.le_antisymm h1 h.1

end

/-! ## Buddies -/

/-- The other half of the block one order up. -/
def buddy (k h : ℕ) : ℕ := if h / 2 ^ k % 2 = 1 then h - 2 ^ k else h + 2 ^ k

variable {k h : ℕ}

/-- A head is aligned one order up, or the block below it is. -/
theorem aligned_cases (hh : 2 ^ k ∣ h) : (2 ^ (k + 1) ∣ h ∧ h / 2 ^ k % 2 = 0) ∨
      (2 ^ k ≤ h ∧ 2 ^ (k + 1) ∣ h - 2 ^ k ∧ h / 2 ^ k % 2 = 1) := by
  obtain ⟨m, rfl⟩ := hh
  have hpos : 0 < 2 ^ k := Nat.two_pow_pos k
  have hdiv : 2 ^ k * m / 2 ^ k = m := Nat.mul_div_cancel_left m hpos
  rw [hdiv]
  rcases Nat.even_or_odd' m with ⟨c, rfl | rfl⟩
  · refine .inl ⟨⟨c, by ring⟩, by omega⟩
  · refine .inr ⟨?_, ⟨c, ?_⟩, by omega⟩
    · calc 2 ^ k = 2 ^ k * 1 := (Nat.mul_one _).symm
        _ ≤ 2 ^ k * (2 * c + 1) := Nat.mul_le_mul_left _ (by omega)
    · have : 2 ^ k * (2 * c + 1) = 2 ^ (k + 1) * c + 2 ^ k := by ring
      omega

theorem not_succ_dvd (k : ℕ) : ¬ 2 ^ (k + 1) ∣ 2 ^ k := fun h =>
  absurd ((Nat.pow_dvd_pow_iff_le_right (by decide)).mp h) (Nat.not_succ_le_self k)

theorem buddy_of_aligned (hh : 2 ^ (k + 1) ∣ h) : buddy k h = h + 2 ^ k := by
  have h0 : 2 ^ k ∣ h := dvd_of_le (Nat.le_succ k) hh
  rcases aligned_cases h0 with ⟨-, h1⟩ | ⟨h1, h2, -⟩
  · rw [buddy, if_neg (by omega)]
  · -- both halves aligned one order up would put `2^(k+1)` below `2^k`
    have h3 := Nat.dvd_sub hh h2
    rw [Nat.sub_sub_self h1] at h3
    exact absurd h3 (not_succ_dvd k)

/-- A block and its buddy: which of the two is the lower half. -/
theorem buddy_cases (hh : 2 ^ k ∣ h) : (2 ^ (k + 1) ∣ h ∧ buddy k h = h + 2 ^ k) ∨
      (2 ^ (k + 1) ∣ buddy k h ∧ h = buddy k h + 2 ^ k) := by
  rcases aligned_cases hh with ⟨h1, -⟩ | ⟨h1, h2, h3⟩
  · exact .inl ⟨h1, buddy_of_aligned h1⟩
  · have hb : buddy k h = h - 2 ^ k := by rw [buddy, if_pos h3]
    refine .inr ⟨hb ▸ h2, by omega⟩

theorem buddy_aligned (hh : 2 ^ k ∣ h) : 2 ^ k ∣ buddy k h := by
  rcases buddy_cases hh with ⟨-, h2⟩ | ⟨h1, -⟩
  · rw [h2]; exact Nat.dvd_add hh (dvd_refl _)
  · exact dvd_of_le (Nat.le_succ k) h1

theorem buddy_buddy (hh : 2 ^ k ∣ h) : buddy k (buddy k h) = h := by
  rcases buddy_cases hh with ⟨h1, h2⟩ | ⟨h1, h2⟩
  · have hb : 2 ^ k ∣ h + 2 ^ k := Nat.dvd_add hh (dvd_refl _)
    rw [h2]
    rcases buddy_cases hb with ⟨h3, -⟩ | ⟨-, h4⟩
    · exact absurd ((Nat.dvd_add_right h1).mp h3) (not_succ_dvd k)
    · omega
  · rw [buddy_of_aligned h1]
    exact h2.symm

theorem buddy_ne (hh : 2 ^ k ∣ h) : buddy k h ≠ h := by
  have := Nat.two_pow_pos k
  rcases buddy_cases hh with ⟨-, h2⟩ | ⟨-, h2⟩ <;> omega

/-- The head of the block one order up. -/
def parent (k h : ℕ) : ℕ := min h (buddy k h)

theorem parent_aligned (hh : 2 ^ k ∣ h) : 2 ^ (k + 1) ∣ parent k h := by
  rcases buddy_cases hh with ⟨h1, h2⟩ | ⟨h1, h2⟩
  · rw [parent, Nat.min_eq_left (by omega)]; exact h1
  · rw [parent, Nat.min_eq_right (by omega)]; exact h1

theorem mem_parent {k h x : ℕ} (hh : 2 ^ k ∣ h) :
    x ∈ block (k + 1) (parent k h) ↔ x ∈ block k h ∨ x ∈ block k (buddy k h) := by
  have hp := Nat.two_pow_succ k
  simp only [mem_block, parent]
  rcases buddy_cases hh with ⟨-, h2⟩ | ⟨-, h2⟩ <;> omega

/-- A larger block that meets a block or its buddy contains both. -/
theorem pair_subset {k h j a x : ℕ} (hkj : k < j) (hh : 2 ^ k ∣ h) (ha : 2 ^ j ∣ a)
    (hx : x ∈ block k h ∨ x ∈ block k (buddy k h)) (hxa : x ∈ block j a) :
    block k h ⊆ block j a ∧ block k (buddy k h) ⊆ block j a := by
  have hsub := block_subset hkj (parent_aligned hh) ha ((mem_parent hh).mpr hx) hxa
  exact ⟨fun y hy => hsub ((mem_parent hh).mpr (.inl hy)), fun y hy =>
    hsub ((mem_parent hh).mpr (.inr hy))⟩

/-! ## Coalesced families -/

/-- A family of blocks, given by order and head, that is disjoint and holds no two buddies below
order `M`. -/
structure Coalesced (M : ℕ) (D : ℕ → ℕ → Prop) : Prop where
  le : ∀ {k h}, D k h → k ≤ M
  aligned : ∀ {k h}, D k h → 2 ^ k ∣ h
  disjoint : ∀ {k h j a x}, D k h → D j a → x ∈ block k h → x ∈ block j a → k = j ∧ h = a
  apart : ∀ {k h}, D k h → k < M → ¬ D k (buddy k h)

/-- The positions a family covers. -/
def covered (D : ℕ → ℕ → Prop) : Set ℕ := {x | ∃ k h, D k h ∧ x ∈ block k h}

namespace Coalesced

variable {M : ℕ} {D D' : ℕ → ℕ → Prop}

/-- The buddy of a block below the top order is never fully covered. -/
theorem buddy_not_covered (hD : Coalesced M D) :
    ∀ (k h : ℕ), D k h → k < M → ¬ block k (buddy k h) ⊆ covered D := by
  intro k
  -- the block of the family at the buddy's head is the buddy, contains `h`, or is smaller; a
  -- smaller one has its own buddy covered
  induction k using Nat.strong_induction_on with
  | _ k ih =>
    intro h hk hM hcov
    have hal := hD.aligned hk
    have hbal := buddy_aligned hal
    obtain ⟨j, a, hj, hmem⟩ := hcov (head_mem k (buddy k h))
    have haal := hD.aligned hj
    rcases Nat.lt_trichotomy j k with hlt | heq | hgt
    · have ha : buddy k h = a := head_eq (Nat.le_of_lt hlt) haal hbal hmem
      have hsub := pair_subset hlt haal hbal (.inl (head_mem j a)) (ha ▸ head_mem k (buddy k h))
      exact ih j hlt a hj (by omega) (hsub.2.trans hcov)
    · subst heq
      have ha : buddy j h = a := head_eq (le_refl j) haal hbal hmem
      exact hD.apart hk hM (ha ▸ hj)
    · have hsub := pair_subset hgt hal haal (.inr (head_mem k _)) hmem
      obtain ⟨h1, -⟩ := hD.disjoint hk hj (head_mem k h) (hsub.1 (head_mem k h))
      omega

/-- A block of positions that are all covered is inside a block of the family. -/
theorem exists_larger (hD : Coalesced M D) (hal : 2 ^ k ∣ h) (hk : k ≤ M)
    (hc : block k h ⊆ covered D) : ∃ j a, D j a ∧ k ≤ j := by
  obtain ⟨j, a, hj, hmem⟩ := hc (head_mem k h)
  refine ⟨j, a, hj, ?_⟩
  -- a smaller block at the head would have its buddy covered
  by_contra hlt
  have ha : h = a := head_eq (by omega) (hD.aligned hj) hal hmem
  subst ha
  have hsub := pair_subset (by omega) (hD.aligned hj) hal (.inl (head_mem j h)) (head_mem k h)
  exact hD.buddy_not_covered j h hj (by omega) (hsub.2.trans hc)

/-- The family of blocks is determined by what it covers: one inclusion. -/
theorem of_covered (hD : Coalesced M D) (hD' : Coalesced M D') (hc : covered D = covered D')
    (hk : D k h) : D' k h := by
  have hh : h ∈ covered D' := hc ▸ ⟨k, h, hk, head_mem k h⟩
  obtain ⟨j, a, hj, hmem⟩ := hh
  have hal := hD.aligned hk
  have haal := hD'.aligned hj
  rcases Nat.lt_trichotomy j k with hlt | heq | hgt
  · exfalso
    have hjM : j < M := Nat.lt_of_lt_of_le hlt (hD.le hk)
    apply hD'.buddy_not_covered j a hj hjM
    rw [← hc]
    intro x hx
    exact ⟨k, h, hk, (pair_subset hlt haal hal (.inl hmem) (head_mem k h)).2 hx⟩
  · subst heq
    have ha : h = a := head_eq (le_refl j) haal hal hmem
    exact ha ▸ hj
  · exfalso
    have hkM : k < M := Nat.lt_of_lt_of_le hgt (hD'.le hj)
    apply hD.buddy_not_covered k h hk hkM
    rw [hc]
    intro x hx
    exact ⟨j, a, hj, (pair_subset hgt hal haal (.inl (head_mem k h)) hmem).2 hx⟩

/-- Two coalesced families that cover the same positions are the same family. -/
theorem ext (hD : Coalesced M D) (hD' : Coalesced M D') (hc : covered D = covered D') (k h : ℕ) :
    D k h ↔ D' k h :=
  ⟨fun hk => hD.of_covered hD' hc hk, fun hk => hD'.of_covered hD hc.symm hk⟩

end Coalesced

end Dyadic
