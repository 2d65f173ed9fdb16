import Mathlib.Data.List.Induction
import Mathlib.Data.List.Nodup
import Mathlib.Data.List.Range

/-!
# Walks through linked nodes

Nodes that refer to other nodes by name: `child u i` is the node that slot `i` of
`u` refers to.  `follow` walks from a node along a list of slots.

A walk depends on the slots it passes (`follow_congr`).  Linking a node that no
walk has reached into an empty slot adds one walk and changes no other, as long
as the node with the slot is reached in one way only (`follow_attach`).  Nothing
is assumed about nodes below the depth of interest, which may be shared, and
`follow_relink` also leaves out the walks one does not look at.

Where slots are numbers, `extend` lists walks in lexicographic order, and
`extend_range` numbers them.
-/

namespace Nodes

variable {ν ι : Type} {child child' : ν → ι → Option ν}

/-- The node reached from `u` by following slots. -/
def follow (child : ν → ι → Option ν) : ν → List ι → Option ν
  | u, [] => some u
  | u, i :: rest => (child u i).bind fun v => follow child v rest

@[simp] theorem follow_nil (u : ν) : follow child u [] = some u := rfl

variable {i : ι}

theorem length_snoc {π : List ι} : (π ++ [i]).length = π.length + 1 := List.length_append

theorem follow_cons (u : ν) (i : ι) (rest : List ι) :
    follow child u (i :: rest) = (child u i).bind fun v => follow child v rest := rfl

theorem follow_append (u : ν) (π ρ : List ι) :
    follow child u (π ++ ρ) = (follow child u π).bind fun v => follow child v ρ := by
  induction π generalizing u with
  | nil => rfl
  | cons i rest ih =>
    rw [List.cons_append, follow_cons, follow_cons, Option.bind_assoc]
    exact congrArg (child u i).bind (funext ih)

theorem follow_snoc (u : ν) (π : List ι) (i : ι) :
    follow child u (π ++ [i]) = (follow child u π).bind fun v => child v i := by
  rw [follow_append]
  refine congrArg (follow child u π).bind (funext fun v => ?_)
  rw [follow_cons]
  cases child v i with
  | none | some w => rfl

variable {π : List ι}

/-- A walk that arrives passed through the node before. -/
theorem follow_of_snoc {u w : ν} (h : follow child u (π ++ [i]) = some w) :
    ∃ v, follow child u π = some v ∧ child v i = some w := by
  rw [follow_snoc] at h
  exact Option.bind_eq_some_iff.mp h

/-- A walk depends on the slots it passes only. -/
theorem follow_congr {u : ν} (h : ∀ ρ i v, ρ ++ [i] <+: π → follow child u ρ = some v →
    child' v i = child v i) : follow child' u π = follow child u π := by
  induction π using List.reverseRecOn with
  | nil => rfl
  | append_singleton π i ih =>
    have hpre : follow child' u π = follow child u π :=
      ih fun ρ j v hρ hv => h ρ j v (hρ.trans (List.prefix_append _ _)) hv
    rw [follow_snoc, follow_snoc, hpre]
    cases hv : follow child u π with
    | none => rfl
    | some v => exact h π i v (List.prefix_refl _) hv

/-- A list of walks with every step from a node of the list has all walks. -/
theorem follow_mem {p : ι → Prop} {r v : ν} {R : List (List ι × ν)} (hr : ([], r) ∈ R)
    (hR : ∀ x ∈ R, ∀ i, p i → ∀ w ∈ child x.2 i, (x.1 ++ [i], w) ∈ R) (hp : ∀ i ∈ π, p i)
    (h : follow child r π = some v) : (π, v) ∈ R := by
  induction π using List.reverseRecOn generalizing v with
  | nil => cases h; exact hr
  | append_singleton π i ih =>
    obtain ⟨u, hu, hv⟩ := follow_of_snoc h
    exact hR (π, u) (ih (fun j hj => hp j (List.mem_append_left _ hj)) hu) i (hp i (by simp)) v hv

variable {ρ : List ι}

/-- Changing what one slot refers to changes one walk, if there are no walks behind the slot.  Only
walks with `P` are looked at, so the nodes behind other walks may be shared. -/
theorem follow_relink {P : List ι → Prop} {r t : ν} {v : Option ν} (hπ : follow child r π = some t)
    (hpre : ∀ ρ j, P (ρ ++ [j]) → P ρ)
    (hone : ∀ ρ j, P (ρ ++ [j]) → follow child r ρ = some t → ρ = π) (hv : child' t i = v)
    (hsame : ∀ ρ u j, P (ρ ++ [j]) → ρ ≠ π ++ [i] → follow child r ρ = some u → (u ≠ t ∨ j ≠ i) →
      child' u j = child u j)
    (hend : ∀ j, P (π ++ [i] ++ [j]) → (∀ g ∈ v, child' g j = none) ∧
    ∀ g ∈ child t i, child g j = none) [DecidableEq ι] (hρ : P ρ) :
    follow child' r ρ = if ρ = π ++ [i] then v else follow child r ρ := by
  induction ρ using List.reverseRecOn with
  | nil => rw [if_neg (by simp)]; rfl
  | append_singleton σ j ih =>
    rw [follow_snoc, ih (hpre σ j hρ), follow_snoc]
    split
    · rename_i hσ
      subst hσ
      rw [if_neg (by simp), follow_snoc, hπ, Option.bind_some,
        Option.bind_eq_none_iff.mpr (hend j hρ).1, Option.bind_eq_none_iff.mpr (hend j hρ).2]
    · rename_i hσ
      cases hu : follow child r σ with
      | none =>
        rw [if_neg]
        · rfl
        · intro h
          rw [(List.append_inj' h rfl).1, hπ] at hu
          cases hu
      | some u =>
        simp only [Option.bind_some]
        by_cases hui : u = t ∧ j = i
        · obtain ⟨rfl, rfl⟩ := hui
          rw [if_pos (by rw [hone σ j hρ hu]), hv]
        · rw [if_neg, hsame σ u j hρ hσ hu (by tauto)]
          intro h
          obtain ⟨h1, h2⟩ := List.append_inj' h rfl
          rw [h1, hπ] at hu
          exact hui ⟨(Option.some.inj hu).symm, List.singleton_inj.mp h2⟩

/-- The same where walks have up to `n` slots: the slot is at their end, or it refers to nodes with
nothing below them. -/
theorem follow_set {r t : ν} {n : ℕ} {v : Option ν} (hπ : follow child r π = some t)
    (hone : ∀ ρ, ρ.length < n → follow child r ρ = some t → ρ = π) (hv : child' t i = v)
    (hsame : ∀ ρ u j, ρ.length < n → ρ ≠ π ++ [i] → follow child r ρ = some u → (u ≠ t ∨ j ≠ i) →
      child' u j = child u j) (hend : n = π.length + 1 ∨ ∀ j, (∀ g ∈ v, child' g j = none) ∧
    ∀ g ∈ child t i, child g j = none) [DecidableEq ι] (hρ : ρ.length ≤ n) :
    follow child' r ρ = if ρ = π ++ [i] then v else follow child r ρ := by
  have hlen : ∀ (σ : List ι) (j : ι), (σ ++ [j]).length ≤ n → σ.length < n := fun σ j h => by
    rw [length_snoc] at h
    omega
  refine follow_relink (P := fun ρ => ρ.length ≤ n) hπ (fun σ j h => Nat.le_of_lt (hlen σ j h))
    (fun σ j h => hone σ (hlen σ j h)) hv (fun σ u j h => hsame σ u j (hlen σ j h)) (fun j h => ?_)
    hρ
  refine hend.resolve_left (fun hn => ?_) j
  have := hlen _ _ h
  rw [length_snoc] at this
  omega

/-- Linking a new node into an empty slot adds one walk. -/
theorem follow_attach {r t g : ν} {n : ℕ} (hπ : follow child r π = some t)
    (hone : ∀ ρ, ρ.length < n → follow child r ρ = some t → ρ = π)
    (hnew : ∀ ρ, ρ.length < n → follow child r ρ ≠ some g) (hempty : child t i = none)
    (hlink : child' t i = some g) (hsame : ∀ u j, u ≠ g → (u ≠ t ∨ j ≠ i) → child' u j = child u j)
    (hend : n = π.length + 1 ∨ ∀ j, child' g j = none) [DecidableEq ι] (hρ : ρ.length ≤ n) :
    follow child' r ρ = if ρ = π ++ [i] then some g else follow child r ρ :=
  follow_set hπ hone hlink (fun ρ u j hn _ hu => hsame u j fun e => hnew ρ hn (e ▸ hu))
    (hend.imp_right fun h j => by simp [h, hempty]) hρ

/-! ## Lists of walks -/

/-- The walks of a list, each with every slot below `limit` in front. -/
def extend (limit : ℕ) (Q : List (List ℕ)) : List (List ℕ) :=
  (List.range limit).flatMap fun i => Q.map (i :: ·)

theorem mem_extend {limit : ℕ} {Q : List (List ℕ)} {ρ : List ℕ} :
    ρ ∈ extend limit Q ↔ ∃ i < limit, ∃ σ ∈ Q, i :: σ = ρ := by
  simp [extend]

theorem nodup_extend {limit : ℕ} {Q : List (List ℕ)} (hQ : Q.Nodup) : (extend limit Q).Nodup := by
  refine List.nodup_flatMap.mpr ⟨fun i _ => hQ.map fun _ _ h => (List.cons.inj h).2, ?_⟩
  refine List.nodup_range.imp fun {i j} hij ρ hi hj => ?_
  obtain ⟨σ, -, rfl⟩ := List.mem_map.mp hi
  obtain ⟨τ, -, h⟩ := List.mem_map.mp hj
  exact hij (List.cons.inj h).1.symm

theorem range_mul (a m : ℕ) :
    List.range (a * m) = (List.range a).flatMap fun i => (List.range m).map (i * m + ·) := by
  induction a with
  | zero => simp
  | succ a ih => rw [Nat.succ_mul, List.range_add, ih, List.range_succ, List.flatMap_append]; simp

/-- Walks that are numbered, with a new most significant digit. -/
theorem extend_range {limit m : ℕ} (hm : 0 < m) (f : ℕ → List ℕ) :
    extend limit ((List.range m).map f) =
      (List.range (limit * m)).map fun x => x / m :: f (x % m) := by
  rw [range_mul, List.map_flatMap, extend]
  refine List.flatMap_congr fun i _ => ?_
  rw [List.map_map, List.map_map]
  refine List.map_congr_left fun x hx => ?_
  have hx' : x < m := List.mem_range.mp hx
  simp only [Function.comp_apply]
  rw [Nat.add_comm, Nat.add_mul_div_right _ _ hm, Nat.div_eq_of_lt hx', Nat.zero_add,
    Nat.add_mul_mod_self_right, Nat.mod_eq_of_lt hx']

end Nodes
