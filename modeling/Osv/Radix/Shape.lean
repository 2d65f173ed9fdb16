import Osv.Radix.Tree
import Osv.Lib.Follow
import Mathlib.Data.Finset.Lattice.Fold
import Mathlib.Data.Fintype.Card

/-!
# The shape of the radix tree

What a tree is for is a map from indices to leaves.  `RadixRep E m s` says that the
nodes in memory represent the map `m`: every live node is reached from the root along
one list of slots, knows its parent and how many of its slots are in use, and has some
slot in use unless it is in `E`; and the walk along the digits of an index leads to its
leaf.

An insertion makes empty nodes on its way, each of which gets a child next, so that `E`
has at most the node that the walk has come to.  A removal clears a slot, and frees the
node if that was its last one.  `RadixRep.removeFrom` carries the state in which the next
slot is already cleared.

Only the first level of an empty tree is a node that need not get a child.  It does if
the first index is less than 64; otherwise the node stays when all indices are
gone (`spine_stays`).
-/

namespace Osv

open Function (update update_self update_of_ne update_idem update_eq_self)
open Radix (setNode setParent)
open Prog (bind_of_ok read_bind run_of_result update_bind)

open Nodes

/-! ## Slots in use -/

/-- The number of slots in use. -/
def filled (slots : Fin 64 → ℕ) : ℕ := (Finset.univ.filter fun i => slots i ≠ 0).card

theorem filled_le (slots : Fin 64 → ℕ) : filled slots ≤ 64 :=
  (Finset.card_filter_le _ _).trans (by simp)

variable {slots : Fin 64 → ℕ} {i : Fin 64} {s : Radix}

theorem filled_pos : 0 < filled slots ↔ ∃ i, slots i ≠ 0 := by
  rw [filled, Finset.card_pos]
  exact ⟨fun ⟨i, hi⟩ => ⟨i, (Finset.mem_filter.mp hi).2⟩, fun ⟨i, hi⟩ => ⟨i, by simp [hi]⟩⟩

theorem filled_zero : filled (fun _ => 0) = 0 := by simp [filled]

theorem filled_set {x : ℕ} (h0 : slots i = 0) (hx : x ≠ 0) :
    filled (update slots i x) = filled slots + 1 := by
  have h : (Finset.univ.filter fun j => update slots i x j ≠ 0) =
      insert i (Finset.univ.filter fun j => slots j ≠ 0) := by
    ext j
    by_cases hj : j = i
    · subst hj
      simp [hx]
    · simp [hj]
  rw [filled, h, Finset.card_insert_of_notMem (by simp [h0]), filled]

theorem filled_clear (h : slots i ≠ 0) : filled (update slots i 0) + 1 = filled slots := by
  have hback := @filled_set (update slots i 0) i (slots i) (by simp) h
  rw [update_idem, update_eq_self] at hback
  exact hback.symm

/-! ## Walks -/

namespace Radix

/-- The node or leaf in a slot. -/
def child (s : Radix) (p : ℕ) (i : Fin 64) : Option ℕ :=
  if (s.node p).slots i = 0 then none else some ((s.node p).slots i)

theorem child_eq_some {p x : ℕ} : s.child p i = some x ↔ x ≠ 0 ∧ (s.node p).slots i = x := by
  rw [child]
  split
  · rename_i h
    rw [h]
    simp [eq_comm]
  · rename_i h
    simp only [Option.some.injEq]
    exact ⟨fun e => ⟨e ▸ h, e⟩, fun e => e.2⟩

theorem child_eq_none {p : ℕ} : s.child p i = none ↔ (s.node p).slots i = 0 := by
  rw [child]
  split <;> simp [*]

theorem child_congr {s s' : Radix} {p : ℕ} (h : (s'.node p).slots = (s.node p).slots) (i : Fin 64) :
    s'.child p i = s.child p i := by
  rw [child, child, h]

/-- What the walk from the root along the slots leads to. -/
def walk (s : Radix) (π : List (Fin 64)) : Option ℕ := follow s.child s.rootNode π

end Radix

/-! ## Digits -/

/-- The last `h` digits of an index, the most significant first. -/
def radixPath (i : ℕ) : (h : ℕ) → List (Fin 64)
  | 0 => []
  | h + 1 => radixTreeLevelIndex i h :: radixPath i h

@[simp] theorem radixPath_length (i h : ℕ) : (radixPath i h).length = h := by
  induction h with
  | zero => rfl
  | succ h ih => rw [radixPath, List.length_cons, ih]

theorem radixTreeLevelIndex_succ (i l : ℕ) :
    radixTreeLevelIndex i (l + 1) = radixTreeLevelIndex ((i / 64 : ℕ) : ℤ) l := by
  rw [radixTreeLevelIndex_natCast, radixTreeLevelIndex_natCast]
  refine Fin.ext ?_
  dsimp only
  rw [pow_succ', Nat.div_div_eq_div_mul]

theorem radixPath_succ (i h : ℕ) :
    radixPath i (h + 1) = radixPath (i / 64) h ++ [radixTreeLevelIndex i 0] := by
  induction h with
  | zero => rfl
  | succ h ih => rw [radixPath, ih, radixTreeLevelIndex_succ, radixPath, List.cons_append]

theorem radixPath_last (i : ℕ) {h : ℕ} (h0 : h ≠ 0) :
    radixPath i h = radixPath (i / 64) (h - 1) ++ [radixTreeLevelIndex i 0] := by
  rw [← radixPath_succ, Nat.sub_add_cancel (Nat.pos_of_ne_zero h0)]

theorem radixPath_injective {h i j : ℕ} (hi : i < 64 ^ h) (hj : j < 64 ^ h)
    (heq : radixPath i h = radixPath j h) : i = j := by
  induction h generalizing i j with
  | zero =>
    rw [pow_zero] at hi hj
    omega
  | succ h ih =>
    rw [radixPath_succ, radixPath_succ] at heq
    obtain ⟨h1, h2⟩ := List.append_inj' heq rfl
    have hdiv := ih (by rw [pow_succ] at hi; omega) (by rw [pow_succ] at hj; omega) h1
    have hmod := congrArg Fin.val (List.singleton_inj.mp h2)
    rw [radixTreeLevelIndex_natCast, radixTreeLevelIndex_natCast] at hmod
    simp only [pow_zero, Nat.div_one] at hmod
    omega

theorem exists_radixPath (π : List (Fin 64)) : ∃ i < 64 ^ π.length, radixPath i π.length = π := by
  induction π using List.reverseRecOn with
  | nil => exact ⟨0, by decide, rfl⟩
  | append_singleton π d ih =>
    obtain ⟨i, hi, hπ⟩ := ih
    have hd := d.isLt
    have hdiv : (i * 64 + d) / 64 = i := by omega
    refine ⟨i * 64 + d, ?_, ?_⟩
    · rw [length_snoc, pow_succ]
      omega
    · rw [length_snoc, radixPath_succ, hdiv, hπ, radixTreeLevelIndex_natCast]
      congr 2
      refine Fin.ext ?_
      simp only [pow_zero, Nat.div_one]
      omega

/-! ## What the nodes represent -/

/-- The nodes in memory represent the map `m`, and all of them but those in `E` have a slot in use.
-/
structure RadixRep (E : Set ℕ) (m : ℕ → ℕ) (s : Radix) : Prop where
  bound : s.height ≤ 5
  root : s.height = 0 ↔ s.rootNode = 0
  nodup : s.live.Nodup
  ne : 0 ∉ s.live
  live : ∀ π p, π.length < s.height → s.walk π = some p → p ∈ s.live
  reach : ∀ p ∈ s.live, ∃ π, π.length < s.height ∧ s.walk π = some p
  one : ∀ π ρ p, π.length < s.height → ρ.length < s.height → s.walk π = some p →
    s.walk ρ = some p → π = ρ
  count : ∀ p ∈ s.live, (s.node p).count = filled (s.node p).slots
  full : ∀ p ∈ s.live, p ∉ E → 0 < filled (s.node p).slots
  top : s.height ≠ 0 → (s.node s.rootNode).parent = 0
  up : ∀ π i p c, π.length + 1 < s.height → s.walk π = some p → s.walk (π ++ [i]) = some c →
    (s.node c).parent = p
  leaf : s.height ≠ 0 → ∀ i < 64 ^ s.height,
    s.walk (radixPath i s.height) = if m i = 0 then none else some (m i)
  beyond : ∀ i, s.height = 0 ∨ 64 ^ s.height ≤ i → m i = 0

namespace RadixRep

variable {E : Set ℕ} {m : ℕ → ℕ} {s s' : Radix} {p c : ℕ} {π : List (Fin 64)} {i : Fin 64}

theorem mono {E' : Set ℕ} (R : RadixRep E m s) (h : E ⊆ E') : RadixRep E' m s :=
  { R with full := fun p hp hE => R.full p hp fun he => hE (h he) }

theorem settle (R : RadixRep {p} m s) (h : 0 < filled (s.node p).slots) : RadixRep ∅ m s := by
  refine { R with full := fun q hq _ => ?_ }
  by_cases hqp : q = p
  · exact hqp ▸ h
  · exact R.full q hq hqp

theorem supply (R : RadixRep E m s) (l : List (Option ℕ)) : RadixRep E m { s with supply := l } :=
  { R with }

theorem walk_snoc (hπ : s.walk π = some p) (i : Fin 64) : s.walk (π ++ [i]) = s.child p i := by
  rw [Radix.walk] at hπ ⊢
  rw [follow_snoc, hπ, Option.bind_some]

theorem root_live (R : RadixRep E m s) (h : s.height ≠ 0) : s.rootNode ∈ s.live :=
  R.live [] _ (by rw [List.length_nil]; omega) rfl

theorem exists_leaf (R : RadixRep ∅ m s) (k : ℕ) (hk : k ≤ s.height) :
    ∃ π x, π.length = k ∧ s.walk π = some x := by
  induction k with
  | zero => exact ⟨[], _, rfl, rfl⟩
  | succ k ih =>
    obtain ⟨π, p, hlen, hπ⟩ := ih (by omega)
    obtain ⟨i, hi⟩ := filled_pos.mp (R.full p (R.live π p (by omega) hπ) (Set.notMem_empty p))
    refine ⟨π ++ [i], (s.node p).slots i, by simp [hlen], ?_⟩
    rw [walk_snoc hπ]
    exact Radix.child_eq_some.mpr ⟨hi, rfl⟩

theorem height_eq_zero (R : RadixRep ∅ m s) : s.height = 0 ↔ ∀ i, m i = 0 := by
  refine ⟨fun h i => R.beyond i (.inl h), fun hm => by_contra fun h => ?_⟩
  obtain ⟨π, x, hlen, hπ⟩ := R.exists_leaf _ le_rfl
  obtain ⟨i, hi, hpath⟩ := exists_radixPath π
  rw [hlen] at hi hpath
  have hleaf := R.leaf h i hi
  rw [hpath, hπ, if_pos (hm i)] at hleaf
  cases hleaf

theorem live_nil (R : RadixRep E m s) (h : s.height = 0) : s.live = [] := by
  refine List.eq_nil_iff_forall_not_mem.mpr fun p hp => ?_
  obtain ⟨π, hπ, -⟩ := R.reach p hp
  omega

theorem empty (hh : s.height = 0) (hroot : s.rootNode = 0) (hlive : s.live = [])
    (hm : ∀ k, m k = 0) : RadixRep E m s := by
  have hpath : ∀ {n : ℕ}, ¬ n < s.height := fun h => Nat.not_lt_zero _ (hh ▸ h)
  have hnone : ∀ {p}, p ∉ s.live := fun h => List.not_mem_nil (hlive ▸ h)
  constructor
  case bound => exact hh ▸ Nat.zero_le 5
  case root => exact iff_of_true hh hroot
  case nodup => exact hlive ▸ List.nodup_nil
  case ne => exact hnone
  case live => exact fun π p hπ => absurd hπ hpath
  case reach => exact fun p hp => absurd hp hnone
  case one => exact fun π ρ p hπ => absurd hπ hpath
  case count => exact fun p hp => absurd hp hnone
  case full => exact fun p hp => absurd hp hnone
  case top => exact fun h => absurd hh h
  case up => exact fun π i p c hπ => absurd hπ hpath
  case leaf => exact fun h => absurd hh h
  case beyond => exact fun k _ => hm k

theorem child_of_filled (h : filled (s.node p).slots = 0) (j : Fin 64) : s.child p j = none := by
  refine Radix.child_eq_none.mpr (by_contra fun hj => ?_)
  exact absurd (filled_pos.mpr ⟨j, hj⟩) (by omega)

/-! ## Slots are set and cleared -/

/-- What a slot of `p` refers to changes, and the count with it. -/
structure SlotSet (s : Radix) (p : ℕ) (i : Fin 64) (x : ℕ) (s' : Radix) : Prop where
  height : s'.height = s.height
  root : s'.rootNode = s.rootNode
  slots : (s'.node p).slots = update (s.node p).slots i x
  count : (s'.node p).count = filled (update (s.node p).slots i x)
  parent : (s'.node p).parent = (s.node p).parent

namespace SlotSet

variable {x : ℕ}

theorem child (h : SlotSet s p i x s') : s'.child p i = if x = 0 then none else some x := by
  rw [Radix.child, h.slots, update_self]

theorem child_of_ne (h : SlotSet s p i x s') {j : Fin 64} (hj : j ≠ i) :
    s'.child p j = s.child p j := by
  rw [Radix.child, Radix.child, h.slots, update_of_ne hj]

theorem walk (h : SlotSet s p i x s') (R : RadixRep E m s) (hπ : s.walk π = some p)
    (hlen : π.length < s.height)
    (hold : ∀ ρ q, ρ.length < s.height → ρ ≠ π ++ [i] → s.walk ρ = some q →
    q ≠ p → s'.node q = s.node q)
    (hend : s.height = π.length + 1 ∨ x = 0 ∧ ∀ g, s.child p i = some g → ∀ j, s.child g j = none)
    {ρ : List (Fin 64)} (hρ : ρ.length ≤ s.height) :
    s'.walk ρ = if ρ = π ++ [i] then (if x = 0 then none else some x) else s.walk ρ := by
  rw [Radix.walk, h.root]
  refine follow_set hπ (fun ρ hρ h' => R.one ρ π p hρ hlen h' hπ) h.child
    (fun σ q j hσ hne hσq hqj => ?_)
    (hend.imp_right fun h j => ⟨by simp [h.1], fun g hg => h.2 g hg j⟩) hρ
  by_cases hq : q = p
  · subst hq
    exact h.child_of_ne (hqj.resolve_left fun h => h rfl)
  · exact Radix.child_congr (by rw [hold σ q hσ hne hσq hq]) j

end SlotSet

/-- The slot `i` of the node at `π` changes to `x`, with nothing behind it before or after.  If it
is not a slot for leaves, the node it referred to is gone and `x` is a new one. -/
structure Edit (s : Radix) (π : List (Fin 64)) (p : ℕ) (i : Fin 64) (x : ℕ) (s' : Radix) : Prop
    extends SlotSet s p i x s' where
  node : s.walk π = some p
  short : π.length < s.height
  walk : ∀ ρ, ρ.length ≤ s.height →
    s'.walk ρ = if ρ = π ++ [i] then (if x = 0 then none else some x) else s.walk ρ
  mem : ∀ q, q ∈ s'.live ↔ q ∈ s.live ∧ (π.length + 1 < s.height → s.walk (π ++ [i]) ≠ some q) ∨
    π.length + 1 < s.height ∧ x ≠ 0 ∧ q = x
  nodup : s'.live.Nodup
  old : ∀ q, q ≠ p → q ∈ s.live → q ∈ s'.live → s'.node q = s.node q
  new : π.length + 1 < s.height → x ≠ 0 → x ∉ s.live ∧ s'.node x = ⟨0, p, fun _ => 0⟩

theorem edit {E' : Set ℕ} {m' : ℕ → ℕ} {x : ℕ} (R : RadixRep E m s) (h : Edit s π p i x s')
    (hE : ∀ q ∈ E, q = p ∨ q ∉ s'.live) (hp : p ∉ E' → x ≠ 0)
    (hx : π.length + 1 < s.height → x ≠ 0 → x ∈ E')
    (hm : ∀ k, m' k = if k < 64 ^ s.height ∧ radixPath k s.height = π ++ [i] then x else m k) :
    RadixRep E' m' s' := by
  have hh := h.height
  have hκ : (π ++ [i]).length = π.length + 1 := List.length_append
  have hsome : ∀ {ρ q}, ρ.length ≤ s.height → s'.walk ρ = some q →
      ρ = π ++ [i] ∧ x ≠ 0 ∧ q = x ∨ ρ ≠ π ++ [i] ∧ s.walk ρ = some q := by
    intro ρ q hρ hq
    rw [h.walk ρ hρ] at hq
    split at hq
    · rename_i heq
      split at hq
      · cases hq
      · rename_i h0
        exact .inl ⟨heq, h0, (Option.some.inj hq).symm⟩
    · rename_i hne
      exact .inr ⟨hne, hq⟩
  have hlive : ∀ ρ q, ρ.length < s.height → s'.walk ρ = some q → q ∈ s'.live := by
    intro ρ q hρ hq
    rcases hsome hρ.le hq with ⟨rfl, h0, rfl⟩ | ⟨hne, hw⟩
    · exact (h.mem q).mpr (.inr ⟨hκ ▸ hρ, h0, rfl⟩)
    · refine (h.mem q).mpr (.inl ⟨R.live ρ q hρ hw, fun hlt hκq => hne ?_⟩)
      exact R.one ρ _ q hρ (hκ ▸ hlt) hw hκq
  have hparent : ∀ q, q ∈ s.live → q ∈ s'.live → (s'.node q).parent = (s.node q).parent := by
    intro q hq hq'
    by_cases hqp : q = p
    · rw [hqp, h.parent]
    · rw [h.old q hqp hq hq']
  constructor
  case bound => exact hh ▸ R.bound
  case root => rw [hh, h.root]; exact R.root
  case nodup => exact h.nodup
  case ne => exact fun h0 => ((h.mem 0).mp h0).elim (fun h => R.ne h.1) fun h => h.2.1 h.2.2.symm
  case live => exact fun ρ q hρ => hlive ρ q (hh ▸ hρ)
  case reach =>
    intro q hq
    rcases (h.mem q).mp hq with ⟨hq, hne⟩ | ⟨hlt, h0, rfl⟩
    · obtain ⟨ρ, hρ, hw⟩ := R.reach q hq
      refine ⟨ρ, hh ▸ hρ, ?_⟩
      rw [h.walk ρ hρ.le, if_neg, hw]
      rintro rfl
      exact hne (hκ ▸ hρ) hw
    · exact ⟨π ++ [i], by rwa [hh, hκ], by rw [h.walk _ (hκ ▸ hlt.le), if_pos rfl, if_neg h0]⟩
  case one =>
    intro ρ σ q hρ hσ h1 h2
    rw [hh] at hρ hσ
    rcases hsome hρ.le h1 with ⟨rfl, h0, rfl⟩ | ⟨-, h1⟩ <;>
      rcases hsome hσ.le h2 with ⟨rfl, h0', hq⟩ | ⟨-, h2⟩
    · rfl
    · exact absurd (R.live σ _ hσ h2) (h.new (hκ ▸ hρ) h0).1
    · exact absurd (R.live ρ _ hρ h1) (hq ▸ (h.new (hκ ▸ hσ) h0').1)
    · exact R.one ρ σ q hρ hσ h1 h2
  case count =>
    intro q hq
    by_cases hqp : q = p
    · rw [hqp, h.count, h.slots]
    · rcases (h.mem q).mp hq with ⟨hq', -⟩ | ⟨hlt, h0, rfl⟩
      · rw [h.old q hqp hq' hq]
        exact R.count q hq'
      · rw [(h.new hlt h0).2]
        exact filled_zero.symm
  case full =>
    intro q hq hqE
    by_cases hqp : q = p
    · subst hqp
      rw [h.slots]
      exact filled_pos.mpr ⟨i, by rw [update_self]; exact hp hqE⟩
    · rcases (h.mem q).mp hq with ⟨hq', -⟩ | ⟨hlt, h0, rfl⟩
      · rw [h.old q hqp hq' hq]
        exact R.full q hq' fun he => (hE q he).elim hqp (· hq)
      · exact absurd (hx hlt h0) hqE
  case top =>
    intro h0
    have hlt : ([] : List (Fin 64)).length < s.height := Nat.pos_of_ne_zero (hh ▸ h0)
    rw [h.root, hparent _ (R.live [] _ hlt rfl) (hlive [] _ hlt (congrArg some h.root))]
    exact R.top (hh ▸ h0)
  case up =>
    intro ρ j q d hρ h1 h2
    rw [hh] at hρ
    have hρj : (ρ ++ [j]).length < s.height := by simpa using hρ
    rcases hsome hρj.le h2 with ⟨heq, h0, rfl⟩ | ⟨-, hw2⟩
    · obtain ⟨rfl, -⟩ := List.append_inj' heq rfl
      rcases hsome (by omega) h1 with ⟨heq, -⟩ | ⟨-, hw1⟩
      · exact absurd heq (by simp)
      · rw [(h.new hρ h0).2]
        exact Option.some.inj (h.node.symm.trans hw1)
    · rcases hsome (by omega) h1 with ⟨rfl, h0, rfl⟩ | ⟨-, hw1⟩
      · rw [walk_snoc h1, Radix.child_eq_none.mpr (by rw [(h.new (by omega) h0).2])] at h2
        cases h2
      · rw [hparent d (R.live _ d hρj hw2) (hlive _ d hρj h2)]
        exact R.up ρ j q d hρ hw1 hw2
  case leaf =>
    intro h0 k hk
    rw [hh] at hk ⊢
    rw [h.walk _ (by rw [radixPath_length])]
    by_cases hpath : radixPath k s.height = π ++ [i]
    · rw [if_pos hpath, (hm k).trans (if_pos ⟨hk, hpath⟩)]
    · rw [if_neg hpath, (hm k).trans (if_neg fun h => hpath h.2)]
      exact R.leaf (hh ▸ h0) k hk
  case beyond =>
    intro k hk
    have hshort := h.short
    rw [hh] at hk
    rw [hm, if_neg (by omega)]
    exact R.beyond k hk

theorem edit_inner {x k : ℕ} (hlen : π.length + 1 < s.height) :
    m k = if k < 64 ^ s.height ∧ radixPath k s.height = π ++ [i] then x else m k := by
  rw [if_neg]
  rintro ⟨-, e⟩
  have := congrArg List.length e
  rw [radixPath_length, length_snoc] at this
  omega

theorem setLeaf (R : RadixRep E m s) (hE : E ⊆ {p}) {x idx : ℕ} (h : SlotSet s p i x s')
    (hlive : s'.live = s.live) (hold : ∀ q, q ≠ p → s'.node q = s.node q) (hπ : s.walk π = some p)
    (hlen : s.height = π.length + 1) (hidx : idx < 64 ^ s.height)
    (hpath : radixPath idx s.height = π ++ [i]) :
    RadixRep {p} (update m idx x) s' ∧ s'.walk π = some p := by
  have hlt : ¬ π.length + 1 < s.height := by omega
  have hedit : Edit s π p i x s' := { h with
    node := hπ
    short := by omega
    walk := fun ρ hρ => h.walk R hπ (by omega) (fun _ q _ _ _ => hold q) (.inl hlen) hρ
    mem := fun q => by rw [hlive]; simp [hlt]
    nodup := hlive ▸ R.nodup
    old := fun q hq _ _ => hold q hq
    new := fun h => absurd h hlt }
  refine ⟨R.edit hedit (fun q hq => .inl (hE hq)) (absurd rfl) (absurd · hlt) fun k => ?_,
    by rw [hedit.walk π (by omega), if_neg (by simp), hπ]⟩
  by_cases hk : k = idx
  · rw [hk, update_self, if_pos ⟨hidx, hpath⟩]
  · rw [update_of_ne hk, if_neg fun h => hk (radixPath_injective h.1 hidx (h.2.trans hpath.symm))]

/-- A node without slots in use is cut off from its parent and freed. -/
theorem dropNode (R : RadixRep {c} m s) (hc : s.walk (π ++ [i]) = some c) (hπ : s.walk π = some p)
    (hlen : π.length + 1 < s.height) (hempty : filled (s.node c).slots = 0) (h : SlotSet s p i 0 s')
    (hlive : s'.live = s.live.erase c) (hold : ∀ q, q ≠ p → q ≠ c → s'.node q = s.node q) :
    RadixRep {p} m s' ∧ s'.walk π = some p := by
  have hclen : (π ++ [i]).length < s.height := by simpa using hlen
  have hmem : ∀ q, q ∈ s'.live ↔ q ≠ c ∧ q ∈ s.live := fun q => by rw [hlive, R.nodup.mem_erase_iff]
  have hedit : Edit s π p i 0 s' := { h with
    node := hπ
    short := by omega
    walk := fun ρ hρ => h.walk R hπ (by omega)
      (fun σ q hσ hne hσq hqp => hold q hqp fun e => hne (R.one σ _ q hσ hclen hσq (e ▸ hc)))
      (.inr ⟨rfl, fun g hg j => by
        rw [← walk_snoc hπ, hc] at hg
        exact Option.some.inj hg ▸ child_of_filled hempty j⟩) hρ
    mem := fun q => by
      rw [hmem, hc]
      simp [hlen, and_comm, eq_comm]
    nodup := hlive ▸ R.nodup.erase c
    old := fun q hqp _ hq => hold q hqp ((hmem q).mp hq).1
    new := fun _ h => absurd rfl h }
  exact ⟨R.edit hedit (fun q hq => .inr fun hq' => ((hmem q).mp hq').1 hq)
    (absurd rfl) (fun _ => absurd rfl)
    fun k => edit_inner hlen, by rw [hedit.walk π (by omega), if_neg (by simp), hπ]⟩

theorem dropRoot (R : RadixRep E m s) (h0 : s.height ≠ 0)
    (hempty : filled (s.node s.rootNode).slots = 0) (n : ℕ → RadixNode) :
    RadixRep ∅ m
      { s with node := n, live := s.live.erase s.rootNode, rootNode := 0, height := 0 } := by
  have hwalk : ∀ j ρ, s.walk (j :: ρ) = none := fun j ρ => by
    rw [Radix.walk, follow_cons, child_of_filled hempty, Option.bind_none]
  have hnil : s.live.erase s.rootNode = [] := by
    refine List.eq_nil_iff_forall_not_mem.mpr fun p hp => ?_
    obtain ⟨hne, hp⟩ := R.nodup.mem_erase_iff.mp hp
    obtain ⟨π, -, hw⟩ := R.reach p hp
    cases π with
    | nil => exact hne (Option.some.inj hw).symm
    | cons j ρ =>
      rw [hwalk] at hw
      cases hw
  have hm : ∀ k, m k = 0 := by
    intro k
    by_cases hk : k < 64 ^ s.height
    · have hleaf := R.leaf h0 k hk
      obtain ⟨n, hn⟩ := Nat.exists_eq_succ_of_ne_zero h0
      rw [hn, radixPath, hwalk] at hleaf
      by_contra hne
      rw [if_neg hne] at hleaf
      cases hleaf
    · exact R.beyond k (.inr (Nat.not_lt.mp hk))
  exact .empty rfl rfl hnil hm

/-! ## Nodes are added -/

theorem attach (R : RadixRep E m s) (hE : E ⊆ {p}) (hπ : s.walk π = some p)
    (hlen : π.length + 1 < s.height) (h0 : (s.node p).slots i = 0) (hc : c ∉ s.live) (hc0 : c ≠ 0)
    (h : SlotSet s p i c s') (hlive : s'.live = c :: s.live) (hnew : s'.node c = ⟨0, p, fun _ => 0⟩)
    (hold : ∀ q, q ≠ p → q ≠ c → s'.node q = s.node q) :
    RadixRep {c} m s' ∧ s'.walk (π ++ [i]) = some c := by
  have hclen : (π ++ [i]).length < s.height := by simpa using hlen
  have hnone : s.walk (π ++ [i]) = none := by rw [walk_snoc hπ]; exact Radix.child_eq_none.mpr h0
  have hedit : Edit s π p i c s' := { h with
    node := hπ
    short := by omega
    walk := fun ρ hρ => by
      rw [Radix.walk, h.root, if_neg hc0]
      refine follow_attach hπ (fun ρ hρ h' => R.one ρ π p hρ (by omega) h' hπ)
        (fun ρ hρ h' => hc (R.live ρ c hρ h')) (Radix.child_eq_none.mpr h0)
        ?_ (fun q j hqc hqj => ?_) (.inr fun j => Radix.child_eq_none.mpr (by rw [hnew])) hρ
      · rw [h.child, if_neg hc0]
      · by_cases hq : q = p
        · subst hq
          exact h.child_of_ne (hqj.resolve_left fun h => h rfl)
        · exact Radix.child_congr (by rw [hold q hq hqc]) j
    mem := fun q => by
      rw [hlive, List.mem_cons, hnone]
      simp [hlen, hc0, or_comm]
    nodup := hlive ▸ List.nodup_cons.mpr ⟨hc, R.nodup⟩
    old := fun q hqp hq _ => hold q hqp fun e => hc (e ▸ hq)
    new := fun _ _ => ⟨hc, hnew⟩ }
  exact ⟨R.edit hedit (fun q hq => .inl (hE hq)) (fun _ => hc0) (fun _ _ => rfl)
    fun k => edit_inner hlen, by rw [hedit.walk _ hclen.le, if_pos rfl, if_neg hc0]⟩

theorem firstLevel (R : RadixRep ∅ m s) (hz : s.height = 0) (hc0 : c ≠ 0) (hh : s'.height = 1)
    (hroot : s'.rootNode = c) (hlive : s'.live = c :: s.live)
    (hnew : s'.node c = ⟨0, 0, fun _ => 0⟩) : RadixRep {c} m s' := by
  have hm : ∀ k, m k = 0 := fun k => R.beyond k (.inl hz)
  rw [R.live_nil hz] at hlive
  have hnil : ∀ {π : List (Fin 64)}, π.length < s'.height → π = [] := fun h =>
    List.eq_nil_of_length_eq_zero (by omega)
  have hwalk : s'.walk [] = some c := congrArg some hroot
  constructor
  case bound => omega
  case root => exact iff_of_false (by omega) (hroot ▸ hc0)
  case nodup => rw [hlive]; exact List.nodup_singleton c
  case ne => rw [hlive]; exact fun h => hc0 (List.mem_singleton.mp h).symm
  case live =>
    intro π p hπ hp
    rw [hnil hπ, hwalk] at hp
    rw [hlive, Option.some.inj hp]
    exact List.mem_singleton_self p
  case reach =>
    intro p hp
    rw [hlive] at hp
    exact ⟨[], by rw [hh]; exact Nat.one_pos, by rw [hwalk, List.mem_singleton.mp hp]⟩
  case one => exact fun π ρ p hπ hρ _ _ => (hnil hπ).trans (hnil hρ).symm
  case count =>
    intro p hp
    rw [hlive] at hp
    rw [List.mem_singleton.mp hp, hnew]
    exact filled_zero.symm
  case full =>
    intro p hp hpc
    rw [hlive] at hp
    exact absurd (List.mem_singleton.mp hp) hpc
  case top =>
    intro _
    rw [hroot, hnew]
  case up => exact fun π i p c hπ => absurd hπ (by omega)
  case leaf =>
    intro _ k _
    rw [hh, if_pos (hm k), radixPath, radixPath, Radix.walk, follow_cons, hroot,
      Radix.child_eq_none.mpr (by rw [hnew]), Option.bind_none]
  case beyond => exact fun k _ => hm k

theorem addLevel (R : RadixRep ∅ m s) (hz : s.height ≠ 0) (hlt : s.height < 5) (hc : c ∉ s.live)
    (hc0 : c ≠ 0) (hh : s'.height = s.height + 1) (hroot : s'.rootNode = c)
    (hlive : s'.live = c :: s.live) (hnew : s'.node c = ⟨1, 0, update (fun _ => 0) 0 s.rootNode⟩)
    (hbelow : s'.node s.rootNode = { s.node s.rootNode with parent := c })
    (hold : ∀ q, q ≠ s.rootNode → q ≠ c → s'.node q = s.node q) : RadixRep ∅ m s' := by
  have hr0 : s.rootNode ≠ 0 := fun h => hz (R.root.mpr h)
  have hrl : s.rootNode ∈ s.live := R.root_live hz
  have hnews : (s'.node c).slots = update (fun _ => 0) 0 s.rootNode := by rw [hnew]
  have hkept : ∀ q, q ≠ c → (s'.node q).count = (s.node q).count ∧
      (s'.node q).slots = (s.node q).slots := by
    intro q hqc
    by_cases hq : q = s.rootNode
    · rw [hq, hbelow]
      exact ⟨rfl, rfl⟩
    · rw [hold q hq hqc]
      exact ⟨rfl, rfl⟩
  have hzero : ∀ ρ, ρ.length ≤ s.height → s'.walk (0 :: ρ) = s.walk ρ := by
    intro ρ hρ
    have hchild : s'.child c 0 = some s.rootNode :=
      Radix.child_eq_some.mpr ⟨hr0, by rw [hnews, update_self]⟩
    rw [Radix.walk, hroot, follow_cons, hchild, Option.bind_some]
    refine follow_congr fun σ j q hσ hq => Radix.child_congr (hkept q ?_).2 j
    rintro rfl
    have := hσ.length_le
    rw [length_snoc] at this
    exact hc (R.live σ q (by omega) hq)
  have hother : ∀ j ρ, j ≠ 0 → s'.walk (j :: ρ) = none := by
    intro j ρ hj
    have hchild : s'.child c j = none :=
      Radix.child_eq_none.mpr (by rw [hnews, update_of_ne hj])
    rw [Radix.walk, hroot, follow_cons, hchild, Option.bind_none]
  have hsome : ∀ {ρ q}, ρ.length ≤ s.height + 1 → s'.walk ρ = some q →
      ρ = [] ∧ q = c ∨ ∃ σ, ρ = 0 :: σ ∧ s.walk σ = some q := by
    intro ρ q hρ hq
    cases ρ with
    | nil => exact .inl ⟨rfl, (Option.some.inj hq).symm.trans hroot⟩
    | cons j σ =>
      rw [List.length_cons] at hρ
      by_cases hj : j = 0
      · subst hj
        rw [hzero σ (by omega)] at hq
        exact .inr ⟨σ, rfl, hq⟩
      · rw [hother j σ hj] at hq
        cases hq
  have hmem : ∀ q, q ∈ s'.live ↔ q = c ∨ q ∈ s.live := fun q => by rw [hlive, List.mem_cons]
  constructor
  case bound => omega
  case root => exact iff_of_false (by omega) (hroot ▸ hc0)
  case nodup => exact hlive ▸ List.nodup_cons.mpr ⟨hc, R.nodup⟩
  case ne => exact fun h0 => ((hmem 0).mp h0).elim (fun e => hc0 e.symm) R.ne
  case live =>
    intro ρ q hρ hq
    rw [hh] at hρ
    rcases hsome hρ.le hq with ⟨-, rfl⟩ | ⟨σ, rfl, hσ⟩
    · exact (hmem q).mpr (.inl rfl)
    · rw [List.length_cons] at hρ
      exact (hmem q).mpr (.inr (R.live σ q (by omega) hσ))
  case reach =>
    intro q hq
    rcases (hmem q).mp hq with rfl | hq
    · exact ⟨[], by rw [hh]; exact Nat.succ_pos _, congrArg some hroot⟩
    · obtain ⟨ρ, hρ, hw⟩ := R.reach q hq
      exact ⟨0 :: ρ, by rw [hh, List.length_cons]; omega, by rw [hzero ρ hρ.le, hw]⟩
  case one =>
    intro ρ σ q hρ hσ h1 h2
    rw [hh] at hρ hσ
    rcases hsome hρ.le h1 with ⟨rfl, rfl⟩ | ⟨ρ, rfl, hρq⟩ <;>
      rcases hsome hσ.le h2 with ⟨rfl, hqc⟩ | ⟨σ, rfl, hσq⟩
    · rfl
    · exact absurd (R.live σ _ (by simpa using hσ) hσq) hc
    · exact absurd (R.live ρ _ (by simpa using hρ) hρq) (hqc ▸ hc)
    · rw [R.one ρ σ q (by simpa using hρ) (by simpa using hσ) hρq hσq]
  case count =>
    intro q hq
    by_cases hqc : q = c
    · rw [hqc, hnews, filled_set rfl hr0, filled_zero, hnew]
    · rw [(hkept q hqc).1, (hkept q hqc).2]
      exact R.count q (((hmem q).mp hq).resolve_left hqc)
  case full =>
    intro q hq _
    by_cases hqc : q = c
    · rw [hqc, hnews]
      exact filled_pos.mpr ⟨0, by rwa [update_self]⟩
    · rw [(hkept q hqc).2]
      exact R.full q (((hmem q).mp hq).resolve_left hqc) (Set.notMem_empty q)
  case top =>
    intro _
    rw [hroot, hnew]
  case up =>
    intro ρ j q d hρ h1 h2
    rw [hh] at hρ
    rcases hsome (by rw [length_snoc]; omega) h2 with ⟨heq, -⟩ | ⟨σ, heq, h2⟩
    · exact absurd heq (by simp)
    rcases hsome (by omega) h1 with ⟨rfl, rfl⟩ | ⟨τ, rfl, hτ⟩
    · obtain ⟨-, rfl⟩ := List.cons.inj heq
      rw [← Option.some.inj h2, hbelow]
    · rw [List.cons_append] at heq
      obtain ⟨-, rfl⟩ := List.cons.inj heq
      rw [List.length_cons] at hρ
      have hd : d ∈ s.live := R.live _ d (by rw [length_snoc]; omega) h2
      have hdr : d ≠ s.rootNode := by
        rintro rfl
        have := R.one _ [] _ (by rw [length_snoc]; omega) (by rw [List.length_nil]; omega) h2 rfl
        simp at this
      rw [hold d hdr fun e => hc (e ▸ hd)]
      exact R.up τ j q d (by omega) hτ h2
  case leaf =>
    intro _ k hk
    rw [hh] at hk ⊢
    rw [radixPath]
    by_cases hlow : k < 64 ^ s.height
    · have hdigit : radixTreeLevelIndex k s.height = 0 := by
        rw [radixTreeLevelIndex_natCast]
        refine Fin.ext ?_
        simp [Nat.div_eq_of_lt hlow]
      rw [hdigit, hzero _ (by rw [radixPath_length])]
      exact R.leaf hz k hlow
    · have hdigit : radixTreeLevelIndex k s.height ≠ 0 := by
        rw [radixTreeLevelIndex_natCast]
        intro h
        have hpos : 0 < k / 64 ^ s.height := Nat.div_pos (Nat.not_lt.mp hlow)
            (Nat.pow_pos (by decide))
        have hdlt : k / 64 ^ s.height < 64 := Nat.div_lt_of_lt_mul (by rwa [← pow_succ])
        have := congrArg Fin.val h
        simp only [Nat.mod_eq_of_lt hdlt, Fin.val_zero] at this
        omega
      rw [hother _ _ hdigit, if_pos (R.beyond k (.inr (Nat.not_lt.mp hlow)))]
  case beyond =>
    intro k hk
    rw [hh, pow_succ] at hk
    refine R.beyond k (.inr ?_)
    omega

end RadixRep

/-! ## The helpers -/

theorem radixTreeNodeCreate_cases (s : Radix) :
    (∃ l, radixTreeNodeCreate s = .ok (0, { s with supply := l }) ∧
        ∀ c l', s.supply = some c :: l' → c = 0 ∨ c ∈ s.live) ∨
      ∃ c l, s.supply = some c :: l ∧ c ≠ 0 ∧ c ∉ s.live ∧ radixTreeNodeCreate s = .ok (c, { s with
        node := update s.node c ⟨0, 0, fun _ => 0⟩, live := c :: s.live, supply := l }) := by
  have hnone : ∀ l, kmemCacheAlloc s = .ok (0, { s with supply := l }) →
      radixTreeNodeCreate s = .ok (0, { s with supply := l }) := fun l h => by
    rw [radixTreeNodeCreate, bind_of_ok h, if_pos rfl]
    rfl
  cases hs : s.supply with
  | nil =>
    have heq : { s with supply := [] } = s := by rw [← hs]
    refine .inl ⟨[], hnone [] ?_, by simp⟩
    rw [heq, kmemCacheAlloc, hs]
  | cons o l =>
    cases o with
    | none =>
      refine .inl ⟨l, hnone l ?_, by simp⟩
      rw [kmemCacheAlloc, hs]
    | some c =>
      by_cases hc : c ≠ 0 ∧ c ∉ s.live
      · refine .inr ⟨c, l, rfl, hc.1, hc.2, ?_⟩
        have halloc : kmemCacheAlloc s = .ok (c, { s with live := c :: s.live, supply := l }) := by
          rw [kmemCacheAlloc, hs]
          exact if_pos hc
        rw [radixTreeNodeCreate, bind_of_ok halloc, if_neg hc.1, update_bind]
        rfl
      · refine .inl ⟨l, hnone l ?_, ?_⟩
        · rw [kmemCacheAlloc, hs]
          exact if_neg hc
        · rintro _ _ ⟨⟩
          exact or_iff_not_imp_left.mpr fun h0 => not_not.mp fun h => hc ⟨h0, h⟩

/-- The state with a child in a slot. -/
def Radix.linked (s : Radix) (p : ℕ) (i : Fin 64) (x : ℕ) : Radix :=
  s.setNode p ⟨(s.node p).count + 1, (s.node p).parent, update (s.node p).slots i x⟩

theorem radixTreeAddChild_run {p x : ℕ} (b : Bool) (hp : p ≠ 0) (hx : x ≠ 0)
    (h0 : (s.node p).slots i = 0) (hcount : (s.node p).count = filled (s.node p).slots) :
    radixTreeAddChild p i x b s =
      .ok (.ok, if b then (s.linked p i x).setParent x p else s.linked p i x) := by
  have hlink : (s.setSlot p i x).setCount p (((s.setSlot p i x).node p).count + 1) =
      s.linked p i x := by
    simp [Radix.setSlot, Radix.setCount, setNode, Radix.linked]
  have hle : ((s.linked p i x).node p).count ≤ 64 := by
    have h : ((s.linked p i x).node p).count = (s.node p).count + 1 := by
      simp [Radix.linked, setNode]
    rw [h, hcount, ← filled_set h0 hx]
    exact filled_le _
  rw [radixTreeAddChild, kassert_bind (p := fun _ => decide (p ≠ 0)) (by simpa using hp),
    kassert_bind (p := fun _ => decide (x ≠ 0)) (by simpa using hx), read_bind,
    if_neg (not_not.mpr h0), update_bind, update_bind, hlink, kassert_bind (by simpa using hle)]
  cases b <;> rfl

theorem radixTreeAddChild_exist {p x : ℕ} (b : Bool) (hp : p ≠ 0) (hx : x ≠ 0)
    (h0 : (s.node p).slots i ≠ 0) : radixTreeAddChild p i x b s = .ok (.nodeExist, s) := by
  rw [radixTreeAddChild, kassert_bind (p := fun _ => decide (p ≠ 0)) (by simpa using hp),
    kassert_bind (p := fun _ => decide (x ≠ 0)) (by simpa using hx), read_bind, if_pos h0]
  rfl

/-- The state with a slot cleared. -/
def Radix.cleared (s : Radix) (p : ℕ) (i : Fin 64) : Radix :=
  s.setNode p ⟨(s.node p).count - 1, (s.node p).parent, update (s.node p).slots i 0⟩

theorem removeFrom_run {index : ℤ} {leaf levels level p : ℕ} (hp : p ≠ 0)
    (hslot : (s.node p).slots (radixTreeLevelIndex index level) ≠ 0)
    (hcount : 0 < (s.node p).count) : removeFrom index leaf (levels + 1) level p s =
      if ((s.cleared p (radixTreeLevelIndex index level)).node p).count = 0 then
        removeFrom index leaf levels (level + 1)
          ((s.cleared p (radixTreeLevelIndex index level)).node p).parent
          { (s.cleared p (radixTreeLevelIndex index level)).setNode p freedNode with
            live := (s.cleared p (radixTreeLevelIndex index level)).live.erase p }
      else .ok (leaf, s.cleared p (radixTreeLevelIndex index level)) := by
  have hclear : (s.setCount p ((s.node p).count - 1)).setSlot p (radixTreeLevelIndex index level)
      0 =
      s.cleared p (radixTreeLevelIndex index level) := by
    simp [Radix.setSlot, Radix.setCount, setNode, Radix.cleared]
  rw [removeFrom, kassert_bind (p := fun _ => decide (p ≠ 0)) (by simpa using hp),
    kassert_bind (by simpa using hslot), kassert_bind (by simpa using hcount), update_bind,
    update_bind, hclear, read_bind]
  split <;> rfl

theorem radixTreeMaxIndex_run (h : s.height ≤ 5) :
    radixTreeMaxIndex s = .ok (if s.height = 0 then -1 else 64 ^ s.height - 1, s) := by
  rw [radixTreeMaxIndex, Prog.reads_bind]
  split
  · rfl
  · rw [if_neg (by omega), pow_mul]
    rfl

theorem gt_maxIndex {i h : ℕ} : (i : ℤ) > 64 ^ h - 1 ↔ 64 ^ h ≤ i := by
  rw [gt_iff_lt, Int.sub_one_lt_iff]
  exact_mod_cast Iff.rfl

namespace RadixRep

variable {E : Set ℕ} {m : ℕ → ℕ} {s s' : Radix} {p c idx : ℕ} {π : List (Fin 64)} {i : Fin 64}

theorem node_ne (R : RadixRep E m s) (hlen : π.length < s.height) (hπ : s.walk π = some p) :
    p ≠ 0 :=
  fun h => R.ne (h ▸ R.live π p hlen hπ)

theorem radixTreeAddLevel (R : RadixRep ∅ m s) (hlt : s.height < 5) :
    ∃ e s', Osv.radixTreeAddLevel s = .ok (e, s') ∧
    (e = .ok → s'.height = s.height + 1 ∧ RadixRep (if s.height = 0 then {s'.rootNode} else ∅)
    m s') := by
  rw [Osv.radixTreeAddLevel]
  rcases radixTreeNodeCreate_cases s with ⟨l, h, -⟩ | ⟨c, l, -, hc0, hc, h⟩
  · rw [bind_of_ok h, if_pos rfl]
    exact ⟨_, _, rfl, fun h => nomatch h⟩
  rw [bind_of_ok h, if_neg hc0, read_bind]
  by_cases hz : s.height = 0
  · have hlink : linkRoot c s.rootNode = pure .ok := if_neg (not_not.mpr (R.root.mp hz))
    rw [hlink]
    refine ⟨_, _, rfl, fun _ => ⟨rfl, ?_⟩⟩
    rw [if_pos hz]
    exact R.firstLevel hz hc0 (congrArg (· + 1) hz) rfl rfl (by simp)
  · have hr0 : s.rootNode ≠ 0 := fun h => hz (R.root.mpr h)
    have hrc : s.rootNode ≠ c := fun e => hc (e ▸ R.root_live hz)
    have hlink : linkRoot c s.rootNode = radixTreeAddChild c 0 s.rootNode true := if_pos hr0
    rw [hlink, bind_of_ok (radixTreeAddChild_run true hc0 hr0 (by simp) (by simp [filled_zero]))]
    refine ⟨_, _, rfl, fun _ => ⟨rfl, ?_⟩⟩
    rw [if_neg hz]
    refine R.addLevel hz hlt hc hc0 rfl rfl rfl ?_ ?_ fun q hq hqc => ?_
    · simp [Radix.linked, setNode, setParent, hrc.symm]
    · simp [Radix.linked, setNode, setParent, hrc]
    · simp [Radix.linked, setNode, setParent, hq, hqc]

theorem addLevels (R : RadixRep ∅ m s) (hidx : idx < 64 ^ 5) (h0 : s.height ≠ 0) (n : ℕ)
    (hn : 6 ≤ n + s.height) : ∃ e s', Osv.addLevels idx n s = .ok (e, s') ∧
      (e = .ok → RadixRep ∅ m s' ∧ s'.height ≠ 0 ∧ idx < 64 ^ s'.height) := by
  induction n generalizing s with
  | zero =>
    have := R.bound
    omega
  | succ n ih =>
    rw [Osv.addLevels, bind_of_ok (radixTreeMaxIndex_run R.bound), if_neg h0]
    by_cases hle : 64 ^ s.height ≤ idx
    · rw [if_pos (gt_maxIndex.mpr hle)]
      have hlt : s.height < 5 := by
        by_contra hge
        have := Nat.pow_le_pow_right (n := 64) (by decide) (Nat.not_lt.mp hge)
        omega
      obtain ⟨e, s1, hrun, h⟩ := R.radixTreeAddLevel hlt
      rw [bind_of_ok hrun]
      cases e with
      | ok =>
        obtain ⟨hh, R1⟩ := h rfl
        rw [if_neg h0] at R1
        exact ih R1 (by omega) (by omega)
      | alloc | nodeExist => exact ⟨_, _, rfl, fun h => by cases h⟩
    · rw [if_neg (mt gt_maxIndex.mp hle)]
      exact ⟨_, _, rfl, fun _ => ⟨R, h0, Nat.not_le.mp hle⟩⟩

theorem findParentFrom (R : RadixRep {p} m s) (level : ℕ) (hπ : s.walk π = some p)
    (hlen : π.length + level + 1 = s.height) :
    ∃ x s', Osv.findParentFrom idx true level p s = .ok (x, s') ∧
      (x ≠ 0 → RadixRep {x} m s' ∧ s'.height = s.height ∧
        s'.walk (π ++ radixPath (idx / 64) level) = some x) := by
  induction level generalizing p π s with
  | zero => exact ⟨_, _, rfl, fun _ => ⟨R, rfl, by rw [radixPath, List.append_nil]; exact hπ⟩⟩
  | succ level ih =>
    have hp0 : p ≠ 0 := R.node_ne (by omega) hπ
    have hpath : ∀ i, π ++ i :: radixPath (idx / 64) level =
        (π ++ [i]) ++ radixPath (idx / 64) level :=
      fun i => by rw [List.append_assoc]; rfl
    rw [Osv.findParentFrom, if_neg hp0, read_bind, radixTreeLevelIndex_succ, radixPath, hpath]
    set i := radixTreeLevelIndex ((idx / 64 : ℕ) : ℤ) level
    have hlen' : (π ++ [i]).length + level + 1 = s.height := by
      rw [length_snoc]
      omega
    by_cases hslot : (s.node p).slots i = 0
    · rw [if_pos ⟨hslot, rfl⟩]
      rcases radixTreeNodeCreate_cases s with ⟨l, h, -⟩ | ⟨c, l, -, hc0, hc, h⟩
      · rw [bind_of_ok h, if_pos rfl]
        exact ⟨_, _, rfl, fun h => absurd rfl h⟩
      have hpl : p ∈ s.live := R.live π p (by omega) hπ
      have hpc : p ≠ c := fun e => hc (e ▸ hpl)
      rw [bind_of_ok h, if_neg hc0, bind_of_ok (radixTreeAddChild_run true hp0 hc0
        (by simpa [hpc] using hslot) (by simpa [hpc] using R.count p hpl)), if_pos rfl]
      have hset : SlotSet s p i c ((({ s with
          node := update s.node c ⟨0, 0, fun _ => 0⟩, live := c :: s.live, supply := l } :
            Radix).linked p i c).setParent c p) := by
        constructor <;> simp [Radix.linked, setNode, setParent, hpc]
        rw [filled_set hslot hc0, R.count p hpl]
      obtain ⟨R1, hw⟩ := R.attach le_rfl hπ (by omega) hslot hc hc0 hset rfl
        (by simp [Radix.linked, setNode, setParent, hpc.symm])
        (fun q hq hqc => by simp [Radix.linked, setNode, setParent, hq, hqc])
      exact ih R1 hw hlen'
    · rw [if_neg fun h => hslot h.1]
      have R1 : RadixRep {(s.node p).slots i} m s :=
        (R.settle (filled_pos.mpr ⟨i, hslot⟩)).mono (Set.empty_subset _)
      exact ih R1 (by rw [walk_snoc hπ]; exact Radix.child_eq_some.mpr ⟨hslot, rfl⟩) hlen'

/-- `radix_tree_insert` returns.  Without an error it has added the index, which was not there. -/
theorem radixTreeInsert (R : RadixRep ∅ m s) (hidx : idx < 64 ^ 5) {leaf : ℕ} (hleaf : leaf ≠ 0)
    (hfirst : s.height = 0 → idx < 64) : ∃ e s', Osv.radixTreeInsert idx leaf s = .ok (e, s') ∧
      (e = .ok → m idx = 0 ∧ RadixRep ∅ (update m idx leaf) s') := by
  have hlevels : ∃ e s1, Osv.addLevels idx 7 s = .ok (e, s1) ∧
      (e = .ok → RadixRep {s1.rootNode} m s1 ∧ s1.height ≠ 0 ∧ idx < 64 ^ s1.height) := by
    by_cases hz : s.height = 0
    · rw [Osv.addLevels, bind_of_ok (radixTreeMaxIndex_run R.bound), if_pos hz, if_pos (by omega)]
      obtain ⟨e, s1, hrun, h⟩ := R.radixTreeAddLevel (by omega)
      rw [bind_of_ok hrun]
      cases e with
      | ok =>
        obtain ⟨hh, R1⟩ := h rfl
        rw [if_pos hz] at R1
        have h1 : s1.height = 1 := by omega
        have hlt : idx < 64 ^ s1.height := by rw [h1]; exact hfirst hz
        refine ⟨.ok, s1, ?_, fun _ => ⟨R1, by omega, hlt⟩⟩
        show Osv.addLevels idx 6 s1 = _
        rw [Osv.addLevels, bind_of_ok (radixTreeMaxIndex_run R1.bound),
          if_neg (show s1.height ≠ 0 by omega), if_neg (mt gt_maxIndex.mp (Nat.not_le.mpr hlt))]
        rfl
      | alloc | nodeExist => exact ⟨_, _, rfl, fun h => by cases h⟩
    · obtain ⟨e, s1, hrun, h⟩ := R.addLevels hidx hz 7 (by omega)
      exact ⟨e, s1, hrun, fun he => ⟨(h he).1.mono (Set.empty_subset _), (h he).2⟩⟩
  obtain ⟨e, s1, hrun, h1⟩ := hlevels
  rw [Osv.radixTreeInsert, bind_of_ok (kassert_run (p := fun _ => decide (leaf ≠ 0))
    (by simpa using hleaf)), bind_of_ok hrun]
  cases e with
  | alloc | nodeExist => exact ⟨_, _, rfl, fun h => by cases h⟩
  | ok =>
    obtain ⟨R1, hne, hlt⟩ := h1 rfl
    obtain ⟨x, s2, hfind, h2⟩ : ∃ x s2, radixTreeFindParent idx true s1 = .ok (x, s2) ∧
        (x ≠ 0 → RadixRep {x} m s2 ∧ s2.height = s1.height ∧
          s2.walk (radixPath (idx / 64) (s1.height - 1)) = some x) :=
      R1.findParentFrom _ (π := []) rfl (by rw [List.length_nil]; omega)
    dsimp only
    rw [bind_of_ok hfind]
    by_cases hx : x = 0
    · rw [if_pos hx]
      exact ⟨_, _, rfl, fun h => by cases h⟩
    obtain ⟨R2, hh, hw⟩ := h2 hx
    have hpath := radixPath_last idx hne
    rw [← hh] at hpath hw
    have hxl : x ∈ s2.live := R2.live _ x (by rw [radixPath_length]; omega) hw
    rw [if_neg hx]
    by_cases hslot : (s2.node x).slots (radixTreeLevelIndex idx 0) = 0
    · rw [bind_of_ok (radixTreeAddChild_run false hx hleaf hslot (R2.count x hxl))]
      refine ⟨_, _, rfl, fun _ => ⟨?_, ?_⟩⟩
      · have := R2.leaf (by omega) idx (hh ▸ hlt)
        rw [hpath, walk_snoc hw, Radix.child_eq_none.mpr hslot] at this
        by_contra hm
        rw [if_neg hm] at this
        cases this
      · have hset : SlotSet s2 x (radixTreeLevelIndex idx 0) leaf
            (s2.linked x (radixTreeLevelIndex idx 0) leaf) := by
          constructor <;> simp [Radix.linked, setNode]
          rw [filled_set hslot hleaf, R2.count x hxl]
        refine (R2.setLeaf le_rfl hset rfl
          (fun q hq => by simp [Radix.linked, setNode, hq]) hw ?_ (hh ▸ hlt) hpath).1.settle ?_
        · rw [radixPath_length]
          omega
        · rw [hset.slots]
          exact filled_pos.mpr ⟨_, by rwa [update_self]⟩
    · rw [bind_of_ok (radixTreeAddChild_exist false hx hleaf hslot)]
      exact ⟨_, _, rfl, fun h => by cases h⟩

theorem findParent_eq (R : RadixRep E m s) (hz : s.height ≠ 0) : radixTreeFindParent idx false s =
      .ok ((s.walk (radixPath (idx / 64) (s.height - 1))).getD 0, s) := by
  have hfrom : ∀ level p, p ≠ 0 → Osv.findParentFrom idx false level p s =
      .ok ((follow s.child p (radixPath (idx / 64) level)).getD 0, s) := by
    intro level
    induction level with
    | zero => exact fun p _ => rfl
    | succ level ih =>
      intro p hp
      rw [Osv.findParentFrom, if_neg hp, read_bind, if_neg (by simp), radixTreeLevelIndex_succ,
        radixPath, follow_cons]
      set i := radixTreeLevelIndex ((idx / 64 : ℕ) : ℤ) level
      by_cases hslot : (s.node p).slots i = 0
      · rw [Radix.child_eq_none.mpr hslot, hslot]
        cases level <;> rfl
      · rw [Radix.child_eq_some.mpr ⟨hslot, rfl⟩]
        exact ih _ hslot
  rw [radixTreeFindParent, read_bind]
  exact hfrom _ _ fun h => hz (R.root.mpr h)

theorem lookup (R : RadixRep E m s) : radixTreeLookup idx s = .ok (m idx, s) := by
  rw [radixTreeLookup, bind_of_ok (radixTreeMaxIndex_run R.bound)]
  by_cases hz : s.height = 0
  · rw [if_pos hz, if_pos (by omega), R.beyond idx (.inl hz)]
    rfl
  rw [if_neg hz]
  by_cases hle : 64 ^ s.height ≤ idx
  · rw [if_pos (gt_maxIndex.mpr hle), R.beyond idx (.inr hle)]
    rfl
  rw [if_neg (mt gt_maxIndex.mp hle), bind_of_ok (R.findParent_eq hz)]
  have hleaf := R.leaf hz idx (Nat.not_le.mp hle)
  have hpath := radixPath_last idx hz
  cases hw : s.walk (radixPath (idx / 64) (s.height - 1)) with
  | none =>
    rw [hpath, Radix.walk, follow_snoc, ← Radix.walk, hw, Option.bind_none] at hleaf
    have : m idx = 0 := by
      by_contra h
      rw [if_neg h] at hleaf
      cases hleaf
    rw [Option.getD_none, if_pos rfl, this]
    rfl
  | some p =>
    rw [hpath, walk_snoc hw, Radix.child] at hleaf
    rw [Option.getD_some, if_neg (R.node_ne (by rw [radixPath_length]; omega) hw), Prog.reads_run]
    congr 2
    split at hleaf <;> split at hleaf
    · omega
    · cases hleaf
    · cases hleaf
    · exact Option.some.inj hleaf

theorem slotSet_cleared (hcount : (s.node p).count = filled (s.node p).slots)
    (hslot : (s.node p).slots i ≠ 0) : SlotSet s p i 0 (s.cleared p i) := by
  constructor <;> simp [Radix.cleared, setNode]
  have := filled_clear hslot
  omega

/-- The loop that frees nodes, seen from the state in which it has cleared its slot. -/
theorem removeFrom {leaf levels level : ℕ} (hcount : 0 < (s.node p).count)
    (hslot : (s.node p).slots (radixTreeLevelIndex idx level) ≠ 0)
    (R : RadixRep {p} m (s.cleared p (radixTreeLevelIndex idx level)))
    (hπ : (s.cleared p (radixTreeLevelIndex idx level)).walk
    (radixPath (idx / 64 ^ (level + 1)) levels) = some p) (hlen : levels < s.height) :
    ∃ s', Osv.removeFrom idx leaf (levels + 1) level p s = .ok (leaf, s') ∧ RadixRep ∅ m s' := by
  induction levels generalizing level p s with
  | zero =>
    have hroot : (s.cleared p (radixTreeLevelIndex idx level)).rootNode = p := Option.some.inj hπ
    rw [removeFrom_run (R.node_ne (by rw [radixPath_length]; exact hlen) hπ) hslot hcount]
    set t := s.cleared p (radixTreeLevelIndex idx level)
    have hpl : p ∈ t.live := R.live [] p hlen hπ
    by_cases hz : (t.node p).count = 0
    · have hparent : (t.node p).parent = 0 := hroot ▸ R.top (Nat.ne_of_gt hlen)
      rw [if_pos hz, hparent]
      refine ⟨_, rfl, ?_⟩
      have := R.dropRoot (Nat.ne_of_gt hlen) (by rw [hroot, ← R.count p hpl, hz])
          (update t.node p freedNode)
      rwa [hroot] at this
    · rw [if_neg hz]
      exact ⟨t, rfl, R.settle (by rw [← R.count p hpl]; omega)⟩
  | succ levels ih =>
    have hdigit : radixTreeLevelIndex ((idx / 64 ^ (level + 1) : ℕ) : ℤ) 0 =
        radixTreeLevelIndex idx (level + 1) := by
      rw [radixTreeLevelIndex_natCast, radixTreeLevelIndex_natCast]
      simp
    have hdiv : idx / 64 ^ (level + 1) / 64 = idx / 64 ^ (level + 1 + 1) := by
      rw [Nat.div_div_eq_div_mul, ← pow_succ]
    rw [removeFrom_run (R.node_ne (by rw [radixPath_length]; exact hlen) hπ) hslot hcount]
    set t := s.cleared p (radixTreeLevelIndex idx level)
    have hpl : p ∈ t.live := R.live _ p (by rw [radixPath_length]; exact hlen) hπ
    by_cases hz : (t.node p).count = 0
    · rw [radixPath_succ, hdigit, hdiv] at hπ
      obtain ⟨q, hq, hchild⟩ := follow_of_snoc hπ
      have hlen' : (radixPath (idx / 64 ^ (level + 1 + 1)) levels).length + 1 < t.height := by
        rw [radixPath_length]
        exact hlen
      have hparent : (t.node p).parent = q := R.up _ _ q p hlen' hq hπ
      obtain ⟨-, hslot'⟩ := Radix.child_eq_some.mp hchild
      have hne : (t.node q).slots (radixTreeLevelIndex idx (level + 1)) ≠ 0 :=
        hslot'.symm ▸ fun h => R.ne (h ▸ hpl)
      have hcq : (t.node q).count = filled (t.node q).slots := R.count q (R.live _ q (by omega) hq)
      -- the node is freed, and its slot is cleared in the next pass
      let u : Radix := { t.setNode p freedNode with live := t.live.erase p }
      have hqp : q ≠ p := by
        rintro rfl
        have := R.one _ _ q (by omega) (by simpa using hlen') hq hπ
        simp at this
      have hset : SlotSet t q (radixTreeLevelIndex idx (level + 1)) 0
          (u.cleared q (radixTreeLevelIndex idx (level + 1))) := by
        constructor <;> simp [u, Radix.cleared, setNode, hqp]
        have := filled_clear hne
        omega
      obtain ⟨R', hq'⟩ : RadixRep {q} m (u.cleared q (radixTreeLevelIndex idx (level + 1))) ∧ _ :=
          R.dropNode hπ hq hlen'
        (by rw [← R.count p hpl, hz]) hset rfl
        (fun x hx hxp => by simp [u, Radix.cleared, setNode, hx, hxp])
      rw [if_pos hz, hparent]
      have huq : u.node q = t.node q := by simp [u, setNode, hqp]
      refine ih (s := u) ?_ (huq.symm ▸ hne) R' hq' (Nat.lt_of_succ_lt hlen)
      rw [huq, hcq]
      exact filled_pos.mpr ⟨_, hne⟩
    · rw [if_neg hz]
      exact ⟨t, rfl, R.settle (by rw [← R.count p hpl]; omega)⟩

theorem radixTreeRemove (R : RadixRep ∅ m s) (hm : m idx ≠ 0) :
    ∃ s', Osv.radixTreeRemove idx s = .ok (m idx, s') ∧ RadixRep ∅ (update m idx 0) s' := by
  have hz : s.height ≠ 0 := fun h => hm (R.beyond idx (.inl h))
  have hlt : idx < 64 ^ s.height := Nat.not_le.mp fun h => hm (R.beyond idx (.inr h))
  have hpath := radixPath_last idx hz
  have hleaf := R.leaf hz idx hlt
  rw [if_neg hm, hpath] at hleaf
  obtain ⟨p, hp, hchild⟩ := follow_of_snoc hleaf
  obtain ⟨-, hslot⟩ := Radix.child_eq_some.mp hchild
  have hlen : (radixPath (idx / 64) (s.height - 1)).length < s.height := by
    rw [radixPath_length]
    omega
  have hpl : p ∈ s.live := R.live _ p hlen hp
  have hfind : radixTreeFindParent idx false s = .ok (p, s) := by
    rw [R.findParent_eq hz, Radix.walk, hp]
    rfl
  have hne : (s.node p).slots (radixTreeLevelIndex idx 0) ≠ 0 := hslot.symm ▸ hm
  rw [radixTreeRemove_run hfind, if_neg (not_or.mpr ⟨R.node_ne hlen hp, hne⟩), hslot]
  obtain ⟨R', hp'⟩ := R.setLeaf (Set.empty_subset _) (slotSet_cleared (R.count p hpl) hne) rfl
    (fun q hq => by simp [Radix.cleared, setNode, hq]) hp (by rw [radixPath_length]; omega)
    hlt hpath
  have hlevels : s.height = s.height - 1 + 1 := by omega
  rw [hlevels]
  exact RadixRep.removeFrom (by rw [R.count p hpl]; exact filled_pos.mpr ⟨_, hne⟩) hne R'
    (by rw [zero_add, pow_one]; exact hp') (by omega)

end RadixRep

/-! ## Runs -/

/-- A successful insertion with `C`, or the removal of a present index, with the map that it leads
to. -/
inductive RadixMapStep (C : ℕ → Radix → Prop) : (ℕ → ℕ) × Radix → (ℕ → ℕ) × Radix → Prop
  | insert {m : ℕ → ℕ} {s s' : Radix} {index leaf : ℕ} {supply : List (Option ℕ)} :
    index < 2 ^ 30 → C index s →
      radixTreeInsert index leaf { s with supply := supply } = .ok (.ok, s') →
      RadixMapStep C (m, s) (update m index leaf, s')
  | remove {m : ℕ → ℕ} {s s' : Radix} {index x : ℕ} : index < 2 ^ 30 → m index ≠ 0 →
      radixTreeRemove index s = .ok (x, s') → RadixMapStep C (m, s) (update m index 0, s')

/-- The tree as `radix_tree_construct` leaves it, with no nodes allocated. -/
def RadixMapInit (x : (ℕ → ℕ) × Radix) : Prop := (∀ i, x.1 i = 0) ∧ RadixInit x.2 ∧ x.2.live = []

/-- An index that is inserted while the tree has no level needs no more than one. -/
def FirstSmall (index : ℕ) (s : Radix) : Prop := s.height = 0 → index < 64

theorem RadixMapInit.rep {x : (ℕ → ℕ) × Radix} (h : RadixMapInit x) : RadixRep ∅ x.1 x.2 := by
  obtain ⟨hm, ⟨s0, hs⟩, hlive⟩ := h
  obtain ⟨m, s⟩ := x
  cases hs
  exact .empty rfl rfl hlive hm

theorem RadixMapStep.rep {x y : (ℕ → ℕ) × Radix} (h : RadixMapStep FirstSmall x y)
    (R : RadixRep ∅ x.1 x.2) : RadixRep ∅ y.1 y.2 := by
  cases h with
  | @insert m s s' index leaf supply hidx hfirst hrun =>
    have hleaf : leaf ≠ 0 := by
      have := (kassert_bind_ok.mp hrun).1
      simpa using this
    obtain ⟨e, s1, hrun', h⟩ := (R.supply supply).radixTreeInsert hidx hleaf hfirst
    rw [hrun] at hrun'
    cases hrun'
    exact (h rfl).2
  | @remove m s s' index x hidx hm hrun =>
    obtain ⟨s1, hrun', R'⟩ := R.radixTreeRemove hm
    rw [hrun] at hrun'
    cases hrun'
    exact R'

/-- In a run in which the first index of an empty tree is always less than 64, the tree is empty iff
no index is present, and then it has no nodes.  Throughout, `radix_tree_lookup` finds what is
present. -/
theorem radix_reclaims {m : ℕ → ℕ} {s : Radix}
    (h : Run.Reachable RadixMapInit (RadixMapStep FirstSmall) (m, s)) :
    (radixTreeEmpty s = true ↔ ∀ i, m i = 0) ∧ ((∀ i, m i = 0) → s.live = []) ∧
      ∀ i, radixTreeLookup (i : ℕ) s = .ok (m i, s) := by
  have R : RadixRep ∅ m s := h.invariant (I := fun x => RadixRep ∅ x.1 x.2) (fun _ h0 => h0.rep)
    fun _ _ _ R hstep => hstep.rep R
  refine ⟨?_, fun hm => R.live_nil (R.height_eq_zero.mpr hm), fun i => R.lookup⟩
  rw [radixTreeEmpty, decide_eq_true_iff]
  exact R.height_eq_zero

theorem insert_remove_reachable {C : ℕ → Radix → Prop} {index : ℕ} {s s' : Radix}
    (hidx : index < 2 ^ 30) (hC : C index noNodes)
    (hins : radixTreeInsert index 7 noNodes = .ok (.ok, s))
    (hrem : radixTreeRemove index s = .ok (7, s')) :
    Run.Reachable RadixMapInit (RadixMapStep C) (fun _ => 0, s') := by
  have h0 : Run.Reachable RadixMapInit (RadixMapStep C) (fun _ => 0, noNodes) :=
    .first ⟨fun _ => rfl, ⟨noNodes, rfl⟩, rfl⟩
  have h1 := h0.next (.insert hidx hC
    (show radixTreeInsert index 7 { noNodes with supply := noNodes.supply } =
      .ok (.ok, s) from hins))
  have h2 := h1.next (.remove hidx (by rw [update_self]; decide) hrem)
  rw [update_idem, Function.update_eq_self_iff.mpr rfl] at h2
  exact h2

/-- After 0 is inserted and removed, the tree is empty and has no nodes. -/
theorem radix_reclaims_zero :
    ∃ s, Run.Reachable RadixMapInit (RadixMapStep FirstSmall) (fun _ => 0, s) ∧
    radixTreeEmpty s = true ∧ s.live = [] := by
  have h : Run.Reachable RadixMapInit (RadixMapStep FirstSmall)
      (fun _ => 0, (radixTreeRemove 0).final zeroTree) :=
    insert_remove_reachable (by decide : 0 < 2 ^ 30) (fun _ => by decide)
      (run_of_result (by decide +kernel)) (run_of_result (by decide +kernel))
  obtain ⟨hempty, hlive, -⟩ := radix_reclaims h
  exact ⟨_, h, hempty.mpr fun _ => rfl, hlive fun _ => rfl⟩

/-- In such a run the tree refines the map.  No assertion fails, only an absent index can be
inserted, and a removal takes out the leaf of its index and no other. -/
theorem radix_refines_map {m : ℕ → ℕ} {index : ℕ} (hidx : index < 2 ^ 30)
    (h : Run.Reachable RadixMapInit (RadixMapStep FirstSmall) (m, s)) :
    (m index ≠ 0 → ∃ s', radixTreeRemove index s = .ok (m index, s') ∧
        ∀ i, radixTreeLookup (i : ℕ) s' = .ok (update m index 0 i, s')) ∧
      ∀ leaf supply, leaf ≠ 0 → FirstSmall index s → ∃ e s',
        radixTreeInsert index leaf { s with supply := supply } = .ok (e, s') ∧
          (e = .ok → m index = 0 ∧ ∀ i,
            radixTreeLookup (i : ℕ) s' = .ok (update m index leaf i, s')) := by
  have R : RadixRep ∅ m s := h.invariant (I := fun x => RadixRep ∅ x.1 x.2) (fun _ h0 => h0.rep)
    fun _ _ _ R hstep => hstep.rep R
  refine ⟨fun hm => ?_, fun leaf supply hleaf hfirst => ?_⟩
  · obtain ⟨s', hrun, R'⟩ := R.radixTreeRemove hm
    exact ⟨s', hrun, fun _ => R'.lookup⟩
  · obtain ⟨e, s', hrun, hok⟩ := (R.supply supply).radixTreeInsert hidx hleaf hfirst
    exact ⟨e, s', hrun, fun he => ⟨(hok he).1, fun _ => (hok he).2.lookup⟩⟩

/-- The tree with 0: the leaf can be removed, and a leaf at 64, for which the tree grows, does not
hide it. -/
theorem radix_refines_zeroTree :
    (∃ s', radixTreeRemove 0 zeroTree = .ok (7, s') ∧ ∀ i, radixTreeLookup
    (i : ℕ) s' = .ok (0, s')) ∧
      ∃ s', radixTreeInsert 64 9 zeroTree = .ok (.ok, s') ∧ radixTreeLookup 0 s' = .ok (7, s') ∧
        radixTreeLookup 64 s' = .ok (9, s') := by
  have h0 : Run.Reachable RadixMapInit (RadixMapStep FirstSmall) (fun _ => 0, noNodes) :=
    .first ⟨fun _ => rfl, ⟨noNodes, rfl⟩, rfl⟩
  have h := h0.next (.insert (by decide : 0 < 2 ^ 30) (fun _ => by decide)
    (show radixTreeInsert 0 7 { noNodes with supply := noNodes.supply } = .ok (.ok, zeroTree) from
      run_of_result (by decide +kernel)))
  constructor
  · obtain ⟨s', hrun, hall⟩ := (radix_refines_map (by decide : 0 < 2 ^ 30) h).1 (by decide)
    refine ⟨s', hrun, fun i => ?_⟩
    rw [hall, update_idem, Function.update_eq_self_iff.mpr rfl]
  · obtain ⟨e, s', hrun, hall⟩ := (radix_refines_map (by decide : 64 < 2 ^ 30) h).2 9
        zeroTree.supply (by decide)
      fun h => absurd h (by decide +kernel)
    have hok : radixTreeInsert 64 9 zeroTree = .ok (.ok, (radixTreeInsert 64 9).final zeroTree) :=
      run_of_result (by decide +kernel)
    cases hok.symm.trans hrun
    exact ⟨_, hok, (hall rfl).2 0, (hall rfl).2 64⟩

/-- After 64 is inserted into an empty tree and removed, no index is present, and the tree keeps two
nodes: the first level, which has never had a child, and the root above it. -/
theorem spine_stays : ∃ s, Run.Reachable RadixMapInit (RadixMapStep fun _ _ => True)
    (fun _ => 0, s) ∧
    radixTreeEmpty s = false ∧ s.live = [2, 1] := by
  refine ⟨(radixTreeRemove 64).final ((radixTreeInsert 64 7).final noNodes), ?_, ?_, ?_⟩
  · exact insert_remove_reachable (by decide : 64 < 2 ^ 30) trivial
      (run_of_result (by decide +kernel)) (run_of_result (by decide +kernel))
  · decide +kernel
  · decide +kernel

/-! ## Growing -/

theorem radixTreeAddLevel_cases (s : Radix) :
    (∃ s', radixTreeAddLevel s = .ok (.alloc, s') ∧ ∀ c l, s.supply = some c ::
    l → c = 0 ∨ c ∈ s.live) ∨
    ∃ c l s', s.supply = some c :: l ∧ radixTreeAddLevel s = .ok (.ok, s') ∧
      s'.height = s.height + 1 ∧ s'.live = c :: s.live ∧ s'.supply = l := by
  rw [radixTreeAddLevel]
  rcases radixTreeNodeCreate_cases s with ⟨l, h, hnot⟩ | ⟨c, l, hl, hc0, -, h⟩
  · rw [bind_of_ok h, if_pos rfl]
    exact .inl ⟨_, rfl, hnot⟩
  · rw [bind_of_ok h, if_neg hc0, read_bind]
    refine .inr ⟨c, l, ?_⟩
    by_cases hr : s.rootNode = 0
    · have hlink : linkRoot c s.rootNode = pure .ok := if_neg (not_not.mpr hr)
      rw [hlink]
      exact ⟨_, hl, rfl, rfl, rfl, rfl⟩
    · have hlink : linkRoot c s.rootNode = radixTreeAddChild c 0 s.rootNode true := if_pos hr
      rw [hlink, bind_of_ok (radixTreeAddChild_run true hc0 hr (by simp) (by simp [filled_zero]))]
      exact ⟨_, hl, rfl, rfl, rfl, rfl⟩

/-- A pass of the loop that adds levels. -/
def LevelAdded (index : ℤ) (s s' : Radix) : Prop :=
  ∃ max, radixTreeMaxIndex s = .ok (max, s) ∧ index > max ∧ radixTreeAddLevel s = .ok (.ok, s')

/-- The loop ends with a level for the index or without memory, no shift is by 32 bits or more, and
the greatest index rises with each level. -/
def Grows (index : ℕ) (s : Radix) : Prop :=
  (∃ e s', addLevels index 7 s = .ok (e, s') ∧ (e = .ok → index < 64 ^ s'.height)) ∧
    ∀ t, Relation.ReflTransGen (LevelAdded index) s t → 6 * t.height < 32 ∧
      ∀ t', LevelAdded index t t' → ∃ max max', radixTreeMaxIndex t = .ok (max, t) ∧
        radixTreeMaxIndex t' = .ok (max', t') ∧ max < max'

section Grow

variable {index : ℕ} {s s' : Radix}

theorem gt_maxIndex_iff : (index : ℤ) > (if s.height = 0 then -1 else 64 ^ s.height - 1) ↔
    s.height = 0 ∨ 64 ^ s.height ≤ index := by
  split
  · rename_i h
    exact iff_of_true (by omega) (.inl h)
  · rename_i h
    rw [gt_maxIndex, or_iff_right h]

theorem height_lt_five (hidx : index < 2 ^ 30) (h : s.height = 0 ∨ 64 ^ s.height ≤ index) :
    s.height < 5 := by
  rcases h with h | h
  · omega
  · exact (Nat.pow_lt_pow_iff_right (a := 64) (by decide)).mp (h.trans_lt hidx)

theorem addLevels_returns (hidx : index < 2 ^ 30) (n : ℕ) (hh : s.height < 6)
    (hn : 6 ≤ n + s.height) :
    ∃ e s', addLevels index n s = .ok (e, s') ∧ (e = .ok → index < 64 ^ s'.height) := by
  induction n generalizing s with
  | zero => omega
  | succ n ih =>
    rw [addLevels, bind_of_ok (radixTreeMaxIndex_run (Nat.le_of_lt_succ hh))]
    by_cases hgt : s.height = 0 ∨ 64 ^ s.height ≤ index
    · rw [if_pos (gt_maxIndex_iff.mpr hgt)]
      have h5 := height_lt_five hidx hgt
      rcases radixTreeAddLevel_cases s with ⟨s', h, -⟩ | ⟨c, l, s', -, h, hh', -⟩
      · rw [bind_of_ok h]
        exact ⟨_, _, rfl, fun h => by cases h⟩
      · rw [bind_of_ok h]
        exact ih (by omega) (by omega)
    · rw [if_neg (mt gt_maxIndex_iff.mp hgt)]
      exact ⟨_, _, rfl, fun _ => Nat.not_le.mp (not_or.mp hgt).2⟩

/-- From `2 ^ 30` on the loop comes to a sixth level, if there is memory for it. -/
theorem addLevels_traps (hidx : 2 ^ 30 ≤ index) (n : ℕ) {l : List ℕ} (hl : s.supply = l.map some)
    (hnd : l.Nodup) (hfresh : ∀ c ∈ l, c ≠ 0 ∧ c ∉ s.live) (hlen : s.height + l.length = 6) :
    ∃ t, addLevels index n s = .error t := by
  induction n generalizing s l with
  | zero => exact ⟨_, rfl⟩
  | succ n ih =>
    cases l with
    | nil =>
      rw [List.length_nil] at hlen
      refine ⟨.wild "1 << (RADIX_TREE_WIDTH_POWER * root->height)", ?_⟩
      rw [addLevels, Prog.bind_run, radixTreeMaxIndex, Prog.reads_bind, if_neg (by omega),
        if_pos (by omega)]
      rfl
    | cons c l =>
      rw [List.length_cons] at hlen
      have hle : 64 ^ s.height ≤ index :=
        (Nat.pow_le_pow_right (n := 64) (by decide) (show s.height ≤ 5 by omega)).trans hidx
      obtain ⟨hc, hrest⟩ := List.forall_mem_cons.mp hfresh
      rw [addLevels, bind_of_ok (radixTreeMaxIndex_run (by omega)),
        if_pos (gt_maxIndex_iff.mpr (.inr hle))]
      rcases radixTreeAddLevel_cases s with ⟨s', -, hnot⟩ | ⟨c', l', s', hl', h, hh', hlive, hsup⟩
      · exact absurd (hnot c _ hl) (not_or.mpr hc)
      · rw [hl, List.map_cons] at hl'
        obtain ⟨⟨⟩, rfl⟩ := List.cons.inj hl'
        rw [bind_of_ok h]
        refine ih hsup (List.nodup_cons.mp hnd).2 (fun d hd => ⟨(hrest d hd).1, ?_⟩) (by omega)
        rw [hlive, List.mem_cons, not_or]
        exact ⟨fun e => (List.nodup_cons.mp hnd).1 (e ▸ hd), (hrest d hd).2⟩

theorem LevelAdded.rises (hidx : index < 2 ^ 30) (h : LevelAdded index s s') : s'.height < 6 ∧
    ∃ max max', radixTreeMaxIndex s = .ok (max, s) ∧
      radixTreeMaxIndex s' = .ok (max', s') ∧ max < max' := by
  obtain ⟨max, hmax, hgt, hadd⟩ := h
  have hle := Nat.le_of_lt_succ (radixTreeMaxIndex_ok hmax).2
  have hrun := radixTreeMaxIndex_run hle
  rw [hmax] at hrun
  cases hrun
  have h5 := height_lt_five hidx (gt_maxIndex_iff.mp hgt)
  obtain ⟨_, h, -⟩ | ⟨c, l, t, -, h, hh, -⟩ := radixTreeAddLevel_cases s <;>
      rw [hadd] at h <;> cases h
  refine ⟨by omega, _, _, hmax, radixTreeMaxIndex_run (by omega), ?_⟩
  rw [hh, if_neg (Nat.succ_ne_zero _), pow_succ]
  have hpos : (0 : ℤ) < 64 ^ s.height := pow_pos (by decide) _
  split <;> omega

end Grow

/-- The loop that adds levels to a reachable tree does what it should iff the index is below `2 ^
30`. -/
theorem addLevels_iff {s : Radix} (h : Run.Reachable RadixInit RadixStep s) (index : ℕ) :
    (∀ supply, Grows index { s with supply := supply }) ↔ index < 2 ^ 30 := by
  have hh := (Radix.sound h).2
  refine ⟨fun hgrows => by_contra fun hge => ?_, fun hidx supply => ⟨?_, fun t ht => ?_⟩⟩
  · obtain ⟨l, hl⟩ : ∃ l, l = List.range' (s.live.toFinset.sup id + 1) (6 - s.height) := ⟨_, rfl⟩
    have hfresh : ∀ c ∈ l, c ≠ 0 ∧ c ∉ s.live := by
      intro c hc
      have hlt := (List.mem_range'_1.mp (hl ▸ hc)).1
      refine ⟨by omega, fun hmem => ?_⟩
      have hle : c ≤ _ := Finset.le_sup (f := id) (List.mem_toFinset.mpr hmem)
      omega
    obtain ⟨⟨e, s', hrun, -⟩, -⟩ := hgrows (l.map some)
    obtain ⟨t, ht⟩ := addLevels_traps (s := { s with supply := l.map some })
        (Nat.not_lt.mp hge) 7 rfl
      (hl ▸ List.nodup_range') hfresh (by rw [hl, List.length_range']; simp only; omega)
    rw [ht] at hrun
    cases hrun
  · exact addLevels_returns hidx 7 hh (by simp only; omega)
  · have ht6 : t.height < 6 := by
      cases ht with
      | refl => exact hh
      | tail _ hstep => exact (hstep.rises hidx).1
    exact ⟨by omega, fun t' hstep => (hstep.rises hidx).2⟩

/-- The tree with 0 grows for 4096, to three levels. -/
theorem zeroTree_grows : Grows 4096 { zeroTree with supply := [some 2, some 3] } :=
  (addLevels_iff zeroTree_reachable 4096).mpr (by decide) _

/-- With six nodes to be had, `2 ^ 30` gets a sixth level, and the next shift is by 36 bits. -/
theorem noNodes_overgrows : Run.Reachable RadixInit RadixStep noNodes ∧
    addLevels ((2 ^ 30 : ℕ) : ℤ) 7 { noNodes with supply := [1, 2, 3, 4, 5, 6].map some } =
      .error (.wild "1 << (RADIX_TREE_WIDTH_POWER * root->height)") ∧
    ¬ Grows (2 ^ 30) { noNodes with supply := [1, 2, 3, 4, 5, 6].map some } := by
  refine ⟨.first ⟨noNodes, rfl⟩, (and_iff_left_of_imp fun hrun => ?_).mpr
    (Prog.run_of_trapOf (by decide +kernel))⟩
  rintro ⟨⟨e, s', h, -⟩, -⟩
  rw [hrun] at h
  cases h

end Osv
