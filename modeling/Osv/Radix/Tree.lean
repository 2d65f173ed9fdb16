import Osv.Base
import Osv.Lib.Run
import Mathlib.Data.Fin.Basic
import Mathlib.Algebra.Order.Ring.Int
import Mathlib.Data.Int.ModEq
import Mathlib.Tactic.Ring

/-!
# The radix tree

`kernel/radix_tree.c`.  Nodes have 64 slots.  A tree of height `h` has leaves at
the indices below `64 ^ h`: the digits of an index to the base 64, the most
significant first, are the slots on the way from the root to the leaf.

Nodes are objects of an allocator.  `supply` is what the allocator answers to the
next calls, `none` where it has no memory, and the objects that it has given out and
not got back are `live`.  An object that is live is not given out.

`radix_tree_lookup` compares the index with the greatest index of the tree first,
`radix_tree_remove` does not, and both walk along as many digits as the tree has
levels.  Removing an index that the tree has no level for removes the index with
the same low digits (`remove_absent_iff`).
-/

namespace Osv

open Prog (keeps_bind keeps_ite keeps_pure keeps_update read_bind)

/-! ## Nodes -/

/-- `struct radix_tree_node`.  A slot holds the address of a node or of a leaf, and `NULL` is 0. -/
structure RadixNode where
  count : ℕ
  parent : ℕ
  slots : Fin 64 → ℕ

/-- `struct radix_tree_root`, with the nodes in memory and the allocator of nodes. -/
structure Radix where
  height : ℕ
  rootNode : ℕ
  node : ℕ → RadixNode
  live : List ℕ
  supply : List (Option ℕ)

/-- A function of `radix_tree.c`. -/
abbrev RadixM := Prog Trap Radix

/-- What `radix_tree_insert` and its helpers return. -/
inductive RadixErr where
  | ok
  | alloc
  | nodeExist
deriving DecidableEq, Repr

namespace Radix

/-- A node is replaced. -/
def setNode (s : Radix) (p : ℕ) (n : RadixNode) : Radix :=
  { s with node := Function.update s.node p n }

/-- A slot is written. -/
def setSlot (s : Radix) (p : ℕ) (i : Fin 64) (x : ℕ) : Radix :=
  s.setNode p { s.node p with slots := Function.update (s.node p).slots i x }

/-- A count is written. -/
def setCount (s : Radix) (p c : ℕ) : Radix := s.setNode p { s.node p with count := c }

/-- A parent is written. -/
def setParent (s : Radix) (p q : ℕ) : Radix := s.setNode p { s.node p with parent := q }

end Radix

/-- An object for a node, or `NULL`. -/
def kmemCacheAlloc : RadixM ℕ := fun s =>
  match s.supply with
  | [] => .ok (0, s)
  | none :: rest => .ok (0, { s with supply := rest })
  | some p :: rest =>
    if p ≠ 0 ∧ p ∉ s.live then .ok (p, { s with live := p :: s.live, supply := rest })
    else .ok (0, { s with supply := rest })

/-- The bytes of a freed object are all `0x2b`. -/
def freedNode : RadixNode := ⟨0x2b2b2b2b, 0x2b2b2b2b2b2b2b2b, fun _ => 0x2b2b2b2b2b2b2b2b⟩

/-- Free a node. -/
def kmemCacheFree (p : ℕ) : RadixM Unit :=
  Prog.update fun s => { s.setNode p freedNode with live := s.live.erase p }

/-- Create a node. -/
def radixTreeNodeCreate : RadixM ℕ := do
  let node ← kmemCacheAlloc
  if node = 0 then pure 0
  else do
    Prog.update fun s => s.setNode node ⟨0, 0, fun _ => 0⟩
    pure node

/-- The greatest index of a tree.  The shift has no meaning from 32 on, which is from height 6 on.
-/
def radixTreeMaxIndex : RadixM Int := do
  let height ← Prog.reads Radix.height
  if height = 0 then pure (-1)
  else if height ≥ 6 then Prog.trap (.wild "1 << (RADIX_TREE_WIDTH_POWER * root->height)")
  else pure (2 ^ (6 * height) - 1)

/-- The slot of an index at a level, where the leaves are below level 0. -/
def radixTreeLevelIndex (index : Int) (level : ℕ) : Fin 64 :=
  ⟨(index / 2 ^ (6 * level) % 64).toNat, by omega⟩

/-- `radix_tree_add_child`. -/
def radixTreeAddChild (node : ℕ) (index : Fin 64) (child : ℕ) (isNode : Bool) :
    RadixM RadixErr := do
  kassert "node" fun _ => node ≠ 0
  kassert "child" fun _ => child ≠ 0
  let s ← Prog.read
  if (s.node node).slots index ≠ 0 then pure .nodeExist
  else do
    Prog.update fun s => s.setSlot node index child
    Prog.update fun s => s.setCount node ((s.node node).count + 1)
    kassert "node->count <= RADIX_TREE_WIDTH" fun s => (s.node node).count ≤ 64
    if isNode then do
      Prog.update fun s => s.setParent child node
      pure .ok
    else pure .ok

/-- The loop of `radix_tree_find_parent` from a level on. -/
def findParentFrom (index : Int) (alloc : Bool) : (level node : ℕ) → RadixM ℕ
  | 0, node => pure node
  | level + 1, node =>
    if node = 0 then pure node
    else do
      let s ← Prog.read
      let levelIndex := radixTreeLevelIndex index (level + 1)
      let child := (s.node node).slots levelIndex
      if child = 0 ∧ alloc then
        let child ← radixTreeNodeCreate
        if child = 0 then pure 0
        else do
          let _ ← radixTreeAddChild node levelIndex child true
          findParentFrom index alloc level child
      else findParentFrom index alloc level child

/-- The node with the slot of a leaf. -/
def radixTreeFindParent (index : Int) (alloc : Bool) : RadixM ℕ := do
  let s ← Prog.read
  findParentFrom index alloc (s.height - 1) s.rootNode

/-- The root, if there is one, is the first child of the new root. -/
def linkRoot (node root : ℕ) : RadixM RadixErr :=
  if root ≠ 0 then radixTreeAddChild node 0 root true else pure .ok

/-- Put a new root above the root. -/
def radixTreeAddLevel : RadixM RadixErr := do
  let node ← radixTreeNodeCreate
  if node = 0 then pure .alloc
  else do
    let s ← Prog.read
    let _ ← linkRoot node s.rootNode
    Prog.update fun s => { s with rootNode := node }
    Prog.update fun s => { s with height := s.height + 1 }
    pure .ok

/-! ## The interface -/

/-- A tree without nodes. -/
def radixTreeConstruct : RadixM Unit := do
  Prog.update fun s => { s with height := 0 }
  Prog.update fun s => { s with rootNode := 0 }

/-- A tree without levels. -/
def radixTreeEmpty (s : Radix) : Bool := s.height = 0

/-- The leaf at an index, or 0. -/
def radixTreeLookup (index : Int) : RadixM ℕ := do
  let maxIndex ← radixTreeMaxIndex
  if index > maxIndex then pure 0
  else do
    let node ← radixTreeFindParent index false
    if node = 0 then pure 0
    else Prog.reads fun s => (s.node node).slots (radixTreeLevelIndex index 0)

/-- The loop of `radix_tree_insert` that adds levels.  A tree with 6 levels has no greatest index,
so 7 passes are enough. -/
def addLevels (index : Int) : (passes : ℕ) → RadixM RadixErr
  | 0 => Prog.trap (.wild "1 << (RADIX_TREE_WIDTH_POWER * root->height)")
  | passes + 1 => do
    let maxIndex ← radixTreeMaxIndex
    if index > maxIndex then
      match ← radixTreeAddLevel with
      | .ok => addLevels index passes
      | _ => pure .alloc
    else pure .ok

/-- Put a leaf at an index. -/
def radixTreeInsert (index : Int) (leaf : ℕ) : RadixM RadixErr := do
  kassert "leaf" fun _ => leaf ≠ 0
  match ← addLevels index 7 with
  | .ok => do
    let node ← radixTreeFindParent index true
    if node = 0 then pure .alloc
    else
      match ← radixTreeAddChild node (radixTreeLevelIndex index 0) leaf false with
      | .ok => pure .ok
      | _ => pure .nodeExist
  | _ => pure .alloc

/-- The loop of `radix_tree_remove` that removes empty nodes, with `levels` levels to go. -/
def removeFrom (index : Int) (leaf : ℕ) : (levels level node : ℕ) → RadixM ℕ
  | 0, _, node => do
    kassert "node == NULL" fun _ => node = 0
    Prog.update fun s => { s with rootNode := 0 }
    Prog.update fun s => { s with height := 0 }
    pure leaf
  | levels + 1, level, node => do
    let levelIndex := radixTreeLevelIndex index level
    kassert "node" fun _ => node ≠ 0
    kassert "node->slots[level_index]" fun s => (s.node node).slots levelIndex ≠ 0
    kassert "node->count > 0" fun s => (s.node node).count > 0
    Prog.update fun s => s.setCount node ((s.node node).count - 1)
    Prog.update fun s => s.setSlot node levelIndex 0
    let s ← Prog.read
    if (s.node node).count = 0 then
      let parent := (s.node node).parent
      kmemCacheFree node
      removeFrom index leaf levels (level + 1) parent
    else pure leaf

/-- Take the leaf at an index away. -/
def radixTreeRemove (index : Int) : RadixM ℕ := do
  let node ← radixTreeFindParent index false
  if node = 0 then pure 0
  else do
    let s ← Prog.read
    let leaf := (s.node node).slots (radixTreeLevelIndex index 0)
    if leaf = 0 then pure 0
    else removeFrom index leaf s.height 0 node

/-! ## Digits -/

theorem radixTreeLevelIndex_natCast (i l : ℕ) :
    radixTreeLevelIndex i l = ⟨i / 64 ^ l % 64, Nat.mod_lt _ (by decide)⟩ := by
  have h : (2 : ℤ) ^ (6 * l) = ((64 ^ l : ℕ) : ℤ) := by
    rw [pow_mul]
    push_cast
    rfl
  refine Fin.ext (show ((i : ℤ) / 2 ^ (6 * l) % 64).toNat = i / 64 ^ l % 64 from ?_)
  rw [h]
  exact_mod_cast Int.toNat_natCast (i / 64 ^ l % 64)

theorem radixTreeLevelIndex_mod {i l h : ℕ} (hl : l < h) :
    radixTreeLevelIndex ((i % 64 ^ h : ℕ) : ℤ) l = radixTreeLevelIndex i l := by
  rw [radixTreeLevelIndex_natCast, radixTreeLevelIndex_natCast]
  refine Fin.ext ?_
  dsimp only
  obtain ⟨k, rfl⟩ := Nat.exists_eq_add_of_lt hl
  rw [show l + k + 1 = l + (k + 1) by omega, pow_add, Nat.mod_mul_right_div_self,
    pow_succ, Nat.mod_mul_left_mod]

/-! ## Walks that allocate nothing -/

theorem findParentFrom_run (index : ℤ) (level node : ℕ) (s : Radix) :
    ∃ x, findParentFrom index false level node s = .ok (x, s) := by
  induction level generalizing node with
  | zero => exact ⟨_, rfl⟩
  | succ level ih =>
    rw [findParentFrom]
    split
    · exact ⟨_, rfl⟩
    · rw [read_bind, if_neg (by simp)]
      exact ih _

theorem findParentFrom_congr {i j : ℤ} {alloc : Bool} {level : ℕ}
    (h : ∀ l ≤ level, radixTreeLevelIndex i l = radixTreeLevelIndex j l) (node : ℕ) :
    findParentFrom i alloc level node = findParentFrom j alloc level node := by
  induction level generalizing node with
  | zero => rfl
  | succ level ih =>
    simp only [findParentFrom, h (level + 1) le_rfl, ih fun l hl => h l (Nat.le_succ_of_le hl)]

theorem radixTreeFindParent_run (index : ℤ) (s : Radix) :
    ∃ x, radixTreeFindParent index false s = .ok (x, s) := by
  rw [radixTreeFindParent, read_bind]
  exact findParentFrom_run ..

/-! ## Runs -/

/-- A call of `radix_tree_insert` or `radix_tree_remove`, whatever it returns. -/
inductive RadixStep (s : Radix) : Radix → Prop
  | insert {index : ℤ} {leaf : ℕ} {supply : List (Option ℕ)} {e : RadixErr} {s' : Radix} :
      radixTreeInsert index leaf { s with supply := supply } = .ok (e, s') → RadixStep s s'
  | remove {index : ℤ} {leaf : ℕ} {s' : Radix} :
      radixTreeRemove index s = .ok (leaf, s') → RadixStep s s'

/-- A tree after its constructor. -/
def RadixInit (s : Radix) : Prop := ∃ s0, radixTreeConstruct s0 = .ok ((), s)

/-- A tree without levels has no root. -/
def Radix.Rooted (s : Radix) : Prop := s.height = 0 → s.rootNode = 0

theorem kmemCacheAlloc_keeps : Prog.Keeps (fun s => (s.height, s.rootNode)) kmemCacheAlloc := by
  intro s a s' h
  rw [kmemCacheAlloc] at h
  split at h
  · cases h; rfl
  · cases h; rfl
  · split at h <;> (cases h; rfl)

theorem radixTreeNodeCreate_keeps :
    Prog.Keeps (fun s => (s.height, s.rootNode)) radixTreeNodeCreate :=
  keeps_bind kmemCacheAlloc_keeps fun _ =>
    keeps_ite (keeps_pure _) (keeps_bind (keeps_update fun _ => rfl) fun _ => keeps_pure _)

theorem radixTreeAddChild_keeps (node : ℕ) (index : Fin 64) (child : ℕ) (isNode : Bool) :
    Prog.Keeps (fun s => (s.height, s.rootNode)) (radixTreeAddChild node index child isNode) := by
  refine keeps_bind (Prog.keeps_check _ _) fun _ => keeps_bind (Prog.keeps_check _ _) fun _ =>
    keeps_bind Prog.keeps_read fun s => keeps_ite (keeps_pure _) ?_
  refine keeps_bind (keeps_update fun _ => rfl) fun _ => keeps_bind (keeps_update fun _ => rfl)
    fun _ => keeps_bind (Prog.keeps_check _ _) fun _ => keeps_ite ?_ (keeps_pure _)
  exact keeps_bind (keeps_update fun _ => rfl) fun _ => keeps_pure _

theorem findParentFrom_keeps (index : ℤ) (alloc : Bool) (level node : ℕ) :
    Prog.Keeps (fun s => (s.height, s.rootNode)) (findParentFrom index alloc level node) := by
  induction level generalizing node with
  | zero => exact keeps_pure _
  | succ level ih =>
    refine keeps_ite (keeps_pure _) (keeps_bind Prog.keeps_read fun s =>
      keeps_ite (keeps_bind radixTreeNodeCreate_keeps fun c => ?_) (ih _))
    exact keeps_ite (keeps_pure _) (keeps_bind (radixTreeAddChild_keeps _ _ _ _) fun _ => ih _)

variable {s s' : Radix} {index : ℤ} {e : RadixErr}

theorem radixTreeAddLevel_ok (hs : s.Rooted) (h : radixTreeAddLevel s = .ok (e, s')) :
    s'.Rooted ∧ (e = .ok ∨ s'.height = s.height) := by
  obtain ⟨node, s1, hcreate, h⟩ := Prog.bind_ok.mp h
  have hkeeps := radixTreeNodeCreate_keeps _ _ _ hcreate
  have hs1 : s1.Rooted := radixTreeNodeCreate_keeps.preserves (P := fun x => x.1 = 0 → x.2 = 0)
      _ _ _ hs hcreate
  split at h
  · cases h
    exact ⟨hs1, .inr (Prod.mk.inj hkeeps).1⟩
  · rw [read_bind] at h
    obtain ⟨_, s2, -, h⟩ := Prog.bind_ok.mp h
    cases h
    exact ⟨fun h => absurd h (Nat.succ_ne_zero _), .inl rfl⟩

theorem radixTreeMaxIndex_ok {max : ℤ} (h : radixTreeMaxIndex s = .ok (max, s')) :
    s' = s ∧ s.height < 6 := by
  rw [radixTreeMaxIndex, Prog.reads_bind] at h
  split at h
  · cases h
    exact ⟨rfl, by omega⟩
  · split at h
    · cases h
    · cases h
      exact ⟨rfl, by omega⟩

theorem addLevels_ok {passes : ℕ} (hs : s.Rooted) (h : addLevels index passes s = .ok (e, s')) :
    s'.Rooted ∧ s'.height < 6 := by
  induction passes generalizing s with
  | zero => cases h
  | succ passes ih =>
    rw [addLevels] at h
    obtain ⟨max, s1, hmax, h1⟩ := Prog.bind_ok.mp h
    obtain ⟨rfl, hlt⟩ := radixTreeMaxIndex_ok hmax
    split at h1
    · obtain ⟨e1, s2, hadd, h⟩ := Prog.bind_ok.mp h1
      obtain ⟨hs2, hh⟩ := radixTreeAddLevel_ok hs hadd
      cases e1 with
      | ok => exact ih hs2 h
      | alloc | nodeExist => cases h; exact ⟨hs2, hh.resolve_left nofun ▸ hlt⟩
    · cases h1
      exact ⟨hs, hlt⟩

theorem radixTreeInsert_ok {leaf : ℕ} (hs : s.Rooted)
    (h : radixTreeInsert index leaf s = .ok (e, s')) : s'.Rooted ∧ s'.height < 6 := by
  obtain ⟨-, h⟩ := kassert_bind_ok.mp h
  obtain ⟨e1, s1, hlevels, h⟩ := Prog.bind_ok.mp h
  have h1 := addLevels_ok hs hlevels
  cases e1 with
  | ok =>
    refine (keeps_bind (keeps_bind Prog.keeps_read fun s => findParentFrom_keeps _ _ _ _)
      fun node =>
      keeps_ite (keeps_pure _) (keeps_bind (radixTreeAddChild_keeps _ _ _ _) fun e => ?_)).preserves
        (P := fun x => (x.1 = 0 → x.2 = 0) ∧ x.1 < 6) _ _ _ h1 h
    cases e <;> exact keeps_pure _
  | alloc | nodeExist => cases h; exact h1

theorem removeFrom_ok {leaf x levels level node : ℕ} (hs : s.Rooted)
    (h : removeFrom index leaf levels level node s = .ok (x, s')) :
    x = leaf ∧ s'.Rooted ∧ s'.height ≤ s.height := by
  induction levels generalizing level node s with
  | zero =>
    rw [removeFrom] at h
    obtain ⟨-, h⟩ := kassert_bind_ok.mp h
    cases h
    exact ⟨rfl, fun _ => rfl, Nat.zero_le _⟩
  | succ levels ih =>
    rw [removeFrom] at h
    obtain ⟨-, h⟩ := kassert_bind_ok.mp h
    obtain ⟨-, h⟩ := kassert_bind_ok.mp h
    obtain ⟨-, h⟩ := kassert_bind_ok.mp h
    rw [Prog.update_bind, Prog.update_bind, read_bind] at h
    split at h
    · have h1 := ih (by exact hs) h
      exact h1
    · cases h
      exact ⟨rfl, hs, le_rfl⟩

theorem radixTreeRemove_run {node : ℕ} (h : radixTreeFindParent index false s = .ok (node, s)) :
    radixTreeRemove index s =
      if node = 0 ∨ (s.node node).slots (radixTreeLevelIndex index 0) = 0 then .ok (0, s)
      else removeFrom index ((s.node node).slots (radixTreeLevelIndex index 0))
        s.height 0 node s := by
  rw [radixTreeRemove, Prog.bind_of_ok h]
  by_cases hn : node = 0
  · rw [if_pos hn, if_pos (.inl hn)]
    rfl
  · rw [if_neg hn, read_bind]
    by_cases hl : (s.node node).slots (radixTreeLevelIndex index 0) = 0
    · rw [if_pos (Or.inr hl)]
      exact if_pos hl ▸ rfl
    · rw [if_neg (not_or.mpr ⟨hn, hl⟩)]
      exact if_neg hl ▸ rfl

theorem RadixStep.sound (h : RadixStep s s') (hs : s.Rooted ∧ s.height < 6) :
    s'.Rooted ∧ s'.height < 6 := by
  cases h with
  | insert h => exact radixTreeInsert_ok (by exact hs.1) h
  | @remove index leaf _ h =>
    obtain ⟨node, hfind⟩ := radixTreeFindParent_run index s
    rw [radixTreeRemove_run hfind] at h
    split at h
    · cases h
      exact hs
    · obtain ⟨-, hs', hle⟩ := removeFrom_ok hs.1 h
      exact ⟨hs', Nat.lt_of_le_of_lt hle hs.2⟩

theorem Radix.sound (h : Run.Reachable RadixInit RadixStep s) : s.Rooted ∧ s.height < 6 := by
  refine h.invariant (I := fun s => s.Rooted ∧ s.height < 6) (fun s ⟨s0, h0⟩ => ?_)
    fun s s' _ hs hstep => hstep.sound hs
  cases h0
  exact ⟨fun _ => rfl, Nat.succ_pos 5⟩

/-! ## Removing an absent index -/

/-- `radix_tree_remove` finds nothing at the index and changes nothing that can be seen. -/
def RemoveHarmless (index : ℕ) (s : Radix) : Prop :=
  ∃ s', radixTreeRemove index s = .ok (0, s') ∧ s'.height = s.height ∧
    (∀ p ∈ s.live, (s'.node p).count = (s.node p).count) ∧
    ∀ j x, radixTreeLookup j s = .ok (x, s) → radixTreeLookup j s' = .ok (x, s')

/-- In a tree of at most 5 levels, `radix_tree_lookup` finds what the walk along the digits finds.
-/
theorem radixTreeLookup_run {node : ℕ} (hs : s.Rooted) (hh : s.height < 6)
    (hlt : index < 64 ^ s.height) (h : radixTreeFindParent index false s = .ok (node, s)) :
    radixTreeLookup index s =
      .ok (if node = 0 then 0 else (s.node node).slots (radixTreeLevelIndex index 0), s) := by
  rw [radixTreeLookup, radixTreeMaxIndex, Prog.bind_run, Prog.reads_bind]
  by_cases h0 : s.height = 0
  · have hnode : node = 0 := by
      rw [radixTreeFindParent, read_bind, h0, hs h0] at h
      cases h
      rfl
    rw [if_pos h0, if_pos hnode]
    dsimp only [Prog.pure_run]
    split
    · rfl
    · rw [Prog.bind_of_ok h, if_pos hnode]
      rfl
  · rw [if_neg h0, if_neg (by omega)]
    dsimp only [Prog.pure_run]
    have hpow : (2 : ℤ) ^ (6 * s.height) = 64 ^ s.height := by
      rw [pow_mul]
      rfl
    rw [hpow, if_neg (by omega), Prog.bind_of_ok h]
    split <;> rfl

/-- Removing an absent index is harmless iff the index that it has the low digits of is absent too.
-/
theorem remove_absent_iff {s : Radix} (h : Run.Reachable RadixInit RadixStep s) {index : ℕ}
    (habs : radixTreeLookup index s = .ok (0, s)) :
    RemoveHarmless index s ↔ radixTreeLookup ((index % 64 ^ s.height : ℕ) : ℤ) s = .ok (0, s) := by
  have hs := (Radix.sound h).1
  have hh : s.height < 6 := by
    by_contra hge
    rw [radixTreeLookup, radixTreeMaxIndex, Prog.bind_run, Prog.reads_bind, if_neg (by omega),
      if_pos (by omega)] at habs
    cases habs
  obtain ⟨node, hfind⟩ := radixTreeFindParent_run index s
  have hsame : radixTreeFindParent ((index % 64 ^ s.height : ℕ) : ℤ) false s = .ok (node, s) := by
    rw [← hfind, radixTreeFindParent, radixTreeFindParent, read_bind, read_bind]
    by_cases h0 : s.height = 0
    · rw [h0]
      rfl
    · exact congrFun (findParentFrom_congr (fun l hl => radixTreeLevelIndex_mod (by omega)) _) s
  have hleaf : node = 0 ∨
      radixTreeLevelIndex ((index % 64 ^ s.height : ℕ) : ℤ) 0 = radixTreeLevelIndex index 0 := by
    by_cases h0 : s.height = 0
    · left
      rw [radixTreeFindParent, read_bind, h0, hs h0] at hfind
      cases hfind
      rfl
    · exact Or.inr (radixTreeLevelIndex_mod (by omega))
  have hlt : ((index % 64 ^ s.height : ℕ) : ℤ) < 64 ^ s.height := by
    exact_mod_cast Nat.mod_lt index (Nat.pow_pos (n := s.height) (by decide : 0 < 64))
  rw [radixTreeLookup_run hs hh hlt hsame]
  have hrun := radixTreeRemove_run hfind
  by_cases hnone : node = 0 ∨ (s.node node).slots (radixTreeLevelIndex index 0) = 0
  · rw [if_pos hnone] at hrun
    refine iff_of_true ⟨s, hrun, rfl, fun _ _ => rfl, fun _ _ h => h⟩ ?_
    split
    · rfl
    · rename_i hn
      rw [hleaf.resolve_left hn, hnone.resolve_left hn]
  · rw [if_neg hnone] at hrun
    obtain ⟨hn, hl⟩ := not_or.mp hnone
    refine iff_of_false ?_ ?_
    · rintro ⟨s', h', -⟩
      rw [hrun] at h'
      exact hl (removeFrom_ok hs h').1.symm
    · rw [if_neg hn, hleaf.resolve_left hn]
      intro h'
      injection h' with h'
      exact hl (Prod.mk.inj h').1

/-- Memory with no nodes, and an allocator that has three. -/
def noNodes : Radix := ⟨0, 0, fun _ => ⟨0, 0, fun _ => 0⟩, [], [some 1, some 2, some 3]⟩

/-- The tree with the leaf 7 at 0. -/
def zeroTree : Radix := (radixTreeInsert 0 7).final noNodes

theorem zeroTree_reachable : Run.Reachable RadixInit RadixStep zeroTree :=
  (Run.Reachable.first (s := noNodes) ⟨noNodes, rfl⟩).next
    (.insert (show radixTreeInsert 0 7 { noNodes with supply := noNodes.supply } =
      .ok (.ok, zeroTree) from
      Prog.run_of_result (by decide +kernel)))

/-- Removing 65 from the tree with 0 is harmless. -/
theorem remove_absent_zeroTree : radixTreeLookup 65 zeroTree = .ok (0, zeroTree) ∧
    RemoveHarmless 65 zeroTree := by
  have habs : radixTreeLookup ((65 : ℕ) : ℤ) zeroTree = .ok (0, zeroTree) := rfl
  exact ⟨habs, (remove_absent_iff zeroTree_reachable habs).mpr rfl⟩

/-- Removing 64 from the tree with 0 returns the leaf at 0 and leaves nothing. -/
theorem remove_absent_aliases : Run.Reachable RadixInit RadixStep zeroTree ∧
    radixTreeLookup 64 zeroTree = .ok (0, zeroTree) ∧
      radixTreeLookup 0 zeroTree = .ok (7, zeroTree) ∧
    (∃ s', radixTreeRemove 64 zeroTree = .ok (7, s') ∧ radixTreeLookup 0 s' = .ok (0, s')) ∧
    ¬ RemoveHarmless 64 zeroTree := by
  have hrun : radixTreeRemove 64 zeroTree = .ok (7, (radixTreeRemove 64).final zeroTree) :=
    Prog.run_of_result (by decide +kernel)
  refine ⟨zeroTree_reachable, rfl, rfl, ⟨_, hrun, rfl⟩, ?_⟩
  rintro ⟨s', h, -⟩
  rw [show ((64 : ℕ) : ℤ) = 64 from rfl, hrun] at h
  cases h

end Osv
