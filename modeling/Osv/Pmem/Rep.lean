import Osv.Lib.Tiling
import Osv.Pmem.Basic

/-!
# What the page map stands for

The abstract state of the buddy allocator is a tiling of the physical pages by
dyadic blocks, each free, live, reserved or held.  A block is held while a
function of the allocator is working on it: it is off every list and not handed
out.  `Rep s T` says that the variables of `pmem.c` stand for the tiling `T`.  It
constrains the page map at the heads of blocks only, since every other page
keeps whatever an earlier split, merge or free left there.

Each section takes one update of the variables to the operation on tilings it
carries out.  `SameFixed` says that two tilings agree on the blocks that the
allocator may not touch, and `Apart` that no two free buddies wait to be merged.
-/

namespace Osv

open Dyadic

/-- What the allocator does with a block. -/
inductive Tag where
  /-- On a free list. -/
  | free
  /-- Handed out. -/
  | live
  /-- Below the managed memory. -/
  | reserved
  /-- In the hands of the allocator. -/
  | held
deriving DecidableEq, Repr

/-- The reference counts the head of a block may have. -/
def Tag.Refcnt : Tag → Int → Prop
  | .free, r => r = 0
  | .held, r => r = 0
  | .live, r => 1 ≤ r ∧ r < 2 ^ 31
  | .reserved, r => 1 ≤ r

namespace Pmem

variable {s : Pmem} {i j k : ℕ} {r : Int}

@[simp] theorem setOrder_order : ((s.setOrder i k).pagemap j).order =
    if j = i then k else (s.pagemap j).order := by
  unfold setOrder
  simp only [Function.update_apply]
  split <;> rfl

@[simp] theorem setOrder_refcnt : ((s.setOrder i k).pagemap j).refcnt = (s.pagemap j).refcnt := by
  unfold setOrder
  simp only [Function.update_apply]
  split
  · rename_i h; rw [h]
  · rfl

@[simp] theorem setRefcnt_refcnt : ((s.setRefcnt i r).pagemap j).refcnt =
    if j = i then r else (s.pagemap j).refcnt := by
  unfold setRefcnt
  simp only [Function.update_apply]
  split <;> rfl

@[simp] theorem setRefcnt_order : ((s.setRefcnt i r).pagemap j).order = (s.pagemap j).order := by
  unfold setRefcnt
  simp only [Function.update_apply]
  split
  · rename_i h; rw [h]
  · rfl

@[simp] theorem setOrder_freeblocks : (s.setOrder i k).freeblocks = s.freeblocks := rfl

@[simp] theorem setRefcnt_freeblocks : (s.setRefcnt i r).freeblocks = s.freeblocks := rfl

/-- Everything but the page structs and the free lists. -/
def fixed (s : Pmem) : PmemConfig × (ℕ → Bool) × ℕ × ℕ × ℕ × Bool :=
  (s.config, s.bitmap, s.bitmapContigStart, s.bitmapEnd, s.nPages, s.pagemapInitialized)

theorem fixed_eq {s s' : Pmem} (h : s'.fixed = s.fixed) :
    s'.config = s.config ∧ s'.bitmap = s.bitmap ∧ s'.bitmapContigStart = s.bitmapContigStart ∧
      s'.bitmapEnd = s.bitmapEnd ∧ s'.nPages = s.nPages ∧
        s'.pagemapInitialized = s.pagemapInitialized := by
  simpa [fixed] using h

/-- Put a page at the end of a free list. -/
def push (s : Pmem) (k page : ℕ) : Pmem :=
  { s with freeblocks := Function.update s.freeblocks k (s.freeblocks k ++ [page]) }

/-- Take a page off every free list. -/
def unlink (s : Pmem) (page : ℕ) : Pmem :=
  { s with freeblocks := fun k => (s.freeblocks k).erase page }

@[simp] theorem push_pagemap : (s.push k i).pagemap = s.pagemap := rfl

theorem mem_push {a : ℕ} : a ∈ (s.push k i).freeblocks j ↔
    a ∈ s.freeblocks j ∨ (j = k ∧ a = i) := by
  simp only [push, Function.update_apply]
  split
  · rename_i h; subst h; simp
  · rename_i h; simp [h]

theorem nodup_push (hn : (s.freeblocks j).Nodup) (hi : i ∉ s.freeblocks k) :
    ((s.push k i).freeblocks j).Nodup := by
  simp only [push, Function.update_apply]
  split
  · rename_i h
    subst h
    rw [List.nodup_append]
    exact ⟨hn, by simp, by simpa using fun a ha => ne_of_mem_of_not_mem ha hi⟩
  · exact hn

end Pmem

/-- The variables `s` stand for the tiling `T`. -/
structure Rep (s : Pmem) {N : ℕ} (T : Tiling Tag N) : Prop where
  order_le : ∀ {h k t}, T.tile h = some (k, t) → k ≤ maxOrder
  order_eq : ∀ {h k t}, T.tile h = some (k, t) → (s.pagemap h).order = k
  refcnt_ok : ∀ {h k t}, T.tile h = some (k, t) → t.Refcnt (s.pagemap h).refcnt
  listed : ∀ {k h}, h ∈ s.freeblocks k ↔ T.tile h = some (k, .free)
  nodup : ∀ k, (s.freeblocks k).Nodup

variable {t u : Tag}

namespace Rep

variable {s : Pmem} {N : ℕ} {T : Tiling Tag N}

theorem of_tiles (htile : ∀ {h k t}, T.tile h = some (k, t) →
      k ≤ maxOrder ∧ (s.pagemap h).order = k ∧ t.Refcnt (s.pagemap h).refcnt)
    (hlisted : ∀ {k h}, h ∈ s.freeblocks k ↔ T.tile h = some (k, .free))
    (hnodup : ∀ k, (s.freeblocks k).Nodup) : Rep s T :=
  ⟨fun h => (htile h).1, fun h => (htile h).2.1, fun h => (htile h).2.2, hlisted, hnodup⟩

variable {h k : ℕ}

/-- There is another block or another tag at `h`: what the new variables have to say about it and
the lists. -/
theorem setTile (R : Rep s T) {s' : Pmem} {N' : ℕ} {T' : Tiling Tag N'}
    (htile : ∀ a, T'.tile a = if a = h then some (k, u) else T.tile a) (hk : k ≤ maxOrder)
    (ho : (s'.pagemap h).order = k) (href : u.Refcnt (s'.pagemap h).refcnt)
    (hother : ∀ a, a ≠ h → s'.pagemap a = s.pagemap a)
    (hself : ∀ j, h ∈ s'.freeblocks j ↔ j = k ∧ u = .free)
    (hlist : ∀ j a, a ≠ h → (a ∈ s'.freeblocks j ↔ a ∈ s.freeblocks j))
    (hnodup : ∀ j, (s'.freeblocks j).Nodup) : Rep s' T' := by
  refine of_tiles (fun {a j v} ha => ?_) (fun {j a} => ?_) hnodup
  · rw [htile] at ha
    split at ha
    · rename_i h1; cases ha; rw [h1]; exact ⟨hk, ho, href⟩
    · rename_i h1; rw [hother a h1]; exact ⟨R.order_le ha, R.order_eq ha, R.refcnt_ok ha⟩
  · rw [htile]
    split
    · rename_i h1; subst h1; simp [hself, eq_comm]
    · rename_i h1; rw [hlist j a h1, R.listed]

theorem unlink (R : Rep s T) (hh : T.tile h = some (k, .free)) :
    Rep (s.unlink h) (T.retag hh .held) := by
  have hzero : (s.pagemap h).refcnt = 0 := R.refcnt_ok hh
  refine R.setTile (T.retag_tile hh _) (R.order_le hh) (R.order_eq hh) hzero (fun _ _ => rfl) ?_ ?_
    (fun j => (R.nodup j).erase h)
  · intro j
    simp [Pmem.unlink, (R.nodup j).mem_erase_iff]
  · intro j a hne
    simp [Pmem.unlink, (R.nodup j).mem_erase_iff, hne]

theorem push (R : Rep s T) (hh : T.tile h = some (k, .held)) :
    Rep (s.push k h) (T.retag hh .free) := by
  have hzero : (s.pagemap h).refcnt = 0 := R.refcnt_ok hh
  have hout : ∀ j, h ∉ s.freeblocks j := by
    intro j hj
    rw [R.listed, hh] at hj
    cases hj
  refine R.setTile (T.retag_tile hh _) (R.order_le hh) (R.order_eq hh) hzero (fun _ _ => rfl) ?_ ?_
    (fun j => Pmem.nodup_push (R.nodup j) (hout k))
  · intro j
    simp [Pmem.mem_push, hout]
  · intro j a hne
    simp [Pmem.mem_push, hne]

theorem setRefcnt (R : Rep s T) (hh : T.tile h = some (k, t)) (ht : t ≠ .free) (hu : u ≠ .free)
    {r : Int} (hr : u.Refcnt r) : Rep (s.setRefcnt h r) (T.retag hh u) := by
  refine R.setTile (T.retag_tile hh u) (R.order_le hh) (Pmem.setRefcnt_order.trans (R.order_eq hh))
    (by simpa using hr) ?_ ?_ (fun _ _ _ => Iff.rfl) R.nodup
  · intro a hne
    exact Function.update_of_ne hne ..
  · intro j
    simp [R.listed, hh, ht, hu]

/-- A held block is split, and its upper half is put on the list one order down. -/
theorem split (R : Rep s T) (hh : T.tile h = some (k + 1, .held)) :
    Rep ((((s.setOrder h k).setOrder (h + 2 ^ k) k).setRefcnt (h + 2 ^ k) 0).push k (h + 2 ^ k))
      (T.split hh .held .free) := by
  have hnone := T.upper_eq_none hh
  refine of_tiles (fun {a j t} ha => ?_) (fun {j a} => ?_) fun j => ?_
  · rw [Tiling.split_tile] at ha
    simp only [Pmem.push_pagemap, Pmem.setRefcnt_order, Pmem.setOrder_order, Pmem.setRefcnt_refcnt,
      Pmem.setOrder_refcnt]
    have hk := R.order_le hh
    split at ha
    · rename_i h1; cases ha; rw [if_pos h1, if_pos h1]; exact ⟨by omega, rfl, rfl⟩
    · rename_i h1
      rw [if_neg h1, if_neg h1]
      split at ha
      · rename_i h2; cases ha; rw [if_pos h2, h2]; exact ⟨by omega, rfl, R.refcnt_ok hh⟩
      · rename_i h2; rw [if_neg h2]; exact ⟨R.order_le ha, R.order_eq ha, R.refcnt_ok ha⟩
  · rw [Tiling.split_tile, Pmem.mem_push, Pmem.setRefcnt_freeblocks, Pmem.setOrder_freeblocks,
      Pmem.setOrder_freeblocks, R.listed]
    split
    · rename_i h1; subst h1; simp [hnone, eq_comm]
    · rename_i h1
      split
      · rename_i h2; subst h2; simp [hh]
      · simp [h1]
  · refine Pmem.nodup_push (R.nodup j) ?_
    rw [Pmem.setRefcnt_freeblocks, Pmem.setOrder_freeblocks, Pmem.setOrder_freeblocks, R.listed,
      hnone]
    simp

theorem join (R : Rep s T) (hal : 2 ^ (k + 1) ∣ h) (hk : k < maxOrder)
    (hlo : T.tile h = some (k, .held)) (hhi : T.tile (h + 2 ^ k) = some (k, .held)) :
    Rep (s.setOrder h (k + 1)) (T.join hal hlo hhi .held) := by
  refine of_tiles (fun {a j t} ha => ?_) (fun {j a} => ?_) R.nodup
  · rw [Tiling.join_tile] at ha
    rw [Pmem.setOrder_order, Pmem.setOrder_refcnt]
    split at ha
    · rename_i h1; cases ha; rw [if_pos h1, h1]; exact ⟨hk, rfl, R.refcnt_ok hlo⟩
    · rename_i h1
      rw [if_neg h1]
      split at ha
      · cases ha
      · exact ⟨R.order_le ha, R.order_eq ha, R.refcnt_ok ha⟩
  · rw [Tiling.join_tile, Pmem.setOrder_freeblocks, R.listed]
    split
    · rename_i h1; subst h1; simp [hlo]
    · split
      · rename_i h2; subst h2; simp [hhi]
      · exact Iff.rfl

end Rep

/-! ## Relations between tilings -/

section Relations

variable {N : ℕ} {T T' T'' : Tiling Tag N} {h k : ℕ}

/-- The blocks that are live or reserved are the same. -/
def SameFixed (T T' : Tiling Tag N) : Prop :=
  ∀ h k t, t = .live ∨ t = .reserved → (T'.tile h = some (k, t) ↔ T.tile h = some (k, t))

/-- No block is held. -/
def NoHeld (T : Tiling Tag N) : Prop := ∀ h k, T.tile h ≠ some (k, .held)

/-- No block but the one at `p` is held. -/
def OnlyHeld (T : Tiling Tag N) (p : ℕ) : Prop := ∀ h k, T.tile h = some (k, .held) → h = p

/-- No two buddies below the largest order are both free. -/
def Apart (T : Tiling Tag N) : Prop :=
  ∀ k h, k < maxOrder → T.tile h = some (k, .free) → T.tile (buddy k h) ≠ some (k, .free)

theorem SameFixed.refl (T : Tiling Tag N) : SameFixed T T := fun _ _ _ _ => Iff.rfl

theorem SameFixed.trans (h1 : SameFixed T T') (h2 : SameFixed T' T'') : SameFixed T T'' :=
  fun h k t ht => (h2 h k t ht).trans (h1 h k t ht)

theorem SameFixed.retag (hh : T.tile h = some (k, t)) (ht : t = .free ∨ t = .held)
    (hu : u = .free ∨ u = .held) : SameFixed T (T.retag hh u) := by
  intro a j v hv
  rw [Tiling.retag_tile]
  split
  · rename_i h1
    subst h1
    rw [hh]
    rcases ht with rfl | rfl <;> rcases hu with rfl | rfl <;> rcases hv with rfl | rfl <;> simp
  · exact Iff.rfl

theorem SameFixed.split (hh : T.tile h = some (k + 1, .held)) :
    SameFixed T (T.split hh .held .free) := by
  have hnone := T.upper_eq_none hh
  intro a j v hv
  rw [Tiling.split_tile]
  split
  · rename_i h1
    subst h1
    rw [hnone]
    rcases hv with rfl | rfl <;> simp
  · split
    · rename_i h2
      subst h2
      rw [hh]
      rcases hv with rfl | rfl <;> simp
    · exact Iff.rfl

theorem SameFixed.join (hal : 2 ^ (k + 1) ∣ h) (hlo : T.tile h = some (k, .held))
    (hhi : T.tile (h + 2 ^ k) = some (k, .held)) : SameFixed T (T.join hal hlo hhi .held) := by
  intro a j v hv
  rw [Tiling.join_tile]
  split
  · rename_i h1
    subst h1
    rw [hlo]
    rcases hv with rfl | rfl <;> simp
  · split
    · rename_i h2
      subst h2
      rw [hhi]
      rcases hv with rfl | rfl <;> simp
    · exact Iff.rfl

theorem Apart.of_subset {M : ℕ} {T' : Tiling Tag M} (hT : Apart T)
    (hsub : ∀ a j, T'.tile a = some (j, .free) → T.tile a = some (j, .free)) : Apart T' :=
  fun k a hk ha hb => hT k a hk (hsub a k ha) (hsub _ k hb)

theorem Apart.retag (hT : Apart T) (hh : T.tile h = some (k, t)) (hu : u ≠ .free) :
    Apart (T.retag hh u) := by
  refine hT.of_subset ?_
  intro a j ha
  rw [Tiling.retag_tile] at ha
  split at ha
  · cases ha; exact absurd rfl hu
  · exact ha

theorem Apart.insert {M x : ℕ} {T' : Tiling Tag M} (hT : Apart T) (hal : 2 ^ k ∣ x)
    (hnew : ∀ a j, T'.tile a = some (j, .free) → a = x ∧ j = k ∨ T.tile a = some (j, .free))
    (hb : k < maxOrder → T.tile (buddy k x) ≠ some (k, .free)) : Apart T' := by
  intro j a hj ha hba
  rcases hnew a j ha with ⟨rfl, rfl⟩ | ha
  · rcases hnew _ j hba with ⟨h1, -⟩ | hba
    · exact buddy_ne hal h1
    · exact hb hj hba
  · rcases hnew _ j hba with ⟨h1, rfl⟩ | hba
    · refine hb hj ?_
      rw [← h1, buddy_buddy (T.aligned ha)]
      exact ha
    · exact hT j a hj ha hba

theorem Apart.retag_free (hT : Apart T) (hh : T.tile h = some (k, .held))
    (hb : k < maxOrder → T.tile (buddy k h) ≠ some (k, .free)) : Apart (T.retag hh .free) := by
  refine hT.insert (T.aligned hh) (fun a j ha => ?_) hb
  rw [Tiling.retag_tile] at ha
  split at ha
  · rename_i h1; cases ha; exact .inl ⟨h1, rfl⟩
  · exact .inr ha

theorem Apart.split (hT : Apart T) (hh : T.tile h = some (k + 1, .held)) :
    Apart (T.split hh .held .free) := by
  have hal := dvd_of_le (Nat.le_succ k) (T.aligned hh)
  have hbud : buddy k (h + 2 ^ k) = h := by
    rw [← buddy_of_aligned (T.aligned hh), buddy_buddy hal]
  refine hT.insert (Nat.dvd_add hal dvd_rfl) (fun a j ha => ?_) fun _ hb => ?_
  · rw [Tiling.split_tile] at ha
    split at ha
    · rename_i h1; cases ha; exact .inl ⟨h1, rfl⟩
    · split at ha
      · cases ha
      · exact .inr ha
  · rw [hbud, hh] at hb
    cases hb

theorem Apart.join (hT : Apart T) (hal : 2 ^ (k + 1) ∣ h) (hlo : T.tile h = some (k, .held))
    (hhi : T.tile (h + 2 ^ k) = some (k, .held)) : Apart (T.join hal hlo hhi .held) := by
  refine hT.of_subset ?_
  intro a j ha
  rw [Tiling.join_tile] at ha
  split at ha
  · cases ha
  · split at ha
    · cases ha
    · exact ha

end Relations

end Osv
