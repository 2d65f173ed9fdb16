import Osv.Pmem.Init

/-!
# Runs of the buddy allocator

A run starts at the end of `pmem_init` and makes any calls on blocks that are
live.  The world carries, beside the variables of `pmem.c`, what the callers
hold: the pages they were given at boot and the heads of the blocks they were
given since.

Every page has one owner in every world of a run, and no call traps
(`World.reachable_wellFormed`).  The free lists are the coalesced cover of the
free pages, so they do not depend on how the run got there
(`free_lists_canonical`).
-/

namespace Osv

open Dyadic

/-- The allocator with what its callers hold. -/
structure World where
  pm : Pmem
  /-- Pages handed out at boot and not given back. -/
  boot : Finset ℕ
  /-- Heads of the blocks handed out since `pmem_init` and not given back. -/
  since : Finset ℕ

/-- A call of the buddy allocator. -/
inductive Op where
  | nalloc (n : ℕ)
  | nfree (paddr n : ℕ)
  | incRefcnt (paddr : ℕ) (n : Int)
  | decRefcnt (paddr : ℕ)

namespace World

/-- The heads of the live blocks. -/
def live (w : World) : Finset ℕ := w.boot ∪ w.since

/-- The block at `p` is given back. -/
def release (w : World) (pm : Pmem) (p : ℕ) : World :=
  { pm := pm, boot := w.boot.erase p, since := w.since.erase p }

/-- The block at `paddr` is handed out, if there is one. -/
def obtained (w : World) (pm : Pmem) : Option ℕ → World
  | none => { w with pm := pm }
  | some paddr => { w with pm := pm, since := insert (paddr / pgSize) w.since }

/-- Make a call. -/
def exec (w : World) : Op → Except Trap World
  | .nalloc n => (pmemNalloc n w.pm).map fun r => w.obtained r.2 r.1
  | .nfree paddr n => (pmemNfree paddr n w.pm).map fun r => w.release r.2 (paddr / pgSize)
  | .incRefcnt paddr n => (pmemIncRefcnt paddr n w.pm).map fun r => { w with pm := r.2 }
  | .decRefcnt paddr => (pmemDecRefcnt paddr w.pm).map fun r =>
    if (w.pm.pagemap (paddr / pgSize)).refcnt = 1 then w.release r.2 (paddr / pgSize)
    else { w with pm := r.2 }

end World

/-- The calls a caller may make: sizes up to a block of the largest order, frees of live blocks, and
counts on live pages. -/
def Op.Legal (w : World) : Op → Prop
  | .nalloc n => 1 ≤ n ∧ n ≤ 1024
  | .nfree paddr n => paddr / pgSize ∈ w.live ∧ 0 < n
  | .incRefcnt paddr n => paddr / pgSize ∈ w.live ∧ (w.pm.pagemap (paddr / pgSize)).order = 0 ∧
      -2 ^ 31 ≤ n ∧ n < 2 ^ 31
  | .decRefcnt paddr => paddr / pgSize ∈ w.live ∧ (w.pm.pagemap (paddr / pgSize)).order = 0

/-- A reference count that is added to stays a positive `int`. -/
def Op.Counts (w : World) : Op → Prop
  | .incRefcnt paddr n => 0 < (w.pm.pagemap (paddr / pgSize)).refcnt + n ∧
      (w.pm.pagemap (paddr / pgSize)).refcnt + n < 2 ^ 31
  | _ => True

variable {r : Option ℕ} {n : ℕ}

namespace World

/-- One call of a run. -/
def Step (w w' : World) : Prop := ∃ op : Op, op.Legal w ∧ op.Counts w ∧ w.exec op = .ok w'

/-- The world at the end of `pmem_init`. -/
def start (s : Pmem) : World := { pm := s, boot := bootLive s, since := ∅ }

/-- The worlds of all runs. -/
def Reachable (w : World) : Prop :=
  ∃ s, Started s ∧ Relation.ReflTransGen Step (start s) w

/-! ## The invariant of a run -/

/-- What a run from `s` keeps. -/
structure Inv (s : Pmem) (w : World) {N : ℕ} (T : Tiling Tag N) : Prop where
  buddy : Buddy w.pm w.live T
  fixed : w.pm.fixed = s.fixed
  boot_sub : w.boot ⊆ bootLive s
  /-- The pages handed out at boot are blocks of order 0. -/
  boot_tile : ∀ h ∈ w.boot, T.tile h = some (0, .live)
  apart : ∀ h ∈ w.boot, h ∉ w.since

variable {s : Pmem} {w w' : World} {N : ℕ} {T : Tiling Tag N}

@[simp] theorem live_pm (w : World) (pm : Pmem) : ({ w with pm := pm } : World).live = w.live := rfl

theorem mem_live {h : ℕ} : h ∈ w.live ↔ h ∈ w.boot ∨ h ∈ w.since := by
  rw [live, Finset.mem_union]

theorem Inv.start (hs : Started s) : ∃ (N : ℕ) (T : Tiling Tag N), Inv s (start s) T := by
  obtain ⟨-, N, T, B, h0⟩ := hs.buddy
  have hlive : (World.start s).live = bootLive s := by simp [World.start, live]
  refine ⟨N, T, ?_, rfl, Finset.Subset.refl _, ?_, ?_⟩
  · rw [hlive]; exact B
  · intro h hh
    obtain ⟨k, hk⟩ := B.live.mp hh
    exact h0 h k hk ▸ hk
  · intro h _
    simp [World.start]

theorem Inv.release (I : Inv s w T) {p : ℕ} {pm : Pmem} (h : Freed w.pm w.live T p pm) :
    ∃ T' : Tiling Tag N, Inv s (w.release pm p) T' := by
  obtain ⟨hfix, T', B', hexc⟩ := h
  have hlive : (w.release pm p).live = w.live.erase p := by
    rw [live, live, World.release, Finset.erase_union_distrib]
  refine ⟨T', ?_, hfix.trans I.fixed, ?_, ?_, ?_⟩
  · rw [hlive]; exact B'
  · exact (Finset.erase_subset _ _).trans I.boot_sub
  · intro h hh
    obtain ⟨hne, hb⟩ := Finset.mem_erase.mp hh
    exact (hexc h 0 hne).mpr (I.boot_tile h hb)
  · intro h hh hs
    exact I.apart h (Finset.mem_of_mem_erase hh) (Finset.mem_of_mem_erase hs)

theorem Inv.count (I : Inv s w T) {pm : Pmem} (hfix : pm.fixed = w.pm.fixed)
    (B : Buddy pm w.live T) : Inv s { w with pm := pm } T :=
  ⟨B, hfix.trans I.fixed, I.boot_sub, I.boot_tile, I.apart⟩

theorem Inv.obtained (I : Inv s w T) {pm : Pmem} (h : Allocated w.pm w.live T n r pm) :
    ∃ T' : Tiling Tag N, Inv s (w.obtained pm r) T' := by
  cases r with
  | none =>
    obtain ⟨rfl, -⟩ := h
    exact ⟨T, I⟩
  | some paddr =>
    obtain ⟨hfix, T', p, k, rfl, -, -, hnl, -, B', hexc⟩ := h
    have hp : p * pgSize / pgSize = p := Nat.mul_div_cancel p pgSize_pos
    have hlive : (w.obtained pm (some (p * pgSize))).live = insert p w.live := by
      simp only [World.obtained, live, hp, Finset.union_insert]
    refine ⟨T', ?_, hfix.trans I.fixed, I.boot_sub, ?_, ?_⟩
    · rw [hlive]; exact B'
    · intro h hh
      have hne : h ≠ p := fun heq => hnl (mem_live.mpr (.inl (heq ▸ hh)))
      exact (hexc h 0 hne).mpr (I.boot_tile h hh)
    · intro h hh hs
      simp only [World.obtained, hp, Finset.mem_insert] at hs
      rcases hs with rfl | hs
      · exact hnl (mem_live.mpr (.inl hh))
      · exact I.apart h hh hs

/-- Every legal call returns and keeps the invariant. -/
theorem Inv.exec (I : Inv s w T) {op : Op} (hl : op.Legal w) (hc : op.Counts w) :
    ∃ w', w.exec op = .ok w' ∧ ∃ T' : Tiling Tag N, Inv s w' T' := by
  cases op with
  | nalloc n =>
    obtain ⟨r, pm, hrun, hall⟩ := I.buddy.pmemNalloc hl.1 hl.2
    exact ⟨w.obtained pm r, by rw [World.exec, hrun]; rfl, I.obtained hall⟩
  | nfree paddr n =>
    obtain ⟨pm, hrun, hfreed⟩ := I.buddy.pmemNfree hl.2 hl.1
    exact ⟨w.release pm (paddr / pgSize), by rw [World.exec, hrun]; rfl, I.release hfreed⟩
  | incRefcnt paddr n =>
    obtain ⟨pm, hrun, hfix, B⟩ := I.buddy.pmemIncRefcnt hl.1 hl.2.1 hc.1 hc.2
    exact ⟨{ w with pm := pm }, by rw [World.exec, hrun]; rfl, T, I.count hfix B⟩
  | decRefcnt paddr =>
    by_cases h1 : (w.pm.pagemap (paddr / pgSize)).refcnt = 1
    · obtain ⟨pm, hrun, hfreed⟩ := I.buddy.pmemDecRefcnt_last hl.1 hl.2 h1
      refine ⟨w.release pm (paddr / pgSize), ?_, I.release hfreed⟩
      rw [World.exec, hrun, Except.map, if_pos h1]
    · obtain ⟨pm, hrun, hfix, B⟩ := I.buddy.pmemDecRefcnt_more hl.1 hl.2 h1
      refine ⟨{ w with pm := pm }, ?_, T, I.count hfix B⟩
      rw [World.exec, hrun, Except.map, if_neg h1]

theorem Inv.step (I : Inv s w T) (h : Step w w') : ∃ T' : Tiling Tag N, Inv s w' T' := by
  obtain ⟨op, hl, hc, hrun⟩ := h
  obtain ⟨w1, hrun1, hI⟩ := I.exec hl hc
  rw [hrun] at hrun1
  cases hrun1
  exact hI

theorem Inv.run (hs : Started s) (h : Relation.ReflTransGen Step (World.start s) w) :
    ∃ (N : ℕ) (T : Tiling Tag N), Inv s w T := by
  induction h with
  | refl => exact Inv.start hs
  | tail _ hstep ih =>
    obtain ⟨N, T, I⟩ := ih
    obtain ⟨T', I'⟩ := I.step hstep
    exact ⟨N, T', I'⟩

end World

/-! ## Owners of pages -/

/-- Who may have a page: a block on a free list, a live block or the reserved memory. -/
inductive Owner where
  | free (k h : ℕ)
  | live (h : ℕ)
  | reserved (h : ℕ)

/-- The owner has the page `x`. -/
def Owner.Has (w : World) (x : ℕ) : Owner → Prop
  | .free k h => h ∈ w.pm.freeblocks k ∧ x ∈ block k h
  | .live h => h ∈ w.live ∧ x ∈ block (w.pm.pagemap h).order h
  | .reserved h => h < w.pm.startPage ∧ x = h

/-- The owner that a tile with a tag stands for. -/
def Tag.owner (k a : ℕ) : Tag → Option Owner
  | .free => some (.free k a)
  | .live => some (.live a)
  | .reserved => some (.reserved a)
  | .held => none

/-- The representation invariant of the buddy allocator. -/
structure World.WellFormed (w : World) : Prop where
  /-- A listed block is listed once, aligned, of the order of its list, and has no references. -/
  free_head : ∀ k h, h ∈ w.pm.freeblocks k → k ≤ maxOrder ∧ (w.pm.freeblocks k).count h = 1 ∧
    2 ^ k ∣ h ∧ (w.pm.pagemap h).order = k ∧ (w.pm.pagemap h).refcnt = 0
  /-- A live block is aligned to its order, lies in memory and has a reference. -/
  live_head : ∀ h ∈ w.live, 2 ^ (w.pm.pagemap h).order ∣ h ∧
    h + 2 ^ (w.pm.pagemap h).order ≤ w.pm.config.pmemEnd / pgSize ∧ 1 ≤ (w.pm.pagemap h).refcnt
  /-- Every page has exactly one owner. -/
  owner : ∀ x < w.pm.config.pmemEnd / pgSize, ∃! o : Owner, o.Has w x

variable {x : ℕ}

namespace World

variable {s : Pmem} {w w' : World} {N : ℕ} {T : Tiling Tag N}

theorem Inv.owner_tile (I : Inv s w T) {o : Owner} (h : o.Has w x) :
    ∃ k a t, T.tile a = some (k, t) ∧ x ∈ block k a ∧ t.owner k a = some o := by
  cases o with
  | free k a => exact ⟨k, a, .free, I.buddy.rep.listed.mp h.1, h.2, rfl⟩
  | live a =>
    obtain ⟨k, hk⟩ := I.buddy.live.mp h.1
    exact ⟨k, a, .live, hk, I.buddy.rep.order_eq hk ▸ h.2, rfl⟩
  | reserved a =>
    obtain ⟨h1, rfl⟩ := h
    exact ⟨0, x, .reserved, I.buddy.reserved.mpr ⟨h1, rfl⟩, head_mem 0 x, rfl⟩

theorem Inv.exists_owner (I : Inv s w T) (hx : x < N) : ∃! o : Owner, o.Has w x := by
  obtain ⟨a, k, t, ha, hmem⟩ := T.cover hx
  have same : ∀ {o : Owner}, o.Has w x → t.owner k a = some o := by
    intro o ho
    obtain ⟨j, b, u, hb, hmemb, heq⟩ := I.owner_tile ho
    obtain rfl := T.disjoint ha hb hmem hmemb
    rw [ha] at hb
    cases hb
    exact heq
  cases t with
  | free =>
    exact ⟨.free k a, ⟨I.buddy.rep.listed.mpr ha, hmem⟩, fun o ho =>
      (Option.some.inj (same ho)).symm⟩
  | live =>
    refine ⟨.live a, ⟨I.buddy.live.mpr ⟨k, ha⟩, ?_⟩, fun o ho => (Option.some.inj (same ho)).symm⟩
    rw [I.buddy.rep.order_eq ha]
    exact hmem
  | reserved =>
    obtain ⟨h1, rfl⟩ := I.buddy.reserved.mp ha
    refine ⟨.reserved a, ⟨h1, ?_⟩, fun o ho => (Option.some.inj (same ho)).symm⟩
    simp only [mem_block, pow_zero] at hmem
    omega
  | held => exact absurd ha (I.buddy.noHeld a k)

theorem Inv.pages (I : Inv s w T) (hs : Started s) : N = w.pm.config.pmemEnd / pgSize := by
  obtain ⟨c1, -, -, -, c5, -⟩ := Pmem.fixed_eq I.fixed
  rw [c1, ← hs.buddy.1, ← c5, I.buddy.nPages]

theorem Inv.wellFormed (I : Inv s w T) (hs : Started s) : w.WellFormed := by
  refine ⟨?_, ?_, ?_⟩
  · intro k h hh
    have ht := I.buddy.rep.listed.mp hh
    refine ⟨I.buddy.rep.order_le ht, ?_, T.aligned ht, I.buddy.rep.order_eq ht,
      I.buddy.rep.refcnt_ok ht⟩
    exact List.count_eq_one_of_mem (I.buddy.rep.nodup k) hh
  · intro h hh
    obtain ⟨k, hk⟩ := I.buddy.live.mp hh
    rw [I.buddy.rep.order_eq hk, ← I.pages hs]
    exact ⟨T.aligned hk, T.inside hk, (I.buddy.rep.refcnt_ok hk).1⟩
  · intro x hx
    exact I.exists_owner (I.pages hs ▸ hx)

end World

/-- In every world of a run every page has one owner, every legal call returns, and a block handed
out has the pages asked for and meets no other live block. -/
theorem World.reachable_wellFormed (w : World) (hw : w.Reachable) : w.WellFormed ∧
      (∀ op : Op, op.Legal w → op.Counts w → ∃ w', w.exec op = .ok w') ∧
      ∀ n paddr s', 1 ≤ n → n ≤ 1024 → pmemNalloc n w.pm = .ok (some paddr, s') →
        ∃ h, paddr = h * pgSize ∧ n ≤ 2 ^ (s'.pagemap h).order ∧
          h + 2 ^ (s'.pagemap h).order ≤ w.pm.config.pmemEnd / pgSize ∧
          ∀ a ∈ w.live, (s'.pagemap a).order = (w.pm.pagemap a).order ∧
            ∀ x ∈ block (s'.pagemap a).order a, x ∉ block (s'.pagemap h).order h := by
  obtain ⟨s, hs, hrun⟩ := hw
  obtain ⟨N, T, I⟩ := Inv.run hs hrun
  refine ⟨I.wellFormed hs, ?_, ?_⟩
  · intro op hl hc
    obtain ⟨w', h, -⟩ := I.exec hl hc
    exact ⟨w', h⟩
  · intro n paddr s' h1 h2 hcall
    obtain ⟨r, s1, hrun1, hall⟩ := I.buddy.pmemNalloc h1 h2
    rw [hcall] at hrun1
    cases hrun1
    obtain ⟨hfix, T', p, k, rfl, hn, -, hnl, hp, B', hexc⟩ := hall
    refine ⟨p, rfl, ?_, ?_, ?_⟩
    · rw [B'.rep.order_eq hp]; exact hn
    · rw [B'.rep.order_eq hp, ← I.pages hs]; exact T'.inside hp
    · intro a ha
      obtain ⟨j, hj⟩ := I.buddy.live.mp ha
      have hne : a ≠ p := fun h => hnl (h ▸ ha)
      have hj' := (hexc a j hne).mpr hj
      rw [B'.rep.order_eq hj', B'.rep.order_eq hp]
      exact ⟨(I.buddy.rep.order_eq hj).symm, fun x hx hx' => hne (T'.disjoint hj' hp hx hx')⟩

/-! ## A small machine -/

/-- One reserved page and eight managed pages. -/
def smallConfig : PmemConfig where
  pmemStart := 4096
  pmemEnd := 36864
  start_pos := by decide
  pages_lt := by decide

/-- A small machine before boot. -/
def smallBlank : Pmem where
  config := smallConfig
  bitmap _ := false
  bitmapContigStart := 0
  bitmapEnd := 0
  pagemap _ := ⟨0, 0⟩
  nPages := 0
  pagemapInitialized := false
  freeblocks _ := []

/-- The small machine at the end of `pmem_init`: page 2 holds the page map. -/
@[irreducible] def smallStart : Pmem := pmemInit.final (pmemBootInit.final smallBlank)

theorem smallStart_started : Started smallStart := by
  refine ⟨smallBlank, _, _, Prog.run_of_result (by decide +kernel), .refl, ?_⟩
  rw [smallStart]
  exact Prog.run_of_result (by decide +kernel)

/-- On the small machine a block of two pages can be had, and all is well after it. -/
theorem wellFormed_small : ∃ w, World.Step (World.start smallStart) w ∧ w.WellFormed := by
  have h0 : (World.start smallStart).Reachable := ⟨smallStart, smallStart_started, .refl⟩
  obtain ⟨w, hw⟩ :=
    (World.reachable_wellFormed _ h0).2.1 (.nalloc 2) ⟨by decide, by decide⟩ trivial
  have hstep : World.Step (World.start smallStart) w :=
    ⟨.nalloc 2, ⟨by decide, by decide⟩, trivial, hw⟩
  exact ⟨w, hstep,
    (World.reachable_wellFormed w ⟨smallStart, smallStart_started, .single hstep⟩).1⟩

theorem World.exec_nalloc {w : World} (h : (pmemNalloc n).result w.pm = some r) :
    w.exec (.nalloc n) = .ok (w.obtained ((pmemNalloc n).final w.pm) r) := by
  rw [World.exec, Prog.run_of_result h]
  rfl

theorem World.exec_incRefcnt {w : World} {paddr : ℕ} {n : Int}
    (h : (pmemIncRefcnt paddr n).result w.pm = some ()) : w.exec (.incRefcnt paddr n) =
      .ok { w with pm := (pmemIncRefcnt paddr n).final w.pm } := by
  rw [World.exec, Prog.run_of_result h]
  rfl

/-- A legal count that runs over the `int` leaves a live page with a negative count. -/
theorem incRefcnt_breaks_wellFormed : ∃ w w' : World, w.Reachable ∧
    (Op.incRefcnt 8192 2147483647).Legal w ∧ w.exec (.incRefcnt 8192 2147483647) = .ok w' ∧
      ¬ w'.WellFormed := by
  have hlive : 2 ∈ (World.start smallStart).live := by decide +kernel
  have horder : ((World.start smallStart).pm.pagemap (8192 / pgSize)).order = 0 := by
    decide +kernel
  have hret : (pmemIncRefcnt 8192 2147483647).result (World.start smallStart).pm = some () := by
    decide +kernel
  refine ⟨World.start smallStart, _, ⟨smallStart, smallStart_started, .refl⟩,
    ⟨hlive, horder, by decide, by decide⟩, World.exec_incRefcnt hret, ?_⟩
  intro h
  have h1 := (h.live_head 2 (by rw [World.live_pm]; exact hlive)).2.2
  have h2 : ¬ 1 ≤ (((pmemIncRefcnt 8192 2147483647).final (World.start smallStart).pm).pagemap
      2).refcnt := by decide +kernel
  exact h2 h1

/-! ## The free lists are canonical -/

/-- The pages of the blocks on the free lists. -/
def freePages (s : Pmem) : Set ℕ := covered fun k h => h ∈ s.freeblocks k

section Canonical

variable {s : Pmem} {live : Finset ℕ} {N : ℕ} {T : Tiling Tag N}

theorem Buddy.coalesced (B : Buddy s live T) :
    Coalesced maxOrder fun k h => h ∈ s.freeblocks k where
  le h := B.rep.order_le (B.rep.listed.mp h)
  aligned h := T.aligned (B.rep.listed.mp h)
  disjoint := by
    intro k h j a x hh ha hxh hxa
    have hh' := B.rep.listed.mp hh
    have ha' := B.rep.listed.mp ha
    obtain rfl := T.disjoint hh' ha' hxh hxa
    rw [hh'] at ha'
    cases ha'
    exact ⟨rfl, rfl⟩
  apart := by
    intro k h hh hk hb
    exact B.apart k h hk (B.rep.listed.mp hh) (B.rep.listed.mp hb)

section

variable (B : Buddy s live T)

include B

theorem Buddy.not_free {h k x : ℕ} {t : Tag} (hh : T.tile h = some (k, t)) (hx : x ∈ block k h)
    (ht : t ≠ .free) : x ∉ freePages s := by
  rintro ⟨j, a, ha, hxa⟩
  have ha' := B.rep.listed.mp ha
  obtain rfl := T.disjoint hh ha' hx hxa
  rw [hh] at ha'
  cases ha'
  exact ht rfl

theorem Buddy.exists_block (hx : x < N) (hfree : x ∉ freePages s) :
    ∃ h k t, T.tile h = some (k, t) ∧ x ∈ block k h ∧ (t = .live ∨ t = .reserved) := by
  obtain ⟨h, k, t, hh, hmem⟩ := T.cover hx
  cases t with
  | free => exact absurd ⟨k, h, B.rep.listed.mpr hh, hmem⟩ hfree
  | held => exact absurd hh (B.noHeld h k)
  | live => exact ⟨h, k, .live, hh, hmem, .inl rfl⟩
  | reserved => exact ⟨h, k, .reserved, hh, hmem, .inr rfl⟩

theorem Buddy.freePages_lt (hx : x ∈ freePages s) : x < N := by
  obtain ⟨k, h, hh, hxh⟩ := hx
  have h1 := T.inside (B.rep.listed.mp hh)
  simp only [mem_block] at hxh
  omega

theorem Buddy.mem_freePages (h0 : ∀ h k, T.tile h = some (k, .live) → k = 0) :
    x ∈ freePages s ↔ (s.startPage ≤ x ∧ x < N) ∧ x ∉ live := by
  constructor
  · intro hx
    refine ⟨⟨?_, B.freePages_lt hx⟩, fun hl => ?_⟩
    · by_contra hlt
      exact B.not_free (B.reserved.mpr ⟨by omega, rfl⟩) (head_mem 0 x) (by simp) hx
    · obtain ⟨j, hj⟩ := B.live.mp hl
      exact B.not_free hj (head_mem j x) (by simp) hx
  · rintro ⟨⟨h1, h2⟩, h3⟩
    by_contra hnf
    obtain ⟨a, k, t, ha, hmem, rfl | rfl⟩ := B.exists_block h2 hnf
    · obtain rfl := h0 a k ha
      obtain rfl : x = a := by simp only [mem_block, pow_zero] at hmem; omega
      exact h3 (B.live.mpr ⟨0, ha⟩)
    · obtain ⟨h4, rfl⟩ := B.reserved.mp ha
      simp only [mem_block, pow_zero] at hmem
      omega

end

/-- Free blocks one after the other, each given by an address in it and a size. -/
def freeAll : List (ℕ × ℕ) → PmemM Unit
  | [] => pure ()
  | c :: rest => do
    pmemNfree c.1 c.2
    freeAll rest

/-- Freeing distinct live blocks returns and leaves the other live blocks. -/
theorem Buddy.freeAll : ∀ {l : List (ℕ × ℕ)} {s : Pmem} {live : Finset ℕ} {T : Tiling Tag N},
    Buddy s live T → (l.map fun c => c.1 / pgSize).Nodup → (∀ c ∈ l, 0 < c.2) →
      (∀ c ∈ l, c.1 / pgSize ∈ live) →
      ∃ (s' : Pmem) (T' : Tiling Tag N), Osv.freeAll l s = .ok ((), s') ∧ s'.fixed = s.fixed ∧
        Buddy s' (live \ (l.map fun c => c.1 / pgSize).toFinset) T' ∧ ∀ h k, h ∉
          l.map (fun c => c.1 / pgSize) → (T'.tile h = some (k, .live) ↔ T.tile h = some (k, .live))
  | [], s, live, T, B, _, _, _ => by
    refine ⟨s, T, rfl, rfl, ?_, fun _ _ _ => Iff.rfl⟩
    simpa using B
  | c :: rest, s, live, T, B, hnodup, hpos, hlive => by
    simp only [List.map_cons, List.nodup_cons] at hnodup
    obtain ⟨s1, hrun1, hfix1, T1, B1, hexc⟩ :=
      B.pmemNfree (hpos c List.mem_cons_self) (hlive c List.mem_cons_self)
    have hlive1 : ∀ d ∈ rest, d.1 / pgSize ∈ live.erase (c.1 / pgSize) := by
      intro d hd
      refine Finset.mem_erase.mpr ⟨?_, hlive d (List.mem_cons_of_mem _ hd)⟩
      intro heq
      exact hnodup.1 (heq ▸ List.mem_map_of_mem hd)
    obtain ⟨s2, T2, hrun2, hfix2, B2, htile⟩ :=
      Buddy.freeAll B1 hnodup.2 (fun d hd => hpos d (List.mem_cons_of_mem _ hd)) hlive1
    refine ⟨s2, T2, ?_, hfix2.trans hfix1, ?_, ?_⟩
    · rw [Osv.freeAll, Prog.bind_of_ok hrun1]
      exact hrun2
    · have heq : live \ ((c :: rest).map fun c => c.1 / pgSize).toFinset =
          live.erase (c.1 / pgSize) \ (rest.map fun c => c.1 / pgSize).toFinset := by
        ext a
        simp only [List.map_cons, List.toFinset_cons, Finset.mem_sdiff, Finset.mem_insert,
          Finset.mem_erase]
        tauto
      rw [heq]
      exact B2
    · intro h k hh
      simp only [List.map_cons, List.mem_cons, not_or] at hh
      rw [htile h k hh.2, hexc h k hh.1]

end Canonical

/-- The free lists hold no two buddies, they are determined by the free pages, and giving back every
block handed out since `pmem_init`, in any order, restores the first free lists exactly when no page
handed out at boot has been given back. -/
theorem free_lists_canonical :
    (∀ w : World, w.Reachable → ∀ k h, k < maxOrder → h ∈ w.pm.freeblocks k →
      buddy k h ∉ w.pm.freeblocks k) ∧
    (∀ w w' : World, w.Reachable → w'.Reachable → freePages w.pm = freePages w'.pm →
      ∀ k h, h ∈ w.pm.freeblocks k ↔ h ∈ w'.pm.freeblocks k) ∧
    ∀ (s : Pmem) (w : World), Started s → Relation.ReflTransGen World.Step (World.start s) w →
      ∀ l : List (ℕ × ℕ), (l.map fun c => c.1 / pgSize).Nodup → (∀ c ∈ l, 0 < c.2) →
        (∀ h, h ∈ l.map (fun c => c.1 / pgSize) ↔ h ∈ w.since) →
        ∃ s', freeAll l w.pm = .ok ((), s') ∧
          ((∀ k h, h ∈ s'.freeblocks k ↔ h ∈ s.freeblocks k) ↔ w.boot = bootLive s) := by
  refine ⟨?_, ?_, ?_⟩
  · rintro w ⟨s, hs, hrun⟩ k h hk hh
    obtain ⟨N, T, I⟩ := World.Inv.run hs hrun
    exact I.buddy.coalesced.apart hh hk
  · rintro w w' ⟨s, hs, hrun⟩ ⟨t, ht, hrun'⟩ hfree k h
    obtain ⟨N, T, I⟩ := World.Inv.run hs hrun
    obtain ⟨N', T', I'⟩ := World.Inv.run ht hrun'
    exact I.buddy.coalesced.ext I'.buddy.coalesced hfree k h
  · intro s w hs hrun l hnodup hpos hl
    obtain ⟨N, T, I⟩ := World.Inv.run hs hrun
    obtain ⟨hnp, N0, T0, B0, hzero0⟩ := hs.buddy
    obtain ⟨s', T', hfree, hfix, B', htile⟩ := I.buddy.freeAll hnodup hpos
      (fun c hc => World.mem_live.mpr (Or.inr ((hl _).mp (List.mem_map_of_mem hc))))
    refine ⟨s', hfree, ?_⟩
    have hlive : w.live \ (l.map fun c => c.1 / pgSize).toFinset = w.boot := by
      ext a
      simp only [Finset.mem_sdiff, List.mem_toFinset, hl, World.mem_live]
      have := I.apart a
      tauto
    rw [hlive] at B'
    have hzero : ∀ h k, T'.tile h = some (k, .live) → k = 0 := by
      intro h k hh
      have hb : h ∈ w.boot := B'.live.mpr ⟨k, hh⟩
      have hnl : h ∉ l.map (fun c => c.1 / pgSize) := fun hm => I.apart h hb ((hl h).mp hm)
      rw [htile h k hnl, I.boot_tile h hb] at hh
      cases hh
      rfl
    obtain ⟨c1, -, -, -, c5, -⟩ := Pmem.fixed_eq (hfix.trans I.fixed)
    have hN : N = N0 := by rw [← B'.nPages, c5, B0.nPages]
    have hpages : ∀ x, x ∈ freePages s' ↔ (s.startPage ≤ x ∧ x < N0) ∧ x ∉ w.boot := by
      intro x
      rw [B'.mem_freePages hzero, startPage_eq c1, hN]
    have hpages0 : ∀ x, x ∈ freePages s ↔ (s.startPage ≤ x ∧ x < N0) ∧ x ∉ bootLive s :=
      fun x => B0.mem_freePages hzero0
    constructor
    · intro hsame
      have hcov : freePages s' = freePages s := by
        ext x
        simp only [freePages, covered, hsame]
      refine Finset.Subset.antisymm I.boot_sub ?_
      intro h hh
      by_contra hnb
      obtain ⟨k, hk⟩ := B0.live.mp hh
      have hge : s.startPage ≤ h := (mem_bootLive.mp hh).1
      have := (hpages h).mpr ⟨⟨hge, T0.head_lt hk⟩, hnb⟩
      rw [hcov, hpages0] at this
      exact this.2 hh
    · intro hboot
      refine B'.coalesced.ext B0.coalesced (Set.ext fun x => ?_)
      exact (hpages x).trans ((hboot ▸ hpages0 x).symm)

/-- On the small machine a block of two pages is taken and given back. -/
theorem free_lists_small : ∃ w s', World.Step (World.start smallStart) w ∧
    freeAll [(16384, 2)] w.pm = .ok ((), s') ∧
      ∀ k h, h ∈ s'.freeblocks k ↔ h ∈ smallStart.freeblocks k := by
  have hcall : (pmemNalloc 2).result (World.start smallStart).pm = some (some 16384) := by
    decide +kernel
  have hstep : World.Step (World.start smallStart) _ :=
    ⟨.nalloc 2, ⟨by decide, by decide⟩, trivial, World.exec_nalloc hcall⟩
  obtain ⟨s', hfree, hiff⟩ := free_lists_canonical.2.2 smallStart _ smallStart_started
    (.single hstep) [(16384, 2)] (by simp) (by simp) (by simp [World.obtained, World.start])
  exact ⟨_, s', hstep, hfree, hiff.mpr rfl⟩

/-! ## Allocating takes free pages -/

/-- The allocator between two calls. -/
def Pmem.Ready (s : Pmem) : Prop :=
  s.nPages < 2 ^ 31 ∧ ∃ (live : Finset ℕ) (N : ℕ) (T : Tiling Tag N), Buddy s live T

theorem World.Reachable.ready {w : World} (h : w.Reachable) : w.pm.Ready := by
  obtain ⟨s, hs, hrun⟩ := h
  obtain ⟨N, T, I⟩ := Inv.run hs hrun
  obtain ⟨-, -, -, -, hnp, -⟩ := Pmem.fixed_eq I.fixed
  refine ⟨?_, w.live, N, T, I.buddy⟩
  rw [hnp, hs.buddy.1]
  exact s.config.pages_lt

section Taking

variable {s s' : Pmem} {live : Finset ℕ} {N : ℕ} {T T' : Tiling Tag N}

section

variable (B : Buddy s live T)

include B

section

variable {p k : ℕ} (hfix : s'.fixed = s.fixed) (hp : p ∉ live) (htile : T'.tile p = some (k, .live))
variable (B' : Buddy s' (insert p live) T') (hexc : LiveExcept T T' p)

include hfix hp htile B' hexc

/-- Handing out a block takes its pages from the free ones and leaves the others. -/
theorem Buddy.handOut_pages : block k p ⊆ freePages s ∧ freePages s' = freePages s \ block k p := by
  have hstart : s'.startPage = s.startPage := startPage_eq (Pmem.fixed_eq hfix).1
  have hkeep : ∀ {h j t}, (t = .live ∨ t = .reserved) → h ≠ p →
      (T'.tile h = some (j, t) ↔ T.tile h = some (j, t)) := by
    intro h j t ht hne
    rcases ht with rfl | rfl
    · exact hexc h j hne
    · rw [B'.reserved, B.reserved, hstart]
  have hne : ∀ {h j t}, T.tile h = some (j, t) → (t = .live ∨ t = .reserved) → h ≠ p := by
    rintro h j t hh ht rfl
    rcases ht with rfl | rfl
    · exact hp (B.live.mpr ⟨j, hh⟩)
    · have h1 := B.reserved.mp hh
      rw [← hstart] at h1
      have h2 := B'.reserved.mpr h1
      rw [htile] at h2
      cases h2
  have hfree : ∀ {t : Tag}, (t = .live ∨ t = .reserved) → t ≠ .free := by
    rintro t (rfl | rfl) <;> simp
  refine ⟨fun x hx => ?_, Set.ext fun x => ⟨fun hx => ⟨?_, fun hxp => ?_⟩, fun ⟨hx, hxp⟩ => ?_⟩⟩
  · by_contra hnf
    obtain ⟨h, j, t, hh, hmem, ht⟩ := B.exists_block (Nat.lt_of_lt_of_le hx.2 (T'.inside htile)) hnf
    exact hne hh ht (T'.disjoint ((hkeep ht (hne hh ht)).mpr hh) htile hmem hx)
  · by_contra hnf
    obtain ⟨h, j, t, hh, hmem, ht⟩ := B.exists_block (B'.freePages_lt hx) hnf
    exact B'.not_free ((hkeep ht (hne hh ht)).mpr hh) hmem (hfree ht) hx
  · exact B'.not_free htile hxp (by simp) hx
  · by_contra hnf
    obtain ⟨h, j, t, hh, hmem, ht⟩ := B'.exists_block (B.freePages_lt hx) hnf
    rcases eq_or_ne h p with rfl | hhp
    · rw [htile] at hh
      cases hh
      exact hxp hmem
    · exact B.not_free ((hkeep ht hhp).mp hh) hmem (hfree ht) hx

theorem Buddy.handOut_free : p ∈ freePages s ∧ p ∉ freePages s' ∧ freePages s' ⊆ freePages s := by
  obtain ⟨hin, heq⟩ := B.handOut_pages hfix hp htile B' hexc
  rw [heq]
  exact ⟨hin (head_mem k p), fun h => h.2 (head_mem k p), Set.sdiff_subset⟩

end

section

variable {p k : ℕ} (hfix : s'.fixed = s.fixed) (htile : T.tile p = some (k, .live))
variable (B' : Buddy s' (live.erase p) T') (hexc : LiveExcept T T' p)

include hfix htile B' hexc

theorem Buddy.giveBack_free (hx : x ∈ freePages s') : x ∈ freePages s ∨ x ∈ block k p := by
  have hstart : s'.startPage = s.startPage := startPage_eq (Pmem.fixed_eq hfix).1
  by_contra hcon
  obtain ⟨hnf, hnp⟩ := not_or.mp hcon
  obtain ⟨h, j, t, hh, hmem, ht⟩ := B.exists_block (B'.freePages_lt hx) hnf
  rcases ht with rfl | rfl
  · have hne : h ≠ p := by
      rintro rfl
      rw [hh] at htile
      cases htile
      exact hnp hmem
    exact B'.not_free ((hexc h j hne).mpr hh) hmem (by simp) hx
  · have h1 := B.reserved.mp hh
    rw [← hstart] at h1
    exact B'.not_free (B'.reserved.mpr h1) hmem (by simp) hx

theorem Buddy.giveBack_pages : freePages s' = freePages s ∪ block k p := by
  have hstart : s'.startPage = s.startPage := startPage_eq (Pmem.fixed_eq hfix).1
  refine Set.Subset.antisymm (fun x hx => B.giveBack_free hfix htile B' hexc hx) fun x hx => ?_
  have hxN : x < N := hx.elim (fun h => B.freePages_lt h) fun h =>
    Nat.lt_of_lt_of_le h.2 (T.inside htile)
  by_contra hnf
  obtain ⟨h, j, t, hh, hmem, ht⟩ := B'.exists_block hxN hnf
  have hold : T.tile h = some (j, t) ∧ h ≠ p := by
    rcases ht with rfl | rfl
    · have hne : h ≠ p := by
        rintro rfl
        exact Finset.notMem_erase h live (B'.live.mpr ⟨j, hh⟩)
      exact ⟨(hexc h j hne).mp hh, hne⟩
    · have h1 := B'.reserved.mp hh
      rw [hstart] at h1
      have h2 := B.reserved.mpr h1
      refine ⟨h2, ?_⟩
      rintro rfl
      rw [h2] at htile
      cases htile
  rcases hx with hx | hx
  · exact B.not_free hold.1 hmem (by rcases ht with rfl | rfl <;> simp) hx
  · exact hold.2 (T.disjoint hold.1 htile hmem hx)

end

end

end Taking

/-- The allocator between two calls, when the pages of `H` are allocated one by one. -/
def Pmem.Holding (s : Pmem) (H : Set ℕ) : Prop :=
  s.nPages < 2 ^ 31 ∧ ∃ (live : Finset ℕ) (N : ℕ) (T : Tiling Tag N), Buddy s live T ∧
    ∀ g ∈ H, T.tile g = some (0, .live)

variable {s : Pmem}

theorem Pmem.ready_iff_holding : s.Ready ↔ s.Holding ∅ := by
  simp [Pmem.Ready, Pmem.Holding]

variable {H : Set ℕ}

theorem Pmem.Holding.ready (R : s.Holding H) : s.Ready := by
  obtain ⟨hlt, live, N, T, B, -⟩ := R
  exact ⟨hlt, live, N, T, B⟩

theorem Pmem.Holding.mono {H' : Set ℕ} (R : s.Holding H) (h : H' ⊆ H) : s.Holding H' := by
  obtain ⟨hlt, live, N, T, B, hH⟩ := R
  exact ⟨hlt, live, N, T, B, fun g hg => hH g (h hg)⟩

theorem Pmem.Holding.not_free (R : s.Holding H) {g : ℕ} (hg : g ∈ H) : g ∉ freePages s := by
  obtain ⟨-, live, N, T, B, hH⟩ := R
  exact B.not_free (hH g hg) (head_mem 0 g) (by simp)

/-- `pmem_nalloc` leaves the pages that are held, and holds a single page it hands out. -/
theorem Pmem.Holding.pmemNalloc {s' : Pmem} (R : s.Holding H) (h1 : 1 ≤ n) (h2 : n ≤ 1024)
    (hrun : Osv.pmemNalloc n s = .ok (r, s')) :
    s'.Holding H ∧ ∀ paddr, r = some paddr → n = 1 → s'.Holding (insert (paddr / pgSize) H) := by
  obtain ⟨hlt, live, N, T, B, hH⟩ := R
  obtain ⟨r', s1, hrun', hall⟩ := B.pmemNalloc h1 h2
  rw [hrun] at hrun'
  cases hrun'
  cases r with
  | none =>
    obtain ⟨rfl, -⟩ := hall
    exact ⟨⟨hlt, live, N, T, B, hH⟩, fun _ h => nomatch h⟩
  | some paddr =>
    obtain ⟨hfix, T', p, k, rfl, -, hleast, hp, htile, B', hexc⟩ := hall
    have hnp : s'.nPages < 2 ^ 31 := by rw [(Pmem.fixed_eq hfix).2.2.2.2.1]; exact hlt
    have hold : ∀ g ∈ H, T'.tile g = some (0, .live) := by
      intro g hg
      have hne : g ≠ p := fun h => hp (h ▸ B.live.mpr ⟨0, hH g hg⟩)
      exact (hexc g 0 hne).mpr (hH g hg)
    refine ⟨⟨hnp, _, N, T', B', hold⟩, ?_⟩
    rintro paddr ⟨⟩ rfl
    have hk : k = 0 := by
      by_contra hk
      exact absurd (hleast 0 (by omega)) (by simp)
    subst hk
    refine ⟨hnp, _, N, T', B', fun g hg => ?_⟩
    rcases hg with rfl | hg
    · rw [mul_pgSize_div]
      exact htile
    · exact hold g hg

theorem block_zero (p : ℕ) : block 0 p = {p} := by
  ext x
  simp only [mem_block, pow_zero, Set.mem_singleton_iff]
  omega

/-- A page that `pmem_alloc` hands out is held, and the other pages stay as they are. -/
theorem Pmem.Holding.pmemAlloc {s' : Pmem} (R : s.Holding H) {paddr : ℕ}
    (hrun : Osv.pmemAlloc s = .ok (some paddr, s')) :
    ∃ g, paddr = g * pgSize ∧ g ∈ freePages s ∧ s'.Holding (insert g H) ∧
      freePages s' = freePages s \ {g} := by
  have hH := (R.pmemNalloc (n := 1) le_rfl (by decide) hrun).2 paddr rfl rfl
  obtain ⟨-, live, N, T, B, -⟩ := R
  obtain ⟨r', s1, hrun', hall⟩ := B.pmemNalloc (n := 1) le_rfl (by decide)
  rw [Osv.pmemAlloc, hrun'] at hrun
  cases hrun
  obtain ⟨hfix, T', p, k, rfl, -, hleast, hp, htile, B', hexc⟩ := hall
  have hk : k = 0 := by
    by_contra hk
    exact absurd (hleast 0 (by omega)) (by simp)
  subst hk
  obtain ⟨hin, heq⟩ := B.handOut_pages hfix hp htile B' hexc
  rw [mul_pgSize_div] at hH
  rw [block_zero] at heq
  exact ⟨p, rfl, hin (head_mem 0 p), hH, heq⟩

/-- `pmem_free` of a page that is held makes that page free, and no other. -/
theorem Pmem.Holding.pmemFree {s' : Pmem} {g : ℕ} (R : s.Holding (insert g H)) (hg : g ∉ H)
    (hrun : Osv.pmemFree (g * pgSize) s = .ok ((), s')) :
    s'.Holding H ∧ freePages s' = insert g (freePages s) := by
  obtain ⟨hlt, live, N, T, B, hT⟩ := R
  have htile := hT g (Set.mem_insert g H)
  have hpg := mul_pgSize_div g
  obtain ⟨s1, hrun1, hfix, T', B', hexc⟩ := B.pmemNfree Nat.one_pos
      (hpg.symm ▸ B.live.mpr ⟨0, htile⟩)
  rw [Osv.pmemFree, hrun1] at hrun
  cases hrun
  rw [hpg] at B' hexc
  have heq := B.giveBack_pages hfix htile B' hexc
  rw [block_zero, Set.union_singleton] at heq
  refine ⟨⟨?_, _, N, T', B', fun x hx => ?_⟩, heq⟩
  · rw [(Pmem.fixed_eq hfix).2.2.2.2.1]
    exact hlt
  · have hne : x ≠ g := fun h => hg (h ▸ hx)
    exact (hexc x 0 hne).mpr (hT x (Set.mem_insert_of_mem g hx))

/-- `pmem_nalloc` returns.  If it hands out a block, the block's first page was free, and no page
becomes free. -/
theorem Pmem.Ready.pmemNalloc (R : s.Ready) (h1 : 1 ≤ n) (h2 : n ≤ 1024) :
    ∃ r s', Osv.pmemNalloc n s = .ok (r, s') ∧ s'.Ready ∧
      freePages s' ⊆ freePages s ∧ (r = none → s' = s)
      ∧ ∀ paddr, r = some paddr → ∃ g, paddr = g * pgSize ∧ g < 2 ^ 31 ∧ 0 < g ∧
        g ∈ freePages s ∧ g ∉ freePages s' := by
  obtain ⟨hlt, live, N, T, B⟩ := R
  obtain ⟨r, s', hrun, hall⟩ := B.pmemNalloc h1 h2
  refine ⟨r, s', hrun, ?_⟩
  cases r with
  | none =>
    obtain ⟨rfl, -⟩ := hall
    exact ⟨⟨hlt, live, N, T, B⟩, subset_rfl, fun _ => rfl, fun _ h => nomatch h⟩
  | some paddr =>
    obtain ⟨hfix, T', p, k, rfl, -, -, hp, htile, B', hexc⟩ := hall
    obtain ⟨hin, hout, hsub⟩ := B.handOut_free hfix hp htile B' hexc
    have hnp : s'.nPages < 2 ^ 31 := by rw [(Pmem.fixed_eq hfix).2.2.2.2.1]; exact hlt
    refine ⟨⟨hnp, _, N, T', B'⟩, hsub, by simp, ?_⟩
    rintro paddr ⟨⟩
    refine ⟨p, rfl, ?_, ?_, hin, hout⟩
    · have hpN := T'.head_lt htile
      rw [← B'.nPages] at hpN
      exact hpN.trans hnp
    · rcases Nat.eq_zero_or_pos p with rfl | hpos
      · have h0 := B'.reserved.mpr ⟨B'.start_pos, rfl⟩
        rw [htile] at h0
        cases h0
      · exact hpos

end Osv
