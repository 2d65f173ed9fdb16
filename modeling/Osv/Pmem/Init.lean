import Mathlib.Logic.Relation
import Mathlib.Data.Finset.Image
import Osv.Pmem.Calls

/-!
# From the boot allocator to the buddy allocator

`pmem_init` walks over the bitmap and lays the pages down from the left: a page
that was handed out becomes a live block of order 0, and a run of clear bits is
cut into the largest blocks that fit.  The walk establishes `Buddy`, whatever
the boot allocator did before.

The greedy cut leaves no two free buddies inside one run, and two runs are kept
apart by a page that was handed out.  The last run is the memory the boot
allocator has not reached.  It meets no run before it, because the bit below
`bitmap_contig_start` is always set, and that is the invariant `BootReady` of the
boot allocator.
-/

namespace Osv

open Prog (bind_of_ok bind_ok read_bind update_bind)

open Dyadic

/-! ## The boot allocator -/

/-- A loop that turns bits to `b`, each of which must have been the other way. -/
theorem setBits_iff {b : Bool} {loop : ℕ → ℕ → PmemM Unit} (h0 : ∀ i, loop i 0 = pure ())
    (hs : ∀ {i n s r}, loop i (n + 1) s = .ok r ↔ s.bitmap i = !b ∧ loop (i + 1)
    n (s.setBit i b) = .ok r) : ∀ {n i : ℕ} {s s' : Pmem}, loop i n s = .ok ((), s') ↔
      (∀ j, i ≤ j → j < i + n → s.bitmap j = !b) ∧
        s' = { s with bitmap := fun j => if i ≤ j ∧ j < i + n then b else s.bitmap j }
  | 0, i, s, s' => by
    have hsame : (fun j => if i ≤ j ∧ j < i + 0 then b else s.bitmap j) = s.bitmap := by
      funext j
      rw [if_neg (by omega)]
    rw [h0, hsame, and_iff_right fun j h1 h2 => absurd h2 (by omega)]
    exact ⟨fun h => by cases h; rfl, fun h => by rw [h]; rfl⟩
  | n + 1, i, s, s' => by
    have hbits : (fun j => if i + 1 ≤ j ∧ j < i + 1 + n then b else (s.setBit i b).bitmap j) =
        fun j => if i ≤ j ∧ j < i + (n + 1) then b else s.bitmap j := by
      funext j
      simp only [Pmem.setBit, Function.update_apply]
      split_ifs <;> first | rfl | omega
    rw [hs, setBits_iff h0 hs, hbits, ← and_assoc]
    refine and_congr_left fun _ =>
      ⟨fun ⟨hi, h⟩ j h1 h2 => ?_, fun h => ⟨h i le_rfl (by omega), fun j h1 h2 => ?_⟩⟩
    · by_cases hj : j = i
      · rw [hj, hi]
      · rw [← h j (by omega) (by omega)]
        exact (Function.update_of_ne hj ..).symm
    · exact (Function.update_of_ne (by omega) ..).trans (h j (by omega) (by omega))

theorem bitmapAllocLoop_iff {n i : ℕ} {s s' : Pmem} : bitmapAllocLoop i n s = .ok ((), s') ↔
    (∀ j, i ≤ j → j < i + n → s.bitmap j = false) ∧
      s' = { s with bitmap := fun j => if i ≤ j ∧ j < i + n then true else s.bitmap j } :=
  @setBits_iff true bitmapAllocLoop (fun _ => rfl)
    (by simp [bitmapAllocLoop, kassert_bind_ok, update_bind]) ..

theorem bitmapFreeLoop_iff {n i : ℕ} {s s' : Pmem} : bitmapFreeLoop i n s = .ok ((), s') ↔
    (∀ j, i ≤ j → j < i + n → s.bitmap j = true) ∧
      s' = { s with bitmap := fun j => if i ≤ j ∧ j < i + n then false else s.bitmap j } :=
  @setBits_iff false bitmapFreeLoop (fun _ => rfl)
    (by simp [bitmapFreeLoop, kassert_bind_ok, update_bind]) ..

theorem bitmapScan_spec (bits : ℕ → Bool) : ∀ i, bitmapScan bits i ≤ i ∧
    (bitmapScan bits i = 0 ∨ bits (bitmapScan bits i - 1) = true)
  | 0 => ⟨le_refl 0, .inl rfl⟩
  | i + 1 => by
    rw [bitmapScan]
    split
    · rename_i h
      exact ⟨le_refl _, .inr (by simpa using h)⟩
    · obtain ⟨h1, h2⟩ := bitmapScan_spec bits i
      exact ⟨Nat.le_succ_of_le h1, h2⟩

/-- What the boot allocator keeps. -/
structure BootReady (s : Pmem) : Prop where
  start_lt : s.config.pmemStart < s.config.pmemEnd
  start_aligned : pgSize ∣ s.config.pmemStart
  end_aligned : pgSize ∣ s.config.pmemEnd
  end_eq : s.bitmapEnd = (s.config.pmemEnd - s.config.pmemStart) / pgSize
  contig_le : s.bitmapContigStart ≤ s.bitmapEnd
  /-- The page below the untouched memory is handed out. -/
  contig_set : s.bitmapContigStart = 0 ∨ s.bitmap (s.bitmapContigStart - 1) = true
  off : s.pagemapInitialized = false

variable {s : Pmem} {s' : Pmem} {u : Unit} {index n : ℕ}

theorem bitmapAlloc_contig (h : bitmapAlloc index n s = .ok (u, s')) (hn : 0 < n)
    (hle : s.bitmapContigStart ≤ s.bitmapEnd)
    (hset : s.bitmapContigStart = 0 ∨ s.bitmap (s.bitmapContigStart - 1) = true) :
    s'.config = s.config ∧ s'.bitmapEnd = s.bitmapEnd ∧
      s'.pagemapInitialized = s.pagemapInitialized ∧ s'.bitmapContigStart ≤ s'.bitmapEnd ∧
      (s'.bitmapContigStart = 0 ∨ s'.bitmap (s'.bitmapContigStart - 1) = true) := by
  rw [bitmapAlloc, kassert_bind_ok] at h
  obtain ⟨hend, h⟩ := h
  obtain ⟨_, s1, h1, h2⟩ := bind_ok.mp h
  cases h2
  rw [(bitmapAllocLoop_iff.mp h1).2]
  simp only [decide_eq_true_eq] at hend
  refine ⟨rfl, rfl, rfl, Nat.max_le.mpr ⟨hle, hend⟩, ?_⟩
  simp only
  by_cases hmax : s.bitmapContigStart < index + n
  · rw [Nat.max_eq_right (Nat.le_of_lt hmax)]
    right
    rw [if_pos (by omega)]
  · rw [Nat.max_eq_left (Nat.le_of_not_lt hmax)]
    rcases hset with h0 | hset
    · exact .inl h0
    · right
      split
      · rfl
      · exact hset

theorem BootReady.bitmapFree (B : BootReady s) (h : Osv.bitmapFree index n s = .ok (u, s'))
    (hn : 0 < n) : BootReady s' ∧ s'.config = s.config ∧ s'.nPages = s.nPages := by
  rw [Osv.bitmapFree, kassert_bind_ok, kassert_bind_ok] at h
  obtain ⟨hend, hcontig, h⟩ := h
  obtain ⟨_, s1, h1, h2⟩ := bind_ok.mp h
  rw [(bitmapFreeLoop_iff.mp h1).2] at h2
  cases h2
  simp only [decide_eq_true_eq] at hend hcontig ⊢
  split
  · obtain ⟨hle, hset⟩ :=
      bitmapScan_spec (fun j => if index ≤ j ∧ j < index + n then false else s.bitmap j) index
    refine ⟨{ B with contig_le := ?_, contig_set := hset }, rfl, rfl⟩
    simp only
    omega
  · rename_i hne
    refine ⟨{ B with contig_set := ?_ }, rfl, rfl⟩
    simp only at hne ⊢
    rcases B.contig_set with h0 | hset
    · exact .inl h0
    · right
      rw [if_neg (by omega)]
      exact hset

theorem bitmapAlloc_run (hroom : index + n ≤ s.bitmapEnd)
    (hclear : ∀ j, index ≤ j → j < index + n → s.bitmap j = false) :
    bitmapAlloc index n s = .ok ((), { s with
      bitmap := fun j => if index ≤ j ∧ j < index + n then true else s.bitmap j
      bitmapContigStart := max s.bitmapContigStart (index + n) }) := by
  rw [bitmapAlloc, kassert_bind (by simpa using hroom), bind_of_ok
    (bitmapAllocLoop_iff.mpr ⟨hclear, rfl⟩)]
  rfl

theorem bitmapFind_run {n : ℕ} (hn : 0 < n) :
    bitmapFind n s = .ok (bitmapFindLoop s.bitmap n s.bitmapEnd 0 0 0, s) := by
  rw [bitmapFind, kassert_bind (by simpa using hn), Prog.reads_run]

theorem pmemNallocInternal_boot {n : ℕ} (hoff : s.pagemapInitialized = false) (hn : 0 < n) :
    pmemNallocInternal n s = (match bitmapFindLoop s.bitmap n s.bitmapEnd 0 0 0 with
      | none => pure none
      | some index => do
        bitmapAlloc index n
        pure (some (bitmapItop s.config index)) : PmemM (Option ℕ)) s := by
  rw [pmemNallocInternal, kassert_bind (by simpa using hn), read_bind, hoff,
    Bool.not_false, if_pos rfl]
  exact bind_of_ok (bitmapFind_run hn)

theorem pmemNfreeInternal_boot {paddr n : ℕ} (hoff : s.pagemapInitialized = false) (hn : 0 < n) :
    pmemNfreeInternal paddr n s = bitmapFree (bitmapPtoi s.config paddr) n s := by
  rw [pmemNfreeInternal, kassert_bind (by simpa using hn), read_bind, hoff, Bool.not_false,
    if_pos rfl]

theorem BootReady.pmemNallocInternal (B : BootReady s) {n : ℕ} {r : Option ℕ}
    (h : Osv.pmemNallocInternal n s = .ok (r, s')) : BootReady s' ∧ s'.config = s.config := by
  have hn : 0 < n := by simpa using (kassert_bind_ok.mp h).1
  rw [pmemNallocInternal_boot B.off hn] at h
  cases hfind : bitmapFindLoop s.bitmap n s.bitmapEnd 0 0 0 <;> rw [hfind] at h
  case none =>
    cases h
    exact ⟨B, rfl⟩
  case some index =>
    obtain ⟨_, s1, h1, h2⟩ := bind_ok.mp h
    cases h2
    obtain ⟨e1, e2, e3, e4, e5⟩ :=
      bitmapAlloc_contig h1 hn B.contig_le B.contig_set
    refine ⟨⟨?_, ?_, ?_, ?_, e4, e5, e3.trans B.off⟩, e1⟩
    · rw [e1]; exact B.start_lt
    · rw [e1]; exact B.start_aligned
    · rw [e1]; exact B.end_aligned
    · rw [e1, e2]; exact B.end_eq

theorem BootReady.pmemNfreeInternal (B : BootReady s) {paddr n : ℕ}
    (h : Osv.pmemNfreeInternal paddr n s = .ok (u, s')) :
    BootReady s' ∧ s'.config = s.config ∧ s'.nPages = s.nPages := by
  have hn : 0 < n := by simpa using (kassert_bind_ok.mp h).1
  rw [pmemNfreeInternal_boot B.off hn] at h
  exact B.bitmapFree h hn

theorem bitmapInit_ok (h : bitmapInit s = .ok (u, s')) :
    (s.config.pmemStart < s.config.pmemEnd ∧ pgSize ∣ s.config.pmemStart ∧
    pgSize ∣ s.config.pmemEnd) ∧
    bitmapNPages s.config < (s.config.pmemEnd - s.config.pmemStart) / pgSize ∧ s' = { s with
      bitmap := fun j => if j < bitmapNPages s.config then true
        else if j < 8 * (pgSize * bitmapNPages s.config) then false else s.bitmap j
      bitmapContigStart := bitmapNPages s.config
      bitmapEnd := (s.config.pmemEnd - s.config.pmemStart) / pgSize } := by
  rw [bitmapInit, kassert_bind_ok, kassert_bind_ok, kassert_bind_ok, update_bind, kassert_bind_ok,
    update_bind, read_bind, bitmapAlloc, kassert_bind_ok] at h
  obtain ⟨hlt, hsal, heal, hpages, -, h⟩ := h
  obtain ⟨_, s1, h1, h2⟩ := bind_ok.mp h
  cases h2
  refine ⟨⟨of_decide_eq_true hlt, pgAligned_iff.mp hsal, pgAligned_iff.mp heal⟩,
    of_decide_eq_true hpages, ?_⟩
  rw [(bitmapAllocLoop_iff.mp h1).2]
  simp only [Nat.zero_le, true_and, Nat.zero_add, Nat.zero_max]

theorem bootReady_of_pmemBootInit (h : pmemBootInit s = .ok (u, s')) : BootReady s' := by
  obtain ⟨_, s1, h1, h2⟩ := bind_ok.mp h
  obtain ⟨⟨hlt, hsal, heal⟩, hpages, rfl⟩ := bitmapInit_ok h1
  cases h2
  refine ⟨hlt, hsal, heal, rfl, hpages.le, ?_, rfl⟩
  rcases Nat.eq_zero_or_pos (bitmapNPages s.config) with h0 | h0
  · exact .inl h0
  · exact .inr (if_pos (Nat.sub_lt h0 Nat.one_pos))

/-- A call of the boot allocator. -/
inductive BootStep : Pmem → Pmem → Prop
  | nalloc {s s' : Pmem} (n : ℕ) (r : Option ℕ) (h : pmemNalloc n s = .ok (r, s')) : BootStep s s'
  | nfree {s s' : Pmem} (paddr n : ℕ) (hp : s.config.pmemStart ≤ paddr)
      (h : pmemNfree paddr n s = .ok ((), s')) : BootStep s s'

theorem BootReady.step (B : BootReady s) (h : BootStep s s') : BootReady s' := by
  cases h with
  | nalloc n r h => exact (B.pmemNallocInternal h).1
  | nfree paddr n hp h => exact (B.pmemNfreeInternal h).1

theorem BootReady.run (B : BootReady s) (h : Relation.ReflTransGen BootStep s s') :
    BootReady s' := by
  induction h with
  | refl => exact B
  | tail _ hstep ih => exact ih.step hstep

/-! ## Laying pages down -/

variable {t : Tag}

section Laying

variable {s s' : Pmem} {x b : ℕ} {L : ℕ → Prop} {T : Tiling Tag x} {k : ℕ}

theorem Rep.not_listed (R : Rep s T) (j : ℕ) : x ∉ s.freeblocks j := by
  intro h
  exact Nat.lt_irrefl x (T.head_lt (R.listed.mp h))

theorem markAllocated_other {a : ℕ} (h : a ≠ x) : (markAllocated s x).pagemap a = s.pagemap a := by
  simp [markAllocated, Pmem.setOrder, Pmem.setRefcnt, Function.update_of_ne h]

theorem Rep.mark (R : Rep s T) (ht : t = .live ∨ t = .reserved) :
    Rep (markAllocated s x) (T.snoc (k := 0) (one_dvd x) t) := by
  refine R.setTile (T.snoc_tile _ t) (Nat.zero_le _) ?_ ?_ (fun a h => markAllocated_other h) ?_
    (fun _ _ _ => Iff.rfl) R.nodup
  · simp [markAllocated]
  · rcases ht with rfl | rfl <;> simp [markAllocated, Tag.Refcnt]
  · intro j
    have hne : t ≠ .free := by rcases ht with rfl | rfl <;> simp
    simp [markAllocated, R.not_listed, hne]

theorem Rep.lay (R : Rep s T) (hal : 2 ^ k ∣ x) (hk : k ≤ maxOrder) :
    Rep (((s.setOrder x k).setRefcnt x 0).push k x) (T.snoc hal .free) := by
  refine R.setTile (T.snoc_tile hal _) hk ?_ ?_ ?_ ?_ ?_
    (fun j => Pmem.nodup_push (R.nodup j) (R.not_listed k))
  · simp
  · simp [Tag.Refcnt]
  · intro a h
    simp [Pmem.push, Pmem.setOrder, Pmem.setRefcnt, Function.update_of_ne h]
  · intro j
    simp [Pmem.mem_push, R.not_listed]
  · intro j a h
    simp [Pmem.mem_push, h]

/-- Part of the walk: the pages below `x` are laid down, those below `b` as reserved pages and those
with `L` as live ones. -/
structure Laid (s : Pmem) (b : ℕ) (L : ℕ → Prop) (T : Tiling Tag x) : Prop where
  rep : Rep s T
  noHeld : NoHeld T
  apart : Apart T
  reserved : ∀ {h k}, T.tile h = some (k, .reserved) ↔ (h < x ∧ h < b) ∧ k = 0
  live : ∀ {h k}, T.tile h = some (k, .live) ↔ (h < x ∧ L h) ∧ k = 0

theorem noHeld_snoc (hT : NoHeld T) (hal : 2 ^ k ∣ x) (ht : t ≠ .held) : NoHeld (T.snoc hal t) := by
  intro h j hh
  rw [Tiling.snoc_tile] at hh
  split at hh
  · cases hh; exact ht rfl
  · exact hT h j hh

/-- The blocks of one tag after a block is laid down, when their heads are told by `P`. -/
theorem tile_snoc_iff {P : ℕ → Prop} {t u : Tag} (hal : 2 ^ k ∣ x)
    (hT : ∀ {h j}, T.tile h = some (j, t) ↔ (h < x ∧ P h) ∧ j = 0)
    (hnew : (u = t → k = 0 ∧ P x) ∧ (u ≠ t → ∀ h, x ≤ h → h < x + 2 ^ k → ¬ P h)) {h j : ℕ} :
    (T.snoc hal u).tile h = some (j, t) ↔ (h < x + 2 ^ k ∧ P h) ∧ j = 0 := by
  have hpos := Nat.two_pow_pos k
  rw [Tiling.snoc_tile]
  rcases eq_or_ne u t with rfl | hne
  · obtain ⟨rfl, hP⟩ := hnew.1 rfl
    split
    · rename_i h1; subst h1; simp [hP, eq_comm]
    · rename_i h1
      rw [hT, pow_zero]
      have : h < x ↔ h < x + 1 := by omega
      rw [this]
  · split
    · rename_i h1
      subst h1
      have := hnew.2 hne h (le_refl h) (by omega)
      simp [hne, this]
    · rename_i h1
      rw [hT]
      constructor
      · rintro ⟨⟨h2, h3⟩, h4⟩
        exact ⟨⟨by omega, h3⟩, h4⟩
      · rintro ⟨⟨h2, h3⟩, h4⟩
        refine ⟨⟨?_, h3⟩, h4⟩
        by_contra hge
        exact hnew.2 hne h (by omega) h2 h3

theorem apart_snoc (hT : Apart T) (hal : 2 ^ k ∣ x) (ht : t ≠ .free) : Apart (T.snoc hal t) := by
  refine hT.of_subset ?_
  intro a j ha
  rw [Tiling.snoc_tile] at ha
  split at ha
  · cases ha; exact absurd rfl ht
  · exact ha

theorem apart_snoc_free (hT : Apart T) (hal : 2 ^ k ∣ x)
    (hlow : ∀ h, k < maxOrder → T.tile h = some (k, .free) → 2 ^ (k + 1) ∣ h → h + 2 ^ k ≠ x) :
    Apart (T.snoc hal .free) := by
  have hpos := Nat.two_pow_pos k
  have hup : k < maxOrder → T.tile (buddy k x) ≠ some (k, .free) := by
    intro hk hb
    rcases buddy_cases hal with ⟨-, h2⟩ | ⟨h1, h2⟩
    · have := T.head_lt hb
      omega
    · exact hlow _ hk hb h1 h2.symm
  refine hT.insert hal (fun a j ha => ?_) hup
  rw [Tiling.snoc_tile] at ha
  split at ha
  · rename_i h1; cases ha; exact .inl ⟨h1, rfl⟩
  · exact .inr ha

theorem Laid.markReserved (hl : Laid s b L T) (hx : x < b) (hL : ∀ h, L h → b ≤ h) :
    Laid (markAllocated s x) b L (T.snoc (k := 0) (one_dvd x) .reserved) where
  rep := hl.rep.mark (.inr rfl)
  noHeld := noHeld_snoc hl.noHeld _ (by simp)
  apart := apart_snoc hl.apart _ (by simp)
  reserved := tile_snoc_iff _ hl.reserved ⟨fun _ => ⟨rfl, hx⟩, fun h => absurd rfl h⟩
  live := by
    refine tile_snoc_iff _ hl.live ⟨fun h => by simp at h, fun _ h h1 h2 h3 => ?_⟩
    have := hL h h3
    simp only [pow_zero] at h2
    omega

theorem Laid.markLive (hl : Laid s b L T) (hx : b ≤ x) (hL : L x) :
    Laid (markAllocated s x) b L (T.snoc (k := 0) (one_dvd x) .live) where
  rep := hl.rep.mark (.inl rfl)
  noHeld := noHeld_snoc hl.noHeld _ (by simp)
  apart := apart_snoc hl.apart _ (by simp)
  reserved := tile_snoc_iff _ hl.reserved ⟨fun h => by simp at h, fun _ h h1 h2 h3 => by omega⟩
  live := tile_snoc_iff _ hl.live ⟨fun _ => ⟨rfl, hL⟩, fun h => absurd rfl h⟩

theorem Laid.layFree (hl : Laid s b L T) (hx : b ≤ x) (hal : 2 ^ k ∣ x) (hk : k ≤ maxOrder)
    (hL : ∀ h, x ≤ h → h < x + 2 ^ k → ¬ L h)
    (hlow : ∀ h, k < maxOrder → T.tile h = some (k, .free) → 2 ^ (k + 1) ∣ h → h + 2 ^ k ≠ x) :
    Laid (((s.setOrder x k).setRefcnt x 0).push k x) b L (T.snoc hal .free) where
  rep := hl.rep.lay hal hk
  noHeld := noHeld_snoc hl.noHeld _ (by simp)
  apart := apart_snoc_free hl.apart hal hlow
  reserved := tile_snoc_iff _ hl.reserved ⟨fun h => by simp at h, fun _ h h1 h2 h3 => by omega⟩
  live := tile_snoc_iff _ hl.live ⟨fun h => by simp at h, fun _ => hL⟩

end Laying

/-! ## Covering a run with free blocks -/

theorem maxFit_spec (fits : ℕ → Bool) : ∀ n, maxFit fits n ≤ n ∧
    (maxFit fits n = 0 ∨ fits (maxFit fits n) = true) ∧ ∀ j, maxFit fits n < j →
    j ≤ n → fits j = false
  | 0 => ⟨le_refl 0, .inl rfl, fun j h1 h2 => absurd h1 (by omega)⟩
  | n + 1 => by
    rw [maxFit]
    split
    · rename_i h
      exact ⟨le_refl _, .inr h, fun j h1 h2 => absurd h1 (by omega)⟩
    · rename_i h
      obtain ⟨h1, h2, h3⟩ := maxFit_spec fits n
      refine ⟨Nat.le_succ_of_le h1, h2, fun j hj hle => ?_⟩
      rcases Nat.eq_or_lt_of_le hle with rfl | hlt
      · simpa using h
      · exact h3 j hj (Nat.lt_succ_iff.mp hlt)

theorem getMaxPageOrder_run {x e : ℕ} (h : x < e) :
    ∃ k, getMaxPageOrder (x * pgSize) (e * pgSize) s = .ok (k, s) ∧ k ≤ maxOrder ∧ 2 ^ k ∣ x ∧
      x + 2 ^ k ≤ e ∧ (k < maxOrder → 2 ^ (k + 1) ∣ x → e < x + 2 ^ (k + 1)) := by
  have hx : x * pgSize / pgSize = x := Nat.mul_div_cancel x pgSize_pos
  have he : e * pgSize / pgSize = e := Nat.mul_div_cancel e pgSize_pos
  obtain ⟨h1, h2, h3⟩ :=
    maxFit_spec (fun order => x % 2 ^ order = 0 ∧ x + 2 ^ order ≤ e) maxOrder
  refine ⟨_, ?_, h1, ?_⟩
  · rw [getMaxPageOrder, hx, he, kassert_bind (by simpa using h)]
    rfl
  · generalize maxFit (fun order => x % 2 ^ order = 0 ∧ x + 2 ^ order ≤ e) maxOrder = k at *
    have hfit : 2 ^ k ∣ x ∧ x + 2 ^ k ≤ e := by
      rcases h2 with rfl | h2
      · exact ⟨one_dvd x, h⟩
      · simp only [decide_eq_true_eq] at h2
        exact ⟨Nat.dvd_of_mod_eq_zero h2.1, h2.2⟩
    refine ⟨hfit.1, hfit.2, fun hk hal => ?_⟩
    have hno := h3 (k + 1) (Nat.lt_succ_self k) hk
    simp only [decide_eq_false_iff_not, not_and, not_le] at hno
    exact hno (Nat.mod_eq_zero_of_dvd hal)

/-- Every free block that is the lower half of its parent lies below `x0`, or its parent sticks out
of the run that ends at `e`. -/
def Greedy {x : ℕ} (T : Tiling Tag x) (x0 e : ℕ) : Prop :=
  ∀ h k, T.tile h = some (k, .free) → k < maxOrder → 2 ^ (k + 1) ∣ h →
    h + 2 ^ k < x0 ∨ e < h + 2 ^ (k + 1)

/-- No free block ends where the next page is laid. -/
def Sealed {x : ℕ} (T : Tiling Tag x) : Prop := ∀ h k, T.tile h = some (k, .free) → h + 2 ^ k ≠ x

theorem Sealed.greedy {x : ℕ} {T : Tiling Tag x} (hT : Sealed T) (e : ℕ) : Greedy T x e := by
  intro h k hh _ _
  exact .inl (Nat.lt_of_le_of_ne (T.inside hh) (hT h k hh))

theorem freeblocksInsertRangeFrom_laid {b x0 e : ℕ} {L : ℕ → Prop} :
    ∀ (rem : ℕ) {x : ℕ} {s : Pmem} {T : Tiling Tag x}, Laid s b L T → b ≤ x → x0 ≤ x → x ≤ e →
      e - x ≤ rem → (∀ h, x ≤ h → h < e → ¬ L h) → Greedy T x0 e →
        ∃ (s' : Pmem) (T' : Tiling Tag e),
        freeblocksInsertRangeFrom rem (x * pgSize) (e * pgSize) s = .ok ((), s') ∧
          s'.fixed = s.fixed ∧ Laid s' b L T' := by
  intro rem
  induction rem with
  | zero =>
    intro x s T hl hb h0 hle hrem hL hG
    obtain rfl : x = e := by omega
    exact ⟨s, T, rfl, rfl, hl⟩
  | succ rem ih =>
    intro x s T hl hb h0 hle hrem hL hG
    rcases Nat.eq_or_lt_of_le hle with rfl | hlt
    · refine ⟨s, T, ?_, rfl, hl⟩
      rw [freeblocksInsertRangeFrom, if_neg (Nat.lt_irrefl _)]
      rfl
    · obtain ⟨k, hrun, hk, hal, hfit, hmax⟩ := getMaxPageOrder_run (s := s) hlt
      have hpos := Nat.two_pow_pos k
      have hlow : ∀ h, k < maxOrder → T.tile h = some (k, .free) → 2 ^ (k + 1) ∣ h →
          h + 2 ^ k ≠ x := by
        intro h hk' hh hal' heq
        have hp := Nat.two_pow_succ k
        rcases hG h k hh hk' hal' with h1 | h1 <;> omega
      have hl' := hl.layFree hb hal hk (fun h h1 h2 => hL h h1 (by omega)) hlow
      have hG' : Greedy (T.snoc hal .free) x0 e := by
        intro h j hh hj hal'
        rw [Tiling.snoc_tile] at hh
        split at hh
        · rename_i h1
          cases hh
          exact .inr (h1 ▸ hmax hj (h1 ▸ hal'))
        · exact hG h j hh hj hal'
      obtain ⟨s', T', hrest, hfix, hl''⟩ := ih hl' (by omega) (by omega) hfit (by omega)
        (fun h h1 h2 => hL h (by omega) h2) hG'
      refine ⟨s', T', ?_, hfix, hl''⟩
      have hx : x * pgSize / pgSize = x := Nat.mul_div_cancel x pgSize_pos
      rw [freeblocksInsertRangeFrom, if_pos (Nat.mul_lt_mul_of_pos_right hlt pgSize_pos),
        bind_of_ok hrun, hx, update_bind, bind_of_ok (freeblocksInsert_run (by simpa using hk)),
        ← Nat.add_mul]
      simpa using hrest

theorem freeblocksInsertRange_laid {b x e : ℕ} {L : ℕ → Prop} {T : Tiling Tag x} (hl : Laid s b L T)
    (hb : b ≤ x) (hle : x ≤ e) (hL : ∀ h, x ≤ h → h < e → ¬ L h) (hT : Sealed T) :
    ∃ (s' : Pmem) (T' : Tiling Tag e), freeblocksInsertRange (x * pgSize) (e * pgSize)
      s = .ok ((), s') ∧ s'.fixed = s.fixed ∧ Laid s' b L T' := by
  refine freeblocksInsertRangeFrom_laid _ hl hb (le_refl x) hle ?_ hL (hT.greedy e)
  rw [← Nat.sub_mul]
  exact Nat.le_mul_of_pos_right _ pgSize_pos

/-! ## The walk over the bitmap -/

/-- The pages that the boot allocator has handed out. -/
def HandedOut (s : Pmem) (h : ℕ) : Prop :=
  s.startPage ≤ h ∧ h < s.startPage + s.bitmapContigStart ∧ s.bitmap (h - s.startPage) = true

theorem sealed_snoc {x : ℕ} (T : Tiling Tag x) (ht : t ≠ .free) :
    Sealed (T.snoc (k := 0) (one_dvd x) t) := by
  intro h k hh heq
  rw [Tiling.snoc_tile] at hh
  split at hh
  · cases hh; exact ht rfl
  · have := T.inside hh
    simp only [pow_zero] at heq
    omega

theorem markUnavailable_laid {b : ℕ} {L : ℕ → Prop} (hL : ∀ h, L h → b ≤ h) :
    ∀ (n : ℕ) {x : ℕ} {s : Pmem} {T : Tiling Tag x}, Laid s b L T → x + n = b →
      ∃ (s' : Pmem) (T' : Tiling Tag b),
        markUnavailable n x s = .ok ((), s') ∧ s'.fixed = s.fixed ∧ Laid s' b L T' ∧
          (Sealed T → Sealed T') := by
  intro n
  induction n with
  | zero =>
    intro x s T hl hx
    obtain rfl : x = b := by omega
    exact ⟨s, T, rfl, rfl, hl, id⟩
  | succ n ih =>
    intro x s T hl hx
    have hl' := hl.markReserved (by omega) hL
    obtain ⟨s', T', hrun, hfix, hl'', hs⟩ := ih hl' (by simp only [pow_zero]; omega)
    refine ⟨s', T', ?_, hfix, hl'', fun _ => hs (sealed_snoc T (by simp))⟩
    rw [markUnavailable, update_bind]
    exact hrun

/-- The probe stops at a set bit or at the end, and passes clear bits only. -/
theorem probeFree_spec (bits : ℕ → Bool) :
    ∀ rem p, p ≤ probeFree bits rem p ∧ probeFree bits rem p ≤ p + rem ∧
      (∀ i, p ≤ i → i < probeFree bits rem p → bits i = false) ∧
      (probeFree bits rem p < p + rem → bits (probeFree bits rem p) = true)
  | 0, p => ⟨le_refl p, le_refl p, fun i h1 h2 => absurd h2 (by rw [probeFree]; omega),
      fun h => absurd h (by rw [probeFree]; omega)⟩
  | rem + 1, p => by
    rw [probeFree]
    split
    · rename_i h
      exact ⟨le_refl p, by omega, fun i h1 h2 => absurd h1 (by omega), fun _ => h⟩
    · rename_i h
      obtain ⟨h1, h2, h3, h4⟩ := probeFree_spec bits rem (p + 1)
      refine ⟨by omega, by omega, fun i hi hlt => ?_, fun hlt => h4 (by omega)⟩
      rcases Nat.eq_or_lt_of_le hi with rfl | hgt
      · simpa using h
      · exact h3 i hgt hlt

theorem freeblocksScan_laid {b : ℕ} {L : ℕ → Prop} {bits : ℕ → Bool} {contig : ℕ}
    (hL : ∀ i, L (b + i) ↔ i < contig ∧ bits i = true)
    (hset : contig = 0 ∨ bits (contig - 1) = true) :
    ∀ (rem : ℕ) {index : ℕ} {s : Pmem} {T : Tiling Tag (b + index)}, Laid s b L T →
      s.config.pmemStart = b * pgSize → s.bitmap = bits → s.bitmapContigStart = contig →
      index ≤ contig → contig - index ≤ rem → Sealed T ∨ (index < contig ∧ bits index = true) →
      ∃ (s' : Pmem) (T' : Tiling Tag (b + contig)),
        freeblocksScan rem index s = .ok ((), s') ∧ s'.fixed = s.fixed ∧
          Laid s' b L T' ∧ Sealed T' := by
  intro rem
  have last : ∀ {index : ℕ} {T : Tiling Tag (b + index)}, index = contig →
      Sealed T ∨ (index < contig ∧ bits index = true) → Sealed T := by
    intro index T h1 h2
    rcases h2 with h2 | ⟨h2, -⟩
    · exact h2
    · omega
  induction rem with
  | zero =>
    intro index s T hl hcfg hbits hcontig hle hrem hs
    obtain rfl : index = contig := by omega
    exact ⟨s, T, rfl, rfl, hl, last rfl hs⟩
  | succ rem ih =>
    intro index s T hl hcfg hbits hcontig hle hrem hs
    have hitop : ∀ i, bitmapItop s.config i = (b + i) * pgSize := by
      intro i
      rw [bitmapItop, hcfg, Nat.add_mul]
      omega
    rw [freeblocksScan, read_bind, hbits, hcontig]
    rcases Nat.eq_or_lt_of_le hle with rfl | hlt
    · rw [if_neg (Nat.lt_irrefl _)]
      exact ⟨s, T, rfl, rfl, hl, last rfl hs⟩
    rw [if_pos hlt]
    by_cases hbit : bits index = true
    · rw [if_pos hbit]
      have hl' := hl.markLive (by omega) ((hL index).mpr ⟨hlt, hbit⟩)
      obtain ⟨s', T', hrun, hfix, hl'', hs'⟩ :=
        @ih (index + 1) _ (T.snoc (k := 0) (one_dvd _) .live) hl' hcfg hbits hcontig (by omega)
          (by omega) (.inl (sealed_snoc T (by simp)))
      refine ⟨s', T', ?_, hfix, hl'', hs'⟩
      have hpage : (b + index) * pgSize / pgSize = b + index := mul_pgSize_div _
      rw [update_bind, hitop, hpage]
      exact hrun
    · rw [if_neg hbit]
      have hseal : Sealed T := by
        rcases hs with hs | ⟨-, hs⟩
        · exact hs
        · exact absurd hs hbit
      obtain ⟨h1, h2, h3, h4⟩ := probeFree_spec bits (contig - (index + 1)) (index + 1)
      generalize hprobe : probeFree bits (contig - (index + 1)) (index + 1) = probe at *
      have hclear : ∀ i, index ≤ i → i < probe → bits i = false := by
        intro i hi hp
        rcases Nat.eq_or_lt_of_le hi with rfl | hgt
        · simpa using hbit
        · exact h3 i hgt hp
      have hstop : probe < contig := by
        rcases hset with h0 | hset
        · omega
        · by_contra hge
          rw [hclear (contig - 1) (by omega) (by omega)] at hset
          cases hset
      have hnot : ∀ h, b + index ≤ h → h < b + probe → ¬ L h := by
        intro h hlo hhi hLh
        obtain ⟨i, rfl⟩ : ∃ i, h = b + i := ⟨h - b, by omega⟩
        have := ((hL i).mp hLh).2
        rw [hclear i (by omega) (by omega)] at this
        cases this
      obtain ⟨s1, T1, hrun1, hfix1, hl1⟩ :=
        freeblocksInsertRange_laid hl (by omega) (show b + index ≤ b + probe by omega) hnot hseal
      obtain ⟨e1, e2, e3, -⟩ := Pmem.fixed_eq hfix1
      obtain ⟨s', T', hrun, hfix, hl'', hs'⟩ := ih hl1 (e1.symm ▸ hcfg) (e2.trans hbits)
        (e3.trans hcontig) (by omega) (by omega) (.inr ⟨hstop, h4 (by omega)⟩)
      refine ⟨s', T', ?_, hfix.trans hfix1, hl'', hs'⟩
      simp only [hitop]
      rw [bind_of_ok hrun1]
      exact hrun

/-! ## The start of the buddy allocator -/

/-- The pages handed out at boot, as the bitmap has them. -/
def bootLive (s : Pmem) : Finset ℕ :=
  ((Finset.range s.bitmapContigStart).filter fun i => s.bitmap i).image fun i => s.startPage + i

theorem mem_bootLive {h : ℕ} : h ∈ bootLive s ↔ HandedOut s h := by
  simp only [bootLive, HandedOut, Finset.mem_image, Finset.mem_filter, Finset.mem_range]
  constructor
  · rintro ⟨i, ⟨h1, h2⟩, rfl⟩
    exact ⟨by omega, by omega, by rw [Nat.add_sub_cancel_left]; exact h2⟩
  · rintro ⟨h1, h2, h3⟩
    exact ⟨h - s.startPage, ⟨by omega, h3⟩, by omega⟩

theorem BootReady.pagemapInit (B : BootReady s) (h : Osv.pagemapInit s = .ok (u, s')) :
    BootReady s' ∧ s'.nPages = s'.config.pmemEnd / pgSize := by
  rw [Osv.pagemapInit, read_bind] at h
  obtain ⟨r, s1, h1, h2⟩ := bind_ok.mp h
  obtain ⟨B1, hcfg⟩ := B.pmemNallocInternal h1
  cases r with
  | none => cases h2
  | some _ =>
    cases h2
    exact ⟨{ B1 with }, by rw [hcfg]⟩

theorem BootReady.walk (B : BootReady s) (hempty : s.freeblocks = fun _ => []) :
    ∃ (s' : Pmem) (T : Tiling Tag (s.config.pmemEnd / pgSize)), (do
        markUnavailable (pgRoundUp s.config.pmemStart / pgSize) 0
        let s ← Prog.read
        freeblocksScan s.bitmapContigStart 0
        let s ← Prog.read
        freeblocksInsertRange (bitmapItop s.config s.bitmapContigStart) s.config.pmemEnd :
          PmemM Unit) s = .ok ((), s') ∧ s'.fixed = s.fixed ∧
            Laid s' s.startPage (HandedOut s) T := by
  obtain ⟨b, hb⟩ := B.start_aligned
  obtain ⟨e, he⟩ := B.end_aligned
  rw [Nat.mul_comm] at hb he
  have hstart : s.startPage = b := by
    rw [Pmem.startPage, hb, mul_pgSize_div]
  have hend : s.config.pmemEnd / pgSize = e := by rw [he, mul_pgSize_div]
  have hcontig : s.bitmapContigStart ≤ e - b := by
    have h1 := B.contig_le
    rw [B.end_eq, hb, he, ← Nat.sub_mul, mul_pgSize_div] at h1
    exact h1
  have hlt : b < e := by
    have h1 := B.start_lt
    rw [hb, he] at h1
    exact Nat.lt_of_mul_lt_mul_right h1
  have hround : pgRoundUp s.config.pmemStart / pgSize = b := by
    have h1 : (b * pgSize + pgSize - 1) / pgSize = b := by
      have := pgSize_pos
      rw [Nat.add_sub_assoc this, Nat.add_comm, Nat.add_mul_div_right _ _ this,
        Nat.div_eq_of_lt (Nat.sub_lt this Nat.one_pos), Nat.zero_add]
    rw [pgRoundUp, hb, h1, mul_pgSize_div]
  have hHO : ∀ i, HandedOut s (b + i) ↔ i < s.bitmapContigStart ∧ s.bitmap i = true := by
    intro i
    rw [HandedOut, hstart, Nat.add_sub_cancel_left]
    constructor
    · rintro ⟨-, h2, h3⟩
      exact ⟨by omega, h3⟩
    · rintro ⟨h2, h3⟩
      exact ⟨by omega, by omega, h3⟩
  have hL : ∀ h, HandedOut s h → b ≤ h := fun h hh => hstart ▸ hh.1
  have hl0 : Laid s b (HandedOut s) (Tiling.empty Tag) :=
    { rep := by
        refine .of_tiles (fun hh => by cases hh) ?_ fun k => ?_
        · rw [hempty]; simp [Tiling.empty]
        · rw [hempty]; exact List.nodup_nil
      noHeld := by intro h k hh; cases hh
      apart := by intro k h _ hh; cases hh
      reserved := by intro h k; simp [Tiling.empty]
      live := by intro h k; simp [Tiling.empty] }
  obtain ⟨s1, T1, hrun1, hfix1, hl1, hs1⟩ :=
    markUnavailable_laid hL b hl0 (Nat.zero_add b)
  have hseal1 : Sealed T1 := hs1 fun h k hh => by cases hh
  obtain ⟨c1, c2, c3, -⟩ := Pmem.fixed_eq hfix1
  obtain ⟨s2, T2, hrun2, hfix2, hl2, hseal2⟩ :=
    @freeblocksScan_laid b _ s.bitmap s.bitmapContigStart hHO B.contig_set s.bitmapContigStart 0 s1
      T1 hl1 (by rw [c1, hb]) c2 c3 (Nat.zero_le _) (by omega) (.inl hseal1)
  obtain ⟨d1, d2, d3, -⟩ := Pmem.fixed_eq (hfix2.trans hfix1)
  have hnot : ∀ h, b + s.bitmapContigStart ≤ h → h < e → ¬ HandedOut s h := by
    intro h h1 _ hh
    have := hh.2.1
    omega
  obtain ⟨s3, T3, hrun3, hfix3, hl3⟩ :=
    freeblocksInsertRange_laid hl2 (by omega) (show b + s.bitmapContigStart ≤ e by omega)
      hnot hseal2
  refine ⟨s3, hend ▸ T3, ?_, hfix3.trans (hfix2.trans hfix1), ?_⟩
  · have hitop : bitmapItop s.config s.bitmapContigStart =
        (b + s.bitmapContigStart) * pgSize := by
      rw [bitmapItop, hb, Nat.add_mul, Nat.add_comm]
    rw [hround, bind_of_ok hrun1, read_bind, c3, bind_of_ok hrun2, read_bind, d1, d3, hitop, he]
    exact hrun3
  · subst hend
    rw [hstart]
    exact hl3

/-- `pmem_init` sets the buddy allocator up over any state of the boot allocator: every page that is
neither reserved nor handed out is free, and the others are blocks of order 0. -/
theorem BootReady.pmemInit (B : BootReady s) (h : Osv.pmemInit s = .ok (u, s')) :
    s'.nPages = s'.config.pmemEnd / pgSize ∧ ∃ (N : ℕ) (T : Tiling Tag N),
      Buddy s' (bootLive s') T ∧ ∀ h k, T.tile h = some (k, .live) → k = 0 := by
  obtain ⟨_, s1, h1, h⟩ := bind_ok.mp h
  obtain ⟨_, s4, h2, h3⟩ := bind_ok.mp h
  obtain ⟨B1, hnp⟩ := B.pagemapInit h1
  rw [freeblocksInit, read_bind] at h2
  obtain ⟨_, s2, h4, h5⟩ := bind_ok.mp h2
  obtain ⟨B2, hcfg, hnp2⟩ := B1.pmemNfreeInternal h4
  have B3 : BootReady { s2 with freeblocks := fun _ => [] } := { B2 with }
  obtain ⟨s5, T, hrun, hfix, hl⟩ := B3.walk rfl
  rw [update_bind, ← hcfg] at h5
  obtain rfl : s4 = s5 := by
    have := h5.symm.trans hrun
    cases this
    rfl
  cases h3
  obtain ⟨c1, c2, c3, -, c5, -⟩ := Pmem.fixed_eq hfix
  have hN : s4.nPages = s2.config.pmemEnd / pgSize := by
    rw [c5, hcfg]
    exact hnp2.trans hnp
  have hstart : s4.startPage = s2.startPage := startPage_eq c1
  have hHO : HandedOut { s4 with pagemapInitialized := true } =
      HandedOut { s2 with freeblocks := fun _ => [] } := by
    funext a
    simp only [HandedOut, Pmem.startPage, c1, c2, c3]
  have hle : s2.startPage < s2.config.pmemEnd / pgSize := by
    obtain ⟨e, he⟩ := B2.end_aligned
    rw [Pmem.startPage, Nat.div_lt_iff_lt_mul pgSize_pos, he, Nat.mul_div_cancel_left _ pgSize_pos,
      Nat.mul_comm, ← he]
    exact B2.start_lt
  refine ⟨by simp only [hN, c1], _, T, ?_, fun h k hh => (hl.live.mp hh).2⟩
  exact
    { rep := { hl.rep with }
      nPages := hN
      on := rfl
      start_pos := by
        have hpos := s2.config.start_pos
        rw [Pmem.startPage, c1]
        exact Nat.div_pos (Nat.le_of_dvd hpos B2.start_aligned) pgSize_pos
      noHeld := hl.noHeld
      apart := hl.apart
      reserved := by
        intro h k
        rw [hl.reserved]
        have hst : Pmem.startPage { s4 with pagemapInitialized := true } = s2.startPage := hstart
        have hst2 : Pmem.startPage { s2 with freeblocks := fun _ => [] } = s2.startPage := rfl
        rw [hst, hst2]
        constructor
        · rintro ⟨⟨-, h1⟩, h2⟩
          exact ⟨h1, h2⟩
        · rintro ⟨h1, h2⟩
          exact ⟨⟨Nat.lt_trans h1 hle, h1⟩, h2⟩
      live := by
        intro h
        rw [mem_bootLive, hHO]
        constructor
        · intro hh
          refine ⟨0, hl.live.mpr ⟨⟨?_, hh⟩, rfl⟩⟩
          have h1 := hh.2.1
          have h2 := B2.contig_le
          have h3 : s2.startPage + s2.bitmapEnd ≤ s2.config.pmemEnd / pgSize := by
            rw [B2.end_eq, Pmem.startPage]
            exact Nat.div_add_div_le_add_div.trans
              (by rw [Nat.add_sub_of_le (Nat.le_of_lt B2.start_lt)])
          exact Nat.lt_of_lt_of_le h1 (Nat.le_trans (Nat.add_le_add_left h2 _) h3)
        · rintro ⟨k, hk⟩
          exact (hl.live.mp hk).1.2 }

/-- The variables at the end of `pmem_init`, after any calls of the boot allocator. -/
def Started (s : Pmem) : Prop :=
  ∃ s0 s1 s2, pmemBootInit s0 = .ok ((), s1) ∧ Relation.ReflTransGen BootStep s1 s2 ∧
    pmemInit s2 = .ok ((), s)

theorem Started.buddy (h : Started s) : s.nPages = s.config.pmemEnd / pgSize ∧
      ∃ (N : ℕ) (T : Tiling Tag N), Buddy s (bootLive s) T ∧ ∀ h k,
        T.tile h = some (k, .live) → k = 0 := by
  obtain ⟨s0, s1, s2, h1, h2, h3⟩ := h
  exact ((bootReady_of_pmemBootInit h1).run h2).pmemInit h3

end Osv
