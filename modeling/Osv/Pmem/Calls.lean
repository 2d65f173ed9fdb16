import Mathlib.Data.Finset.Basic
import Osv.Pmem.Buddy

/-!
# The calls of the buddy allocator

What `pmem_nalloc`, `pmem_nfree`, `pmem_inc_refcnt` and `pmem_dec_refcnt` do
once the page map is set up.  Between calls no block is held: the pages are
free, live or reserved, the heads of the live blocks are those the callers have,
and no two free buddies wait to be merged.  `Buddy` collects this, and every call
on a live block returns and keeps it.
-/

namespace Osv

open Prog (bind_of_ok read_run update_run)

open Dyadic

/-- Between calls the variables `s` stand for `T`, and the callers have the blocks at `live`. -/
structure Buddy (s : Pmem) (live : Finset ℕ) {N : ℕ} (T : Tiling Tag N) : Prop where
  rep : Rep s T
  nPages : s.nPages = N
  on : s.pagemapInitialized = true
  start_pos : 0 < s.startPage
  noHeld : NoHeld T
  apart : Apart T
  reserved : ∀ {h k}, T.tile h = some (k, .reserved) ↔ h < s.startPage ∧ k = 0
  live : ∀ {h}, h ∈ live ↔ ∃ k, T.tile h = some (k, .live)

/-- The live blocks other than the one at `p` are the same. -/
def LiveExcept {N : ℕ} (T T' : Tiling Tag N) (p : ℕ) : Prop :=
  ∀ h k, h ≠ p → (T'.tile h = some (k, .live) ↔ T.tile h = some (k, .live))

variable {s : Pmem} {live : Finset ℕ} {N : ℕ} {T : Tiling Tag N}

theorem startPage_eq {s s' : Pmem} (h : s'.config = s.config) : s'.startPage = s.startPage := by
  rw [Pmem.startPage, Pmem.startPage, h]

theorem getMinPageOrder_run {n : ℕ} (hn : n ≤ 2 ^ maxOrder) :
    ∃ k, getMinPageOrder n s = .ok (k, s) ∧ k ≤ maxOrder ∧ n ≤ 2 ^ k ∧ ∀ j < k, 2 ^ j < n := by
  cases hf : (List.range (maxOrder + 1)).find? fun order => n ≤ 2 ^ order with
  | none =>
    rw [List.find?_eq_none] at hf
    have := hf maxOrder (List.mem_range.mpr (Nat.lt_succ_self _))
    simp only [decide_eq_true_eq] at this
    exact absurd hn this
  | some k =>
    rw [List.find?_range_eq_some] at hf
    obtain ⟨h1, h2, h3⟩ := hf
    refine ⟨k, ?_, Nat.lt_succ_iff.mp (List.mem_range.mp h2), by simpa using h1, ?_⟩
    · have hf' : (List.range (maxOrder + 1)).find? (fun order => n ≤ 2 ^ order) = some k :=
        List.find?_range_eq_some.mpr ⟨h1, h2, h3⟩
      rw [getMinPageOrder, hf']
      rfl
    · intro j hj
      have := h3 j hj
      simpa using this

/-! ## Allocating -/

/-- What `pmem_nalloc` leaves: nothing changed and no large enough block free, or a new live block.
-/
def Allocated (s : Pmem) (live : Finset ℕ) (T : Tiling Tag N) (n : ℕ) : Option ℕ → Pmem → Prop
  | none, s' => s' = s ∧ ∃ k, n ≤ 2 ^ k ∧ (∀ j < k, 2 ^ j < n) ∧
      ∀ j, k ≤ j → j ≤ maxOrder → s.freeblocks j = []
  | some paddr, s' => s'.fixed = s.fixed ∧ ∃ (T' : Tiling Tag N) (p k : ℕ), paddr = p * pgSize ∧
      n ≤ 2 ^ k ∧ (∀ j < k, 2 ^ j < n) ∧ p ∉ live ∧ T'.tile p = some (k, .live) ∧
      Buddy s' (insert p live) T' ∧ LiveExcept T T' p

theorem Buddy.handOut (B : Buddy s live T) {s1 : Pmem} {T1 : Tiling Tag N} {p k : ℕ}
    (hfix : s1.fixed = s.fixed) (htk : Taken T T1 p k) (R1 : Rep s1 T1) :
    p ∉ live ∧ Buddy (s1.setRefcnt p 1) (insert p live) (T1.retag htk.held .live) ∧
      LiveExcept T (T1.retag htk.held .live) p := by
  obtain ⟨hcfg, -, -, -, hnp, hon⟩ := Pmem.fixed_eq hfix
  have hnl : p ∉ live := by
    rw [B.live]
    rintro ⟨j, hj⟩
    have := (htk.same p j .live (.inl rfl)).mpr hj
    rw [htk.held] at this
    cases this
  have hexc : LiveExcept T (T1.retag htk.held .live) p := by
    intro h j hne
    rw [Tiling.retag_tile, if_neg hne]
    exact htk.same h j .live (.inl rfl)
  refine ⟨hnl, ?_, hexc⟩
  exact
    { rep := R1.setRefcnt htk.held (by simp) (by simp) ⟨le_refl 1, by decide⟩
      nPages := hnp.trans B.nPages
      on := hon.trans B.on
      start_pos := (startPage_eq hcfg).symm ▸ B.start_pos
      noHeld := htk.only.noHeld htk.held (by simp)
      apart := (htk.apart B.apart).retag htk.held (by simp)
      reserved := by
        intro h j
        have hst : (s1.setRefcnt p 1).startPage = s.startPage := startPage_eq hcfg
        rw [hst, ← B.reserved, Tiling.retag_tile, ← htk.same h j .reserved (.inr rfl)]
        split
        · rename_i h1; subst h1; simp [htk.held]
        · exact Iff.rfl
      live := by
        intro h
        rw [Finset.mem_insert]
        rcases eq_or_ne h p with rfl | hne
        · simp [Tiling.retag_tile]
        · simp only [hne, false_or, B.live]
          exact exists_congr fun j => (hexc h j hne).symm }

theorem Buddy.pmemNalloc (B : Buddy s live T) {n : ℕ} (h1 : 1 ≤ n) (h2 : n ≤ 1024) :
    ∃ r s', Osv.pmemNalloc n s = .ok (r, s') ∧ Allocated s live T n r s' := by
  obtain ⟨k, hord, hk, hn, hleast⟩ := getMinPageOrder_run (s := s) (n := n) h2
  obtain ⟨r, s1, hfind, hfound⟩ := findFreeblock_found B.rep B.nPages B.noHeld hk
  rw [Osv.pmemNalloc, pmemNallocInternal, kassert_bind
    (by simpa [Nat.pos_iff_ne_zero, Nat.one_le_iff_ne_zero] using h1), bind_of_ok (read_run s),
    B.on, Bool.not_true, if_neg (by simp), bind_of_ok hord, bind_of_ok hfind]
  cases r with
  | none =>
    obtain ⟨rfl, hempty⟩ := hfound
    exact ⟨none, s1, rfl, rfl, k, hn, hleast, hempty⟩
  | some p =>
    obtain ⟨hfix, T1, htk, R1⟩ := hfound
    obtain ⟨hnl, B', hexc⟩ := B.handOut hfix htk R1
    have hzero : (s1.pagemap p).refcnt = 0 := R1.refcnt_ok htk.held
    have hp : p * pgSize ≠ 0 := by
      have hne : p ≠ 0 := by
        rintro rfl
        have h0 := B.reserved.mpr ⟨B.start_pos, rfl⟩
        rw [← htk.same 0 0 .reserved (.inr rfl), htk.held] at h0
        cases h0
      exact Nat.mul_ne_zero hne (by decide)
    refine ⟨some (p * pgSize), s1.setRefcnt p 1, ?_, hfix, _, p, k, rfl, hn, hleast, hnl, ?_, B',
      hexc⟩
    · simp only
      rw [kassert_bind (by simpa using hzero), bind_of_ok (update_run _ _),
        kassert_bind (by simpa using hp)]
      rfl
    · rw [Tiling.retag_tile, if_pos rfl]

/-! ## Freeing -/

/-- What freeing the block at `p` leaves. -/
def Freed (s : Pmem) (live : Finset ℕ) (T : Tiling Tag N) (p : ℕ) (s' : Pmem) : Prop :=
  s'.fixed = s.fixed ∧ ∃ T' : Tiling Tag N, Buddy s' (live.erase p) T' ∧ LiveExcept T T' p

/-- Freeing a live block returns, merges it and puts it on a free list. -/
theorem Buddy.pmemNfree (B : Buddy s live T) {paddr n : ℕ} (hn : 0 < n)
    (hp : paddr / pgSize ∈ live) :
    ∃ s', Osv.pmemNfree paddr n s = .ok ((), s') ∧ Freed s live T (paddr / pgSize) s' := by
  generalize hpe : paddr / pgSize = p at hp
  obtain ⟨k, hk⟩ := B.live.mp hp
  have R1 := B.rep.setRefcnt hk (u := .held) (by simp) (by simp) (r := 0) rfl
  have hheld : (T.retag hk .held).tile p = some (k, .held) := by
    rw [Tiling.retag_tile, if_pos rfl]
  obtain ⟨q, s2, hmerge, hfix, T2, k2, htk, R2, hlast⟩ :=
    mergeBlockFrom_merged (maxOrder + 1) R1 B.nPages hheld (B.noHeld.onlyHeld hk) (by omega)
  obtain ⟨hins, R3⟩ := R2.freeblocksInsert htk.held
  obtain ⟨hcfg, -, -, -, hnp, hon⟩ := Pmem.fixed_eq hfix
  have hsame : SameFixed (T.retag hk .held) (T2.retag htk.held .free) :=
    htk.same.trans (SameFixed.retag htk.held (.inr rfl) (.inl rfl))
  have hexc : LiveExcept T (T2.retag htk.held .free) p := by
    intro h j hne
    rw [hsame h j .live (.inl rfl), Tiling.retag_tile, if_neg hne]
  refine ⟨(s2.setRefcnt q 0).push k2 q, ?_, hfix, T2.retag htk.held .free, ?_, hexc⟩
  · rw [Osv.pmemNfree, pmemNfreeInternal, kassert_bind (by simpa using hn), bind_of_ok (read_run s),
      B.on, Bool.not_true, if_neg (by simp), hpe, bind_of_ok (update_run _ _), mergeBlock,
      bind_of_ok hmerge]
    exact hins
  · exact
      { rep := R3
        nPages := hnp.trans B.nPages
        on := hon.trans B.on
        start_pos := (startPage_eq hcfg).symm ▸ B.start_pos
        noHeld := htk.only.noHeld htk.held (by simp)
        apart := (htk.apart (B.apart.retag hk (by simp))).retag_free htk.held hlast
        reserved := by
          intro h j
          have hst : ((s2.setRefcnt q 0).push k2 q).startPage = s.startPage := startPage_eq hcfg
          rw [hst, ← B.reserved, hsame h j .reserved (.inr rfl), Tiling.retag_tile]
          split
          · rename_i h1; subst h1; simp [hk]
          · exact Iff.rfl
        live := by
          intro h
          rw [Finset.mem_erase, B.live]
          rcases eq_or_ne h p with rfl | hne
          · simp only [hsame h _ .live (.inl rfl), hheld]
            simp
          · simp only [ne_eq, hne, not_false_eq_true, true_and]
            exact exists_congr fun j => (hexc h j hne).symm }

/-! ## Counting references -/

theorem Buddy.setRefcnt (B : Buddy s live T) {p k : ℕ} (hp : T.tile p = some (k, .live)) {r : Int}
    (h1 : 1 ≤ r) (h2 : r < 2 ^ 31) : Buddy (s.setRefcnt p r) live T := by
  have R := B.rep.setRefcnt hp (u := .live) (by simp) (by simp) (r := r) ⟨h1, h2⟩
  rw [T.retag_self hp] at R
  exact ⟨R, B.nPages, B.on, B.start_pos, B.noHeld, B.apart, B.reserved, B.live⟩

theorem Buddy.live_page (B : Buddy s live T) {p : ℕ} (hp : p ∈ live)
    (ho : (s.pagemap p).order = 0) :
    T.tile p = some (0, .live) ∧ 0 < (s.pagemap p).refcnt ∧ (s.pagemap p).refcnt < 2 ^ 31 := by
  obtain ⟨k, hk⟩ := B.live.mp hp
  have h0 : k = 0 := (B.rep.order_eq hk).symm.trans ho
  exact ⟨h0 ▸ hk, B.rep.refcnt_ok hk⟩

theorem Buddy.pmemIncRefcnt (B : Buddy s live T) {paddr : ℕ} {n : Int} (hp : paddr / pgSize ∈ live)
    (ho : (s.pagemap (paddr / pgSize)).order = 0) (h1 : 0 < (s.pagemap (paddr / pgSize)).refcnt + n)
    (h2 : (s.pagemap (paddr / pgSize)).refcnt + n < 2 ^ 31) :
    ∃ s', Osv.pmemIncRefcnt paddr n s = .ok ((), s') ∧ s'.fixed = s.fixed ∧ Buddy s' live T := by
  obtain ⟨hk, hr, -⟩ := B.live_page hp ho
  refine ⟨s.setRefcnt (paddr / pgSize) ((s.pagemap (paddr / pgSize)).refcnt + n), ?_, rfl,
    B.setRefcnt hk (by omega) h2⟩
  rw [Osv.pmemIncRefcnt, kassert_bind (by simpa using hr), kassert_bind
    (by simpa using ho), update_run, wrapInt_eq (by omega) h2]

/-- Freeing starts by clearing the count, so the count it finds does not matter. -/
theorem pmemNfreeInternal_setRefcnt {paddr n : ℕ} {r : Int} (hon : s.pagemapInitialized = true) :
    pmemNfreeInternal paddr n (s.setRefcnt (paddr / pgSize) r) = pmemNfreeInternal paddr n s := by
  have hset : (s.setRefcnt (paddr / pgSize) r).setRefcnt (paddr / pgSize) 0 =
      s.setRefcnt (paddr / pgSize) 0 := by
    simp only [Pmem.setRefcnt, Function.update_self, Function.update_idem]
  have hon' : (s.setRefcnt (paddr / pgSize) r).pagemapInitialized = true := hon
  unfold pmemNfreeInternal
  by_cases hn : 0 < n
  · rw [kassert_bind (by simpa using hn), bind_of_ok (read_run _), kassert_bind (by simpa using hn),
      bind_of_ok (read_run _), hon, hon', Bool.not_true, if_neg (by simp), if_neg (by simp),
      bind_of_ok (update_run _ _), bind_of_ok (update_run _ _), hset]
  · have hfail : ∀ t : Pmem, (kassert "n > 0" (fun _ => 0 < n) : PmemM Unit) t =
        .error (.kassert "n > 0") := by
      intro t
      rw [kassert, Prog.check_run, if_neg (by simpa using hn)]
    rw [Prog.bind_run, Prog.bind_run, hfail, hfail]

section

variable {paddr : ℕ} (B : Buddy s live T) (hp : paddr / pgSize ∈ live)
variable (ho : (s.pagemap (paddr / pgSize)).order = 0)

include B hp ho

theorem Buddy.pmemDecRefcnt_run : Osv.pmemDecRefcnt paddr s =
      if (s.pagemap (paddr / pgSize)).refcnt = 1 then Osv.pmemNfree paddr 1 s
      else .ok ((), s.setRefcnt (paddr / pgSize) ((s.pagemap (paddr / pgSize)).refcnt - 1)) := by
  obtain ⟨hk, hr, hint⟩ := B.live_page hp ho
  have hwrap : wrapInt ((s.pagemap (paddr / pgSize)).refcnt - 1) =
      (s.pagemap (paddr / pgSize)).refcnt - 1 := wrapInt_eq (by omega) (by omega)
  rw [Osv.pmemDecRefcnt, kassert_bind (by simpa using hr), kassert_bind (by simpa using ho),
    bind_of_ok (update_run _ _), bind_of_ok (read_run _), hwrap, Pmem.setRefcnt_refcnt, if_pos rfl]
  by_cases h1 : (s.pagemap (paddr / pgSize)).refcnt = 1
  · rw [if_pos h1, if_pos (by omega), pmemNfreeInternal_setRefcnt B.on, Osv.pmemNfree]
  · rw [if_neg h1, if_neg (by omega)]
    rfl

theorem Buddy.pmemDecRefcnt_last (h1 : (s.pagemap (paddr / pgSize)).refcnt = 1) :
    ∃ s', Osv.pmemDecRefcnt paddr s = .ok ((), s') ∧ Freed s live T (paddr / pgSize) s' := by
  rw [B.pmemDecRefcnt_run hp ho, if_pos h1]
  exact B.pmemNfree Nat.one_pos hp

theorem Buddy.pmemDecRefcnt_more (h1 : (s.pagemap (paddr / pgSize)).refcnt ≠ 1) :
    ∃ s', Osv.pmemDecRefcnt paddr s = .ok ((), s') ∧ s'.fixed = s.fixed ∧ Buddy s' live T := by
  obtain ⟨hk, hr, hint⟩ := B.live_page hp ho
  rw [B.pmemDecRefcnt_run hp ho, if_neg h1]
  exact ⟨_, rfl, rfl, B.setRefcnt hk (by omega) (by omega)⟩

end

end Osv
