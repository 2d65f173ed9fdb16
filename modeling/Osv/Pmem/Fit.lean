import Mathlib.Data.List.Pairwise
import Osv.Pmem.Handover

/-!
# When an allocation succeeds

Both allocators of `pmem.c` are meant to fail only when the pages cannot be had.

The buddy allocator looks at the heads of its lists only.  That is enough, because
free buddies are always merged: an aligned run of free pages lies in a block that is
listed (`Dyadic.Coalesced.exists_larger`).

The boot allocator searches first fit.  `bitmap_find` returns the number of pages
that are handed out below the run it found, which is the start of the run only if no
page below it is free (`bitmapFindLoop_firstFit_iff`).  `BootWorld` are the runs in which no
call of `pmem_nalloc` meets a hole.
-/

namespace Osv

open Dyadic

/-! ## The buddy allocator -/

/-- The page is managed, and no caller has it. -/
def World.Unused (w : World) (x : ℕ) : Prop :=
  w.pm.startPage ≤ x ∧ x < w.pm.config.pmemEnd / pgSize ∧
    ∀ h ∈ w.live, x ∉ block (w.pm.pagemap h).order h

/-- The pages that nobody has are the pages of the blocks on the free lists. -/
theorem World.Inv.unused_iff {s : Pmem} {w : World} {N : ℕ} {T : Tiling Tag N} (I : Inv s w T)
    (hN : N = w.pm.config.pmemEnd / pgSize) {x : ℕ} : w.Unused x ↔ x ∈ freePages w.pm := by
  have B := I.buddy
  constructor
  · rintro ⟨h1, h2, h3⟩
    by_contra hnf
    obtain ⟨h, k, t, hh, hmem, rfl | rfl⟩ := B.exists_block (hN ▸ h2) hnf
    · exact h3 h (B.live.mpr ⟨k, hh⟩) (B.rep.order_eq hh ▸ hmem)
    · obtain ⟨hlt, rfl⟩ := B.reserved.mp hh
      simp only [mem_block, pow_zero] at hmem
      omega
  · intro hx
    refine ⟨?_, hN ▸ B.freePages_lt hx, fun h hh hmem => ?_⟩
    · by_contra hlt
      exact B.not_free (B.reserved.mpr ⟨by omega, rfl⟩) (head_mem 0 x) (by simp) hx
    · obtain ⟨k, hk⟩ := B.live.mp hh
      exact B.not_free hk (B.rep.order_eq hk ▸ hmem) (by simp) hx

/-- A call of `pmem_nalloc` fails exactly when no aligned run of unused pages is large enough, and
leaves the page structs and the lists alone then.  A call that succeeds takes exactly one such run.
-/
theorem pmemNalloc_fails_iff (w : World) (hw : w.Reachable) (n : ℕ) (h1 : 1 ≤ n) (h2 : n ≤ 1024) :
    ∃ k, n ≤ 2 ^ k ∧ (∀ j < k, 2 ^ j < n) ∧ ∃ r s', pmemNalloc n w.pm = .ok (r, s') ∧
      (r = none ↔ ¬ ∃ h, 2 ^ k ∣ h ∧ ∀ x ∈ block k h, w.Unused x) ∧ (r = none → s' = w.pm) ∧
      ∀ paddr, r = some paddr → ∃ h, paddr = h * pgSize ∧ 2 ^ k ∣ h ∧
        (∀ x ∈ block k h, w.Unused x) ∧
        ∀ x, (w.obtained s' r).Unused x ↔ w.Unused x ∧ x ∉ block k h := by
  obtain ⟨s, hs, hrun⟩ := hw
  obtain ⟨N, T, I⟩ := World.Inv.run hs hrun
  obtain ⟨r, s', hcall, hall⟩ := I.buddy.pmemNalloc h1 h2
  have hunused : ∀ x, w.Unused x ↔ x ∈ freePages w.pm := fun x => I.unused_iff (I.pages hs)
  cases r with
  | none =>
    obtain ⟨rfl, k, hk, hleast, hempty⟩ := hall
    refine ⟨k, hk, hleast, none, w.pm, hcall, ?_, fun _ => rfl, fun _ h => nomatch h⟩
    refine iff_of_true rfl ?_
    rintro ⟨h, hal, hfree⟩
    have hkmax : k ≤ maxOrder := by
      by_contra hgt
      have := hleast maxOrder (by omega)
      simp only [maxOrder] at this
      omega
    obtain ⟨j, a, hj, hkj⟩ := I.buddy.coalesced.exists_larger hal hkmax fun x hx =>
      (hunused x).mp (hfree x hx)
    have hj' : a ∈ w.pm.freeblocks j := hj
    rw [hempty j hkj (I.buddy.rep.order_le (I.buddy.rep.listed.mp hj'))] at hj'
    exact List.not_mem_nil hj'
  | some paddr =>
    obtain ⟨T1, I'⟩ := I.obtained hall
    obtain ⟨hfix, T', p, k, rfl, hk, hleast, hp, htile, B', hexc⟩ := hall
    obtain ⟨hin, heq⟩ := I.buddy.handOut_pages hfix hp htile B' hexc
    have hblock : ∀ x ∈ block k p, w.Unused x := fun x hx => (hunused x).mpr (hin hx)
    refine ⟨k, hk, hleast, some (p * pgSize), s', hcall, ?_, nofun, ?_⟩
    · exact iff_of_false nofun fun h => h ⟨p, T'.aligned htile, hblock⟩
    · rintro paddr ⟨⟩
      refine ⟨p, rfl, T'.aligned htile, hblock, fun x => ?_⟩
      rw [I'.unused_iff (I'.pages hs), hunused]
      have hpages : freePages (w.obtained s' (some (p * pgSize))).pm =
          freePages w.pm \ block k p := heq
      rw [hpages]
      exact Iff.rfl

/-- On the small machine four pages can be had. -/
theorem pmemNalloc_small : ∃ k, 3 ≤ 2 ^ k ∧ ∃ r s',
    pmemNalloc 3 (World.start smallStart).pm = .ok (r, s') ∧
    (r = none ↔ ¬ ∃ h, 2 ^ k ∣ h ∧ ∀ x ∈ block k h, (World.start smallStart).Unused x) := by
  obtain ⟨k, hk, -, r, s', hcall, hiff, -⟩ := pmemNalloc_fails_iff (World.start smallStart)
    ⟨smallStart, smallStart_started, .refl⟩ 3 (by decide) (by decide)
  exact ⟨k, hk, r, s', hcall, hiff⟩

/-! ## First fit -/

variable {i : ℕ}

section Find

variable {bits : ℕ → Bool} {n e : ℕ}

/-- The `n` pages from `i` on are clear and below `e`. -/
def Fits (bits : ℕ → Bool) (n e i : ℕ) : Prop := i + n ≤ e ∧ ∀ j, i ≤ j → j < i + n → bits j = false

instance (i : ℕ) : Decidable (Fits bits n e i) :=
  inferInstanceAs (Decidable (i + n ≤ e ∧ ∀ j, i ≤ j → j < i + n → bits j = false))

/-- What a first-fit search returns: the least index where the pages fit, or nothing. -/
def FirstFit (bits : ℕ → Bool) (n e : ℕ) : Option ℕ → Prop
  | none => ∀ i, ¬ Fits bits n e i
  | some i => Fits bits n e i ∧ ∀ j < i, ¬ Fits bits n e j

/-- No page below the first fit is clear. -/
def NoHole (bits : ℕ → Bool) (n e : ℕ) : Prop :=
  ∀ i, FirstFit bits n e (some i) → ∀ j < i, bits j = true

/-- The set bits below `i`. -/
def setBelow (bits : ℕ → Bool) (i : ℕ) : ℕ := (List.range i).countP bits

theorem setBelow_succ (i : ℕ) :
    setBelow bits (i + 1) = setBelow bits i + if bits i then 1 else 0 := by
  rw [setBelow, setBelow, List.range_succ, List.countP_append, List.countP_singleton]

theorem setBelow_clear : ∀ {m : ℕ}, (∀ j, i ≤ j → j < i + m → bits j = false) →
    setBelow bits (i + m) = setBelow bits i
  | 0, _ => rfl
  | m + 1, h => by
    rw [← Nat.add_assoc, setBelow_succ, h (i + m) (by omega) (by omega),
      setBelow_clear fun j h1 h2 => h j h1 (by omega)]
    rfl

theorem setBelow_eq_iff : setBelow bits i = i ↔ ∀ j < i, bits j = true := by
  have h := List.countP_eq_length (p := bits) (l := List.range i)
  rw [List.length_range] at h
  rw [setBelow, h]
  exact forall_congr' fun j => by rw [List.mem_range]

/-- Where the search is: `m` clear bits end at `i`, they began behind a set bit or at the start, no
run of `n` clear bits ended yet, and `first` counts the set bits. -/
structure Searched (bits : ℕ → Bool) (n i first m : ℕ) : Prop where
  count : first = setBelow bits i
  short : m < n
  le : m ≤ i
  clear : ∀ j, i - m ≤ j → j < i → bits j = false
  behind : i = m ∨ bits (i - m - 1) = true
  none : ∀ e ≤ i, ∀ j, ¬ Fits bits n e j

theorem bitmapFindLoop_eq : ∀ {rem i first m : ℕ}, Searched bits n i first m → i + rem = e →
    (bitmapFindLoop bits n rem i first m = none ∧ FirstFit bits n e none) ∨
      ∃ k, bitmapFindLoop bits n rem i first m = some (setBelow bits k) ∧ FirstFit bits n e (some k)
  | 0, i, first, m, S, hi => .inl ⟨rfl, S.none e (by omega)⟩
  | rem + 1, i, first, m, S, hi => by
    rw [bitmapFindLoop]
    split
    · rename_i hset
      refine bitmapFindLoop_eq (i := i + 1) ⟨?_, ?_, by omega, ?_, .inr ?_, ?_⟩ (by omega)
      · rw [setBelow_succ, hset, S.count]
        rfl
      · have := S.short
        omega
      · intro j h1 h2
        omega
      · exact hset
      · intro e' he' j hfit
        rcases Nat.lt_or_ge i e' with hlt | hge
        · refine S.none i (le_refl i) j ⟨?_, hfit.2⟩
          by_contra hgt
          have := hfit.1
          have := S.short
          rw [hfit.2 i (by omega) (by omega)] at hset
          cases hset
        · exact S.none e' hge j hfit
    · rename_i hset
      have hclear : bits i = false := Bool.not_eq_true _ |>.mp hset
      have hrun : ∀ j, i - m ≤ j → j < i + 1 → bits j = false := by
        intro j h1 h2
        rcases Nat.lt_or_ge j i with hlt | hge
        · exact S.clear j h1 hlt
        · obtain rfl : j = i := by omega
          exact hclear
      have hends : ∀ j, Fits bits n (i + 1) j → j = i + 1 - n ∧ n ≤ m + 1 := by
        intro j hfit
        have hj : j + n = i + 1 := by
          by_contra hne
          exact S.none i (le_refl i) j ⟨by have := hfit.1; omega, hfit.2⟩
        refine ⟨by omega, ?_⟩
        by_contra hgt
        rcases S.behind with him | hb
        · omega
        · rw [hfit.2 (i - m - 1) (by omega) (by have := S.le; omega)] at hb
          cases hb
      split
      · rename_i hn
        have hm : m + 1 = n := by
          have := S.short
          omega
        have hle := S.le
        refine .inr ⟨i - m, ?_, ⟨by omega, fun j h1 h2 => hrun j h1 (by omega)⟩, fun j hj hfit =>
          ?_⟩
        · have hcount := setBelow_clear (i := i - m) (m := m) fun j h1 h2 => S.clear j h1 (by omega)
          rw [Nat.sub_add_cancel hle] at hcount
          rw [S.count, hcount]
        · exact S.none i (le_refl i) j ⟨by omega, hfit.2⟩
      · rename_i hn
        refine bitmapFindLoop_eq (i := i + 1) ⟨?_, by omega, by have := S.le; omega, ?_, ?_, ?_⟩
          (by omega)
        · rw [setBelow_succ, hclear, S.count]
          rfl
        · intro j h1 h2
          exact hrun j (by omega) h2
        · have h1 : i + 1 - (m + 1) - 1 = i - m - 1 := by omega
          rw [h1]
          exact S.behind.imp (fun h => by omega) id
        · intro e' he' j hfit
          rcases Nat.lt_or_ge i e' with hlt | hge
          · obtain rfl : e' = i + 1 := by omega
            exact hn (hends j hfit).2
          · exact S.none e' hge j hfit

theorem bitmapFind_eq (hn : 0 < n) : (bitmapFindLoop bits n e 0 0 0 = none ∧ FirstFit bits n e none)
    ∨ ∃ k, bitmapFindLoop bits n e 0 0 0 = some (setBelow bits k) ∧ FirstFit bits n e (some k) := by
  refine bitmapFindLoop_eq ⟨rfl, hn, le_refl 0, (fun j _ h => absurd h (Nat.not_lt_zero j)),
    .inl rfl, ?_⟩ (Nat.zero_add e)
  intro e' he' j hfit
  have := hfit.1
  omega

theorem FirstFit.unique {r r' : Option ℕ} (h : FirstFit bits n e r) (h' : FirstFit bits n e r') :
    r = r' := by
  cases r with
  | none =>
    cases r' with
    | none => rfl
    | some j => exact absurd h'.1 (h j)
  | some i =>
    cases r' with
    | none => exact absurd h.1 (h' i)
    | some j =>
      rcases Nat.lt_trichotomy i j with hlt | rfl | hgt
      · exact absurd h.1 (h'.2 i hlt)
      · rfl
      · exact absurd h'.1 (h.2 j hgt)

/-- The search is first fit exactly when no page below the first fit is clear. -/
theorem bitmapFindLoop_firstFit_iff (hn : 0 < n) :
    FirstFit bits n e (bitmapFindLoop bits n e 0 0 0) ↔ NoHole bits n e := by
  rcases @bitmapFind_eq bits n e hn with ⟨hnone, hfit⟩ | ⟨k, hsome, hfit⟩
  · rw [hnone]
    exact iff_of_true hfit fun i hi => absurd hi.1 (hfit i)
  · rw [hsome]
    have hk : FirstFit bits n e (some (setBelow bits k)) ↔ setBelow bits k = k :=
      ⟨fun h => Option.some.inj (h.unique hfit), fun h => h.symm ▸ hfit⟩
    rw [hk, setBelow_eq_iff]
    refine ⟨fun h i hi => ?_, fun h => h k hfit⟩
    obtain rfl := Option.some.inj (hfit.unique hi)
    exact h

theorem Fits.noHole {m : ℕ} (hfit : Fits bits n e m) (hset : ∀ j < m, bits j = true) :
    NoHole bits n e := by
  intro i hi j hj
  have him : i ≤ m := by
    by_contra hgt
    exact hi.2 m (by omega) hfit
  exact hset j (by omega)

end Find

/-! ## Runs of the boot allocator -/

/-- The boot allocator with the ranges that its callers have, each by its index and its size. -/
structure BootWorld where
  pm : Pmem
  live : List (ℕ × ℕ)

/-- The page is one of a range. -/
def InRange (r : ℕ × ℕ) (i : ℕ) : Prop := r.1 ≤ i ∧ i < r.1 + r.2

namespace BootWorld

/-- The end of `bitmap_init`, which cleared all bits. -/
def Init (w : BootWorld) : Prop := BootInit w.pm ∧ w.live = []

/-- Nothing stands in the way of a first fit for `n` pages. -/
def Clear (w : BootWorld) (n : ℕ) : Prop := NoHole w.pm.bitmap n w.pm.bitmapEnd

/-- A call of `pmem_nalloc` that meets no hole, or of `pmem_nfree` for a range that a caller has. -/
inductive Step : BootWorld → BootWorld → Prop
  | nallocNone {w : BootWorld} {n : ℕ} {pm : Pmem} (hc : w.Clear n)
    (h : pmemNalloc n w.pm = .ok (none, pm)) :
      Step w { w with pm := pm }
  | nalloc {w : BootWorld} {n paddr : ℕ} {pm : Pmem} (hc : w.Clear n)
      (h : pmemNalloc n w.pm = .ok (some paddr, pm)) : Step w
      ⟨pm, (bitmapPtoi w.pm.config paddr, n) :: w.live⟩
  | nfree {w : BootWorld} {r : ℕ × ℕ} {pm : Pmem} (hr : r ∈ w.live)
      (h : pmemNfree (bitmapItop w.pm.config r.1) r.2 w.pm = .ok ((), pm)) : Step
      w ⟨pm, w.live.erase r⟩

/-- The states of boot. -/
abbrev Reachable (w : BootWorld) : Prop := Run.Reachable Init Step w

/-- What the boot allocator keeps when no call meets a hole. -/
structure Inv (w : BootWorld) : Prop where
  ready : BootReady w.pm
  /-- The bits that are set are those of the bitmap's own pages and of the ranges. -/
  set : ∀ i < w.pm.bitmapEnd, (w.pm.bitmap i = true ↔ i < bitmapNPages w.pm.config ∨
    ∃ r ∈ w.live, InRange r i)
  contig : ∀ i, w.pm.bitmapContigStart ≤ i → i < w.pm.bitmapEnd → w.pm.bitmap i = false
  own : bitmapNPages w.pm.config ≤ w.pm.bitmapEnd
  ranges : ∀ r ∈ w.live, 0 < r.2 ∧ bitmapNPages w.pm.config ≤ r.1 ∧ r.1 + r.2 ≤ w.pm.bitmapEnd
  disjoint : w.live.Pairwise fun r r' => ∀ i, InRange r i → ¬ InRange r' i

theorem bitmapScan_clear (bits : ℕ → Bool) :
    ∀ {i j : ℕ}, bitmapScan bits i ≤ j → j < i → bits j = false
  | 0, j, _, h => absurd h (Nat.not_lt_zero j)
  | i + 1, j, h1, h2 => by
    rw [bitmapScan] at h1
    split at h1
    · omega
    · rename_i hi
      rcases Nat.lt_succ_iff_lt_or_eq.mp h2 with hlt | rfl
      · exact bitmapScan_clear bits h1 hlt
      · exact Bool.not_eq_true _ |>.mp hi

variable {w : BootWorld}

theorem Init.inv (h : Init w) : w.Inv := by
  obtain ⟨⟨⟨s0, hinit⟩, hfits⟩, hlive⟩ := h
  obtain ⟨F, hcontig⟩ := bootFront_of_pmemBootInit hinit hfits
  refine ⟨F.ready, fun i hi => ?_, fun i h1 h2 => ?_, hcontig ▸ F.ready.contig_le, ?_, ?_⟩
  · rw [F.front i hi, hcontig, hlive]
    simp
  · rw [← Bool.not_eq_true, F.front i h2]
    omega
  · rw [hlive]
    exact fun r hr => absurd hr List.not_mem_nil
  · rw [hlive]
    exact .nil

theorem Inv.range_set (I : w.Inv) {r : ℕ × ℕ} (hr : r ∈ w.live) (hi : InRange r i) :
    i < w.pm.bitmapEnd ∧ w.pm.bitmap i = true := by
  have hlt : i < w.pm.bitmapEnd := Nat.lt_of_lt_of_le hi.2 (I.ranges r hr).2.2
  exact ⟨hlt, (I.set i hlt).mpr (.inr ⟨r, hr, hi⟩)⟩

theorem Inv.apart (I : w.Inv) {r r' : ℕ × ℕ} (hr : r ∈ w.live) (hr' : r' ∈ w.live) (hne : r ≠ r')
    (hi : InRange r i) : ¬ InRange r' i := by
  have hsymm : Std.Symm fun r r' : ℕ × ℕ => ∀ i, InRange r i → ¬ InRange r' i :=
    ⟨fun _ _ h i h1 h2 => h i h2 h1⟩
  exact I.disjoint.forall hr hr' hne i hi

theorem Inv.nodup (I : w.Inv) : w.live.Nodup := by
  refine I.disjoint.imp_of_mem fun {r r'} hr _ hdisj heq => ?_
  have hin : InRange r r.1 := ⟨le_refl _, Nat.lt_add_of_pos_right (I.ranges r hr).1⟩
  exact hdisj r.1 hin (heq ▸ hin)

theorem Inv.nalloc (I : w.Inv) {n : ℕ} (hn : 0 < n) (hc : w.Clear n) :
    (FirstFit w.pm.bitmap n w.pm.bitmapEnd none ∧ pmemNalloc n w.pm = .ok (none, w.pm)) ∨
      ∃ i pm, FirstFit w.pm.bitmap n w.pm.bitmapEnd (some i) ∧
        pmemNalloc n w.pm = .ok (some (bitmapItop w.pm.config i), pm) ∧
          Inv ⟨pm, (i, n) :: w.live⟩ := by
  have hfit := (bitmapFindLoop_firstFit_iff hn).mpr hc
  cases hcase : bitmapFindLoop w.pm.bitmap n w.pm.bitmapEnd 0 0 0 with
  | none =>
    rw [hcase] at hfit
    refine .inl ⟨hfit, ?_⟩
    rw [pmemNalloc, pmemNallocInternal_boot I.ready.off hn, hcase]
    rfl
  | some i =>
    rw [hcase] at hfit
    obtain ⟨hroom, hclear⟩ := hfit.1
    obtain ⟨pm, hpm⟩ : ∃ pm : Pmem, pm = { w.pm with
        bitmap := fun j => if i ≤ j ∧ j < i + n then true else w.pm.bitmap j
        bitmapContigStart := max w.pm.bitmapContigStart (i + n) } := ⟨_, rfl⟩
    have hrun : pmemNalloc n w.pm = .ok (some (bitmapItop w.pm.config i), pm) := by
      rw [pmemNalloc, pmemNallocInternal_boot I.ready.off hn, hcase, hpm]
      exact Prog.bind_of_ok (bitmapAlloc_run hroom hclear)
    have hready := (I.ready.pmemNallocInternal hrun).1
    rw [hpm] at hrun hready
    refine .inr ⟨i, _, hfit, hrun, hready, ?_, ?_, I.own, ?_, ?_⟩
    · intro j hj
      simp only [List.mem_cons, exists_eq_or_imp]
      rw [show InRange (i, n) j ↔ i ≤ j ∧ j < i + n from Iff.rfl]
      split
      · rename_i hin
        exact iff_of_true rfl (.inr (.inl hin))
      · rename_i hout
        rw [I.set j hj, or_iff_right (a := i ≤ j ∧ j < i + n) hout]
    · intro j h2 h3
      have h4 : ¬ (i ≤ j ∧ j < i + n) := by
        simp only at h2
        omega
      simp only [h4, if_false]
      exact I.contig j (by simp only at h2; omega) h3
    · intro r hr
      rcases List.mem_cons.mp hr with rfl | hr
      · refine ⟨hn, ?_, hroom⟩
        by_contra hlt
        have hset := (I.set i (by omega)).mpr (.inl (by simp only at hlt; omega))
        rw [hclear i (le_refl i) (by omega)] at hset
        cases hset
      · exact I.ranges r hr
    · refine List.pairwise_cons.mpr ⟨fun r hr j hj hjr => ?_, I.disjoint⟩
      have hset := (I.range_set hr hjr).2
      rw [hclear j hj.1 hj.2] at hset
      cases hset

theorem bitmapPtoi_itop (c : PmemConfig) (i : ℕ) : bitmapPtoi c (bitmapItop c i) = i := by
  rw [bitmapPtoi, bitmapItop, Nat.add_sub_cancel, Nat.mul_div_cancel i pgSize_pos]

theorem Inv.nfree (I : w.Inv) {r : ℕ × ℕ} (hr : r ∈ w.live) :
    ∃ pm, pmemNfree (bitmapItop w.pm.config r.1) r.2 w.pm = .ok ((), pm) ∧
      Inv ⟨pm, w.live.erase r⟩ := by
  obtain ⟨hpos, hown, hend⟩ := I.ranges r hr
  have hset : ∀ j, r.1 ≤ j → j < r.1 + r.2 → w.pm.bitmap j = true := fun j h1 h2 =>
    (I.range_set hr ⟨h1, h2⟩).2
  have hcontig : r.1 + r.2 ≤ w.pm.bitmapContigStart := by
    by_contra hgt
    have h1 := hset (r.1 + r.2 - 1) (by omega) (by omega)
    rw [I.contig (r.1 + r.2 - 1) (by omega) (by omega)] at h1
    cases h1
  obtain ⟨bits, hbits⟩ : ∃ bits : ℕ → Bool, bits = fun j =>
    if r.1 ≤ j ∧ j < r.1 + r.2 then false else w.pm.bitmap j := ⟨_, rfl⟩
  have hrun : pmemNfree (bitmapItop w.pm.config r.1) r.2 w.pm = .ok ((), { w.pm with
      bitmap := bits
      bitmapContigStart := if r.1 + r.2 = w.pm.bitmapContigStart then bitmapScan bits r.1
        else w.pm.bitmapContigStart }) := by
    rw [pmemNfree, pmemNfreeInternal_boot I.ready.off hpos, bitmapPtoi_itop, bitmapFree,
      kassert_bind (by simpa using hend), kassert_bind (by simpa using hcontig),
      Prog.bind_of_ok (bitmapFreeLoop_iff.mpr ⟨hset, rfl⟩), Prog.update_run, ← hbits]
    simp only
    split <;> rfl
  refine ⟨_, hrun, (I.ready.pmemNfreeInternal hrun).1, fun i hi => ?_, fun i h1 h2 => ?_, I.own,
    fun r' hr' => I.ranges r' (List.mem_of_mem_erase hr'), I.disjoint.sublist List.erase_sublist⟩
  · have hmem : ∀ r', r' ∈ w.live.erase r ↔ r' ≠ r ∧ r' ∈ w.live := fun r' => I.nodup.mem_erase_iff
    simp only [hbits]
    split
    · rename_i hin
      refine iff_of_false Bool.false_ne_true ?_
      rintro (hlt | ⟨r', hr', hin'⟩)
      · omega
      · obtain ⟨hne, hmem'⟩ := (hmem r').mp hr'
        exact I.apart hr hmem' hne.symm hin hin'
    · rename_i hout
      rw [I.set i hi]
      refine or_congr_right ⟨?_, ?_⟩
      · rintro ⟨r', hr', hin'⟩
        refine ⟨r', (hmem r').mpr ⟨?_, hr'⟩, hin'⟩
        rintro rfl
        exact hout hin'
      · rintro ⟨r', hr', hin'⟩
        exact ⟨r', ((hmem r').mp hr').2, hin'⟩
  · have hclear : w.pm.bitmapContigStart ≤ i → bits i = false := by
      intro h3
      rw [hbits]
      simp only
      split
      · rfl
      · exact I.contig i h3 h2
    simp only at h1 ⊢
    split at h1
    · rcases Nat.lt_or_ge i r.1 with hlt | hge
      · exact bitmapScan_clear _ h1 hlt
      · rcases Nat.lt_or_ge i (r.1 + r.2) with hlt | hge'
        · rw [hbits]
          exact if_pos ⟨hge, hlt⟩
        · exact hclear (by omega)
    · exact hclear h1

theorem Inv.step {w' : BootWorld} (I : w.Inv) (h : Step w w') : w'.Inv := by
  cases h with
  | @nallocNone n pm hc h =>
    have hn : 0 < n := pmemNalloc_pos h
    rcases I.nalloc hn hc with ⟨-, hrun⟩ | ⟨i, pm', -, hrun, -⟩
    · rw [h] at hrun
      cases hrun
      exact I
    · rw [h] at hrun
      cases hrun
  | @nalloc n paddr pm hc h =>
    have hn : 0 < n := pmemNalloc_pos h
    rcases I.nalloc hn hc with ⟨-, hrun⟩ | ⟨i, pm', -, hrun, I'⟩
    · rw [h] at hrun
      cases hrun
    · rw [h] at hrun
      cases hrun
      rw [bitmapPtoi_itop]
      exact I'
  | @nfree r pm hr h =>
    obtain ⟨pm', hrun, I'⟩ := I.nfree hr
    rw [h] at hrun
    cases hrun
    exact I'

theorem Reachable.inv (h : w.Reachable) : w.Inv :=
  Run.Reachable.invariant (I := Inv) h (fun _ h0 => h0.inv) fun _ _ _ I hstep => I.step hstep

end BootWorld

/-- The search of the boot allocator finds the first fit if and only if no free page lies before it;
and in every run whose calls meet no such page the allocations are first fits, no assertion fails,
the ranges are disjoint, and the pages from `bitmap_contig_start` on are free. -/
theorem bitmapFind_first_fit (w : BootWorld) (hw : w.Reachable) :
    (∀ (s : Pmem) (n : ℕ), 0 < n →
      ((∃ r, bitmapFind n s = .ok (r, s) ∧ FirstFit s.bitmap n s.bitmapEnd r) ↔
        NoHole s.bitmap n s.bitmapEnd)) ∧
    (∀ n, 0 < n → w.Clear n → ∃ r pm, pmemNalloc n w.pm = .ok (r.map (bitmapItop w.pm.config), pm) ∧
      FirstFit w.pm.bitmap n w.pm.bitmapEnd r) ∧
    (∀ r ∈ w.live, ∃ pm, pmemNfree (bitmapItop w.pm.config r.1) r.2 w.pm = .ok ((), pm)) ∧
    w.live.Pairwise (fun r r' => ∀ i, InRange r i → ¬ InRange r' i) ∧
    ∀ i, w.pm.bitmapContigStart ≤ i → i < w.pm.bitmapEnd → w.pm.bitmap i = false := by
  have I := hw.inv
  refine ⟨fun s n hn => ?_, fun n hn hc => ?_, fun r hr => ?_, I.disjoint, I.contig⟩
  · rw [← bitmapFindLoop_firstFit_iff hn, bitmapFind_run hn]
    constructor
    · rintro ⟨r, hr, hfit⟩
      cases hr
      exact hfit
    · exact fun hfit => ⟨_, rfl, hfit⟩
  · rcases I.nalloc hn hc with ⟨hfit, hrun⟩ | ⟨i, pm, hfit, hrun, -⟩
    · exact ⟨none, w.pm, hrun, hfit⟩
    · exact ⟨some i, pm, hrun, hfit⟩
  · obtain ⟨pm, hrun, -⟩ := I.nfree hr
    exact ⟨pm, hrun⟩

/-- The small machine after two calls for a page. -/
@[irreducible] def smallTaken : Pmem :=
  (pmemNalloc 1).final ((pmemNalloc 1).final (pmemBootInit.final smallBlank))

/-- The small machine after the first of the two pages is given back. -/
@[irreducible] def smallHole : Pmem :=
  (pmemNfree (bitmapItop smallTaken.config 1) 1).final smallTaken

theorem smallTaken_reachable : BootWorld.Reachable ⟨smallTaken, [(2, 1), (1, 1)]⟩ := by
  have hboot : BootInit (pmemBootInit.final smallBlank) :=
    ⟨⟨smallBlank, Prog.run_of_result (by decide +kernel)⟩, by rw [BitmapFits]; decide +kernel⟩
  have h0 : BootWorld.Reachable ⟨pmemBootInit.final smallBlank, []⟩ :=
      Run.Reachable.first ⟨hboot, rfl⟩
  have c0 : BootWorld.Clear ⟨pmemBootInit.final smallBlank, []⟩ 1 :=
    Fits.noHole (m := 1) (by decide +kernel) (by decide +kernel)
  have r0 : pmemNalloc 1 (pmemBootInit.final smallBlank) = .ok (some 8192, _) :=
    Prog.run_of_result (by decide +kernel)
  have h1 := Run.Reachable.next h0 (.nalloc c0 r0)
  have c1 : BootWorld.Clear ⟨(pmemNalloc 1).final (pmemBootInit.final smallBlank), [(1, 1)]⟩ 1 :=
    Fits.noHole (m := 2) (by decide +kernel) (by decide +kernel)
  have r1 : pmemNalloc 1 ((pmemNalloc 1).final (pmemBootInit.final smallBlank)) =
      .ok (some 12288, _) :=
    Prog.run_of_result (by decide +kernel)
  have h2 := Run.Reachable.next h1 (.nalloc c1 r1)
  rw [smallTaken]
  exact h2

/-- With page 1 given back and page 2 in use, a call for two pages trips over page 2: `bitmap_find`
returns 2, the number of pages in use below the first fit at 3. -/
theorem smallHole_asserts : BootWorld.Reachable ⟨smallHole, [(2, 1)]⟩ ∧
    bitmapFind 2 smallHole = .ok (some 2, smallHole) ∧
    FirstFit smallHole.bitmap 2 smallHole.bitmapEnd (some 3) ∧
    pmemNalloc 2 smallHole = .error (.kassert "!(BITMAP_ISSET(index + i))") := by
  have hfree : pmemNfree (bitmapItop smallTaken.config 1) 1 smallTaken = .ok ((), smallHole) := by
    rw [smallHole]
    exact Prog.run_of_result (by decide +kernel)
  have hfind : bitmapFindLoop smallHole.bitmap 2 smallHole.bitmapEnd 0 0 0 =
      some 2 := by decide +kernel
  refine ⟨Run.Reachable.next smallTaken_reachable (.nfree (r := (1, 1)) (by decide) hfree), ?_, ?_,
    ?_⟩
  · rw [bitmapFind_run Nat.two_pos, hfind]
  · exact ⟨by decide +kernel, by decide +kernel⟩
  · exact Prog.run_of_trapOf (by decide +kernel)

/-- The small machine before the hole: the next call for three pages gets the first fit. -/
theorem smallTaken_first_fit : BootWorld.Reachable ⟨smallTaken, [(2, 1), (1, 1)]⟩ ∧
    BootWorld.Clear ⟨smallTaken, [(2, 1), (1, 1)]⟩ 3 ∧ ∃ r pm,
      pmemNalloc 3 smallTaken = .ok (r.map (bitmapItop smallTaken.config), pm) ∧
        FirstFit smallTaken.bitmap 3 smallTaken.bitmapEnd r := by
  have hclear : BootWorld.Clear ⟨smallTaken, [(2, 1), (1, 1)]⟩ 3 :=
    Fits.noHole (m := 3) (by decide +kernel) (by decide +kernel)
  exact ⟨smallTaken_reachable, hclear,
    (bitmapFind_first_fit _ smallTaken_reachable).2.1 3 (Nat.succ_pos 2) hclear⟩

end Osv
