import Osv.Vm.Destroy
import Osv.Vm.PageMap
import Osv.Vm.Shared

/-!
# The pages of an address space

`Paged k d s` says that the address space with the top-level table `d` has its pages to
itself: its tables form a `Tree`, the pages it maps are allocated, are no tables and are
mapped once, and its kernel's entry is that of the kernel's top-level table `k`.

What happens elsewhere keeps this and keeps all entries (`Paged.congr`).  A page that was
just allocated is `Fresh`: nothing of the address space leads to it.  It can be filled and
given back, and mapping it changes one entry (`Paged.vpmapMap`).

`Seen d p s s'` says that between two states nothing has changed for a program that looks
at the pages other than `p`.
-/

namespace Osv

/-- The tables and pages of an address space. -/
structure Paged (k d : ℕ) (s : Vm) : Prop where
  ready : s.pm.Ready
  tree : Tree s d
  kernel_used : k ∉ freePages s.pm
  kernel_apart : k ∉ own s d
  kernel : s.mem d kernelIdx = if present (s.mem k kernelIdx) then s.mem k kernelIdx else 0
  /-- A page that is mapped is allocated and is no table. -/
  pages : ∀ p f, UserPath (pagePath p) → reach s.mem d (pagePath p) = some f →
    f ∉ freePages s.pm ∧ f ≠ k ∧ ∀ π : List ℕ, π.length ≤ 3 → reach s.mem d π ≠ some f
  /-- It is mapped once. -/
  inj : ∀ p q f, UserPath (pagePath p) → UserPath (pagePath q) →
    reach s.mem d (pagePath p) = some f → reach s.mem d (pagePath q) = some f →
      p % 2 ^ 36 = q % 2 ^ 36
  /-- The entry of a page is present or has no address. -/
  words : ∀ p, UserPath (pagePath p) →
    (present (entryOf s.mem d p) = true ↔ entryAddr (entryOf s.mem d p) ≠ 0)

/-- An allocated page that the address space does not have. -/
structure Fresh (k d g : ℕ) (s : Vm) : Prop where
  lt : g < 2 ^ 39
  used : g ∉ freePages s.pm
  ne_zero : g ≠ 0
  ne_kernel : g ≠ k
  table : ∀ π : List ℕ, π.length ≤ 3 → reach s.mem d π ≠ some g
  page : ∀ p, UserPath (pagePath p) → reach s.mem d (pagePath p) ≠ some g
  held : s.pm.Holding {g}

/-- The pages with the indices in `P` look the same in `s'` as in `s`. -/
def Seen (d : ℕ) (P : ℕ → Prop) (s s' : Vm) : Prop :=
  ∀ p, UserPath (pagePath p) → P (p % 2 ^ 36) → entryOf s'.mem d p = entryOf s.mem d p ∧
    ∀ f, reach s.mem d (pagePath p) = some f → s'.mem f = s.mem f

variable {k d g : ℕ} {s s1 s' : Vm} {P Q : ℕ → Prop}

namespace Seen

theorem refl : Seen d P s s := fun _ _ _ => ⟨rfl, fun _ _ => rfl⟩

theorem reach_eq (h : Seen d P s s') {p : ℕ} (hu : UserPath (pagePath p)) (hp : P (p % 2 ^ 36)) :
    reach s'.mem d (pagePath p) = reach s.mem d (pagePath p) := by
  rw [reach_pagePath, reach_pagePath, (h p hu hp).1]

theorem trans (h : Seen d P s s1) (h' : Seen d P s1 s') : Seen d P s s' := by
  intro p hu hp
  refine ⟨(h' p hu hp).1.trans (h p hu hp).1, fun f hf => ?_⟩
  rw [(h' p hu hp).2 f (h.reach_eq hu hp ▸ hf), (h p hu hp).2 f hf]

theorem mono (h : Seen d P s s') (hQ : ∀ p, Q p → P p) : Seen d Q s s' :=
  fun p hu hp => h p hu (hQ _ hp)

end Seen

theorem pagePath_mod (p : ℕ) : pagePath (p % 2 ^ 36) = pagePath p := by
  rw [pagePath_eq, pagePath_eq]
  exact dirOf_mod 4 p

theorem userPath_pagePath_iff {p : ℕ} : UserPath (pagePath p) ↔ Under userEntries (pageDir p) := by
  rw [under_pageDir]
  exact Iff.rfl

namespace Paged

/-- The address space is as it was if its tables are, and its tables and pages are still allocated.
-/
theorem congr (A : Paged k d s) (hr : s'.pm.Ready)
    (htab : ∀ (π : List ℕ) f, π.length ≤ 3 → reach s.mem d π = some f →
      s'.mem f = s.mem f ∧ f ∉ freePages s'.pm)
    (hpage : ∀ p f, UserPath (pagePath p) → reach s.mem d (pagePath p) =
    some f → f ∉ freePages s'.pm) (hk : s'.mem k = s.mem k ∧ k ∉ freePages s'.pm) :
    Paged k d s' ∧ ∀ p, entryOf s'.mem d p = entryOf s.mem d p := by
  have hreach : ∀ ρ : List ℕ, ρ.length ≤ 3 → reach s'.mem d ρ = reach s.mem d ρ := fun ρ hρ =>
    reach_congr (fun σ f hσ hf => (htab σ f hσ.le hf).1) hρ
  have hent := entryOf_congr fun π f hπ hf => (htab π f hπ hf).1
  have hpath : ∀ p, reach s'.mem d (pagePath p) = reach s.mem d (pagePath p) := fun p => by
    rw [reach_pagePath, reach_pagePath, hent p]
  refine ⟨⟨hr, ⟨fun ρ f hρ hf => ?_, fun π ρ f hπ hρ h1 h2 => ?_⟩, hk.2, ?_, ?_,
    fun p f hu hf => ?_, fun p q f hp hq h1 h2 => ?_, fun p hu => ?_⟩, hent⟩
  · exact (htab ρ f hρ (hreach ρ hρ ▸ hf)).2
  · exact A.tree.unique π ρ f hπ hρ (hreach π hπ.1 ▸ h1) (hreach ρ hρ ▸ h2)
  · rw [own_congr hreach]
    exact A.kernel_apart
  · rw [(htab [] d (by simp) rfl).1, hk.1, A.kernel]
  · rw [hpath p] at hf
    refine ⟨hpage p f hu hf, (A.pages p f hu hf).2.1, fun π hπ h => ?_⟩
    exact (A.pages p f hu hf).2.2 π hπ (hreach π hπ ▸ h)
  · exact A.inj p q f hp hq (hpath p ▸ h1) (hpath q ▸ h2)
  · rw [hent p]
    exact A.words p hu

theorem quiet (A : Paged k d s) (hr : s'.pm.Ready) (hsub : freePages s'.pm ⊆ freePages s.pm)
    (hmem : ∀ f, f ∉ freePages s.pm → s'.mem f = s.mem f) :
    Paged k d s' ∧ Seen d (fun _ => True) s s' := by
  obtain ⟨A', hent⟩ := A.congr hr
    (fun π f hπ hf => ⟨hmem f (A.tree.used π f hπ hf), fun h => A.tree.used π f hπ hf (hsub h)⟩)
    (fun p f hu hf h => (A.pages p f hu hf).1 (hsub h))
    ⟨hmem k A.kernel_used, fun h => A.kernel_used (hsub h)⟩
  exact ⟨A', fun p hu _ => ⟨hent p, fun f hf => hmem f (A.pages p f hu hf).1⟩⟩

theorem store (A : Paged k d s) {q f j w : ℕ} (hq : UserPath (pagePath q))
    (hf : reach s.mem d (pagePath q) = some f) :
    Paged k d (s.setWord f j w) ∧ (∀ p, entryOf (s.setWord f j w).mem d p = entryOf s.mem d p) ∧
      Seen d (· ≠ q % 2 ^ 36) s (s.setWord f j w) := by
  have hmem : ∀ f', f' ≠ f → (s.setWord f j w).mem f' = s.mem f' := by
    intro f' hne
    funext i
    exact if_neg fun h => hne h.1
  obtain ⟨hused, hk, htab⟩ := A.pages q f hq hf
  have hready : (s.setWord f j w).pm.Ready := A.ready
  obtain ⟨A', hent⟩ := A.congr hready
    (fun π f' hπ hf' => ⟨hmem f' fun h => htab π hπ (h ▸ hf'), A.tree.used π f' hπ hf'⟩)
    (fun p f' hu hf' => (A.pages p f' hu hf').1) ⟨hmem k hk.symm, A.kernel_used⟩
  refine ⟨A', hent, fun p hu hp => ⟨hent p, fun f' hf' => hmem f' ?_⟩⟩
  rintro rfl
  exact hp (A.inj p q f' hu hq hf' hf)

theorem alloc (A : Paged k d s) {paddr : ℕ} (h : pmemCall pmemAlloc s = .ok (some paddr, s1))
    (hpm : s'.pm = s1.pm) (hmem : ∀ f, f ≠ paddr / pgSize → s'.mem f = s1.mem f) :
    ∃ g, paddr = g * pgSize ∧ Fresh k d g s' ∧ Paged k d s' ∧ Seen d (fun _ => True) s s' := by
  obtain ⟨g, rfl, hlt, hin, hout, hready, hsub, hsame⟩ := pmemCall_alloc A.ready h
  obtain ⟨pm1, hrun, hs1⟩ := Prog.zoom_ok.mp h
  have hpg := mul_pgSize_div g
  rw [hpg] at hmem
  have hkeep : ∀ f, f ∉ freePages s.pm → s'.mem f = s.mem f := fun f hf => by
    rw [hmem f fun h => hf (h ▸ hin), hsame]
  have hheld : s1.pm.Holding {g} := by
    have := ((Pmem.ready_iff_holding.mp A.ready).pmemNalloc le_rfl (by decide) hrun).2 _ rfl rfl
    rw [hpg] at this
    rw [hs1]
    exact this.mono (by simp)
  have hready' : s'.pm.Ready := hpm ▸ hready
  obtain ⟨A', hseen⟩ := A.quiet hready' (hpm ▸ hsub) hkeep
  refine ⟨g, rfl, ⟨hlt, hpm ▸ hout, ?_, fun h => A.kernel_used (h ▸ hin), fun π hπ hg =>
    ?_, fun p hu hg => ?_,
    hpm ▸ hheld⟩, A', hseen⟩
  · rintro rfl
    exact A.ready.zero_not_free hin
  · rw [reach_congr (fun σ f hσ hf => hkeep f (A.tree.used σ f hσ.le hf)) hπ] at hg
    exact A.tree.used π g hπ hg hin
  · rw [hseen.reach_eq hu trivial] at hg
    exact (A.pages p g hu hg).1 hin

theorem free (A : Paged k d s) (F : Fresh k d g s)
    (h : pmemCall (pmemFree (g * pgSize)) s = .ok ((), s')) :
    Paged k d s' ∧ Seen d (fun _ => True) s s' := by
  obtain ⟨pm', hrun, hs'⟩ := Prog.zoom_ok.mp h
  obtain ⟨hheld, hfree⟩ := Pmem.Holding.pmemFree (H := ∅) (F.held.mono (by simp)) (by simp) hrun
  have hpm : s'.pm = pm' := by rw [hs']
  have hmem : s'.mem = s.mem := by rw [hs']
  rw [← hpm] at hheld hfree
  have hused : ∀ f, f ∉ freePages s.pm → f ≠ g → f ∉ freePages s'.pm := by
    intro f hf hne
    rw [hfree]
    exact not_or.mpr ⟨hne, hf⟩
  obtain ⟨A', hent⟩ := A.congr hheld.ready
    (fun π f hπ hf => ⟨by rw [hmem], hused f (A.tree.used π f hπ hf) fun h =>
      F.table π hπ (h ▸ hf)⟩)
    (fun p f hu hf => hused f (A.pages p f hu hf).1 fun h => F.page p hu (h ▸ hf))
    ⟨by rw [hmem], hused k A.kernel_used F.ne_kernel.symm⟩
  exact ⟨A', fun p _ _ => ⟨hent p, fun _ _ => by rw [hmem]⟩⟩

end Paged

theorem Fresh.shrink (F : Fresh k d g s) (hmem : s'.mem = s.mem)
    (hsub : freePages s'.pm ⊆ freePages s.pm) (hholds : ∀ H, s.pm.Holding H → s'.pm.Holding H) :
    Fresh k d g s' := by
  refine ⟨F.lt, fun h => F.used (hsub h), F.ne_zero, F.ne_kernel, ?_, ?_, hholds _ F.held⟩
  · rw [hmem]
    exact F.table
  · rw [hmem]
    exact F.page

/-! ## Mapping a page -/

theorem vpmapMap_entries {v : ℕ} {perm : MemPerm} {e : Err} (A : Paged k d s) (hv : v < 2 ^ 64)
    (hk : pml4x v ≠ kernelIdx) (hg : g < 2 ^ 39)
    (h : vpmapMap d v (g * pgSize) 1 perm s = .ok (e, s')) :
    ∀ p, UserPath (pagePath p) → entryOf s'.mem d p =
      if e = .ok ∧ p % 2 ^ 36 = pageOf v then mkPte (g * pgSize) (mempermToPteperm perm)
      else entryOf s.mem d p := by
  have hpaddr : g * pgSize < 2 ^ 64 := by
    rw [pgSize]
    omega
  have hdown : pgRoundDown v < 2 ^ 64 := by
    rw [pgRoundDown, pgSize]
    omega
  obtain ⟨e', t, n, hrun, -, hres, hent⟩ := (A.tree.solo A.ready).mapLoop
    (n := 1) (v := pgRoundDown v) (a := g * pgSize) (mempermToPteperm perm) (by decide)
    (fun i hi => by
      rw [Nat.lt_one_iff.mp hi, Nat.zero_mul, Nat.add_zero, Nat.mod_eq_of_lt hdown, pml4x_roundDown]
      exact hk) hdown hpaddr
  rw [vpmapMap_eq hv one_pos (by decide), mul_pgSize_div, hrun] at h
  cases h
  intro p hu
  have hlt : p % 2 ^ 36 < 2 ^ 36 := Nat.mod_lt _ (by decide)
  rw [entryOf_mod s'.mem, hent _ hlt (userPath_pagePath_iff.mp (by rwa [pagePath_mod])), putEntries,
    ← entryOf_mod, pgRoundDown, mul_pgSize_div]
  have hpage : pageOf v = v / pgSize % 2 ^ 36 := rfl
  generalize v / pgSize = q at hpage
  rcases hres with ⟨rfl, rfl⟩ | ⟨rfl, hn⟩
  · by_cases hp : p % 2 ^ 36 = pageOf v
    · have h0 : (p % 2 ^ 36 + (2 ^ 36 - q % 2 ^ 36)) % 2 ^ 36 = 0 := by omega
      rw [h0, if_pos one_pos, if_pos ⟨rfl, hp⟩, Nat.zero_mul, Nat.add_zero, Nat.mod_eq_of_lt hpaddr]
    · rw [if_neg (by omega), if_neg (by tauto)]
  · rw [if_neg (by omega), if_neg fun h => by cases h.1]

/-- Mapping a fresh page, whether there was memory for its tables or not. -/
theorem Paged.vpmapMap {v : ℕ} {perm : MemPerm} {e : Err} (A : Paged k d s) (F : Fresh k d g s)
    (hv : v < 2 ^ 64) (hk : pml4x v ≠ kernelIdx)
    (h : Osv.vpmapMap d v (g * pgSize) 1 perm s = .ok (e, s')) :
    Paged k d s' ∧ s'.mem g = s.mem g ∧ Seen d (· ≠ pageOf v) s s' ∧
      (e ≠ .ok → Fresh k d g s' ∧ Seen d (fun _ => True) s s') ∧
      (e = .ok → entryOf s'.mem d (pageOf v) = mkPte (g * pgSize) (mempermToPteperm perm)) := by
  have W : Within s d s' := .vpmapMap A.tree A.ready hv hk h
  have hent := vpmapMap_entries A hv hk F.lt h
  have hperm := mempermToPteperm_lt perm
  have hreach : ∀ p f, UserPath (pagePath p) → reach s'.mem d (pagePath p) = some f →
      (e = .ok ∧ p % 2 ^ 36 = pageOf v ∧ f = g) ∨ reach s.mem d (pagePath p) = some f := by
    intro p f hu hf
    rw [reach_eq_some, hent p hu] at hf
    split at hf
    · rename_i hc
      exact .inl ⟨hc.1, hc.2, by rw [← hf.2, entryFrame_mkPte F.lt hperm]⟩
    · exact .inr (reach_eq_some.mpr hf)
  have htable : ∀ f, f ∉ freePages s.pm → (∀ π : List ℕ, π.length ≤ 3 → reach s.mem d π ≠ some f) →
      ∀ π : List ℕ, π.length ≤ 3 → reach s'.mem d π ≠ some f := by
    intro f hf hnot π hπ h
    rcases W.reach_old A.tree hπ h with ⟨σ, hσ, h⟩ | h
    · exact hnot σ hσ h
    · exact hf h.1
  have hmem : ∀ f, f ∉ freePages s.pm → (∀ π : List ℕ, π.length ≤ 3 → reach s.mem d π ≠ some f) →
      s'.mem f = s.mem f := by
    intro f hf hnot
    refine W.frame f hf ?_
    rintro ⟨π, hπ, h⟩
    exact hnot π hπ.1 h
  have hpages : ∀ p f, UserPath (pagePath p) → reach s.mem d (pagePath p) = some f →
      s'.mem f = s.mem f := fun p f hu hf => hmem f (A.pages p f hu hf).1 (A.pages p f hu hf).2.2
  have hown : k ∉ own s' d := fun h => (W.own h).elim A.kernel_apart fun h => A.kernel_used h.1
  refine ⟨⟨W.ready A.ready, W.tree, fun h => A.kernel_used (W.sub h), hown, ?_, fun p f hu hf => ?_,
    fun p q f hp hq h1 h2 => ?_, fun p hu => ?_⟩, hmem g F.used F.table, fun p hu hp => ?_,
    fun he => ⟨⟨F.lt, fun h => F.used (W.sub h), F.ne_zero, F.ne_kernel, htable g F.used F.table,
      fun p hu hg => ?_, W.holds _ F.held⟩, fun p hu _ => ?_⟩, fun he => ?_⟩
  · rw [W.kernel, W.frame k A.kernel_used A.kernel_apart]
    exact A.kernel
  · rcases hreach p f hu hf with ⟨-, -, rfl⟩ | hf
    · exact ⟨fun h => F.used (W.sub h), F.ne_kernel, htable f F.used F.table⟩
    · obtain ⟨h1, h2, h3⟩ := A.pages p f hu hf
      exact ⟨fun h => h1 (W.sub h), h2, htable f h1 h3⟩
  · rcases hreach p f hp h1 with ⟨-, e1, rfl⟩ | h1 <;> rcases hreach q _ hq h2 with ⟨-, e2, h2⟩ | h2
    · rw [e1, e2]
    · exact absurd h2 (F.page q hq)
    · exact absurd (h2 ▸ h1) (F.page p hp)
    · exact A.inj p q f hp hq h1 h2
  · rw [hent p hu]
    split
    · rw [entryAddr, entryFrame_mkPte F.lt hperm]
      simp only [present_mkPte F.lt hperm, true_iff]
      exact Nat.mul_ne_zero F.ne_zero pgSize_pos.ne'
    · exact A.words p hu
  · refine ⟨?_, fun f hf => hpages p f hu hf⟩
    rw [hent p hu, if_neg fun h => hp h.2]
  · rcases hreach p g hu hg with ⟨he', -⟩ | hg
    · exact he he'
    · exact F.page p hu hg
  · refine ⟨?_, fun f hf => hpages p f hu hf⟩
    rw [hent p hu, if_neg fun h => he h.1]
  · rw [hent _ (userPath_pagePath.mpr hk), Nat.mod_eq_of_lt (pageOf_lt v), if_pos ⟨he, rfl⟩]

end Osv
