import Osv.Vm.Tables

/-!
# Tables of an address space

The tables an address space reaches are its own, the top-level table and those
behind its user entries, or the kernel's, which every address space reaches
through the last entry of its top-level table.  `Tree` says that no table is
free and that an own table is reached in one way only, in particular not
through the kernel's entry.

`Within s0 d s` says that what happened between two states was work on the
address space with the top-level table `d`: only its own tables and pages that
were free have changed, and the tables it has got since were free.  Mapping a page
at a user address is such work (`Within.vpmapMap`), and so is every use of
pages that were free.
-/

namespace Osv

open Prog (total_bind total_ite total_pure total_update)

/-- A walk to a table that does not start with the kernel's entry. -/
def OwnPath (π : List ℕ) : Prop := π.length ≤ 3 ∧ (π = [] ∨ UserPath π)

/-- The tables of its own that a top-level table leads to. -/
def own (s : Vm) (d : ℕ) : Set ℕ := {f | ∃ π, OwnPath π ∧ reach s.mem d π = some f}

/-- The tables behind a top-level table are in use, and an own table is reached in one way. -/
structure Tree (s : Vm) (d : ℕ) : Prop where
  used : ∀ ρ f, ρ.length ≤ 3 → reach s.mem d ρ = some f → f ∉ freePages s.pm
  unique : ∀ π ρ f, OwnPath π → ρ.length ≤ 3 → reach s.mem d π = some f →
    reach s.mem d ρ = some f → ρ = π

/-- Between `s0` and `s` there was work on the address space with the top-level table `d` only. -/
structure Within (s0 : Vm) (d : ℕ) (s : Vm) : Prop where
  tree : Tree s d
  holds : ∀ H, s0.pm.Holding H → s.pm.Holding H
  sub : freePages s.pm ⊆ freePages s0.pm
  frame : ∀ f, f ∉ freePages s0.pm → f ∉ own s0 d → s.mem f = s0.mem f
  kernel : s.mem d kernelIdx = s0.mem d kernelIdx
  own : own s d ⊆ own s0 d ∪ taken s0 s

theorem OwnPath.nil : OwnPath [] := ⟨by simp, .inl rfl⟩

theorem ownPath_iff_under {π : List ℕ} : OwnPath π ↔ Under userEntries π := by
  cases π with
  | nil => simp [OwnPath, Under]
  | cons i π => simp [OwnPath, Under, UserPath, userEntries]

theorem own_eq_tables (s : Vm) (d : ℕ) : own s d = tables userEntries s d := by
  simp only [own, tables, ownPath_iff_under]

theorem ownPath_or_kernel {ρ : List ℕ} (hρ : ρ.length ≤ 3) :
    OwnPath ρ ∨ ∃ σ, ρ = kernelIdx :: σ ∧ σ.length ≤ 2 := by
  cases ρ with
  | nil => exact .inl .nil
  | cons i σ =>
    rw [List.length_cons] at hρ
    by_cases hi : i = kernelIdx
    · exact .inr ⟨σ, by rw [hi], by omega⟩
    · exact .inl ⟨hρ, .inr hi⟩

namespace Tree

variable {s s' : Vm} {d : ℕ}

theorem root_used (T : Tree s d) : d ∉ freePages s.pm := T.used [] d (by simp) rfl

theorem own_used (T : Tree s d) {f : ℕ} (h : f ∈ own s d) : f ∉ freePages s.pm := by
  obtain ⟨π, hπ, hf⟩ := h
  exact T.used π f hπ.1 hf

theorem congr (T : Tree s d) (hsub : freePages s'.pm ⊆ freePages s.pm)
    (hreach : ∀ ρ : List ℕ, ρ.length ≤ 3 → reach s'.mem d ρ = reach s.mem d ρ) : Tree s' d := by
  refine ⟨fun ρ f hρ hf => ?_, fun π ρ f hπ hρ h1 h2 => ?_⟩
  · rw [hreach ρ hρ] at hf
    exact fun h => T.used ρ f hρ hf (hsub h)
  · rw [hreach π hπ.1] at h1
    rw [hreach ρ hρ] at h2
    exact T.unique π ρ f hπ hρ h1 h2

theorem solo (T : Tree s d) (hr : s.pm.Ready) : Solo userEntries s d := by
  refine ⟨hr, ?_, fun π ρ f hπ hρ h1 h2 => ?_⟩
  · rintro f ⟨π, hπ, hf⟩
    exact T.used π f hπ.1 hf
  · exact T.unique ρ π f (ownPath_iff_under.mpr hρ) hπ.1 h2 h1

/-- The tables behind the kernel's entry stay where only own tables and free pages change. -/
theorem reach_kernel (T : Tree s d) (hroot : s'.mem d kernelIdx = s.mem d kernelIdx)
    (hframe : ∀ f, f ∉ freePages s.pm → f ∉ own s d → s'.mem f = s.mem f) {ρ : List ℕ}
    (hρ : ρ.length ≤ 2) : reach s'.mem d (kernelIdx :: ρ) = reach s.mem d (kernelIdx :: ρ) := by
  refine Nodes.follow_congr fun σ i f hpre hf => slot_congr ?_
  have hlen := hpre.length_le
  rw [Nodes.length_snoc, List.length_cons] at hlen
  cases σ with
  | nil =>
    cases hf
    obtain ⟨rfl, -⟩ := List.cons_prefix_cons.mp hpre
    exact hroot
  | cons j σ =>
    obtain ⟨rfl, -⟩ := List.cons_prefix_cons.mp hpre
    refine congrFun (hframe f (T.used _ f (by omega) hf) ?_) i
    rintro ⟨π, hπ, hfπ⟩
    have := T.unique π _ f hπ (by omega) hfπ hf
    rw [← this] at hπ
    exact hπ.2.elim (List.cons_ne_nil _ _) fun h => h rfl

end Tree

theorem own_congr {s s' : Vm} {d : ℕ} (hreach : ∀ ρ : List ℕ, ρ.length ≤ 3 →
    reach s'.mem d ρ = reach s.mem d ρ) : own s' d = own s d := by
  ext f
  constructor
  · rintro ⟨π, hπ, hf⟩
    exact ⟨π, hπ, hreach π hπ.1 ▸ hf⟩
  · rintro ⟨π, hπ, hf⟩
    exact ⟨π, hπ, (hreach π hπ.1).trans hf⟩

variable {ρ : List ℕ}

namespace Within

variable {s0 s1 s s' : Vm} {d : ℕ}

theorem refl (T : Tree s d) : Within s d s :=
  ⟨T, fun _ h => h, subset_rfl, fun _ _ _ => rfl, rfl, fun _ h => .inl h⟩

theorem trans (W : Within s0 d s1) (W' : Within s1 d s) : Within s0 d s := by
  have hmono : taken s0 s1 ⊆ taken s0 s := Grown.taken_mono W'.sub
  refine ⟨W'.tree, fun H hH => W'.holds H (W.holds H hH), W'.sub.trans W.sub, ?_,
    W'.kernel.trans W.kernel, ?_⟩
  · intro f hfree hown
    rw [W'.frame f (fun h => hfree (W.sub h)) fun h => ?_, W.frame f hfree hown]
    rcases W.own h with h | h
    · exact hown h
    · exact hfree h.1
  · intro f hf
    rcases W'.own hf with h | h
    · exact (W.own h).imp_right fun h => hmono h
    · exact .inr ⟨W.sub h.1, h.2⟩

theorem ready (W : Within s0 d s) (h : s0.pm.Ready) : s.pm.Ready :=
  (W.holds ∅ (Pmem.ready_iff_holding.mp h)).ready

theorem free_ne (T : Tree s d) {g : ℕ} (hg : g ∈ freePages s.pm) {f : ℕ} (hρ : ρ.length ≤ 3)
    (hf : reach s.mem d ρ = some f) : f ≠ g :=
  fun h => T.used ρ f hρ hf (h ▸ hg)

theorem of_free (T : Tree s d) (hholds : ∀ H, s.pm.Holding H → s'.pm.Holding H)
    (hsub : freePages s'.pm ⊆ freePages s.pm)
    (hmem : ∀ f, f ∉ freePages s.pm → s'.mem f = s.mem f) : Within s d s' := by
  have hreach : ∀ ρ : List ℕ, ρ.length ≤ 3 → reach s'.mem d ρ = reach s.mem d ρ := by
    intro ρ hρ
    exact reach_congr (fun σ f hσ hf => hmem f (T.used σ f (by omega) hf)) hρ
  refine ⟨T.congr hsub hreach, hholds, hsub, fun f hf _ => hmem f hf, ?_, ?_⟩
  · rw [hmem d T.root_used]
  · rw [own_congr hreach]
    exact fun f hf => .inl hf

theorem of_alloc (T : Tree s d) (hr : s.pm.Ready) {paddr : ℕ}
    (h : pmemCall pmemAlloc s = .ok (some paddr, s1)) (hpm : s'.pm = s1.pm)
    (hmem : ∀ f, f ≠ paddr / pgSize → s'.mem f = s1.mem f) :
    Within s d s' ∧ ∃ g, paddr = g * pgSize ∧ g ∈ freePages s.pm ∧ g ∉ freePages s'.pm ∧
      (∀ ρ : List ℕ, ρ.length ≤ 3 → reach s'.mem d ρ ≠ some g) ∧
      ∀ H, s.pm.Holding H → s'.pm.Holding (insert g H) := by
  obtain ⟨g, rfl, -, hin, hout, -, hsub, hsame⟩ := pmemCall_alloc hr h
  obtain ⟨pm1, hrun, hs1⟩ := Prog.zoom_ok.mp h
  have hpg := mul_pgSize_div g
  rw [hpg] at hmem
  have hhold : ∀ H, s.pm.Holding H → s'.pm.Holding (insert g H) := by
    intro H hH
    rw [hpm, hs1, ← hpg]
    exact (hH.pmemNalloc le_rfl (by decide) hrun).2 _ rfl rfl
  have hmem' : ∀ f, f ∉ freePages s.pm → s'.mem f = s.mem f := by
    intro f hf
    rw [hmem f fun h => hf (h ▸ hin), hsame]
  refine ⟨of_free T (fun H hH => (hhold H hH).mono (Set.subset_insert g H))
    (hpm ▸ hsub) hmem', g, rfl, hin, hpm ▸ hout, fun ρ hρ hg => ?_, hhold⟩
  rw [reach_congr (fun σ f hσ hf => hmem' f (T.used σ f (by omega) hf)) hρ] at hg
  exact free_ne T hin hρ hg rfl

theorem of_built (T : Tree s d) (hholds : ∀ H, s.pm.Holding H → s'.pm.Holding H)
    (B : Built userEntries d s s') : Within s d s' := by
  have hframe : ∀ f, f ∉ freePages s.pm → f ∉ Osv.own s d → s'.mem f = s.mem f := by
    rw [own_eq_tables]
    exact B.frame
  have hkern : s'.mem d kernelIdx = s.mem d kernelIdx := B.root kernelIdx fun h => h rfl
  refine ⟨⟨fun ρ f hρ hf => ?_, fun π ρ f hπ hρ h1 h2 => ?_⟩, hholds, B.sub, hframe, hkern, ?_⟩
  · rcases ownPath_or_kernel hρ with hown | ⟨σ, rfl, hσ⟩
    · exact B.solo.used f ⟨ρ, ownPath_iff_under.mp hown, hf⟩
    · rw [T.reach_kernel hkern hframe hσ] at hf
      exact fun h => T.used _ f hρ hf (B.sub h)
  · rcases ownPath_or_kernel hρ with hown | ⟨σ, rfl, hσ⟩
    · exact B.solo.unique ρ π f (ownPath_iff_under.mp hown) (ownPath_iff_under.mp hπ) h2 h1
    · rw [T.reach_kernel hkern hframe hσ] at h2
      rcases B.tables ⟨π, ownPath_iff_under.mp hπ, h1⟩ with ⟨τ, hτ, h⟩ | h
      · have := T.unique τ _ f (ownPath_iff_under.mpr hτ) hρ h h2
        subst this
        exact absurd rfl (hτ.2 kernelIdx rfl)
      · exact absurd h.1 (T.used _ f hρ h2)
  · rw [own_eq_tables, own_eq_tables]
    exact B.tables

theorem reach_old (T : Tree s0 d) (W : Within s0 d s) {f : ℕ} (hρ : ρ.length ≤ 3)
    (hf : reach s.mem d ρ = some f) : (∃ σ : List ℕ, σ.length ≤ 3 ∧ reach s0.mem d σ = some f)
    ∨ f ∈ taken s0 s := by
  rcases ownPath_or_kernel hρ with hown | ⟨σ, rfl, hσ⟩
  · rcases W.own ⟨ρ, hown, hf⟩ with ⟨π, hπ, hfπ⟩ | h
    · exact .inl ⟨π, hπ.1, hfπ⟩
    · exact .inr h
  · rw [T.reach_kernel W.kernel W.frame hσ] at hf
    exact .inl ⟨_, hρ, hf⟩

/-- A page is taken, there is more work, and the page is given back. -/
theorem free (hr : s0.pm.Ready) {g : ℕ} {s2 s3 : Vm} (W : Within s0 d s) (hin : g ∈ freePages s0.pm)
    (hout : g ∉ freePages s.pm) (hnot : ∀ ρ : List ℕ, ρ.length ≤ 3 → reach s.mem d ρ ≠ some g)
    (hhold : ∀ H, s0.pm.Holding H → s.pm.Holding (insert g H)) (W2 : Within s d s2)
    (h : pmemCall (pmemFree (g * pgSize)) s2 = .ok ((), s3)) : Within s0 d s3 := by
  obtain ⟨pm3, hrun, rfl⟩ := Prog.zoom_ok.mp h
  have hfree : ∀ H, s0.pm.Holding H →
      pm3.Holding H ∧ freePages pm3 = insert g (freePages s2.pm) := by
    intro H hH
    exact (W2.holds _ (hhold H hH)).pmemFree (fun h => hH.not_free h hin) hrun
  have hsub := (hfree ∅ (Pmem.ready_iff_holding.mp hr)).2.le
  have V := W.trans W2
  have hng : ∀ ρ : List ℕ, ρ.length ≤ 3 → reach s2.mem d ρ ≠ some g := by
    intro ρ hρ hg
    rcases W2.reach_old W.tree hρ hg with ⟨σ, hσ, h⟩ | h
    · exact hnot σ hσ h
    · exact hout h.1
  refine ⟨⟨fun ρ f hρ hf hfr => ?_, V.tree.unique⟩, fun H hH => (hfree H hH).1, ?_, V.frame,
    V.kernel, ?_⟩
  · rcases hsub hfr with rfl | h
    · exact hng ρ hρ hf
    · exact V.tree.used ρ f hρ hf h
  · intro f hf
    rcases hsub hf with rfl | h
    · exact hin
    · exact V.sub h
  · rintro f ⟨π, hπ, hf⟩
    rcases V.own ⟨π, hπ, hf⟩ with h | h
    · exact .inl h
    · refine .inr ⟨h.1, fun hfr => ?_⟩
      rcases hsub hfr with rfl | h'
      · exact hng π hπ.1 hf
      · exact h.2 h'

end Within

/-! ## Mapping one page -/

theorem pml4x_roundDown (v : ℕ) : pml4x (pgRoundDown v) = pml4x v := by
  simp only [pml4x, entryIdx, pgRoundDown, pgSize, nPtePerPg]
  omega

section

variable (H : Set ℕ)

theorem pmemCall_total {n : ℕ} (h1 : 1 ≤ n) (h2 : n ≤ 1024) :
    Prog.Total (fun s : Vm => s.pm.Holding H) (pmemCall (pmemNalloc n)) := by
  refine Prog.total_zoom (P := (Pmem.Holding · H)) (fun _ _ => rfl) fun pm h => ?_
  obtain ⟨r, pm', hrun, -⟩ := h.ready.pmemNalloc h1 h2
  exact ⟨r, pm', hrun, (h.pmemNalloc h1 h2 hrun).1⟩

theorem walkLevel_total (t i : ℕ) :
    Prog.Total (fun s : Vm => s.pm.Holding H) (walkLevel t i true) := by
  refine total_bind Prog.total_read fun s => total_ite (total_pure _) ?_
  refine total_ite (total_pure _) (total_bind (pmemCall_total H le_rfl (by decide)) fun x => ?_)
  cases x with
  | none => exact total_pure _
  | some paddr =>
    exact total_bind (total_update fun _ h => h) fun _ =>
      total_bind (total_update fun _ h => h) fun _ => total_pure _

theorem findPte_total (d v : ℕ) : Prog.Total (fun s : Vm => s.pm.Holding H) (findPte d v true) := by
  refine total_bind (walkLevel_total H _ _) fun x => ?_
  cases x with
  | none => exact total_pure _
  | some pdpt =>
    refine total_bind (walkLevel_total H _ _) fun x => ?_
    cases x with
    | none => exact total_pure _
    | some pgdir =>
      refine total_bind (walkLevel_total H _ _) fun x => ?_
      cases x with
      | none | some pgtab => exact total_pure _

end

theorem Within.vpmapMap {s s' : Vm} {d v paddr : ℕ} {perm : MemPerm} {e : Err} (T : Tree s d)
    (hr : s.pm.Ready) (hv : v < 2 ^ 64) (hk : pml4x v ≠ kernelIdx)
    (h : Osv.vpmapMap d v paddr 1 perm s = .ok (e, s')) : Within s d s' := by
  rw [vpmapMap_eq hv Nat.one_pos (by decide), mapLoop] at h
  obtain ⟨x, s1, hfind, h⟩ := Prog.bind_ok.mp h
  have hA : pml4x (pgRoundDown v) ∈ userEntries := by
    rw [pml4x_roundDown]
    exact hk
  obtain ⟨_, _, hrun, B, hpte, -⟩ := (T.solo hr).findPte hA
  rw [hfind] at hrun
  cases hrun
  have hholds : ∀ H, s.pm.Holding H → s1.pm.Holding H := by
    intro H hH
    obtain ⟨_, _, hrun, hH1⟩ := findPte_total H _ _ s hH
    cases hfind.symm.trans hrun
    exact hH1
  cases x with
  | none =>
    cases h
    exact .of_built T hholds B
  | some pte =>
    cases h
    obtain ⟨hreach, hidx⟩ := hpte pte rfl
    have hu : Under userEntries (pageDir (pageOf (pgRoundDown v))) := by
      rw [under_pageDir, ← pml4x_eq, Nat.mod_eq_of_lt (pml4x_lt _)]
      exact hA
    have B2 := (B.solo.setEntry (pageOf_lt _) hu hreach
        (mkPte (paddr / pgSize * pgSize) (mempermToPteperm perm))).1
    rw [← ptx_eq, ← hidx] at B2
    exact .of_built T hholds (B.trans B2)

end Osv
