import Osv.Vm.Copy

/-!
# The tables behind part of a top-level table

Only walks that start with a top-level entry of a set `A` are looked at.  An address space has
tables of its own behind all of its entries but the kernel's, and a page table that was made by
`vpmap_create` and has no kernel part has them behind every entry.

`Solo` says that no such table is free and that each is reached in one way. `find_pte` keeps this
and keeps the entries of all pages (`Solo.findPte`): a table it makes is a free page, and empty.  So
`map_pages` is an update of the entries of its pages, or of the first of them when an allocation
fails (`Solo.mapLoop`).
-/

namespace Osv

/-- A walk to a table that starts with a top-level entry in `A`. -/
def Under (A : Set ℕ) (π : List ℕ) : Prop := π.length ≤ 3 ∧ ∀ i ∈ π.head?, i ∈ A

/-- All top-level entries but the kernel's. -/
def userEntries : Set ℕ := {i | i ≠ kernelIdx}

/-- The tables behind the entries in `A`, with the top-level table itself. -/
def tables (A : Set ℕ) (s : Vm) (d : ℕ) : Set ℕ := {f | ∃ π, Under A π ∧ reach s.mem d π = some f}

/-- The tables behind the entries in `A` are in use, and each is reached in one way. -/
structure Solo (A : Set ℕ) (s : Vm) (d : ℕ) : Prop where
  ready : s.pm.Ready
  used : ∀ f ∈ tables A s d, f ∉ freePages s.pm
  unique : ∀ π ρ f, Under A π → Under A ρ → reach s.mem d π = some f →
    reach s.mem d ρ = some f → π = ρ

/-- Between `s` and `s'` there was work on the tables behind the entries in `A` only. -/
structure Built (A : Set ℕ) (d : ℕ) (s s' : Vm) : Prop where
  solo : Solo A s' d
  sub : freePages s'.pm ⊆ freePages s.pm
  frame : ∀ f, f ∉ freePages s.pm → f ∉ tables A s d → s'.mem f = s.mem f
  root : ∀ i ∉ A, s'.mem d i = s.mem d i
  tables : tables A s' d ⊆ tables A s d ∪ taken s s'

variable {A : Set ℕ} {s s' s1 : Vm} {d : ℕ}

theorem Under.nil : Under A [] := ⟨by simp, by simp⟩

variable {π : List ℕ}

theorem Under.of_snoc {i : ℕ} (h : Under A (π ++ [i])) : Under A π ∧ π.length < 3 := by
  obtain ⟨hlen, hhead⟩ := h
  rw [Nodes.length_snoc] at hlen
  refine ⟨⟨by omega, fun j hj => hhead j ?_⟩, by omega⟩
  cases π with
  | nil => cases hj
  | cons k π => exact hj

theorem under_pageDir {p : ℕ} : Under A (pageDir p) ↔ p / 2 ^ 27 % nPtePerPg ∈ A := by
  simp [Under, pageDir]

theorem mem_tables_root (A : Set ℕ) (s : Vm) (d : ℕ) : d ∈ tables A s d := ⟨[], .nil, rfl⟩

theorem reach_under_congr (h : ∀ σ f i, Under A (σ ++ [i]) → reach s.mem d σ = some f →
    s'.mem f i = s.mem f i) (hπ : Under A π) : reach s'.mem d π = reach s.mem d π := by
  refine Nodes.follow_congr fun σ i f hpre hf => slot_congr (h σ f i ⟨?_, ?_⟩ hf)
  · exact hpre.length_le.trans hπ.1
  · intro j hj
    refine hπ.2 j ?_
    obtain ⟨ρ, rfl⟩ := hpre
    cases σ <;> exact hj

theorem tables_congr (h : ∀ π, Under A π → reach s'.mem d π = reach s.mem d π) :
    tables A s' d = tables A s d := by
  ext f
  constructor
  · rintro ⟨π, hπ, hf⟩
    exact ⟨π, hπ, h π hπ ▸ hf⟩
  · rintro ⟨π, hπ, hf⟩
    exact ⟨π, hπ, (h π hπ).trans hf⟩

namespace Built

theorem refl (S : Solo A s d) : Built A d s s :=
  ⟨S, subset_rfl, fun _ _ _ => rfl, fun _ _ => rfl, fun _ h => .inl h⟩

theorem trans (B : Built A d s s1) (B' : Built A d s1 s') : Built A d s s' := by
  have hmono : taken s s1 ⊆ taken s s' := Grown.taken_mono B'.sub
  refine ⟨B'.solo, B'.sub.trans B.sub, fun f hfree hf => ?_, fun i hi => ?_, fun f hf => ?_⟩
  · rw [B'.frame f (fun h => hfree (B.sub h)) fun h => ?_, B.frame f hfree hf]
    rcases B.tables h with h | h
    · exact hf h
    · exact hfree h.1
  · rw [B'.root i hi, B.root i hi]
  · rcases B'.tables hf with h | h
    · exact (B.tables h).imp_right fun h => hmono h
    · exact .inr ⟨B.sub h.1, h.2⟩

end Built

namespace Solo

theorem congr (S : Solo A s d) (hready : s'.pm.Ready)
    (hused : ∀ f ∈ tables A s d, f ∉ freePages s'.pm)
    (h : ∀ π, Under A π → reach s'.mem d π = reach s.mem d π) : Solo A s' d := by
  refine ⟨hready, fun f hf => hused f (tables_congr h ▸ hf), fun π ρ f hπ hρ h1 h2 => ?_⟩
  rw [h π hπ] at h1
  rw [h ρ hρ] at h2
  exact S.unique π ρ f hπ hρ h1 h2

theorem free_ne (S : Solo A s d) {g f : ℕ} (hg : g ∈ freePages s.pm) (hπ : Under A π)
    (hf : reach s.mem d π = some f) : f ≠ g :=
  fun h => S.used f ⟨π, hπ, hf⟩ (h ▸ hg)

section

variable {π : List ℕ} {i t : ℕ} (S : Solo A s d) (hπ : Under A (π ++ [i])) (hi : i < nPtePerPg)
variable (ht : reach s.mem d π = some t)

include S hπ hi ht

/-- A free page becomes an empty table behind an entry that was empty. -/
theorem attach {g : ℕ} (hempty : ¬ present (s.mem t i)) (hin : g ∈ freePages s.pm)
    (hout : g ∉ freePages s1.pm) (hready : s1.pm.Ready) (hsub : freePages s1.pm ⊆ freePages s.pm)
    (hmem : s1.mem = s.mem) (hlt : g < 2 ^ 39) :
    let s' := (s1.zeroPage g).setWord t i (g * pgSize ||| 7)
    Built A d s s' ∧ reach s'.mem d (π ++ [i]) = some g ∧
      ∀ p, Under A (pageDir p) → entryOf s'.mem d p = entryOf s.mem d p := by
  intro s'
  have hgt : t ≠ g := S.free_ne hin hπ.of_snoc.1 ht
  have hword : s'.mem t i = (g * pgSize ||| 7) := if_pos ⟨rfl, rfl⟩
  have hlink : slot s'.mem t i = some g := by
    rw [slot_eq_some hi, hword]
    exact ⟨present_flags (by decide) rfl, entryFrame_flags hlt (by decide)⟩
  have hframe : ∀ f j, f ≠ g → (f ≠ t ∨ j ≠ i) → s'.mem f j = s.mem f j := by
    intro f j hfg hft
    have : s'.mem f j = s1.mem f j :=
      (if_neg (by tauto)).trans (if_neg hfg)
    rw [this, hmem]
  have hzero : ∀ j, s'.mem g j = 0 := fun j =>
    (if_neg fun h => hgt h.1.symm).trans (if_pos rfl)
  have hnone : ∀ j, slot s'.mem g j = none := fun j => by
    rw [slot, tableChild, hzero j]
    split <;> rfl
  have hreach : ∀ ρ, Under A ρ → reach s'.mem d ρ = if ρ = π ++ [i] then
      some g else reach s.mem d ρ :=
    fun ρ hρ => Nodes.follow_relink (P := Under A) ht (fun σ j h => h.of_snoc.1)
      (fun σ j h hσ => S.unique σ π t h.of_snoc.1 hπ.of_snoc.1 hσ ht) hlink
      (fun σ u j h _ hu hj => slot_congr (hframe u j (S.free_ne hin h.of_snoc.1 hu) hj))
      (fun j _ => by simp [hnone, (slot_eq_none hi).mpr hempty]) hρ
  have htables : tables A s' d ⊆ tables A s d ∪ taken s s' := by
    rintro f ⟨ρ, hρ, hf⟩
    rw [hreach ρ hρ] at hf
    split at hf
    · cases hf
      exact .inr ⟨hin, hout⟩
    · exact .inl ⟨ρ, hρ, hf⟩
  have hsolo : Solo A s' d := by
    refine ⟨hready, fun f hf => ?_, fun σ ρ f hσ hρ h1 h2 => ?_⟩
    · rcases htables hf with h | h
      · exact fun h' => S.used f h (hsub h')
      · exact h.2
    · rw [hreach σ hσ] at h1
      rw [hreach ρ hρ] at h2
      split at h1 <;> split at h2
      · rename_i e1 e2
        rw [e1, e2]
      · cases h1
        exact absurd rfl (S.free_ne hin hρ h2)
      · cases h2
        exact absurd rfl (S.free_ne hin hσ h1)
      · exact S.unique σ ρ f hσ hρ h1 h2
  refine ⟨⟨hsolo, hsub, fun f hfree hf => ?_, fun j hj => ?_, htables⟩, ?_, fun p hp => ?_⟩
  · have hfg : f ≠ g := fun h => hfree (h ▸ hin)
    have hft : f ≠ t := fun h => hf (h ▸ ⟨π, hπ.of_snoc.1, ht⟩)
    exact funext fun j => hframe f j hfg (.inl hft)
  · refine hframe d j (fun h => S.used d (mem_tables_root A s d) (h ▸ hin)) ?_
    cases π with
    | nil => exact .inr fun h => hj (h ▸ hπ.2 i rfl)
    | cons k π =>
      refine .inl ?_
      rintro rfl
      exact List.cons_ne_nil k π (S.unique _ [] d hπ.of_snoc.1 .nil ht rfl)
  · rw [hreach _ hπ, if_pos rfl]
  · rw [entryOf, entryOf, ← reach_pageDir, ← reach_pageDir, hreach _ hp]
    split_ifs with hpi
    · have hnot : reach s.mem d (pageDir p) = none := by
        rw [hpi, reach, Nodes.follow_snoc, ← reach, ht]
        exact (slot_eq_none hi).mpr hempty
      rw [hnot]
      exact hzero _
    · cases hu : reach s.mem d (pageDir p) with
      | none => rfl
      | some u =>
        refine hframe u _ (S.free_ne hin hp hu) (.inl ?_)
        rintro rfl
        have := congrArg List.length (S.unique _ _ u hp hπ.of_snoc.1 hu ht)
        rw [pageDir_length] at this
        have := hπ.of_snoc.2
        omega

/-- One level of `find_pte` returns the table below, if there is memory for it. -/
theorem walkLevel : ∃ x s', Osv.walkLevel t i true s = .ok (x, s') ∧ Built A d s s' ∧
      (∀ u, x = some u → reach s'.mem d (π ++ [i]) = some u) ∧
      ∀ p, Under A (pageDir p) → entryOf s'.mem d p = entryOf s.mem d p := by
  rw [Osv.walkLevel, Prog.read_bind]
  split
  · rename_i hp
    refine ⟨_, s, rfl, .refl S, ?_, fun _ _ => rfl⟩
    rintro u ⟨⟩
    rw [reach, Nodes.follow_snoc, ← reach, ht]
    exact (slot_eq_some hi).mpr ⟨hp, rfl⟩
  · rename_i hp
    rw [if_neg (by simp)]
    obtain ⟨r, pm1, hrun, hready, hsub, hnone, hsome⟩ := S.ready.pmemNalloc
        (n := 1) le_rfl (by decide)
    have hall : pmemCall pmemAlloc s = .ok (r, { s with pm := pm1 }) := Prog.zoom_of_ok hrun
    rw [Prog.bind_of_ok hall]
    cases r with
    | none =>
      refine ⟨none, _, rfl, ?_, (fun _ h => by cases h), fun _ _ => rfl⟩
      rw [hnone rfl]
      exact .refl S
    | some paddr =>
      obtain ⟨g, rfl, hlt, -, hin, hout⟩ := hsome paddr rfl
      have hlt' : g < 2 ^ 39 := by omega
      have hpg := mul_pgSize_div g
      have hmem : Vm.mem { s with pm := pm1 } = s.mem := rfl
      obtain ⟨B, hr, hent⟩ := S.attach hπ hi ht hp hin hout hready hsub hmem hlt'
      simp only [hpg]
      rw [Prog.update_bind, Prog.update_bind, entryFrame_flags hlt' (by decide)]
      refine ⟨some g, _, rfl, B, ?_, hent⟩
      rintro u ⟨⟩
      exact hr

end

/-- `find_pte` with allocation returns the place of the entry, if there is memory for its tables. -/
theorem findPte (S : Solo A s d) {v : ℕ} (hv : pml4x v ∈ A) :
    ∃ x s', Osv.findPte d v true s = .ok (x, s') ∧ Built A d s s' ∧
      (∀ pte, x = some pte → reach s'.mem d (pageDir (pageOf v)) = some pte.1 ∧ pte.2 = ptx v) ∧
      ∀ p, Under A (pageDir p) → entryOf s'.mem d p = entryOf s.mem d p := by
  have hunder : ∀ ρ : List ℕ, ρ.length ≤ 2 → Under A (pml4x v :: ρ) := by
    intro ρ hρ
    refine ⟨by rw [List.length_cons]; omega, fun i hi => ?_⟩
    cases hi
    exact hv
  rw [Osv.findPte]
  obtain ⟨x1, s1, h1, B1, e1, k1⟩ := S.walkLevel (π := []) (hunder [] (by simp)) (pml4x_lt v) rfl
  rw [Prog.bind_of_ok h1]
  cases x1 with
  | none => exact ⟨none, s1, rfl, B1, (fun _ h => by cases h), k1⟩
  | some pdpt =>
    obtain ⟨x2, s2, h2, B2, e2, k2⟩ := B1.solo.walkLevel (π := [pml4x v])
        (hunder [pdptx v] (by simp))
      (pdptx_lt v) (e1 pdpt rfl)
    have B12 := B1.trans B2
    have k12 : ∀ p, Under A (pageDir p) → entryOf s2.mem d p = entryOf s.mem d p :=
      fun p hp => (k2 p hp).trans (k1 p hp)
    dsimp only
    rw [Prog.bind_of_ok h2]
    cases x2 with
    | none => exact ⟨none, s2, rfl, B12, (fun _ h => by cases h), k12⟩
    | some pgdir =>
      obtain ⟨x3, s3, h3, B3, e3, k3⟩ := B2.solo.walkLevel (π := [pml4x v, pdptx v])
        (hunder [pdptx v, pdx v] (by simp)) (pdx_lt v) (e2 pgdir rfl)
      have k123 : ∀ p, Under A (pageDir p) → entryOf s3.mem d p = entryOf s.mem d p :=
        fun p hp => (k3 p hp).trans (k12 p hp)
      dsimp only
      rw [Prog.bind_of_ok h3]
      cases x3 with
      | none => exact ⟨none, s3, rfl, B12.trans B3, (fun _ h => by cases h), k123⟩
      | some pgtab =>
        refine ⟨_, s3, rfl, B12.trans B3, ?_, k123⟩
        rintro pte ⟨⟩
        rw [← pageDir_pageOf, pageDir_vaddr]
        exact ⟨e3 pgtab rfl, rfl⟩

theorem setEntry (S : Solo A s d) {q t : ℕ} (hq : q < 2 ^ 36) (hA : Under A (pageDir q))
    (ht : reach s.mem d (pageDir q) = some t) (w : ℕ) :
    Built A d s (s.setWord t (q % nPtePerPg) w) ∧ ∀ p < 2 ^ 36, Under A (pageDir p) →
        entryOf (s.setWord t (q % nPtePerPg) w).mem d p = if p = q then w else
          entryOf s.mem d p := by
  set s' := s.setWord t (q % nPtePerPg) w with hs'
  have hmem : ∀ f, f ≠ t → s'.mem f = s.mem f := by
    intro f hf
    funext j
    exact if_neg fun h => hf h.1
  have hlen : ∀ σ, Under A σ → reach s.mem d σ = some t → σ.length = 3 := by
    intro σ hσ h
    rw [S.unique σ _ t hσ hA h ht, pageDir_length]
  have hreach : ∀ ρ, Under A ρ → reach s'.mem d ρ = reach s.mem d ρ := by
    intro ρ hρ
    refine reach_under_congr (fun σ f i hσ hf => ?_) hρ
    rw [hmem]
    rintro rfl
    have := hlen σ hσ.of_snoc.1 hf
    have := hσ.of_snoc.2
    omega
  refine ⟨⟨S.congr S.ready S.used hreach, subset_rfl, ?_, ?_, ?_⟩, fun p hp hpA => ?_⟩
  · intro f _ hf
    exact hmem f fun h => hf (h ▸ ⟨_, hA, ht⟩)
  · intro i _
    rw [hmem]
    rintro rfl
    have := hlen [] .nil rfl
    cases this
  · rw [tables_congr hreach]
    exact fun f hf => .inl hf
  · by_cases hpq : p = q
    · rw [if_pos hpq, hpq, entryOf, ← reach_pageDir, hreach _ hA, ht]
      exact if_pos ⟨rfl, rfl⟩
    · rw [if_neg hpq]
      refine entryOf_reach_congr (hreach _ hpA) fun u hu => if_neg ?_
      rintro ⟨rfl, hmod⟩
      refine hpq (pagePath_inj hp hq ?_)
      rw [pagePath, pagePath, hmod, S.unique _ _ u hpA hA hu ht]

end Solo

/-! ## Mapping pages -/

/-- The entries after `k` pages from page `q` have been mapped to the addresses from `paddr`. -/
def putEntries (E : ℕ → ℕ) (q paddr perm k : ℕ) (p : ℕ) : ℕ :=
  let i := (p + (2 ^ 36 - q % 2 ^ 36)) % 2 ^ 36
  if i < k then mkPte ((paddr + i * pgSize) % 2 ^ 64) perm else E p

theorem putEntries_zero (E : ℕ → ℕ) (q paddr perm p : ℕ) : putEntries E q paddr perm 0 p = E p := by
  rw [putEntries]
  exact if_neg (Nat.not_lt_zero _)

theorem putEntries_succ {E E' : ℕ → ℕ} {q q' paddr perm k p : ℕ} (hk : k < 2 ^ 36) (hp : p < 2 ^ 36)
    (hpa : paddr < 2 ^ 64) (hq : q' % 2 ^ 36 = (q + 1) % 2 ^ 36)
    (hE : E' p = if p = q % 2 ^ 36 then mkPte paddr perm else E p) :
    putEntries E' q' ((paddr + pgSize) % 2 ^ 64) perm k p =
      putEntries E q paddr perm (k + 1) p := by
  simp only [putEntries, addr_succ]
  by_cases hpq : p = q % 2 ^ 36
  · have h0 : (p + (2 ^ 36 - q % 2 ^ 36)) % 2 ^ 36 = 0 := by omega
    have h1 : (p + (2 ^ 36 - q' % 2 ^ 36)) % 2 ^ 36 = 2 ^ 36 - 1 := by omega
    rw [h0, h1, if_neg (by omega), if_pos (by omega), hE, if_pos hpq, Nat.zero_mul, Nat.add_zero,
      Nat.mod_eq_of_lt hpa]
  · have h1 : (p + (2 ^ 36 - q % 2 ^ 36)) % 2 ^ 36 =
        (p + (2 ^ 36 - q' % 2 ^ 36)) % 2 ^ 36 + 1 := by omega
    rw [h1]
    simp only [Nat.add_lt_add_iff_right, hE, if_neg hpq]

theorem vpmapMap_eq {d v paddr n : ℕ} {perm : MemPerm} (hv : v < 2 ^ 64) (hn : 0 < n)
    (hn' : n < 2 ^ 52) : vpmapMap d v paddr n perm =
      Osv.mapLoop d (mempermToPteperm perm) n (pgRoundDown v) (paddr / pgSize * pgSize) := by
  have hidem : ∀ x, pgRoundDown (pgRoundDown x) = pgRoundDown x := fun x => by
    rw [pgRoundDown, pgRoundDown, mul_pgSize_div]
  have hcount : (pgRoundDown ((pgRoundDown v + n * pgSize % 2 ^ 64) % 2 ^ 64) + 2 ^ 64 -
      pgRoundDown v) % 2 ^ 64 / pgSize = n := by
    simp only [pgRoundDown, pgSize]
    omega
  rw [vpmapMap, if_neg (by omega), mapPages]
  simp only [hidem, hcount]
  rfl

/-- `map_pages` sets the entries of its pages, or of the first `k` of them if there is no memory for
the tables of the next. -/
theorem Solo.mapLoop {n v a : ℕ} (S : Solo A s d) (perm : ℕ) (hn : n ≤ 2 ^ 36)
    (hA : ∀ i < n, pml4x ((v + i * pgSize) % 2 ^ 64) ∈ A) (hv : v < 2 ^ 64) (hpa : a < 2 ^ 64) :
    ∃ e s' k, Osv.mapLoop d perm n v a s = .ok (e, s') ∧ Built A d s s' ∧
      (e = .ok ∧ k = n ∨ e = .vpmapMap ∧ k < n) ∧ ∀ p < 2 ^ 36, Under A (pageDir p) →
        entryOf s'.mem d p = putEntries (entryOf s.mem d) (v / pgSize) a perm k p := by
  induction n generalizing v a s with
  | zero => exact ⟨.ok, s, 0, rfl, .refl S, .inl ⟨rfl, rfl⟩, fun p _ _ => (putEntries_zero ..).symm⟩
  | succ n ih =>
    have hv0 : pml4x v ∈ A := by
      have := hA 0 (Nat.succ_pos n)
      rwa [Nat.zero_mul, Nat.add_zero, Nat.mod_eq_of_lt hv] at this
    obtain ⟨x, s1, hfind, B1, hpte, hent⟩ := S.findPte hv0
    rw [Osv.mapLoop, Prog.bind_of_ok hfind]
    cases x with
    | none =>
      refine ⟨.vpmapMap, s1, 0, rfl, B1, .inr ⟨rfl, Nat.succ_pos n⟩, fun p _ hp => ?_⟩
      rw [putEntries_zero, hent p hp]
    | some pte =>
      obtain ⟨hr, hidx⟩ := hpte pte rfl
      have hu : Under A (pageDir (pageOf v)) := by
        rw [under_pageDir, ← pml4x_eq, Nat.mod_eq_of_lt (pml4x_lt v)]
        exact hv0
      obtain ⟨B2, hset⟩ := B1.solo.setEntry (pageOf_lt v) hu hr (mkPte a perm)
      rw [← ptx_eq, ← hidx] at B2 hset
      dsimp only
      rw [Prog.update_bind]
      set s2 := s1.setWord pte.1 pte.2 (mkPte a perm) with hs2
      obtain ⟨e, s', k, hrun, B3, hres, hrest⟩ := ih (v := (v + pgSize) % 2 ^ 64)
        (a := (a + pgSize) % 2 ^ 64) B2.solo (by omega)
        (fun i hi => by rw [addr_succ]; exact hA (i + 1) (by omega)) (Nat.mod_lt _ (by decide))
        (Nat.mod_lt _ (by decide))
      refine ⟨e, s', k + 1, hrun, (B1.trans B2).trans B3, ?_, fun p hp hpA => ?_⟩
      · rcases hres with ⟨he, hk⟩ | ⟨he, hk⟩
        · exact .inl ⟨he, by omega⟩
        · exact .inr ⟨he, by omega⟩
      · have hk : k < 2 ^ 36 := by rcases hres with ⟨-, hk⟩ | ⟨-, hk⟩ <;> omega
        rw [hrest p hp hpA]
        refine putEntries_succ hk hp hpa ?_ ?_
        · simp only [pgSize]
          omega
        · rw [hset p hp hpA, hent p hpA]
          rfl

end Osv
