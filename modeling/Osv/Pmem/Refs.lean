import Osv.Pmem.Run

/-!
# References to single pages

`Counted s c` says that every page `g` has at least `c g` references, and is a block of its own if
that is not 0.  `pmem_dec_refcnt` uses up one of them and `pmem_free` all, and both leave those of
the other pages: merging and listing a block change the count of no page that is in use.
-/

namespace Osv

/-- The reference counts. -/
def Pmem.refcnts (s : Pmem) (g : ℕ) : Int := (s.pagemap g).refcnt

theorem freeblocksRemove_refcnts (page : ℕ) : Prog.Keeps Pmem.refcnts (freeblocksRemove page) := by
  refine Prog.keeps_bind (Prog.keeps_check _ _) fun _ => Prog.keeps_bind
    (Prog.keeps_check _ _) fun _ =>
    Prog.keeps_bind Prog.keeps_read fun s => Prog.keeps_ite (Prog.keeps_update fun _ => rfl)
      (Prog.keeps_trap _)

theorem findBuddy_same {page : ℕ} {s s' : Pmem} {r : Option ℕ}
    (h : findBuddy page s = .ok (r, s')) : s' = s := by
  obtain ⟨-, h⟩ := kassert_bind_ok.mp h
  obtain ⟨-, h⟩ := kassert_bind_ok.mp h
  cases h
  rfl

theorem setOrder_refcnts (s : Pmem) (i k : ℕ) : (s.setOrder i k).refcnts = s.refcnts :=
  funext fun _ => Pmem.setOrder_refcnt

/-- Merging keeps the counts, and ends with a block whose count is 0. -/
theorem mergeBlockFrom_refcnts {rem page q : ℕ} {s s' : Pmem}
    (h : mergeBlockFrom rem page s = .ok (q, s')) : s'.refcnts = s.refcnts ∧ s.refcnts q = 0 := by
  induction rem generalizing page s with
  | zero => cases h
  | succ rem ih =>
    rw [mergeBlockFrom] at h
    obtain ⟨hzero, h⟩ := kassert_bind_ok.mp h
    have hzero : s.refcnts page = 0 := of_decide_eq_true hzero
    obtain ⟨-, h⟩ := kassert_bind_ok.mp h
    rw [Prog.read_bind] at h
    split at h
    · cases h
      exact ⟨rfl, hzero⟩
    · obtain ⟨r, s1, hfind, h⟩ := Prog.bind_ok.mp h
      obtain rfl := findBuddy_same hfind
      cases r with
      | none =>
        cases h
        exact ⟨rfl, hzero⟩
      | some buddy =>
        dsimp only at h
        split at h
        · obtain ⟨_, s2, hrem, h⟩ := Prog.bind_ok.mp h
          have h2 : s2.refcnts = s1.refcnts := freeblocksRemove_refcnts buddy s1 _ s2 hrem
          split at h
          all_goals
            obtain ⟨s3, hs3, h⟩ := Prog.update_bind_ok.mp h
            obtain ⟨h3, hq⟩ := ih h
            rw [hs3, setOrder_refcnts, h2] at h3 hq
            exact ⟨h3, hq⟩
        · cases h
          exact ⟨rfl, hzero⟩

theorem pmemNfree_refcnts {paddr n g : ℕ} {s s' : Pmem} {u : Unit}
    (hon : s.pagemapInitialized = true) (h : pmemNfree paddr n s = .ok (u, s'))
    (hg : g ≠ paddr / pgSize) : s'.refcnts g = s.refcnts g := by
  rw [pmemNfree, pmemNfreeInternal] at h
  obtain ⟨-, h⟩ := kassert_bind_ok.mp h
  rw [Prog.read_bind, hon, Bool.not_true, if_neg (by decide)] at h
  obtain ⟨s1, hs1, h⟩ := Prog.update_bind_ok.mp h
  obtain ⟨q, s2, hmerge, h⟩ := Prog.bind_ok.mp h
  obtain ⟨h2, hq⟩ := mergeBlockFrom_refcnts hmerge
  rw [freeblocksInsert] at h
  obtain ⟨-, h⟩ := kassert_bind_ok.mp h
  obtain ⟨s3, hs3, h⟩ := Prog.update_bind_ok.mp h
  cases h
  have hg1 : s1.refcnts g = s.refcnts g := by
    rw [hs1]
    exact Pmem.setRefcnt_refcnt.trans (if_neg hg)
  have hg3 : s3.refcnts g = if g = q then 0 else s2.refcnts g := by
    rw [hs3]
    exact Pmem.setRefcnt_refcnt
  show s3.refcnts g = s.refcnts g
  rw [hg3, h2]
  split
  · rename_i hgq
    rw [← hg1, hgq, hq]
  · exact hg1

/-! ## Counted references -/

/-- Every page has the references that `c` counts, and is a block of its own if there are any. -/
def Pmem.Counted (s : Pmem) (c : ℕ → ℕ) : Prop :=
  ∃ (live : Finset ℕ) (N : ℕ) (T : Dyadic.Tiling Tag N), Buddy s live T ∧
    ∀ g, 0 < c g → T.tile g = some (0, .live) ∧ (c g : Int) ≤ s.refcnts g

namespace Pmem.Counted

variable {s : Pmem} {c c' : ℕ → ℕ} {g : ℕ}

theorem of_freed {live : Finset ℕ} {N : ℕ} {T : Dyadic.Tiling Tag N} {s' : Pmem} {u : Unit}
    (B : Buddy s live T)
    (hc : ∀ x, 0 < c x → T.tile x = some (0, .live) ∧ (c x : Int) ≤ s.refcnts x)
    (hrun : pmemNfree (g * pgSize) 1 s = .ok (u, s')) (hF : Freed s live T g s') (hg : c' g = 0)
    (hother : ∀ x, x ≠ g → c' x = c x) : s'.Counted c' := by
  obtain ⟨-, T', B', hexc⟩ := hF
  refine ⟨_, N, T', B', fun x hx => ?_⟩
  have hxg : x ≠ g := by
    rintro rfl
    omega
  rw [hother x hxg] at hx ⊢
  obtain ⟨htile, hle⟩ := hc x hx
  refine ⟨(hexc x 0 hxg).mpr htile, ?_⟩
  rw [pmemNfree_refcnts B.on hrun (by rw [mul_pgSize_div]; exact hxg)]
  exact hle

theorem pmemFree (c' : ℕ → ℕ) (h : s.Counted c) (hpos : 0 < c g) (hg : c' g = 0)
    (hother : ∀ x, x ≠ g → c' x = c x) :
    ∃ s', Osv.pmemFree (g * pgSize) s = .ok ((), s') ∧ s'.Counted c' := by
  obtain ⟨live, N, T, B, hc⟩ := h
  have hpg := mul_pgSize_div g
  have hlive : g * pgSize / pgSize ∈ live := hpg.symm ▸ B.live.mpr ⟨0, (hc g hpos).1⟩
  obtain ⟨s', hrun, hF⟩ := B.pmemNfree Nat.one_pos hlive
  exact ⟨s', hrun, of_freed B hc hrun (hpg ▸ hF) hg hother⟩

theorem pmemDecRefcnt (c' : ℕ → ℕ) (h : s.Counted c) (hpos : c g = c' g + 1)
    (hother : ∀ x, x ≠ g → c' x = c x) :
    ∃ s', Osv.pmemDecRefcnt (g * pgSize) s = .ok ((), s') ∧ s'.Counted c' := by
  obtain ⟨live, N, T, B, hc⟩ := h
  obtain ⟨htile, hle⟩ := hc g (by omega)
  have hpg := mul_pgSize_div g
  have hlive : g * pgSize / pgSize ∈ live := hpg.symm ▸ B.live.mpr ⟨0, htile⟩
  have ho : (s.pagemap (g * pgSize / pgSize)).order = 0 := hpg.symm ▸ B.rep.order_eq htile
  have hbound := (B.live_page hlive ho).2.2
  rw [hpg] at hbound
  rw [B.pmemDecRefcnt_run hlive ho, hpg]
  split
  · rename_i h1
    have hle1 : (c g : Int) ≤ 1 := h1 ▸ hle
    obtain ⟨s', hrun, hF⟩ := B.pmemNfree Nat.one_pos hlive
    exact ⟨s', hrun, of_freed B hc hrun (hpg ▸ hF) (by omega) hother⟩
  · rename_i h1
    have hge := (B.rep.refcnt_ok htile).1
    refine ⟨_, rfl, live, N, T, B.setRefcnt htile (by omega) (by omega), fun x hx => ?_⟩
    have hset : (s.setRefcnt g ((s.pagemap g).refcnt - 1)).refcnts x =
        if x = g then (s.pagemap g).refcnt - 1 else s.refcnts x := Pmem.setRefcnt_refcnt
    rw [hset]
    split
    · rename_i hxg
      subst hxg
      have hle' : (c x : Int) ≤ (s.pagemap x).refcnt := hle
      exact ⟨htile, by omega⟩
    · rename_i hxg
      rw [hother x hxg] at hx ⊢
      exact hc x hx

end Pmem.Counted

end Osv
