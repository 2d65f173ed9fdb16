import Osv.Vm.Fork

/-!
# Overlapping regions

`memregion_map_internal` is meant to fail if its range meets a region that is
there.  It asks `memregion_find_internal`, which looks for a region that contains
a range, and passes the end of the new range as the size.  So it finds a region
only if that starts at or below the new range and reaches up to the sum of its
start and its end (`Spaces.Found`).  The regions of an address space stay disjoint
as long as every range that meets a region is one of these.

With `ADDR_ANYWHERE` the address comes from `find_free_vaddr`, which takes the
regions to be sorted.  They are not, so this case needs the same condition.
-/

namespace Osv

/-- The region and the half-open range from `start` to `fin` have an address in common. -/
def MemRegion.Meets (mr : MemRegion) (start fin : ℕ) : Prop :=
  ∃ v, (mr.start ≤ v ∧ v < mr.fin) ∧ start ≤ v ∧ v < fin

theorem MemRegion.Meets.symm {r r' : MemRegion} (h : r.Meets r'.start r'.fin) :
    r'.Meets r.start r.fin := by
  obtain ⟨v, h1, h2⟩ := h
  exact ⟨v, h2, h1⟩

namespace Spaces

variable (s : Spaces) (a addr size : ℕ)

/-- The regions of an address space have no address in common, two by two. -/
def RegionsDisjoint : Prop :=
  (s.space a).regions.Pairwise fun r r' => ¬ (s.region r).Meets
    (s.region r').start (s.region r').fin

/-- The address a call of `as_map_memregion` maps at. -/
def mapAddr : Option ℕ :=
  if addr = addrAnywhere then
    findFreeFrom s size ((s.space a).regions.head?.elim 0 fun r => (s.region r).fin)
      (s.space a).regions
  else some addr

/-- The range of a call meets a region of the address space. -/
def MeetsRegion : Prop :=
  ∃ v, s.mapAddr a addr size = some v ∧
    ∃ r ∈ (s.space a).regions, (s.region r).Meets v (addAddr v size)

/-- A range that meets a region is not in user space, or starts at or after the start of a region
that reaches up to the sum of the start and the end of the range. -/
def Guarded (perm : MemPerm) : Prop :=
  ∀ v, s.mapAddr a addr size = some v →
    (∃ r ∈ (s.space a).regions, (s.region r).Meets v (addAddr v size)) →
      Outside a v size perm ∨ s.Found a v size

end Spaces

/-! ## One call -/

section Call

variable {s s' : Spaces} {a addr size : ℕ} {perm : MemPerm} {store ofs : ℕ} {shared : Int}
  {x : Option ℕ}
variable (hc : s.cache.Ok) (hr : s.vm.pm.Ready)
    (h : asMapMemregion a addr size perm store ofs shared s = .ok (x, s'))

include h

theorem asMapMemregion_settled : (s.mapAddr a addr size = none ∧ x = none ∧ s' = s)
    ∨ ∃ v, s.mapAddr a addr size = some v ∧
      memregionMapAt a v size perm store ofs shared s = .ok (x, s') := by
  rw [asMapMemregion, memregionMapInternal] at h
  split at h
  · rename_i hany
    obtain ⟨y, s1, hfree, h⟩ := Prog.bind_ok.mp h
    rw [findFreeVaddr] at hfree
    obtain ⟨-, hfree⟩ := kassert_bind_ok.mp hfree
    rw [Prog.reads_run, Except.ok.injEq, Prod.mk.injEq] at hfree
    obtain ⟨hy, rfl⟩ := hfree
    have hmap : s.mapAddr a addr size = y := by rw [Spaces.mapAddr, if_pos hany, hy]
    cases y with
    | none =>
      cases h
      exact .inl ⟨hmap, rfl, rfl⟩
    | some v => exact .inr ⟨v, hmap, h⟩
  · rename_i hany
    exact .inr ⟨addr, if_neg hany, h⟩

include hc hr

/-- What a call of `as_map_memregion` can do. -/
theorem asMapMemregion_cases : (x = none ∧ Refused s s' ∧ ∀ v, s.mapAddr a addr size = some v →
      Outside a v size perm ∨ s.Found a v size ∨ regionAlloc s = .ok (none, s')) ∨
    ∃ v r, s.mapAddr a addr size = some v ∧ x = some r ∧
      ¬ Outside a v size perm ∧ ¬ s.Found a v size ∧
      Mapped s a r ⟨a, v, addAddr v size, perm, shared, store, ofs⟩ s' := by
  obtain ⟨hnone, rfl, rfl⟩ | ⟨v, hv, hat⟩ := asMapMemregion_settled h
  · refine .inl ⟨rfl, Refused.refl hr, fun v hv => ?_⟩
    rw [hnone] at hv
    cases hv
  · obtain ⟨hx, R, hwhy⟩ | ⟨r, hx, hout, hnot, M⟩ := memregionMapAt_cases hc hr hat
    · refine .inl ⟨hx, R, fun v' hv' => ?_⟩
      cases hv.symm.trans hv'
      exact hwhy
    · exact .inr ⟨v, r, hv, hx, hout, hnot, M⟩

theorem asMapMemregion_refuses (hg : s.Guarded a addr size perm) (hm : s.MeetsRegion a addr size) :
    x = none ∧ (s'.space a).regions = (s.space a).regions ∧ s'.region = s.region := by
  obtain ⟨hx, R, -⟩ | ⟨v, r, hv, -, hout, hnot, -⟩ := asMapMemregion_cases hc hr h
  · exact ⟨hx, by rw [R.space], R.region⟩
  · obtain ⟨v', hv', hmeets⟩ := hm
    cases hv.symm.trans hv'
    rcases hg v hv hmeets with h | h
    · exact absurd h hout
    · exact absurd h hnot

theorem asMapMemregion_overlaps (halloc : ∃ r t, regionAlloc s = .ok (some r, t))
    (hg : ¬ s.Guarded a addr size perm) : s.MeetsRegion a addr size ∧ x ≠ none := by
  simp only [Spaces.Guarded, not_forall, not_or] at hg
  obtain ⟨v, hv, hmeets, hout, hnot⟩ := hg
  refine ⟨⟨v, hv, hmeets⟩, ?_⟩
  obtain ⟨-, -, hwhy⟩ | ⟨-, r, -, hx, -⟩ := asMapMemregion_cases hc hr h
  · obtain ⟨r, t, ht⟩ := halloc
    rcases hwhy v hv with h | h | h
    · exact absurd h hout
    · exact absurd h hnot
    · rw [ht] at h
      cases h
  · rw [hx]
    exact Option.some_ne_none r

end Call

/-! ## Runs -/

/-- One completed call of `as_map_memregion` on the address space `a`, with arguments that `P`
admits. -/
def MapStep (a : ℕ) (P : Spaces → ℕ → ℕ → MemPerm → Prop) (s s' : Spaces) : Prop :=
  ∃ addr size perm store ofs shared x,
    P s addr size perm ∧ asMapMemregion a addr size perm store ofs shared s = .ok (x, s')

/-- What the calls keep: the slots of the regions are live and listed once, and the regions are
disjoint. -/
structure RegionInv (a : ℕ) (s : Spaces) : Prop where
  cache : s.cache.Ok
  ready : s.vm.pm.Ready
  inUse : ∀ r ∈ (s.space a).regions, s.InUse r
  disjoint : s.RegionsDisjoint a

theorem RegionInv.asInit {s s1 : Spaces} {a : ℕ} {cached : Bool} (hc : s.cache.Ok)
    (hr : s.vm.pm.Ready) (h : asInit a cached s = .ok (.ok, s1)) : RegionInv a s1 := by
  have hready := asInit_ready hr h
  obtain ⟨he, -⟩ | ⟨-, -, paddr, vm, -, rfl⟩ := asInit_inv h
  · exact absurd rfl he
  · exact ⟨hc, hready, by simp, by simp [Spaces.RegionsDisjoint]⟩

theorem RegionInv.mapped {s s' : Spaces} {a r : ℕ} {mr : MemRegion} (I : RegionInv a s)
    (hd : ∀ x ∈ (s.space a).regions, ¬ (s.region x).Meets mr.start mr.fin)
    (M : Mapped s a r mr s') : RegionInv a s' := by
  have hold : ∀ x ∈ (s.space a).regions, s'.region x = s.region x :=
    fun x hx => M.others x fun h => M.new (h ▸ I.inUse x hx)
  refine ⟨M.ok, M.ready, fun x hx => ?_, ?_⟩
  · rcases List.mem_cons.mp (M.regions.mem_iff.mp hx) with rfl | hx
    · exact (M.inUse _).mpr (.inr rfl)
    · exact (M.inUse x).mpr (.inl (I.inUse x hx))
  · refine (M.regions.pairwise_iff fun h h' => h h'.symm).mpr (List.pairwise_cons.mpr ⟨?_, ?_⟩)
    · intro x hx hmeets
      rw [M.region, hold x hx] at hmeets
      exact hd x hx hmeets.symm
    · refine I.disjoint.imp_of_mem fun {x y} hx hy hxy => ?_
      rw [hold x hx, hold y hy]
      exact hxy

theorem RegionInv.step {s s' : Spaces} {a : ℕ} (I : RegionInv a s)
    (h : MapStep a (fun s addr size perm => s.Guarded a addr size perm) s s') : RegionInv a s' := by
  obtain ⟨addr, size, perm, store, ofs, shared, x, hg, h⟩ := h
  obtain ⟨-, R, -⟩ | ⟨v, r, hv, -, hout, hnot, M⟩ := asMapMemregion_cases I.cache I.ready h
  · refine ⟨R.cache ▸ I.cache, R.ready, ?_, ?_⟩
    · rw [R.space]
      intro r hr
      rw [Spaces.InUse, R.cache]
      exact I.inUse r hr
    · rw [Spaces.RegionsDisjoint, R.space, R.region]
      exact I.disjoint
  · refine I.mapped (fun y hy hmeets => ?_) M
    rcases hg v hv ⟨y, hy, hmeets⟩ with h | h
    · exact hout h
    · exact hnot h

theorem RegionInv.run {s s' : Spaces} {a : ℕ} (I : RegionInv a s) (h : Relation.ReflTransGen
      (MapStep a fun s addr size perm => s.Guarded a addr size perm) s s') : RegionInv a s' := by
  induction h with
  | refl => exact I
  | tail _ hstep ih => exact ih.step hstep

/-- Regions stay disjoint from `as_init` on if every call is guarded, and a guarded call whose range
meets a region returns `NULL` and changes no region.  A call that is not guarded maps its range over
a region, if the cache has a region for it. -/
theorem regions_disjoint_of_guarded (a : ℕ) :
    (∀ s0 s1 s cached, s0.cache.Ok → s0.vm.pm.Ready → asInit a cached s0 = .ok (.ok, s1) →
      Relation.ReflTransGen
        (MapStep a fun s addr size perm => s.Guarded a addr size perm) s1 s →
      s.RegionsDisjoint a) ∧
    ∀ s s' addr size perm store ofs shared x, s.cache.Ok → s.vm.pm.Ready →
      asMapMemregion a addr size perm store ofs shared s = .ok (x, s') →
      (s.Guarded a addr size perm → s.MeetsRegion a addr size →
        x = none ∧ (s'.space a).regions = (s.space a).regions ∧ s'.region = s.region) ∧
      ((∃ r t, regionAlloc s = .ok (some r, t)) →
        (s.MeetsRegion a addr size → x = none) → s.Guarded a addr size perm) := by
  constructor
  · intro s0 s1 s cached hc hr hinit hrun
    exact ((RegionInv.asInit hc hr hinit).run hrun).disjoint
  · intro s s' addr size perm store ofs shared x hc hr h
    refine ⟨fun hg hm => asMapMemregion_refuses hc hr h hg hm, fun halloc hnone => ?_⟩
    by_contra hg
    obtain ⟨hm, hx⟩ := asMapMemregion_overlaps hc hr h halloc hg
    exact hx (hnone hm)

/-- A new address space. -/
def newSpace : Spaces := (asInit 2 true).final forkParent

/-- One page is mapped at a fixed address. -/
def mappedOnce : Spaces := (asMapMemregion 2 pgSize pgSize .urw 0 0 0).final newSpace

/-- The same page is mapped again. -/
def mappedTwice : Spaces := (asMapMemregion 2 pgSize pgSize .urw 0 0 0).final mappedOnce

theorem newSpace_run : asInit 2 true forkParent = .ok (.ok, newSpace) :=
  Prog.run_of_result (by decide +kernel)

theorem mappedOnce_run :
    asMapMemregion 2 pgSize pgSize .urw 0 0 0 newSpace = .ok (some 1, mappedOnce) :=
  Prog.run_of_result (by decide +kernel)

theorem mappedTwice_run :
    asMapMemregion 2 pgSize pgSize .urw 0 0 0 mappedOnce = .ok (some 2, mappedTwice) :=
  Prog.run_of_result (by decide +kernel)

/-- The second call maps the page again, and the two regions have all their addresses in common. -/
theorem asMapMemregion_twice : ∃ s1 s2 s3, asInit 2 true forkParent = .ok (.ok, s1) ∧
    asMapMemregion 2 pgSize pgSize .urw 0 0 0 s1 = .ok (some 1, s2) ∧
    asMapMemregion 2 pgSize pgSize .urw 0 0 0 s2 = .ok (some 2, s3) ∧
    s2.MeetsRegion 2 pgSize pgSize ∧ ¬ s3.RegionsDisjoint 2 := by
  refine ⟨_, _, _, newSpace_run, mappedOnce_run, mappedTwice_run, ?_, ?_⟩
  · refine ⟨pgSize, by decide, 1, by decide +kernel, pgSize, ?_, by decide⟩
    decide +kernel
  · have hregions : (mappedTwice.space 2).regions = [1, 2] := by decide +kernel
    rw [Spaces.RegionsDisjoint, hregions, List.pairwise_pair, not_not]
    refine ⟨pgSize, ?_⟩
    decide +kernel

/-- Two pages are mapped at 0. -/
def mappedLow : Spaces := (asMapMemregion 2 0 (2 * pgSize) .urw 0 0 0).final newSpace

/-- Another page is mapped above them. -/
def mappedBoth : Spaces := (asMapMemregion 2 (4 * pgSize) pgSize .urw 0 0 0).final mappedLow

/-- The page at 0 is mapped again. -/
def mappedRefused : Spaces := (asMapMemregion 2 0 pgSize .urw 0 0 0).final mappedBoth

theorem mappedBoth_run : Relation.ReflTransGen (MapStep 2 fun s addr size perm =>
    s.Guarded 2 addr size perm) newSpace mappedBoth := by
  have hlow : newSpace.Guarded 2 0 (2 * pgSize) .urw := by
    rintro v - ⟨r, hr, -⟩
    have hempty : (newSpace.space 2).regions = [] := by decide +kernel
    rw [hempty] at hr
    cases hr
  have hhigh : mappedLow.Guarded 2 (4 * pgSize) pgSize .urw := by
    rintro v hv ⟨r, hr, w, hw, hvw, -⟩
    have hfin : ∀ r ∈ (mappedLow.space 2).regions, (mappedLow.region r).fin ≤
        4 * pgSize := by decide +kernel
    cases hv
    exact absurd (hw.2.trans_le (hfin r hr)) (Nat.not_lt.mpr hvw)
  have hstep : MapStep 2 (fun s addr size perm => s.Guarded 2 addr size perm) newSpace mappedLow :=
    ⟨0, 2 * pgSize, .urw, 0, 0, 0, some 1, hlow, Prog.run_of_result (by decide +kernel)⟩
  exact (Relation.ReflTransGen.single hstep).tail
    ⟨4 * pgSize, pgSize, .urw, 0, 0, 0, some 2, hhigh, Prog.run_of_result (by decide +kernel)⟩

/-- The two regions are disjoint.  The call for the page at 0 is guarded, meets the first and is
refused. -/
theorem mappedBoth_disjoint : (mappedBoth.space 2).regions = [1, 2] ∧ mappedBoth.RegionsDisjoint 2 ∧
    mappedBoth.MeetsRegion 2 0 pgSize ∧
      asMapMemregion 2 0 pgSize .urw 0 0 0 mappedBoth = .ok (none, mappedRefused) ∧
    (mappedRefused.space 2).regions = [1, 2] ∧ mappedRefused.region = mappedBoth.region := by
  have hregions : (mappedBoth.space 2).regions = [1, 2] := by decide +kernel
  have hready := mediumWorld_reachable.ready
  have I := (RegionInv.asInit ⟨by decide, by decide⟩ hready newSpace_run).run mappedBoth_run
  obtain ⟨hdisjoint, hcall⟩ := regions_disjoint_of_guarded 2
  have hmeets : mappedBoth.MeetsRegion 2 0 pgSize :=
      ⟨0, by decide, 1, by decide +kernel, 0, by decide +kernel, by decide⟩
  have hfound : ∃ r ∈ (mappedBoth.space 2).regions, (mappedBoth.region r).start ≤ 0 ∧
    addAddr 0 (addAddr 0 pgSize) ≤ pgRoundUpAddr (mappedBoth.region r).fin := by decide +kernel
  have hguard : mappedBoth.Guarded 2 0 pgSize .urw := fun v hv _ => by
    cases hv
    exact .inr hfound
  have hrun : asMapMemregion 2 0 pgSize .urw 0 0 0 mappedBoth = .ok (none, mappedRefused) :=
    Prog.run_of_result (by decide +kernel)
  obtain ⟨-, hsame, hregion⟩ := (hcall _ _ _ _ _ _ _ _ _ I.cache I.ready hrun).1 hguard hmeets
  exact ⟨hregions, hdisjoint _ _ _ true ⟨by decide, by decide⟩ hready newSpace_run mappedBoth_run,
    hmeets, hrun,
    hsame.trans hregions, hregion⟩

end Osv
