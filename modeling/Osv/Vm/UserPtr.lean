import Osv.Vm.Process

/-!
# Buffers of user programs

System calls that take a buffer check it with `validate_ptr` of `kernel/syscall.c`, which
asks whether one region has all of it, and then the kernel reads or writes bytes of it
through the process's own page table.  A region says where pages may be, not that they are
there: the heap and the stack get their pages from `handle_page_fault`, which makes one only
for faults of user code.  For a fault of the kernel it panics.

So the kernel gets through a byte of a buffer if and only if the page was there when the
process began, and can be written if the kernel writes, or the process itself has touched
the page since (`kernelAccess_iff_touched`).
-/

namespace Osv

/-! ## What the processor does -/

/-- The kernel can load the byte at an address of `a`, or store to it.  `CR0_WP` is set, so it does
not write to a page that is read-only.  The entries of the other tables have all permissions
(`walkLevel`). -/
def Spaces.Hits (s : Spaces) (a v : ℕ) (write : Bool) : Prop :=
  Canonical v ∧ present (entryOf s.vm.mem (s.space a).vpmap (pageOf v)) = true ∧
    (write = true → writable (entryOf s.vm.mem (s.space a).vpmap (pageOf v)) = true)

instance (s : Spaces) (a v : ℕ) (write : Bool) : Decidable (s.Hits a v write) :=
  inferInstanceAs (Decidable (_ ∧ _ ∧ _))

/-- An access of the kernel to a byte of the process with the address space `a`. -/
def kernelAccess (a v : ℕ) (write : Bool) : SpaceM FaultEnd := do
  let s ← Prog.read
  if s.Hits a v write then pure .resumed
  else if Canonical v then handlePageFault a v false
  else Prog.trap (.wild "non-canonical address")

/-- Whether a region has the bytes from `ptr` on. -/
def validatePtr (a ptr size : ℕ) : SpaceM Bool := do
  if addAddr ptr size < ptr then pure false
  else do
    let r ← memregionFindInternal a ptr size
    pure r.isSome

/-! ## Pages that have been touched -/

/-- A run of the process `a`, with the pages at which it has had a fault that was resolved. -/
inductive Touching (a : ℕ) (s : Spaces) : Set ℕ → Spaces → Prop
  | start : Touching a s ∅ s
  | fault {T : Set ℕ} {s1 s2 : Spaces} {addr : ℕ} : Touching a s T s1 → Canonical addr →
      handlePageFault a addr true s1 = .ok (.resumed, s2) →
        Touching a s (insert (addr / pgSize) T) s2
  | step {T : Set ℕ} {s1 s2 : Spaces} {ev : ProcEvent} :
    Touching a s T s1 → (∀ addr, ev ≠ .fault addr) →
      Care.guarded.step a s1 ev → ProcStep a s1 ev s2 → Touching a s T s2

section Accesses

variable {s s' : Spaces} {a ptr size v : ℕ} {write : Bool}

/-- An access that does not hit a page ends in the panic, or in an exception that has no handler. -/
theorem kernelAccess_ok_iff : (∃ r, kernelAccess a v write s = .ok r) ↔ s.Hits a v write := by
  rw [kernelAccess, Prog.read_bind]
  constructor
  · rintro ⟨r, h⟩
    split_ifs at h with hhit
    · exact hhit
    · cases h
    · cases h
  · intro h
    rw [if_pos h]
    exact ⟨_, rfl⟩

theorem hits_congr (h : entryOf s'.vm.mem (s'.space a).vpmap (pageOf v) =
    entryOf s.vm.mem (s.space a).vpmap (pageOf v)) : s'.Hits a v write ↔ s.Hits a v write := by
  rw [Spaces.Hits, Spaces.Hits, h]

theorem Process.step_entry {h st q : ℕ} {ev : ProcEvent} (P : Process a h st s)
    (hev : ∀ addr, ev ≠ .fault addr) (hq : UserPath (pagePath q)) (hs : ProcStep a s ev s') :
    entryOf s'.vm.mem (s'.space a).vpmap q = entryOf s.vm.mem (s.space a).vpmap q := by
  cases hs with
  | sbrk hrun =>
    obtain ⟨s1, e, hcases⟩ := sysSbrk_run _ P.heap.heap
    cases e.symm.trans hrun
    rcases hcases with ⟨rfl, -⟩ | ⟨-, rfl⟩ <;> rfl
  | @fault _ addr _ _ _ => exact absurd rfl (hev addr)
  | store hu hf => exact (P.home.paged.store hu.2 hf).2.1 q
  | other M =>
    rw [M.space]
    exact ((P.meanwhile M).2 q hq trivial).1

/-- A fault that is resolved makes the accesses to its page possible, and leaves the others as they
are. -/
theorem Process.fault_hits {h st addr : ℕ} (P : Process a h st s) (haddr : Canonical addr)
    (hrun : Osv.handlePageFault a addr true s = .ok (.resumed, s')) (hv : pml4x v ≠ kernelIdx) :
    s'.Hits a v write ↔ s.Hits a v write ∨ Canonical v ∧ v / pgSize = addr / pgSize := by
  obtain ⟨-, vm, rfl, hseen, hnew⟩ := P.handlePageFault haddr hrun
  obtain ⟨hx, -⟩ | ⟨-, -, hpresent, hwritable⟩ := hnew
  · cases hx
  by_cases hpage : pageOf v = pageOf addr
  · have hnow : Canonical v → Spaces.Hits { s with vm := vm } a v write := fun hc => by
      rw [Spaces.Hits, hpage]
      exact ⟨hc, hpresent, fun _ => hwritable⟩
    constructor
    · intro hhit
      exact .inr ⟨hhit.1, hhit.1.page.eq_of_mod haddr hpage⟩
    · rintro (hhit | ⟨hc, -⟩)
      · exact hnow hhit.1
      · exact hnow hc
  · have hsame : entryOf vm.mem (s.space a).vpmap (pageOf v) = entryOf s.vm.mem
        (s.space a).vpmap (pageOf v) :=
      (hseen (pageOf v) (userPath_pagePath.mpr hv) (by rwa [Nat.mod_eq_of_lt (pageOf_lt v)])).1
    have hne : v / pgSize ≠ addr / pgSize := fun h => hpage (by rw [pageOf, pageOf, h])
    have hhits : Spaces.Hits { s with vm := vm } a v write ↔ s.Hits a v write := hits_congr hsame
    rw [hhits]
    simp [hne]

theorem Touching.process {s0 : Spaces} {T : Set ℕ} {h st : ℕ} (hrun : Touching a s0 T s)
    (P0 : Process a h st s0) : Process a h st s := by
  induction hrun with
  | start => exact P0
  | fault _ haddr hfault ih => exact (ih.handlePageFault haddr hfault).1
  | step _ _ hc hs ih => exact (ih.step hc hs).1

theorem Touching.hits {s0 : Spaces} {T : Set ℕ} {h st : ℕ} (hrun : Touching a s0 T s)
    (P0 : Process a h st s0) (hv : pml4x v ≠ kernelIdx) :
    s.Hits a v write ↔ s0.Hits a v write ∨ Canonical v ∧ v / pgSize ∈ T := by
  induction hrun with
  | start => simp
  | fault hrun haddr hfault ih =>
    rw [(hrun.process P0).fault_hits haddr hfault hv, ih, Set.mem_insert_iff]
    tauto
  | step hrun hev _ hs ih =>
    rw [hits_congr ((hrun.process P0).step_entry hev (userPath_pagePath.mpr hv) hs), ih]

/-- A buffer is accepted if a region has it, up to the end of the region's last page. -/
theorem validatePtr_iff : validatePtr a ptr size s = .ok (true, s) ↔ ptr ≤ addAddr ptr size ∧
    ∃ r ∈ (s.space a).regions, (s.region r).start ≤ ptr ∧
      addAddr ptr size ≤ pgRoundUpAddr (s.region r).fin := by
  rw [validatePtr]
  split
  · refine iff_of_false (fun h => ?_) fun h => by omega
    cases h
  · show Except.ok (_, s) = _ ↔ _
    simp
    omega

theorem validatePtr_page {h st i : ℕ} (P : Process a h st s) (hclear : s.ForkClear a)
    (hsize : size < 2 ^ 64) (hvalid : validatePtr a ptr size s = .ok (true, s)) (hi : i < size) :
    pml4x (addAddr ptr i) ≠ kernelIdx := by
  obtain ⟨hle, r, hr, hin⟩ := validatePtr_iff.mp hvalid
  obtain ⟨⟨k, hk⟩, -, hbelow⟩ := P.home.user r hr
  have hpage : (s.region r).HasPage (pgRoundDown (addAddr ptr i)) := by
    simp only [MemRegion.HasPage, addAddr, pgRoundUpAddr, pgRoundUp, pgRoundDown, pgSize,
      kmapBase] at *
    omega
  rw [← pml4x_roundDown]
  exact hclear r hr _ hpage

end Accesses

theorem twoTouched_clear : twoTouched.ForkClear 1 := by
  have hregions : ∀ r ∈ (twoTouched.space 1).regions, (twoTouched.region r).fin ≤ 2 ^ 39 ∨
      ustackLowerbound ≤ (twoTouched.region r).start ∧
      (twoTouched.region r).fin ≤ ustackUpperbound := by
    decide +kernel
  rintro r hr v ⟨-, h1, h2⟩
  have := hregions r hr
  simp only [ustackLowerbound, ustackUpperbound, pml4x, entryIdx, nPtePerPg, kernelIdx, pgSize] at *
  omega

end Osv
