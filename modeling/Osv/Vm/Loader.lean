import Osv.Vm.Process

/-!
# Loading executable files

What `proc_load` does with an arbitrary file.  Its only check of a program header is made on the
unrounded end of the segment, and `memregion_map_internal` asserts that the end rounded up to a page
does not wrap around.  So a segment that ends in the last page of addresses stops the kernel
(`procLoad_returns_iff`), and there is no other way to do so.
-/

namespace Osv

open Prog (bind_ok bind_run total_bind total_ite total_pure total_read total_update)

/-! ## Calls that return -/

theorem mapLoop_total (d perm n v paddr : ℕ) :
    Prog.Total (fun s : Vm => s.pm.Holding ∅) (mapLoop d perm n v paddr) := by
  induction n generalizing v paddr with
  | zero => exact total_pure _
  | succ n ih =>
    refine total_bind (findPte_total ∅ d v) fun x => ?_
    cases x with
    | none => exact total_pure _
    | some pte => exact total_bind (total_update fun _ h => h) fun _ => ih _ _

theorem vpmapMap_total (d v paddr n : ℕ) (perm : MemPerm) :
    Prog.Total (fun s : Vm => s.pm.Holding ∅) (vpmapMap d v paddr n perm) :=
  total_ite (total_pure _) (mapLoop_total _ _ _ _ _)

theorem vmCall_total {α : Type} {m : VmM α} (h : Prog.Total (fun s : Vm => s.pm.Holding ∅) m) :
    Prog.Total (fun s : Spaces => s.vm.pm.Ready) (vmCall m) := by
  simp only [Pmem.ready_iff_holding]
  exact Prog.total_zoom (P := fun s : Vm => s.pm.Holding ∅) (fun _ _ => rfl) h

theorem regionAlloc_total : Prog.Total (fun s : Spaces => s.vm.pm.Ready) regionAlloc := by
  refine total_bind total_read fun s => ?_
  split
  · exact total_bind (total_update fun _ h => h) fun _ =>
      total_bind (total_update fun _ h => h) fun _ => total_pure _
  · refine total_bind (vmCall_total (pmemCall_total ∅ (by decide) (by decide))) fun x => ?_
    cases x with
    | none => exact total_pure _
    | some paddr =>
      exact total_bind (total_update fun _ h => h) fun _ =>
        total_bind (total_update fun _ h => h) fun _ => total_pure _

section Map

variable {a addr size store ofs : ℕ} {perm : MemPerm} {shared : Int}

theorem memregionMapAt_total (h1 : pgSize ∣ addr) (h2 : addr ≤ addAddr addr (pgRoundUpAddr size)) :
    Prog.Total (fun s : Spaces => s.vm.pm.Ready)
      (memregionMapAt a addr size perm store ofs shared) := by
  refine total_bind (Prog.total_check fun _ _ => pgAligned_iff.mpr h1) fun _ => ?_
  refine total_bind (Prog.total_check fun _ _ => decide_eq_true h2) fun _ => ?_
  refine total_ite (total_pure _) (total_bind (Prog.total_reads _) fun x => ?_)
  cases x with
  | some n => exact total_pure _
  | none =>
    refine total_bind regionAlloc_total fun x => ?_
    cases x with
    | none => exact total_pure _
    | some r =>
      exact total_bind (total_update fun _ h => h) fun _ =>
        total_bind (total_update fun _ h => h) fun _ => total_pure _

theorem ne_addrAnywhere (h : pgSize ∣ addr) : addr ≠ addrAnywhere := by
  rintro rfl
  revert h
  decide

theorem asMapMemregion_total (h1 : pgSize ∣ addr) (h2 : addr ≤ addAddr addr (pgRoundUpAddr size)) :
    Prog.Total (fun s : Spaces => s.vm.pm.Ready)
      (asMapMemregion a addr size perm store ofs shared) := by
  rw [asMapMemregion, memregionMapInternal, if_neg (ne_addrAnywhere h1)]
  exact memregionMapAt_total h1 h2

theorem asMapMemregion_asserts {s : Spaces} (h1 : pgSize ∣ addr)
    (h2 : addAddr addr (pgRoundUpAddr size) < addr) :
    asMapMemregion a addr size perm store ofs shared s =
      .error (.kassert "(addr + pg_round_up(size)) >= addr") := by
  have hal : pgAligned addr = true := pgAligned_iff.mpr h1
  rw [asMapMemregion, memregionMapInternal, if_neg (ne_addrAnywhere h1), memregionMapAt,
    Prog.bind_of_ok (kassert_run (p := fun _ => pgAligned addr) hal), bind_run, kassert,
    Prog.check_run, if_neg (by simpa using h2)]

theorem asMapMemregion_region {s s' : Spaces} {r : ℕ} (h1 : pgSize ∣ addr)
    (h : asMapMemregion a addr size perm store ofs shared s = .ok (some r, s')) :
    s'.region r = ⟨a, addr, addAddr addr size, perm, shared, store, ofs⟩ := by
  rw [asMapMemregion, memregionMapInternal, if_neg (ne_addrAnywhere h1), memregionMapAt] at h
  obtain ⟨-, h⟩ := kassert_bind_ok.mp h
  obtain ⟨-, h⟩ := kassert_bind_ok.mp h
  split at h
  · cases h
  · obtain ⟨found, s0, -, h⟩ := bind_ok.mp h
    cases found with
    | some n => cases h
    | none =>
      obtain ⟨x, s1, -, h⟩ := bind_ok.mp h
      cases x with
      | none => cases h
      | some x =>
        simp only at h
        rw [Prog.update_bind, Prog.update_bind] at h
        cases h
        exact Function.update_self ..

end Map

/-! ## Segments -/

/-- The segment passes the check of its header, and ends in the last page of addresses. -/
def ProgHdr.Tops (ph : ProgHdr) : Prop :=
  ph.filesz ≤ ph.memsz ∧ pgSize ≤ ph.vaddr ∧ 2 ^ 64 - pgSize < ph.vaddr + ph.memsz ∧
    ph.vaddr + ph.memsz < 2 ^ 64

instance (ph : ProgHdr) : Decidable ph.Tops := inferInstanceAs (Decidable (_ ∧ _))

theorem loadPage_total (f : ExecFile) (a v : ℕ) (perm : MemPerm) (off pofs avail : ℕ) :
    Prog.Total (fun s : Spaces => s.vm.pm.Ready) (loadPage f a v perm off pofs avail) := by
  have hset : ∀ (g o : ℕ) (l : List UInt8) (s : Vm), (s.setBytes g o l).pm = s.pm := by
    intro g o l
    induction l generalizing o with
    | nil => exact fun _ => rfl
    | cons b l ih => exact fun s => ih (o + 1) _
  refine total_bind (vmCall_total (pmemCall_total ∅ le_rfl (by decide))) fun x => ?_
  cases x with
  | none => exact total_pure _
  | some paddr =>
    refine total_bind (total_update fun _ h => h) fun _ =>
      total_bind (total_update fun s h => (hset _ _ _ s.vm).symm ▸ h) fun _ =>
        total_ite (total_pure _) (total_bind total_read fun s => ?_)
    exact vmCall_total (vpmapMap_total _ _ _ _ _)

theorem loadPages_total (f : ExecFile) (a : ℕ) (ph : ProgHdr) (n count off left : ℕ) :
    Prog.Total (fun s : Spaces => s.vm.pm.Ready) (loadPages f a ph n count off left) := by
  induction n generalizing count off left with
  | zero => exact total_pure _
  | succ n ih =>
    exact total_bind (loadPage_total _ _ _ _ _ _ _) fun e =>
      total_ite (total_pure _) (ih _ _ _)

section

variable {ph : ProgHdr} (hv : ph.vaddr < 2 ^ 64) (hm : ph.memsz < 2 ^ 64)

include hv hm

theorem ProgHdr.wraps_iff (hcheck : ¬ (ph.memsz < ph.filesz ∨
    addAddr ph.vaddr ph.memsz < ph.vaddr)) :
    addAddr (pgRoundDown ph.vaddr) (pgRoundUpAddr ph.size) < pgRoundDown ph.vaddr ↔ ph.Tops := by
  simp only [ProgHdr.Tops, ProgHdr.size, pgRoundUpAddr, pgRoundUp, addAddr, pgRoundDown, pgOfs,
    pgSize] at *
  omega

theorem loadSegment_total (h : ¬ ph.Tops) (f : ExecFile) (a : ℕ) :
    Prog.Total (fun s : Spaces => s.vm.pm.Ready) (loadSegment f a ph) := by
  rw [loadSegment]
  split
  · exact total_pure _
  · rename_i hcheck
    refine total_bind (asMapMemregion_total (Nat.dvd_mul_left _ _)
      (Nat.not_lt.mp fun hlt => h ((ProgHdr.wraps_iff hv hm hcheck).mp hlt))) fun x => ?_
    cases x with
    | none => exact total_pure _
    | some r =>
      exact total_bind total_read fun s =>
        total_bind (loadPages_total _ _ _ _ _ _ _) fun e =>
          total_ite (total_pure _) (total_pure _)

theorem loadSegment_asserts (h : ph.Tops) (f : ExecFile) (a : ℕ) (s : Spaces) :
    loadSegment f a ph s = .error (.kassert "(addr + pg_round_up(size)) >= addr") := by
  have hcheck : ¬ (ph.memsz < ph.filesz ∨ addAddr ph.vaddr ph.memsz < ph.vaddr) := by
    obtain ⟨h1, -, -, h4⟩ := h
    rw [addAddr, Nat.mod_eq_of_lt h4]
    omega
  have hdvd : pgSize ∣ pgRoundDown ph.vaddr := Nat.dvd_mul_left _ _
  rw [loadSegment, if_neg hcheck, bind_run,
    asMapMemregion_asserts hdvd ((ProgHdr.wraps_iff hv hm hcheck).mpr h)]

end

/-! ## Files -/

/-- The program header at an offset. -/
def ExecFile.progHdr (f : ExecFile) (ofs : ℕ) : ProgHdr := ProgHdr.decode (f.read ofs sizeofProgHdr)

/-- The header at the offset is there, and is that of a segment that ends in the last page. -/
def ExecFile.TopsAt (f : ExecFile) (ofs : ℕ) : Prop :=
  (f.read ofs sizeofProgHdr).length = sizeofProgHdr ∧
    (f.progHdr ofs).type = ptLoad ∧ (f.progHdr ofs).Tops

instance (f : ExecFile) (ofs : ℕ) : Decidable (f.TopsAt ofs) := inferInstanceAs (Decidable (_ ∧ _))

/-- What one program header does: the loader stops with an error, goes on behind it, or fails the
assertion. -/
theorem loadSegments_head (f : ExecFile) (a ofs fin : ℕ) {s : Spaces} (hr : s.vm.pm.Ready) :
    (¬ f.TopsAt ofs ∧ ∃ e s1, s1.vm.pm.Ready ∧
      ∀ m, loadSegments f a (m + 1) ofs fin s = .ok (.error e, s1)) ∨
    (¬ f.TopsAt ofs ∧ ∃ fin1 s1, s1.vm.pm.Ready ∧ ∀ m, loadSegments f a (m + 1) ofs fin s =
      loadSegments f a m (addAddr ofs sizeofProgHdr) fin1 s1) ∨
    (f.TopsAt ofs ∧ ∀ m, loadSegments f a (m + 1) ofs fin s =
      .error (.kassert "(addr + pg_round_up(size)) >= addr")) := by
  by_cases hlen : (f.read ofs sizeofProgHdr).length ≠ sizeofProgHdr
  · exact .inl ⟨fun h => hlen h.1, .inval, s, hr, fun m => by rw [loadSegments, if_pos hlen]; rfl⟩
  by_cases htype : (f.progHdr ofs).type ≠ ptLoad
  · refine .inr (.inl ⟨fun h => htype h.2.1, fin, s, hr, fun m => ?_⟩)
    rw [loadSegments, if_neg hlen]
    exact congrFun (if_pos htype) s
  have hseg : ∀ m, ∃ k, loadSegments f a (m + 1) ofs fin s =
      (loadSegment f a (f.progHdr ofs) >>= k) s ∧
      (∀ e, k (.error e) = pure (.error e)) ∧
      ∀ fin, k (.ok fin) = loadSegments f a m (addAddr ofs sizeofProgHdr) fin := fun m => by
    rw [loadSegments, if_neg hlen]
    exact ⟨_, congrFun (if_neg htype) s, fun _ => rfl, fun _ => rfl⟩
  have hv : (f.progHdr ofs).vaddr < 2 ^ 64 := leNat_lt _ 16 8
  have hm : (f.progHdr ofs).memsz < 2 ^ 64 := leNat_lt _ 40 8
  by_cases htop : (f.progHdr ofs).Tops
  · refine .inr (.inr ⟨⟨not_not.mp hlen, not_not.mp htype, htop⟩, fun m => ?_⟩)
    obtain ⟨k, hk, -⟩ := hseg m
    rw [hk, bind_run, loadSegment_asserts hv hm htop]
  · obtain ⟨x, s1, hrun, hr1⟩ := loadSegment_total hv hm htop f a s hr
    cases x with
    | error e =>
      refine .inl ⟨fun h => htop h.2.2, e, s1, hr1, fun m => ?_⟩
      obtain ⟨k, hk, herr, -⟩ := hseg m
      rw [hk, Prog.bind_of_ok hrun, herr]
      rfl
    | ok fin1 =>
      refine .inr (.inl ⟨fun h => htop h.2.2, fin1, s1, hr1, fun m => ?_⟩)
      obtain ⟨k, hk, -, hok⟩ := hseg m
      rw [hk, Prog.bind_of_ok hrun, hok]

/-- The loader reaches the header `k`, and stops the kernel there. -/
def ExecFile.StopsAt (f : ExecFile) (a ofs fin : ℕ) (s : Spaces) (k : ℕ) : Prop :=
  (∃ fin' s', loadSegments f a k ofs fin s = .ok (.ok fin', s')) ∧ f.TopsAt (phofs k ofs)

theorem phofs_succ (k ofs : ℕ) : phofs (k + 1) ofs = phofs k (addAddr ofs sizeofProgHdr) :=
  Function.iterate_succ_apply ..

theorem loadSegments_returns (f : ExecFile) (a n ofs fin : ℕ) {s : Spaces} (hr : s.vm.pm.Ready) :
    ((∃ x s', loadSegments f a n ofs fin s = .ok (x, s') ∧ s'.vm.pm.Ready) ∧
      ∀ k < n, ¬ f.StopsAt a ofs fin s k) ∨
        ((∃ k < n, f.StopsAt a ofs fin s k) ∧ loadSegments f a n ofs fin s =
      .error (.kassert "(addr + pg_round_up(size)) >= addr")) := by
  induction n generalizing ofs fin s with
  | zero => exact .inl ⟨⟨.ok fin, s, rfl, hr⟩, fun k hk => absurd hk (Nat.not_lt_zero k)⟩
  | succ n ih =>
    obtain ⟨hno, e, s1, hr1, hrun⟩ | ⟨hno, fin1, s1, hr1, hrun⟩ | ⟨htop, hrun⟩ :=
      loadSegments_head f a ofs fin hr
    · refine .inl ⟨⟨.error e, s1, hrun n, hr1⟩, fun k _ hstop => ?_⟩
      cases k with
      | zero => exact hno hstop.2
      | succ k =>
        obtain ⟨fin', s', h⟩ := hstop.1
        rw [hrun k] at h
        cases h
    · have hsucc : ∀ k, f.StopsAt a ofs fin s (k + 1) ↔
          f.StopsAt a (addAddr ofs sizeofProgHdr) fin1 s1 k := fun k => by
        rw [ExecFile.StopsAt, ExecFile.StopsAt, hrun k, phofs_succ]
      rw [hrun n]
      refine (ih _ fin1 hr1).imp (fun h => ⟨h.1, fun k hk hstop => ?_⟩) fun h => ⟨?_, h.2⟩
      · cases k with
        | zero => exact hno hstop.2
        | succ k => exact h.2 k (by omega) ((hsucc k).mp hstop)
      · obtain ⟨k, hk, hstop⟩ := h.1
        exact ⟨k + 1, by omega, (hsucc k).mpr hstop⟩
    · exact .inr ⟨⟨0, Nat.succ_pos n, ⟨fin, s, rfl⟩, htop⟩, hrun n⟩

theorem loadSegment_end {f : ExecFile} {a fin : ℕ} {ph : ProgHdr} {s s' : Spaces}
    (h : loadSegment f a ph s = .ok (.ok fin, s')) :
    fin = addAddr (pgRoundDown ph.vaddr) ph.size := by
  obtain ⟨r, s1, hmap, -, rfl⟩ := loadSegment_ok h
  exact congrArg MemRegion.fin (asMapMemregion_region (Nat.dvd_mul_left _ _) hmap)

theorem addAddr_dvd {x y : ℕ} (hx : pgSize ∣ x) (hy : pgSize ∣ y) : pgSize ∣ addAddr x y :=
  (Nat.dvd_mod_iff (by decide)).mpr (Nat.dvd_add hx hy)

theorem loadSegments_end {f : ExecFile} {a n ofs fin fin' : ℕ} {s s' : Spaces}
    (hfin : pgSize ∣ fin ∧ fin < 2 ^ 64) (h : loadSegments f a n ofs fin s = .ok (.ok fin', s')) :
    pgSize ∣ fin' ∧ fin' < 2 ^ 64 := by
  induction n generalizing ofs fin s with
  | zero =>
    cases h
    exact hfin
  | succ n ih =>
    rw [loadSegments] at h
    split at h
    · cases h
    · split at h
      · exact ih hfin h
      · obtain ⟨x, s1, hseg, h⟩ := bind_ok.mp h
        cases x with
        | error e => cases h
        | ok fin1 =>
          refine ih ?_ h
          rw [loadSegment_end hseg]
          exact ⟨addAddr_dvd (Nat.dvd_mul_left _ _) (ProgHdr.size_dvd _), Nat.mod_lt _ (by decide)⟩

theorem loadHeap_total {fin : ℕ} (hfin : pgSize ∣ fin ∧ fin < 2 ^ 64) (a entry : ℕ) :
    Prog.Total (fun s : Spaces => s.vm.pm.Ready) (loadHeap a fin entry) := by
  refine total_bind (asMapMemregion_total hfin.1 (Nat.mod_eq_of_lt hfin.2).ge) fun heap =>
    total_bind (total_update fun _ h => h) fun _ =>
      total_ite (total_pure _) (total_pure _)

/-- `proc_load` returns, unless the loader reaches the header of a segment that ends in the last
page of addresses.  So it returns for every file without such a header. -/
theorem procLoad_returns_iff (f : ExecFile) (a : ℕ) {s : Spaces} (hr : s.vm.pm.Ready) :
    ((∃ x s', procLoad f a s = .ok (x, s')) ↔
      ¬ (f.openErr = .ok ∧ (f.read 0 sizeofElfHdr).length = sizeofElfHdr ∧
        f.header.magic = elfMagic ∧
        ∃ k < f.header.phnum, f.StopsAt a f.header.phoff 0 s k)) ∧
    ((∀ k < f.header.phnum, ¬ f.TopsAt (phofs k f.header.phoff)) → ∃ x s',
    procLoad f a s = .ok (x, s')) := by
  refine (and_iff_left_of_imp fun hiff hno => hiff.mpr fun ⟨_, _, _, k, hk, h⟩ => hno k hk h.2).mpr
    ?_
  rw [procLoad]
  by_cases hopen : f.openErr ≠ .ok
  · rw [if_pos hopen]
    exact ⟨fun _ h => hopen h.1, fun _ => ⟨_, _, rfl⟩⟩
  rw [if_neg hopen]
  by_cases helf : (f.read 0 sizeofElfHdr).length ≠ sizeofElfHdr ∨ f.header.magic ≠ elfMagic
  · rw [if_pos helf]
    exact ⟨fun _ h => helf.elim (· h.2.1) (· h.2.2.1), fun _ => ⟨_, _, rfl⟩⟩
  rw [if_neg helf]
  rw [not_or, not_not, not_not] at helf
  rcases loadSegments_returns f a f.header.phnum f.header.phoff 0
    hr with ⟨⟨x, s1, hrun, hr1⟩, hno⟩ |
    ⟨hstop, hrun⟩
  · refine iff_of_true ?_ fun h => ?_
    swap
    · obtain ⟨-, -, -, k, hk, h⟩ := h
      exact hno k hk h
    rw [Prog.bind_of_ok hrun]
    cases x with
    | error e => exact ⟨_, _, rfl⟩
    | ok fin =>
      have hfin := loadSegments_end ⟨Nat.dvd_zero _, by decide⟩ hrun
      obtain ⟨x, s2, h, -⟩ := loadHeap_total hfin a f.header.entry s1 hr1
      exact ⟨x, s2, h⟩
  · rw [bind_run, hrun]
    constructor
    · rintro ⟨x, s', h⟩
      cases h
    · exact fun h => absurd ⟨not_not.mp hopen, helf.1, helf.2, hstop⟩ h

theorem lowSpace_ready : asInit 1 true kernelOnly = .ok (.ok, lowSpace) ∧ lowSpace.vm.pm.Ready := by
  have hrun : asInit 1 true kernelOnly = .ok (.ok, lowSpace) :=
      Prog.run_of_result (by decide +kernel)
  exact ⟨hrun, asInit_ready kernelOnly_separate.ready hrun⟩

/-- The file with a segment at `0x1000` is loaded or refused. -/
theorem lowSegment_returns : ∃ x s', procLoad lowSegment 1 lowSpace = .ok (x, s') :=
  (procLoad_returns_iff lowSegment 1 lowSpace_ready.2).2 (by decide)

/-- The segment has `0x1000` bytes from `0xFFFFFFFFFFFFEFFF` on, so that it ends at the last
address. -/
def topSegment : ExecFile := oneSegment [0xff, 0xef, 0xff, 0xff, 0xff, 0xff, 0xff, 0xff]

/-- Loading the file in a new address space stops the kernel. -/
theorem topSegment_asserts : asInit 1 true kernelOnly = .ok (.ok, lowSpace) ∧
    procLoad topSegment 1 lowSpace = .error (.kassert "(addr + pg_round_up(size)) >= addr") :=
  ⟨lowSpace_ready.1, Prog.run_of_trapOf (by decide +kernel)⟩

end Osv
