import Osv.Vm.Frames

/-!
# The pages of a process and its regions

The regions of an address space say which addresses a process may use, and its page tables which
pages it has.  They are changed by different code: `sys_sbrk` moves the end of the heap region and
touches no page, and a page fault maps a page and touches no region.

Every page that is mapped when a process starts lies in a region, and a page fault maps pages of the
heap and of the stack only.  But `memregion_extend` leaves the pages behind a lowered end mapped.
They stay accessible, and are there again with their old contents when the heap grows.  The pages of
a process lie in its regions as long as no page between the new end and the old one has been
touched when the end is lowered (`Spaces.BreakClear`).
-/

namespace Osv

open Prog (bind_ok read_bind run_of_result zoom_ok)
open Spaces (setRegion_of_ne setRegion_self)

/-- The page `q` has an address of the region, up to the end of the region's last page. -/
def MemRegion.Touches (mr : MemRegion) (q : ℕ) : Prop :=
  mr.start < (q + 1) * pgSize ∧ q * pgSize < pgRoundUpAddr mr.fin

instance (mr : MemRegion) (q : ℕ) : Decidable (mr.Touches q) := inferInstanceAs (Decidable (_ ∧ _))

/-- The page `q` meets a region of the address space. -/
def Spaces.InRegion (s : Spaces) (a q : ℕ) : Prop :=
  ∃ r ∈ (s.space a).regions, (s.region r).Touches q

/-- Page `q` is one that the user part of the page tables has. -/
def UserPage (q : ℕ) : Prop := CanonicalPage q ∧ UserPath (pagePath q)

/-- Every user page that is present meets a region. -/
def Spaces.PagesInRegions (s : Spaces) (a : ℕ) : Prop :=
  ∀ q, UserPage q → present (entryOf s.vm.mem (s.space a).vpmap q) = true → s.InRegion a q

/-- An address space with its pages, its regions and the pages in the regions. -/
structure Home (a : ℕ) (s : Spaces) : Prop where
  paged : Paged (s.space kas).vpmap (s.space a).vpmap s.vm
  ne : a ≠ kas
  cache : s.cache.Ok
  nodup : (s.space a).regions.Nodup
  inUse : ∀ r ∈ (s.space a).regions, s.InUse r
  as : ∀ r ∈ (s.space a).regions, (s.region r).as = a
  user : ∀ r ∈ (s.space a).regions, (s.region r).User
  covered : s.PagesInRegions a

variable {mr : MemRegion}

section Pages

variable {q v : ℕ}

theorem CanonicalPage.eq_of_mod (hq : CanonicalPage q) (hv : Canonical v)
    (h : q % 2 ^ 36 = pageOf v) : q = v / pgSize := by
  have hp := hv.page
  rw [pageOf] at h
  generalize v / pgSize = p at *
  simp only [CanonicalPage] at *
  omega

theorem Canonical.lt (hv : Canonical v) : v < 2 ^ 64 := by
  simp only [Canonical] at hv
  omega

theorem MemRegion.User.touches (h : mr.User) (h1 : mr.start ≤ v) (h2 : v < mr.fin) :
    mr.Touches (v / pgSize) := by
  have h3 := h.below
  simp only [MemRegion.Touches, pgRoundUpAddr, pgRoundUp, pgSize, kmapBase] at *
  omega

end Pages

variable {perm : MemPerm}

namespace Home

variable {a r g : ℕ} {s s' : Spaces} {vm : Vm}

section

variable (H : Home a s)

include H

theorem congr (hregs : (s'.space a).regions = (s.space a).regions)
    (hreg : ∀ r ∈ (s.space a).regions, s'.InUse r ∧ s'.region r = s.region r) (hc : s'.cache.Ok)
    (hd : (s'.space a).vpmap = (s.space a).vpmap)
    (A : Paged (s'.space kas).vpmap (s.space a).vpmap s'.vm)
    (hent : ∀ q, UserPath (pagePath q) → entryOf s'.vm.mem (s.space a).vpmap q =
      entryOf s.vm.mem (s.space a).vpmap q) : Home a s' := by
  refine ⟨hd ▸ A, H.ne, hc, hregs ▸ H.nodup, ?_, ?_, ?_, fun q hq hp => ?_⟩
  · rw [hregs]
    exact fun r hr => (hreg r hr).1
  · rw [hregs]
    exact fun r hr => (hreg r hr).2 ▸ H.as r hr
  · rw [hregs]
    exact fun r hr => (hreg r hr).2 ▸ H.user r hr
  · rw [hd, hent q hq.2] at hp
    obtain ⟨r, hr, ht⟩ := H.covered q hq hp
    exact ⟨r, hregs ▸ hr, (hreg r hr).2 ▸ ht⟩

theorem of_seen (A : Paged (s.space kas).vpmap (s.space a).vpmap vm)
    (hseen : Seen (s.space a).vpmap (fun _ => True) s.vm vm) : Home a { s with vm := vm } :=
  H.congr rfl (fun r hr => ⟨H.inUse r hr, rfl⟩) H.cache rfl A fun q hq => (hseen q hq trivial).1

theorem mapped (M : Mapped s a r mr s') (hu : mr.User) (has : mr.as = a) : Home a s' := by
  have hold : ∀ x ∈ (s.space a).regions, s'.region x = s.region x :=
    fun x hx => M.others x fun h => M.new (h ▸ H.inUse x hx)
  have hmem : ∀ {P : ℕ → Prop}, P r → (∀ x ∈ (s.space a).regions, P x) →
      ∀ x ∈ (s'.space a).regions, P x := by
    intro P h0 h x hx
    rcases List.mem_cons.mp (M.regions.mem_iff.mp hx) with rfl | hx
    · exact h0
    · exact h x hx
  obtain ⟨A, hseen⟩ := H.paged.quiet M.ready M.sub fun f _ => by rw [M.mem]
  refine ⟨?_, H.ne, M.ok, ?_, ?_, ?_, ?_, fun q hq hp => ?_⟩
  · rw [M.spaces kas H.ne.symm, M.vpmap]
    exact A
  · refine M.regions.nodup_iff.mpr (List.nodup_cons.mpr ⟨fun h => M.new (H.inUse r h), H.nodup⟩)
  · exact hmem ((M.inUse r).mpr (.inr rfl)) fun x hx => (M.inUse x).mpr (.inl (H.inUse x hx))
  · exact hmem (by rw [M.region, has]) fun x hx => by rw [hold x hx, H.as x hx]
  · exact hmem (by rw [M.region]; exact hu) fun x hx => by rw [hold x hx]; exact H.user x hx
  · rw [M.vpmap, (hseen q hq.2 trivial).1] at hp
    obtain ⟨x, hx, ht⟩ := H.covered q hq hp
    exact ⟨x, M.regions.mem_iff.mpr (List.mem_cons_of_mem r hx), by rwa [hold x hx]⟩

/-- A page of a region is mapped, or there is no memory for its tables. -/
theorem vpmapMap (F : Fresh (s.space kas).vpmap (s.space a).vpmap g s.vm) {v : ℕ} {e : Err}
    (hv : Canonical v) (hk : pml4x v ≠ kernelIdx) (hin : s.InRegion a (v / pgSize))
    (h : vmCall (Osv.vpmapMap (s.space a).vpmap v (g * pgSize) 1 perm) s = .ok (e, s')) :
    ∃ vm, s' = { s with vm := vm } ∧ Home a s' ∧ vm.mem g = s.vm.mem g ∧
      Seen (s.space a).vpmap (· ≠ pageOf v) s.vm vm ∧
      (e ≠ .ok → Fresh (s.space kas).vpmap (s.space a).vpmap g vm ∧
        Seen (s.space a).vpmap (fun _ => True) s.vm vm) ∧
      (e = .ok → entryOf vm.mem (s.space a).vpmap (pageOf v) =
        mkPte (g * pgSize) (mempermToPteperm perm)) := by
  obtain ⟨vm, hvm, rfl⟩ := zoom_ok.mp h
  obtain ⟨A, hmem, hseen, hfail, hok⟩ := H.paged.vpmapMap F hv.lt hk hvm
  refine ⟨vm, rfl, ⟨A, H.ne, H.cache, H.nodup, H.inUse, H.as, H.user, fun q hq hp => ?_⟩, hmem,
    hseen,
    hfail, hok⟩
  by_cases hqv : q % 2 ^ 36 = pageOf v
  · rw [hq.1.eq_of_mod hv hqv]
    exact hin
  · rw [(hseen q hq.2 hqv).1] at hp
    exact H.covered q hq hp

theorem alloc (vm : Vm) {paddr : ℕ} (h : vmCall (pmemCall pmemAlloc) s = .ok (some paddr, s'))
    (hpm : vm.pm = s'.vm.pm) (hmem : ∀ f, f ≠ paddr / pgSize → vm.mem f = s'.vm.mem f) :
    ∃ g, paddr = g * pgSize ∧ { s' with vm := vm } = { s with vm := vm } ∧
      Fresh (s.space kas).vpmap (s.space a).vpmap g vm ∧ Home a { s with vm := vm } ∧
      Seen (s.space a).vpmap (fun _ => True) s.vm vm := by
  obtain ⟨vm1, hvm, rfl⟩ := zoom_ok.mp h
  obtain ⟨g, rfl, F, A, hseen⟩ := H.paged.alloc hvm hpm hmem
  exact ⟨g, rfl, rfl, F, H.of_seen A hseen, hseen⟩

theorem alloc_none (h : vmCall (pmemCall pmemAlloc) s = .ok (none, s')) : s' = s := by
  obtain ⟨vm', hvm, rfl⟩ := zoom_ok.mp h
  rw [pmemCall_alloc_none H.paged.ready hvm]

end

end Home

/-! ## Regions of user space -/

variable {x : ℕ}

theorem pgRoundUp_of_dvd (h : pgSize ∣ x) : pgRoundUp x = x := by
  obtain ⟨n, rfl⟩ := h
  simp only [pgRoundUp, pgSize]
  omega

variable {s : Spaces} {s' : Spaces}

/-- A region with a page-aligned start and size, as the kernel makes them for a process. -/
theorem asMapMemregion_user {a addr size r store ofs : ℕ} {shared : Int} (hc : s.cache.Ok)
    (hr : s.vm.pm.Ready) (ha : a ≠ kas) (hlt : addr < 2 ^ 64) (hdvd : pgSize ∣ addr)
    (hsize : pgSize ∣ size) (hslt : size < 2 ^ 64)
    (h : asMapMemregion a addr size perm store ofs shared s = .ok (some r, s')) :
    Mapped s a r ⟨a, addr, addr + size, perm, shared, store, ofs⟩ s' ∧ ¬ s.Found a addr size ∧
      (⟨a, addr, addr + size, perm, shared, store, ofs⟩ : MemRegion).User := by
  have hne : addr ≠ addrAnywhere := by
    rintro rfl
    revert hdvd
    decide
  rw [asMapMemregion, memregionMapInternal, if_neg hne] at h
  have hsum : addr + size < 2 ^ 64 := by
    have h' := h
    rw [memregionMapAt] at h'
    obtain ⟨-, h'⟩ := kassert_bind_ok.mp h'
    obtain ⟨hle, -⟩ := kassert_bind_ok.mp h'
    simp only [decide_eq_true_eq, addAddr, pgRoundUpAddr, pgRoundUp_of_dvd hsize] at hle
    omega
  obtain ⟨hx, -⟩ | ⟨r', hx, hout, hnot, M⟩ := memregionMapAt_cases hc hr h
  · cases hx
  · cases hx
    have hfin : addAddr addr size = addr + size := Nat.mod_eq_of_lt hsum
    rw [hfin] at M
    refine ⟨M, hnot, hdvd, Nat.le_add_right _ _, ?_⟩
    by_contra hbelow
    refine hout ⟨ha, .inr ?_⟩
    rw [hfin, pgRoundUpAddr, pgRoundUp_of_dvd (Nat.dvd_add hdvd hsize), Nat.mod_eq_of_lt hsum,
      isUserAddr, decide_eq_true_eq]
    simp only at hbelow
    omega

/-! ## Loading -/

/-- The pages of the segment are user pages with canonical addresses. -/
def ProgHdr.Proper (ph : ProgHdr) : Prop :=
  ∀ i < ph.size / pgSize, Canonical (addAddr ph.vaddr (i * pgSize)) ∧
    pml4x (addAddr ph.vaddr (i * pgSize)) ≠ kernelIdx

/-- The loadable segments among the `n` headers from `ofs` on are proper. -/
def ExecFile.ProperFrom (f : ExecFile) (n ofs : ℕ) : Prop :=
  ∀ k < n, (ProgHdr.decode (f.read (phofs k ofs) sizeofProgHdr)).type = ptLoad →
    (ProgHdr.decode (f.read (phofs k ofs) sizeofProgHdr)).Proper

/-- The loadable segments of the file are proper. -/
def ExecFile.Proper (f : ExecFile) : Prop := f.ProperFrom f.header.phnum f.header.phoff

variable {f : ExecFile}

theorem ExecFile.ProperFrom.tail {n ofs : ℕ} (h : f.ProperFrom (n + 1) ofs) :
    f.ProperFrom n (addAddr ofs sizeofProgHdr) := by
  intro k hk
  have := h (k + 1) (by omega)
  rw [phofs, Function.iterate_succ_apply] at this
  exact this

theorem ProgHdr.size_dvd (ph : ProgHdr) : pgSize ∣ ph.size := by
  rw [ProgHdr.size, pgRoundUpAddr, pgRoundUp]
  generalize (addAddr ph.memsz (pgOfs ph.vaddr) + pgSize - 1) / pgSize = n
  exact (Nat.dvd_mod_iff (by decide)).mpr (Nat.dvd_mul_left _ _)

theorem ProgHdr.size_lt (ph : ProgHdr) : ph.size < 2 ^ 64 := Nat.mod_lt _ (by decide)

theorem ProgHdr.page_bounds (ph : ProgHdr) (h : pgRoundDown ph.vaddr + ph.size < 2 ^ 64) {i : ℕ}
    (hi : i < ph.size / pgSize) : pgRoundDown ph.vaddr ≤ addAddr ph.vaddr (i * pgSize) ∧
      addAddr ph.vaddr (i * pgSize) < pgRoundDown ph.vaddr + ph.size := by
  obtain ⟨n, hn⟩ := ph.size_dvd
  rw [hn] at h hi ⊢
  simp only [addAddr, pgRoundDown, pgSize] at *
  omega

theorem leNat_lt (bytes : List UInt8) (ofs n : ℕ) : leNat bytes ofs n < 256 ^ n := by
  have key : ∀ l : List UInt8, l.foldr (fun b acc => b.toNat + 256 * acc) 0 < 256 ^ l.length := by
    intro l
    induction l with
    | nil => simp
    | cons b l ih =>
      rw [List.foldr_cons, List.length_cons, pow_succ]
      have := b.toNat_lt
      omega
  exact (key _).trans_le (Nat.pow_le_pow_right (by decide) (List.length_take_le _ _))

theorem loadSegment_ok {a fin : ℕ} {ph : ProgHdr} {s s' : Spaces}
    (h : loadSegment f a ph s = .ok (.ok fin, s')) :
    ∃ r s1, asMapMemregion a (pgRoundDown ph.vaddr) ph.size ph.perm 0 ph.off 0 s =
      .ok (some r, s1) ∧
      loadPages f a ph (ph.size / pgSize) 0 ph.off ph.filesz s1 = .ok (.ok, s') ∧
        fin = (s1.region r).fin := by
  rw [loadSegment] at h
  split at h
  · cases h
  obtain ⟨r, s1, hmap, h⟩ := bind_ok.mp h
  cases r with
  | none => cases h
  | some r =>
    simp only at h
    rw [read_bind] at h
    obtain ⟨e, s2, hload, h⟩ := bind_ok.mp h
    split at h
    · cases h
    rename_i he
    rw [not_not.mp he] at hload
    cases h
    exact ⟨r, s1, hmap, hload, rfl⟩

namespace Home

variable {a : ℕ} {s s' : Spaces}

theorem loadPage (H : Home a s) {v off pofs avail : ℕ} (hv : Canonical v) (hk : pml4x v ≠ kernelIdx)
    (hin : s.InRegion a (v / pgSize))
    (h : Osv.loadPage f a v perm off pofs avail s = .ok (.ok, s')) :
    Home a s' ∧ ∃ vm, s' = { s with vm := vm } := by
  rw [Osv.loadPage] at h
  obtain ⟨x, s1, hall, h⟩ := bind_ok.mp h
  cases x with
  | none => cases h
  | some paddr =>
    simp only [loadFill] at h
    obtain ⟨t1, ht1, h⟩ := Prog.update_bind_ok.mp h
    obtain ⟨t2, ht2, h⟩ := Prog.update_bind_ok.mp h
    subst ht1
    simp only at ht2
    obtain ⟨hpm, hmem⟩ := Vm.setBytes_frame (paddr / pgSize) (f.readPage off avail) pofs
      (s1.vm.zeroPage (paddr / pgSize))
    obtain ⟨g, rfl, hs, F, H', -⟩ := H.alloc _ hall hpm fun g hg => (hmem g hg).trans (by
      funext j
      exact if_neg hg)
    rw [hs] at ht2
    subst ht2
    split at h
    · cases h
    · rw [read_bind] at h
      obtain ⟨vm, rfl, H'', -⟩ := H'.vpmapMap F hv hk hin h
      exact ⟨H'', vm, rfl⟩

theorem loadPages {ph : ProgHdr} {n count off rb : ℕ} (H : Home a s)
    (hp : ∀ i < count + n, Canonical (addAddr ph.vaddr (i * pgSize)) ∧
      pml4x (addAddr ph.vaddr (i * pgSize)) ≠ kernelIdx ∧
      s.InRegion a (addAddr ph.vaddr (i * pgSize) / pgSize))
    (h : Osv.loadPages f a ph n count off rb s = .ok (.ok, s')) :
    Home a s' ∧ ∃ vm, s' = { s with vm := vm } := by
  induction n generalizing count off rb s with
  | zero =>
    cases h
    exact ⟨H, s'.vm, rfl⟩
  | succ n ih =>
    rw [Osv.loadPages] at h
    obtain ⟨e, s1, hpage, h⟩ := bind_ok.mp h
    split at h
    · rename_i he
      cases h
      exact absurd rfl he
    · rename_i he
      rw [not_not.mp he] at hpage
      obtain ⟨hv, hk, hin⟩ := hp count (by omega)
      obtain ⟨H1, vm1, rfl⟩ := H.loadPage hv hk hin hpage
      obtain ⟨H2, vm2, rfl⟩ := ih H1 (fun i hi => hp i (by omega)) h
      exact ⟨H2, vm2, rfl⟩

/-- The end that the loop over the headers carries is that of a region, or no segment was loaded. -/
def EndOf (a : ℕ) (s : Spaces) (fin : ℕ) : Prop :=
  fin = 0 ∨ pgSize ∣ fin ∧ ∃ r ∈ (s.space a).regions, (s.region r).fin = fin

theorem loadSegment (H : Home a s) {ph : ProgHdr} {fin : ℕ} (hlt : ph.vaddr < 2 ^ 64)
    (hp : ph.Proper) (h : Osv.loadSegment f a ph s = .ok (.ok fin, s')) :
    Home a s' ∧ EndOf a s' fin := by
  obtain ⟨r, s1, hmap, hload, rfl⟩ := loadSegment_ok h
  have hdown : pgRoundDown ph.vaddr < 2 ^ 64 := by
    rw [pgRoundDown, pgSize]
    omega
  obtain ⟨M, -, hu⟩ := asMapMemregion_user H.cache H.paged.ready H.ne hdown
      (Nat.dvd_mul_left _ _) ph.size_dvd
    ph.size_lt hmap
  have hr : r ∈ (s1.space a).regions := M.regions.mem_iff.mpr (List.mem_cons_self ..)
  have hpages : ∀ i < 0 + ph.size / pgSize, s1.InRegion a
      (addAddr ph.vaddr (i * pgSize) / pgSize) := by
    intro i hi
    obtain ⟨h1, h2⟩ := ph.page_bounds (hu.below.trans_lt (by decide)) (i := i) (by omega)
    refine ⟨r, hr, ?_⟩
    rw [M.region]
    exact hu.touches h1 h2
  obtain ⟨H2, vm, rfl⟩ := (H.mapped M hu rfl).loadPages
    (fun i hi => ⟨(hp i (by omega)).1, (hp i (by omega)).2, hpages i hi⟩) hload
  refine ⟨H2, .inr ⟨?_, r, hr, rfl⟩⟩
  rw [M.region]
  exact Nat.dvd_add (Nat.dvd_mul_left _ _) ph.size_dvd

theorem loadSegments {n ofs fin fin' : ℕ} (H : Home a s) (hfin : EndOf a s fin)
    (hp : f.ProperFrom n ofs) (h : Osv.loadSegments f a n ofs fin s = .ok (.ok fin', s')) :
    Home a s' ∧ EndOf a s' fin' := by
  induction n generalizing ofs fin s with
  | zero =>
    cases h
    exact ⟨H, hfin⟩
  | succ n ih =>
    rw [Osv.loadSegments] at h
    split at h
    · cases h
    · split at h
      · exact ih H hfin hp.tail h
      · rename_i htype
        obtain ⟨y, s1, hseg, h⟩ := bind_ok.mp h
        cases y with
        | error e => cases h
        | ok fin1 =>
          obtain ⟨H1, hfin1⟩ := H.loadSegment (leNat_lt _ 16 8) (hp 0 (by omega) (not_not.mp htype))
              hseg
          exact ih H1 hfin1 hp.tail h

/-- A heap that ends below the stack. -/
structure Heap (a h : ℕ) (s : Spaces) : Prop where
  heap : (s.space a).heap = some h
  mem : h ∈ (s.space a).regions
  below : (s.region h).fin ≤ ustackLowerbound

/-- The heap starts at the end of a region, so the check for overlaps refuses it in the upper half
of the addresses, where the sum of its start and its end wraps around. -/
theorem loadHeap (H : Home a s) {fin entry x : ℕ} (hfin : EndOf a s fin)
    (h : Osv.loadHeap a fin entry s = .ok (.ok x, s')) : Home a s' ∧ ∃ r, Heap a r s' := by
  rw [Osv.loadHeap] at h
  obtain ⟨heap, s1, hmap, h⟩ := bind_ok.mp h
  obtain ⟨t, ht, h⟩ := Prog.update_bind_ok.mp h
  cases heap with
  | none => cases h
  | some r =>
    rw [if_neg (by simp)] at h
    cases h
    have hdvd : pgSize ∣ fin := hfin.elim (fun h => h ▸ Nat.dvd_zero _) fun h => h.1
    have hlt : fin < 2 ^ 64 := by
      rcases hfin with rfl | ⟨-, x, hx, rfl⟩
      · decide
      · exact (H.user x hx).below.trans_lt (by decide)
    obtain ⟨M, hnot, hu⟩ := asMapMemregion_user H.cache H.paged.ready H.ne hlt hdvd (Nat.dvd_zero _)
      (by decide) hmap
    have hlow : fin ≤ ustackLowerbound := by
      rcases hfin with rfl | ⟨-, x, hx, hxf⟩
      · exact Nat.zero_le _
      · by_contra hhigh
        refine hnot ⟨x, hx, hxf ▸ (H.user x hx).le, ?_⟩
        rw [hxf, pgRoundUpAddr, pgRoundUp_of_dvd hdvd]
        simp only [addAddr, ustackLowerbound, pgSize] at *
        omega
    have H1 := H.mapped M hu rfl
    have hspace : ∀ b, (s'.space b).regions = (s1.space b).regions ∧
        (s'.space b).vpmap = (s1.space b).vpmap := by
      intro b
      rw [ht]
      by_cases hb : b = a
      · subst hb
        simp [Spaces.setHeap]
      · simp [Spaces.setHeap, hb]
    have hvm : s'.vm = s1.vm := by rw [ht]; rfl
    have hreg : s'.region = s1.region := by rw [ht]; rfl
    have hcache : s'.cache = s1.cache := by rw [ht]; rfl
    refine ⟨H1.congr (hspace a).1 (fun x hx => ⟨?_, by rw [hreg]⟩)
      (hcache ▸ H1.cache) (hspace a).2 ?_ fun q _ => by rw [hvm], r, ?_, ?_, ?_⟩
    · rw [Spaces.InUse, hcache]
      exact H1.inUse x hx
    · rw [(hspace kas).2, hvm]
      exact H1.paged
    · rw [ht]
      simp [Spaces.setHeap]
    · rw [(hspace a).1]
      exact M.regions.mem_iff.mpr (List.mem_cons_self ..)
    · rw [hreg, M.region]
      exact hlow

theorem procLoad (H : Home a s) (hp : f.Proper) (h : Osv.procLoad f a s = .ok (.ok x, s')) :
    Home a s' ∧ ∃ r, Heap a r s' := by
  rw [Osv.procLoad] at h
  split at h
  · cases h
  · split at h
    · cases h
    · obtain ⟨y, s1, hseg, h⟩ := bind_ok.mp h
      cases y with
      | error e => cases h
      | ok fin =>
        obtain ⟨H1, hfin⟩ := H.loadSegments (.inl rfl) hp hseg
        exact H1.loadHeap hfin h

end Home

/-! ## The stack -/

/-- An address space with a heap and, above it, a stack. -/
structure Process (a h st : ℕ) (s : Spaces) : Prop where
  home : Home a s
  heap : Home.Heap a h s
  stack : st ∈ (s.space a).regions
  ne : st ≠ h
  stack_start : (s.region st).start = ustackLowerbound
  stack_fin : (s.region st).fin = ustackUpperbound

theorem Home.stackSetup {a h x : ℕ} (H : Home a s) (P : Home.Heap a h s)
    (hrun : Osv.stackSetup a s = .ok (.ok x, s')) : ∃ st, Process a h st s' := by
  rw [Osv.stackSetup] at hrun
  obtain ⟨y, s1, hall, hrun⟩ := bind_ok.mp hrun
  cases y with
  | none => cases hrun
  | some paddr =>
    simp only at hrun
    obtain ⟨t, ht, hrun⟩ := Prog.update_bind_ok.mp hrun
    obtain ⟨g, rfl, hs, F, H1, -⟩ := H.alloc (s1.vm.zeroPage (paddr / pgSize)) hall rfl
      fun f hf => funext fun j => if_neg hf
    rw [hs] at ht
    subst ht
    obtain ⟨e, s2, hmap, hrun⟩ := bind_ok.mp hrun
    split at hrun
    · obtain ⟨u, s3, -, hrun⟩ := bind_ok.mp hrun
      cases hrun
    · rename_i he
      cases hrun
      rw [not_not.mp he, stackMap] at hmap
      obtain ⟨r, s2, hreg, hmap⟩ := bind_ok.mp hmap
      cases r with
      | none => cases hmap
      | some st =>
        simp only at hmap
        rw [read_bind] at hmap
        obtain ⟨M, -, hu⟩ := asMapMemregion_user H1.cache H1.paged.ready H1.ne (by decide)
          (by decide) (by decide) (by decide) hreg
        have H2 := H1.mapped M hu rfl
        have hst : st ∈ (s2.space a).regions := M.regions.mem_iff.mpr (List.mem_cons_self ..)
        have hne : h ≠ st := fun e => M.new (e ▸ H1.inUse h P.mem)
        have hin : s2.InRegion a ((ustackUpperbound - pgSize) / pgSize) := by
          refine ⟨st, hst, ?_⟩
          rw [M.region]
          exact hu.touches
            (by decide : ustackUpperbound - pgSize - 9 * pgSize ≤ ustackUpperbound - pgSize)
            (by decide : ustackUpperbound - pgSize <
              ustackUpperbound - pgSize - 9 * pgSize + pgSize * 10)
        have F2 := F.shrink M.mem M.sub M.holds
        rw [← M.spaces kas H.ne.symm, ← M.vpmap] at F2
        obtain ⟨vm, rfl, H3, -⟩ := H2.vpmapMap F2 (.inr (by decide)) (by decide) hin hmap
        have hold : s2.region h = s.region h := M.others h hne
        refine ⟨st, H3, ⟨M.heap.trans P.heap, M.regions.mem_iff.mpr (List.mem_cons_of_mem st P.mem),
          ?_⟩, hst, hne.symm, ?_, ?_⟩
        · show (s2.region h).fin ≤ _
          rw [hold]
          exact P.below
        · show (s2.region st).start = _
          rw [M.region]
          rfl
        · show (s2.region st).fin = _
          rw [M.region]
          rfl

/-! ## Page faults -/

/-- The page has no words but zeros, if there is one. -/
def ZeroPage (d : ℕ) (vm : Vm) (q : ℕ) : Prop :=
  ∀ f, reach vm.mem d (pagePath q) = some f → ∀ j, vm.mem f j = 0

/-- Whether an entry has `PTE_W`. -/
def writable (e : ℕ) : Bool := e / 2 % 2 = 1

/-- What a page fault at `addr` leaves behind: nothing new, or a page of zeros that can be written.
-/
def Faulted (d addr : ℕ) (x : FaultEnd) (s s' : Vm) : Prop :=
  x = .exited ∧ Seen d (fun _ => True) s s' ∨ x = .resumed ∧ ZeroPage d s' (pageOf addr) ∧
    present (entryOf s'.mem d (pageOf addr)) = true ∧
    writable (entryOf s'.mem d (pageOf addr)) = true

theorem writable_mkPte {g : ℕ} (hg : g < 2 ^ 39) :
    writable (mkPte (g * pgSize) (mempermToPteperm .urw)) = true := by
  have h7 : 1 ||| mempermToPteperm .urw = 7 := by decide
  have h2 : (g * pgSize + 7) / 2 % 2 = 1 := by
    rw [pgSize]
    omega
  rw [mkPte_eq hg, h7, or_flags (by decide), writable, decide_eq_true_eq, h2]

theorem Seen.zeroPage {d q : ℕ} {P : ℕ → Prop} {s s' : Vm} (h : Seen d P s s')
    (hu : UserPath (pagePath q)) (hp : P (q % 2 ^ 36)) (hz : ZeroPage d s q) : ZeroPage d s' q := by
  intro f hf j
  rw [h.reach_eq hu hp] at hf
  rw [(h q hu hp).2 f hf]
  exact hz f hf j

theorem pageOf_roundDown (v : ℕ) : pageOf (pgRoundDown v) = pageOf v := by
  rw [pageOf, pageOf, pgRoundDown, mul_pgSize_div]

theorem Canonical.roundDown {v : ℕ} (h : Canonical v) : Canonical (pgRoundDown v) := by
  simp only [Canonical, pgRoundDown, pgSize] at *
  omega

/-- A page of zeros is mapped at a page of a region, or nothing is. -/
theorem Home.faultPage {a addr : ℕ} {x : FaultEnd} (H : Home a s) (hv : Canonical addr)
    (hk : pml4x addr ≠ kernelIdx) (hin : s.InRegion a (addr / pgSize))
    (h : Osv.faultPage a addr s = .ok (x, s')) :
    ∃ vm, s' = { s with vm := vm } ∧ Home a s' ∧ Seen (s.space a).vpmap (· ≠ pageOf addr) s.vm vm ∧
      Faulted (s.space a).vpmap addr x s.vm vm := by
  rw [Osv.faultPage] at h
  obtain ⟨y, s1, hall, h⟩ := bind_ok.mp h
  cases y with
  | none =>
    cases h
    rw [H.alloc_none hall]
    exact ⟨s.vm, rfl, H, .refl, .inl ⟨rfl, .refl⟩⟩
  | some paddr =>
    obtain ⟨g, rfl, hs, F, H1, hseen⟩ := H.alloc (s1.vm.zeroPage (paddr / pgSize)) hall rfl
      fun f hf => funext fun j => if_neg hf
    obtain ⟨e, s2, hmap, hend⟩ := faultFill_ok h
    rw [hs, faultMap, read_bind] at hmap
    rw [mul_pgSize_div] at hmap F H1 hseen
    have hin' : s.InRegion a (pgRoundDown addr / pgSize) := by
      rwa [pgRoundDown, mul_pgSize_div]
    obtain ⟨vm, rfl, H2, hmem, hothers, hfail, hok⟩ := H1.vpmapMap F hv.roundDown
      (by rwa [pml4x_roundDown]) hin' hmap
    rw [pageOf_roundDown] at hothers hok
    have hperm := mempermToPteperm_lt .urw
    rcases hend with ⟨he, rfl, rfl⟩ | ⟨he, rfl, hfree⟩
    · refine ⟨vm, rfl, H2, (hseen.mono fun _ _ => trivial).trans hothers,
        .inr ⟨rfl, fun f hf j => ?_, ?_, ?_⟩⟩
      · rw [reach_eq_some, hok he, entryFrame_mkPte F.lt hperm] at hf
        rw [← hf.2, hmem]
        exact if_pos rfl
      · rw [hok he]
        exact present_mkPte F.lt hperm
      · rw [hok he]
        exact writable_mkPte F.lt
    · obtain ⟨F2, hseen2⟩ := hfail he
      obtain ⟨vm', hvm, rfl⟩ := zoom_ok.mp hfree
      obtain ⟨A, hseen3⟩ := H2.paged.free F2 hvm
      have hall := (hseen.trans hseen2).trans hseen3
      exact ⟨vm', rfl, H2.of_seen A hseen3, hall.mono fun _ _ => trivial, .inl ⟨rfl, hall⟩⟩

namespace Process

variable {a h st : ℕ} {s s' : Spaces}

theorem of_vm (P : Process a h st s) {vm : Vm} (H : Home a { s with vm := vm }) :
    Process a h st { s with vm := vm } :=
  ⟨H, ⟨P.heap.heap, P.heap.mem, P.heap.below⟩, P.stack, P.ne, P.stack_start, P.stack_fin⟩

/-- A fault in the stack or the heap is one in a region, and not behind the kernel's entry. -/
theorem handlePageFault (P : Process a h st s) {addr : ℕ} {x : FaultEnd} (hv : Canonical addr)
    (hrun : Osv.handlePageFault a addr true s = .ok (x, s')) :
    Process a h st s' ∧ ∃ vm, s' = { s with vm := vm } ∧
      Seen (s.space a).vpmap (· ≠ pageOf addr) s.vm vm ∧
      Faulted (s.space a).vpmap addr x s.vm vm := by
  rw [Osv.handlePageFault] at hrun
  split at hrun
  · rename_i hstack
    simp only [Bool.and_eq_true, decide_eq_true_eq, true_and] at hstack
    have hin : s.InRegion a (addr / pgSize) := by
      refine ⟨st, P.stack, (P.home.user st P.stack).touches ?_ ?_⟩
      · rw [P.stack_start]
        exact hstack.1
      · rw [P.stack_fin]
        exact hstack.2
    have hk : pml4x addr ≠ kernelIdx := by
      simp only [ustackUpperbound, ustackPages, pgSize, pml4x, entryIdx, nPtePerPg, kernelIdx] at *
      omega
    obtain ⟨vm, rfl, H, hseen⟩ := P.home.faultPage hv hk hin hrun
    exact ⟨P.of_vm H, vm, rfl, hseen⟩
  · rw [if_pos rfl] at hrun
    obtain ⟨r, s1, hheap, hrun⟩ := bind_ok.mp hrun
    obtain ⟨hr, rfl⟩ := heapRegion_ok hheap
    rw [P.heap.heap] at hr
    cases hr
    rw [read_bind] at hrun
    split at hrun
    · rename_i hin
      simp only [Bool.and_eq_true, decide_eq_true_eq] at hin
      have hk : pml4x addr ≠ kernelIdx := by
        have hlow := hin.2.trans_le P.heap.below
        simp only [Canonical, ustackLowerbound, pgSize, pml4x, entryIdx, nPtePerPg, kernelIdx] at *
        omega
      obtain ⟨vm, rfl, H, hseen⟩ := P.home.faultPage hv hk
        ⟨h, P.heap.mem, (P.home.user h P.heap.mem).touches hin.1 hin.2⟩ hrun
      exact ⟨P.of_vm H, vm, rfl, hseen⟩
    · cases hrun
      exact ⟨P, s'.vm, rfl, .refl, .inl ⟨rfl, .refl⟩⟩

end Process

/-! ## Moving the end of the heap -/

/-- `memregion_extend` accepts the new end: it is not below the start, and the check for overlaps
finds none. -/
def Spaces.Extends (s : Spaces) (a h newEnd : ℕ) : Prop :=
  (s.region h).start ≤ newEnd ∧ ∀ n ∈ (s.space a).regions, n ≠ h →
    extendOverlaps (s.region h) (s.region n) newEnd = false

/-- No page between the new end of the heap and the old one is present, but for those of another
region. -/
def Spaces.BreakClear (s : Spaces) (a h newEnd : ℕ) : Prop :=
  s.Extends a h newEnd → ∀ q, UserPage q → newEnd ≤ q * pgSize → q * pgSize < (s.region h).fin →
    present (entryOf s.vm.mem (s.space a).vpmap q) = true →
      ∃ r ∈ (s.space a).regions, r ≠ h ∧ (s.region r).Touches q

/-- What `memregion_extend` does, which always returns. -/
theorem memregionExtend_cases (a r : ℕ) (size : Int) (s : Spaces) :
    (size = 0 ∧ memregionExtend a r size s = .ok ((.ok, some (s.region r).fin), s)) ∨
    (size ≠ 0 ∧ extendAddr (s.region r).fin size < (s.region r).start ∧
      memregionExtend a r size s = .ok ((.vmInvalid, none), s)) ∨
    (size ≠ 0 ∧ (s.region r).start ≤ extendAddr (s.region r).fin size ∧
      ¬ s.Extends a r (extendAddr (s.region r).fin size) ∧
      memregionExtend a r size s = .ok ((.vmBound, none), s)) ∨
    (size ≠ 0 ∧ s.Extends a r (extendAddr (s.region r).fin size) ∧
      memregionExtend a r size s = .ok ((.ok, some (s.region r).fin),
        s.setRegion r { s.region r with fin := extendAddr (s.region r).fin size })) := by
  rw [memregionExtend, read_bind]
  by_cases h0 : size = 0
  · rw [if_pos h0]
    exact .inl ⟨h0, rfl⟩
  · rw [if_neg h0]
    by_cases hlow : extendAddr (s.region r).fin size < (s.region r).start
    · rw [if_pos hlow]
      exact .inr (.inl ⟨h0, hlow, rfl⟩)
    · rw [if_neg hlow]
      split
      · rename_i hany
        obtain ⟨n, hn, hov⟩ := List.any_eq_true.mp hany
        simp only [Bool.and_eq_true, decide_eq_true_eq] at hov
        refine .inr (.inr (.inl ⟨h0, Nat.not_lt.mp hlow, fun E => ?_, rfl⟩))
        rw [E.2 n hn hov.1] at hov
        exact Bool.false_ne_true hov.2
      · rename_i hany
        refine .inr (.inr (.inr ⟨h0, ⟨Nat.not_lt.mp hlow, fun n hn hne => ?_⟩, rfl⟩))
        by_contra hov
        refine hany (List.any_eq_true.mpr ⟨n, hn, ?_⟩)
        simp only [Bool.and_eq_true, decide_eq_true_eq]
        exact ⟨hne, Bool.eq_true_of_not_eq_false hov⟩

theorem sysSbrk_run {a h : ℕ} (increment : Int) (hh : (s.space a).heap = some h) :
    ∃ s', sysSbrk a increment s = .ok ((s.region h).fin, s') ∧
      (s' = s ∧ (increment = 0 ∨ ¬ s.Extends a h (extendAddr (s.region h).fin increment)) ∨
        s.Extends a h (extendAddr (s.region h).fin increment) ∧
          s' = s.setRegion h { s.region h with fin := extendAddr (s.region h).fin increment }) := by
  have hheap : heapRegion a s = .ok (h, s) := by
    rw [heapRegion, read_bind, hh]
    rfl
  rw [sysSbrk, Prog.bind_of_ok hheap, read_bind]
  rcases memregionExtend_cases a h increment s with ⟨h0, e⟩ | ⟨-, hlow, e⟩ | ⟨-, -,
    hE, e⟩ | ⟨-, hE, e⟩ <;>
    rw [Prog.bind_of_ok e]
  · exact ⟨s, rfl, .inl ⟨rfl, .inl h0⟩⟩
  · exact ⟨s, rfl, .inl ⟨rfl, .inr fun E => absurd E.1 (Nat.not_le.mpr hlow)⟩⟩
  · exact ⟨s, rfl, .inl ⟨rfl, .inr hE⟩⟩
  · exact ⟨_, rfl, .inr ⟨hE, rfl⟩⟩

theorem MemRegion.touches_iff {q : ℕ} (h : mr.fin ≤ kmapBase) :
    mr.Touches q ↔ mr.start < (q + 1) * pgSize ∧ q * pgSize < mr.fin := by
  simp only [MemRegion.Touches, pgRoundUpAddr, pgRoundUp, pgSize, kmapBase] at *
  omega

namespace Process

variable {a h st e : ℕ} {s s' : Spaces}

section

variable (P : Process a h st s) (E : s.Extends a h e)

include P E

theorem extends_below : e ≤ ustackLowerbound := by
  have hov := E.2 st P.stack P.ne
  have hle := (P.home.user h P.heap.mem).le.trans P.heap.below
  rw [extendOverlaps, P.stack_start, Bool.or_eq_false_iff, Bool.and_eq_false_iff] at hov
  rcases hov.1 with h1 | h1
  · exact Nat.not_lt.mp (of_decide_eq_false h1)
  · exact absurd hle (of_decide_eq_false h1)

/-- After the end has been moved, the pages lie in the regions exactly if none was left behind. -/
theorem extend_iff : (s.setRegion h { s.region h with fin := e }).PagesInRegions a ↔
    s.BreakClear a h e := by
  have hnew : ∀ q, ({ s.region h with fin := e } : MemRegion).Touches q ↔
      (s.region h).start < (q + 1) * pgSize ∧ q * pgSize < e := fun q =>
    MemRegion.touches_iff ((P.extends_below E).trans (by decide))
  have hold : ∀ q, (s.region h).Touches q ↔
      (s.region h).start < (q + 1) * pgSize ∧ q * pgSize < (s.region h).fin := fun q =>
    MemRegion.touches_iff (P.heap.below.trans (by decide))
  constructor
  · intro C _ q hq h1 h2 hp
    obtain ⟨r, hr, ht⟩ := C q hq hp
    have hne : r ≠ h := by
      rintro rfl
      rw [setRegion_self, hnew] at ht
      omega
    exact ⟨r, hr, hne, by rwa [setRegion_of_ne hne] at ht⟩
  · intro B q hq hp
    have keep : ∀ r ∈ (s.space a).regions, r ≠ h → (s.region r).Touches q →
        (s.setRegion h { s.region h with fin := e }).InRegion a q :=
      fun r hr hne ht => ⟨r, hr, by rwa [setRegion_of_ne hne]⟩
    obtain ⟨r, hr, ht⟩ := P.home.covered q hq hp
    by_cases hne : r = h
    · subst hne
      rw [hold] at ht
      by_cases hlt : q * pgSize < e
      · exact ⟨r, hr, by rw [setRegion_self, hnew]; exact ⟨ht.1, hlt⟩⟩
      · obtain ⟨r', hr', hne', ht'⟩ := B E q hq (Nat.not_lt.mp hlt) ht.2 hp
        exact keep r' hr' hne' ht'
    · exact keep r hr hne ht

theorem extend (B : s.BreakClear a h e) :
    Process a h st (s.setRegion h { s.region h with fin := e }) := by
  have hlow := P.extends_below E
  refine ⟨⟨P.home.paged, P.home.ne, P.home.cache, P.home.nodup, P.home.inUse, fun r hr => ?_,
    fun r hr => ?_, (P.extend_iff E).mpr B⟩, ⟨P.heap.heap, P.heap.mem, ?_⟩, P.stack, P.ne, ?_, ?_⟩
  · by_cases hne : r = h
    · rw [hne, setRegion_self]
      exact P.home.as h P.heap.mem
    · rw [setRegion_of_ne hne]
      exact P.home.as r hr
  · by_cases hne : r = h
    · rw [hne, setRegion_self]
      exact ⟨(P.home.user h P.heap.mem).aligned, E.1, hlow.trans (by decide)⟩
    · rw [setRegion_of_ne hne]
      exact P.home.user r hr
  · rw [setRegion_self]
    exact hlow
  · rw [setRegion_of_ne P.ne, P.stack_start]
  · rw [setRegion_of_ne P.ne, P.stack_fin]

end

end Process

/-! ## Forking -/

/-- The entries of user pages are present or empty. -/
def CleanEntries (d : ℕ) (s : Vm) : Prop :=
  ∀ p < 2 ^ 36, UserPath (pagePath p) →
    present (entryOf s.mem d p) = true ∨ entryOf s.mem d p = 0

/-- No region has a page behind the kernel's entry. -/
def Spaces.ForkClear (s : Spaces) (a : ℕ) : Prop :=
  ∀ r ∈ (s.space a).regions, ∀ v, (s.region r).HasPage v → pml4x v ≠ kernelIdx

theorem Process.copySource {a h st : ℕ} (P : Process a h st s) (hf : s.ForkClear a) :
    SourceSpace s a where
  ready := P.home.paged.ready
  kernel_used := P.home.paged.kernel_used
  tables := P.home.paged.tree.used
  pages p f hu h := ⟨(P.home.paged.pages p f hu h).1, (P.home.paged.pages p f hu h).2.2⟩
  kernel := P.home.paged.kernel
  entries r hr v hv := P.home.paged.words _ (userPath_pagePath.mpr (hf r hr v hv))
  cache := P.home.cache
  nodup := P.home.nodup
  inUse := P.home.inUse
  as := P.home.as
  user := P.home.user
  heap x hx := by
    rw [P.heap.heap] at hx
    cases hx
    exact P.heap.mem

theorem Grown.paged {s0 s : Vm} {k src d : ℕ} (H : Source s0 src d) (G : Grown s0 src d s)
    (hk : k ∉ freePages s0.pm) (hkd : k ≠ d)
    (hkern : s0.mem d kernelIdx = if present (s0.mem k kernelIdx) then s0.mem k kernelIdx else 0)
    (C : CleanEntries d s) : Paged k d s := by
  have hkt : k ∉ taken s0 s := fun h => hk h.1
  have hpages : ∀ p f, UserPath (pagePath p) →
      reach s.mem d (pagePath p) = some f → f ∈ taken s0 s :=
    fun p f hu hf => G.owned _ f hu (pagePath_length p).le hf
  refine ⟨G.ready, ⟨fun ρ f hρ hf => ?_, fun π ρ f hπ hρ h1 h2 => ?_⟩, fun h => hk (G.sub h), ?_,
    ?_, fun p f hu hf => ?_, fun p q f hp hq h1 h2 => ?_, fun p hu => ?_⟩
  · rcases G.reach_cases H hρ hf with ⟨-, rfl⟩ | ⟨-, ht⟩ | ⟨hu, -⟩
    · exact fun h => H.dst_used (G.sub h)
    · exact ht.2
    · exact fun h => hu (G.sub h)
  · exact G.unique H hπ.2 hπ.1 hρ h1 h2
  · rintro ⟨π, hπ, hf⟩
    rcases hπ.2 with rfl | hu
    · exact hkd (Option.some.inj hf).symm
    · exact hkt (G.owned π k hu (hπ.1.trans (by decide)) hf)
  · rw [G.kernel, G.same k hkd hkt, hkern]
  · have ht := hpages p f hu hf
    refine ⟨ht.2, fun h => hkt (h ▸ ht), fun π hπ hfπ => ?_⟩
    rcases G.reach_cases H hπ hfπ with ⟨-, rfl⟩ | ⟨hu', -⟩ | ⟨hused, -⟩
    · exact H.dst_used ht.1
    · have := G.inj π _ f hu' hu (hπ.trans (by decide)) (pagePath_length p).le hfπ hf
      rw [this, pagePath_length] at hπ
      omega
    · exact hused ht.1
  · have := G.inj _ _ f hp hq (pagePath_length p).le (pagePath_length q).le h1 h2
    rw [← pagePath_mod p, ← pagePath_mod q] at this
    exact pagePath_inj (Nat.mod_lt _ (by decide)) (Nat.mod_lt _ (by decide)) this
  · refine ⟨fun hp h0 => G.not_present H hu h0 hp, fun h0 => ?_⟩
    rw [entryOf_mod] at h0 ⊢
    rcases C _ (Nat.mod_lt _ (by decide)) (by rwa [pagePath_mod]) with hp | hz
    · exact hp
    · rw [hz] at h0
      exact absurd rfl h0

theorem entryOf_empty {s : Vm} {d p : ℕ} (hzero : ∀ j, j ≠ kernelIdx → s.mem d j = 0)
    (hu : UserPath (pagePath p)) : entryOf s.mem d p = 0 := by
  have hnone : reach s.mem d (pageDir p) = none := reach_cons_of_zero (hzero _ hu)
  rw [entryOf, ← reach_pageDir, hnone]

/-- The child has the regions of its parent, and no page that its parent does not have. -/
theorem Process.fork {src dst h st : ℕ} {s1 s2 : Spaces} {cached : Bool} (P : Process src h st s)
    (hf : s.ForkClear src) (hne : src ≠ dst) (hk : dst ≠ kas)
    (hinit : asInit dst cached s = .ok (.ok, s1)) (hcopy : asCopyAs src dst s1 = .ok (.ok, s2)) :
    ∃ h' st', Process dst h' st' s2 := by
  have S := P.copySource hf
  obtain ⟨F, K0, -, -⟩ := S.asInit hne hk hinit
  obtain ⟨g, hg, -, -, hsub, hregion, -, hspace, hmem, hzero, hkern⟩ :=
    asInit_ok S.ready hk S.kernel_used hinit
  have hsrc : s1.space src = s.space src := by rw [hspace, Function.update_of_ne hne]
  have hdst : s1.space dst = ⟨[], g, none⟩ := by rw [hspace, Function.update_self]
  have hkas : s1.space kas = s.space kas := by rw [hspace, Function.update_of_ne hk.symm]
  rw [asCopyAs] at hcopy
  obtain ⟨-, hcopy⟩ := kassert_bind_ok.mp hcopy
  rw [read_bind] at hcopy
  obtain ⟨c, K, hfill⟩ := asCopyLoop_ok F (List.nil_append _) K0 hcopy
  have C : CleanEntries (s1.space dst).vpmap s2.vm := fun p hp hu =>
    (hfill p hp).imp_right (·.trans (entryOf_empty (by rw [hdst]; exact hzero) hu))
  have hkg : (s.space kas).vpmap ≠ g := fun h => S.kernel_used (h ▸ hg)
  have hmapc : ∀ r ∈ (s.space src).regions, c r ∈ (s2.space dst).regions ∧
      s2.region (c r) = { s.region r with as := dst } := by
    intro r hr
    rw [← hsrc] at hr
    refine ⟨K.perm.mem_iff.mpr (List.mem_map_of_mem hr), ?_⟩
    rw [K.copy r hr, hregion]
  have hregs : ∀ {Q : ℕ → Prop}, (∀ r ∈ (s.space src).regions, Q (c r)) →
      ∀ x ∈ (s2.space dst).regions, Q x := by
    intro Q hQ x hx
    obtain ⟨r, hr, rfl⟩ := List.mem_map.mp (K.perm.mem_iff.mp hx)
    rw [hsrc] at hr
    exact hQ r hr
  have hinj : ∀ r ∈ (s.space src).regions, ∀ r' ∈ (s.space src).regions, c r = c r' → r = r' := by
    rw [← hsrc]
    exact K.inj
  have hpaged : Paged (s.space kas).vpmap g s2.vm := by
    have G := K.grown
    have H := F.source
    rw [hdst] at G H C
    refine G.paged H (fun h => S.kernel_used (hsub h)) hkg ?_ C
    rw [hkern, hmem _ hkg]
  have hcovered : s2.PagesInRegions dst := by
    intro q hq hp
    rw [K.vpmap] at hp
    obtain ⟨f, hf, -⟩ := K.grown.copies q _ hq.2 (reach_eq_some.mpr ⟨hp, rfl⟩)
    have hpar : present (entryOf s.vm.mem (s.space src).vpmap q) = true := by
      have hsame : entryOf s1.vm.mem (s.space src).vpmap q = entryOf s.vm.mem
          (s.space src).vpmap q :=
        entryOf_congr (fun π f hπ hf => hmem f fun h =>
          P.home.paged.tree.used π f hπ hf (h ▸ hg)) q
      rw [hsrc] at hf
      rw [← hsame]
      exact (reach_eq_some.mp hf).1
    obtain ⟨r, hr, ht⟩ := P.home.covered q hq hpar
    refine ⟨c r, (hmapc r hr).1, ?_⟩
    rw [(hmapc r hr).2]
    exact ht
  refine ⟨c h, c st, ⟨?_, hk, K.cache, ?_, ?_, ?_, ?_, hcovered⟩, ⟨?_, (hmapc h P.heap.mem).1, ?_⟩,
    (hmapc st P.stack).1, fun e => P.ne (hinj st P.stack h P.heap.mem e), ?_, ?_⟩
  · rw [K.spaces kas hk.symm, hkas, K.vpmap, hdst]
    exact hpaged
  · refine K.perm.nodup_iff.mpr ((List.nodup_map_iff_inj_on F.nodup).mpr ?_)
    exact fun r hr r' hr' e => K.inj r hr r' hr' e
  · exact hregs fun r hr => (K.slot r (hsrc ▸ hr)).1
  · exact hregs fun r hr => by rw [(hmapc r hr).2]
  · exact hregs fun r hr => by
      rw [(hmapc r hr).2]
      exact ⟨(P.home.user r hr).aligned, (P.home.user r hr).le, (P.home.user r hr).below⟩
  · rw [K.heap, hsrc, P.heap.heap]
    simp [Option.filter, P.heap.mem]
  · rw [(hmapc h P.heap.mem).2]
    exact P.heap.below
  · rw [(hmapc st P.stack).2]
    exact P.stack_start
  · rw [(hmapc st P.stack).2]
    exact P.stack_fin

theorem Home.asInit {a : ℕ} {s1 : Spaces} {L : Set ℕ} {cached : Bool} (S : Separate s L)
    (ha : a ∉ L) (hinit : Osv.asInit a cached s = .ok (.ok, s1)) : Home a s1 := by
  have hka : a ≠ kas := fun h => ha (h ▸ S.kernel)
  have hkused := (S.tree kas S.kernel).root_used
  obtain ⟨g, hg, -, hready, hsub, -, hcache, hspace, hmem, hzero, hkern⟩ :=
    asInit_ok S.ready hka hkused hinit
  have hself : s1.space a = ⟨[], g, none⟩ := by rw [hspace, Function.update_self]
  have hkas : s1.space kas = s.space kas := by rw [hspace, Function.update_of_ne hka.symm]
  have hkg : (s.space kas).vpmap ≠ g := fun h => hkused (h ▸ hg)
  have T := (S.asInit ha hinit).1.tree a (Set.mem_insert a L)
  rw [hself] at T
  have hent : ∀ p, UserPath (pagePath p) → entryOf s1.vm.mem g p = 0 := fun p hu =>
    entryOf_empty hzero hu
  have hnone : ∀ p f, UserPath (pagePath p) → reach s1.vm.mem g (pagePath p) ≠ some f := by
    intro p f hu hf
    have := (reach_eq_some.mp hf).1
    rw [hent p hu] at this
    cases this
  refine ⟨?_, hka, hcache ▸ S.cache, ?_, ?_, ?_, ?_, fun q hq hp => ?_⟩
  · rw [hself, hkas]
    refine ⟨hready, T, fun h => hkused (hsub h), ?_, ?_, fun p f hu hf => absurd hf (hnone p f hu),
      fun p q f hu _ hf _ => absurd hf (hnone p f hu), fun p hu => ?_⟩
    · rintro ⟨π, hπ, hf⟩
      rcases hπ.2 with rfl | hu
      · exact hkg (Option.some.inj hf).symm
      · cases π with
        | nil => exact hu
        | cons i π =>
          rw [reach_cons_of_zero (hzero i hu)] at hf
          cases hf
    · rw [hkern, hmem _ hkg]
    · rw [hent p hu]
      decide
  · simp [hself]
  · simp [hself]
  · simp [hself]
  · simp [hself]
  · rw [hself, hent q hq.2] at hp
    cases hp

/-! ## Runs of a process -/

/-- What happens to the address space of a process. -/
inductive ProcEvent where
  | sbrk (increment : Int)
  | fault (addr : ℕ)
  /-- A word of the page is written, by the program or for it. -/
  | store (q : ℕ)
  /-- Something else in the kernel. -/
  | other
deriving DecidableEq

/-- The rest of the kernel leaves the process alone. -/
structure Meanwhile (a : ℕ) (s s' : Spaces) : Prop where
  space : s'.space a = s.space a
  kernel : (s'.space kas).vpmap = (s.space kas).vpmap
  regions : ∀ r ∈ (s.space a).regions, s'.InUse r ∧ s'.region r = s.region r
  cache : s'.cache.Ok
  ready : s'.vm.pm.Ready
  tables : ∀ (π : List ℕ) f, π.length ≤ 3 → reach s.vm.mem (s.space a).vpmap π = some f →
    s'.vm.mem f = s.vm.mem f ∧ f ∉ freePages s'.vm.pm
  pages : ∀ p f, UserPath (pagePath p) → reach s.vm.mem (s.space a).vpmap (pagePath p) = some f →
    s'.vm.mem f = s.vm.mem f ∧ f ∉ freePages s'.vm.pm
  root : s'.vm.mem (s.space kas).vpmap = s.vm.mem (s.space kas).vpmap ∧
    (s.space kas).vpmap ∉ freePages s'.vm.pm

/-- Addresses that fault, and pages that are stored to, are canonical: the processor does not take
others to the page tables. -/
inductive ProcStep (a : ℕ) : Spaces → ProcEvent → Spaces → Prop
  | sbrk {s s' : Spaces} {increment : Int} {x : ℕ} :
      sysSbrk a increment s = .ok (x, s') → ProcStep a s (.sbrk increment) s'
  | fault {s s' : Spaces} {addr : ℕ} {x : FaultEnd} :
      Canonical addr → handlePageFault a addr true s = .ok (x, s') → ProcStep a s (.fault addr) s'
  | store {s : Spaces} {q f j w : ℕ} :
      UserPage q → reach s.vm.mem (s.space a).vpmap (pagePath q) = some f →
      ProcStep a s (.store q) { s with vm := s.vm.setWord f j w }
  | other {s s' : Spaces} : Meanwhile a s s' → ProcStep a s .other s'

/-- Which files are loaded, which processes fork, and which steps they take. -/
structure Care where
  file : ExecFile → Prop
  fork : Spaces → ℕ → Prop
  step : ℕ → Spaces → ProcEvent → Prop

/-- The states of a process, with the number of its address space. -/
inductive ProcState (C : Care) : ℕ → Spaces → Prop
  /-- `proc_spawn`: the address space is set up, the file loaded, and then the stack. -/
  | spawn {L : Set ℕ} {s0 s1 s2 s3 : Spaces} {a entry sp : ℕ} {cached : Bool} {f : ExecFile} :
      Separate s0 L → a ∉ L → C.file f → asInit a cached s0 = .ok (.ok, s1) →
      procLoad f a s1 = .ok (.ok entry, s2) → stackSetup a s2 = .ok (.ok sp, s3) → ProcState C a s3
  /-- The child of `proc_fork`.  To its parent this is one of the other steps. -/
  | fork {s s1 s2 : Spaces} {src dst : ℕ} {cached : Bool} :
      ProcState C src s → C.fork s src → src ≠ dst → dst ≠ kas →
        asInit dst cached s = .ok (.ok, s1) →
      asCopyAs src dst s1 = .ok (.ok, s2) → ProcState C dst s2
  | step {s s' : Spaces} {a : ℕ} {ev : ProcEvent} :
      ProcState C a s → C.step a s ev → ProcStep a s ev s' → ProcState C a s'

/-- A run of the process `a` with steps as `C` admits and without a store to the page `q`. -/
def Untouched (C : Care) (a q : ℕ) : Spaces → Spaces → Prop :=
  Relation.ReflTransGen fun s s' => ∃ ev, C.step a s ev ∧ ev ≠ .store q ∧ ProcStep a s ev s'

/-- Any files, any forks and any steps. -/
def Care.any : Care := ⟨fun _ => True, fun _ _ => True, fun _ _ _ => True⟩

/-- Files have proper segments, a process that forks has no region with pages behind the kernel's
entry, and the end of the heap is lowered only over pages that are not present. -/
def Care.guarded : Care where
  file := ExecFile.Proper
  fork := Spaces.ForkClear
  step a s
    | .sbrk increment => ∀ h, (s.space a).heap = some h →
        s.BreakClear a h (extendAddr (s.region h).fin increment)
    | _ => True

theorem extendAddr_zero (h : x < 2 ^ 64) : extendAddr x 0 = x := by
  rw [extendAddr]
  omega

namespace Process

variable {a h st : ℕ} {s s' : Spaces}

theorem meanwhile (P : Process a h st s) (M : Meanwhile a s s') :
    Process a h st s' ∧ Seen (s.space a).vpmap (fun _ => True) s.vm s'.vm := by
  obtain ⟨A, hent⟩ := P.home.paged.congr M.ready M.tables (fun p f hu hf => (M.pages p f hu hf).2)
      M.root
  have hreg := fun r hr => (M.regions r hr).2
  refine ⟨⟨P.home.congr (by rw [M.space]) M.regions M.cache (by rw [M.space]) (M.kernel ▸ A)
    fun q _ => hent q, ⟨?_, ?_, ?_⟩, ?_, P.ne, ?_, ?_⟩, fun p hu _ => ⟨hent p, fun f hf =>
      (M.pages p f hu hf).1⟩⟩
  · rw [M.space, P.heap.heap]
  · rw [M.space]
    exact P.heap.mem
  · rw [hreg h P.heap.mem]
    exact P.heap.below
  · rw [M.space]
    exact P.stack
  · rw [hreg st P.stack, P.stack_start]
  · rw [hreg st P.stack, P.stack_fin]

/-- A step keeps a process a process, and a page that has only zeros, if it is not a store to it. -/
theorem step (P : Process a h st s) {ev : ProcEvent} (hc : Care.guarded.step a s ev)
    (hs : ProcStep a s ev s') : Process a h st s' ∧ (s'.space a).vpmap = (s.space a).vpmap ∧
      ∀ q, UserPage q → ev ≠ .store q → ZeroPage (s.space a).vpmap s.vm q →
        ZeroPage (s.space a).vpmap s'.vm q := by
  cases hs with
  | sbrk hrun =>
    obtain ⟨s1, e, hcases⟩ := sysSbrk_run _ P.heap.heap
    cases e.symm.trans hrun
    rcases hcases with ⟨rfl, -⟩ | ⟨E, rfl⟩
    · exact ⟨P, rfl, fun _ _ _ hz => hz⟩
    · exact ⟨P.extend E (hc h P.heap.heap), rfl, fun _ _ _ hz => hz⟩
  | @fault _ addr _ hv hrun =>
    obtain ⟨P', vm, rfl, hseen, hnew⟩ := P.handlePageFault hv hrun
    refine ⟨P', rfl, fun q hq _ hz => ?_⟩
    rcases hnew with ⟨-, hall⟩ | ⟨-, hzero, -⟩
    · exact hall.zeroPage hq.2 trivial hz
    · by_cases hqa : q % 2 ^ 36 = pageOf addr
      · intro f hf
        rw [← pagePath_mod, hqa] at hf
        exact hzero f hf
      · exact hseen.zeroPage hq.2 hqa hz
  | @store q f j w hq hf =>
    obtain ⟨A, hent, hseen⟩ := P.home.paged.store (j := j) (w := w) hq.2 hf
    refine ⟨P.of_vm (P.home.congr rfl (fun r hr => ⟨P.home.inUse r hr, rfl⟩) P.home.cache rfl A
      fun p _ => hent p), rfl, fun p hp hne hz => hseen.zeroPage hp.2 (fun h => hne ?_) hz⟩
    have h1 := hp.1
    have h2 := hq.1
    simp only [CanonicalPage] at h1 h2
    rw [show q = p by omega]
  | other M =>
    obtain ⟨P', hseen⟩ := P.meanwhile M
    exact ⟨P', by rw [M.space], fun q hq _ hz => hseen.zeroPage hq.2 trivial hz⟩

theorem untouched (P : Process a h st s) {q : ℕ} (hq : UserPage q)
    (hz : ZeroPage (s.space a).vpmap s.vm q) (hrun : Untouched Care.guarded a q s s') :
    Process a h st s' ∧ ZeroPage (s'.space a).vpmap s'.vm q := by
  induction hrun with
  | refl => exact ⟨P, hz⟩
  | tail _ hs ih =>
    obtain ⟨ev, hc, hne, hs⟩ := hs
    obtain ⟨P', hroot, hkeep⟩ := ih.1.step hc hs
    rw [hroot]
    exact ⟨P', hkeep q hq hne ih.2⟩

theorem sysSbrk_iff (P : Process a h st s) {increment : Int}
    (hrun : sysSbrk a increment s = .ok (x, s')) :
    s'.PagesInRegions a ↔ Care.guarded.step a s (.sbrk increment) := by
  have hguard : Care.guarded.step a s (.sbrk increment) ↔
      s.BreakClear a h (extendAddr (s.region h).fin increment) := by
    refine ⟨fun H => H h P.heap.heap, fun B x hx => ?_⟩
    rw [P.heap.heap] at hx
    cases hx
    exact B
  rw [hguard]
  obtain ⟨s1, e, hcases⟩ := sysSbrk_run increment P.heap.heap
  cases e.symm.trans hrun
  rcases hcases with ⟨rfl, rfl | hE⟩ | ⟨E, rfl⟩
  · refine ⟨fun _ _ q _ h1 h2 => ?_, fun _ => P.home.covered⟩
    rw [extendAddr_zero (P.heap.below.trans_lt (by decide))] at h1
    omega
  · exact ⟨fun _ E => absurd E hE, fun _ => P.home.covered⟩
  · exact P.extend_iff E

end Process

theorem ProcState.process {a : ℕ} (h : ProcState Care.guarded a s) : ∃ r st, Process a r st s := by
  induction h with
  | spawn S ha hf hinit hload hstack =>
    obtain ⟨H, r, hheap⟩ := (Home.asInit S ha hinit).procLoad hf hload
    exact ⟨r, H.stackSetup hheap hstack⟩
  | fork _ hf hne hk hinit hcopy ih =>
    obtain ⟨r, st, P⟩ := ih
    exact P.fork hf hne hk hinit hcopy
  | step _ hc hs ih =>
    obtain ⟨r, st, P⟩ := ih
    exact ⟨r, st, (P.step hc hs).1⟩

/-- In every state of a guarded process the user pages that are present lie in its regions, no page
above the end of the heap is there but for those of other regions, and a page that lies in no region
reads as zero, if it can be read at all, until it is stored to.  A call of `sys_sbrk` keeps the
pages in the regions exactly if it is guarded. -/
theorem pages_in_regions_of_break_clear {a : ℕ} {s : Spaces} (hs : ProcState Care.guarded a s) :
    s.PagesInRegions a ∧ (∀ h q, (s.space a).heap = some h → UserPage q →
      (s.region h).fin ≤ q * pgSize →
      (∀ r ∈ (s.space a).regions, r ≠ h → ¬ (s.region r).Touches q) →
      present (entryOf s.vm.mem (s.space a).vpmap q) = false) ∧
    (∀ q, UserPage q → ¬ s.InRegion a q → ∀ s', Untouched Care.guarded a q s s' →
      ∀ v j, v / pgSize = q → userLoad s'.vm (s'.space a).vpmap v j ∈ [none, some 0]) ∧
    ∀ increment x s', sysSbrk a increment s = .ok (x, s') →
      (s'.PagesInRegions a ↔ Care.guarded.step a s (.sbrk increment)) := by
  obtain ⟨h, st, P⟩ := hs.process
  refine ⟨P.home.covered, fun r q hr hq hfin hothers => ?_, fun q hq hnot s' hrun v j hv => ?_,
    fun increment x s' hrun => P.sysSbrk_iff hrun⟩
  · cases P.heap.heap.symm.trans hr
    by_contra hp
    obtain ⟨r, hr, ht⟩ := P.home.covered q hq (Bool.eq_true_of_not_eq_false hp)
    by_cases hne : r = h
    · rw [hne, MemRegion.touches_iff (P.heap.below.trans (by decide))] at ht
      omega
    · exact hothers r hr hne ht
  · have hz : ZeroPage (s.space a).vpmap s.vm q := fun f hf =>
      absurd (P.home.covered q hq (reach_eq_some.mp hf).1) hnot
    obtain ⟨-, hz'⟩ := P.untouched hq hz hrun
    have hpath : pagePath (pageOf v) = pagePath q := by
      rw [← pagePath_mod q, ← hv]
      rfl
    rw [userLoad, hpath]
    cases hf : reach s'.vm.mem (s'.space a).vpmap (pagePath q) with
    | none => simp
    | some f => simp [hz' f hf j]

/-! ## A page above the break -/

/-- A process of a file with one page at `0x1000`, so that its heap starts at `0x2000`. -/
def lowSpace : Spaces := (asInit 1 true).final kernelOnly

/-- One segment is loaded. -/
def lowLoaded : Spaces := (procLoad lowSegment 1).final lowSpace

/-- It has a stack. -/
def lowProc : Spaces := (stackSetup 1).final lowLoaded

theorem lowProc_state (C : Care) (h : C.file lowSegment) : ProcState C 1 lowProc := by
  have hinit : asInit 1 true kernelOnly = .ok (.ok, lowSpace) := run_of_result (by decide +kernel)
  have hload : procLoad lowSegment 1 lowSpace = .ok (.ok 0, lowLoaded) :=
    run_of_result (by decide +kernel)
  have hstack : stackSetup 1 lowLoaded = .ok (.ok 0xFFFFFF7FFFFFEFE8, lowProc) :=
    run_of_result (by decide +kernel)
  exact .spawn kernelOnly_separate (by decide : (1 : ℕ) ≠ kas) h hinit hload hstack

/-- The heap grows by a page, and the page is touched. -/
def brkGrown : Spaces := (sysSbrk 1 4096).final lowProc

/-- The new page is touched. -/
def brkTouched : Spaces := (handlePageFault 1 0x2000 true).final brkGrown

/-- The process writes 7 to the first word of its heap. -/
def brkStored : Spaces := { brkTouched with vm := brkTouched.vm.setWord 16 0 7 }

/-- The break is lowered over it. -/
def brkLowered : Spaces := (sysSbrk 1 (-4096)).final brkStored

/-- The break is raised again. -/
def brkRaised : Spaces := (sysSbrk 1 4096).final brkLowered

theorem userPage_two : UserPage 2 := ⟨.inl (by decide), (by decide : (0 : ℕ) ≠ kernelIdx)⟩

/-- After the heap has shrunk again the page is still there, in no region, and when the heap grows
once more its first word is the old one. -/
theorem sbrk_leaves_page : ProcState Care.any 1 brkLowered ∧ ¬ brkLowered.PagesInRegions 1 ∧
    ProcState Care.any 1 brkRaised ∧
      userLoad brkRaised.vm (brkRaised.space 1).vpmap 0x2000 0 = some 7 := by
  have h0 : ProcState Care.any 1 lowProc := lowProc_state Care.any trivial
  have h1 : ProcState Care.any 1 brkGrown :=
    h0.step trivial (.sbrk (x := 0x2000) (run_of_result (by decide +kernel)))
  have h2 : ProcState Care.any 1 brkTouched := h1.step trivial
    (.fault (x := .resumed) (Or.inl (by decide)) (run_of_result (by decide +kernel)))
  have h3 : ProcState Care.any 1 brkStored :=
    h2.step trivial (.store userPage_two (by decide +kernel))
  have h4 : ProcState Care.any 1 brkLowered :=
    h3.step trivial (.sbrk (x := 0x3000) (run_of_result (by decide +kernel)))
  have h5 : ProcState Care.any 1 brkRaised :=
    h4.step trivial (.sbrk (x := 0x2000) (run_of_result (by decide +kernel)))
  refine ⟨h4, fun hall => ?_, h5, by decide +kernel⟩
  obtain ⟨r, hr, ht⟩ := hall 2 userPage_two (by decide +kernel)
  have hnone : ∀ r ∈ (brkLowered.space 1).regions, ¬ (brkLowered.region r).Touches 2 := by
    decide +kernel
  exact hnone r hr ht

/-- The heap grows by two pages, the first is touched, and the second is given back. -/
def twoGrown : Spaces := (sysSbrk 1 8192).final lowProc

/-- The second page is touched. -/
def twoTouched : Spaces := (handlePageFault 1 0x2000 true).final twoGrown

/-- The break is lowered over it. -/
def twoLowered : Spaces := (sysSbrk 1 (-4096)).final twoTouched

theorem lowSegment_proper : lowSegment.Proper := by
  simp only [ExecFile.Proper, ExecFile.ProperFrom, ProgHdr.Proper, Canonical]
  decide

theorem twoGrown_guarded : Care.guarded.step 1 lowProc (.sbrk 8192) := by
  intro h hh _ q _ hlo hhi
  have hheap : (lowProc.space 1).heap = some 1 := by decide +kernel
  have hfin : (lowProc.region 1).fin = 0x2000 := by decide +kernel
  cases hheap.symm.trans hh
  rw [hfin] at hlo hhi
  exact absurd (hlo.trans_lt hhi) (by decide)

theorem twoGrown_step : ProcStep 1 lowProc (.sbrk 8192) twoGrown :=
  .sbrk (x := 0x2000) (run_of_result (by decide +kernel))

theorem twoTouched_fault : handlePageFault 1 0x2000 true twoGrown = .ok (.resumed, twoTouched) :=
  run_of_result (by decide +kernel)

theorem twoLowered_state : ProcState Care.guarded 1 twoLowered := by
  have g3 : Care.guarded.step 1 twoTouched (.sbrk (-4096)) := by
    intro h hh _ q _ hlo hhi hp
    have hheap : (twoTouched.space 1).heap = some 1 := by decide +kernel
    have hfin : (twoTouched.region 1).fin = 0x4000 := by decide +kernel
    cases hheap.symm.trans hh
    have hend : extendAddr 0x4000 (-4096) = 0x3000 := by decide
    rw [hfin, hend] at hlo
    rw [hfin] at hhi
    obtain rfl : q = 3 := by
      simp only [pgSize] at *
      omega
    have habsent : present (entryOf twoTouched.vm.mem (twoTouched.space 1).vpmap 3) = false := by
      decide +kernel
    rw [habsent] at hp
    cases hp
  have h0 : ProcState Care.guarded 1 lowProc := lowProc_state Care.guarded lowSegment_proper
  have h1 : ProcState Care.guarded 1 twoGrown := .step h0 twoGrown_guarded twoGrown_step
  have g2 : Care.guarded.step 1 twoGrown (.fault 0x2000) := trivial
  have h2 : ProcState Care.guarded 1 twoTouched :=
      .step h1 g2 (.fault (.inl (by decide)) twoTouched_fault)
  exact .step h2 g3 (.sbrk (x := 0x4000) (run_of_result (by decide +kernel)))

/-- The touched page is in the heap. -/
theorem twoLowered_pages : twoLowered.PagesInRegions 1 ∧
    present (entryOf twoLowered.vm.mem (twoLowered.space 1).vpmap 2) = true :=
  ⟨(pages_in_regions_of_break_clear twoLowered_state).1, by decide +kernel⟩

end Osv
