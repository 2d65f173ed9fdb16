import Osv.Vm.Load
import Osv.Vm.Overlap
import Osv.Vm.Own

/-!
# The kernel's tables are shared

Every address space has the kernel's entry in its top-level table, so the tables
behind that entry belong to all of them.  `memregion_map_internal` accepts a range
below `KMAP_BASE`, but the kernel's entry covers 512 GB, and `find_pte` takes the
index of the top-level table from bits 39 to 47 of an address.  So a segment of
an executable file, or a heap that starts behind it, can have pages behind the
kernel's entry.

The tables stay as they are if no page that is mapped has the index of the
kernel's entry (`VmOp.Clear`).  What each call does is then work on the address
space of its process (`Acts`), and work on one address space leaves all tables
of the others alone (`Separate.others`).
-/

namespace Osv

open Prog (bind_ok read_bind update_bind zoom_ok)

/-! ## Work on one address space -/

/-- Between `s` and `s'` there was work on the address space `a` only. -/
structure Acts (a : ℕ) (s s' : Spaces) : Prop where
  within : Within s.vm (s.space a).vpmap s'.vm
  vpmap : ∀ b, (s'.space b).vpmap = (s.space b).vpmap
  cache : s'.cache.Ok

/-- What a call on the address space `a` finds. -/
structure Spaces.Live (s : Spaces) (a : ℕ) : Prop where
  tree : Tree s.vm (s.space a).vpmap
  ready : s.vm.pm.Ready
  cache : s.cache.Ok

namespace Acts

variable {a : ℕ} {s s1 s' : Spaces}

theorem refl (L : s.Live a) : Acts a s s := ⟨.refl L.tree, fun _ => rfl, L.cache⟩

theorem trans (A : Acts a s s1) (A' : Acts a s1 s') : Acts a s s' :=
  ⟨A.within.trans (A.vpmap a ▸ A'.within), fun b => (A'.vpmap b).trans (A.vpmap b), A'.cache⟩

theorem live (A : Acts a s s1) (L : s.Live a) : s1.Live a :=
  ⟨A.vpmap a ▸ A.within.tree, A.within.ready L.ready, A.cache⟩

theorem of_within (L : s.Live a) {vm : Vm} (W : Within s.vm (s.space a).vpmap vm) :
    Acts a s { s with vm := vm } := ⟨W, fun _ => rfl, L.cache⟩

theorem of_same (L : s.Live a) (hvm : s'.vm = s.vm) (hcache : s'.cache = s.cache)
    (hspace : ∀ b, (s'.space b).vpmap = (s.space b).vpmap) : Acts a s s' := by
  refine ⟨?_, hspace, hcache ▸ L.cache⟩
  rw [hvm]
  exact .refl L.tree

end Acts

variable {e : Err}

section Calls

variable {a : ℕ} {s s' : Spaces} {addr : ℕ} {perm : MemPerm}

theorem asMapMemregion_acts (L : s.Live a) {size store ofs : ℕ} {shared : Int} {x : Option ℕ}
    (h : asMapMemregion a addr size perm store ofs shared s = .ok (x, s')) : Acts a s s' := by
  obtain ⟨-, R, -⟩ | ⟨v, r, -, -, -, -, M⟩ := asMapMemregion_cases L.cache L.ready h
  · refine ⟨.of_free L.tree R.holds R.sub fun f _ => by rw [R.mem], fun b => by rw [R.space], ?_⟩
    rw [R.cache]
    exact L.cache
  · refine ⟨.of_free L.tree M.holds M.sub fun f _ => by rw [M.mem], fun b => ?_, M.ok⟩
    by_cases hb : b = a
    · rw [hb, M.vpmap]
    · rw [M.spaces b hb]

variable {paddr : ℕ}

theorem vpmapMap_acts (L : s.Live a) {v : ℕ} (hv : v < 2 ^ 64) (hk : pml4x v ≠ kernelIdx)
    (h : vmCall (vpmapMap (s.space a).vpmap v paddr 1 perm) s = .ok (e, s')) : Acts a s s' := by
  obtain ⟨vm', hvm, rfl⟩ := zoom_ok.mp h
  exact .of_within L (.vpmapMap L.tree L.ready hv hk hvm)

/-- What allocating a page and filling it leaves. -/
structure NewPage (a paddr : ℕ) (s s' : Spaces) : Prop where
  acts : Acts a s s'
  page : ∃ g, paddr = g * pgSize ∧ g ∈ freePages s.vm.pm ∧ g ∉ freePages s'.vm.pm ∧
    (∀ ρ : List ℕ, ρ.length ≤ 3 → reach s'.vm.mem (s.space a).vpmap ρ ≠ some g) ∧
    ∀ H, s.vm.pm.Holding H → s'.vm.pm.Holding (insert g H)

theorem NewPage.of_alloc (L : s.Live a) {s1 : Spaces} {vm : Vm}
    (h : vmCall (pmemCall pmemAlloc) s = .ok (some paddr, s1)) (hpm : vm.pm = s1.vm.pm)
    (hmem : ∀ f, f ≠ paddr / pgSize → vm.mem f = s1.vm.mem f) :
    NewPage a paddr s { s1 with vm := vm } := by
  obtain ⟨vm1, hvm, rfl⟩ := zoom_ok.mp h
  obtain ⟨W, hpage⟩ := Within.of_alloc L.tree L.ready hvm hpm hmem
  exact ⟨.of_within L W, hpage⟩

theorem NewPage.of_zero (L : s.Live a) {s1 : Spaces}
    (h : vmCall (pmemCall pmemAlloc) s = .ok (some paddr, s1)) :
    NewPage a paddr s { s1 with vm := s1.vm.zeroPage (paddr / pgSize) } :=
  .of_alloc L h rfl fun _ hf => funext fun _ => if_neg hf

theorem NewPage.free (L : s.Live a) {s1 s2 : Spaces} (N : NewPage a paddr s s1) (A : Acts a s1 s2)
    (h : vmCall (pmemCall (pmemFree paddr)) s2 = .ok ((), s')) : Acts a s s' := by
  obtain ⟨g, rfl, hin, hout, hnot, hhold⟩ := N.page
  obtain ⟨vm', hvm, rfl⟩ := zoom_ok.mp h
  refine ⟨.free L.ready N.acts.within hin hout hnot hhold (N.acts.vpmap a ▸ A.within) hvm,
    fun b => (A.vpmap b).trans (N.acts.vpmap b), A.cache⟩

theorem alloc_none_acts (L : s.Live a) (h : vmCall (pmemCall pmemAlloc) s = .ok (none, s')) :
    Acts a s s' := by
  obtain ⟨vm', hvm, rfl⟩ := zoom_ok.mp h
  rw [pmemCall_alloc_none L.ready hvm]
  exact .refl L

/-! ## Loading -/

theorem Vm.setBytes_frame (f : ℕ) : ∀ (bytes : List UInt8) (ofs : ℕ) (s : Vm),
    (s.setBytes f ofs bytes).pm = s.pm ∧ ∀ g, g ≠ f → (s.setBytes f ofs bytes).mem g = s.mem g
  | [], _, _ => ⟨rfl, fun _ _ => rfl⟩
  | b :: rest, ofs, s => by
    obtain ⟨h1, h2⟩ := Vm.setBytes_frame f rest (ofs + 1) (s.setByte f ofs b)
    refine ⟨h1, fun g hg => (h2 g hg).trans ?_⟩
    funext j
    exact if_neg fun h => hg h.1

variable {f : ExecFile}

theorem loadPage_acts (L : s.Live a) {v off pofs avail : ℕ} (hv : v < 2 ^ 64)
    (hk : pml4x v ≠ kernelIdx) (h : loadPage f a v perm off pofs avail s = .ok (e, s')) :
    Acts a s s' := by
  rw [loadPage] at h
  obtain ⟨x, s1, hall, h⟩ := bind_ok.mp h
  cases x with
  | none =>
    cases h
    exact alloc_none_acts L hall
  | some paddr =>
    simp only [loadFill] at h
    rw [update_bind, update_bind] at h
    obtain ⟨hpm, hmem⟩ := Vm.setBytes_frame (paddr / pgSize) (f.readPage off avail) pofs
      (s1.vm.zeroPage (paddr / pgSize))
    have N := NewPage.of_alloc L hall hpm fun g hg => (hmem g hg).trans (by
      funext j
      exact if_neg hg)
    split at h
    · cases h
      exact N.acts
    · rw [read_bind] at h
      exact N.acts.trans (vpmapMap_acts (N.acts.live L) hv hk h)

theorem loadPages_acts {ph : ProgHdr} : ∀ {n count off rb : ℕ} {s s' : Spaces} {e : Err},
    s.Live a → (∀ i < count + n, pml4x (addAddr ph.vaddr (i * pgSize)) ≠ kernelIdx) →
    loadPages f a ph n count off rb s = .ok (e, s') → Acts a s s'
  | 0, _, _, _, _, _, _, L, _, h => by
    cases h
    exact .refl L
  | n + 1, count, off, rb, s, s', e, L, hk, h => by
    rw [loadPages] at h
    obtain ⟨e1, s1, hpage, h⟩ := bind_ok.mp h
    have A : Acts a s s1 := loadPage_acts L (Nat.mod_lt _ (by decide)) (hk count (by omega)) hpage
    split at h
    · cases h
      exact A
    · exact A.trans (loadPages_acts (A.live L) (fun i hi => hk i (by omega)) h)

/-- No page of the segment has the index of the kernel's entry. -/
def ProgHdr.Clear (ph : ProgHdr) : Prop :=
  ∀ i < ph.size / pgSize, pml4x (addAddr ph.vaddr (i * pgSize)) ≠ kernelIdx

variable {x : Except Err ℕ}

theorem loadSegment_acts (L : s.Live a) {ph : ProgHdr} (hk : ph.Clear)
    (h : loadSegment f a ph s = .ok (x, s')) : Acts a s s' := by
  rw [loadSegment] at h
  split at h
  · cases h
    exact .refl L
  · obtain ⟨r, s1, hmap, h⟩ := bind_ok.mp h
    have A := asMapMemregion_acts L hmap
    cases r with
    | none =>
      cases h
      exact A
    | some r =>
      simp only at h
      rw [read_bind] at h
      obtain ⟨e, s2, hload, h⟩ := bind_ok.mp h
      have B : Acts a s s2 := A.trans
          (loadPages_acts (A.live L) (fun i hi => hk i (by omega)) hload)
      split at h
      · cases h
        exact B
      · cases h
        exact B

/-- The offset of a program header. -/
def phofs (k ofs : ℕ) : ℕ := (fun o => addAddr o sizeofProgHdr)^[k] ofs

/-- No loadable segment among the `n` headers from `ofs` on has a page behind the kernel's entry. -/
def ExecFile.ClearFrom (f : ExecFile) (n ofs : ℕ) : Prop :=
  ∀ k < n, (ProgHdr.decode (f.read (phofs k ofs) sizeofProgHdr)).type = ptLoad →
    (ProgHdr.decode (f.read (phofs k ofs) sizeofProgHdr)).Clear

theorem ExecFile.ClearFrom.tail {n ofs : ℕ} (h : f.ClearFrom (n + 1) ofs) :
    f.ClearFrom n (addAddr ofs sizeofProgHdr) := by
  intro k hk
  have := h (k + 1) (by omega)
  rw [phofs, Function.iterate_succ_apply] at this
  exact this

theorem loadSegments_acts : ∀ {n ofs fin : ℕ} {s s' : Spaces} {x : Except Err ℕ},
    s.Live a → f.ClearFrom n ofs → loadSegments f a n ofs fin s = .ok (x, s') → Acts a s s'
  | 0, _, _, _, _, _, L, _, h => by
    cases h
    exact .refl L
  | n + 1, ofs, fin, s, s', x, L, hk, h => by
    rw [loadSegments] at h
    split at h
    · cases h
      exact .refl L
    · split at h
      · exact loadSegments_acts L hk.tail h
      · rename_i htype
        obtain ⟨y, s1, hseg, h⟩ := bind_ok.mp h
        have A : Acts a s s1 := loadSegment_acts L (hk 0 (by omega) (not_not.mp htype)) hseg
        cases y with
        | error e =>
          cases h
          exact A
        | ok fin => exact A.trans (loadSegments_acts (A.live L) hk.tail h)

/-- No loadable segment of the file has a page behind the kernel's entry. -/
def ExecFile.Clear (f : ExecFile) : Prop := f.ClearFrom f.header.phnum f.header.phoff

theorem loadHeap_acts (L : s.Live a) {fin entry : ℕ} (h : loadHeap a fin entry s = .ok (x, s')) :
    Acts a s s' := by
  rw [loadHeap] at h
  obtain ⟨heap, s1, hmap, h⟩ := bind_ok.mp h
  rw [update_bind] at h
  have A := asMapMemregion_acts L hmap
  have B : Acts a s (s1.setHeap a heap) := by
    refine A.trans (.of_same (A.live L) rfl rfl fun b => ?_)
    simp only [Spaces.setHeap, Function.update_apply]
    split
    · rename_i hb
      rw [hb]
    · rfl
  split at h
  · cases h
    exact B
  · cases h
    exact B

theorem procLoad_acts (L : s.Live a) (hk : f.Clear) (h : procLoad f a s = .ok (x, s')) :
    Acts a s s' := by
  rw [procLoad] at h
  split at h
  · cases h
    exact .refl L
  · split at h
    · cases h
      exact .refl L
    · obtain ⟨y, s1, hseg, h⟩ := bind_ok.mp h
      have A := loadSegments_acts L hk hseg
      cases y with
      | error e =>
        cases h
        exact A
      | ok fin => exact A.trans (loadHeap_acts (A.live L) h)

/-! ## Stack and heap -/

theorem stackMap_acts (L : s.Live a) (h : stackMap a paddr s = .ok (e, s')) : Acts a s s' := by
  rw [stackMap] at h
  obtain ⟨r, s1, hmap, h⟩ := bind_ok.mp h
  have A := asMapMemregion_acts L hmap
  cases r with
  | none =>
    cases h
    exact A
  | some r =>
    simp only at h
    rw [read_bind] at h
    exact A.trans (vpmapMap_acts (A.live L) (by decide) (by decide) h)

theorem stackSetup_acts (L : s.Live a) (h : stackSetup a s = .ok (x, s')) : Acts a s s' := by
  rw [stackSetup] at h
  obtain ⟨y, s1, hall, h⟩ := bind_ok.mp h
  cases y with
  | none =>
    cases h
    exact alloc_none_acts L hall
  | some paddr =>
    simp only at h
    rw [update_bind] at h
    have N := NewPage.of_zero L hall
    obtain ⟨e, s2, hmap, h⟩ := bind_ok.mp h
    have A := stackMap_acts (N.acts.live L) hmap
    split at h
    · obtain ⟨u, s3, hfree, h⟩ := bind_ok.mp h
      cases h
      exact N.free L A hfree
    · cases h
      exact N.acts.trans A

theorem faultMap_acts (L : s.Live a) (hv : addr < 2 ^ 64) (hk : pml4x addr ≠ kernelIdx)
    (h : faultMap a addr paddr s = .ok (e, s')) : Acts a s s' := by
  have hdown : pgRoundDown addr < 2 ^ 64 := by
    rw [pgRoundDown, pgSize]
    omega
  rw [faultMap, read_bind] at h
  exact vpmapMap_acts L hdown (by rwa [pml4x_roundDown]) h

variable {x : FaultEnd}

theorem faultFill_ok {s1 : Spaces} (h : faultFill a addr paddr s1 = .ok (x, s')) :
    ∃ e s2, faultMap a addr paddr { s1 with vm := s1.vm.zeroPage (paddr / pgSize) } = .ok (e, s2) ∧
      (e = .ok ∧ x = .resumed ∧ s' = s2 ∨
        e ≠ .ok ∧ x = .exited ∧ vmCall (pmemCall (pmemFree paddr)) s2 = .ok ((), s')) := by
  rw [faultFill] at h
  obtain ⟨t, ht, h⟩ := Prog.update_bind_ok.mp h
  obtain ⟨e, s2, hmap, h⟩ := bind_ok.mp h
  refine ⟨e, s2, ht ▸ hmap, ?_⟩
  split at h
  · rename_i he
    obtain ⟨u, s3, hfree, h⟩ := bind_ok.mp h
    cases h
    exact .inr ⟨he, rfl, hfree⟩
  · rename_i he
    cases h
    exact .inl ⟨not_not.mp he, rfl, rfl⟩

theorem faultPage_acts (L : s.Live a) (hv : addr < 2 ^ 64) (hk : pml4x addr ≠ kernelIdx)
    (h : faultPage a addr s = .ok (x, s')) : Acts a s s' := by
  rw [faultPage] at h
  obtain ⟨y, s1, hall, h⟩ := bind_ok.mp h
  cases y with
  | none =>
    cases h
    exact alloc_none_acts L hall
  | some paddr =>
    have N := NewPage.of_zero L hall
    obtain ⟨e, s2, hmap, hend⟩ := faultFill_ok h
    have A := faultMap_acts (N.acts.live L) hv hk hmap
    rcases hend with ⟨-, -, rfl⟩ | ⟨-, -, hfree⟩
    · exact N.acts.trans A
    · exact N.free L A hfree

theorem heapRegion_ok {r : ℕ} (h : heapRegion a s = .ok (r, s')) :
    (s.space a).heap = some r ∧ s' = s := by
  rw [heapRegion, read_bind] at h
  cases hh : (s.space a).heap with
  | none =>
    rw [hh] at h
    cases h
  | some r' =>
    rw [hh] at h
    cases h
    exact ⟨rfl, rfl⟩

theorem sysSbrk_acts (L : s.Live a) {increment : Int} {x : ℕ}
    (h : sysSbrk a increment s = .ok (x, s')) : Acts a s s' := by
  rw [sysSbrk] at h
  obtain ⟨r, s1, hheap, hrest⟩ := bind_ok.mp h
  obtain ⟨-, rfl⟩ := heapRegion_ok hheap
  rw [read_bind] at hrest
  obtain ⟨⟨e, old⟩, s2, hext, hret⟩ := bind_ok.mp hrest
  cases hret
  rw [memregionExtend, read_bind] at hext
  split at hext
  · cases hext
    exact .refl L
  · split at hext
    · cases hext
      exact .refl L
    · split at hext
      · cases hext
        exact .refl L
      · rw [update_bind] at hext
        cases hext
        exact .of_same L rfl rfl fun _ => rfl

/-- An address of the heap that faults is not behind the kernel's entry. -/
def Spaces.ClearFault (s : Spaces) (a addr : ℕ) : Prop :=
  ∀ r, (s.space a).heap = some r → (s.region r).start ≤ addr → addr < (s.region r).fin →
    pml4x addr ≠ kernelIdx

theorem handlePageFault_acts (L : s.Live a) {user : Bool} (hv : addr < 2 ^ 64)
    (hk : s.ClearFault a addr) (h : handlePageFault a addr user s = .ok (x, s')) : Acts a s s' := by
  rw [handlePageFault] at h
  split at h
  · rename_i hstack
    refine faultPage_acts L hv ?_ h
    simp only [Bool.and_eq_true, decide_eq_true_eq] at hstack
    obtain ⟨⟨-, h1⟩, h2⟩ := hstack
    simp only [ustackUpperbound, ustackPages, pgSize] at h1 h2
    simp only [pml4x, entryIdx, nPtePerPg, kernelIdx]
    omega
  · split at h
    · obtain ⟨r, s1, hheap, hrest⟩ := bind_ok.mp h
      obtain ⟨hr, rfl⟩ := heapRegion_ok hheap
      rw [read_bind] at hrest
      split at hrest
      · rename_i hin
        simp only [Bool.and_eq_true, decide_eq_true_eq] at hin
        exact faultPage_acts L hv (hk r hr hin.1 hin.2) hrest
      · cases hrest
        exact .refl L
    · cases h

end Calls

/-! ## All address spaces -/

/-- The address spaces `L`, the kernel's among them, have their tables to themselves but for the
kernel's, which all of them have. -/
structure Separate (s : Spaces) (L : Set ℕ) : Prop where
  ready : s.vm.pm.Ready
  cache : s.cache.Ok
  kernel : kas ∈ L
  tree : ∀ a ∈ L, Tree s.vm (s.space a).vpmap
  entry : ∀ a ∈ L, slot s.vm.mem (s.space a).vpmap kernelIdx =
    slot s.vm.mem (s.space kas).vpmap kernelIdx
  apart : ∀ a ∈ L, ∀ b ∈ L, a ≠ b → ∀ ρ f, ρ.length ≤ 3 → f ∈ own s.vm (s.space a).vpmap →
    reach s.vm.mem (s.space b).vpmap ρ ≠ some f

variable {f : ℕ}

namespace Separate

variable {a b : ℕ} {s s' : Spaces} {L : Set ℕ}

section

variable (S : Separate s L)

include S

theorem live (ha : a ∈ L) : s.Live a := ⟨S.tree a ha, S.ready, S.cache⟩

variable {ρ : List ℕ}

section

variable (A : Acts a s s') (ha : a ∈ L) (hb : b ∈ L)

include A ha hb

theorem others (hne : b ≠ a) (hρ : ρ.length ≤ 3)
    (hf : reach s.vm.mem (s.space b).vpmap ρ = some f) : s'.vm.mem f = s.vm.mem f :=
  A.within.frame f ((S.tree b hb).used ρ f hρ hf) fun hown =>
    S.apart a ha b hb hne.symm ρ f hρ hown hf

theorem reach_others (hne : b ≠ a) (hρ : ρ.length ≤ 3) :
    reach s'.vm.mem (s.space b).vpmap ρ = reach s.vm.mem (s.space b).vpmap ρ :=
  reach_congr (fun _ _ hσ hf => S.others A ha hb hne (by omega) hf) hρ

theorem reached (hρ : ρ.length ≤ 3) (hf : reach s'.vm.mem (s.space b).vpmap ρ = some f) :
    (∃ σ : List ℕ, σ.length ≤ 3 ∧ reach s.vm.mem (s.space b).vpmap σ = some f) ∨
    (b = a ∧ f ∈ freePages s.vm.pm) := by
  by_cases hba : b = a
  · subst hba
    rcases A.within.reach_old (S.tree b hb) hρ hf with h | h
    · exact .inl h
    · exact .inr ⟨rfl, h.1⟩
  · rw [S.reach_others A ha hb hba hρ] at hf
    exact .inl ⟨ρ, hρ, hf⟩

theorem own_after (hf : f ∈ own s'.vm (s.space b).vpmap) :
    f ∈ own s.vm (s.space b).vpmap ∨ (b = a ∧ f ∈ freePages s.vm.pm) := by
  by_cases hba : b = a
  · subst hba
    rcases A.within.own hf with h | h
    · exact .inl h
    · exact .inr ⟨rfl, h.1⟩
  · rw [own_congr fun ρ hρ => S.reach_others A ha hb hba hρ] at hf
    exact .inl hf

end

theorem acts (A : Acts a s s') (ha : a ∈ L) : Separate s' L := by
  have hentry : ∀ b ∈ L, slot s'.vm.mem (s'.space b).vpmap kernelIdx =
      slot s.vm.mem (s.space b).vpmap kernelIdx := by
    intro b hb
    rw [A.vpmap b]
    refine slot_congr ?_
    by_cases hba : b = a
    · rw [hba, A.within.kernel]
    · rw [S.others A ha hb hba (ρ := []) (by simp) rfl]
  refine ⟨A.within.ready S.ready, A.cache, S.kernel, ?_, ?_, ?_⟩
  · intro b hb
    by_cases hba : b = a
    · rw [hba]
      exact (A.live (S.live ha)).tree
    · rw [A.vpmap b]
      exact (S.tree b hb).congr A.within.sub fun ρ hρ => S.reach_others A ha hb hba hρ
  · intro b hb
    rw [hentry b hb, hentry kas S.kernel, S.entry b hb]
  · intro x hx y hy hne ρ f hρ hown hf
    rw [A.vpmap x] at hown
    rw [A.vpmap y] at hf
    rcases S.own_after A ha hx hown with hown | ⟨rfl, hfree⟩ <;>
      rcases S.reached A ha hy hρ hf with ⟨σ, hσ, hf⟩ | ⟨rfl, hfree'⟩
    · exact S.apart x hx y hy hne σ f hσ hown hf
    · exact (S.tree x hx).own_used hown hfree'
    · exact (S.tree y hy).used σ f hσ hf hfree
    · exact hne rfl

theorem free_frame (hmem : ∀ f, f ∉ freePages s.vm.pm → s'.vm.mem f = s.vm.mem f) (hb : b ∈ L)
    (hρ : ρ.length ≤ 3) (hf : reach s.vm.mem (s.space b).vpmap ρ = some f) :
    s'.vm.mem f = s.vm.mem f :=
  hmem f ((S.tree b hb).used ρ f hρ hf)

/-- A new address space reaches its top-level table and the kernel's tables. -/
theorem asInit {cached : Bool} (ha : a ∉ L) (h : Osv.asInit a cached s = .ok (.ok, s')) :
    Separate s' (insert a L) ∧ (∀ b ∈ L, s'.space b = s.space b) ∧
      ∀ f, f ∉ freePages s.vm.pm → s'.vm.mem f = s.vm.mem f := by
  have hka : a ≠ kas := fun h => ha (h ▸ S.kernel)
  obtain ⟨g, hg, hout, hready, hsub, -, hcache, hspace, hmem, hzero, hkern⟩ :=
    asInit_ok S.ready hka (S.tree kas S.kernel).root_used h
  have hold : ∀ b ∈ L, s'.space b = s.space b := by
    intro b hb
    rw [hspace, Function.update_of_ne fun h : b = a => ha (h ▸ hb)]
  have hnew : s'.space a = ⟨[], g, none⟩ := by rw [hspace, Function.update_self]
  have hframe : ∀ f, f ∉ freePages s.vm.pm → s'.vm.mem f = s.vm.mem f :=
    fun f hf => hmem f fun h => hf (h ▸ hg)
  have hreach : ∀ b ∈ L, ∀ ρ : List ℕ, ρ.length ≤ 3 →
      reach s'.vm.mem (s.space b).vpmap ρ = reach s.vm.mem (s.space b).vpmap ρ := by
    intro b hb ρ hρ
    exact reach_congr (fun σ f hσ hf => S.free_frame hframe hb (by omega) hf) hρ
  have hkslot : slot s'.vm.mem (s.space kas).vpmap kernelIdx =
      slot s.vm.mem (s.space kas).vpmap kernelIdx :=
    slot_congr (by rw [S.free_frame hframe S.kernel (ρ := []) (by simp) rfl])
  have hcases : ∀ ρ f, ρ.length ≤ 3 → reach s'.vm.mem g ρ = some f → (ρ = [] ∧ f = g) ∨
        (ρ.head? = some kernelIdx ∧ reach s.vm.mem (s.space kas).vpmap ρ = some f) := fun _ _ =>
    reach_withKernel hkern hzero fun _ _ hπ hf => S.free_frame hframe S.kernel hπ hf
  have hown : ∀ {f}, f ∈ own s'.vm g → f = g := by
    rintro f ⟨π, hπ, hf⟩
    rcases hcases π f hπ.1 hf with ⟨-, h⟩ | ⟨hhead, -⟩
    · exact h
    · cases π with
      | nil => cases hhead
      | cons i π => exact absurd (Option.some.inj hhead) (hπ.2.elim (fun h => nomatch h) id)
  have hkused : ∀ {ρ f}, ρ.length ≤ 3 → reach s.vm.mem (s.space kas).vpmap ρ = some f → f ≠ g :=
    fun hρ hf h => (S.tree kas S.kernel).used _ _ hρ hf (h ▸ hg)
  refine ⟨⟨hready, hcache ▸ S.cache, .inr S.kernel, ?_, ?_, ?_⟩, hold, hframe⟩
  · rintro b (rfl | hb)
    · rw [hnew]
      refine ⟨fun ρ f hρ hf => ?_, fun π ρ f hπ hρ h1 h2 => ?_⟩
      · rcases hcases ρ f hρ hf with ⟨-, rfl⟩ | ⟨-, hk⟩
        · exact hout
        · exact fun h => (S.tree kas S.kernel).used ρ f hρ hk (hsub h)
      · obtain rfl : f = g := hown ⟨π, hπ, h1⟩
        have hπ0 : π = [] := (hcases π f hπ.1 h1).elim (fun h => h.1) fun h =>
            absurd rfl (hkused hπ.1 h.2)
        have hρ0 : ρ = [] := (hcases ρ f hρ h2).elim (fun h => h.1) fun h =>
            absurd rfl (hkused hρ h.2)
        rw [hπ0, hρ0]
    · rw [hold b hb]
      exact (S.tree b hb).congr hsub (hreach b hb)
  · have hk : slot s'.vm.mem (s'.space kas).vpmap kernelIdx =
        slot s.vm.mem (s.space kas).vpmap kernelIdx := by rw [hold kas S.kernel, hkslot]
    rintro b (rfl | hb)
    · rw [hnew, slot_withKernel hkern, hk]
    · rw [hk, hold b hb, ← S.entry b hb]
      exact slot_congr (by rw [S.free_frame hframe hb (ρ := []) (by simp) rfl])
  · rintro x (rfl | hx) y (rfl | hy) hne ρ f hρ hownx hf
    · exact hne rfl
    · rw [hnew] at hownx
      rw [hold y hy, hreach y hy ρ hρ] at hf
      exact (S.tree y hy).used ρ f hρ hf (hown hownx ▸ hg)
    · rw [hold x hx, own_congr (hreach x hx)] at hownx
      rw [hnew] at hf
      rcases hcases ρ f hρ hf with ⟨-, rfl⟩ | ⟨hhead, hk⟩
      · exact (S.tree x hx).own_used hownx hg
      · by_cases hxk : x = kas
        · obtain ⟨π, hπ, hfπ⟩ := hownx
          have := (S.tree x hx).unique π ρ f hπ hρ hfπ (hxk ▸ hk)
          subst this
          cases ρ with
          | nil => cases hhead
          | cons i ρ => exact absurd (Option.some.inj hhead) (hπ.2.elim (fun h => nomatch h) id)
        · exact S.apart x hx kas S.kernel hxk ρ f hρ hownx hk
    · rw [hold x hx, own_congr (hreach x hx)] at hownx
      rw [hold y hy, hreach y hy ρ hρ] at hf
      exact S.apart x hx y hy hne ρ f hρ hownx hf

theorem asInit_fails {cached : Bool} (ha : a ∉ L) (h : Osv.asInit a cached s = .ok (e, s'))
    (he : e ≠ .ok) : Separate s' L ∧ (∀ b ∈ L, s'.space b = s.space b) ∧ s'.vm.mem = s.vm.mem := by
  have hsame : s' = s.setRegions a [] := by
    obtain ⟨-, vm, rfl, hvm⟩ | ⟨hok, -⟩ := asInit_inv h
    · split at hvm
      · rw [pmemCall_alloc_none S.ready hvm]
        rfl
      · rw [hvm]
        rfl
    · exact absurd hok he
  have hold : ∀ b ∈ L, s'.space b = s.space b := by
    intro b hb
    rw [hsame]
    exact Function.update_of_ne (fun h : b = a => ha (h ▸ hb)) _ _
  refine ⟨⟨hsame ▸ S.ready, hsame ▸ S.cache, S.kernel, ?_, ?_, ?_⟩, hold, hsame ▸ rfl⟩
  · intro b hb
    rw [hold b hb, hsame]
    exact S.tree b hb
  · intro b hb
    rw [hold b hb, hold kas S.kernel, hsame]
    exact S.entry b hb
  · intro x hx y hy hne ρ f hρ
    rw [hold x hx, hold y hy, hsame]
    exact S.apart x hx y hy hne ρ f hρ

end

end Separate

/-! ## Runs -/

/-- What processes do to their address spaces. -/
inductive VmOp where
  | asInit (a : ℕ) (cached : Bool)
  | load (a : ℕ) (f : ExecFile)
  | stackSetup (a : ℕ)
  | sbrk (a : ℕ) (increment : Int)
  | fault (a addr : ℕ)

namespace VmOp

/-- The address space that is worked on. -/
def target : VmOp → ℕ
  | asInit a _ | load a _ | stackSetup a | sbrk a _ | fault a _ => a

/-- Run the call.  Returns whether there is a new address space. -/
def exec : VmOp → SpaceM Bool
  | asInit a cached => do
    let err ← Osv.asInit a cached
    pure (err = .ok)
  | load a f => do
    let _ ← procLoad f a
    pure false
  | stackSetup a => do
    let _ ← Osv.stackSetup a
    pure false
  | sbrk a increment => do
    let _ ← sysSbrk a increment
    pure false
  | fault a addr => do
    let _ ← handlePageFault a addr true
    pure false

/-- New address spaces are new, and the others are those of processes. -/
def Legal (L : Set ℕ) : VmOp → Prop
  | asInit a _ => a ∉ L
  | load a _ | stackSetup a | sbrk a _ => a ∈ L ∧ a ≠ kas
  | fault a addr => (a ∈ L ∧ a ≠ kas) ∧ addr < 2 ^ 64

/-- No page that is loaded, and no address of the heap that faults, has the index of the kernel's
entry in the top-level table. -/
def Clear (s : Spaces) : VmOp → Prop
  | load _ f => f.Clear
  | fault a addr => s.ClearFault a addr
  | asInit _ _ | stackSetup _ | sbrk _ _ => True

end VmOp

/-- One call, on the address spaces that are there. -/
def VmStep (op : VmOp) (w w' : Set ℕ × Spaces) : Prop :=
  op.Legal w.1 ∧ ∃ new, op.exec w.2 = .ok (new, w'.2) ∧
    w'.1 = if new then insert op.target w.1 else w.1

/-- A call that is clear, other than `as_init`, is work on the address space of its process. -/
theorem VmOp.exec_acts {op : VmOp} {s s' : Spaces} {L : Set ℕ} {new : Bool} (S : Separate s L)
    (hl : op.Legal L) (hc : op.Clear s) (h : op.exec s = .ok (new, s')) :
    (∃ cached, op = .asInit op.target cached ∧ op.target ∉ L) ∨
      (op.target ∈ L ∧ op.target ≠ kas ∧ new = false ∧ Acts op.target s s') := by
  cases op with
  | asInit a cached => exact .inl ⟨cached, rfl, hl⟩
  | load a f =>
    obtain ⟨x, s1, hrun, h⟩ := bind_ok.mp h
    cases h
    exact .inr ⟨hl.1, hl.2, rfl, procLoad_acts (S.live hl.1) hc hrun⟩
  | stackSetup a =>
    obtain ⟨x, s1, hrun, h⟩ := bind_ok.mp h
    cases h
    exact .inr ⟨hl.1, hl.2, rfl, stackSetup_acts (S.live hl.1) hrun⟩
  | sbrk a increment =>
    obtain ⟨x, s1, hrun, h⟩ := bind_ok.mp h
    cases h
    exact .inr ⟨hl.1, hl.2, rfl, sysSbrk_acts (S.live hl.1) hrun⟩
  | fault a addr =>
    obtain ⟨x, s1, hrun, h⟩ := bind_ok.mp h
    cases h
    exact .inr ⟨hl.1.1, hl.1.2, rfl, handlePageFault_acts (S.live hl.1.1) hl.2 hc hrun⟩

/-- A clear call keeps the address spaces separate, and the tables of all but its own. -/
theorem VmStep.keeps {op : VmOp} {s s' : Spaces} {L L' : Set ℕ} (S : Separate s L) (hc : op.Clear s)
    (h : VmStep op (L, s) (L', s')) :
    Separate s' L' ∧ L ⊆ L' ∧ op.target ≠ kas ∧ ∀ b ∈ L, b ≠ op.target →
      (s'.space b).vpmap = (s.space b).vpmap ∧
      ∀ ρ f, ρ.length ≤ 3 → reach s.vm.mem (s.space b).vpmap ρ = some f →
        s'.vm.mem f = s.vm.mem f := by
  obtain ⟨hl, new, hrun, hL⟩ := h
  simp only at hl hrun hL
  rcases VmOp.exec_acts S hl hc hrun with ⟨cached, hop, hnew⟩ | ⟨ha, hk, rfl, A⟩
  · generalize op.target = a at hop hnew hL ⊢
    subst hop
    have hka : a ≠ kas := fun h => hnew (h ▸ S.kernel)
    obtain ⟨e, s1, hinit, hret⟩ := bind_ok.mp hrun
    cases hret
    by_cases he : e = .ok
    · subst he
      obtain ⟨S', hold, hframe⟩ := S.asInit hnew hinit
      rw [if_pos (by simp)] at hL
      subst hL
      refine ⟨S', Set.subset_insert a L, hka, fun b hb _ =>
        ⟨by rw [hold b hb], fun ρ f hρ hf => ?_⟩⟩
      exact S.free_frame hframe hb hρ hf
    · obtain ⟨S', hold, hmem⟩ := S.asInit_fails hnew hinit he
      rw [if_neg (by simpa using he)] at hL
      subst hL
      exact ⟨S', subset_rfl, hka, fun b hb _ => ⟨by rw [hold b hb], fun ρ f _ _ => by rw [hmem]⟩⟩
  · rw [if_neg Bool.false_ne_true] at hL
    subst hL
    exact ⟨S.acts A ha, subset_rfl, hk, fun b hb hne =>
      ⟨A.vpmap b, fun ρ f hρ hf => S.others A ha hb hne hρ hf⟩⟩

/-- In a run of clear calls the address spaces stay separate, and the kernel's tables stay. -/
theorem VmStep.run {s0 s : Spaces} {L0 L : Set ℕ} (S0 : Separate s0 L0)
    (h : Relation.ReflTransGen (fun w w' => ∃ op : VmOp, op.Clear w.2 ∧ VmStep op w w')
      (L0, s0) (L, s)) : Separate s L ∧ (s.space kas).vpmap = (s0.space kas).vpmap ∧
      ∀ ρ f, ρ.length ≤ 3 → reach s0.vm.mem (s0.space kas).vpmap ρ = some f →
        s.vm.mem f = s0.vm.mem f := by
  generalize hw : (L, s) = w at h
  induction h generalizing L s with
  | refl =>
    cases hw
    exact ⟨S0, rfl, fun _ _ _ _ => rfl⟩
  | @tail w1 w2 _ hstep ih =>
    subst hw
    obtain ⟨L1, s1⟩ := w1
    obtain ⟨op, hc, hstep⟩ := hstep
    obtain ⟨S1, hroot, hsame⟩ := ih rfl
    obtain ⟨S, -, hk, hothers⟩ := VmStep.keeps S1 hc hstep
    obtain ⟨hroot', hsame'⟩ := hothers kas S1.kernel hk.symm
    refine ⟨S, hroot'.trans hroot, fun ρ f hρ hf => ?_⟩
    rw [hsame' ρ f hρ, hsame ρ f hρ hf]
    rw [hroot, reach_congr (fun σ f hσ hf => hsame σ f (Nat.le_of_lt hσ) hf) hρ]
    exact hf

/-- No call of a run of clear calls changes a table behind the kernel's entry, and none changes how
the kernel or another process translates an address. -/
theorem kernel_tables_kept {s0 s : Spaces} {L : Set ℕ} (S0 : Separate s0 {kas})
    (hrun : Relation.ReflTransGen (fun w w' => ∃ op : VmOp, op.Clear w.2 ∧ VmStep op w w')
      ({kas}, s0) (L, s)) :
    (∀ ρ f, ρ.length ≤ 2 → reach s0.vm.mem (s0.space kas).vpmap (kernelIdx :: ρ) = some f →
      s.vm.mem f = s0.vm.mem f) ∧
    ∀ (op : VmOp) (L' : Set ℕ) (s' : Spaces), op.Clear s → VmStep op (L, s) (L', s') →
      ∀ b ∈ L, b ≠ op.target → (s'.space b).vpmap = (s.space b).vpmap ∧
        ∀ p, entryOf s'.vm.mem (s'.space b).vpmap p = entryOf s.vm.mem (s.space b).vpmap p := by
  obtain ⟨S, -, hsame⟩ := VmStep.run S0 hrun
  refine ⟨fun ρ f hρ hf => hsame _ f (by rw [List.length_cons]; omega) hf, ?_⟩
  intro op L' s' hc hstep b hb hne
  obtain ⟨hroot, hkeep⟩ := (VmStep.keeps S hc hstep).2.2.2 b hb hne
  refine ⟨hroot, fun p => ?_⟩
  rw [hroot]
  exact entryOf_congr hkeep p

/-- In a run of clear calls all address spaces translate the kernel's addresses as the kernel did at
the start, and two of them have no other table in common. -/
theorem kernel_tables_common {s0 s : Spaces} {L : Set ℕ} (S0 : Separate s0 {kas})
    (hrun : Relation.ReflTransGen (fun w w' => ∃ op : VmOp, op.Clear w.2 ∧ VmStep op w w')
      ({kas}, s0) (L, s)) : (∀ a ∈ L, ∀ p, ¬ UserPath (pagePath p) →
      entryOf s.vm.mem (s.space a).vpmap p = entryOf s0.vm.mem (s0.space kas).vpmap p) ∧
    ∀ a ∈ L, ∀ b ∈ L, a ≠ b → ∀ π ρ f, π.length ≤ 3 → ρ.length ≤ 3 →
      reach s.vm.mem (s.space a).vpmap π = some f → reach s.vm.mem (s.space b).vpmap ρ = some f →
        f ∉ freePages s.vm.pm ∧ (∃ σ, π = kernelIdx :: σ) ∧ ∃ σ, ρ = kernelIdx :: σ := by
  obtain ⟨S, hroot, hsame⟩ := VmStep.run S0 hrun
  refine ⟨fun a ha p hp => ?_, fun a ha b hb hne π ρ f hπ hρ h1 h2 => ?_⟩
  · have hidx : pageDir p = kernelIdx :: (pageDir p).tail := by rw [pageDir, not_not.mp hp]; rfl
    rw [← entryOf_congr hsame p, ← hroot]
    refine entryOf_reach_congr ?_ fun _ _ => rfl
    rw [hidx, reach, reach, Nodes.follow_cons, Nodes.follow_cons, S.entry a ha]
  · refine ⟨(S.tree a ha).used π f hπ h1, ?_, ?_⟩
    · rcases ownPath_or_kernel hπ with hown | ⟨σ, rfl, -⟩
      · exact absurd h2 (S.apart a ha b hb hne ρ f hρ ⟨π, hown, h1⟩)
      · exact ⟨σ, rfl⟩
    · rcases ownPath_or_kernel hρ with hown | ⟨σ, rfl, -⟩
      · exact absurd h1 (S.apart b hb a ha hne.symm π f hπ ⟨ρ, hown, h2⟩)
      · exact ⟨σ, rfl⟩

/-! ## A segment behind the kernel's entry -/

/-- The kernel's top-level table is page 1, and its entry leads to page 3. -/
def kernelMem (f i : ℕ) : ℕ := if f = 1 ∧ i = kernelIdx then 3 * pgSize + 7 else 0

/-- Spaces with the tables of the kernel. -/
def kernelOnly : Spaces where
  vm := ⟨kernelMem, mediumWorld.pm⟩
  region _ := stale
  cache := ⟨[0, 1, 2, 3], 4⟩
  space _ := ⟨[], 1, none⟩

/-- The walks to the two tables. -/
def kernelWalks : List (List ℕ × ℕ) := [([], 1), ([kernelIdx], 3)]

theorem kernelMem_reach {π : List ℕ} (h : reach kernelMem 1 π = some f) : (π, f) ∈ kernelWalks :=
  reach_mem h (by decide) (by decide +kernel)

theorem kernelMem_used {π : List ℕ} (h : reach kernelMem 1 π = some f) :
    f ∉ freePages mediumWorld.pm := by
  have hlive : ∀ x ∈ kernelWalks, x.2 ∈ mediumWorld.live := by decide +kernel
  exact mediumWorld_reachable.live_used (hlive _ (kernelMem_reach h))

theorem kernelMem_unique {π ρ : List ℕ} (hπ : reach kernelMem 1 π = some f)
    (hρ : reach kernelMem 1 ρ = some f) : π = ρ := by
  have hinj : ∀ x ∈ kernelWalks, ∀ y ∈ kernelWalks, x.2 = y.2 → x.1 = y.1 := by decide
  exact hinj _ (kernelMem_reach hπ) _ (kernelMem_reach hρ) rfl

theorem kernelOnly_separate : Separate kernelOnly {kas} := by
  refine ⟨mediumWorld_reachable.ready, ⟨by decide, by decide⟩, rfl, ?_, ?_, ?_⟩
  · rintro a -
    exact ⟨fun ρ f _ hf => kernelMem_used hf, fun π ρ f _ _ h1 h2 => kernelMem_unique h2 h1⟩
  · rintro a -
    rfl
  · rintro a rfl b rfl hne
    exact absurd rfl hne

/-- An executable file with one segment of one page, all of it zeros. -/
def oneSegmentBytes (vaddr : List UInt8) : List UInt8 :=
  [0x7f, 0x45, 0x4c, 0x46] ++ List.replicate 28 0 ++ [64] ++ List.replicate 23 0 ++ [1] ++
    List.replicate 7 0 ++ [1, 0, 0, 0, 2, 0, 0, 0] ++ List.replicate 8 0 ++ vaddr ++
    List.replicate 16 0 ++ [0, 0x10, 0, 0, 0, 0, 0, 0] ++ List.replicate 8 0

/-- A file with one segment. -/
def oneSegment (vaddr : List UInt8) : ExecFile where
  openErr := .ok
  read ofs count := ((oneSegmentBytes vaddr).drop ofs).take count
  read_le _ count := List.length_take_le count _

/-- The segment is at `0xFFFFFF8000000000`, which is below `KMAP_BASE`. -/
def highSegment : ExecFile := oneSegment [0, 0, 0, 0, 0x80, 0xff, 0xff, 0xff]

/-- The segment is at `0x1000`. -/
def lowSegment : ExecFile := oneSegment [0, 0x10, 0, 0, 0, 0, 0, 0]

/-- The state after `as_init` of a process. -/
def spawned : Spaces := (VmOp.asInit 1 true).exec.final kernelOnly

theorem spawned_step : VmStep (.asInit 1 true) ({kas}, kernelOnly) ({1, kas}, spawned) :=
  ⟨(by decide : (1 : ℕ) ≠ kas), true, Prog.run_of_result (by decide +kernel), rfl⟩

/-- The new process reaches the kernel's table, which is not free. -/
theorem spawned_common : 3 ∉ freePages spawned.vm.pm :=
  ((kernel_tables_common kernelOnly_separate (.single ⟨.asInit 1 true, trivial, spawned_step⟩)).2 1
    (.inl rfl) kas (.inr rfl) (by decide) [kernelIdx] [kernelIdx] 3 (by simp)
    (by simp) (by decide +kernel)
    (by decide +kernel)).1

theorem load_step (f : ExecFile) (h : (VmOp.load 1 f).exec.result spawned = some false) :
    VmStep (.load 1 f) ({1, kas}, spawned) ({1, kas}, (VmOp.load 1 f).exec.final spawned) :=
  ⟨⟨.inl rfl, by decide⟩, false, Prog.run_of_result h, rfl⟩

/-- Loading the high segment writes an entry into the kernel's table. -/
theorem highSegment_writes : Separate kernelOnly {kas} ∧
    VmStep (.asInit 1 true) ({kas}, kernelOnly) ({1, kas}, spawned) ∧
    ∃ s, VmStep (.load 1 highSegment) ({1, kas}, spawned) ({1, kas}, s) ∧
      reach kernelOnly.vm.mem (kernelOnly.space kas).vpmap [kernelIdx] = some 3 ∧
      s.vm.mem 3 ≠ kernelOnly.vm.mem 3 := by
  refine ⟨kernelOnly_separate, spawned_step, _, load_step highSegment
    (by decide +kernel), by decide,
    fun h => ?_⟩
  have hne : ((VmOp.load 1 highSegment).exec.final spawned).vm.mem 3 0 ≠ kernelOnly.vm.mem 3 0 := by
    decide +kernel
  exact hne (congrFun h 0)

theorem lowSegment_clear : lowSegment.Clear := by
  simp only [ExecFile.Clear, ExecFile.ClearFrom, ProgHdr.Clear]
  decide

/-- Loading the low segment leaves the kernel's table alone. -/
theorem lowSegment_keeps :
    ((VmOp.load 1 lowSegment).exec.final spawned).vm.mem 3 = kernelOnly.vm.mem 3 := by
  have hload := load_step lowSegment (by decide +kernel)
  refine (kernel_tables_kept kernelOnly_separate (.tail
    (.single ⟨.asInit 1 true, trivial, spawned_step⟩)
    ⟨.load 1 lowSegment, lowSegment_clear, hload⟩)).1
      [] 3 (by simp) ?_
  decide

end Osv
