import Osv.Vm.Copy
import Osv.Vm.Space

/-!
# Copying an address space

`as_copy_as` goes through the regions of the source, makes a region like each in
the destination and copies its pages.  Along the loop the page tables are in the
state of a copy (`Grown`), the slots of the source's regions are not reused, and
the regions done so far have their copies.
-/

namespace Osv

open Function (update update_self update_of_ne)
open Spaces (setRegion setRegions)
open Prog (bind_ok read_bind run_of_result update_bind zoom_ok)

variable {s s' : Spaces}

/-! ## Slots -/

/-- A slot with a live region. -/
def Spaces.InUse (s : Spaces) (x : ℕ) : Prop := x < s.cache.slots ∧ x ∉ s.cache.free

/-- The free slots are slots, and listed once. -/
structure RegionCache.Ok (c : RegionCache) : Prop where
  lt : ∀ x ∈ c.free, x < c.slots
  nodup : c.free.Nodup

/-- What taking a region does to the slots, whatever the state of the physical memory: a slot that
was not in use is. -/
structure SlotTaken (s : Spaces) (r : ℕ) (s' : Spaces) : Prop where
  new : ¬ s.InUse r
  inUse : ∀ x, s'.InUse x ↔ s.InUse x ∨ x = r
  ok : s'.cache.Ok
  region : s'.region = update s.region r stale
  space : s'.space = s.space

/-- What a call of the allocator for the slots leaves: it takes pages and writes to none. -/
structure PagesTaken (s s' : Vm) : Prop where
  mem : s'.mem = s.mem
  ready : s'.pm.Ready
  holds : ∀ H, s.pm.Holding H → s'.pm.Holding H
  sub : freePages s'.pm ⊆ freePages s.pm

theorem PagesTaken.refl {s : Vm} (hr : s.pm.Ready) : PagesTaken s s :=
  ⟨rfl, hr, fun _ h => h, subset_rfl⟩

theorem slabAlloc_taken {s s' : Vm} {x : Option ℕ} (hr : s.pm.Ready)
    (h : pmemCall (pmemNalloc slabPages) s = .ok (x, s')) : PagesTaken s s' := by
  obtain ⟨pm1, hpm, rfl⟩ := zoom_ok.mp h
  obtain ⟨r', pm', hrun, hready, hsub, -⟩ :=
    hr.pmemNalloc (n := slabPages) (by decide) (by decide)
  rw [hrun] at hpm
  cases hpm
  exact ⟨rfl, hready, fun H hH => (hH.pmemNalloc (by decide) (by decide) hrun).1, hsub⟩

/-- What taking a region from the cache leaves, memory included. -/
structure Slotted (s : Spaces) (r : ℕ) (s' : Spaces) : Prop extends
  SlotTaken s r s', PagesTaken s.vm s'.vm

/-- What `regionAlloc` can do: it takes a free slot, or it asks for a slab, of which it takes the
first slot. -/
theorem regionAlloc_cases {x : Option ℕ} (h : regionAlloc s = .ok (x, s')) :
    (∃ r rest, s.cache.free = r :: rest ∧ x = some r ∧
      s' = { s with cache := { s.cache with free := rest } }.setRegion r stale) ∨
    s.cache.free = [] ∧ ∃ y vm, pmemCall (pmemNalloc slabPages) s.vm = .ok (y, vm) ∧
      (x = none ∧ y = none ∧ s' = { s with vm := vm } ∨
      x = some s.cache.slots ∧ s' = { s with
        vm := vm
        cache := ⟨List.range' (s.cache.slots + 1) (slabObjs - 1), s.cache.slots + slabObjs⟩
        }.setRegion s.cache.slots stale) := by
  rw [regionAlloc, read_bind] at h
  cases hf : s.cache.free with
  | cons r rest =>
    simp only [hf] at h
    rw [update_bind, update_bind] at h
    cases h
    exact .inl ⟨r, rest, rfl, rfl, rfl⟩
  | nil =>
    simp only [hf] at h
    obtain ⟨y, s1, hcall, h⟩ := bind_ok.mp h
    obtain ⟨vm, hvm, rfl⟩ := zoom_ok.mp hcall
    refine .inr ⟨rfl, y, vm, hvm, ?_⟩
    cases y with
    | none =>
      cases h
      exact .inl ⟨rfl, rfl, rfl⟩
    | some paddr =>
      simp only at h
      rw [update_bind, update_bind] at h
      cases h
      exact .inr ⟨rfl, rfl⟩

theorem regionAlloc_taken {r : ℕ} (hc : s.cache.Ok) (h : regionAlloc s = .ok (some r, s')) :
    SlotTaken s r s' := by
  obtain ⟨r, rest, hf, hx, rfl⟩ | ⟨hf, y, vm, -, ⟨hx, -⟩ | ⟨hx, rfl⟩⟩ := regionAlloc_cases h <;>
    cases hx
  · have hnd : (r :: rest).Nodup := hf ▸ hc.nodup
    have hlt : r < s.cache.slots := hc.lt r (by rw [hf]; simp)
    refine ⟨fun hu => hu.2 (by rw [hf]; simp), fun x => ?_, ⟨fun x hx => ?_, ?_⟩, rfl, rfl⟩
    · simp only [Spaces.InUse, setRegion, hf, List.mem_cons]
      constructor
      · rintro ⟨h1, h2⟩
        by_cases hx : x = r
        · exact .inr hx
        · exact .inl ⟨h1, by tauto⟩
      · rintro (⟨h1, h2⟩ | rfl)
        · exact ⟨h1, by tauto⟩
        · exact ⟨hlt, (List.nodup_cons.mp hnd).1⟩
    · exact hc.lt x (by rw [hf]; exact List.mem_cons_of_mem _ hx)
    · exact (List.nodup_cons.mp hnd).2
  · have hpos : 0 < slabObjs := by decide
    refine ⟨fun hu => Nat.lt_irrefl _ hu.1, fun x => ?_, ⟨fun x hx => ?_, ?_⟩, rfl, rfl⟩
    · simp only [Spaces.InUse, setRegion, hf, List.mem_range'_1, List.not_mem_nil,
        not_false_eq_true, and_true]
      omega
    · simp only [setRegion, List.mem_range'_1] at hx ⊢
      omega
    · exact List.nodup_range'

theorem regionAlloc_ok {r : ℕ} (hc : s.cache.Ok) (hr : s.vm.pm.Ready)
    (h : regionAlloc s = .ok (some r, s')) : Slotted s r s' := by
  refine ⟨regionAlloc_taken hc h, ?_⟩
  obtain ⟨r, rest, -, -, rfl⟩ | ⟨-, y, vm, hvm, ⟨-, -, rfl⟩ | ⟨-, rfl⟩⟩ := regionAlloc_cases h
  · exact .refl hr
  · exact slabAlloc_taken hr hvm
  · exact slabAlloc_taken hr hvm

/-! ## Regions -/

theorem listAppendOrdered_perm (greater : ℕ → Bool) (node : ℕ) (l : List ℕ) :
    (listAppendOrdered greater node l).Perm (node :: l) := by
  induction l with
  | nil => exact List.Perm.refl _
  | cons n rest ih =>
    rw [listAppendOrdered]
    split
    · exact List.Perm.refl _
    · exact (ih.cons n).trans (List.Perm.swap node n rest)

/-- What a new region of `a` leaves. -/
structure Mapped (s : Spaces) (a r : ℕ) (mr : MemRegion) (s' : Spaces) : Prop extends
    PagesTaken s.vm s'.vm where
  new : ¬ s.InUse r
  inUse : ∀ x, s'.InUse x ↔ s.InUse x ∨ x = r
  ok : s'.cache.Ok
  region : s'.region r = mr
  others : ∀ x, x ≠ r → s'.region x = s.region x
  regions : (s'.space a).regions.Perm (r :: (s.space a).regions)
  vpmap : (s'.space a).vpmap = (s.space a).vpmap
  heap : (s'.space a).heap = (s.space a).heap
  spaces : ∀ b, b ≠ a → s'.space b = s.space b

/-- What a call that maps nothing leaves. -/
structure Refused (s s' : Spaces) : Prop extends PagesTaken s.vm s'.vm where
  region : s'.region = s.region
  cache : s'.cache = s.cache
  space : s'.space = s.space

theorem Refused.refl {s : Spaces} (hr : s.vm.pm.Ready) : Refused s s := ⟨.refl hr, rfl, rfl, rfl⟩

theorem regionAlloc_fails (h : regionAlloc s = .ok (none, s')) :
    ∃ vm, pmemCall (pmemNalloc slabPages) s.vm = .ok (none, vm) ∧ s' = { s with vm := vm } := by
  obtain ⟨r, rest, -, hx, -⟩ | ⟨-, y, vm, hvm, ⟨-, rfl, rfl⟩ | ⟨hx, -⟩⟩ := regionAlloc_cases h
  · cases hx
  · exact ⟨vm, hvm, rfl⟩
  · cases hx

theorem regionAlloc_none (hr : s.vm.pm.Ready) (h : regionAlloc s = .ok (none, s')) :
    Refused s s' := by
  obtain ⟨vm, hvm, rfl⟩ := regionAlloc_fails h
  exact ⟨slabAlloc_taken hr hvm, rfl, rfl, rfl⟩

/-- The range is one `memregion_map_internal` does not map in `a`. -/
def Outside (a addr size : ℕ) (perm : MemPerm) : Prop :=
  a ≠ kas ∧ (isKernMemperm perm ∨ ¬ isUserAddr (pgRoundUpAddr (addAddr addr size)))

/-- Some region of `a` is found for a range that starts at `addr`: it starts at or below `addr`, and
it reaches as far as `addr` and the end of the range taken together. -/
def Spaces.Found (s : Spaces) (a addr size : ℕ) : Prop :=
  ∃ r ∈ (s.space a).regions, (s.region r).start ≤ addr ∧
    addAddr addr (addAddr addr size) ≤ pgRoundUpAddr (s.region r).fin

section MapAt

variable {s s' : Spaces} {a addr size : ℕ} {perm : MemPerm} {store ofs : ℕ} {shared : Int}

/-- What `memregion_map_internal` can do, once the address is settled. -/
theorem memregionMapAt_cases {x : Option ℕ} (hc : s.cache.Ok) (hr : s.vm.pm.Ready)
    (h : memregionMapAt a addr size perm store ofs shared s = .ok (x, s')) :
    (x = none ∧ Refused s s' ∧
      (Outside a addr size perm ∨ s.Found a addr size ∨ regionAlloc s = .ok (none, s'))) ∨
    ∃ r, x = some r ∧ ¬ Outside a addr size perm ∧ ¬ s.Found a addr size ∧
      Mapped s a r ⟨a, addr, addAddr addr size, perm, shared, store, ofs⟩ s' := by
  rw [memregionMapAt] at h
  obtain ⟨-, h⟩ := kassert_bind_ok.mp h
  obtain ⟨-, h⟩ := kassert_bind_ok.mp h
  split at h
  · rename_i hout
    cases h
    exact .inl ⟨rfl, Refused.refl hr, .inl hout⟩
  · rename_i hout
    obtain ⟨found, s0, hfind, h⟩ := bind_ok.mp h
    rw [memregionFindInternal, Prog.reads_run, Except.ok.injEq, Prod.mk.injEq] at hfind
    obtain ⟨hfind, rfl⟩ := hfind
    cases found with
    | some n =>
      cases h
      have hp := List.find?_some hfind
      simp only [Bool.and_eq_true, decide_eq_true_eq] at hp
      exact .inl ⟨rfl, Refused.refl hr, .inr (.inl ⟨n, List.mem_of_find?_eq_some hfind, hp⟩)⟩
    | none =>
      have hnot : ¬ s.Found a addr size := by
        rintro ⟨n, hn, hp⟩
        have := List.find?_eq_none.mp hfind n hn
        simp only [Bool.and_eq_true, decide_eq_true_eq] at this
        exact this hp
      obtain ⟨x, s1, hall, h⟩ := bind_ok.mp h
      cases x with
      | none =>
        cases h
        exact .inl ⟨rfl, regionAlloc_none hr hall, .inr (.inr hall)⟩
      | some x =>
        simp only at h
        rw [update_bind, update_bind] at h
        cases h
        have S := regionAlloc_ok hc hr hall
        refine .inr ⟨x, rfl, hout, hnot, S.toPagesTaken, S.new, S.inUse, S.ok, ?_, ?_, ?_, ?_, ?_,
          ?_⟩
        · simp [setRegion]
        · intro x hx
          simp [setRegion, setRegions, S.region, hx]
        · simp only [setRegion, setRegions, update_self]
          rw [← S.space]
          exact listAppendOrdered_perm _ _ _
        · simp [setRegion, setRegions, S.space]
        · simp [setRegion, setRegions, S.space]
        · intro b hb
          simp [setRegion, setRegions, S.space, hb]

end MapAt

/-- A region of user space, as `memregion_map_internal` makes them. -/
structure MemRegion.User (mr : MemRegion) : Prop where
  aligned : pgSize ∣ mr.start
  le : mr.start ≤ mr.fin
  below : mr.fin ≤ kmapBase

namespace MemRegion.User

variable {mr : MemRegion}

theorem size_eq (h : mr.User) : subAddr mr.fin mr.start = mr.fin - mr.start := by
  have h1 := h.le
  have h2 := h.below
  simp only [subAddr, kmapBase] at *
  omega

theorem fin_eq (h : mr.User) : addAddr mr.start (subAddr mr.fin mr.start) = mr.fin := by
  have h1 := h.le
  have h2 := h.below
  rw [h.size_eq]
  simp only [addAddr, kmapBase] at *
  omega

theorem ne_anywhere (h : mr.User) : mr.start ≠ addrAnywhere := by
  intro h1
  have := h.aligned
  rw [h1] at this
  revert this
  decide

theorem roundDown_eq (h : mr.User) : pgRoundDown mr.start = mr.start := by
  rw [pgRoundDown, Nat.div_mul_cancel h.aligned]

theorem page_iff (h : mr.User) {v : ℕ} : (pgSize ∣ v ∧ mr.start ≤ v ∧ v < mr.fin) ↔
    ∃ i < sizePages (subAddr mr.fin mr.start), v = (mr.start + i * pgSize) % 2 ^ 64 := by
  obtain ⟨k, hk⟩ := h.aligned
  have h1 := h.le
  have h2 := h.below
  rw [h.size_eq, sizePages, pgRoundUpAddr, pgRoundUp]
  simp only [pgSize, kmapBase] at *
  constructor
  · rintro ⟨⟨m, rfl⟩, h3, h4⟩
    exact ⟨m - k, by omega, by omega⟩
  · rintro ⟨i, hi, rfl⟩
    exact ⟨⟨k + i, by omega⟩, by omega, by omega⟩

end MemRegion.User

theorem memregionCopyPages_ok {t s' : Spaces} {a r addr x r' : ℕ}
    (h : memregionCopyPages a r addr x t = .ok (some r', s')) :
    r' = x ∧ ∃ vm', vpmapCopy (t.space (t.region r).as).vpmap (t.space a).vpmap
      (t.region r).start addr (sizePages (subAddr (t.region r).fin (t.region r).start))
        (t.region r).perm t.vm = .ok (.ok, vm') ∧ s' = { t with vm := vm' } := by
  rw [memregionCopyPages, read_bind] at h
  obtain ⟨err, s2, hcopy, h⟩ := bind_ok.mp h
  obtain ⟨vm', hvm, rfl⟩ := zoom_ok.mp hcopy
  split at h
  · obtain ⟨_, s3, -, h⟩ := bind_ok.mp h
    cases h
  · rename_i herr
    cases h
    rw [not_not.mp herr] at hvm
    exact ⟨rfl, vm', hvm, rfl⟩

theorem memregionCopyInternal_ok {a r r' : ℕ} (hu : (s.region r).User) (hc : s.cache.Ok)
    (hr : s.vm.pm.Ready) (hin : s.InUse r) (hne : (s.region r).as ≠ a)
    (h : memregionCopyInternal a r (s.region r).start s = .ok (some r', s')) :
    ∃ t vm', Mapped s a r' { s.region r with as := a } t ∧
      copyLoop (s.space (s.region r).as).vpmap (s.space a).vpmap
        (mempermToPteperm (s.region r).perm)
        (sizePages (subAddr (s.region r).fin (s.region r).start)) (s.region r).start
        (s.region r).start t.vm = .ok (.ok, vm') ∧ s' = { t with vm := vm' } := by
  rw [memregionCopyInternal, read_bind] at h
  obtain ⟨x, t, hmap, h⟩ := bind_ok.mp h
  cases x with
  | none => cases h
  | some x =>
    obtain ⟨rfl, vm', hcopy, hs'⟩ := memregionCopyPages_ok h
    rw [memregionMapInternal, if_neg hu.ne_anywhere] at hmap
    obtain ⟨hx, -⟩ | ⟨x', hx, -, -, M⟩ := memregionMapAt_cases hc hr hmap
    · cases hx
    cases hx
    rw [hu.fin_eq] at M
    have hreg : t.region r = s.region r := M.others r fun h => M.new (h ▸ hin)
    rw [hreg, M.spaces _ hne, M.vpmap, vpmapCopy, hu.roundDown_eq] at hcopy
    exact ⟨t, vm', M, hcopy, hs'⟩

/-! ## The loop over the regions -/

/-- What the start of the loop has to satisfy. -/
structure Forkable (s1 : Spaces) (src dst : ℕ) : Prop where
  source : Source s1.vm (s1.space src).vpmap (s1.space dst).vpmap
  cache : s1.cache.Ok
  ne : src ≠ dst
  nodup : (s1.space src).regions.Nodup
  inUse : ∀ r ∈ (s1.space src).regions, s1.InUse r
  as : ∀ r ∈ (s1.space src).regions, (s1.region r).as = src
  user : ∀ r ∈ (s1.space src).regions, (s1.region r).User
  entries : ∀ r ∈ (s1.space src).regions, EntriesOk s1.vm (s1.space src).vpmap
    (sizePages (subAddr (s1.region r).fin (s1.region r).start)) (s1.region r).start

/-- The loop of `as_copy_as` when the regions `done` have the copies `c`. -/
structure Forking (s1 : Spaces) (src dst : ℕ) (done : List ℕ) (c : ℕ → ℕ) (s : Spaces) : Prop where
  grown : Grown s1.vm (s1.space src).vpmap (s1.space dst).vpmap s.vm
  cache : s.cache.Ok
  spaces : ∀ a, a ≠ dst → s.space a = s1.space a
  vpmap : (s.space dst).vpmap = (s1.space dst).vpmap
  inUse : ∀ x, s1.InUse x → s.InUse x
  region : ∀ x, s1.InUse x → s.region x = s1.region x
  perm : (s.space dst).regions.Perm (done.map c)
  slot : ∀ r ∈ done, s.InUse (c r) ∧ ¬ s1.InUse (c r)
  copy : ∀ r ∈ done, s.region (c r) = { s1.region r with as := dst }
  inj : ∀ r ∈ done, ∀ r' ∈ done, c r = c r' → r = r'
  heap : (s.space dst).heap = ((s1.space src).heap.filter (· ∈ done)).map c
  pages : ∀ r ∈ done, ∀ i < sizePages (subAddr (s1.region r).fin (s1.region r).start),
    ∀ p, p = pageOf (((s1.region r).start + i * pgSize) % 2 ^ 64) →
    present (entryOf s1.vm.mem (s1.space src).vpmap p) = true →
      UserPath (pagePath p) ∧ ∃ f < 2 ^ 39, entryOf s.vm.mem (s1.space dst).vpmap p =
        mkPte (f * pgSize) (mempermToPteperm (s1.region r).perm)

section Loop

variable {s1 s s' : Spaces} {src dst : ℕ} {done : List ℕ} {c : ℕ → ℕ}

theorem Forking.step (F : Forkable s1 src dst) (K : Forking s1 src dst done c s) {r r' : ℕ}
    {s2 : Spaces} (hr : r ∈ (s1.space src).regions) (hdone : r ∉ done)
    (h : memregionCopyInternal dst r (s.region r).start s = .ok (some r', s'))
    (hs2 : (if (s'.space src).heap = some r then s'.setHeap dst (some r') else s') = s2) :
    Forking s1 src dst (done ++ [r]) (update c r r') s2 ∧
      Refilled (s1.space dst).vpmap s.vm s2.vm := by
  have hreg : s.region r = s1.region r := K.region r (F.inUse r hr)
  obtain ⟨t, vm', M, hcopy, rfl⟩ :=
    memregionCopyInternal_ok (hreg ▸ F.user r hr) K.cache K.grown.ready
      (K.inUse r (F.inUse r hr)) (by rw [hreg, F.as r hr]; exact F.ne) h
  rw [hreg, F.as r hr, K.spaces src F.ne, K.vpmap] at hcopy
  rw [hreg] at M
  obtain ⟨C, hfill⟩ := copyLoop_ok F.source (mempermToPteperm_lt _) (F.entries r hr)
    (K.grown.shrink M.mem M.ready M.sub) hcopy
  have hsrc : t.space src = s1.space src := (M.spaces src F.ne).trans (K.spaces src F.ne)
  have hup : ∀ x ∈ done, update c r r' x = c x := by
    intro x hx
    exact update_of_ne (fun h : x = r => hdone (h ▸ hx)) _ _
  have hself : update c r r' r = r' := update_self _ _ _
  have hold : ∀ x ∈ done, c x ≠ r' := fun x hx h => M.new (h ▸ (K.slot x hx).1)
  have e1 : s2.vm = vm' := by rw [← hs2]; split <;> rfl
  have e2 : s2.cache = t.cache := by rw [← hs2]; split <;> rfl
  have e3 : s2.region = t.region := by rw [← hs2]; split <;> rfl
  have e4 : ∀ a, a ≠ dst → s2.space a = t.space a := by
    intro a ha
    rw [← hs2]
    split
    · exact update_of_ne ha _ _
    · rfl
  have e5 : (s2.space dst).vpmap = (t.space dst).vpmap := by
    rw [← hs2]
    split
    · simp [Spaces.setHeap]
    · rfl
  have e6 : (s2.space dst).regions = (t.space dst).regions := by
    rw [← hs2]
    split
    · simp [Spaces.setHeap]
    · rfl
  have e7 : (s2.space dst).heap =
      if (s1.space src).heap = some r then some r' else (t.space dst).heap := by
    rw [← hs2, ← hsrc]
    split
    · simp [Spaces.setHeap]
    · rfl
  have huse : ∀ x, s2.InUse x ↔ s.InUse x ∨ x = r' := by
    intro x
    rw [← M.inUse x, Spaces.InUse, e2, Spaces.InUse]
  rw [Refilled, M.mem, ← e1] at hfill
  refine ⟨
    { grown := e1 ▸ C.grown
      cache := e2 ▸ M.ok
      spaces := fun a ha => (e4 a ha).trans ((M.spaces a ha).trans (K.spaces a ha))
      vpmap := e5.trans (M.vpmap.trans K.vpmap)
      inUse := fun x hx => (huse x).mpr (.inl (K.inUse x hx))
      region := fun x hx => ?_
      perm := ?_
      slot := fun x hx => ?_
      copy := fun x hx => ?_
      inj := fun x hx y hy hxy => ?_
      heap := ?_
      pages := fun x hx i hi p hp hpres => ?_ }, hfill⟩
  · have hne : x ≠ r' := fun h => M.new (h ▸ K.inUse x hx)
    rw [e3, M.others x hne, K.region x hx]
  · rw [e6, List.map_append, List.map_congr_left hup, List.map_singleton, hself]
    exact (M.regions.trans (K.perm.cons r')).trans (List.perm_append_singleton r' _).symm
  · rcases List.mem_append.mp hx with hx | hx
    · rw [hup x hx]
      exact ⟨(huse _).mpr (.inl (K.slot x hx).1), (K.slot x hx).2⟩
    · obtain rfl := List.mem_singleton.mp hx
      rw [hself]
      exact ⟨(huse r').mpr (.inr rfl), fun h => M.new (K.inUse r' h)⟩
  · rcases List.mem_append.mp hx with hx | hx
    · rw [hup x hx, e3, M.others _ (hold x hx), K.copy x hx]
    · obtain rfl := List.mem_singleton.mp hx
      rw [hself, e3, M.region]
  · rcases List.mem_append.mp hx with hx | hx <;> rcases List.mem_append.mp hy with hy | hy
    · rw [hup x hx, hup y hy] at hxy
      exact K.inj x hx y hy hxy
    · rw [hup x hx, List.mem_singleton.mp hy, hself] at hxy
      exact absurd hxy (hold x hx)
    · rw [hup y hy, List.mem_singleton.mp hx, hself] at hxy
      exact absurd hxy.symm (hold y hy)
    · rw [List.mem_singleton.mp hx, List.mem_singleton.mp hy]
  · rw [e7, M.heap, K.heap]
    cases hh : (s1.space src).heap with
    | none => simp
    | some x =>
      by_cases hxr : x = r
      · subst hxr
        simp [Option.filter]
      · by_cases hxd : x ∈ done
        · simp [Option.filter, hxr, hxd]
        · simp [Option.filter, hxr, hxd]
  · rcases List.mem_append.mp hx with hx | hx
    · obtain ⟨hu, f, hf, hentry⟩ := K.pages x hx i hi p hp hpres
      rw [← M.mem] at hentry
      refine ⟨hu, f, hf, ?_⟩
      rw [e1, C.keeps p (hp ▸ pageOf_lt _) hu, hentry]
      rw [hentry]
      exact present_mkPte hf (mempermToPteperm_lt _)
    · obtain rfl := List.mem_singleton.mp hx
      rw [e1]
      subst hp
      exact C.maps i hi hpres

theorem asCopyLoop_ok (F : Forkable s1 src dst) {rest : List ℕ}
    (hrest : done ++ rest = (s1.space src).regions) (K : Forking s1 src dst done c s)
    (h : asCopyLoop src dst rest s = .ok (.ok, s')) :
    ∃ c', Forking s1 src dst (s1.space src).regions c' s' ∧
      Refilled (s1.space dst).vpmap s.vm s'.vm := by
  induction rest generalizing done c s with
  | nil =>
    cases h
    rw [List.append_nil] at hrest
    exact ⟨c, hrest ▸ K, fun _ _ => .inr rfl⟩
  | cons r rest ih =>
    have hr : r ∈ (s1.space src).regions := by rw [← hrest]; simp
    have hnd : (done ++ r :: rest).Nodup := hrest ▸ F.nodup
    have hdone : r ∉ done := fun h => (List.nodup_append.mp hnd).2.2 r h r (by simp) rfl
    rw [asCopyLoop, read_bind] at h
    obtain ⟨x, s2, hcopy, h⟩ := bind_ok.mp h
    cases x with
    | none => cases h
    | some r' =>
      simp only at h
      rw [update_bind] at h
      obtain ⟨K', hfill⟩ := K.step F hr hdone hcopy rfl
      obtain ⟨c', K2, hfill'⟩ := ih (by rw [List.append_assoc]; exact hrest) K' h
      exact ⟨c', K2, hfill.trans hfill'⟩

end Loop

/-! ## Setting up the destination -/

/-- The machine after the kernel's entry was copied from the table `k` to `g`. -/
def Vm.withKernel (s : Vm) (k g : ℕ) : Vm :=
  if present (s.mem k kernelIdx) then s.setWord g kernelIdx (s.mem k kernelIdx) else s

theorem vpmapCopyKernelMapping_run (k g : ℕ) (s : Vm) :
    vpmapCopyKernelMapping k g s = .ok ((), s.withKernel k g) := by
  rw [vpmapCopyKernelMapping, read_bind, Vm.withKernel]
  split
  · rfl
  · rfl

@[simp] theorem Vm.withKernel_pm (s : Vm) (k g : ℕ) : (s.withKernel k g).pm = s.pm := by
  unfold Vm.withKernel
  split <;> rfl

theorem Vm.withKernel_mem (s : Vm) (k g f j : ℕ) :
    (s.withKernel k g).mem f j = if f = g ∧ j = kernelIdx ∧ present (s.mem k kernelIdx) then
      s.mem k kernelIdx else s.mem f j := by
  unfold Vm.withKernel
  split <;> simp [Vm.setWord, *]

/-- What `as_init` does: there is no object for the page table or no page, or a new page is the
top-level table, and then the kernel's entry is copied. -/
theorem asInit_inv {dst : ℕ} {cached : Bool} {e : Err} (h : asInit dst cached s = .ok (e, s')) :
    (e ≠ .ok ∧ ∃ vm, s' = { s.setRegions dst [] with vm := vm } ∧
      if cached = true then pmemCall pmemAlloc s.vm = .ok (none, vm) else vm = s.vm) ∨
    (e = .ok ∧ cached = true ∧ ∃ paddr vm, pmemCall pmemAlloc s.vm = .ok (some paddr, vm) ∧
      s' = { s with
        vm := (vm.zeroPage (paddr / pgSize)).withKernel
          (update s.space dst ⟨[], paddr / pgSize, none⟩ kas).vpmap (paddr / pgSize)
        space := update s.space dst ⟨[], paddr / pgSize, none⟩ }) := by
  rw [asInit, update_bind] at h
  obtain ⟨x, s1, hcall, h⟩ := bind_ok.mp h
  obtain ⟨vm1, hvm, rfl⟩ := zoom_ok.mp hcall
  rw [vpmapCreate] at hvm
  cases cached with
  | false =>
    cases hvm
    cases h
    exact .inl ⟨by decide, _, rfl, rfl⟩
  | true =>
    obtain ⟨y, vm, hall, hvm⟩ := bind_ok.mp hvm
    cases y with
    | none =>
      cases hvm
      cases h
      exact .inl ⟨by decide, _, rfl, hall⟩
    | some paddr =>
      cases hvm
      dsimp only at h
      rw [update_bind, read_bind] at h
      obtain ⟨_, s3, hcopy, h⟩ := bind_ok.mp h
      cases h
      obtain ⟨vm3, hvm3, rfl⟩ := zoom_ok.mp hcopy
      rw [vpmapCopyKernelMapping_run] at hvm3
      cases hvm3
      exact .inr ⟨rfl, rfl, paddr, vm, hall, by simp [setRegions]⟩

theorem asInit_ready {dst : ℕ} {cached : Bool} (hr : s.vm.pm.Ready)
    (h : asInit dst cached s = .ok (.ok, s')) : s'.vm.pm.Ready := by
  obtain ⟨he, -⟩ | ⟨-, -, paddr, vm, hall, rfl⟩ := asInit_inv h
  · exact absurd rfl he
  · obtain ⟨g, -, -, -, -, hready, -⟩ := pmemCall_alloc hr hall
    rw [Vm.withKernel_pm]
    exact hready

/-- A new address space has an empty top-level table but for the kernel's entry. -/
theorem asInit_ok {s s1 : Spaces} {dst : ℕ} {cached : Bool} (hr : s.vm.pm.Ready) (hk : dst ≠ kas)
    (hkern : (s.space kas).vpmap ∉ freePages s.vm.pm) (h : asInit dst cached s = .ok (.ok, s1)) :
    ∃ g ∈ freePages s.vm.pm, g ∉ freePages s1.vm.pm ∧ s1.vm.pm.Ready ∧
      freePages s1.vm.pm ⊆ freePages s.vm.pm ∧ s1.region = s.region ∧ s1.cache = s.cache ∧
      s1.space = update s.space dst ⟨[], g, none⟩ ∧ (∀ f, f ≠ g → s1.vm.mem f = s.vm.mem f)
      ∧ (∀ j, j ≠ kernelIdx → s1.vm.mem g j = 0) ∧
      s1.vm.mem g kernelIdx = if present (s.vm.mem (s.space kas).vpmap kernelIdx) then
          s.vm.mem (s.space kas).vpmap kernelIdx else 0 := by
  obtain ⟨he, -⟩ | ⟨-, -, paddr, vm, hall, rfl⟩ := asInit_inv h
  · exact absurd rfl he
  obtain ⟨g, rfl, -, hg, hout, hready, hsub, hmem⟩ := pmemCall_alloc hr hall
  have hkg : (s.space kas).vpmap ≠ g := fun h => hkern (h ▸ hg)
  simp only [mul_pgSize_div, update_of_ne hk.symm, Vm.withKernel_pm, Vm.withKernel_mem,
    Vm.zeroPage, hmem, if_neg hkg]
  refine ⟨g, hg, hout, hready, hsub, trivial, trivial, rfl, fun f hf => funext fun j =>
    ?_, fun j hj => ?_, ?_⟩
  · rw [Vm.withKernel_mem]
    simp [hf]
  · simp [hj]
  · simp

section

variable {s s' : Vm} {g k : ℕ}
  (hkern : s'.mem g kernelIdx = if present (s.mem k kernelIdx) then s.mem k kernelIdx else 0)

include hkern

theorem slot_withKernel : slot s'.mem g kernelIdx = slot s.mem k kernelIdx := by
  rw [slot, slot, tableChild, tableChild, hkern]
  by_cases hp : present (s.mem k kernelIdx) = true
  · rw [if_pos hp]
  · rw [if_neg hp, if_neg hp]
    rfl

/-- A new top-level table leads nowhere but to the kernel's tables. -/
theorem reach_withKernel (hzero : ∀ j, j ≠ kernelIdx → s'.mem g j = 0)
    (hmem : ∀ π f, π.length ≤ 3 → reach s.mem k π = some f → s'.mem f = s.mem f) {ρ : List ℕ}
    {f : ℕ} (hρ : ρ.length ≤ 3) (hf : reach s'.mem g ρ = some f) : (ρ = [] ∧ f = g)
    ∨ (ρ.head? = some kernelIdx ∧ reach s.mem k ρ = some f) := by
  cases ρ with
  | nil => exact .inl ⟨rfl, (Option.some.inj hf).symm⟩
  | cons i ρ =>
    by_cases hi : i = kernelIdx
    · subst hi
      refine .inr ⟨rfl, ?_⟩
      have hk : slot s'.mem k kernelIdx = slot s.mem k kernelIdx :=
        slot_congr (by rw [hmem [] k (by simp) rfl])
      rw [← reach_congr (fun σ f hσ h => hmem σ f (by omega) h) hρ]
      rw [reach, Nodes.follow_cons, slot_withKernel hkern, ← hk] at hf
      exact hf
    · rw [reach_cons_of_zero (hzero i hi)] at hf
      cases hf

end

/-! ## The source -/

/-- A page-aligned address of a region. -/
def MemRegion.HasPage (mr : MemRegion) (v : ℕ) : Prop := pgSize ∣ v ∧ mr.start ≤ v ∧ v < mr.fin

/-- An address space as the kernel keeps them: its tables and the pages it maps are allocated, no
page it maps is one of its tables, its kernel entry is the kernel's, its regions are live and lie in
user space, and a page of a region has a present entry or none.  The allocator may be in any state
between two calls. -/
structure SourceSpace (s : Spaces) (src : ℕ) : Prop where
  ready : s.vm.pm.Ready
  kernel_used : (s.space kas).vpmap ∉ freePages s.vm.pm
  tables : ∀ π f, π.length ≤ 3 → reach s.vm.mem (s.space src).vpmap π = some f →
    f ∉ freePages s.vm.pm
  pages : ∀ p f, UserPath (pagePath p) → reach s.vm.mem (s.space src).vpmap (pagePath p) = some f →
    f ∉ freePages s.vm.pm ∧ ∀ π, π.length ≤ 3 → reach s.vm.mem (s.space src).vpmap π ≠ some f
  kernel : s.vm.mem (s.space src).vpmap kernelIdx =
    if present (s.vm.mem (s.space kas).vpmap kernelIdx) then
      s.vm.mem (s.space kas).vpmap kernelIdx else 0
  entries : ∀ r ∈ (s.space src).regions, ∀ v, (s.region r).HasPage v →
    (present (entryOf s.vm.mem (s.space src).vpmap (pageOf v)) = true ↔
      entryAddr (entryOf s.vm.mem (s.space src).vpmap (pageOf v)) ≠ 0)
  cache : s.cache.Ok
  nodup : (s.space src).regions.Nodup
  inUse : ∀ r ∈ (s.space src).regions, s.InUse r
  as : ∀ r ∈ (s.space src).regions, (s.region r).as = src
  user : ∀ r ∈ (s.space src).regions, (s.region r).User
  heap : ∀ h, (s.space src).heap = some h → h ∈ (s.space src).regions

section Source

variable {s s1 : Spaces} {src dst : ℕ} {cached : Bool}

theorem SourceSpace.asInit (S : SourceSpace s src) (hne : src ≠ dst) (hk : dst ≠ kas)
    (h : Osv.asInit dst cached s = .ok (.ok, s1)) :
    Forkable s1 src dst ∧ Forking s1 src dst [] id s1 ∧
      (∀ p f, UserPath (pagePath p) → reach s1.vm.mem (s1.space src).vpmap (pagePath p) = some f →
        ∀ π, π.length ≤ 3 → reach s1.vm.mem (s1.space src).vpmap π ≠ some f) ∧
      ∀ h, (s1.space src).heap = some h → h ∈ (s1.space src).regions := by
  obtain ⟨g, hg, hgu, hr1, hsub, hreg, hcache, hspace, hmem, hzero, hkern⟩ :=
    asInit_ok S.ready hk S.kernel_used h
  have hsrc : s1.space src = s.space src := by rw [hspace, update_of_ne hne]
  have hdst : s1.space dst = ⟨[], g, none⟩ := by rw [hspace, update_self]
  have hin : ∀ x, s1.InUse x ↔ s.InUse x := fun x => by rw [Spaces.InUse, hcache, Spaces.InUse]
  have htab : ∀ π f, π.length ≤ 3 → reach s.vm.mem (s.space src).vpmap π = some f →
      s1.vm.mem f = s.vm.mem f :=
    fun π f hl hf => hmem f fun he => S.tables π f hl hf (he ▸ hg)
  have hreach : ∀ π, π.length ≤ 4 →
      reach s1.vm.mem (s.space src).vpmap π = reach s.vm.mem (s.space src).vpmap π :=
    fun π hπ => reach_congr (fun σ f hσ hf => htab σ f (by omega) hf) hπ
  have hentry := entryOf_congr htab
  have hempty : ∀ π f, UserPath π → reach s1.vm.mem g π ≠ some f := by
    intro π f hu hf
    cases π with
    | nil => exact hu
    | cons i π =>
      rw [reach_cons_of_zero (hzero i hu)] at hf
      cases hf
  refine ⟨⟨⟨hr1, ?_, ?_, ?_, ?_⟩, hcache ▸ S.cache, hne, ?_, ?_, ?_, ?_, ?_⟩,
    ⟨⟨hr1, subset_rfl, fun _ _ _ => rfl, rfl, ?_, ?_, ?_⟩, hcache ▸ S.cache, fun _ _ => rfl, rfl,
      fun _ h => h, fun _ _ => rfl, ?_, by simp, by simp, by simp, ?_, by simp⟩, ?_, ?_⟩
  · rw [hdst]; exact hgu
  · intro π f hl hf
    rw [hsrc, hreach π (by omega)] at hf
    rw [hdst]
    have hnf := S.tables π f hl hf
    exact ⟨fun h => hnf (hsub h), fun h => hnf (h ▸ hg)⟩
  · intro p f hu hf
    rw [hsrc, hreach _ (pagePath_length p).le] at hf
    rw [hdst]
    have hnf := (S.pages p f hu hf).1
    exact ⟨fun h => hnf (hsub h), fun h => hnf (h ▸ hg)⟩
  · have hroot : (s.space src).vpmap ≠ g := fun h => S.tables [] _ (by simp) rfl (h ▸ hg)
    rw [hdst, hsrc, hmem _ hroot, hkern, S.kernel]
  · rw [hsrc]; exact S.nodup
  · intro r hr
    rw [hsrc] at hr
    exact (hin r).mpr (S.inUse r hr)
  · intro r hr
    rw [hsrc] at hr
    rw [hreg]; exact S.as r hr
  · intro r hr
    rw [hsrc] at hr
    rw [hreg]; exact S.user r hr
  · intro r hr i hi
    rw [hsrc] at hr ⊢
    rw [hreg] at hi ⊢
    rw [hentry]
    exact S.entries r hr _ ((S.user r hr).page_iff.mpr ⟨i, hi, rfl⟩)
  · intro π f hu _ hf
    rw [hdst] at hf
    exact absurd hf (hempty π f hu)
  · intro π ρ f hu _ _ _ hf
    rw [hdst] at hf
    exact absurd hf (hempty π f hu)
  · intro p f hu hf
    rw [hdst] at hf
    exact absurd hf (hempty _ f hu)
  · rw [hdst]; exact List.Perm.refl _
  · rw [hdst]
    cases (s1.space src).heap with
    | none => rfl
    | some x => simp [Option.filter]
  · intro p f hu hf π hπ hf'
    rw [hsrc, hreach _ (pagePath_length p).le] at hf
    rw [hsrc, hreach π (by omega)] at hf'
    exact (S.pages p f hu hf).2 π hπ hf'
  · rw [hsrc]; exact S.heap

end Source

/-! ## Loads and stores of two address spaces -/

/-- The word a user program reads. -/
def userLoad (s : Vm) (r v j : ℕ) : Option ℕ :=
  (reach s.mem r (pagePath (pageOf v))).map fun f => s.mem f j

/-- A store of a user program, of the parent or of the child. -/
structure UserStore where
  child : Bool
  addr : ℕ
  word : ℕ
  value : ℕ

/-- A store through the page tables. -/
def userStore (root : Bool → ℕ) (s : Vm) (op : UserStore) : Vm :=
  match reach s.mem (root op.child) (pagePath (pageOf op.addr)) with
  | none => s
  | some f => s.setWord f op.word op.value

/-- The stores of both sides, in any order. -/
def userStores (root : Bool → ℕ) (s : Vm) (ops : List UserStore) : Vm :=
  ops.foldl (userStore root) s

/-- The pages that one side has mapped at the addresses `P`. -/
def mappedPages (s : Vm) (root : Bool → ℕ) (P : Set ℕ) (c : Bool) : Set ℕ :=
  { f | ∃ v ∈ P, reach s.mem (root c) (pagePath (pageOf v)) = some f }

/-- Two address spaces whose pages at the addresses `P` are apart, and are no tables. -/
structure Isolated (s : Vm) (root : Bool → ℕ) (P : Set ℕ) : Prop where
  tables : ∀ b π f, π.length ≤ 3 → reach s.mem (root b) π = some f → ∀ c, f ∉ mappedPages s root P c
  apart : ∀ b f, f ∈ mappedPages s root P b → f ∉ mappedPages s root P (!b)

namespace Isolated

variable {s t t' : Vm} {root : Bool → ℕ} {P : Set ℕ}

/-- Nothing but the mapped pages has changed. -/
def Agrees (s : Vm) (root : Bool → ℕ) (P : Set ℕ) (t : Vm) : Prop :=
  ∀ f, (∀ c, f ∉ mappedPages s root P c) → t.mem f = s.mem f

section

variable (I : Isolated s root P) (h : Agrees s root P t)

include I h

theorem reach_eq (b : Bool) {π : List ℕ} (hπ : π.length ≤ 4) :
    reach t.mem (root b) π = reach s.mem (root b) π := by
  refine Nodes.follow_congr fun ρ i f hpre hf => slot_congr ?_
  have hlen := hpre.length_le
  rw [Nodes.length_snoc] at hlen
  rw [h f (I.tables b ρ f (by omega) hf)]

theorem store_cases {op : UserStore} (hop : op.addr ∈ P) : userStore root t op = t ∨
      ∃ f ∈ mappedPages s root P op.child, reach s.mem (root op.child) (pagePath (pageOf op.addr)) =
        some f ∧ userStore root t op = t.setWord f op.word op.value := by
  rw [userStore, I.reach_eq h op.child (pagePath_length _).le]
  cases hf : reach s.mem (root op.child) (pagePath (pageOf op.addr)) with
  | none => exact .inl rfl
  | some f => exact .inr ⟨f, ⟨op.addr, hop, hf⟩, rfl, rfl⟩

theorem agrees_store {op : UserStore} (hop : op.addr ∈ P) :
    Agrees s root P (userStore root t op) := by
  intro f hf
  rcases I.store_cases h hop with he | ⟨g, hg, -, he⟩
  · rw [he, h f hf]
  · have hne : f ≠ g := fun hfg => hf op.child (hfg ▸ hg)
    rw [he, ← h f hf]
    exact funext fun j => if_neg fun hc => hne hc.1

/-- Two states that look the same to side `b` still do after a store, if it is left out on the
right when the other side makes it. -/
theorem same_store (h' : Agrees s root P t') {b : Bool}
    (hsame : ∀ f, f ∉ mappedPages s root P (!b) → t.mem f = t'.mem f) {op : UserStore}
    (hop : op.addr ∈ P) : ∀ f, f ∉ mappedPages s root P (!b) →
      (userStore root t op).mem f = (if op.child = b then userStore root t' op else t').mem f := by
  intro f hf
  rcases Decidable.em (op.child = b) with hb | hb
  · rw [if_pos hb, userStore, userStore, I.reach_eq h op.child (pagePath_length _).le,
      I.reach_eq h' op.child (pagePath_length _).le]
    cases reach s.mem (root op.child) (pagePath (pageOf op.addr)) with
    | none => exact hsame f hf
    | some g =>
      funext j
      simp only [Vm.setWord, hsame f hf]
  · rw [if_neg hb]
    rcases I.store_cases h hop with he | ⟨g, hg, -, he⟩
    · rw [he, hsame f hf]
    · have hne : f ≠ g := by
        rintro rfl
        rw [Bool.eq_not_of_ne hb] at hg
        exact hf hg
      rw [he, ← hsame f hf]
      exact funext fun j => if_neg fun hc => hne hc.1

end

theorem load_stores (I : Isolated s root P) (b : Bool) {ops : List UserStore}
    (hops : ∀ op ∈ ops, op.addr ∈ P) {v : ℕ} (hv : v ∈ P) (j : ℕ) :
    userLoad (userStores root s ops) (root b) v j =
      userLoad (userStores root s (ops.filter (·.child = b))) (root b) v j := by
  have run : ∀ (ops : List UserStore) (t t' : Vm), (∀ op ∈ ops, op.addr ∈ P) →
      Agrees s root P t → Agrees s root P t' →
      (∀ f, f ∉ mappedPages s root P (!b) → t.mem f = t'.mem f) →
      userLoad (userStores root t ops) (root b) v j =
        userLoad (userStores root t' (ops.filter (·.child = b))) (root b) v j := by
    intro ops
    induction ops with
    | nil =>
      intro t t' _ h h' hsame
      rw [userStores, List.foldl_nil, List.filter_nil, userStores, List.foldl_nil, userLoad,
        userLoad, I.reach_eq h b (pagePath_length _).le, I.reach_eq h' b (pagePath_length _).le]
      cases hf : reach s.mem (root b) (pagePath (pageOf v)) with
      | none => rfl
      | some f =>
        have hfb : f ∉ mappedPages s root P (!b) := I.apart b f ⟨v, hv, hf⟩
        rw [Option.map_some, Option.map_some, hsame f hfb]
    | cons op ops ih =>
      intro t t' hops h h' hsame
      have hop := hops op (by simp)
      have hstep := I.same_store h h' hsame hop
      have hrest : ∀ o ∈ ops, o.addr ∈ P := fun o ho => hops o (by simp [ho])
      rw [List.filter_cons, userStores, List.foldl_cons]
      by_cases hb : op.child = b
      · rw [if_pos (by simpa using hb), userStores, List.foldl_cons]
        rw [if_pos hb] at hstep
        exact ih _ _ hrest (I.agrees_store h hop) (I.agrees_store h' hop) hstep
      · rw [if_neg (by simpa using hb)]
        rw [if_neg hb] at hstep
        exact ih _ _ hrest (I.agrees_store h hop) h' hstep
  exact run ops s s hops (fun _ _ => rfl) (fun _ _ => rfl) (fun _ _ => rfl)

end Isolated

/-! ## The copy -/

/-- The page-aligned addresses of the regions of an address space. -/
def Spaces.regionPages (s : Spaces) (a : ℕ) : Set ℕ :=
  { v | ∃ r ∈ (s.space a).regions, (s.region r).HasPage v }

/-- The top-level tables of the source and, for the child, of the destination. -/
def Spaces.roots (s : Spaces) (src dst : ℕ) (child : Bool) : ℕ :=
  (s.space (if child then dst else src)).vpmap

/-- After the call, `dst` has an exact copy of what `src` had before it, and the two are isolated.
-/
structure IsCopy (s1 s2 : Spaces) (src dst : ℕ) : Prop where
  /-- One region for each region of the source, with its fields, and the heap pointer follows. -/
  regions : ∃ c : ℕ → ℕ, (∀ r ∈ (s1.space src).regions, ∀ r' ∈ (s1.space src).regions,
      c r = c r' → r = r') ∧ (s2.space dst).regions.Perm ((s1.space src).regions.map c) ∧
    (∀ r ∈ (s1.space src).regions, s2.region (c r) = { s1.region r with as := dst }) ∧
    (s2.space dst).heap = (s1.space src).heap.map c
  /-- A page of a region is mapped exactly when it is mapped in the source. -/
  mapped : ∀ v ∈ s1.regionPages src,
    (present (entryOf s2.vm.mem (s2.space dst).vpmap (pageOf v)) = true ↔
      present (entryOf s1.vm.mem (s1.space src).vpmap (pageOf v)) = true)
  /-- It is mapped to a page that this call allocated, with the same bytes and the region's
  permission. -/
  copied : ∀ r ∈ (s1.space src).regions, ∀ v, (s1.region r).HasPage v →
    present (entryOf s1.vm.mem (s1.space src).vpmap (pageOf v)) = true →
    ∃ f, entryOf s2.vm.mem (s2.space dst).vpmap (pageOf v) =
        mkPte (f * pgSize) (mempermToPteperm (s1.region r).perm) ∧
      reach s2.vm.mem (s2.space dst).vpmap (pagePath (pageOf v)) = some f ∧
      f ∈ freePages s1.vm.pm ∧ f ∉ freePages s2.vm.pm ∧
      s2.vm.mem f = s1.vm.mem (entryFrame (entryOf s1.vm.mem (s1.space src).vpmap (pageOf v)))
  /-- The pages of the copy are no pages of the source. -/
  fresh : ∀ v ∈ s1.regionPages src, ∀ u ∈ s1.regionPages src, ∀ f g,
    reach s2.vm.mem (s2.space dst).vpmap (pagePath (pageOf v)) = some f →
    reach s1.vm.mem (s1.space src).vpmap (pagePath (pageOf u)) = some g → f ≠ g
  /-- Different addresses have different pages. -/
  distinct : ∀ v ∈ s1.regionPages src, ∀ u ∈ s1.regionPages src, ∀ f,
    reach s2.vm.mem (s2.space dst).vpmap (pagePath (pageOf v)) = some f →
    reach s2.vm.mem (s2.space dst).vpmap (pagePath (pageOf u)) = some f → pageOf v = pageOf u
  /-- The source is as it was. -/
  source : s2.space src = s1.space src ∧
    (∀ r ∈ (s1.space src).regions, s2.region r = s1.region r) ∧
    (∀ p, entryOf s2.vm.mem (s1.space src).vpmap p = entryOf s1.vm.mem (s1.space src).vpmap p) ∧
    ∀ v ∈ s1.regionPages src, ∀ f,
      reach s1.vm.mem (s1.space src).vpmap (pagePath (pageOf v)) = some f →
      s2.vm.mem f = s1.vm.mem f
  /-- Later stores of one side, in any order with those of the other, are not seen by the other. -/
  isolated : ∀ ops : List UserStore, (∀ op ∈ ops, op.addr ∈ s1.regionPages src) →
    ∀ b, ∀ v ∈ s1.regionPages src, ∀ j,
      userLoad (userStores (s2.roots src dst) s2.vm ops) (s2.roots src dst b) v j =
        userLoad (userStores (s2.roots src dst) s2.vm (ops.filter (·.child = b)))
          (s2.roots src dst b) v j

section Final

variable {s1 s2 : Spaces} {src dst : ℕ} {c : ℕ → ℕ}

/-- A mapped page of a region of the source is a user page, and is mapped in the copy. -/
theorem Forking.page (F : Forkable s1 src dst) (K : Forking s1 src dst (s1.space src).regions c s2)
    {r v : ℕ} (hr : r ∈ (s1.space src).regions) (hv : (s1.region r).HasPage v)
    (hpres : present (entryOf s1.vm.mem (s1.space src).vpmap (pageOf v)) = true) :
    UserPath (pagePath (pageOf v)) ∧ ∃ f < 2 ^ 39, entryOf s2.vm.mem
      (s1.space dst).vpmap (pageOf v) = mkPte (f * pgSize) (mempermToPteperm (s1.region r).perm) ∧
      reach s2.vm.mem (s1.space dst).vpmap (pagePath (pageOf v)) = some f := by
  obtain ⟨i, hi, hvi⟩ := (F.user r hr).page_iff.mp hv
  obtain ⟨hu, f, hf, he⟩ := K.pages r hr i hi (pageOf v) (by rw [← hvi]) hpres
  refine ⟨hu, f, hf, he, reach_eq_some.mpr ⟨?_, ?_⟩⟩
  · rw [he]; exact present_mkPte hf (mempermToPteperm_lt _)
  · rw [he]; exact entryFrame_mkPte hf (mempermToPteperm_lt _)

theorem Grown.entryOf_kernel {s0 s : Vm} {src d p : ℕ} (H : Source s0 src d) (G : Grown s0 src d s)
    (hp : ¬ UserPath (pagePath p)) : entryOf s.mem d p = entryOf s0.mem src p := by
  have hidx : pageDir p = kernelIdx :: (pageDir p).tail := by
    have h : p / 2 ^ 27 % nPtePerPg = kernelIdx := not_not.mp hp
    rw [pageDir, h]
    rfl
  have hdir : reach s.mem d (pageDir p) = reach s0.mem src (pageDir p) := by
    rw [hidx]
    exact G.reach_kernel H (by simp [pageDir])
  exact entryOf_reach_congr hdir fun t ht =>
    congrFun (G.same_used (H.tables _ t (pageDir_length p).le ht)) _

section

variable (F : Forkable s1 src dst) (K : Forking s1 src dst (s1.space src).regions c s2)

include F K

theorem Forking.mapped_iff {v : ℕ} (hv : v ∈ s1.regionPages src) :
    present (entryOf s2.vm.mem (s1.space dst).vpmap (pageOf v)) = true ↔
      present (entryOf s1.vm.mem (s1.space src).vpmap (pageOf v)) = true := by
  obtain ⟨r, hr, hv⟩ := hv
  constructor
  · intro h
    by_cases hu : UserPath (pagePath (pageOf v))
    · obtain ⟨g, hg, -⟩ := K.grown.copies _ _ hu (reach_eq_some.mpr ⟨h, rfl⟩)
      exact (reach_eq_some.mp hg).1
    · rwa [K.grown.entryOf_kernel F.source hu] at h
  · intro h
    obtain ⟨-, f, -, -, hf⟩ := K.page F hr hv h
    exact (reach_eq_some.mp hf).1

theorem Forking.copy_page {v f : ℕ} (hv : v ∈ s1.regionPages src)
    (hf : reach s2.vm.mem (s1.space dst).vpmap (pagePath (pageOf v)) = some f) :
    UserPath (pagePath (pageOf v)) ∧ f ∈ taken s1.vm s2.vm := by
  have hpres := (K.mapped_iff F hv).mp (reach_eq_some.mp hf).1
  obtain ⟨r, hr, hv⟩ := hv
  obtain ⟨hu, -⟩ := K.page F hr hv hpres
  exact ⟨hu, K.grown.owned _ f hu (pagePath_length _).le hf⟩

theorem Forking.source_page {v f : ℕ} (hv : v ∈ s1.regionPages src)
    (hf : reach s1.vm.mem (s1.space src).vpmap (pagePath (pageOf v)) = some f) :
    UserPath (pagePath (pageOf v)) ∧ f ∉ freePages s1.vm.pm ∧ f ≠ (s1.space dst).vpmap := by
  obtain ⟨r, hr, hv⟩ := hv
  obtain ⟨hu, -⟩ := K.page F hr hv (reach_eq_some.mp hf).1
  exact ⟨hu, F.source.pages _ f hu hf⟩

theorem Forking.isolated (hdata : ∀ p f, UserPath (pagePath p) →
      reach s1.vm.mem (s1.space src).vpmap (pagePath p) = some f →
      ∀ π, π.length ≤ 3 → reach s1.vm.mem (s1.space src).vpmap π ≠ some f) :
    Isolated s2.vm (s2.roots src dst) (s1.regionPages src) := by
  have hroot : s2.roots src dst false = (s1.space src).vpmap := by
    rw [Spaces.roots, if_neg (by simp), K.spaces src F.ne]
  have hdroot : s2.roots src dst true = (s1.space dst).vpmap := by
    rw [Spaces.roots, if_pos rfl, K.vpmap]
  have hsrc : ∀ {π : List ℕ}, π.length ≤ 4 → reach s2.vm.mem (s1.space src).vpmap π =
      reach s1.vm.mem (s1.space src).vpmap π := fun h => K.grown.reach_src F.source h
  have hparent : ∀ f, f ∈ mappedPages s2.vm (s2.roots src dst) (s1.regionPages src) false →
      (∀ π, π.length ≤ 3 → reach s1.vm.mem (s1.space src).vpmap π ≠ some f) ∧
        f ∉ freePages s1.vm.pm ∧ f ≠ (s1.space dst).vpmap := by
    rintro f ⟨v, hv, hf⟩
    rw [hroot, hsrc (pagePath_length _).le] at hf
    obtain ⟨hu, hused⟩ := K.source_page F hv hf
    exact ⟨hdata _ f hu hf, hused⟩
  have hchild : ∀ f, f ∈ mappedPages s2.vm (s2.roots src dst) (s1.regionPages src) true →
      ∃ v, UserPath (pagePath v) ∧
        reach s2.vm.mem (s1.space dst).vpmap (pagePath v) = some f ∧ f ∈ taken s1.vm s2.vm := by
    rintro f ⟨v, hv, hf⟩
    rw [hdroot] at hf
    obtain ⟨hu, ht⟩ := K.copy_page F hv hf
    exact ⟨pageOf v, hu, hf, ht⟩
  constructor
  · intro b π f hπ hf d hd
    cases b with
    | false =>
      rw [hroot, hsrc (by omega)] at hf
      cases d with
      | false => exact (hparent f hd).1 π hπ hf
      | true =>
        obtain ⟨-, -, -, ht⟩ := hchild f hd
        exact (F.source.tables π f hπ hf).1 ht.1
    | true =>
      rw [hdroot] at hf
      cases d with
      | false =>
        obtain ⟨hnot, hfree, hne⟩ := hparent f hd
        cases π with
        | nil => exact hne (Option.some.inj hf).symm
        | cons i ρ =>
          by_cases hi : i = kernelIdx
          · subst hi
            rw [List.length_cons] at hπ
            rw [K.grown.reach_kernel F.source (by omega)] at hf
            exact hnot _ (by rw [List.length_cons]; omega) hf
          · exact hfree (K.grown.owned (i :: ρ) f hi (by omega) hf).1
      | true =>
        obtain ⟨p, hu, hp, ht⟩ := hchild f hd
        rcases K.grown.reach_cases F.source hπ hf with ⟨rfl, rfl⟩ | ⟨hπu, -⟩ | ⟨hfree, -⟩
        · exact F.source.dst_used ht.1
        · have := K.grown.inj _ _ f hu hπu (pagePath_length p).le (by omega) hp hf
          rw [← this, pagePath_length] at hπ
          omega
        · exact hfree ht.1
  · intro b f hf hf'
    cases b with
    | false =>
      obtain ⟨-, -, -, ht⟩ := hchild f hf'
      exact (hparent f hf).2.1 ht.1
    | true =>
      obtain ⟨-, -, -, ht⟩ := hchild f hf
      exact (hparent f hf').2.1 ht.1

end

end Final

/-- Copying an address space to one that was just set up copies it exactly and in isolation. -/
theorem asCopyAs_copies {s0 s1 s2 : Spaces} {src dst : ℕ} {cached : Bool} (S : SourceSpace s0 src)
    (hk : dst ≠ kas) (hinit : asInit dst cached s0 = .ok (.ok, s1))
    (hcopy : asCopyAs src dst s1 = .ok (.ok, s2)) : IsCopy s1 s2 src dst := by
  rw [asCopyAs, kassert_bind_ok] at hcopy
  obtain ⟨hne, hcopy⟩ := hcopy
  obtain ⟨F, K0, hdata, hheap⟩ := S.asInit (by simpa using hne) hk hinit
  rw [read_bind] at hcopy
  obtain ⟨c, K, -⟩ := asCopyLoop_ok F (by rfl) K0 hcopy
  have hroot : (s2.space dst).vpmap = (s1.space dst).vpmap := K.vpmap
  refine ⟨⟨c, K.inj, K.perm, K.copy, ?_⟩, ?_, ?_, ?_, ?_, ⟨?_, ?_, ?_, ?_⟩, ?_⟩
  · rw [K.heap]
    cases hh : (s1.space src).heap with
    | none => rfl
    | some x => simp [Option.filter, hheap x hh]
  · intro v hv
    rw [hroot]
    exact K.mapped_iff F hv
  · intro r hr v hv hpres
    obtain ⟨hu, f, -, he, hf⟩ := K.page F hr hv hpres
    obtain ⟨hin, hout⟩ := K.grown.owned _ f hu (pagePath_length _).le hf
    obtain ⟨g, hg, hmem⟩ := K.grown.copies _ f hu hf
    rw [hroot]
    refine ⟨f, he, hf, hin, hout, ?_⟩
    rw [hmem, (reach_eq_some.mp hg).2]
  · intro v hv u hu f g hf hg hfg
    rw [hroot] at hf
    exact (K.source_page F hu hg).2.1 (hfg ▸ (K.copy_page F hv hf).2.1)
  · intro v hv u hu f hf hg
    rw [hroot] at hf hg
    exact pagePath_inj (pageOf_lt v) (pageOf_lt u) (K.grown.inj _ _ f (K.copy_page F hv hf).1
      (K.copy_page F hu hg).1 (pagePath_length _).le (pagePath_length _).le hf hg)
  · exact K.spaces src F.ne
  · exact fun r hr => K.region r (F.inUse r hr)
  · exact fun p => K.grown.entryOf_src F.source p
  · intro v hv f hf
    exact K.grown.same_used (K.source_page F hv hf).2
  · intro ops hops b v hv j
    exact (K.isolated F hdata).load_stores b hops hv j

/-! ## A small fork -/

/-- Allocate a page. -/
def World.take (w : World) : World :=
  w.obtained ((pmemNalloc 1).final w.pm) (((pmemNalloc 1).result w.pm).getD none)

theorem World.Reachable.take {w : World} (h : w.Reachable) : w.take.Reachable := by
  obtain ⟨r, s', hrun, -⟩ := h.ready.pmemNalloc (n := 1) le_rfl (by decide)
  have hres : (pmemNalloc 1).result w.pm = some r := by rw [Prog.result, hrun]
  obtain ⟨s, hs, hsteps⟩ := h
  refine ⟨s, hs, hsteps.tail ⟨.nalloc 1, ⟨le_rfl, by decide⟩, trivial, ?_⟩⟩
  rw [World.exec_nalloc hres, World.take, hres]
  rfl

theorem World.Reachable.live_used {w : World} (h : w.Reachable) {f : ℕ} (hf : f ∈ w.live) :
    f ∉ freePages w.pm := by
  obtain ⟨s, hs, hsteps⟩ := h
  obtain ⟨N, T, I⟩ := Inv.run hs hsteps
  obtain ⟨k, hk⟩ := I.buddy.live.mp hf
  exact I.buddy.not_free hk (Dyadic.head_mem k f) (by simp)

/-- One reserved page and 23 managed pages. -/
def mediumConfig : PmemConfig where
  pmemStart := 4096
  pmemEnd := 24 * 4096
  start_pos := smallConfig.start_pos
  pages_lt := by decide

/-- That machine at the end of `pmem_init`. -/
@[irreducible] def mediumStart : Pmem :=
  pmemInit.final (pmemBootInit.final { smallBlank with config := mediumConfig })

theorem mediumStart_started : Started mediumStart := by
  refine ⟨{ smallBlank with config := mediumConfig }, _, _, run_of_result
    (by decide +kernel), .refl, ?_⟩
  rw [mediumStart]
  exact run_of_result (by decide +kernel)

/-- Five pages are allocated: 1, 3, 4, 5 and 6. -/
@[irreducible] def mediumWorld : World := (World.start mediumStart).take.take.take.take.take

theorem mediumWorld_reachable : mediumWorld.Reachable := by
  have h0 : (World.start mediumStart).Reachable := ⟨mediumStart, mediumStart_started, .refl⟩
  rw [mediumWorld]
  exact h0.take.take.take.take.take

/-- The tables 1, 3, 4 and 5 map page 1 of the address space to page 6, which holds a word. -/
def forkMem (f i : ℕ) : ℕ :=
  if f = 1 ∧ i = 0 then 3 * pgSize + 7
  else if f = 3 ∧ i = 0 then 4 * pgSize + 7
  else if f = 4 ∧ i = 0 then 5 * pgSize + 7
  else if f = 5 ∧ i = 1 then 6 * pgSize + 7
  else if f = 6 ∧ i = 0 then 42
  else 0

/-- A process with one region of one page, which is its heap. -/
def forkParent : Spaces where
  vm := ⟨forkMem, mediumWorld.pm⟩
  region _ := ⟨1, pgSize, 2 * pgSize, .urw, 0, 0, 0⟩
  cache := ⟨[1, 2, 3], 4⟩
  space a := if a = 1 then ⟨[0], 1, some 0⟩ else ⟨[], 0, none⟩

/-- The walks to its tables and to its page. -/
def forkWalks : List (List ℕ × ℕ) :=
  [([], 1), ([0], 3), ([0, 0], 4), ([0, 0, 0], 5), ([0, 0, 0, 1], 6)]

theorem forkMem_reach {π : List ℕ} {f : ℕ} (h : reach forkMem 1 π = some f) : (π, f) ∈ forkWalks :=
  reach_mem h (by decide) (by decide +kernel)

theorem forkParent_source : SourceSpace forkParent 1 := by
  have hlive : ∀ x ∈ forkWalks, x.2 ∈ mediumWorld.live := by decide +kernel
  have hpage : ∀ x ∈ forkWalks, x.1.length = 4 ↔ x.2 = 6 := by decide
  have hregion : ∀ r ∈ (forkParent.space 1).regions, r = 0 := by decide
  have hused : ∀ {π f}, reach forkMem 1 π = some f → f ∉ freePages mediumWorld.pm := fun h =>
    mediumWorld_reachable.live_used (hlive _ (forkMem_reach h))
  refine ⟨mediumWorld_reachable.ready, mediumWorld_reachable.ready.zero_not_free,
    fun π f _ hf => hused hf, fun p f _ hf => ⟨hused hf, fun π hπ hf' => ?_⟩, by decide, ?_,
    ⟨by decide, by decide⟩, by decide, ?_, fun r _ => rfl, ?_, by decide⟩
  · have h6 := (hpage _ (forkMem_reach hf)).mp (pagePath_length p)
    have h4 : π.length = 4 := (hpage _ (forkMem_reach hf')).mpr h6
    omega
  · rintro r - v ⟨⟨k, rfl⟩, h1, h2⟩
    have hk : k = 1 := by
      simp only [forkParent, pgSize] at h1 h2
      omega
    subst hk
    decide
  · intro r hr
    rw [hregion r hr]
    exact ⟨by decide, by decide⟩
  · intro r hr
    rw [hregion r hr]
    exact ⟨by decide, by decide, by decide⟩

/-- The process is copied: its page is mapped in the copy, and holds the same word. -/
theorem asCopyAs_copies_parent : ∃ s1 s2, asInit 2 true forkParent = .ok (.ok, s1) ∧
    asCopyAs 1 2 s1 = .ok (.ok, s2) ∧ IsCopy s1 s2 1 2 ∧
    userLoad s2.vm (s2.space 2).vpmap pgSize 0 = some 42 := by
  have hinit : asInit 2 true forkParent = .ok (.ok, (asInit 2 true).final forkParent) :=
    run_of_result (by decide +kernel)
  have hcopy : asCopyAs 1 2 ((asInit 2 true).final forkParent) =
      .ok (.ok, (asCopyAs 1 2).final ((asInit 2 true).final forkParent)) :=
    run_of_result (by decide +kernel)
  exact ⟨_, _, hinit, hcopy, asCopyAs_copies forkParent_source (by decide) hinit hcopy,
    by decide +kernel⟩

end Osv
