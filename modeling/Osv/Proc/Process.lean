import Osv.Fs.Refs
import Osv.Vm.Destroy

/-!
# Making a process

The functions of `kernel/proc.c` that make a process, on the virtual memory, the file
system and the caches of objects together: `proc_init`, and `thread_create` of
`kernel/thread.c`.

Objects come from caches, which take blocks of pages from the allocator and never give
them back (`kernel/mm/kmalloc.c`).  The caches of regions, processes, page tables and
threads are modelled; those of the file system and its page cache are seen as the
blocks that they take in a call.  There is no run of a call for which the allocator
does not have these blocks.

A `struct proc` has its address space in it, so the address space of the process in
slot `p` is number `p + 1`, after the kernel's.  Locks are left out.
-/

namespace Osv

open Function (update update_self update_of_ne)
open Prog (bind_ok keeps_bind keeps_pure keeps_read keeps_update read_bind update_bind_ok zoom_ok)

/-! ## State -/

/-- `MIN_OBJS_PER_SLAB`. -/
def minObjsPerSlab : ℕ := 128

/-- The caches of objects, besides the one of regions. -/
inductive ObjKind where
  | proc
  | vpmap
  | thread
deriving DecidableEq

namespace ObjKind

/-- The size of an object: of a `struct proc`, a `struct vpmap` and a `struct thread`. -/
def size : ObjKind → ℕ
  | proc => 1272
  | vpmap => 8
  | thread => 104

/-- The pages of a slab. -/
def nPages (k : ObjKind) : ℕ := pgRoundUp (sizeofSlab + (k.size + 4) * minObjsPerSlab) / pgSize

/-- The objects of a slab. -/
def nObjs (k : ObjKind) : ℕ := (k.nPages * pgSize - sizeofSlab) / (k.size + 4)

end ObjKind

/-- `struct proc`, without its address space.  Files are given by number. -/
structure Proc where
  pid : Int
  name : List UInt8
  cwd : Option Inum
  threads : List ℕ
  fileDescriptors : ℕ → Option ℕ
  curFd : ℕ
  /-- The slot of the parent. -/
  parent : Option ℕ
  hasExited : Bool
  exitStatus : Int

/-- What processes are made of. -/
structure Kernel where
  sp : Spaces
  fs : Fs
  cache : ObjKind → RegionCache
  /-- The `struct vpmap` of an address space. -/
  vpmap : ℕ → Option ℕ
  proc : ℕ → Proc
  ptable : List ℕ
  /-- `f_ref`. -/
  fRef : ℕ → Int
  /-- The number of live objects of `fs_file_allocator`. -/
  files : ℕ
  pidAllocator : Int
  /-- The processor has its idle thread. -/
  idle : Bool

/-- A function of `proc.c`. -/
abbrev KernelM := Prog Trap Kernel

/-- The objects that are allocated. -/
def RegionCache.live (c : RegionCache) : Set ℕ := {x | x < c.slots ∧ x ∉ c.free}

/-- The free slots of a cache are slots, each of them once. -/
structure RegionCache.Sound (c : RegionCache) : Prop where
  nodup : c.free.Nodup
  lt : ∀ x ∈ c.free, x < c.slots

/-- Blocks of pages that the file system takes in a call, and keeps. -/
structure Blocks where
  sizes : List ℕ
  sizes_le : ∀ n ∈ sizes, 1 ≤ n ∧ n ≤ 1024

/-- No failure. -/
def Blocks.none : Blocks := ⟨[], by simp⟩

/-- `PROC_NAME_LEN`. -/
def procNameLen : ℕ := 32

/-- The number of `stdin`. -/
def stdinFile : ℕ := 0

/-- The number of `stdout`. -/
def stdoutFile : ℕ := 1

/-- The address space of a process. -/
def procAs (p : ℕ) : ℕ := p + 1

namespace Kernel

/-! ## Calls -/

/-- The physical memory. -/
def pm (s : Kernel) : Pmem := s.sp.vm.pm

/-- An object cache is replaced. -/
def setCache (s : Kernel) (k : ObjKind) (c : RegionCache) : Kernel :=
  { s with cache := update s.cache k c }

/-- A process is replaced. -/
def setProc (s : Kernel) (p : ℕ) (x : Proc) : Kernel := { s with proc := update s.proc p x }

/-- A call of `vm.c`. -/
def spCall {α : Type} (m : SpaceM α) : KernelM α :=
  Prog.zoom Kernel.sp (fun s sp => { s with sp := sp }) m

/-- A call of the allocator. -/
def pmCall {α : Type} (m : PmemM α) : KernelM α := spCall (vmCall (pmemCall m))

/-- A block of `n` pages that the allocator has. -/
def takeBlock (n : ℕ) : KernelM Unit := do
  match ← pmCall (pmemNalloc n) with
  | some _ => pure ()
  | none => Prog.trap (.wild "no such run")

/-- A call of the file system, which takes blocks of pages. -/
def fsCall {α : Type} (ns : Blocks) (m : FsM α) : KernelM α := do
  Prog.forEach ns.sizes takeBlock
  Prog.zoom Kernel.fs (fun s fs => { s with fs := fs }) m

/-! ## Objects -/

/-- A new slab, whose first slot is taken. -/
def slabCreate (k : ObjKind) (x : ℕ) : KernelM (Option ℕ) := do
  match ← pmCall (pmemNalloc k.nPages) with
  | none => pure none
  | some _ => do
    Prog.update fun s => s.setCache k ⟨List.range' (x + 1) (k.nObjs - 1), x + k.nObjs⟩
    pure (some x)

/-- `kmem_cache_alloc`: a free slot, or the first one of a new slab. -/
def objAlloc (k : ObjKind) : KernelM (Option ℕ) := do
  let s ← Prog.read
  match (s.cache k).free with
  | x :: rest => do
    Prog.update fun s => s.setCache k { s.cache k with free := rest }
    pure (some x)
  | [] => slabCreate k (s.cache k).slots

/-- `kmem_cache_free`. -/
def objFree (k : ObjKind) (x : ℕ) : KernelM Unit :=
  Prog.update fun s => s.setCache k { s.cache k with free := x :: (s.cache k).free }

/-- Take a `struct proc` and a pid. -/
def procAlloc : KernelM (Option ℕ) := do
  match ← objAlloc .proc with
  | none => pure none
  | some p => do
    Prog.update fun s =>
      { s.setProc p { s.proc p with pid := s.pidAllocator } with
        pidAllocator := wrapInt (s.pidAllocator + 1) }
    pure (some p)

/-- Give a `struct proc` back. -/
def procFree (p : ℕ) : KernelM Unit := objFree .proc p

/-! ## Address spaces -/

/-- `as_init`, with the `struct vpmap` of `vpmap_create`.  If there is no page for its table, the
object is not given back. -/
def asInit (a : ℕ) : KernelM Err := do
  let v ← objAlloc .vpmap
  let err ← spCall (Osv.asInit a v.isSome)
  Prog.update fun s => { s with vpmap := update s.vpmap a (if err = .ok then v else none) }
  pure err

/-- `memregion_unmap_internal` when the address space has no page table. -/
def regionDrop (a r : ℕ) : SpaceM Unit := do
  Prog.update fun s => s.setRegions a ((s.space a).regions.erase r)
  regionFree r

/-- `vpmap_destroy`, with the `struct vpmap`. -/
def vpmapDestroy (a : ℕ) : KernelM Unit := do
  let s ← Prog.read
  match s.vpmap a with
  | none => pure ()
  | some v => do
    spCall (vmCall (Osv.vpmapDestroy (s.sp.space kas).vpmap (s.sp.space a).vpmap))
    objFree .vpmap v

/-- Free the tables and the regions of a space. -/
def asDestroy (a : ℕ) : KernelM Unit := do
  kassert "as != kas" fun _ => a ≠ kas
  vpmapDestroy a
  Prog.update fun s => { s with vpmap := update s.vpmap a none }
  let s ← Prog.read
  spCall (Prog.forEach (s.sp.space a).regions (regionDrop a))

/-! ## Processes -/

/-- The fields that `proc_init` sets. -/
def initialProc (x : Proc) (name : List UInt8) : Proc :=
  { x with
    name := name.take (procNameLen - 1)
    threads := []
    fileDescriptors := fun fd =>
      if fd = 0 then some stdinFile else if fd = 1 then some stdoutFile else none
    curFd := 0
    parent := none
    hasExited := false
    exitStatus := statusAlive }

/-- `proc_init` from where the process has an address space. -/
def procInitRoot (ns : Blocks) (p : ℕ) : KernelM (Option ℕ) := do
  match ← fsCall ns (fsGetInode sfsRootInum) with
  | .error _ => do
    asDestroy (procAs p)
    procFree p
    pure none
  | .ok _ => do
    Prog.update fun s => s.setProc p { s.proc p with cwd := some sfsRootInum }
    pure (some p)

/-- Returns the slot of the process. -/
def procInit (ns : Blocks) (name : List UInt8) : KernelM (Option ℕ) := do
  match ← procAlloc with
  | none => pure none
  | some p => do
    let err ← asInit (procAs p)
    if err ≠ .ok then do
      procFree p
      pure none
    else do
      Prog.update fun s => s.setProc p (initialProc (s.proc p) name)
      procInitRoot ns p

/-- The end of `thread_create`. -/
def attachThread (p t : ℕ) : KernelM (Option ℕ) := do
  Prog.update fun s => s.setProc p { s.proc p with threads := (s.proc p).threads ++ [t] }
  pure (some t)

/-- `thread_create` for a process.  If there is no page for its stack, the thread is not given back.
-/
def threadCreate (p : ℕ) : KernelM (Option ℕ) := do
  match ← objAlloc .thread with
  | none => pure none
  | some t => do
    let s ← Prog.read
    if s.idle then
      match ← pmCall pmemAlloc with
      | none => pure none
      | some _ => attachThread p t
    else attachThread p t

/-! ## What is taken from the allocator -/

end Kernel

/-- The allocator has no block for `n` pages. -/
def Pmem.Refuses (pm : Pmem) (n : ℕ) : Prop := pmemNalloc n pm = .ok (none, pm)

/-- Blocks have been handed out. -/
structure Pmem.Spent (pm pm' : Pmem) : Prop where
  ready : pm'.Ready
  holding : ∀ H, pm.Holding H → pm'.Holding H
  subset : freePages pm' ⊆ freePages pm

theorem Pmem.Spent.refl {pm : Pmem} (hr : pm.Ready) : pm.Spent pm := ⟨hr, fun _ h => h, subset_rfl⟩

theorem Pmem.Spent.trans {pm pm' pm'' : Pmem} (h : pm.Spent pm') (h' : pm'.Spent pm'') :
    pm.Spent pm'' :=
  ⟨h'.ready, fun H hH => h'.holding H (h.holding H hH), h'.subset.trans h.subset⟩

theorem Pmem.Spent.pages_eq_iff {pm pm' pm'' : Pmem} (h : pm.Spent pm') (h' : pm'.Spent pm'') :
    freePages pm'' = freePages pm ↔ freePages pm' = freePages pm ∧
      freePages pm'' = freePages pm' := by
  constructor
  · intro heq
    have h1 : freePages pm' = freePages pm := Set.Subset.antisymm h.subset (heq ▸ h'.subset)
    exact ⟨h1, heq.trans h1.symm⟩
  · exact fun ⟨h1, h2⟩ => h2.trans h1

variable {r : Option ℕ}

theorem Pmem.Ready.nalloc_cases {pm pm' : Pmem} {n : ℕ} (hr : pm.Ready) (h1 : 1 ≤ n) (h2 : n ≤ 1024)
    (h : Osv.pmemNalloc n pm = .ok (r, pm')) : (r = none ∧ pm' = pm ∧ pm.Refuses n) ∨
      ((∃ paddr, r = some paddr) ∧ pm.Spent pm' ∧
      freePages pm' ≠ freePages pm ∧ ¬ pm.Refuses n) := by
  obtain ⟨r', pm1, hrun, hready, hsub, hnone, hsome⟩ := hr.pmemNalloc h1 h2
  rw [h] at hrun
  cases hrun
  cases r with
  | none =>
    have hpm := hnone rfl
    subst hpm
    exact .inl ⟨rfl, rfl, h⟩
  | some paddr =>
    obtain ⟨g, -, -, -, hin, hout⟩ := hsome paddr rfl
    refine .inr ⟨⟨paddr, rfl⟩, ⟨hready, fun H hH => (hH.pmemNalloc h1 h2 h).1, hsub⟩,
      fun heq => hout (heq ▸ hin), ?_⟩
    intro href
    rw [Pmem.Refuses, h] at href
    cases href

namespace Kernel

variable {s s' : Kernel}

/-- The physical memory is replaced. -/
def withPm (s : Kernel) (pm : Pmem) : Kernel :=
  { s with sp := { s.sp with vm := { s.sp.vm with pm := pm } } }

theorem pmCall_ok {α : Type} {m : PmemM α} {a : α} :
    pmCall m s = .ok (a, s') ↔ ∃ pm, m s.pm = .ok (a, pm) ∧ s' = s.withPm pm := by
  constructor
  · intro h
    rw [pmCall, spCall] at h
    obtain ⟨sp, hsp, rfl⟩ := zoom_ok.mp h
    obtain ⟨vm, hvm, rfl⟩ := zoom_ok.mp hsp
    obtain ⟨pm, hpm, rfl⟩ := zoom_ok.mp hvm
    exact ⟨pm, hpm, rfl⟩
  · rintro ⟨pm, h, rfl⟩
    have hvm : pmemCall m s.sp.vm = .ok (a, { s.sp.vm with pm := pm }) := Prog.zoom_of_ok h
    have hsp : vmCall (pmemCall m) s.sp = .ok (a, { s.sp with vm := { s.sp.vm with pm := pm } }) :=
      Prog.zoom_of_ok hvm
    have hrun : spCall (vmCall (pmemCall m)) s = .ok (a, s.withPm pm) := Prog.zoom_of_ok hsp
    exact hrun

/-- The blocks of a call of the file system are taken from the allocator. -/
theorem takeBlocks_ok {ns : List ℕ} (hns : ∀ n ∈ ns, 1 ≤ n ∧ n ≤ 1024) (hr : s.pm.Ready)
    (h : Prog.forEach ns takeBlock s = .ok ((), s')) :
    ∃ pm, s' = s.withPm pm ∧ s.pm.Spent pm ∧ (freePages pm = freePages s.pm ↔ ns = []) := by
  induction ns generalizing s with
  | nil =>
    cases h
    exact ⟨s'.pm, rfl, .refl hr, by simp⟩
  | cons n ns ih =>
    rw [Prog.forEach_cons] at h
    obtain ⟨_, s1, htake, h⟩ := bind_ok.mp h
    obtain ⟨r, s2, hcall, htake⟩ := bind_ok.mp htake
    obtain ⟨pm1, hpm1, rfl⟩ := pmCall_ok.mp hcall
    obtain ⟨hn1, hn2⟩ := hns n List.mem_cons_self
    rcases hr.nalloc_cases hn1 hn2 hpm1 with ⟨rfl, -⟩ | ⟨⟨paddr, rfl⟩, hspent, hne, -⟩
    · cases htake
    · cases htake
      obtain ⟨pm, rfl, hspent', -⟩ := ih (fun m hm => hns m (List.mem_cons_of_mem n hm))
        (show (s.withPm pm1).pm.Ready from hspent.ready) h
      refine ⟨pm, rfl, hspent.trans hspent', iff_of_false (fun heq => ?_) (List.cons_ne_nil n ns)⟩
      exact hne ((hspent.pages_eq_iff hspent').mp heq).1

theorem fsCall_ok {α : Type} {ns : Blocks} {m : FsM α} {a : α} (hr : s.pm.Ready)
    (h : fsCall ns m s = .ok (a, s')) :
    ∃ pm fs, m s.fs = .ok (a, fs) ∧ s' = { s.withPm pm with fs := fs } ∧ s.pm.Spent pm ∧
      (freePages pm = freePages s.pm ↔ ns.sizes = []) := by
  obtain ⟨_, s1, htake, h⟩ := bind_ok.mp h
  obtain ⟨pm, rfl, hspent, hiff⟩ := takeBlocks_ok ns.sizes_le hr htake
  obtain ⟨fs, hfs, rfl⟩ := zoom_ok.mp h
  exact ⟨pm, fs, hfs, rfl, hspent, hiff⟩

/-! ## Objects -/

/-- A cache has a free object. -/
def Stocked (s : Kernel) (k : ObjKind) : Prop := (s.cache k).free ≠ []

/-- A cache has no free object, and there is no block for a slab. -/
def NoObj (s : Kernel) (k : ObjKind) : Prop := ¬ s.Stocked k ∧ s.pm.Refuses k.nPages

theorem nPages_le (k : ObjKind) : 1 ≤ k.nPages ∧ k.nPages ≤ 1024 := by
  cases k <;> decide

theorem nObjs_pos (k : ObjKind) : 0 < k.nObjs := by
  cases k <;> decide

variable {c : RegionCache}

theorem live_pop {x : ℕ} {rest : List ℕ} (hc : c.Sound) (hfree : c.free = x :: rest) :
    x ∉ c.live ∧ RegionCache.live { c with free := rest } = insert x c.live := by
  have hnd := hc.nodup
  rw [hfree, List.nodup_cons] at hnd
  have hlt := hc.lt x (by rw [hfree]; exact List.mem_cons_self)
  refine ⟨fun h => h.2 (by rw [hfree]; exact List.mem_cons_self), Set.ext fun y => ?_⟩
  simp only [RegionCache.live, Set.mem_ofPred_eq, Set.mem_insert_iff, hfree, List.mem_cons, not_or]
  constructor
  · rintro ⟨h1, h2⟩
    rcases eq_or_ne y x with rfl | hne
    · exact .inl rfl
    · exact .inr ⟨h1, hne, h2⟩
  · rintro (rfl | ⟨h1, -, h2⟩)
    · exact ⟨hlt, hnd.1⟩
    · exact ⟨h1, h2⟩

theorem live_slab {n : ℕ} (hn : 0 < n) (hfree : c.free = []) :
    c.slots ∉ c.live ∧ RegionCache.live ⟨List.range' (c.slots + 1) (n - 1), c.slots + n⟩ =
      insert c.slots c.live := by
  refine ⟨fun h => absurd h.1 (lt_irrefl _), Set.ext fun y => ?_⟩
  simp only [RegionCache.live, Set.mem_ofPred_eq, Set.mem_insert_iff, hfree, List.mem_range'_1,
    List.not_mem_nil, not_false_eq_true, and_true]
  omega

theorem sound_pop {x : ℕ} {rest : List ℕ} (hc : c.Sound) (hfree : c.free = x :: rest) :
    RegionCache.Sound { c with free := rest } := by
  have hnd := hc.nodup
  rw [hfree, List.nodup_cons] at hnd
  exact ⟨hnd.2, fun y hy => hc.lt y (by rw [hfree]; exact List.mem_cons_of_mem x hy)⟩

theorem sound_slab (x n : ℕ) : RegionCache.Sound ⟨List.range' (x + 1) (n - 1), x + n⟩ where
  nodup := List.nodup_range'
  lt y hy := by
    rw [List.mem_range'_1] at hy
    show y < x + n
    omega

theorem live_push {x : ℕ} {L : Set ℕ} (hlive : c.live = insert x L) (hx : x ∉ L) :
    RegionCache.live { c with free := x :: c.free } = L := by
  ext y
  have hy : y ∈ c.live ↔ y = x ∨ y ∈ L := by rw [hlive]; exact Set.mem_insert_iff
  simp only [RegionCache.live, Set.mem_ofPred_eq, List.mem_cons, not_or] at hy ⊢
  constructor
  · rintro ⟨h1, h2, h3⟩
    exact (hy.mp ⟨h1, h3⟩).resolve_left h2
  · intro h
    have := hy.mpr (.inr h)
    exact ⟨this.1, fun he => hx (he ▸ h), this.2⟩

/-- An object `x` has been taken from a cache, and a slab for it if there was no other. -/
structure ObjTaken (s s' : Kernel) (k : ObjKind) (x : ℕ) : Prop where
  fresh : x ∉ (s.cache k).live
  state : ∃ pm c, s' = (s.withPm pm).setCache k c ∧ c.Sound ∧ c.live = insert x (s.cache k).live
  spent : s.pm.Spent s'.pm
  pages : freePages s'.pm = freePages s.pm ↔ s.Stocked k
  same : s.Stocked k → s'.pm = s.pm
  avail : ¬ s.NoObj k

theorem objAlloc_ok {k : ObjKind} (hr : s.pm.Ready) (hc : (s.cache k).Sound)
    (h : objAlloc k s = .ok (r, s')) : (r = none ∧ s = s' ∧ s.NoObj k)
    ∨ ∃ x, r = some x ∧ ObjTaken s s' k x := by
  rw [objAlloc, read_bind] at h
  cases hfree : (s.cache k).free with
  | cons x rest =>
    simp only [hfree] at h
    obtain ⟨s1, rfl, h⟩ := update_bind_ok.mp h
    cases h
    have hst : s.Stocked k := by simp [Stocked, hfree]
    obtain ⟨hx, hlive⟩ := live_pop hc hfree
    exact .inr ⟨x, rfl, hx, ⟨s.pm, _, rfl, sound_pop hc hfree, hlive⟩, .refl hr,
      iff_of_true rfl hst, fun _ => rfl, fun hno => hno.1 hst⟩
  | nil =>
    simp only [hfree] at h
    rw [slabCreate] at h
    obtain ⟨r1, s1, hcall, h⟩ := bind_ok.mp h
    obtain ⟨pm, hpm, rfl⟩ := pmCall_ok.mp hcall
    have hst : ¬ s.Stocked k := by simp [Stocked, hfree]
    rcases hr.nalloc_cases (nPages_le k).1 (nPages_le k).2 hpm with ⟨rfl, rfl,
      href⟩ | ⟨⟨paddr, rfl⟩, hspent, hne, href⟩
    · cases h
      exact .inl ⟨rfl, rfl, hst, href⟩
    · obtain ⟨s2, rfl, h⟩ := update_bind_ok.mp h
      cases h
      obtain ⟨hx, hlive⟩ := live_slab (nObjs_pos k) hfree
      exact .inr ⟨_, rfl, hx, ⟨pm, _, rfl, sound_slab _ _, hlive⟩, hspent, iff_of_false hne hst,
        fun hst' => absurd hst' hst, fun hno => href hno.2⟩

/-! ## Address spaces -/

/-- `as_init` takes a page, or there is none, or there is no object for the page table. -/
theorem spaceInit_ok {s s' : Spaces} {a : ℕ} {cached : Bool} {e : Err} (hr : s.vm.pm.Ready)
    (ha : a ≠ kas) (h : Osv.asInit a cached s = .ok (e, s')) :
    (e = .ok ∧ cached = true ∧ ¬ s.vm.pm.Refuses 1 ∧ s'.cache = s.cache ∧
    s'.space kas = s.space kas ∧
      ∃ g ∈ freePages s.vm.pm, s'.space a = ⟨[], g, none⟩ ∧
        (∀ j, j ≠ kernelIdx → s'.vm.mem g j = 0) ∧
        (∀ H, s.vm.pm.Holding H → s'.vm.pm.Holding (insert g H)) ∧
        freePages s'.vm.pm = freePages s.vm.pm \ {g}) ∨
      (e ≠ .ok ∧ s' = s.setRegions a [] ∧ (cached = true → s.vm.pm.Refuses 1)) := by
  rcases asInit_inv h with ⟨he, vm, rfl, hvm⟩ | ⟨rfl, rfl, paddr, vm, hall, rfl⟩
  · refine .inr ⟨he, ?_⟩
    split at hvm
    · obtain ⟨pm, hpm, rfl⟩ := zoom_ok.mp hvm
      obtain ⟨-, rfl, href⟩ | ⟨⟨paddr, hp⟩, -⟩ := hr.nalloc_cases (n := 1) le_rfl (by decide) hpm
      · exact ⟨rfl, fun _ => href⟩
      · cases hp
    · rename_i hc
      exact ⟨by rw [hvm]; rfl, fun hc' => absurd hc' hc⟩
  · obtain ⟨pm, hpm, rfl⟩ := zoom_ok.mp hall
    obtain ⟨hnone, -⟩ | ⟨-, -, -, href⟩ := hr.nalloc_cases (n := 1) le_rfl (by decide) hpm
    · cases hnone
    obtain ⟨g, rfl, hin, -, hpages⟩ := (Pmem.ready_iff_holding.mp hr).pmemAlloc hpm
    rw [mul_pgSize_div]
    refine .inl ⟨rfl, rfl, href, rfl, update_of_ne ha.symm .., g, hin, update_self ..,
      fun j hj => ?_, fun H hH => ?_, ?_⟩
    · simp [Vm.withKernel_mem, Vm.zeroPage, hj]
    · rw [Vm.withKernel_pm]
      obtain ⟨g', hgg, -, hH', -⟩ := hH.pmemAlloc hpm
      obtain rfl := Nat.eq_of_mul_eq_mul_right pgSize_pos hgg
      exact hH'
    · rw [Vm.withKernel_pm]
      exact hpages

/-- What holds between two calls: the allocator works, the kernel has its page table, and the caches
are sound. -/
structure Sound (s : Kernel) : Prop where
  ready : s.pm.Ready
  kernel : (s.sp.space kas).vpmap ∉ freePages s.pm
  caches : ∀ k, (s.cache k).Sound

/-- The state besides the memory and the processes. -/
def rest (s : Kernel) : Fs × List ℕ × (ℕ → Int) × ℕ := (s.fs, s.ptable, s.fRef, s.files)

theorem rest_eq (h : s'.rest = s.rest) :
    s'.fs = s.fs ∧ s'.ptable = s.ptable ∧ s'.fRef = s.fRef ∧ s'.files = s.files := by
  simpa only [rest, Prod.mk.injEq] using h

namespace ObjTaken

variable {k : ObjKind} {x : ℕ}

theorem sound (h : ObjTaken s s' k x) (hs : s.Sound) : s'.Sound := by
  obtain ⟨pm, c, rfl, hc, -⟩ := h.state
  refine ⟨h.spent.ready, fun hk => hs.kernel (h.spent.subset hk), fun k' => ?_⟩
  rcases eq_or_ne k' k with rfl | hne
  · show (update s.cache k' c k').Sound
    rw [update_self]
    exact hc
  · show (update s.cache k c k').Sound
    rw [update_of_ne hne]
    exact hs.caches k'

theorem live_self (h : ObjTaken s s' k x) : (s'.cache k).live = insert x (s.cache k).live := by
  obtain ⟨pm, c, rfl, -, hlive⟩ := h.state
  show (update s.cache k c k).live = _
  rw [update_self, hlive]

theorem cache_of_ne (h : ObjTaken s s' k x) {k' : ObjKind} (hne : k' ≠ k) :
    s'.cache k' = s.cache k' := by
  obtain ⟨pm, c, rfl, -, -⟩ := h.state
  exact update_of_ne hne ..

theorem frame (h : ObjTaken s s' k x) :
    s'.rest = s.rest ∧ s'.sp.cache = s.sp.cache ∧ s'.sp.space = s.sp.space ∧ s'.proc = s.proc := by
  obtain ⟨pm, c, rfl, -, -⟩ := h.state
  exact ⟨rfl, rfl, rfl, rfl⟩

end ObjTaken

/-- An address space that nothing is mapped in. -/
structure Fresh (s : Kernel) (a v g : ℕ) : Prop where
  vpmap : s.vpmap a = some v
  space : s.sp.space a = ⟨[], g, none⟩
  empty : ∀ j, j ≠ kernelIdx → s.sp.vm.mem g j = 0
  ne : g ≠ (s.sp.space kas).vpmap
  held : s.pm.Holding {g}

theorem asInit_cases {a : ℕ} {e : Err} (hs : s.Sound) (ha : a ≠ kas)
    (h : asInit a s = .ok (e, s')) :
    s'.rest = s.rest ∧ s'.sp.cache = s.sp.cache ∧ s'.proc = s.proc ∧
      ((e ≠ .ok ∧ s.NoObj .vpmap ∧ s'.pm = s.pm ∧ s'.cache = s.cache) ∨
        ∃ v s1, ObjTaken s s1 .vpmap v ∧ s'.cache = s1.cache ∧
          ((e ≠ .ok ∧ s1.pm.Refuses 1 ∧ s'.pm = s1.pm) ∨
            (e = .ok ∧ ¬ s1.pm.Refuses 1 ∧ ∃ g ∈ freePages s1.pm, Fresh s' a v g ∧
              freePages s'.pm = freePages s1.pm \ {g}))) := by
  obtain ⟨v, s1, hobj, h⟩ := bind_ok.mp h
  obtain ⟨e', s2, hinit, h⟩ := bind_ok.mp h
  obtain ⟨s3, rfl, h⟩ := update_bind_ok.mp h
  cases h
  obtain ⟨sp, hsp, rfl⟩ := zoom_ok.mp hinit
  rcases objAlloc_ok hs.ready (hs.caches .vpmap) hobj with ⟨rfl, rfl, hno⟩ | ⟨x, rfl, ht⟩
  · rcases spaceInit_ok hs.ready ha hsp with ⟨-, hc, -⟩ | ⟨hne, rfl, -⟩
    · cases hc
    · exact ⟨rfl, rfl, rfl, .inl ⟨hne, hno, rfl, rfl⟩⟩
  · obtain ⟨hrest, hcache, hspace, hproc⟩ := ht.frame
    have hs1 := ht.sound hs
    rcases spaceInit_ok hs1.ready ha hsp with
      ⟨rfl, -, href, hcache', hkas, g, hg, hnew, hzero, hheld, hpages⟩ | ⟨hne, rfl, href⟩
    · refine ⟨hrest, hcache'.trans hcache, hproc,
        .inr ⟨x, s1, ht, rfl, .inr ⟨rfl, href, g, hg, ?_, hpages⟩⟩⟩
      refine ⟨update_self .., hnew, hzero, ?_, ?_⟩
      · show g ≠ (sp.space kas).vpmap
        rw [hkas]
        exact fun heq => hs1.kernel (heq ▸ hg)
      · have := hheld ∅ (Pmem.ready_iff_holding.mp hs1.ready)
        rwa [insert_empty_eq] at this
    · exact ⟨hrest, hcache, hproc, .inr ⟨x, s1, ht, rfl, .inl ⟨hne, href rfl, rfl⟩⟩⟩

/-- An address space that nothing is mapped in gives its page and its page table back. -/
theorem asDestroy_fresh {a v g : ℕ} (hf : Fresh s a v g) (h : asDestroy a s = .ok ((), s')) :
    s'.rest = s.rest ∧ s'.sp.cache = s.sp.cache ∧
      s'.cache = update s.cache .vpmap { s.cache .vpmap with free := v :: (s.cache .vpmap).free } ∧
      freePages s'.pm = insert g (freePages s.pm) := by
  obtain ⟨-, h⟩ := kassert_bind_ok.mp h
  obtain ⟨_, s1, hdestroy, h⟩ := bind_ok.mp h
  obtain ⟨s2, rfl, h⟩ := update_bind_ok.mp h
  rw [read_bind] at h
  rw [vpmapDestroy, read_bind] at hdestroy
  simp only [hf.vpmap] at hdestroy
  obtain ⟨_, s3, hcall, hfree⟩ := bind_ok.mp hdestroy
  cases hfree
  obtain ⟨sp, hsp, rfl⟩ := zoom_ok.mp hcall
  obtain ⟨vm, hvm, rfl⟩ := zoom_ok.mp hsp
  rw [hf.space, vpmapDestroy_eq (ownTree_of_empty hf.empty) hf.ne, destroyCalls_of_empty hf.empty,
    Prog.forEach_singleton] at hvm
  have hpmem : pmemCall (pmemFree (g * pgSize)) s.sp.vm = .ok ((), vm) := hvm
  obtain ⟨pm, hpm, rfl⟩ := zoom_ok.mp hpmem
  have hregions : (s.sp.space a).regions = [] := by rw [hf.space]
  obtain ⟨sp, hloop, rfl⟩ := zoom_ok.mp h
  have hloop' : Prog.forEach (s.sp.space a).regions (regionDrop a) _ = .ok ((), sp) := hloop
  rw [hregions] at hloop'
  cases hloop'
  have hheld : s.sp.vm.pm.Holding (insert g ∅) := by
    rw [insert_empty_eq]
    exact hf.held
  exact ⟨rfl, rfl, rfl, (hheld.pmemFree (Set.notMem_empty g) hpm).2⟩

/-! ## `proc_init` -/

/-- Where `proc_init` fails: there is no object for the process, none for its page table, no page
for the table, or no root directory. -/
inductive InitExit where
  | proc
  | vpmap
  | page
  | root
deriving DecidableEq

/-- The root directory cannot be had. -/
def RootFails (s : Kernel) : Prop := ∃ e fs, fsGetInode sfsRootInum s.fs = .ok (.error e, fs)

/-- The call fails at an exit, and has not taken a block from the allocator for good before. -/
def InitExit.At (ns : Blocks) (s : Kernel) : InitExit → Prop
  | proc => s.NoObj .proc
  | vpmap => s.Stocked .proc ∧ s.NoObj .vpmap
  | page => s.Stocked .proc ∧ s.Stocked .vpmap ∧ s.pm.Refuses 1
  | root => s.Stocked .proc ∧ s.Stocked .vpmap ∧ ¬ s.pm.Refuses 1 ∧ s.RootFails ∧ ns.sizes = []

/-- A call of `proc_init` that has failed. -/
structure InitFailed (ns : Blocks) (s s' : Kernel) (exit : InitExit) : Prop where
  ptable : s'.ptable = s.ptable
  fRef : s'.fRef = s.fRef
  files : s'.files = s.files
  iref : s'.fs.iref = s.fs.iref
  regions : s'.sp.cache = s.sp.cache
  procs : (s'.cache .proc).live = (s.cache .proc).live
  /-- Without a page for the table, the object for the page table is lost. -/
  vpmaps : (s'.cache .vpmap).live = (s.cache .vpmap).live ↔ exit ≠ .page
  pages : freePages s'.pm = freePages s.pm ↔ exit.At ns s
  only : ∀ x : InitExit, x.At ns s → x = exit
  /-- With objects of both kinds and no other blocks, nothing is taken for good. -/
  stocked : s.Stocked .proc → s.Stocked .vpmap → ns.sizes = [] → exit.At ns s

/-- A call of `proc_init` that has made process `p`. -/
structure InitDone (ns : Blocks) (s s' : Kernel) (p : ℕ) : Prop where
  ptable : s'.ptable = s.ptable
  fRef : s'.fRef = s.fRef
  files : s'.files = s.files
  root : fsGetInode sfsRootInum s.fs = .ok (.ok (), s'.fs)
  never : ∀ x : InitExit, ¬ x.At ns s
  space : ∃ v g, Fresh s' (procAs p) v g ∧ insert g (freePages s'.pm) ⊆ freePages s.pm ∧
    (insert g (freePages s'.pm) = freePages s.pm ↔ s.Stocked .proc ∧
    s.Stocked .vpmap ∧ ns.sizes = [])

theorem procAlloc_ok (hs : s.Sound) (h : procAlloc s = .ok (r, s')) :
    (r = none ∧ s = s' ∧ s.NoObj .proc)
    ∨ ∃ p s1, r = some p ∧ ObjTaken s s1 .proc p ∧ s'.rest = s1.rest ∧ s'.sp = s1.sp ∧
      s'.cache = s1.cache := by
  obtain ⟨r1, s1, hobj, h⟩ := bind_ok.mp h
  rcases objAlloc_ok hs.ready (hs.caches .proc) hobj with ⟨rfl, rfl, hno⟩ | ⟨x, rfl, ht⟩
  · cases h
    exact .inl ⟨rfl, rfl, hno⟩
  · obtain ⟨s2, rfl, h⟩ := update_bind_ok.mp h
    cases h
    exact .inr ⟨x, s1, rfl, ht, rfl, rfl, rfl⟩

theorem setCache_cache_self (k : ObjKind) (c : RegionCache) : (s.setCache k c).cache k = c :=
  update_self ..

theorem procFree_ok {p : ℕ} (h : procFree p s = .ok ((), s')) : s'.rest = s.rest ∧ s'.sp = s.sp ∧
    (∀ k, k ≠ .proc → s'.cache k = s.cache k) ∧
    ∀ L, (s.cache .proc).live = insert p L → p ∉ L → (s'.cache .proc).live = L := by
  cases h
  refine ⟨rfl, rfl, fun k hk => update_of_ne hk .., fun L hL hp => ?_⟩
  rw [setCache_cache_self]
  exact live_push hL hp

theorem pages_restored {P P1 P3 P4 : Set ℕ} {g : ℕ} (h1 : P1 ⊆ P) (hg : g ∈ P1) (h3 : P3 ⊆ P1 \ {g})
    (h4 : P4 = insert g P3) : P4 = P ↔ P1 = P ∧ P3 = P1 \ {g} := by
  subst h4
  constructor
  · intro heq
    have hsub : insert g P3 ⊆ P1 := Set.insert_subset hg (h3.trans Set.sdiff_subset)
    have hP : P1 = P := Set.Subset.antisymm h1 (heq ▸ hsub)
    refine ⟨hP, Set.Subset.antisymm h3 fun x hx => ?_⟩
    have hx1 : x ∈ insert g P3 := by
      rw [heq, ← hP]
      exact hx.1
    exact hx1.resolve_left hx.2
  · rintro ⟨rfl, rfl⟩
    exact Set.insert_sdiff_self_of_mem hg

section Exits

variable {ns : Blocks} {p : ℕ} {t : Kernel}

theorem ObjTaken.vpmap_iff (hp : ObjTaken s s' .proc p) (hsp : t.sp = s'.sp)
    (hcache : t.cache = s'.cache) : (t.Stocked .vpmap ↔ s.Stocked .vpmap) ∧
    (s.Stocked .proc → (t.NoObj .vpmap ↔ s.NoObj .vpmap)) := by
  have hc : t.cache .vpmap = s.cache .vpmap := by rw [hcache, hp.cache_of_ne (by decide)]
  have hst : t.Stocked .vpmap ↔ s.Stocked .vpmap := by rw [Stocked, Stocked, hc]
  refine ⟨hst, fun h => ?_⟩
  have hpm : t.pm = s.pm := by
    rw [← hp.same h, pm, pm, hsp]
  rw [NoObj, NoObj, hst, hpm]

theorem ObjTaken.both {s1 s2 : Kernel} {v : ℕ} (ns : Blocks) (hp : ObjTaken s s1 .proc p)
    (hsp : t.sp = s1.sp) (hcache : t.cache = s1.cache) (hv : ObjTaken t s2 .vpmap v) :
    s.pm.Spent s2.pm ∧ (freePages s2.pm = freePages s.pm ↔ s.Stocked .proc ∧ s.Stocked .vpmap) ∧
      (s.Stocked .proc → s.Stocked .vpmap → s2.pm = s.pm) ∧ ¬ InitExit.At ns s .proc ∧
      ¬ InitExit.At ns s .vpmap := by
  have hpm : t.pm = s1.pm := by rw [pm, pm, hsp]
  obtain ⟨hst, hno⟩ := hp.vpmap_iff hsp hcache
  have hspent : s1.pm.Spent s2.pm := hpm ▸ hv.spent
  have hpages : freePages s2.pm = freePages s1.pm ↔ t.Stocked .vpmap := hpm ▸ hv.pages
  refine ⟨hp.spent.trans hspent, ?_, fun h1 h2 => ?_, hp.avail, fun hat =>
    hv.avail ((hno hat.1).mpr hat.2)⟩
  · rw [hp.spent.pages_eq_iff hspent, hp.pages, hpages, hst]
  · rw [hv.same (hst.mpr h2), hpm, hp.same h1]

section

variable {s1 t1 : Kernel} (hp : ObjTaken s s1 .proc p) (hsp : t.sp = s1.sp)
    (hcache : t.cache = s1.cache)
variable (hrest : t1.rest = s.rest)

include hp hsp hcache hrest

theorem initFailed_vpmap (hno : t.NoObj .vpmap) (hpm : t1.pm = t.pm) (hcache' : t1.cache = t.cache)
    (hregions : t1.sp.cache = s.sp.cache) (hfree : procFree p t1 = .ok ((), s')) :
    InitFailed ns s s' .vpmap := by
  obtain ⟨hrest', hsp', hcaches, hlive⟩ := procFree_ok hfree
  obtain ⟨hfs, hptable, hfRef, hfiles⟩ := rest_eq (hrest'.trans hrest)
  obtain ⟨hst, hiff⟩ := hp.vpmap_iff hsp hcache
  have hpm' : s'.pm = s1.pm := by rw [pm, hsp', show t1.sp.vm.pm = t1.pm from rfl, hpm, pm, pm, hsp]
  refine ⟨hptable, hfRef, hfiles, congrArg Fs.iref hfs, hsp' ▸ hregions, ?_,
    iff_of_true ?_ (by decide), ?_, ?_, fun hst' _ _ => ⟨hst', (hiff hst').mp hno⟩⟩
  · exact hlive _ (by rw [hcache', hcache, hp.live_self]) hp.fresh
  · rw [hcaches _ (by decide), hcache', hcache, hp.cache_of_ne (by decide)]
  · rw [hpm', hp.pages]
    exact ⟨fun h => ⟨h, (hiff h).mp hno⟩, fun h => h.1⟩
  · rintro (_ | _ | _ | _) hat
    · exact absurd hat hp.avail
    · rfl
    · exact absurd (hst.mpr hat.2.1) hno.1
    · exact absurd (hst.mpr hat.2.1) hno.1

theorem initFailed_page {s2 : Kernel} {v : ℕ} (hv : ObjTaken t s2 .vpmap v) (href : s2.pm.Refuses 1)
    (hpm : t1.pm = s2.pm) (hcache' : t1.cache = s2.cache) (hregions : t1.sp.cache = s.sp.cache)
    (hfree : procFree p t1 = .ok ((), s')) : InitFailed ns s s' .page := by
  obtain ⟨hrest', hsp', hcaches, hlive⟩ := procFree_ok hfree
  obtain ⟨hfs, hptable, hfRef, hfiles⟩ := rest_eq (hrest'.trans hrest)
  obtain ⟨-, hpages, hsame, hnproc, hnvpmap⟩ := hp.both ns hsp hcache hv
  have hpm' : s'.pm = s2.pm := by rw [pm, hsp', show t1.sp.vm.pm = t1.pm from rfl, hpm]
  have hc : t.cache .vpmap = s.cache .vpmap := by rw [hcache, hp.cache_of_ne (by decide)]
  refine ⟨hptable, hfRef, hfiles, congrArg Fs.iref hfs, hsp' ▸ hregions, ?_,
    iff_of_false ?_ (by simp), ?_, ?_, fun hst1 hst2 _ => ⟨hst1, hst2, hsame hst1 hst2 ▸ href⟩⟩
  · exact hlive _ (by rw [hcache', hv.cache_of_ne (by decide), hcache, hp.live_self]) hp.fresh
  · rw [hcaches _ (by decide), hcache', hv.live_self, hc]
    intro heq
    have hfresh := hv.fresh
    rw [hc, ← heq] at hfresh
    exact hfresh (Set.mem_insert v _)
  · rw [hpm', hpages]
    exact ⟨fun h => ⟨h.1, h.2, hsame h.1 h.2 ▸ href⟩, fun h => ⟨h.1, h.2.1⟩⟩
  · rintro (_ | _ | _ | _) hat
    · exact absurd hat hnproc
    · exact absurd hat hnvpmap
    · rfl
    · exact absurd (hsame hat.1 hat.2.1 ▸ href) hat.2.2.1

/-- What `proc_init` does from where the process has its address space. -/
theorem procInitRoot_ok {s2 : Kernel} {v g : ℕ} (hv : ObjTaken t s2 .vpmap v)
    (href : ¬ s2.pm.Refuses 1) (hg : g ∈ freePages s2.pm) (hfresh : Fresh t1 (procAs p) v g)
    (hpages1 : freePages t1.pm = freePages s2.pm \ {g}) (hready : t1.pm.Ready)
    (hcache' : t1.cache = s2.cache) (hregions : t1.sp.cache = s.sp.cache)
    (h : procInitRoot ns p t1 = .ok (r, s')) : (r = none ∧ InitFailed ns s s' .root)
    ∨ (r = some p ∧ InitDone ns s s' p) := by
  obtain ⟨hspent, hpages, hsame, hnproc, hnvpmap⟩ := hp.both ns hsp hcache hv
  obtain ⟨hfs, hptable, hfRef, hfiles⟩ := rest_eq hrest
  have hnpage : ¬ InitExit.At ns s .page := fun hat => href (hsame hat.1 hat.2.1 ▸ hat.2.2)
  have hc : t.cache .vpmap = s.cache .vpmap := by rw [hcache, hp.cache_of_ne (by decide)]
  obtain ⟨got, t2, hcall, h⟩ := bind_ok.mp h
  obtain ⟨pm3, fs3, hget, rfl, hspent3, hpages3⟩ := fsCall_ok hready hcall
  have hfresh3 : Fresh { t1.withPm pm3 with fs := fs3 } (procAs p) v g :=
    ⟨hfresh.vpmap, hfresh.space, hfresh.empty, hfresh.ne, hspent3.holding _ hfresh.held⟩
  have hsub : freePages pm3 ⊆ freePages s2.pm \ {g} := hpages1 ▸ hspent3.subset
  have hrestored : insert g (freePages pm3) = freePages s.pm ↔
      s.Stocked .proc ∧ s.Stocked .vpmap ∧ ns.sizes = [] := by
    rw [pages_restored hspent.subset hg hsub rfl, hpages, ← hpages1, hpages3, and_assoc]
  rw [hfs] at hget
  cases got with
  | ok _ =>
    obtain ⟨s3, rfl, h⟩ := update_bind_ok.mp h
    cases h
    have hback : insert g (freePages pm3) ⊆ freePages s.pm :=
      Set.insert_subset (hspent.subset hg) ((hsub.trans Set.sdiff_subset).trans hspent.subset)
    refine .inr ⟨rfl, hptable, hfRef, hfiles, hget, ?_, v, g, ?_, hback, hrestored⟩
    · rintro (_ | _ | _ | _) hat
      · exact hnproc hat
      · exact hnvpmap hat
      · exact hnpage hat
      · obtain ⟨-, -, -, ⟨e, fs, herr⟩, -⟩ := hat
        rw [hget] at herr
        cases herr
    · exact ⟨hfresh3.vpmap, hfresh3.space, hfresh3.empty, hfresh3.ne, hfresh3.held⟩
  | error e =>
    obtain ⟨_, t3, hdestroy, h⟩ := bind_ok.mp h
    obtain ⟨_, t4, hfree, h⟩ := bind_ok.mp h
    cases h
    obtain ⟨hrest3, hregions3, hcache3, hpages4⟩ := asDestroy_fresh hfresh3 hdestroy
    obtain ⟨hrest', hsp', hcaches, hlive⟩ := procFree_ok hfree
    obtain ⟨hfs3, hptable3, hfRef3, hfiles3⟩ := rest_eq (hrest'.trans hrest3)
    have hpm' : freePages s'.pm = insert g (freePages pm3) := by
      rw [pm, hsp']
      exact hpages4
    have hiref : fs3.iref = s.fs.iref := by
      rcases fsGetInode_ok hget with ⟨hok, -⟩ | ⟨-, hiref⟩
      · cases hok
      · exact hiref
    have hat : s.Stocked .proc → s.Stocked .vpmap → ns.sizes = [] → InitExit.At ns s .root := by
      intro hst1 hst2 hns
      refine ⟨hst1, hst2, ?_, ⟨e, fs3, hget⟩, hns⟩
      rw [← hsame hst1 hst2]
      exact href
    refine .inl ⟨rfl, hptable3.trans hptable, hfRef3.trans hfRef, hfiles3.trans hfiles, ?_, ?_, ?_,
      ?_, ?_, ?_, hat⟩
    · rw [hfs3]
      exact hiref
    · rw [hsp', hregions3]
      exact hregions
    · refine hlive _ ?_ hp.fresh
      rw [hcache3, update_of_ne (by decide)]
      show (t1.cache .proc).live = _
      rw [hcache', hv.cache_of_ne (by decide), hcache, hp.live_self]
    · refine iff_of_true ?_ (by decide)
      rw [hcaches _ (by decide), hcache3, update_self]
      refine live_push ?_ (hc ▸ hv.fresh)
      show (t1.cache .vpmap).live = _
      rw [hcache', hv.live_self, hc]
    · rw [hpm', hrestored]
      exact ⟨fun hst => hat hst.1 hst.2.1 hst.2.2, fun hat => ⟨hat.1, hat.2.1, hat.2.2.2.2⟩⟩
    · rintro (_ | _ | _ | _) hat
      · exact absurd hat hnproc
      · exact absurd hat hnvpmap
      · exact absurd hat hnpage
      · rfl

end

theorem procInit_ok {name : List UInt8} (hs : s.Sound) (h : procInit ns name s = .ok (r, s')) :
    (r = none ∧ ∃ exit, InitFailed ns s s' exit) ∨ ∃ p, r = some p ∧ InitDone ns s s' p := by
  obtain ⟨r1, t, halloc, h⟩ := bind_ok.mp h
  rcases procAlloc_ok hs halloc with ⟨rfl, rfl, hno⟩ | ⟨p, s1, rfl, hp, hrest, hsp, hcache⟩
  · cases h
    refine .inl ⟨rfl, .proc, rfl, rfl, rfl, rfl, rfl, rfl, iff_of_true rfl (by decide),
      iff_of_true rfl hno, ?_, fun _ _ _ => hno⟩
    rintro (_ | _ | _ | _) hat
    · rfl
    all_goals exact absurd hat.1 hno.1
  · obtain ⟨e, t1, hinit, h⟩ := bind_ok.mp h
    obtain ⟨hrest1, hregions1, hspace1, -⟩ := hp.frame
    have hs1 := hp.sound hs
    have ht : t.Sound := by
      refine ⟨?_, ?_, fun k => hcache ▸ hs1.caches k⟩
      · rw [pm, hsp]
        exact hs1.ready
      · rw [pm, hsp]
        exact hs1.kernel
    have hrest' : t.rest = s.rest := hrest.trans hrest1
    obtain ⟨hrest2, hregions2, -, hcase⟩ := asInit_cases ht (Nat.succ_ne_zero p) hinit
    have hregions : t1.sp.cache = s.sp.cache := by rw [hregions2, hsp, hregions1]
    have hfail : e ≠ .ok → r = none ∧ procFree p t1 = .ok ((), s') := by
      intro hne
      rw [if_pos hne] at h
      obtain ⟨_, t2, hfree, h⟩ := bind_ok.mp h
      cases h
      exact ⟨rfl, hfree⟩
    rcases hcase with ⟨hne, hno, hpm, hcache'⟩ | ⟨v, s2, hv, hcache',
      ⟨hne, href, hpm⟩ | ⟨rfl, href, g, hg, hfresh, hpages⟩⟩
    · obtain ⟨rfl, hfree⟩ := hfail hne
      exact .inl ⟨rfl, .vpmap, initFailed_vpmap hp hsp hcache (hrest2.trans hrest')
        hno hpm hcache' hregions hfree⟩
    · obtain ⟨rfl, hfree⟩ := hfail hne
      exact .inl ⟨rfl, .page, initFailed_page hp hsp hcache (hrest2.trans hrest')
        hv href hpm hcache' hregions hfree⟩
    · rw [if_neg (by simp)] at h
      obtain ⟨t2, rfl, h⟩ := update_bind_ok.mp h
      have hfresh' : Fresh (t1.setProc p (initialProc (t1.proc p) name)) (procAs p) v g :=
        ⟨hfresh.vpmap, hfresh.space, hfresh.empty, hfresh.ne, hfresh.held⟩
      have hrest3 : (t1.setProc p (initialProc (t1.proc p) name)).rest =
          s.rest := hrest2.trans hrest'
      rcases procInitRoot_ok hp hsp hcache hrest3 hv href hg hfresh' hpages hfresh'.held.ready
        hcache' hregions h with
        ⟨rfl, hf⟩ | ⟨rfl, hd⟩
      · exact .inl ⟨rfl, .root, hf⟩
      · exact .inr ⟨p, rfl, hd⟩

end Exits

/-! ## What leaves the file system alone -/

/-- The file system and the number of files. -/
def stock (s : Kernel) : Fs × ℕ := (s.fs, s.files)

section keeps

variable {α : Type}

theorem keeps_spCall (m : SpaceM α) : Prog.Keeps stock (spCall m) := by
  intro s a s' h
  obtain ⟨sp, -, rfl⟩ := zoom_ok.mp h
  rfl

theorem keeps_objAlloc (k : ObjKind) : Prog.Keeps stock (objAlloc k) := by
  refine keeps_bind keeps_read fun s => ?_
  cases (s.cache k).free with
  | cons x rest => exact keeps_bind (keeps_update fun _ => rfl) fun _ => keeps_pure _
  | nil =>
    refine keeps_bind (keeps_spCall _) fun r => ?_
    cases r with
    | none => exact keeps_pure _
    | some _ => exact keeps_bind (keeps_update fun _ => rfl) fun _ => keeps_pure _

theorem keeps_procFree (p : ℕ) : Prog.Keeps stock (procFree p) := keeps_update fun _ => rfl

theorem keeps_vpmapDestroy (a : ℕ) : Prog.Keeps stock (vpmapDestroy a) := by
  refine keeps_bind keeps_read fun s => ?_
  cases s.vpmap a with
  | none => exact keeps_pure _
  | some v => exact keeps_bind (keeps_spCall _) fun _ => keeps_update fun _ => rfl

theorem keeps_asDestroy (a : ℕ) : Prog.Keeps stock (asDestroy a) :=
  keeps_bind (Prog.keeps_check _ _) fun _ => keeps_bind (keeps_vpmapDestroy a) fun _ =>
    keeps_bind (keeps_update fun _ => rfl) fun _ =>
      keeps_bind keeps_read fun _ => keeps_spCall _

theorem keeps_attachThread (p t : ℕ) : Prog.Keeps stock (attachThread p t) :=
  keeps_bind (keeps_update fun _ => rfl) fun _ => keeps_pure _

theorem keeps_threadCreate (p : ℕ) : Prog.Keeps stock (threadCreate p) := by
  refine keeps_bind (keeps_objAlloc .thread) fun r => ?_
  cases r with
  | none => exact keeps_pure _
  | some t =>
    refine keeps_bind keeps_read fun s => Prog.keeps_ite ?_ (keeps_attachThread p t)
    refine keeps_bind (keeps_spCall _) fun r => ?_
    cases r with
    | none => exact keeps_pure _
    | some _ => exact keeps_attachThread p t

end keeps

end Kernel

end Osv
