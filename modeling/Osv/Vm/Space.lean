import Osv.Vm.Unmap

/-!
# Address spaces

The regions and address spaces of `kernel/mm/vm.c`.  An address space is a list
of regions, a top-level page table and a pointer to the heap region.  Regions
are objects of a cache, so a region is known by its slot.  A new slot is
filled with the byte `0x2b`, and `memregion_map_internal` links it into the list
before it fills it in, so the list is ordered by comparison with that
filling.

Addresses and sizes are 64-bit words.
-/

namespace Osv

/-- A region of an address space. -/
structure MemRegion where
  /-- The address space it belongs to. -/
  as : ℕ
  start : ℕ
  /-- The field `end`. -/
  fin : ℕ
  perm : MemPerm
  shared : Int
  store : ℕ
  ofs : ℕ
deriving DecidableEq, Repr

/-- An address space: its regions by slot, first to last, and the page of its top-level table. -/
structure AddrSpace where
  regions : List ℕ
  vpmap : ℕ
  heap : Option ℕ
deriving DecidableEq, Repr

/-- The cache of regions: its free slots, and how many slots its slabs have. -/
structure RegionCache where
  free : List ℕ
  slots : ℕ
deriving DecidableEq, Repr

/-- The virtual memory system. -/
structure Spaces where
  vm : Vm
  region : ℕ → MemRegion
  cache : RegionCache
  space : ℕ → AddrSpace

/-- A function of `vm.c`. -/
abbrev SpaceM := Prog Trap Spaces

/-- A call of `vpmap.c`. -/
def vmCall {α : Type} (m : VmM α) : SpaceM α :=
  Prog.zoom Spaces.vm (fun s vm => { s with vm := vm }) m

/-- The kernel's address space. -/
def kas : ℕ := 0

/-- A sum of addresses. -/
def addAddr (a b : ℕ) : ℕ := (a + b) % 2 ^ 64

/-- A difference of addresses. -/
def subAddr (a b : ℕ) : ℕ := (a + 2 ^ 64 - b) % 2 ^ 64

/-- `pg_round_up` on addresses. -/
def pgRoundUpAddr (a : ℕ) : ℕ := pgRoundUp a % 2 ^ 64

/-- The number of pages of a size. -/
def sizePages (size : ℕ) : ℕ := pgRoundUpAddr size / pgSize

/-- Below the kernel. -/
def isUserAddr (addr : ℕ) : Bool := addr < kmapBase

/-- Permissions of the kernel. -/
def isKernMemperm : MemPerm → Bool
  | .r | .rw => true
  | .ur | .urw => false

namespace Spaces

/-- A region is replaced. -/
def setRegion (s : Spaces) (r : ℕ) (mr : MemRegion) : Spaces :=
  { s with region := Function.update s.region r mr }

variable {s : Spaces} {r : ℕ} {mr : MemRegion}

theorem setRegion_self : (s.setRegion r mr).region r = mr := Function.update_self ..

theorem setRegion_of_ne {x : ℕ} (h : x ≠ r) : (s.setRegion r mr).region x = s.region x :=
  Function.update_of_ne h ..

/-- The list of a space is replaced. -/
def setRegions (s : Spaces) (a : ℕ) (rs : List ℕ) : Spaces :=
  { s with space := Function.update s.space a { s.space a with regions := rs } }

/-- The heap of a space is replaced. -/
def setHeap (s : Spaces) (a : ℕ) (h : Option ℕ) : Spaces :=
  { s with space := Function.update s.space a { s.space a with heap := h } }

end Spaces

/-! ## The cache of regions -/

/-- `sizeof(struct memregion)`. -/
def sizeofMemregion : ℕ := 64

/-- `sizeof(struct slab)`. -/
def sizeofSlab : ℕ := 40

/-- Pages of a slab of regions, which holds at least 128. -/
def slabPages : ℕ := pgRoundUp (sizeofSlab + (sizeofMemregion + 4) * 128) / pgSize

/-- Regions of a slab. -/
def slabObjs : ℕ := (slabPages * pgSize - sizeofSlab) / (sizeofMemregion + 4)

/-- An object as `kmem_cache_alloc` returns it.  Its fields hold the byte `0x2b`; the permission,
which nothing reads before it is set, is any. -/
def stale : MemRegion where
  as := 0x2b2b2b2b2b2b2b2b
  start := 0x2b2b2b2b2b2b2b2b
  fin := 0x2b2b2b2b2b2b2b2b
  perm := .r
  shared := 0x2b2b2b2b
  store := 0x2b2b2b2b2b2b2b2b
  ofs := 0x2b2b2b2b2b2b2b2b

/-- Take a region from the cache, from a new slab if no slot is free. -/
def regionAlloc : SpaceM (Option ℕ) := do
  let s ← Prog.read
  match s.cache.free with
  | r :: rest => do
    Prog.update fun s => { s with cache := { s.cache with free := rest } }
    Prog.update fun s => s.setRegion r stale
    pure (some r)
  | [] => do
    match ← vmCall (pmemCall (pmemNalloc slabPages)) with
    | none => pure none
    | some _ => do
      let r := s.cache.slots
      Prog.update fun s =>
        { s with cache := ⟨List.range' (r + 1) (slabObjs - 1), r + slabObjs⟩ }
      Prog.update fun s => s.setRegion r stale
      pure (some r)

/-- Give a region back. -/
def regionFree (r : ℕ) : SpaceM Unit :=
  Prog.update fun s =>
    { s.setRegion r stale with cache := { s.cache with free := r :: s.cache.free } }

/-! ## Regions -/

/-- `memregion_comparator`. -/
def memregionComparator (a b : MemRegion) : Bool := b.fin ≤ a.start

/-- `list_append_ordered`: in front of the first node that compares as greater. -/
def listAppendOrdered (greater : ℕ → Bool) (node : ℕ) : List ℕ → List ℕ
  | [] => [node]
  | n :: rest => if greater n then node :: n :: rest else n :: listAppendOrdered greater node rest

/-- The region with the addresses from `addr` on. -/
def memregionFindInternal (a addr size : ℕ) : SpaceM (Option ℕ) :=
  Prog.reads fun s => (s.space a).regions.find? fun r =>
    (s.region r).start ≤ addr && addAddr addr size ≤ pgRoundUpAddr (s.region r).fin

/-- `ADDR_ANYWHERE`. -/
def addrAnywhere : ℕ := 0xfffffff

/-- `USTACK_LOWERBOUND`. -/
def ustackLowerbound : ℕ := 0xFFFFFF7FFFFFF000 - 10 * pgSize

/-- The search of `find_free_vaddr` through the regions. -/
def findFreeFrom (s : Spaces) (size : ℕ) : (addr : ℕ) → List ℕ → Option ℕ
  | addr, [] =>
    if pgRoundUpAddr (addAddr addr size) < subAddr ustackLowerbound size then some addr else none
  | addr, r :: rest =>
    if pgRoundUpAddr (addAddr addr size) < (s.region r).start then some addr
    else findFreeFrom s size (pgRoundUpAddr (s.region r).fin) rest

/-- A free range of addresses. -/
def findFreeVaddr (a size : ℕ) : SpaceM (Option ℕ) := do
  kassert "as != kas" fun _ => a ≠ kas
  Prog.reads fun s =>
    findFreeFrom s size ((s.space a).regions.head?.elim 0 fun r => (s.region r).fin)
      (s.space a).regions

/-- Unmap a region, and give it back. -/
def memregionUnmapInternal (r : ℕ) : SpaceM Unit := do
  let s ← Prog.read
  vmCall (vpmapUnmap (s.space (s.region r).as).vpmap (s.region r).start
    (sizePages (subAddr (s.region r).fin (s.region r).start)))
  Prog.update fun s => s.setRegions (s.region r).as ((s.space (s.region r).as).regions.erase r)
  regionFree r

/-- The rest of `memregion_map_internal`, when the address is settled. -/
def memregionMapAt (a addr size : ℕ) (perm : MemPerm) (store ofs : ℕ) (shared : Int) :
    SpaceM (Option ℕ) := do
  kassert "pg_aligned(addr)" fun _ => pgAligned addr
  kassert "(addr + pg_round_up(size)) >= addr" fun _ => addr ≤ addAddr addr (pgRoundUpAddr size)
  if a ≠ kas ∧ (isKernMemperm perm ∨ ¬ isUserAddr (pgRoundUpAddr (addAddr addr size))) then
    pure none
  else do
    match ← memregionFindInternal a addr (addAddr addr size) with
    | some _ => pure none
    | none => do
      match ← regionAlloc with
      | none => pure none
      | some r => do
        Prog.update fun s => s.setRegions a (listAppendOrdered
          (fun n => memregionComparator (s.region n) (s.region r)) r (s.space a).regions)
        Prog.update fun s => s.setRegion r ⟨a, addr, addAddr addr size, perm, shared, store, ofs⟩
        pure (some r)

/-- Add a region to an address space. -/
def memregionMapInternal (a addr size : ℕ) (perm : MemPerm) (store ofs : ℕ) (shared : Int) :
    SpaceM (Option ℕ) :=
  if addr = addrAnywhere then do
    match ← findFreeVaddr a size with
    | none => pure none
    | some addr => memregionMapAt a addr size perm store ofs shared
  else memregionMapAt a addr size perm store ofs shared

/-- The second half of `memregion_copy_internal`: copy the pages of `src` into the new region `dst`,
or take it away again. -/
def memregionCopyPages (a src addr dst : ℕ) : SpaceM (Option ℕ) := do
  let s ← Prog.read
  let err ← vmCall (vpmapCopy (s.space (s.region src).as).vpmap (s.space a).vpmap
    (s.region src).start addr (sizePages (subAddr (s.region src).fin (s.region src).start))
    (s.region src).perm)
  if err ≠ .ok then do
    memregionUnmapInternal dst
    pure none
  else pure (some dst)

/-- Add a copy of a region, with its pages. -/
def memregionCopyInternal (a src addr : ℕ) : SpaceM (Option ℕ) := do
  let s ← Prog.read
  match ← memregionMapInternal a addr (subAddr (s.region src).fin (s.region src).start)
    (s.region src).perm (s.region src).store (s.region src).ofs (s.region src).shared with
  | none => pure none
  | some dst => memregionCopyPages a src addr dst

/-! ## Address spaces -/

/-- Map a region, with the lock of the address space held. -/
def asMapMemregion (a addr size : ℕ) (perm : MemPerm) (store ofs : ℕ) (shared : Int) :
    SpaceM (Option ℕ) :=
  memregionMapInternal a addr size perm store ofs shared

/-- Set up an address space.  `cached` says whether the cache of page tables has one left. -/
def asInit (a : ℕ) (cached : Bool) : SpaceM Err := do
  Prog.update fun s => s.setRegions a []
  match ← vmCall (vpmapCreate cached) with
  | none => pure .vmResourceUnavail
  | some pml4 => do
    Prog.update fun s => { s with space := Function.update s.space a ⟨[], pml4, none⟩ }
    let s ← Prog.read
    vmCall (vpmapCopyKernelMapping (s.space kas).vpmap pml4)
    pure .ok

/-- The loop of `as_copy_as` over the regions of the source. -/
def asCopyLoop (src dst : ℕ) : List ℕ → SpaceM Err
  | [] => pure .ok
  | r :: rest => do
    let s ← Prog.read
    match ← memregionCopyInternal dst r (s.region r).start with
    | none => pure .nomem
    | some r' => do
      Prog.update fun s =>
        if (s.space src).heap = some r then s.setHeap dst (some r') else s
      asCopyLoop src dst rest

/-- Copy all regions of an address space to another. -/
def asCopyAs (src dst : ℕ) : SpaceM Err := do
  kassert "src_as != dst_as" fun _ => src ≠ dst
  let s ← Prog.read
  asCopyLoop src dst (s.space src).regions

end Osv
