import Osv.Vm.Space

/-!
# Filling an address space

What puts pages into the address space of a process: `proc_load` and
`stack_setup` of `kernel/proc.c` when it starts, and `handle_page_fault` of
`kernel/pgfault.c` when it touches its stack or its heap.  `sys_sbrk` moves the
end of the heap.

The file system is a parameter here: `fs_open_file` returns some error code, and
`fs_read_file` returns some bytes, as many as were asked for or fewer.
-/

namespace Osv

/-! ## Executable files -/

/-- An executable file as `proc_load` sees it. -/
structure ExecFile where
  /-- What `fs_open_file` returns. -/
  openErr : Err
  /-- The bytes that `fs_read_file` reads from an offset, of those asked for. -/
  read : (ofs count : ℕ) → List UInt8
  read_le : ∀ ofs count, (read ofs count).length ≤ count

/-- A little-endian number of `n` bytes at an offset. -/
def leNat (bytes : List UInt8) (ofs n : ℕ) : ℕ :=
  ((bytes.drop ofs).take n).foldr (fun b acc => b.toNat + 256 * acc) 0

/-- The fields of `struct elfhdr` that `proc_load` reads. -/
structure ElfHdr where
  magic : ℕ
  entry : ℕ
  phoff : ℕ
  phnum : ℕ
deriving DecidableEq, Repr

/-- Bytes of a file header. -/
def sizeofElfHdr : ℕ := 64

/-- The fields of a file header. -/
def ElfHdr.decode (b : List UInt8) : ElfHdr :=
  ⟨leNat b 0 4, leNat b 24 8, leNat b 32 8, leNat b 56 2⟩

/-- The header at the start of a file. -/
def ExecFile.header (f : ExecFile) : ElfHdr := ElfHdr.decode (f.read 0 sizeofElfHdr)

/-- The fields of `struct proghdr` that `proc_load` reads. -/
structure ProgHdr where
  type : ℕ
  flags : ℕ
  off : ℕ
  vaddr : ℕ
  filesz : ℕ
  memsz : ℕ
deriving DecidableEq, Repr

/-- Bytes of a program header. -/
def sizeofProgHdr : ℕ := 56

/-- The fields of a program header. -/
def ProgHdr.decode (b : List UInt8) : ProgHdr :=
  ⟨leNat b 0 4, leNat b 4 4, leNat b 8 8, leNat b 16 8, leNat b 32 8, leNat b 40 8⟩

/-- `ELF_MAGIC`. -/
def elfMagic : ℕ := 0x464C457F

/-- `PT_LOAD`. -/
def ptLoad : ℕ := 1

/-- The flag `PF_W` is set. -/
def ProgHdr.writable (ph : ProgHdr) : Bool := ph.flags / 2 % 2 = 1

/-- The permission of a segment. -/
def ProgHdr.perm (ph : ProgHdr) : MemPerm := if ph.writable then .urw else .ur

/-! ## Loading -/

/-- Write one byte of a page. -/
def Vm.setByte (s : Vm) (f ofs : ℕ) (b : UInt8) : Vm :=
  let w := s.mem f (ofs / 8)
  let shift := 2 ^ (8 * (ofs % 8))
  s.setWord f (ofs / 8) (w - w / shift % 256 * shift + b.toNat * shift)

/-- Write bytes of a page from an offset on. -/
def Vm.setBytes (s : Vm) (f : ℕ) : (ofs : ℕ) → List UInt8 → Vm
  | _, [] => s
  | ofs, b :: rest => (s.setByte f ofs b).setBytes f (ofs + 1) rest

/-- The bytes read for a page: no call is made for 0 bytes. -/
def ExecFile.readPage (f : ExecFile) (off avail : ℕ) : List UInt8 :=
  if avail = 0 then [] else f.read off avail

/-- Read `avail` bytes of the file into a new page, and map it. -/
def loadFill (f : ExecFile) (a vaddr : ℕ) (perm : MemPerm) (off pofs avail paddr : ℕ) :
    SpaceM Err := do
  Prog.update fun s => { s with vm := s.vm.zeroPage (paddr / pgSize) }
  Prog.update fun s => { s with vm := s.vm.setBytes (paddr / pgSize) pofs (f.readPage off avail) }
  if (f.readPage off avail).length ≠ avail then pure .inval
  else do
    let s ← Prog.read
    vmCall (vpmapMap (s.space a).vpmap vaddr paddr 1 perm)

/-- One page of a segment. -/
def loadPage (f : ExecFile) (a vaddr : ℕ) (perm : MemPerm) (off pofs avail : ℕ) : SpaceM Err := do
  match ← vmCall (pmemCall pmemAlloc) with
  | none => pure .nomem
  | some paddr => loadFill f a vaddr perm off pofs avail paddr

/-- The loop of `proc_load` over the pages of a segment, of which `n` are left. -/
def loadPages (f : ExecFile) (a : ℕ) (ph : ProgHdr) : (n count off readBytes : ℕ) → SpaceM Err
  | 0, _, _, _ => pure .ok
  | n + 1, count, off, readBytes => do
    -- only the first page may start at an offset
    let pofs := if count = 0 then pgOfs ph.vaddr else 0
    let avail := min readBytes (pgSize - pofs)
    let err ← loadPage f a (addAddr ph.vaddr (count * pgSize)) ph.perm off pofs avail
    if err ≠ .ok then pure err
    else loadPages f a ph n (count + 1) (addAddr off avail) (readBytes - avail)

/-- The size of the region of a segment. -/
def ProgHdr.size (ph : ProgHdr) : ℕ := pgRoundUpAddr (addAddr ph.memsz (pgOfs ph.vaddr))

/-- One segment: its region, and its pages.  Returns the end of the region. -/
def loadSegment (f : ExecFile) (a : ℕ) (ph : ProgHdr) : SpaceM (Except Err ℕ) := do
  if ph.memsz < ph.filesz ∨ addAddr ph.vaddr ph.memsz < ph.vaddr then pure (.error .inval)
  else do
    match ← asMapMemregion a (pgRoundDown ph.vaddr) ph.size ph.perm 0 ph.off 0 with
    | none => pure (.error .nomem)
    | some r => do
      let s ← Prog.read
      let err ← loadPages f a ph (ph.size / pgSize) 0 ph.off ph.filesz
      if err ≠ .ok then pure (.error err) else pure (.ok (s.region r).fin)

/-- The loop of `proc_load` over the program headers, of which `n` are left.  Returns the end of the
last segment. -/
def loadSegments (f : ExecFile) (a : ℕ) : (n ofs fin : ℕ) → SpaceM (Except Err ℕ)
  | 0, _, fin => pure (.ok fin)
  | n + 1, ofs, fin => do
    let bytes := f.read ofs sizeofProgHdr
    if bytes.length ≠ sizeofProgHdr then pure (.error .inval)
    else if (ProgHdr.decode bytes).type ≠ ptLoad then
      loadSegments f a n (addAddr ofs sizeofProgHdr) fin
    else do
      match ← loadSegment f a (ProgHdr.decode bytes) with
      | .error e => pure (.error e)
      | .ok fin => loadSegments f a n (addAddr ofs sizeofProgHdr) fin

/-- Make the heap, an empty region at the end of the last segment. -/
def loadHeap (a fin entry : ℕ) : SpaceM (Except Err ℕ) := do
  let heap ← asMapMemregion a fin 0 .urw 0 0 0
  Prog.update fun s => s.setHeap a heap
  if heap.isNone then pure (.error .nomem) else pure (.ok entry)

/-- Load an executable file.  Returns its entry point. -/
def procLoad (f : ExecFile) (a : ℕ) : SpaceM (Except Err ℕ) :=
  if f.openErr ≠ .ok then pure (.error f.openErr)
  else if (f.read 0 sizeofElfHdr).length ≠ sizeofElfHdr ∨ f.header.magic ≠ elfMagic then
    pure (.error .inval)
  else do
    match ← loadSegments f a f.header.phnum f.header.phoff 0 with
    | .error e => pure (.error e)
    | .ok fin => loadHeap a fin f.header.entry

/-! ## The stack -/

/-- `USTACK_UPPERBOUND`. -/
def ustackUpperbound : ℕ := 0xFFFFFF7FFFFFF000

/-- `USTACK_PAGES`. -/
def ustackPages : ℕ := 10

/-- The region of the stack, and its first page. -/
def stackMap (a paddr : ℕ) : SpaceM Err := do
  match ← asMapMemregion a (ustackUpperbound - pgSize - 9 * pgSize) (pgSize * 10) .urw 0 0 0 with
  | none => pure .nomem
  | some _ => do
    let s ← Prog.read
    vmCall (vpmapMap (s.space a).vpmap (ustackUpperbound - pgSize) paddr 1 .urw)

/-- Set up the stack.  Returns the stack pointer, below the space for three words. -/
def stackSetup (a : ℕ) : SpaceM (Except Err ℕ) := do
  match ← vmCall (pmemCall pmemAlloc) with
  | none => pure (.error .nomem)
  | some paddr => do
    Prog.update fun s => { s with vm := s.vm.zeroPage (paddr / pgSize) }
    let err ← stackMap a paddr
    if err ≠ .ok then do
      vmCall (pmemCall (pmemFree paddr))
      pure (.error err)
    else pure (.ok (pgSize - 3 * 8 + ustackUpperbound - pgSize))

/-! ## The heap -/

/-- Whether `memregion_extend` takes the region `r` with the new end to overlap with `mr`. -/
def extendOverlaps (r mr : MemRegion) (newEnd : ℕ) : Bool :=
  (mr.start < newEnd && r.start ≤ mr.start) || (r.start < mr.fin && mr.start ≤ r.start)

/-- A 64-bit sum of an address and a signed size. -/
def extendAddr (addr : ℕ) (size : Int) : ℕ := ((addr + size) % 2 ^ 64).toNat

/-- Move the end of a region of `a`.  Returns the end it had, if it sets `old_bound`. -/
def memregionExtend (a r : ℕ) (size : Int) : SpaceM (Err × Option ℕ) := do
  let s ← Prog.read
  let newEnd := extendAddr (s.region r).fin size
  if size = 0 then pure (.ok, some (s.region r).fin)
  else if newEnd < (s.region r).start then pure (.vmInvalid, none)
  else if (s.space a).regions.any fun n =>
      n ≠ r && extendOverlaps (s.region r) (s.region n) newEnd then pure (.vmBound, none)
  else do
    Prog.update fun s => s.setRegion r { s.region r with fin := newEnd }
    pure (.ok, some (s.region r).fin)

/-- The region of the heap, which is there in every process that runs. -/
def heapRegion (a : ℕ) : SpaceM ℕ := do
  let s ← Prog.read
  match (s.space a).heap with
  | none => Prog.trap (.wild "as.heap")
  | some r => pure r

/-- Returns the end of the heap before the call. -/
def sysSbrk (a : ℕ) (increment : Int) : SpaceM ℕ := do
  let r ← heapRegion a
  let s ← Prog.read
  let (_, old) ← memregionExtend a r increment
  pure (old.getD (s.region r).fin)

/-! ## Page faults -/

/-- How the page fault handler ends: it returns, or the process exits with -1. -/
inductive FaultEnd where
  | resumed
  | exited
deriving DecidableEq, Repr

/-- Map a page at the page of an address. -/
def faultMap (a addr paddr : ℕ) : SpaceM Err := do
  let s ← Prog.read
  vmCall (vpmapMap (s.space a).vpmap (pgRoundDown addr) paddr 1 .urw)

/-- Fill a new page with zeros and map it. -/
def faultFill (a addr paddr : ℕ) : SpaceM FaultEnd := do
  Prog.update fun s => { s with vm := s.vm.zeroPage (paddr / pgSize) }
  let err ← faultMap a addr paddr
  if err ≠ .ok then do
    vmCall (pmemCall (pmemFree paddr))
    pure .exited
  else pure .resumed

/-- Map a new page of zeros at the page of an address. -/
def faultPage (a addr : ℕ) : SpaceM FaultEnd := do
  match ← vmCall (pmemCall pmemAlloc) with
  | none => pure .exited
  | some paddr => faultFill a addr paddr

/-- A page fault of the process with the address space `a`. -/
def handlePageFault (a faultAddr : ℕ) (user : Bool) : SpaceM FaultEnd := do
  if user && ustackUpperbound - pgSize * ustackPages ≤
    faultAddr && faultAddr < ustackUpperbound then
    faultPage a faultAddr
  else if user then do
    let r ← heapRegion a
    let s ← Prog.read
    if (s.region r).start ≤ faultAddr && faultAddr < (s.region r).fin then faultPage a faultAddr
    else pure .exited
  else panic "Kernel error in page fault handler\n"

end Osv
