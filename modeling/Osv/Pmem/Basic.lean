import Mathlib.Logic.Function.Basic
import Osv.Base

/-!
# Physical memory

The functions of `kernel/mm/pmem.c`.  The module holds two allocators.  The
boot allocator keeps one bit for each managed page and searches first fit.  The
binary buddy allocator keeps a `struct page` for each physical page and, for
each order up to `MAX_ORDER`, a list of free blocks of that many pages to the
power of two.  `pmem_init` hands the memory over from the first to the second.

A page is named by its number, which is its index in `pagemap`, so a pointer to
a `struct page` is a number here and is never null.  Of a `struct page` the
allocator reads the reference count and the order.  The intrusive `node` is
modelled by the list it is on.  `pmem_lock` is held throughout every function
below, so each is one atomic step.
-/

namespace Osv

/-- Largest order of a block. -/
def maxOrder : ℕ := 10

/-- `sizeof(struct page)`. -/
def sizeofPage : ℕ := 136

/-- The memory the kernel manages, in byte addresses. -/
structure PmemConfig where
  pmemStart : ℕ
  pmemEnd : ℕ
  /-- The kernel image lies below the managed memory. -/
  start_pos : 0 < pmemStart
  /-- Page numbers are values of a C `int`. -/
  pages_lt : pmemEnd / pgSize < 2 ^ 31

/-- What the allocator reads of a `struct page`. -/
structure Page where
  /-- Reference count, a C `int`. -/
  refcnt : Int
  /-- Size of the block, as a power of two of pages. -/
  order : ℕ
deriving DecidableEq, Repr

/-- The variables of `pmem.c`. -/
structure Pmem where
  config : PmemConfig
  /-- The bits of the boot allocator, set for a page that is handed out. -/
  bitmap : ℕ → Bool
  /-- Start of the memory the boot allocator has not reached. -/
  bitmapContigStart : ℕ
  /-- Number of managed pages. -/
  bitmapEnd : ℕ
  pagemap : ℕ → Page
  /-- The distance of `pagemap_end` from `pagemap`. -/
  nPages : ℕ
  pagemapInitialized : Bool
  /-- The free blocks of each order, first to last. -/
  freeblocks : ℕ → List ℕ

/-- A function of `pmem.c`. -/
abbrev PmemM := Prog Trap Pmem

namespace Pmem

/-- Number of the first managed page. -/
def startPage (s : Pmem) : ℕ := s.config.pmemStart / pgSize

/-- A bit of the bitmap is written. -/
def setBit (s : Pmem) (i : ℕ) (b : Bool) : Pmem :=
  { s with bitmap := Function.update s.bitmap i b }

/-- A reference count is written. -/
def setRefcnt (s : Pmem) (i : ℕ) (r : Int) : Pmem :=
  { s with pagemap := Function.update s.pagemap i { s.pagemap i with refcnt := r } }

/-- An order is written. -/
def setOrder (s : Pmem) (i k : ℕ) : Pmem :=
  { s with pagemap := Function.update s.pagemap i { s.pagemap i with order := k } }

end Pmem

/-! ## The boot allocator -/

/-- Pages that hold the bitmap. -/
def bitmapNPages (c : PmemConfig) : ℕ :=
  pgRoundUp ((c.pmemEnd - c.pmemStart) / pgSize / 8) / pgSize

/-- Physical address of a bit. -/
def bitmapItop (c : PmemConfig) (i : ℕ) : ℕ := i * pgSize + c.pmemStart

/-- Bit of a physical address. -/
def bitmapPtoi (c : PmemConfig) (paddr : ℕ) : ℕ := (paddr - c.pmemStart) / pgSize

/-- The loop of `bitmap_alloc` over the bits from `i`. -/
def bitmapAllocLoop : ℕ → ℕ → PmemM Unit
  | _, 0 => pure ()
  | i, n + 1 => do
    kassert "!(BITMAP_ISSET(index + i))" fun s => !s.bitmap i
    Prog.update fun s => s.setBit i true
    bitmapAllocLoop (i + 1) n

/-- Mark `n` pages from `index` as allocated. -/
def bitmapAlloc (index n : ℕ) : PmemM Unit := do
  kassert "index + n <= bitmap_end" fun s => index + n ≤ s.bitmapEnd
  bitmapAllocLoop index n
  Prog.update fun s => { s with bitmapContigStart := max s.bitmapContigStart (index + n) }

/-- The loop of `bitmap_free` over the bits from `i`. -/
def bitmapFreeLoop : ℕ → ℕ → PmemM Unit
  | _, 0 => pure ()
  | i, n + 1 => do
    kassert "BITMAP_ISSET(index + i)" fun s => s.bitmap i
    Prog.update fun s => s.setBit i false
    bitmapFreeLoop (i + 1) n

/-- The scan for contiguous free pages below `index`. -/
def bitmapScan (bits : ℕ → Bool) : ℕ → ℕ
  | 0 => 0
  | i + 1 => if bits i then i + 1 else bitmapScan bits i

/-- Mark `n` pages from `index` as free. -/
def bitmapFree (index n : ℕ) : PmemM Unit := do
  kassert "index + n <= bitmap_end" fun s => index + n ≤ s.bitmapEnd
  kassert "index + n <= bitmap_contig_start" fun s => index + n ≤ s.bitmapContigStart
  bitmapFreeLoop index n
  Prog.update fun s =>
    if index + n = s.bitmapContigStart then
      { s with bitmapContigStart := bitmapScan s.bitmap index }
    else s

/-- The loop of `bitmap_find` from bit `i`, with `rem` bits left. -/
def bitmapFindLoop (bits : ℕ → Bool) (n : ℕ) : (rem i first nFreePages : ℕ) → Option ℕ
  | 0, _, _, _ => none
  | rem + 1, i, first, nFreePages =>
    if bits i then bitmapFindLoop bits n rem (i + 1) (first + 1) 0
    else if n ≤ nFreePages + 1 then some first
    else bitmapFindLoop bits n rem (i + 1) first (nFreePages + 1)

/-- Search for `n` contiguous free pages. -/
def bitmapFind (n : ℕ) : PmemM (Option ℕ) := do
  kassert "n > 0" fun _ => 0 < n
  Prog.reads fun s => bitmapFindLoop s.bitmap n s.bitmapEnd 0 0 0

/-- Set up the boot allocator, with the bitmap in the first managed pages. -/
def bitmapInit : PmemM Unit := do
  kassert "pmemconfig.pmem_start < pmemconfig.pmem_end" fun s =>
    s.config.pmemStart < s.config.pmemEnd
  kassert "pg_aligned(pmemconfig.pmem_start)" fun s => pgAligned s.config.pmemStart
  kassert "pg_aligned(pmemconfig.pmem_end)" fun s => pgAligned s.config.pmemEnd
  Prog.update fun s =>
    { s with
      bitmapContigStart := 0
      bitmapEnd := (s.config.pmemEnd - s.config.pmemStart) / pgSize }
  kassert "bitmap_n_pages < bitmap_end" fun s => bitmapNPages s.config < s.bitmapEnd
  Prog.update fun s =>
    -- only the bytes of the reserved pages are cleared
    { s with bitmap := fun i => if i < 8 * (pgSize * bitmapNPages s.config) then false
      else s.bitmap i }
  let s ← Prog.read
  bitmapAlloc 0 (bitmapNPages s.config)

/-! ## The buddy allocator -/

/-- The loop of `get_max_page_order`, downwards from `order`. -/
def maxFit (fits : ℕ → Bool) : (order : ℕ) → ℕ
  | 0 => 0
  | order + 1 => if fits (order + 1) then order + 1 else maxFit fits order

/-- The largest order of a block that starts at `start` and does not exceed `fin`. -/
def getMaxPageOrder (start fin : ℕ) : PmemM ℕ := do
  kassert "end_index > start_index" fun _ => start / pgSize < fin / pgSize
  pure (maxFit (fun order => start / pgSize % 2 ^ order = 0 ∧
    start / pgSize + 2 ^ order ≤ fin / pgSize) maxOrder)

/-- The least order of a block of at least `n` pages. -/
def getMinPageOrder (n : ℕ) : PmemM ℕ :=
  match (List.range (maxOrder + 1)).find? fun order => n ≤ 2 ^ order with
  | some order => pure order
  | none => panic "size larger than MAX_ORDER"

/-- Put a block on the free list of its order. -/
def freeblocksInsert (page : ℕ) : PmemM Unit := do
  kassert "page->order >= 0 && page->order <= MAX_ORDER" fun s =>
    (s.pagemap page).order ≤ maxOrder
  Prog.update fun s => s.setRefcnt page 0
  Prog.update fun s =>
    let order := (s.pagemap page).order
    { s with freeblocks := Function.update s.freeblocks order (s.freeblocks order ++ [page]) }

/-- Unlink a block from the list its node is on. -/
def listRemove (page : ℕ) : PmemM Unit := do
  let s ← Prog.read
  if (List.range (maxOrder + 1)).any fun k => page ∈ s.freeblocks k then
    Prog.update fun s => { s with freeblocks := fun k => (s.freeblocks k).erase page }
  else Prog.trap (.wild "list_remove: node is on no list")

/-- Take a block off its free list. -/
def freeblocksRemove (page : ℕ) : PmemM Unit := do
  kassert "page->refcnt == 0" fun s => (s.pagemap page).refcnt = 0
  kassert "page->order >= 0 && page->order <= MAX_ORDER" fun s =>
    (s.pagemap page).order ≤ maxOrder
  listRemove page

/-- The buddy of a block, if it lies in the page map. -/
def findBuddy (page : ℕ) : PmemM (Option ℕ) := do
  kassert "page->order >= 0 && page->order <= MAX_ORDER" fun s =>
    (s.pagemap page).order ≤ maxOrder
  kassert "index % (1 << page->order) == 0" fun s => page % 2 ^ (s.pagemap page).order = 0
  Prog.reads fun s =>
    let order := (s.pagemap page).order
    let buddy := if page / 2 ^ order % 2 = 1 then page - 2 ^ order else page + 2 ^ order
    if s.nPages ≤ buddy then none else some buddy

/-- The part of `find_freeblock` that gives half of a block of order `order` back. -/
def splitBlock (page order : ℕ) : PmemM Unit := do
  Prog.update fun s => s.setOrder page (order - 1)
  match ← findBuddy page with
  | none => panic "Failed find buddy block"
  | some buddy =>
    Prog.update fun s => s.setOrder buddy (order - 1)
    freeblocksInsert buddy

/-- The body of `find_freeblock`, with `rem` orders left up to `MAX_ORDER`. -/
def findFreeblockFrom : (rem order : ℕ) → (split : Bool) → PmemM (Option ℕ)
  | 0, _, _ => pure none
  | rem + 1, order, split => do
    let s ← Prog.read
    let found ← (match s.freeblocks order with
      | page :: _ => do
        freeblocksRemove page
        pure (some page)
      | [] => findFreeblockFrom rem (order + 1) true : PmemM (Option ℕ))
    match found with
    | none => pure none
    | some page => do
      (if split then splitBlock page order else pure ())
      pure (some page)

/-- A free block of the given order, taken off its list. -/
def findFreeblock (order : ℕ) (split : Bool) : PmemM (Option ℕ) :=
  findFreeblockFrom (maxOrder + 1 - order) order split

/-- The body of `merge_block`, with `rem` recursive calls left. -/
def mergeBlockFrom : (rem page : ℕ) → PmemM ℕ
  | 0, _ => Prog.trap (.wild "merge_block: recursion past MAX_ORDER")
  | rem + 1, page => do
    kassert "page->refcnt == 0" fun s => (s.pagemap page).refcnt = 0
    kassert "page->order >= 0 && page->order <= MAX_ORDER" fun s =>
      (s.pagemap page).order ≤ maxOrder
    let s ← Prog.read
    if (s.pagemap page).order = maxOrder then pure page
    else do
      match ← findBuddy page with
      | none => pure page
      | some buddy =>
        if (s.pagemap buddy).refcnt = 0 ∧
            (s.pagemap buddy).order = (s.pagemap page).order then do
          freeblocksRemove buddy
          if page < buddy then do
            Prog.update fun s => s.setOrder page ((s.pagemap page).order + 1)
            mergeBlockFrom rem page
          else do
            Prog.update fun s => s.setOrder buddy ((s.pagemap buddy).order + 1)
            mergeBlockFrom rem buddy
        else pure page

/-- Merge a block with its buddy as long as the buddy is free. -/
def mergeBlock (page : ℕ) : PmemM ℕ := mergeBlockFrom (maxOrder + 1) page

/-- Allocate `n` contiguous pages: the address of the first, or nothing for `ERR_NOMEM`. -/
def pmemNallocInternal (n : ℕ) : PmemM (Option ℕ) := do
  kassert "n > 0" fun _ => 0 < n
  let s ← Prog.read
  if !s.pagemapInitialized then do
    match ← bitmapFind n with
    | none => pure none
    | some index => do
      bitmapAlloc index n
      pure (some (bitmapItop s.config index))
  else do
    let order ← getMinPageOrder n
    match ← findFreeblock order false with
    | none => pure none
    | some page => do
      kassert "page->refcnt == 0" fun s => (s.pagemap page).refcnt = 0
      Prog.update fun s => s.setRefcnt page 1
      kassert "*paddr != NULL" fun _ => page * pgSize ≠ 0
      pure (some (page * pgSize))

/-- Free the block at `paddr`.  The buddy allocator goes by the recorded order, not by `n`. -/
def pmemNfreeInternal (paddr n : ℕ) : PmemM Unit := do
  kassert "n > 0" fun _ => 0 < n
  let s ← Prog.read
  if !s.pagemapInitialized then
    bitmapFree (bitmapPtoi s.config paddr) n
  else do
    Prog.update fun s => s.setRefcnt (paddr / pgSize) 0
    let page ← mergeBlock (paddr / pgSize)
    freeblocksInsert page

/-- Take `n` pages. -/
def pmemNalloc (n : ℕ) : PmemM (Option ℕ) := pmemNallocInternal n

/-- Give `n` pages back. -/
def pmemNfree (paddr n : ℕ) : PmemM Unit := pmemNfreeInternal paddr n

/-- Take a page. -/
def pmemAlloc : PmemM (Option ℕ) := pmemNalloc 1

/-- Give a page back. -/
def pmemFree (paddr : ℕ) : PmemM Unit := pmemNfree paddr 1

/-- Add `n` to the reference count of a page. -/
def pmemIncRefcnt (paddr : ℕ) (n : Int) : PmemM Unit := do
  kassert "page->refcnt > 0" fun s => 0 < (s.pagemap (paddr / pgSize)).refcnt
  kassert "page->order == 0" fun s => (s.pagemap (paddr / pgSize)).order = 0
  Prog.update fun s =>
    s.setRefcnt (paddr / pgSize) (wrapInt ((s.pagemap (paddr / pgSize)).refcnt + n))

/-- Drop one reference of a page, and free the page with the last one. -/
def pmemDecRefcnt (paddr : ℕ) : PmemM Unit := do
  kassert "page->refcnt > 0" fun s => 0 < (s.pagemap (paddr / pgSize)).refcnt
  kassert "page->order == 0" fun s => (s.pagemap (paddr / pgSize)).order = 0
  Prog.update fun s =>
    s.setRefcnt (paddr / pgSize) (wrapInt ((s.pagemap (paddr / pgSize)).refcnt - 1))
  let s ← Prog.read
  if (s.pagemap (paddr / pgSize)).refcnt = 0 then
    pmemNfreeInternal paddr 1

/-! ## Hand-over -/

/-- Allocate and clear the page map. -/
def pagemapInit : PmemM Unit := do
  let s ← Prog.read
  let nPages := s.config.pmemEnd / pgSize
  let pagemapNPages := pgRoundUp (nPages * sizeofPage) / pgSize
  match ← pmemNallocInternal pagemapNPages with
  | none => panic "Failed to allocate memory for pagemap"
  | some _ => Prog.update fun s => { s with pagemap := fun _ => ⟨0, 0⟩, nPages := nPages }

/-- Cover the pages from `start` to `fin` with free blocks, each as large as it can be.  Every round
moves `start` up, so `rem` rounds are enough when `rem` is the distance. -/
def freeblocksInsertRangeFrom : (rem start fin : ℕ) → PmemM Unit
  | 0, _, _ => pure ()
  | rem + 1, start, fin =>
    if start < fin then do
      let order ← getMaxPageOrder start fin
      Prog.update fun s => s.setOrder (start / pgSize) order
      freeblocksInsert (start / pgSize)
      freeblocksInsertRangeFrom rem (start + 2 ^ order * pgSize) fin
    else pure ()

/-- Lay a range down as free blocks. -/
def freeblocksInsertRange (start fin : ℕ) : PmemM Unit :=
  freeblocksInsertRangeFrom (fin - start) start fin

/-- A page that was handed out before the buddy allocator existed. -/
def markAllocated (s : Pmem) (page : ℕ) : Pmem := (s.setRefcnt page 1).setOrder page 0

/-- The loop that marks the `n` pages from `page` on as allocated. -/
def markUnavailable : (n page : ℕ) → PmemM Unit
  | 0, _ => pure ()
  | n + 1, page => do
    Prog.update fun s => markAllocated s page
    markUnavailable n (page + 1)

/-- The end of the run of clear bits from `probe`, with `rem` bits left. -/
def probeFree (bits : ℕ → Bool) : (rem probe : ℕ) → ℕ
  | 0, probe => probe
  | rem + 1, probe => if bits probe then probe else probeFree bits rem (probe + 1)

/-- The walk of `freeblocks_init` over the bitmap from `index`, with `rem` rounds left. -/
def freeblocksScan : (rem index : ℕ) → PmemM Unit
  | 0, _ => pure ()
  | rem + 1, index => do
    let s ← Prog.read
    if index < s.bitmapContigStart then
      if s.bitmap index then do
        Prog.update fun s => markAllocated s (bitmapItop s.config index / pgSize)
        freeblocksScan rem (index + 1)
      else do
        let probe := probeFree s.bitmap (s.bitmapContigStart - (index + 1)) (index + 1)
        freeblocksInsertRange (bitmapItop s.config index) (bitmapItop s.config probe)
        freeblocksScan rem probe
    else pure ()

/-- Hand every page that the boot allocator has not given out to the free lists. -/
def freeblocksInit : PmemM Unit := do
  let s ← Prog.read
  pmemNfreeInternal s.config.pmemStart (bitmapNPages s.config)
  Prog.update fun s => { s with freeblocks := fun _ => [] }
  markUnavailable (pgRoundUp s.config.pmemStart / pgSize) 0
  let s ← Prog.read
  freeblocksScan s.bitmapContigStart 0
  let s ← Prog.read
  freeblocksInsertRange (bitmapItop s.config s.bitmapContigStart) s.config.pmemEnd

/-- Before the page map is there. -/
def pmemBootInit : PmemM Unit := do
  bitmapInit
  Prog.update fun s => { s with pagemapInitialized := false }

/-- The page map and the free lists. -/
def pmemInit : PmemM Unit := do
  pagemapInit
  freeblocksInit
  Prog.update fun s => { s with pagemapInitialized := true }

end Osv
