import Osv.Base
import Osv.Lib.Bytes

/-!
# Blocks, buffers and the journal

What the file system of `kernel/fs/sfs/sfs.c` stands on.  A block of the device has a buffer in
memory.  `bdev_get_blk` of `kernel/bdev.c` takes a reference to the buffer, with its lock or
without, and fails if the memory for it cannot be had.  A buffer that has a reference is there, so a
second call for the same block does not fail.  The buffers of a page get their headers together: a
call that fails half way leaves some of them behind, and the next call for a buffer of the page that
has none panics (`Osv/Fs/Headers.lean` has the lists of headers themselves).  `jbd_write_blk` of
`kernel/fs/jbd.c` puts a block on the list of the transaction, and the list holds a reference too.

Transactions exclude each other (`jbd_begin_txn`), so the changes of the file
system are made by one thread at a time, and `held` are the buffers that it has
locked.  Each allocation of memory asks `avail`, in turn.

The contents of the buffers and the inodes in memory are the `Data` of the file
system.  References, locks and the list of the transaction are its `Ctl`, and what
was written to the device is its `Dev`.
-/

namespace Osv

/-- Block numbers. -/
abbrev Blk := ℕ
/-- Inode numbers. -/
abbrev Inum := ℕ

/-! ## Layout -/

/-- `BDEV_BLK_SIZE`. -/
def bdevBlkSize : ℕ := 512

/-- `N_BLKS_PER_PAGE`. -/
def nBlksPerPage : ℕ := pgSize / bdevBlkSize

/-- Block of the inode bitmap. -/
def sfsInodeBmapBlk : ℕ := 3

/-- First block of the inode table. -/
def sfsInodeTableBlk : ℕ := 4

/-- The root directory. -/
def sfsRootInum : ℕ := 1

/-- `SFS_NDIRECT`. -/
def sfsNdirect : ℕ := 12

/-- `SFS_NINDIRECT`. -/
def sfsNindirect : ℕ := 2

/-- Block numbers in an indirect block. -/
def ptrsPerBlk : ℕ := 128

/-- Blocks of the largest file. -/
def sfsMaxBlks : ℕ := sfsNdirect + sfsNindirect * ptrsPerBlk

/-- Bytes that a file can have. -/
def sfsMaxFileSize : ℕ := sfsMaxBlks * bdevBlkSize

/-- Bits of a bitmap block. -/
def bitsPerBlk : ℕ := 4096

/-- `JOURNAL_SIZE`. -/
def journalSize : ℕ := 128

/-- `struct sfs_sb_info`, with the layout at the top of `sfs.h`: inode bitmap, inode table, data
block bitmap, journal, data blocks.  The sizes are multiples of what a byte of a bitmap has. -/
structure SbInfo where
  size : ℕ
  numInodes : ℕ
  dataBmapStart : ℕ
  journalStart : ℕ
  dataStart : ℕ
  /-- The inode bitmap is one block. -/
  inodes_le : numInodes ≤ bitsPerBlk
  inodes_dvd : 8 ∣ numInodes
  table_le : sfsInodeTableBlk + numInodes / 8 ≤ dataBmapStart
  bmap_le : dataBmapStart ≤ journalStart
  size_dvd : 8 ∣ size
  /-- The blocks of the data bitmap have bits for all data blocks. -/
  size_le : size ≤ (journalStart - dataBmapStart) * bitsPerBlk
  /-- Each block of the data bitmap has bits of data blocks. -/
  bits_lt : (journalStart - dataBmapStart) * bitsPerBlk < size + bitsPerBlk
  /-- A header, a block map and the data blocks of the journal. -/
  journal_le : journalStart + 2 + journalSize ≤ dataStart
  /-- Block numbers are 32-bit. -/
  data_le : dataStart + size ≤ 2 ^ 32

/-- The super block that `tools/mkfs.c` writes. -/
def mkfsSb : SbInfo where
  size := 131072
  numInodes := 256
  dataBmapStart := 36
  journalStart := 68
  dataStart := 324
  inodes_le := by decide
  inodes_dvd := by decide
  table_le := by decide
  bmap_le := by decide
  size_dvd := by decide
  size_le := by decide
  bits_lt := by decide
  journal_le := by decide
  data_le := by decide

/-- Blocks of the data bitmap. -/
def SbInfo.bmapBlks (sb : SbInfo) : ℕ := sb.journalStart - sb.dataBmapStart

/-- Block of the table with an inode. -/
def inumToBlk (i : ℕ) : ℕ := sfsInodeTableBlk + (i - 1) / 8

/-- Place of the inode in its block. -/
def inumToOfs (i : ℕ) : ℕ := (i - 1) * 64 % bdevBlkSize

/-! ## State -/

/-- `FTYPE_DIR`. -/
def ftypeDir : ℕ := 1

/-- `FTYPE_FILE`. -/
def ftypeFile : ℕ := 2

/-- What an inode says about its file. -/
structure DInode where
  ftype : ℕ
  mode : ℕ
  nlink : ℕ
  size : ℕ
  /-- `i_addrs`, of which there are 14. -/
  addrs : ℕ → Blk

/-- An inode in memory. -/
structure Inode extends DInode where
  ref : ℕ
  valid : Bool
  dirty : Bool

/-- Buffers and inodes. -/
structure Data where
  /-- The contents of buffers.  A block without a buffer gets its content from the device. -/
  buf : Blk → Bytes
  /-- `s_icache`. -/
  icache : Inum → Option Inode
  /-- `cleanup_thread_inodes`. -/
  cleanup : List Inum
  /-- The buffer that follows another in memory. -/
  next : Blk → Option Blk

/-- References, locks, the transaction and the memory. -/
structure Ctl where
  /-- References to buffers. -/
  ref : Blk → ℕ
  /-- Buffers that the thread has locked, latest first. -/
  held : List Blk
  /-- A transaction has begun. -/
  busy : Bool
  /-- `datablks` of the journal. -/
  logged : List Blk
  /-- Whether an allocation of memory succeeds, by its number. -/
  avail : ℕ → Bool
  /-- Allocations so far. -/
  tick : ℕ
  /-- How many headers the pages of the block cache have. -/
  headers : ℕ → ℕ
  /-- The dirty bits of the pages. -/
  pageDirty : ℕ → Bool
  /-- How many headers of a page there was memory for, if there was not enough for all of them, by
  the number of the allocation. -/
  made : ℕ → ℕ

/-- No block has a reference or a header. -/
def Ctl.idle (busy : Bool) (avail : ℕ → Bool) : Ctl :=
  ⟨fun _ => 0, [], busy, [], avail, 0, fun _ => 0, fun _ => false, fun _ => 0⟩

/-- The device: what it held first, and what was written, in order. -/
structure Dev where
  image : Blk → Bytes
  writes : List (Blk × Bytes)

/-- The contents after some writes. -/
def Dev.after (image : Blk → Bytes) (writes : List (Blk × Bytes)) : Blk → Bytes :=
  writes.foldl (fun d w => Function.update d w.1 w.2) image

/-- The contents of the device. -/
def Dev.disk (d : Dev) : Blk → Bytes := Dev.after d.image d.writes

/-- The state of the file system. -/
structure Fs where
  data : Data
  ctl : Ctl
  dev : Dev

/-- A function of the file system. -/
abbrev FsM := Prog Trap Fs

/-- A buffer is written. -/
def Data.setBuf (d : Data) (b : Blk) (m : Bytes) : Data :=
  { d with buf := Function.update d.buf b m }

/-- A cached inode is replaced. -/
def Data.setInode (d : Data) (i : Inum) (n : Option Inode) : Data :=
  { d with icache := Function.update d.icache i n }

/-- Change buffers and inodes. -/
def modifyData (f : Data → Data) : FsM Unit := Prog.update fun s => { s with data := f s.data }

/-- Change references, locks and the transaction. -/
def modifyCtl (f : Ctl → Ctl) : FsM Unit := Prog.update fun s => { s with ctl := f s.ctl }

/-! ## Buffers -/

/-- An allocation of memory. -/
def memAlloc : FsM Bool := do
  let s ← Prog.read
  modifyCtl fun c => { c with tick := c.tick + 1 }
  pure (s.ctl.avail s.ctl.tick)

/-- One more reference to a buffer. -/
def blkRef (b : Blk) : FsM Unit :=
  modifyCtl fun c => { c with ref := Function.update c.ref b (c.ref b + 1) }

/-- The page of a block gets headers. -/
def setHeaders (b : Blk) (n : ℕ) : FsM Unit :=
  modifyCtl fun c => { c with headers := Function.update c.headers (b / nBlksPerPage) n }

/-- The header of the block is on the list of its page, and so it is if somebody has a reference. -/
def Ctl.HasHeader (c : Ctl) (b : Blk) : Prop :=
  0 < c.ref b ∨ b % nBlksPerPage < c.headers (b / nBlksPerPage)

instance (c : Ctl) (b : Blk) : Decidable (c.HasHeader b) := inferInstanceAs (Decidable (_ ∨ _))

/-- Returns whether the buffer could be had.  The page and its headers are one allocation. -/
def bdevGetBlkUnlocked (b : Blk) : FsM Bool := do
  let s ← Prog.read
  if s.ctl.HasHeader b then do
    blkRef b
    pure true
  else if s.ctl.headers (b / nBlksPerPage) ≠ 0 then panic "bdev block not found in page"
  else if ← memAlloc then do
    setHeaders b nBlksPerPage
    blkRef b
    pure true
  else do
    setHeaders b (min (s.ctl.made s.ctl.tick) (nBlksPerPage - 1))
    pure false

/-- `sleeplock_acquire` of the lock of a buffer.  A thread that has it waits for ever. -/
def blkLock (b : Blk) : FsM Unit := do
  let s ← Prog.read
  if b ∈ s.ctl.held then Prog.trap (.wild "deadlock")
  else modifyCtl fun c => { c with held := b :: c.held }

/-- `sleeplock_release` of the lock of a buffer. -/
def blkUnlock (b : Blk) : FsM Unit := do
  kassert "lock && lock->holder == thread_current()" fun s => b ∈ s.ctl.held
  modifyCtl fun c => { c with held := c.held.erase b }

/-- Returns whether the buffer could be had. -/
def bdevGetBlk (b : Blk) : FsM Bool := do
  if ← bdevGetBlkUnlocked b then do
    blkLock b
    pure true
  else pure false

/-- `free_blk_headers`, if no block of the page has a reference. -/
def Ctl.freeBlkHeaders (c : Ctl) (q : ℕ) : Ctl :=
  if c.pageDirty q ∨ ∃ j < nBlksPerPage, 0 < c.ref (nBlksPerPage * q + j) then c
  else { c with headers := Function.update c.headers q 0 }

/-- Drop a reference to a header. -/
def bdevReleaseBlkUnlocked (b : Blk) : FsM Unit := do
  kassert "bh->ref > 0" fun s => 0 < s.ctl.ref b
  modifyCtl fun c =>
    Ctl.freeBlkHeaders { c with ref := Function.update c.ref b (c.ref b - 1) } (b / nBlksPerPage)

/-- Unlock a block and drop it. -/
def bdevReleaseBlk (b : Blk) : FsM Unit := do
  blkUnlock b
  bdevReleaseBlkUnlocked b

/-- Change the content of a buffer. -/
def blkWrite (b : Blk) (f : Bytes → Bytes) : FsM Unit :=
  modifyData fun d => d.setBuf b (f (d.buf b))

/-! ## The journal -/

/-- The end of `jbd_write_blk`, for a block that is not on the list. -/
def jbdLog (b : Blk) : FsM Unit := do
  let s ← Prog.read
  if journalSize ≤ s.ctl.logged.length then panic "JBD: journal is filled up"
  else do
    blkRef b
    modifyCtl fun c => { c with logged := c.logged ++ [b] }

/-- Log a block, unless it is logged. -/
def jbdWriteBlk (b : Blk) : FsM Unit := do
  kassert "journal->state == BUSY" fun s => s.ctl.busy
  let s ← Prog.read
  if b ∈ s.ctl.logged then pure () else jbdLog b

/-- `bdev_set_blk_dirty`, as far as the page goes, and `jbd_write_blk`. -/
def logBlk (b : Blk) : FsM Unit := do
  modifyCtl fun c => { c with pageDirty := Function.update c.pageDirty (b / nBlksPerPage) true }
  jbdWriteBlk b

/-- Change a buffer, mark it dirty and log it. -/
def logWrite (b : Blk) (f : Bytes → Bytes) : FsM Unit := do
  blkWrite b f
  logBlk b

/-! ## Inodes on the device -/

namespace DInode

/-- The inode at an offset of a block. -/
def decode (m : Bytes) (o : ℕ) : DInode where
  ftype := m.le o 1
  mode := m.le (o + 1) 1
  nlink := m.le (o + 2) 2
  size := m.le (o + 4) 4
  addrs j := if j < sfsNdirect + sfsNindirect then m.le (o + 8 + 4 * j) 4 else 0

/-- The bytes of `n` block numbers. -/
def addrBytes (addrs : ℕ → Blk) : (j n : ℕ) → List UInt8
  | _, 0 => []
  | j, n + 1 => Bytes.leBytes 4 (addrs j) ++ addrBytes addrs (j + 1) n

/-- The bytes of `struct sfs_inode`. -/
def encode (d : DInode) : List UInt8 :=
  Bytes.leBytes 1 d.ftype ++ (Bytes.leBytes 1 d.mode ++ (Bytes.leBytes 2 d.nlink ++
    (Bytes.leBytes 4 d.size ++ addrBytes d.addrs 0 (sfsNdirect + sfsNindirect))))

end DInode

/-! ## Names -/

/-- The byte of a C string at an index.  The string ends with 0. -/
def cstr (name : List UInt8) : ℕ → UInt8 := fun k => name.getD k 0

/-- The first loop of `strncpy`: the bytes that it writes, and what is left of `n`.  The 0 at the
end of the string is written and not counted. -/
def strncpyLoop : List UInt8 → ℕ → List UInt8 × ℕ
  | _, 0 => ([], 0)
  | [], n + 1 => ([0], n + 1)
  | c :: rest, n + 1 =>
    if c = 0 then ([0], n + 1) else (c :: (strncpyLoop rest n).1, (strncpyLoop rest n).2)

/-- The bytes that `strncpy` of `lib/string.c` writes. -/
def strncpy (src : List UInt8) (n : ℕ) : List UInt8 :=
  (strncpyLoop src n).1 ++ List.replicate (strncpyLoop src n).2 0

/-- `strncmp` of the strings from index `k` on.  Callers only test whether it is 0. -/
def strncmp (s1 s2 : ℕ → UInt8) : (n k : ℕ) → Int
  | 0, _ => 0
  | n + 1, k =>
    if s1 k ≠ 0 ∧ s1 k = s2 k then strncmp s1 s2 n (k + 1)
    else ((s1 k).toNat : Int) - (s2 k).toNat

/-- `SFS_DIRENT_NAMELEN`. -/
def sfsDirentNamelen : ℕ := 28

/-- `sizeof(struct sfs_dirent)`. -/
def sizeofDirent : ℕ := 32

/-- `struct sfs_dirent`. -/
structure Dirent where
  inum : Inum
  name : List UInt8
deriving DecidableEq

/-- The directory entry at an offset. -/
def direntAt (m : Bytes) (o : ℕ) : Dirent := ⟨m.le o 4, m.slice (o + 4) sfsDirentNamelen⟩

end Osv
