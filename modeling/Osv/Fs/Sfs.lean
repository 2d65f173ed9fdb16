import Osv.Fs.Basic

/-!
# The simple file system

The functions of `kernel/fs/sfs/sfs.c` that change directories, inodes and data
blocks, with `fs_get_inode` and `fs_release_inode` of `kernel/fs/fs.c`.

A function that gives a buffer back through a pointer returns the number of its
block.  `inode` arguments are inode numbers, and the inode is the one in the cache.
The locks of inodes are left out: they are taken in the order directory, file, and
no two changes of the file system overlap.

The four loops over a directory are one definition, `dirLoop`, with what they ask of
an entry and what they do at the first one that answers.
-/

namespace Osv

variable (sb : SbInfo)

/-! ## Bitmaps -/

/-- The first clear bit of the first `n`. -/
def firstClear (m : Bytes) (n : ℕ) : Option ℕ := (List.range n).find? fun i => !m.bit i

/-- Returns the index of the element, or nothing for -1. -/
def bmapAllocElement (b : Blk) (size : ℕ) : FsM (Option ℕ) := do
  let s ← Prog.read
  match firstClear (s.data.buf b) (8 * size) with
  | some i => do
    logWrite b fun m => m.setBit i
    pure (some i)
  | none => pure none

/-- Clear a bit of a bitmap block. -/
def bmapFreeElement (b : Blk) (index : ℕ) : FsM Unit := logWrite b fun m => m.clearBit index

/-! ## Inodes on disk -/

/-- `alloc_disk_inode` from where the bit of the inode is set. -/
def initDiskInode (ftype mode index : ℕ) : FsM (Except Err Inum) := do
  if ← bdevGetBlk (inumToBlk (index + 1)) then do
    bdevReleaseBlk sfsInodeBmapBlk
    logWrite (inumToBlk (index + 1)) fun m =>
      m.put (inumToOfs (index + 1)) (DInode.encode ⟨ftype, mode, 1, 0, fun _ => 0⟩)
    bdevReleaseBlk (inumToBlk (index + 1))
    pure (.ok (index + 1))
  else do
    bmapFreeElement sfsInodeBmapBlk index
    bdevReleaseBlk sfsInodeBmapBlk
    pure (.error .nomem)

/-- Take an inode from the bitmap. -/
def allocDiskInode (ftype mode : ℕ) : FsM (Except Err Inum) := do
  if ← bdevGetBlk sfsInodeBmapBlk then
    match ← bmapAllocElement sfsInodeBmapBlk (sb.numInodes / 8) with
    | some index => initDiskInode ftype mode index
    | none => do
      bdevReleaseBlk sfsInodeBmapBlk
      pure (.error .nores)
  else pure (.error .nomem)

/-- Give an inode back to the bitmap. -/
def freeDiskInode (inum : Inum) : FsM Err := do
  kassert "inum != 0" fun _ => inum ≠ 0
  if ← bdevGetBlk sfsInodeBmapBlk then do
    bmapFreeElement sfsInodeBmapBlk (inum - 1)
    bdevReleaseBlk sfsInodeBmapBlk
    pure .ok
  else pure .nomem

/-! ## Inodes in memory -/

/-- The inode in the cache. -/
def inode (i : Inum) : FsM Inode := do
  let s ← Prog.read
  match s.data.icache i with
  | some n => pure n
  | none => Prog.trap (.wild "inode")

/-- Store an inode to the cache. -/
def setInode (i : Inum) (n : Inode) : FsM Unit := modifyData fun d => d.setInode i (some n)

/-- Read an inode from its block. -/
def sfsReadInode (i : Inum) : FsM Err := do
  let n ← inode i
  kassert "inode->i_inum != 0" fun _ => i ≠ 0
  kassert "!fs_is_inode_dirty(inode)" fun _ => !n.dirty
  if ← bdevGetBlk (inumToBlk i) then do
    let s ← Prog.read
    setInode i { n with
      toDInode := DInode.decode (s.data.buf (inumToBlk i)) (inumToOfs i)
      valid := true }
    bdevReleaseBlk (inumToBlk i)
    pure .ok
  else pure .nomem

/-- Log an inode to its block. -/
def sfsWriteInode (i : Inum) : FsM Err := do
  let n ← inode i
  kassert "inode->i_inum != 0" fun _ => i ≠ 0
  if ← bdevGetBlk (inumToBlk i) then do
    logWrite (inumToBlk i) fun m => m.put (inumToOfs i) n.encode
    setInode i { n with dirty := false }
    bdevReleaseBlk (inumToBlk i)
    pure .ok
  else pure .nomem

/-- Change an inode in memory, mark it dirty and write it. -/
def updateInode (i : Inum) (f : DInode → DInode) : FsM Err := do
  let n ← inode i
  setInode i { n with toDInode := f n.toDInode, dirty := true }
  sfsWriteInode i

/-- `fs_release_inode` of the inode that is in the cache under `i` and has the number `num`. -/
def fsReleaseInodeAs (i num : Inum) : FsM Unit := do
  kassert "inode->i_inum > 0" fun _ => 0 < num
  let n ← inode i
  kassert "inode->i_ref > 0" fun _ => 0 < n.ref
  if n.ref - 1 = 0 then
    if n.valid ∧ (n.nlink = 0 ∨ n.dirty) then
      modifyData fun d => { d with cleanup := d.cleanup ++ [i] }
    else do
      kassert "radix_tree_remove(&inode->sb->s_icache, inode->i_inum) == inode" fun _ => num = i
      modifyData fun d => d.setInode i none
  else setInode i { n with ref := n.ref - 1 }

/-- `fs_release_inode`. -/
def fsReleaseInode (i : Inum) : FsM Unit := fsReleaseInodeAs i i

/-- `sfs_alloc_inode` and the insertion into the cache.  The inode has a reference when it is freed.
-/
def newInode (i : Inum) : FsM (Except Err Unit) := do
  -- the inode and its `filems`
  if ← memAlloc then
    -- the `sfs_inode_info`
    if ← memAlloc then
      -- the nodes of the radix tree
      if ← memAlloc then do
        setInode i ⟨⟨0, 0, 0, 0, fun _ => 0⟩, 1, false, false⟩
        pure (.ok ())
      else Prog.trap (.kassert "inode->i_ref == 0")
    else Prog.trap (.kassert "inode->i_ref == 0")
  else pure (.error .nomem)

/-- `fs_get_inode` from where the inode is in the cache. -/
def validInode (i : Inum) : FsM (Except Err Unit) := do
  let n ← inode i
  if n.valid then pure (.ok ())
  else do
    let err ← sfsReadInode i
    if err = .ok then pure (.ok ())
    else do
      fsReleaseInode i
      pure (.error err)

/-- `fs_get_inode`. -/
def fsGetInode (i : Inum) : FsM (Except Err Unit) := do
  let s ← Prog.read
  match s.data.icache i with
  | some n => do
    setInode i { n with ref := n.ref + 1 }
    validInode i
  | none => do
    match ← newInode i with
    | .error e => pure (.error e)
    | .ok _ => validInode i

/-! ## Data blocks -/

/-- `alloc_data_block` from where the bit of the block is set. -/
def initDataBlock (bmapBlk index : ℕ) (blk : Blk) : FsM (Except Err Blk) := do
  if ← bdevGetBlk blk then do
    bdevReleaseBlk bmapBlk
    logWrite blk fun _ => Bytes.zero
    bdevReleaseBlk blk
    pure (.ok blk)
  else do
    bmapFreeElement bmapBlk index
    bdevReleaseBlk bmapBlk
    pure (.error .nomem)

/-- `alloc_data_block` with `n` bitmap blocks to go, the first of them the `k`-th. -/
def allocDataBlockFrom : (n k : ℕ) → FsM (Except Err Blk)
  | 0, _ => pure (.error .nores)
  | n + 1, k => do
    if ← bdevGetBlk (sb.dataBmapStart + k) then
      match ← bmapAllocElement (sb.dataBmapStart + k)
          (min bdevBlkSize ((sb.size - k * bitsPerBlk) / 8)) with
      | some index =>
        initDataBlock (sb.dataBmapStart + k) index (sb.dataStart + k * bitsPerBlk + index)
      | none => do
        bdevReleaseBlk (sb.dataBmapStart + k)
        allocDataBlockFrom n (k + 1)
    else pure (.error .nomem)

/-- Take a block from the first bitmap that has one. -/
def allocDataBlock : FsM (Except Err Blk) := allocDataBlockFrom sb sb.bmapBlks 0

/-- Give a block back to its bitmap. -/
def freeDataBlock (blk : Blk) : FsM Err := do
  kassert "blk >= SB_INFO(sb)->s_data_start" fun _ => sb.dataStart ≤ blk
  if ← bdevGetBlk (sb.dataBmapStart + (blk - sb.dataStart) / bitsPerBlk) then do
    bmapFreeElement (sb.dataBmapStart + (blk - sb.dataStart) / bitsPerBlk)
      ((blk - sb.dataStart) % bitsPerBlk)
    bdevReleaseBlk (sb.dataBmapStart + (blk - sb.dataStart) / bitsPerBlk)
    pure .ok
  else pure .nomem

/-- Block `k` of a file, which is a direct one. -/
def directBlock (i : Inum) (k : ℕ) (alloc : Bool) : FsM (Except Err Blk) := do
  let n ← inode i
  if n.addrs k ≠ 0 then pure (.ok (n.addrs k))
  else if !alloc then pure (.error .notExist)
  else
    match ← allocDataBlock sb with
    | .error e => pure (.error e)
    | .ok blk => do
      let _ ← updateInode i fun n => { n with addrs := Function.update n.addrs k blk }
      pure (.ok blk)

/-- The entry of an indirect block, which is locked, and locked no longer if there is one. -/
def indirectEntry (indir : Blk) (e : ℕ) (alloc : Bool) : FsM (Except Err Blk) := do
  let s ← Prog.read
  let blk := (s.data.buf indir).le (4 * e) 4
  if blk ≠ 0 then do
    bdevReleaseBlk indir
    pure (.ok blk)
  else if !alloc then pure (.error .notExist)
  else
    match ← allocDataBlock sb with
    | .error e => pure (.error e)
    | .ok blk => do
      logWrite indir fun m => m.put (4 * e) (Bytes.leBytes 4 blk)
      bdevReleaseBlk indir
      pure (.ok blk)

/-- The outcome of `get_data_block`, with the references to the inode block and to `indir_bh` that
it has. The path for failures releases `indir_bh` if it is set, and it is still set after its
release. -/
def finishBlock (i : Inum) (indir : Option Blk) : Except Err Blk → FsM (Except Err Blk)
  | .ok blk => do
    kassert "blk > 0" fun _ => 0 < blk
    if ← bdevGetBlk blk then do
      bdevReleaseBlkUnlocked (inumToBlk i)
      pure (.ok blk)
    else fail .nomem
  | .error e => fail e
where
  fail (e : Err) : FsM (Except Err Blk) := do
    match indir with
    | some b => bdevReleaseBlk b
    | none => pure ()
    bdevReleaseBlkUnlocked (inumToBlk i)
    pure (.error e)

/-- The indirect block for block `k` of a file. -/
def indirIndex (k : ℕ) : ℕ := sfsNdirect + (k - sfsNdirect) / ptrsPerBlk

/-- The entry of the indirect block for block `k` of a file. -/
def indirOfs (k : ℕ) : ℕ := (k - sfsNdirect) % ptrsPerBlk

/-- Returns the block, whose buffer is locked then. -/
def getDataBlock (i : Inum) (ofs : ℕ) (alloc : Bool) : FsM (Except Err Blk) := do
  kassert "ofs < SFS_MAX_FILE_SIZE" fun _ => ofs < sfsMaxFileSize
  if ← bdevGetBlkUnlocked (inumToBlk i) then
    if ofs / bdevBlkSize < sfsNdirect then do
      let r ← directBlock sb i (ofs / bdevBlkSize) alloc
      finishBlock i none r
    else do
      kassert "indir_blk_index < SFS_NDIRECT + SFS_NINDIRECT" fun _ =>
        indirIndex (ofs / bdevBlkSize) < sfsNdirect + sfsNindirect
      match ← directBlock sb i (indirIndex (ofs / bdevBlkSize)) alloc with
      | .error e => finishBlock i none (.error e)
      | .ok indir => do
        kassert "INODE_INFO(inode)->i_addrs[indir_blk_index] > 0" fun _ => 0 < indir
        if ← bdevGetBlk indir then do
          let r ← indirectEntry sb indir (indirOfs (ofs / bdevBlkSize)) alloc
          finishBlock i (some indir) r
        else finishBlock i none (.error .nomem)
  else pure (.error .nomem)

/-! ## Files -/

/-- The loop of `read_data`, with `n` steps at most. -/
def readLoop (i : Inum) : (n count ofs : ℕ) → FsM (List UInt8)
  | 0, _, _ => pure []
  | n + 1, count, ofs => do
    let ino ← inode i
    if 0 < count ∧ ofs < ino.size then
      match ← getDataBlock sb i ofs false with
      | .error _ => pure []
      | .ok b => do
        let s ← Prog.read
        let len := min (min (bdevBlkSize - ofs % bdevBlkSize) count) (ino.size - ofs)
        bdevReleaseBlk b
        let rest ← readLoop i n (count - len) (ofs + len)
        pure ((s.data.buf b).slice (ofs % bdevBlkSize) len ++ rest)
    else pure []

/-- Returns the bytes read.  Each step reads one at least. -/
def readData (i : Inum) (count ofs : ℕ) : FsM (List UInt8) := readLoop sb i count count ofs

/-- The loop of `write_data`, with `n` steps at most.  Returns what is left to write. -/
def writeLoop (i : Inum) : (n : ℕ) → (bytes : List UInt8) → (ofs : ℕ) → FsM (List UInt8)
  | 0, bytes, _ => pure bytes
  | n + 1, bytes, ofs =>
    if bytes = [] then pure []
    else do
      match ← getDataBlock sb i ofs true with
      | .error _ => pure bytes
      | .ok b => do
        let len := min (bdevBlkSize - ofs % bdevBlkSize) bytes.length
        logWrite b fun m => m.put (ofs % bdevBlkSize) (bytes.take len)
        bdevReleaseBlk b
        writeLoop i n (bytes.drop len) (ofs + len)

/-- Returns the number of bytes written. -/
def writeData (i : Inum) (bytes : List UInt8) (ofs : ℕ) : FsM ℕ := do
  let rest ← writeLoop sb i bytes.length bytes ofs
  let total := bytes.length - rest.length
  let n ← inode i
  if 0 < bytes.length ∧ n.size < ofs + total then do
    let _ ← updateInode i fun n => { n with size := ofs + total }
    pure total
  else pure total

/-- Returns the bytes read and the position after them. -/
def sfsRead (i : Inum) (count pos : ℕ) : FsM (List UInt8 × ℕ) := do
  let bytes ← readData sb i count pos
  if 0 < bytes.length then pure (bytes, pos + bytes.length) else pure (bytes, pos)

/-- Returns the number of bytes written and the position after them. -/
def sfsWrite (i : Inum) (bytes : List UInt8) (pos : ℕ) : FsM (ℕ × ℕ) := do
  let total ← writeData sb i bytes pos
  if 0 < total then pure (total, pos + total) else pure (total, pos)

/-! ## Deleting a file -/

/-- The `k`-th buffer after `b` in memory. -/
def Data.following (d : Data) (b : Blk) : ℕ → Option Blk
  | 0 => some b
  | k + 1 => (d.following b k).bind d.next

/-- The loop of `sfs_delete_inode` over the entries of an indirect block from `e` on, with `n` steps
at most. It ends at the size of the file only, so it can run into the buffers that follow.  Returns
`size`. -/
def deleteEntries (i : Inum) (indir : Blk) :
    (n e size : ℕ) → (isJournaled : Bool) → FsM (Except Err ℕ)
  | 0, _, _, _ => Prog.trap (.wild "indirect")
  | n + 1, e, size, isJournaled => do
    let ino ← inode i
    if size < ino.size then do
      let s ← Prog.read
      match s.data.following indir (e / ptrsPerBlk) with
      | none => Prog.trap (.wild "indirect")
      | some b =>
        let blk := (s.data.buf b).le (4 * (e % ptrsPerBlk)) 4
        if blk = 0 then deleteEntries i indir n (e + 1) (size + bdevBlkSize) isJournaled
        else do
          kassert "((blk_t*)bh->data)[indir_index] >= SB_INFO(inode->sb)->s_data_start" fun _ =>
            sb.dataStart ≤ blk
          let err ← freeDataBlock sb blk
          if err ≠ .ok then pure (.error err)
          else do
            blkWrite b fun m => m.put (4 * (e % ptrsPerBlk)) (Bytes.leBytes 4 0)
            if isJournaled then pure () else logBlk indir
            deleteEntries i indir n (e + 1) (size + bdevBlkSize) true
    else pure (.ok size)

/-- What `sfs_delete_inode` does with a block of `i_addrs` before it frees it.  Returns `size`. -/
def deleteBelow (i : Inum) (index : ℕ) (blk : Blk) (size : ℕ) : FsM (Except Err ℕ) := do
  if index < sfsNdirect then pure (.ok (size + bdevBlkSize))
  else if ← bdevGetBlk blk then do
    let ino ← inode i
    match ← deleteEntries sb i blk (ino.size / bdevBlkSize + 2) 0 size false with
    | .error e => pure (.error e)
    | .ok size => do
      bdevReleaseBlk blk
      pure (.ok size)
  else pure (.error .nomem)

/-- The loop of `sfs_delete_inode` over `i_addrs`, with `n` of them to go. -/
def deleteBlocks (i : Inum) : (n index size : ℕ) → FsM Err
  | 0, _, size => do
    let ino ← inode i
    if size < ino.size then Prog.trap (.wild "i_addrs") else pure .ok
  | n + 1, index, size => do
    let ino ← inode i
    if size < ino.size then
      if ino.addrs index = 0 then deleteBlocks i n (index + 1) size
      else do
        kassert "blk >= SB_INFO(inode->sb)->s_data_start" fun _ => sb.dataStart ≤ ino.addrs index
        match ← deleteBelow sb i index (ino.addrs index) size with
        | .error e => pure e
        | .ok size => do
          let err ← freeDataBlock sb (ino.addrs index)
          if err ≠ .ok then pure err
          else do
            setInode i { ino with addrs := Function.update ino.addrs index 0 }
            deleteBlocks i n (index + 1) size
    else pure .ok

/-- The inode has no number of its own after this, and stays in the cache. -/
def sfsDeleteInode (i : Inum) : FsM Err := do
  kassert "inode->i_inum > 0" fun _ => 0 < i
  let ino ← inode i
  kassert "inode->i_nlink == 0" fun _ => ino.nlink = 0
  let err ← deleteBlocks sb i (sfsNdirect + sfsNindirect) 0 0
  if err ≠ .ok then pure err
  else do
    let err ← freeDiskInode i
    if err ≠ .ok then pure err
    else do
      let ino ← inode i
      setInode i { ino with valid := false, dirty := false }
      pure .ok

/-! ## Directories -/

/-- The buffer of the entry at `ofs`: a new one at the start of a block, and `bh` otherwise. -/
def dirBlock (dir : Inum) (alloc : Bool) (ofs : ℕ) (bh : Option Blk) : FsM (Except Err Blk) := do
  if ofs % bdevBlkSize = 0 then do
    match bh with
    | some b => bdevReleaseBlk b
    | none => pure ()
    getDataBlock sb dir ofs alloc
  else
    match bh with
    | some b => pure (.ok b)
    | none => Prog.trap (.wild "dirent")

/-- What a loop over a directory does. -/
structure DirScan (α : Type) where
  alloc : Bool
  /-- Where the loop ends, from the size of the directory. -/
  limit : ℕ → ℕ
  /-- Whether the loop ends at an entry, from the size of the directory and the offset of the entry.
  -/
  test : (size ofs : ℕ) → Dirent → Bool
  /-- What it does there. -/
  hit : Blk → (ofs : ℕ) → Dirent → FsM α
  fail : Err → FsM α
  done : FsM α

/-- A loop over the entries of a directory from `ofs` on, with `n` steps at most. -/
def dirLoop {α : Type} (dir : Inum) (scan : DirScan α) : (n ofs : ℕ) → (bh : Option Blk) → FsM α
  | 0, _, _ => Prog.trap (.wild "dirent")
  | n + 1, ofs, bh => do
    let ino ← inode dir
    if ofs < scan.limit ino.size then
      match ← dirBlock sb dir scan.alloc ofs bh with
      | .error e => scan.fail e
      | .ok b => do
        let s ← Prog.read
        let de := direntAt (s.data.buf b) (ofs % bdevBlkSize)
        if scan.test ino.size ofs de then scan.hit b ofs de
        else dirLoop dir scan n (ofs + sizeofDirent) (some b)
    else do
      match bh with
      | some b => bdevReleaseBlk b
      | none => pure ()
      scan.done

/-- The loop from the start.  No directory has more entries, as `getDataBlock` asserts. -/
def dirScan {α : Type} (dir : Inum) (scan : DirScan α) : FsM α :=
  dirLoop sb dir scan (sfsMaxFileSize / sizeofDirent + 1) 0 none

/-- Whether an entry is the one of a name. -/
def Dirent.isName (de : Dirent) (name : List UInt8) : Bool :=
  0 < de.inum ∧ strncmp (cstr de.name) (cstr name) sfsDirentNamelen 0 = 0

/-- Bytes written to a buffer at an offset.  What goes past its end goes to the buffer that follows
in memory. -/
def Data.spill (d : Data) (b : Blk) (o : ℕ) (bytes : List UInt8) : Data :=
  let d' := d.setBuf b ((d.buf b).put o (bytes.take (bdevBlkSize - o)))
  match d.next b, bytes.drop (bdevBlkSize - o) with
  | some b', c :: rest => d'.setBuf b' ((d'.buf b').put 0 (c :: rest))
  | _, _ => d'

/-- Store an entry. -/
def storeDirent (b : Blk) (o : ℕ) (inum : Inum) (name : List UInt8) : FsM Unit := do
  blkWrite b fun m => m.put o (Bytes.leBytes 4 inum)
  modifyData fun d => d.spill b (o + 4) (strncpy name sfsDirentNamelen)
  blkWrite b fun m => m.put (o + 4 + (sfsDirentNamelen - 1)) [0]
  logBlk b

/-- The loop of `alloc_dirent`. -/
def allocDirentScan (dir : Inum) (name : List UInt8) (inum : Inum) : DirScan Err where
  alloc := true
  limit _ := sfsMaxFileSize
  test size ofs de := size ≤ ofs ∨ de.inum = 0
  hit b ofs _ := do
    let n ← inode dir
    if n.size ≤ ofs then do
      let _ ← updateInode dir fun n => { n with size := ofs + sizeofDirent }
      storeDirent b (ofs % bdevBlkSize) inum name
    else storeDirent b (ofs % bdevBlkSize) inum name
    bdevReleaseBlk b
    bdevReleaseBlkUnlocked (inumToBlk dir)
    pure .ok
  fail e := do
    bdevReleaseBlkUnlocked (inumToBlk dir)
    pure e
  done := do
    bdevReleaseBlkUnlocked (inumToBlk dir)
    pure .nores

/-- Store a name to a directory. -/
def allocDirent (dir : Inum) (name : List UInt8) (inum : Inum) : FsM Err := do
  if ← bdevGetBlkUnlocked (inumToBlk dir) then dirScan sb dir (allocDirentScan dir name inum)
  else pure .nomem

/-- Take a name from a directory. -/
def freeDirent (dir : Inum) (name : List UInt8) : FsM Err :=
  dirScan sb dir
    { alloc := false
      limit := id
      test := fun _ _ de => de.isName name
      hit := fun b ofs _ => do
        logWrite b fun m => m.put (ofs % bdevBlkSize) (Bytes.leBytes 4 0)
        bdevReleaseBlk b
        pure .ok
      fail := pure
      done := pure .notExist }

/-- Whether a directory has no entries. -/
def isDirEmpty (dir : Inum) : FsM (Except Err Bool) :=
  dirScan sb dir
    { alloc := false
      limit := id
      test := fun _ _ de => 0 < de.inum
      hit := fun b _ _ => do
        bdevReleaseBlk b
        pure (.ok false)
      fail := fun e => pure (.error e)
      done := pure (.ok true) }

/-- Returns 0 if there is no such name, and also if a block cannot be had. -/
def searchDir (dir : Inum) (name : List UInt8) : FsM Inum :=
  dirScan sb dir
    { alloc := false
      limit := id
      test := fun _ _ de => de.isName name
      hit := fun b _ de => do
        bdevReleaseBlk b
        pure de.inum
      fail := fun _ => pure 0
      done := pure 0 }

/-- `sfs_readdir` at a position: the inode number and the name, and the new position. -/
def sfsReaddir (dir : Inum) (pos : ℕ) : FsM (Except Err (Dirent × ℕ)) := do
  let n ← inode dir
  if n.size < pos + sizeofDirent then pure (.error .fin)
  else do
    let bytes ← readData sb dir sizeofDirent pos
    if bytes.length < sizeofDirent then pure (.error .nomem)
    else
      let de := direntAt (Bytes.zero.put 0 bytes) 0
      pure (.ok (⟨de.inum, de.name.takeWhile (· ≠ 0)⟩, pos + bytes.length))

/-! ## Names in directories -/

/-- `create_inode_in_dir` from where the bitmap of inodes is pinned. -/
def createEntry (dir : Inum) (ftype : ℕ) (name : List UInt8) (mode : ℕ) : FsM Err := do
  match ← allocDiskInode sb ftype mode with
  | .error e => do
    bdevReleaseBlkUnlocked sfsInodeBmapBlk
    pure e
  | .ok inum => do
    let err ← allocDirent sb dir name inum
    if err = .ok then do
      bdevReleaseBlkUnlocked sfsInodeBmapBlk
      pure .ok
    else do
      let _ ← freeDiskInode inum
      bdevReleaseBlkUnlocked sfsInodeBmapBlk
      pure err

/-- Make an inode under a new name. -/
def createInodeInDir (dir : Inum) (ftype : ℕ) (name : List UInt8) (mode : ℕ) :
    FsM Err := do
  if (← searchDir sb dir name) ≠ 0 then pure .exist
  else if ← bdevGetBlkUnlocked sfsInodeBmapBlk then createEntry sb dir ftype name mode
  else pure .nomem

/-- Make a file. -/
def sfsCreate (dir : Inum) (name : List UInt8) (mode : ℕ) : FsM Err :=
  createInodeInDir sb dir ftypeFile name mode

/-- Make a directory. -/
def sfsMkdir (dir : Inum) (name : List UInt8) (mode : ℕ) : FsM Err :=
  createInodeInDir sb dir ftypeDir name mode

/-- Returns the inode number, and the inode is in the cache then with a reference for the caller. -/
def sfsLookup (dir : Inum) (name : List UInt8) : FsM (Except Err Inum) := do
  let inum ← searchDir sb dir name
  if inum = 0 then pure (.error .notExist)
  else
    match ← fsGetInode inum with
    | .error e => pure (.error e)
    | .ok _ => pure (.ok inum)

/-- The end of `unlink_inode_in_dir`. -/
def unlinkDone (i : Inum) (err : Err) : FsM Err := do
  bdevReleaseBlkUnlocked (inumToBlk i)
  fsReleaseInode i
  pure err

/-- `unlink_inode_in_dir` from where the entry is removed. -/
def unlinkEntry (dir : Inum) (name : List UInt8) (i : Inum) : FsM Err := do
  let err ← freeDirent sb dir name
  if err = .ok then do
    let _ ← updateInode i fun n => { n with nlink := (n.nlink + (2 ^ 32 - 1)) % 2 ^ 32 }
    unlinkDone i .ok
  else do
    kassert "err != ERR_NOTEXIST" fun _ => err ≠ .notExist
    unlinkDone i err

/-- `unlink_inode_in_dir` from where the block of the inode is pinned. -/
def unlinkInode (dir : Inum) (ftype : ℕ) (name : List UInt8) (i : Inum) : FsM Err := do
  let n ← inode i
  kassert "inode->i_inum > 0" fun _ => 0 < i
  kassert "inode->i_nlink > 0" fun _ => 0 < n.nlink
  kassert "fs_is_inode_valid(inode)" fun _ => n.valid
  if n.ftype ≠ ftype then unlinkDone i .ftype
  else if ftype = ftypeDir then
    match ← isDirEmpty sb i with
    | .error e => unlinkDone i e
    | .ok false => unlinkDone i .notEmpty
    | .ok true => unlinkEntry sb dir name i
  else unlinkEntry sb dir name i

/-- Take a name away, with a link. -/
def unlinkInodeInDir (dir : Inum) (ftype : ℕ) (name : List UInt8) : FsM Err := do
  match ← sfsLookup sb dir name with
  | .error e => pure e
  | .ok i => do
    if ← bdevGetBlkUnlocked (inumToBlk i) then unlinkInode sb dir ftype name i
    else pure .nomem

/-- Take the name of a file away. -/
def sfsUnlink (dir : Inum) (name : List UInt8) : FsM Err := unlinkInodeInDir sb dir ftypeFile name

/-- Take the name of a directory away. -/
def sfsRmdir (dir : Inum) (name : List UInt8) : FsM Err := unlinkInodeInDir sb dir ftypeDir name

/-- Give a file another name. -/
def sfsLink (dir src : Inum) (name : List UInt8) : FsM Err := do
  let n ← inode src
  kassert "src->i_ftype == FTYPE_FILE" fun _ => n.ftype = ftypeFile
  if (← searchDir sb dir name) ≠ 0 then pure .exist
  else if ← bdevGetBlkUnlocked (inumToBlk src) then do
    let err ← allocDirent sb dir name src
    if err = .ok then do
      let _ ← updateInode src fun n => { n with nlink := (n.nlink + 1) % 2 ^ 32 }
      bdevReleaseBlkUnlocked (inumToBlk src)
      pure .ok
    else do
      bdevReleaseBlkUnlocked (inumToBlk src)
      pure err
  else pure .nomem

end Osv
