import Osv.Fs.Volume

/-!
# The view of a file system

`View` is what the rest of the kernel knows of a file system: which inodes are
allocated, the file of each, how many references an inode has in memory, and which
inodes may be newer in memory than on disk.  `FsRep sb w d` says that buffers and
inodes in memory are those of a file system with view `w`: the volume is sound, the
files are those of `w`, and each inode in the cache is valid, fits its place on disk
and is the one there unless it is dirty.  Only the link count need not fit.

Each change that a function of the file system makes to buffers and inodes has a
lemma here, `FsRep.takeBlk` to `FsRep.dropInode`, that gives the view after it.
-/

namespace Osv

open Function (update update_apply update_self update_of_ne)
open Bytes (le_put_of_disjoint le_lt le_put length_leBytes)

/-! ## Inodes on disk -/

namespace DInode

/-- What is left of an inode on disk. -/
def trunc (x : DInode) : DInode where
  ftype := x.ftype % 256 ^ 1
  mode := x.mode % 256 ^ 1
  nlink := x.nlink % 256 ^ 2
  size := x.size % 256 ^ 4
  addrs j := if j < sfsNdirect + sfsNindirect then x.addrs j % 256 ^ 4 else 0

@[simp] theorem length_addrBytes (a : ℕ → Blk) : ∀ n j, (addrBytes a j n).length = 4 * n
  | 0, _ => rfl
  | n + 1, j => by
    rw [addrBytes, List.length_append, length_leBytes, length_addrBytes a n]
    omega

@[simp] theorem length_encode (x : DInode) : x.encode.length = 64 := by
  simp only [encode, List.length_append, length_leBytes, length_addrBytes]
  decide

theorem le_put_addrBytes {a : ℕ → Blk} : ∀ {n t j o : ℕ} {m : Bytes}, t < n →
    (m.put o (addrBytes a j n)).le (o + 4 * t) 4 = a (j + t) % 256 ^ 4
  | 0, _, _, _, _, h => absurd h (Nat.not_lt_zero _)
  | n + 1, 0, j, o, m, _ => by
    simp only [addrBytes, Bytes.put_append, length_leBytes, Nat.mul_zero, Nat.add_zero]
    rw [le_put_of_disjoint (.inl le_rfl), le_put]
  | n + 1, t + 1, j, o, m, h => by
    rw [addrBytes, Bytes.put_append, length_leBytes,
      show o + 4 * (t + 1) = o + 4 + 4 * t by omega, le_put_addrBytes (Nat.lt_of_succ_lt_succ h),
      show j + 1 + t = j + (t + 1) by omega]

theorem decode_put (x : DInode) (m : Bytes) (o : ℕ) : decode (m.put o x.encode) o = x.trunc := by
  simp only [decode, encode, Bytes.put_append, length_leBytes, trunc, mk.injEq]
  refine ⟨?_, ?_, ?_, ?_, ?_⟩
  · rw [le_put_of_disjoint (.inl (by omega)), le_put_of_disjoint (.inl (by omega)),
      le_put_of_disjoint (.inl (by omega)), le_put_of_disjoint (.inl (by omega)), le_put]
  · rw [le_put_of_disjoint (.inl (by omega)), le_put_of_disjoint (.inl (by omega)),
      le_put_of_disjoint (.inl (by omega)), le_put]
  · rw [le_put_of_disjoint (.inl (by omega)), le_put_of_disjoint (.inl (by omega)), le_put]
  · rw [le_put_of_disjoint (.inl (by omega)), le_put]
  · funext j
    split
    · rw [show o + 1 + 1 + 2 + 4 = o + 8 by omega, le_put_addrBytes ‹_›, Nat.zero_add]
    · rfl

theorem decode_put_of_disjoint {m : Bytes} {o o' : ℕ} {l : List UInt8}
    (h : o' + 64 ≤ o ∨ o + l.length ≤ o') : decode (m.put o l) o' = decode m o' := by
  have hle : ∀ q n, q + n ≤ 64 → (m.put o l).le (o' + q) n = m.le (o' + q) n := fun q n hq =>
    le_put_of_disjoint (by omega)
  simp only [decode, mk.injEq]
  refine ⟨hle 0 1 (by omega), hle 1 1 (by omega), hle 2 2 (by omega), hle 4 4 (by omega), ?_⟩
  funext j
  split
  · rename_i hj
    have := hle (8 + 4 * j) 4 (by unfold sfsNdirect sfsNindirect at hj; omega)
    rwa [← Nat.add_assoc] at this
  · rfl

end DInode

theorem inumToOfs_disjoint {i i' : ℕ} (hi : 1 ≤ i) (hi' : 1 ≤ i') (hne : i ≠ i')
    (hb : inumToBlk i = inumToBlk i') :
    inumToOfs i' + 64 ≤ inumToOfs i ∨ inumToOfs i + 64 ≤ inumToOfs i' := by
  unfold inumToBlk inumToOfs bdevBlkSize at *
  omega

/-! ## Views -/

namespace Data

/-- The inode on disk. -/
def diskIno (d : Data) (i : Inum) : DInode := DInode.decode (d.buf (inumToBlk i)) (inumToOfs i)

/-- The inode in memory, or on disk if it is not in memory. -/
def ino (d : Data) (i : Inum) : DInode :=
  match d.icache i with
  | some n => if n.valid then n.toDInode else d.diskIno i
  | none => d.diskIno i

/-- The volume of a file system. -/
def vol (sb : SbInfo) (d : Data) : Vol where
  ino i := if 1 ≤ i ∧ i ≤ sb.numInodes then d.ino i else ⟨0, 0, 0, 0, fun _ => 0⟩
  buf := d.buf

/-- References to an inode in memory. -/
def refs (d : Data) (i : Inum) : ℕ :=
  match d.icache i with
  | some n => n.ref
  | none => 0

end Data

/-- What is known of a file system. -/
structure View where
  used : Inum → Prop
  file : Inum → File
  ref : Inum → ℕ
  /-- Inodes that may be newer in memory than on disk. -/
  dirty : Inum → Prop
  /-- Inodes that have all the blocks up to the size. -/
  filled : Inum → Prop
  /-- Blocks beyond the size that such an inode has too. -/
  more : Inum → ℕ → Prop

/-- One file is another. -/
def View.setFile (w : View) (i : Inum) (f : File) : View :=
  { w with file := update w.file i f }

@[simp] theorem View.setFile_file_self (w : View) (i : Inum) (f : File) :
    (w.setFile i f).file i = f :=
  update_self ..

theorem View.setFile_file_of_ne (w : View) {i i' : Inum} (f : File) (h : i' ≠ i) :
    (w.setFile i f).file i' = w.file i' :=
  update_of_ne h ..

/-- The inode fits its place on disk, but for the link count. -/
structure DInode.Fits (x : DInode) : Prop where
  ftype : x.ftype < 256 ^ 1
  mode : x.mode < 256 ^ 1
  size : x.size < 256 ^ 4
  addrs : ∀ j, x.addrs j < 256 ^ 4
  addrs_zero : ∀ j, sfsNdirect + sfsNindirect ≤ j → x.addrs j = 0

theorem DInode.Fits.trunc {x : DInode} (h : x.Fits) :
    x.trunc = { x with nlink := x.nlink % 256 ^ 2 } := by
  rw [DInode.trunc, Nat.mod_eq_of_lt h.ftype, Nat.mod_eq_of_lt h.mode, Nat.mod_eq_of_lt h.size]
  congr 1
  funext j
  split
  · exact Nat.mod_eq_of_lt (h.addrs j)
  · exact (h.addrs_zero j (by omega)).symm

theorem DInode.decode_fits (m : Bytes) (o : ℕ) : (DInode.decode m o).Fits where
  ftype := le_lt
  mode := le_lt
  size := le_lt
  addrs j := by
    simp only [DInode.decode]
    split
    · exact le_lt
    · decide
  addrs_zero j hj := if_neg (by omega)

/-- An inode in the cache. -/
structure View.Cached (w : View) (d : Data) (i : Inum) (n : Inode) : Prop where
  used : w.used i
  valid : n.valid = true
  ref : 0 < n.ref
  fits : n.Fits
  synced : n.dirty = false → d.diskIno i = n.trunc
  dirty : n.dirty = true → w.dirty i

/-- Buffers and inodes of a file system with a view. -/
structure FsRep (sb : SbInfo) (w : View) (d : Data) : Prop where
  sound : (d.vol sb).Sound sb
  used : ∀ i, w.used i ↔ sb.Used d.buf i
  file : ∀ i, w.used i → (d.vol sb).file i = w.file i
  ref : ∀ i, w.ref i = d.refs i
  cached : ∀ i n, d.icache i = some n → w.Cached d i n
  filled : ∀ i, w.filled i → w.used i → ∀ k, k * bdevBlkSize < (w.file i).size ∨ w.more i k →
    (d.vol sb).ptr i k ≠ 0

variable {sb : SbInfo} {w : View} {d : Data} {i i' : Inum} {b : Blk} {n x : Inode} {m : Bytes}

theorem FsRep.isInum (h : FsRep sb w d) (hi : w.used i) : sb.IsInum i := ((h.used i).mp hi).1

theorem FsRep.cached_of_ref (h : FsRep sb w d) (hi : 0 < w.ref i) :
    ∃ n, d.icache i = some n ∧ w.Cached d i n := by
  rw [h.ref, Data.refs] at hi
  cases hn : d.icache i with
  | none => rw [hn] at hi; exact absurd hi (Nat.lt_irrefl 0)
  | some n => exact ⟨n, rfl, h.cached i n hn⟩

theorem FsRep.used_of_ref (h : FsRep sb w d) (hi : 0 < w.ref i) : w.used i :=
  (h.cached_of_ref hi).choose_spec.2.used

theorem Data.vol_ino (hi : sb.IsInum i) : (d.vol sb).ino i = d.ino i := if_pos hi

theorem Data.ino_of_cached (hn : d.icache i = some n) (hv : n.valid = true) :
    d.ino i = n.toDInode := by
  rw [ino, hn]
  exact if_pos hv

theorem FsRep.vol_ino (h : FsRep sb w d) (hn : d.icache i = some n) :
    (d.vol sb).ino i = n.toDInode := by
  have hc := h.cached i n hn
  rw [Data.vol_ino (h.isInum hc.used), Data.ino_of_cached hn hc.valid]

theorem FsRep.used_buf (h : FsRep sb w d) (hi : w.used i) : sb.Used (d.vol sb).buf i :=
  (h.used i).mp hi

theorem FsRep.file_size (h : FsRep sb w d) (hn : d.icache i = some n) :
    (w.file i).size = n.size := by
  rw [← h.file i (h.cached i n hn).used, Vol.file, h.vol_ino hn]

/-! ## Blocks outside the inode table -/

/-- The block has no inodes. -/
def SbInfo.NotTable (sb : SbInfo) (b : ℕ) : Prop := ∀ i, sb.IsInum i → b ≠ inumToBlk i

theorem SbInfo.DataBlk.notTable {b : ℕ} (h : sb.DataBlk b) : sb.NotTable b :=
  fun _ hi => h.ne_inumToBlk hi

theorem bmapBlk_notTable (sb : SbInfo) (b : ℕ) : sb.NotTable (sb.bmapBlk b) :=
  fun _ hi => bmapBlk_ne_inumToBlk b hi

theorem inodeBmap_notTable (sb : SbInfo) : sb.NotTable sfsInodeBmapBlk :=
  fun i _ => (inumToBlk_ne_inodeBmap i).symm

theorem Data.diskIno_setBuf (hb : sb.NotTable b) (hi : sb.IsInum i) :
    (d.setBuf b m).diskIno i = d.diskIno i := by
  rw [diskIno, diskIno, setBuf]
  congr 1
  exact update_of_ne (hb i hi).symm ..

theorem Data.vol_setBuf (hb : sb.NotTable b) : (d.setBuf b m).vol sb = (d.vol sb).setBuf b m := by
  rw [vol, Vol.setBuf, Vol.mk.injEq]
  refine ⟨?_, rfl⟩
  funext i
  show (if _ then _ else _) = if _ then _ else _
  split
  · rename_i hi
    rw [ino, ino, diskIno_setBuf hb hi]
    rfl
  · rfl

/-- A block that holds no inodes and is not the bitmap of inodes is written. -/
theorem FsRep.setBuf (h : FsRep sb w d) (hb : sb.NotTable b) (h3 : b ≠ sfsInodeBmapBlk)
    (hs : ((d.vol sb).setBuf b m).Sound sb) {f : Inum → File}
    (hf : ∀ i, w.used i → ((d.vol sb).setBuf b m).file i = f i)
    (hp : ∀ i k, w.used i → (d.vol sb).ptr i k ≠ 0 → ((d.vol sb).setBuf b m).ptr i k ≠ 0) :
    FsRep sb { w with file := f } (d.setBuf b m) where
  filled i hi hu k hk := by
    have hsize : (f i).size = (w.file i).size := by
      rw [← hf i hu, ← h.file i hu]
      rfl
    rw [Data.vol_setBuf hb]
    exact hp i k hu (h.filled i hi hu k (hsize ▸ hk))
  sound := Data.vol_setBuf hb ▸ hs
  used i := by
    rw [h.used i, SbInfo.Used, SbInfo.Used, Data.setBuf]
    simp only
    rw [update_of_ne h3.symm]
  file i hi := Data.vol_setBuf hb ▸ hf i hi
  ref := h.ref
  cached i n hn :=
    have hc := h.cached i n hn
    { hc with synced := fun hd => (Data.diskIno_setBuf hb (h.isInum hc.used)).trans (hc.synced hd) }

/-! ## A fresh block -/

/-- The bit of a block is set and its bytes are zeros. -/
def Data.takeBlk (sb : SbInfo) (d : Data) (b : Blk) : Data :=
  (d.setBuf (sb.bmapBlk b) ((d.buf (sb.bmapBlk b)).setBit (sb.bmapIdx b))).setBuf b Bytes.zero

theorem inUse_setBit {buf : Blk → Bytes} {b b' : Blk} (hb : sb.InUse buf b') :
    sb.InUse (update buf (sb.bmapBlk b) ((buf (sb.bmapBlk b)).setBit (sb.bmapIdx b))) b' := by
  refine ⟨hb.1, ?_⟩
  by_cases he : sb.bmapBlk b' = sb.bmapBlk b
  · rw [he, update_self, Bytes.bit_setBit, ← he, hb.2]
    rfl
  · rw [update_of_ne he]
    exact hb.2

theorem SbInfo.Free.not_inUse {buf : Blk → Bytes} (hb : sb.Free buf b) : ¬ sb.InUse buf b :=
  fun hu =>
  Bool.false_ne_true (hb.2.symm.trans hu.2)

theorem FsRep.unowned_free (h : FsRep sb w d) (hb : sb.Free d.buf b) :
    (d.vol sb).Unowned sb b ∧ (d.vol sb).Unowned sb (sb.bmapBlk b) := by
  have hbmap0 : sb.bmapBlk b ≠ 0 := by
    have h1 := bmapBlk_ge sb b
    have h2 := table_le_bmap sb
    unfold sfsInodeTableBlk at h2
    omega
  exact ⟨h.sound.unowned_of_not_inUse hb.1.ne_zero hb.not_inUse,
    h.sound.unowned_of_not_data hbmap0 fun hd => hd.ne_bmapBlk hb.1 rfl⟩

theorem FsRep.takeBlk (h : FsRep sb w d) (hb : sb.Free d.buf b) :
    FsRep sb w (d.takeBlk sb b) ∧ ((d.takeBlk sb b).vol sb).Fresh sb b := by
  set bm := (d.buf (sb.bmapBlk b)).setBit (sb.bmapIdx b) with hbm
  obtain ⟨hun, hun1⟩ := h.unowned_free hb
  have h1 : FsRep sb w (d.setBuf (sb.bmapBlk b) bm) :=
    h.setBuf (bmapBlk_notTable sb b) (bmapBlk_ne_inodeBmap sb b)
      (h.sound.setBuf hun1 (bmapBlk_ne_inodeBmap sb b) fun b' hb' => inUse_setBit hb')
      (fun i hi => by rw [Vol.file_setBuf hun1 _ (h.used_buf hi), h.file i hi])
      fun i k hi => by rw [Vol.ptr_setBuf hun1 _ (h.used_buf hi)]; exact id
  have hv1 : (d.setBuf (sb.bmapBlk b) bm).vol sb = (d.vol sb).setBuf (sb.bmapBlk b) bm :=
    Data.vol_setBuf (bmapBlk_notTable sb b)
  have hun2 : ((d.setBuf (sb.bmapBlk b) bm).vol sb).Unowned sb b :=
    hv1 ▸ hun.setBuf hun1 (bmapBlk_ne_inodeBmap sb b) bm
  have hinUse : ∀ b', sb.InUse (d.setBuf (sb.bmapBlk b) bm).buf b' →
      sb.InUse (((d.setBuf (sb.bmapBlk b) bm).vol sb).setBuf b Bytes.zero).buf b' := fun b' hb' =>
    ⟨hb'.1, by rw [Vol.setBuf_buf_of_ne _ (hb.1.ne_bmapBlk hb'.1).symm]; exact hb'.2⟩
  have h2 : FsRep sb w (d.takeBlk sb b) :=
    h1.setBuf hb.1.notTable hb.1.ne_inodeBmap (h1.sound.setBuf hun2 hb.1.ne_inodeBmap hinUse)
      (fun i hi => by rw [Vol.file_setBuf hun2 _ (h1.used_buf hi), h1.file i hi])
      fun i k hi => by rw [Vol.ptr_setBuf hun2 _ (h1.used_buf hi)]; exact id
  have hv2 : (d.takeBlk sb b).vol sb = ((d.setBuf (sb.bmapBlk b) bm).vol sb).setBuf b Bytes.zero :=
    Data.vol_setBuf hb.1.notTable
  have hself : sb.InUse (d.setBuf (sb.bmapBlk b) bm).buf b :=
    ⟨hb.1, by
      simp only [Data.setBuf, update_self, hbm, Bytes.bit_setBit, decide_true, Bool.or_true]⟩
  rw [hv2]
  exact ⟨h2, hinUse b hself, hun2.setBuf hun2 hb.1.ne_inodeBmap _, Vol.setBuf_buf_self _⟩

/-! ## Inodes on disk and in memory -/

/-- An inode is stored, in memory and on disk. -/
def Data.storeIno (d : Data) (i : Inum) (n : Inode) : Data :=
  (d.setBuf (inumToBlk i) ((d.buf (inumToBlk i)).put (inumToOfs i) n.encode)).setInode i (some n)

theorem Data.diskIno_putIno (hi : 1 ≤ i) (hi' : 1 ≤ i') (hne : i' ≠ i) (x : DInode) :
    (d.setBuf (inumToBlk i) ((d.buf (inumToBlk i)).put (inumToOfs i) x.encode)).diskIno i' =
    d.diskIno i' := by
  rw [diskIno, diskIno, setBuf]
  by_cases hb : inumToBlk i' = inumToBlk i
  · simp only [hb, update_self]
    exact DInode.decode_put_of_disjoint (by
      rw [DInode.length_encode]
      exact inumToOfs_disjoint hi hi' hne.symm hb.symm)
  · simp only [update_of_ne hb]

theorem Data.diskIno_putIno_self (x : DInode) :
    (d.setBuf (inumToBlk i) ((d.buf (inumToBlk i)).put (inumToOfs i) x.encode)).diskIno i =
    x.trunc := by
  rw [diskIno, setBuf]
  simp only [update_self]
  exact DInode.decode_put x _ _

variable {o : Option Inode}

theorem Data.setInode_icache_self : (d.setInode i o).icache i = o :=
  update_self ..

theorem Data.setInode_icache_of_ne (h : i' ≠ i) : (d.setInode i o).icache i' = d.icache i' :=
  update_of_ne h ..

theorem Data.vol_setInode_some (hi : sb.IsInum i) (hv : n.valid = true) :
    (d.setInode i (some n)).vol sb = (d.vol sb).setIno i n.toDInode := by
  rw [vol, Vol.setIno, Vol.mk.injEq]
  refine ⟨?_, rfl⟩
  funext i'
  by_cases hii : i' = i
  · subst hii
    rw [update_self]
    show (if _ then _ else _) = _
    rw [if_pos (show 1 ≤ i' ∧ i' ≤ sb.numInodes from hi),
      ino_of_cached Data.setInode_icache_self hv]
  · rw [update_of_ne hii]
    show (if _ then _ else _) = if _ then _ else _
    rw [ino, ino, Data.setInode_icache_of_ne hii]
    rfl

theorem Data.vol_storeIno (hi : sb.IsInum i) (hv : n.valid = true) :
    (d.storeIno i n).vol sb = ((d.vol sb).setBuf (inumToBlk i)
      ((d.buf (inumToBlk i)).put (inumToOfs i) n.encode)).setIno i n.toDInode := by
  rw [storeIno, vol_setInode_some hi hv, Vol.setIno, Vol.setIno, Vol.mk.injEq]
  refine ⟨funext fun i' => ?_, rfl⟩
  by_cases hii : i' = i
  · rw [hii, update_self, update_self]
  · rw [update_of_ne hii, update_of_ne hii]
    show (if _ then _ else _) = if _ then _ else _
    split
    · rename_i hi'
      rw [ino, ino, diskIno_putIno hi.1 hi'.1 hii]
      rfl
    · rfl

section table

variable {v : Vol}

theorem inumToBlk_not_data (hi : sb.IsInum i) : ¬ sb.DataBlk (inumToBlk i) :=
  fun hd => hd.ne_inumToBlk hi rfl

theorem inumToBlk_ne_zero (i : Inum) : inumToBlk i ≠ 0 := by
  have := inumToBlk_ge i
  unfold sfsInodeTableBlk at this
  omega

theorem Vol.Sound.unowned_table (h : v.Sound sb) (hi : sb.IsInum i) : v.Unowned sb (inumToBlk i) :=
  h.unowned_of_not_data (inumToBlk_ne_zero i) (inumToBlk_not_data hi)

theorem inUse_setTable (hi : sb.IsInum i) (m : Bytes) {b' : Blk} (hb : sb.InUse v.buf b') :
    sb.InUse (v.setBuf (inumToBlk i) m).buf b' :=
  ⟨hb.1, by rw [Vol.setBuf_buf_of_ne _ (bmapBlk_ne_inumToBlk b' hi)]; exact hb.2⟩

theorem Vol.Sound.setTable (h : v.Sound sb) (hi : sb.IsInum i) (m : Bytes) :
    (v.setBuf (inumToBlk i) m).Sound sb :=
  h.setBuf (h.unowned_table hi) (inumToBlk_ne_inodeBmap i) fun _ => inUse_setTable hi m

theorem Vol.Fresh.setTable (hb : v.Fresh sb b) (h : v.Sound sb) (hi : sb.IsInum i) (m : Bytes) :
    (v.setBuf (inumToBlk i) m).Fresh sb b where
  inUse := inUse_setTable hi m hb.inUse
  unowned := hb.unowned.setBuf (h.unowned_table hi) (inumToBlk_ne_inodeBmap i) m
  zero := by rw [Vol.setBuf_buf_of_ne _ (hb.inUse.1.ne_inumToBlk hi), hb.zero]

end table

theorem used_setTable (i i' : Inum) (m : Bytes) :
    sb.Used (d.setBuf (inumToBlk i) m).buf i' ↔ sb.Used d.buf i' := by
  rw [SbInfo.Used, SbInfo.Used, Data.setBuf]
  simp only
  rw [update_of_ne (inumToBlk_ne_inodeBmap i).symm]

theorem FsRep.storeIno (h : FsRep sb w d) (hn : d.icache i = some n) (hv : x.valid = true)
    (hr : x.ref = n.ref) (hfit : x.Fits) (hd : x.dirty = false) {f : Inum → File}
    (hs : ((d.storeIno i x).vol sb).Sound sb)
    (hf : ∀ i', w.used i' → ((d.storeIno i x).vol sb).file i' = f i')
    (hp : ∀ i', w.filled i' → w.used i' → ∀ k, k * bdevBlkSize < (f i').size ∨ w.more i' k →
      ((d.storeIno i x).vol sb).ptr i' k ≠ 0) : FsRep sb { w with file := f } (d.storeIno i x) where
  filled := hp
  sound := hs
  used i' := (h.used i').trans (used_setTable i i' _).symm
  file := hf
  ref i' := by
    rw [h.ref i', Data.refs, Data.refs, Data.storeIno, Data.setInode]
    by_cases hii : i' = i
    · subst hii
      rw [hn]
      simp [hr]
    · simp only [update_of_ne hii]
      rfl
  cached i' n1 hn1 := by
    have hc := h.cached i n hn
    by_cases hii : i' = i
    · subst hii
      have : x = n1 := by
        simpa [Data.storeIno, Data.setInode] using hn1
      subst this
      exact
        { used := hc.used
          valid := hv
          ref := hr ▸ hc.ref
          fits := hfit
          synced := fun _ => Data.diskIno_putIno_self _
          dirty := fun hd' => by rw [hd] at hd'; cases hd' }
    · have hn1' : d.icache i' = some n1 := by
        rw [← hn1]
        exact (update_of_ne hii ..).symm
      have hc' := h.cached i' n1 hn1'
      exact
        { hc' with
          synced := fun hd' => (Data.diskIno_putIno (h.isInum hc.used).1
            (h.isInum hc'.used).1 hii _).trans (hc'.synced hd') }

/-- A block number is stored to an inode. -/
def Inode.assign (n : Inode) (j : ℕ) (b : Blk) : Inode :=
  { n with addrs := update n.addrs j b, dirty := false }

section

variable (h : FsRep sb w d) (hn : d.icache i = some n)

include h hn

theorem FsRep.vol_assign (j : ℕ) :
    (d.storeIno i (n.assign j b)).vol sb = ((d.vol sb).setBuf (inumToBlk i)
      ((d.buf (inumToBlk i)).put (inumToOfs i) (n.assign j b).encode)).assignAddr i j b := by
  have hc := h.cached i n hn
  rw [Data.vol_storeIno (n := n.assign j b) (h.isInum hc.used) hc.valid, Vol.assignAddr]
  have hino : ((d.vol sb).setBuf (inumToBlk i)
      ((d.buf (inumToBlk i)).put (inumToOfs i) (n.assign j b).encode)).ino i =
      n.toDInode := h.vol_ino hn
  rw [hino]
  rfl

theorem FsRep.assign (hb : (d.vol sb).Fresh sb b) {j : ℕ} (hj : j < sfsNdirect + sfsNindirect)
    (h0 : n.addrs j = 0) : FsRep sb w (d.storeIno i (n.assign j b)) := by
  have hc := h.cached i n hn
  have hi := h.isInum hc.used
  have hino := h.vol_ino hn
  have h0' : ((d.vol sb).ino i).addrs j = 0 := by rw [hino, h0]
  refine h.storeIno (x := n.assign j b) (f := w.file) hn hc.valid rfl ?_ rfl ?_ (fun i' hi' => ?_)
    fun i' hf' hi' k hk => ?_
  · exact
      { hc.fits with
        addrs := fun j' => by
          by_cases hjj : j' = j
          · subst hjj
            simpa [Inode.assign] using hb.inUse.1.lt
          · simpa [Inode.assign, update_of_ne hjj] using hc.fits.addrs j'
        addrs_zero := fun j' hj' => by
          have hjj : j' ≠ j := by omega
          simpa [Inode.assign, update_of_ne hjj] using hc.fits.addrs_zero j' hj' }
  · rw [h.vol_assign hn]
    exact (h.sound.setTable hi _).assignAddr (hb.setTable h.sound hi _) h0'
  · have hu : sb.Used ((d.vol sb).setBuf (inumToBlk i)
        ((d.buf (inumToBlk i)).put (inumToOfs i) (n.assign j b).encode)).buf i' :=
      (used_setTable i i' _).mpr (h.used_buf hi')
    rw [h.vol_assign hn, Vol.file_assignAddr hu (hb.setTable h.sound hi _) h0',
      Vol.file_setBuf (h.sound.unowned_table hi) _ (h.used_buf hi'), h.file i' hi']
  · have hold := h.filled i' hf' hi' k hk
    obtain ⟨hlt, _⟩ := Vol.ptr_eq_slot hold
    rw [h.vol_assign hn, Vol.ptr_of_lt hlt]
    by_cases hσ : Vol.blkSlot i' k = .addr i j
    · rw [hσ, Vol.slot_assignAddr_self]
      exact hb.inUse.1.ne_zero
    · rw [Vol.slot_assignAddr (hb.setTable h.sound hi _).zero h0' _ hσ, ← Vol.ptr_of_lt hlt,
        Vol.ptr_setBuf (h.sound.unowned_table hi) _ (h.used_buf hi')]
      exact hold

theorem FsRep.ptr_storeIno (hv : x.valid = true) (ha : x.addrs = n.addrs) (hu : w.used i') (k : ℕ) :
    ((d.storeIno i x).vol sb).ptr i' k = (d.vol sb).ptr i' k := by
  have hi := h.isInum (h.cached i n hn).used
  have ha' : x.addrs = (((d.vol sb).setBuf (inumToBlk i)
      ((d.buf (inumToBlk i)).put (inumToOfs i) x.encode)).ino i).addrs := by
    show _ = ((d.vol sb).ino i).addrs
    rw [h.vol_ino hn, ha]
  rw [Data.vol_storeIno hi hv, Vol.ptr_setIno ha', Vol.ptr_setBuf
    (h.sound.unowned_table hi) _ (h.used_buf hu)]

theorem FsRep.setMeta (hv : x.valid = true) (hr : x.ref = n.ref) (hfit : x.Fits)
    (hd : x.dirty = false) (ha : x.addrs = n.addrs)
    (hp : w.filled i → ∀ k, k * bdevBlkSize < x.size →
    (d.vol sb).ptr i k ≠ 0) :
    FsRep sb (w.setFile i ⟨x.ftype, x.mode, x.nlink, x.size, (w.file i).data⟩)
      (d.storeIno i x) := by
  have hc := h.cached i n hn
  have hi := h.isInum hc.used
  have hino := h.vol_ino hn
  have hvol := Data.vol_storeIno (d := d) (n := x) hi hv
  set v := (d.vol sb).setBuf (inumToBlk i)
    ((d.buf (inumToBlk i)).put (inumToOfs i) x.encode) with hvdef
  have ha' : x.addrs = (v.ino i).addrs := by
    show _ = ((d.vol sb).ino i).addrs
    rw [hino, ha]
  have hfile : ∀ i', w.used i' → v.file i' = w.file i' := fun i' hi' => by
    rw [hvdef, Vol.file_setBuf (h.sound.unowned_table hi) _ (h.used_buf hi'), h.file i' hi']
  refine h.storeIno hn hv hr hfit hd (hvol ▸ (h.sound.setTable hi _).setIno ha') (fun i' hi' => ?_)
    fun i' hf' hi' k hk => ?_
  · rw [hvol, Vol.file_setIno ha', update_apply, update_apply, hfile i hc.used, hfile i' hi']
  · rw [h.ptr_storeIno hn hv ha hi']
    by_cases hii : i' = i
    · subst hii
      rw [update_self] at hk
      exact hk.elim (hp hf' k) fun hm => h.filled i' hf' hi' k (.inr hm)
    · rw [update_of_ne hii] at hk
      exact h.filled i' hf' hi' k hk

end

/-! ## Data blocks -/

theorem FsRep.assignEntry (h : FsRep sb w d) (hi : w.used i) {k : ℕ} (hk1 : sfsNdirect ≤ k)
    (hk2 : k < sfsMaxBlks) {indir : Blk} (hind : ((d.vol sb).ino i).addrs (indirIndex k) = indir)
    (hne : indir ≠ 0) (h0 : (d.buf indir).le (4 * indirOfs k) 4 = 0) (hb : (d.vol sb).Fresh sb b) :
    FsRep sb w (d.setBuf indir ((d.buf indir).put (4 * indirOfs k) (Bytes.leBytes 4 b))) ∧
      ((d.setBuf indir ((d.buf indir).put (4 * indirOfs k) (Bytes.leBytes 4 b))).vol sb).ptr i k =
      b := by
  subst hind
  have hu := h.used_buf hi
  have hdata : sb.DataBlk (((d.vol sb).ino i).addrs (indirIndex k)) :=
    (h.sound.live (.addr i (indirIndex k)) (Vol.indir_of hu hk2) hne).1
  have hslot : (d.vol sb).slot (.entry i k) = 0 := by
    rw [Vol.slot, if_neg hne]
    exact h0
  have hvol := Data.vol_setBuf (d := d) (m := (d.buf (((d.vol sb).ino i).addrs (indirIndex k))).put
    (4 * indirOfs k) (Bytes.leBytes 4 b)) hdata.notTable
  refine ⟨h.setBuf hdata.notTable hdata.ne_inodeBmap
    (Vol.Sound.assignEntry h.sound hu hk1 hk2 hne hb)
    (fun i' hi' => ?_) fun i' k' hi' hold => ?_, ?_⟩
  · exact (Vol.file_assignEntry h.sound hu hk1 hk2 hne (h.used_buf hi') hb hslot).trans
      (h.file i' hi')
  · obtain ⟨hlt, hs⟩ := Vol.ptr_eq_slot hold
    rw [Vol.ptr_of_lt hlt]
    have hσ : Vol.blkSlot i' k' ≠ .entry i k := fun he => hold (by rw [hs, he, hslot])
    rw [hs] at hold
    have := Vol.slot_assignEntry (b := b) h.sound hu hk1 hk2 hne _
        (Vol.blkSlot_of (h.used_buf hi') hlt) hσ
    rw [Vol.assignEntry] at this
    exact this.symm ▸ hold
  · rw [hvol, Vol.ptr_of_lt hk2, Vol.blkSlot, if_neg (Nat.not_lt.mpr hk1)]
    exact Vol.slot_assignEntry_self hne hb.inUse.1.lt

theorem FsRep.write (h : FsRep sb w d) (hi : w.used i) {k o : ℕ} {l : List UInt8}
    (hp : (d.vol sb).ptr i k = b) (hb : b ≠ 0) (hl : o + l.length ≤ bdevBlkSize) :
    FsRep sb (w.setFile i { w.file i with data := (w.file i).data.put (k * bdevBlkSize + o) l })
      (d.setBuf b ((d.buf b).put o l)) := by
  subst hp
  have hu := h.used_buf hi
  have hdata : sb.DataBlk ((d.vol sb).ptr i k) := (Vol.ptr_dataBlk h.sound hu hb).1
  refine h.setBuf hdata.notTable hdata.ne_inodeBmap (Vol.Sound.write h.sound hu hb)
    (fun i' hi' => ?_) fun i' k' hi' hold => ?_
  · by_cases hii : i' = i
    · subst hii
      rw [update_self, ← h.file i' hi', Vol.file]
      have := Vol.data_write h.sound hu hb hl
      rw [Vol.write] at this
      exact congrArg _ this
    · rw [update_of_ne hii, ← h.file i' hi']
      exact Vol.file_write_of_ne h.sound hu hb (h.used_buf hi') hii
  · exact (Vol.ptr_write h.sound hu hb (h.used_buf hi') k').symm ▸ hold

/-! ## Allocating an inode -/

/-- The inode of a slot. -/
def Slot.inum : Slot → Inum
  | .addr i _ => i
  | .entry i _ => i

theorem Slot.Of.used {used : Inum → Prop} : ∀ {σ : Slot}, σ.Of used → used σ.inum
  | .addr _ _, h => h.1
  | .entry _ _, h => h.1

theorem Slot.Of.mono {used used' : Inum → Prop} :
    ∀ {σ : Slot}, σ.Of used → used' σ.inum → σ.Of used'
  | .addr _ _, h, h' | .entry _ _, h, h' => ⟨h', h.2⟩

theorem Vol.slot_setIno_of_ne {v : Vol} (y : DInode) :
    ∀ {σ : Slot}, σ.inum ≠ i → (v.setIno i y).slot σ = v.slot σ
  | .addr i' _, h | .entry i' _, h => by
    have h' : i' ≠ i := h
    simp [Vol.slot, Vol.setIno, update_of_ne h']

theorem Vol.slot_setIno_zero {v : Vol} {y : DInode} (hy : ∀ j, y.addrs j = 0) :
    ∀ {σ : Slot}, σ.inum = i → (v.setIno i y).slot σ = 0
  | .addr i' _, h | .entry i' _, h => by
    have h' : i' = i := h
    subst h'
    simp [Vol.slot, Vol.setIno, hy]

/-- A new inode without blocks, on disk. -/
def DInode.fresh (ftype mode : ℕ) : DInode := ⟨ftype, mode, 1, 0, fun _ => 0⟩

/-- The bit of an inode is set, and a new inode stored. -/
def Data.newIno (d : Data) (i : Inum) (ftype mode : ℕ) : Data :=
  let d' := d.setBuf sfsInodeBmapBlk ((d.buf sfsInodeBmapBlk).setBit (i - 1))
  d'.setBuf (inumToBlk i)
    ((d'.buf (inumToBlk i)).put (inumToOfs i) (DInode.fresh ftype mode).encode)

/-- One more inode, with a file. -/
def View.alloc (w : View) (i : Inum) (f : File) : View :=
  { w.setFile i f with
    used := fun i' => w.used i' ∨ i' = i
    filled := fun i' => w.filled i' ∨ i' = i
    more := fun i' k => w.more i' k ∧ i' ≠ i }

theorem used_setBit {i : ℕ} (hi : sb.IsInum i) (hb : d.buf sfsInodeBmapBlk = m) (i' : ℕ) :
    sb.Used (d.setBuf sfsInodeBmapBlk (m.setBit (i - 1))).buf i' ↔ sb.Used d.buf i' ∨ i' = i := by
  simp only [SbInfo.Used, Data.setBuf, update_self, Bytes.bit_setBit, hb, Bool.or_eq_true,
    decide_eq_true_eq]
  constructor
  · rintro ⟨h1, h2 | h2⟩
    · exact .inl ⟨h1, h2⟩
    · have := h1.1
      have := hi.1
      exact .inr (by omega)
  · rintro (⟨h1, h2⟩ | rfl)
    · exact ⟨h1, .inl h2⟩
    · exact ⟨hi, .inr rfl⟩

theorem Data.vol_newIno (hi : sb.IsInum i) (hn : d.icache i = none) (ftype mode : ℕ) :
    (d.newIno i ftype mode).vol sb =
      (((d.vol sb).setBuf sfsInodeBmapBlk ((d.buf sfsInodeBmapBlk).setBit (i - 1))).setBuf
      (inumToBlk i)
        ((d.buf (inumToBlk i)).put (inumToOfs i) (DInode.fresh ftype mode).encode)).setIno i
          (DInode.fresh ftype mode).trunc := by
  have hbuf : (d.setBuf sfsInodeBmapBlk ((d.buf sfsInodeBmapBlk).setBit (i - 1))).buf
      (inumToBlk i) =
      d.buf (inumToBlk i) := update_of_ne (inumToBlk_ne_inodeBmap i) ..
  rw [vol, Vol.setIno, Vol.mk.injEq]
  constructor
  · funext i'
    by_cases hii : i' = i
    · subst hii
      rw [update_self]
      show (if _ then _ else _) = _
      rw [if_pos (show 1 ≤ i' ∧ i' ≤ sb.numInodes from hi), ino]
      show (match d.icache i' with | some n => _ | none => _) = _
      rw [hn]
      exact diskIno_putIno_self _
    · rw [update_of_ne hii]
      show (if _ then _ else _) = if _ then _ else _
      split
      · rename_i hi'
        have h1 : (d.newIno i ftype mode).diskIno i' = d.diskIno i' :=
          (diskIno_putIno hi.1 hi'.1 hii _).trans (diskIno_setBuf (inodeBmap_notTable sb) hi')
        show (match d.icache i' with | some n => _ | none => _) = d.ino i'
        rw [ino, h1]
      · rfl
  · show (Data.setBuf _ _ _).buf = _
    rw [hbuf]
    rfl

theorem FsRep.not_used (h : FsRep sb w d) (hbit : (d.buf sfsInodeBmapBlk).bit (i - 1) = false) :
    ¬ w.used i :=
  fun hu => by
    have := ((h.used i).mp hu).2
    rw [hbit] at this
    cases this

theorem Data.newIno_buf {ftype mode : ℕ} {b : Blk} (hb3 : b ≠ sfsInodeBmapBlk)
    (hbT : b ≠ inumToBlk i) : (d.newIno i ftype mode).buf b = d.buf b := by
  rw [newIno]
  simp only [setBuf, update_of_ne hbT, update_of_ne hb3]

section newIno

variable (h : FsRep sb w d) (hi : sb.IsInum i) (hbit : (d.buf sfsInodeBmapBlk).bit (i - 1) = false)
variable (ftype mode : ℕ)

include h hbit in
theorem FsRep.not_cached : d.icache i = none := by
  cases hn : d.icache i with
  | none => rfl
  | some n => exact absurd (h.cached i n hn).used (h.not_used hbit)

include h hi hbit in
theorem FsRep.slot_newIno {σ : Slot} (hσ : Slot.Of (sb.Used d.buf) σ) :
    ((d.newIno i ftype mode).vol sb).slot σ = (d.vol sb).slot σ := by
  have hun3 : (d.vol sb).Unowned sb sfsInodeBmapBlk :=
    h.sound.unowned_of_not_data (by decide) fun hd => hd.ne_inodeBmap rfl
  have hunT : (d.vol sb).Unowned sb (inumToBlk i) := h.sound.unowned_table hi
  have hne : σ.inum ≠ i := fun he => h.not_used hbit ((h.used i).mpr (he ▸ hσ.used))
  set v1 := (d.vol sb).setBuf sfsInodeBmapBlk ((d.buf sfsInodeBmapBlk).setBit (i - 1)) with hv1
  have hun : ∀ σ, Slot.Of (sb.Used d.buf) σ → v1.slot σ ≠ inumToBlk i := fun σ hσ => by
    rw [hv1, Vol.slot_setBuf hun3 _ σ hσ]
    exact hunT σ hσ
  rw [Data.vol_newIno hi (h.not_cached hbit), Vol.slot_setIno_of_ne _ hne,
    Vol.slot_setBuf hun _ σ hσ, hv1, Vol.slot_setBuf hun3 _ σ hσ]

include h hi hbit in
theorem FsRep.ptr_newIno (hu : w.used i') (k : ℕ) :
    ((d.newIno i ftype mode).vol sb).ptr i' k = (d.vol sb).ptr i' k :=
  Vol.ptr_congr (fun _ hk => h.slot_newIno hi hbit ftype mode (Vol.blkSlot_of (h.used_buf hu) hk)) k

include h hi hbit in
theorem FsRep.slot_newIno_self {σ : Slot} (hσ : σ.inum = i) :
    ((d.newIno i ftype mode).vol sb).slot σ = 0 := by
  rw [Data.vol_newIno hi (h.not_cached hbit)]
  refine Vol.slot_setIno_zero (fun j => ?_) hσ
  simp [DInode.trunc, DInode.fresh]

include h hi hbit in
theorem FsRep.newIno : FsRep sb (w.alloc i ⟨ftype % 256 ^ 1, mode % 256 ^ 1, 1, 0, Bytes.zero⟩)
      (d.newIno i ftype mode) := by
  have hnot := h.not_used hbit
  have hvol := Data.vol_newIno hi (h.not_cached hbit) ftype mode
  have hslot := fun σ hσ => h.slot_newIno hi hbit ftype mode (σ := σ) hσ
  have hnew := fun σ hσ => h.slot_newIno_self hi hbit ftype mode (σ := σ) hσ
  have hused : ∀ i', sb.Used (d.newIno i ftype mode).buf i' ↔ sb.Used d.buf i' ∨ i' = i := fun i' =>
    (used_setTable i i' _).trans (used_setBit hi rfl i')
  have hinUse : ∀ b, sb.InUse d.buf b → sb.InUse (d.newIno i ftype mode).buf b := fun b hb =>
    ⟨hb.1, by
      rw [Data.newIno_buf (bmapBlk_ne_inodeBmap sb b) (bmapBlk_ne_inumToBlk b hi)]
      exact hb.2⟩
  refine ⟨?_, ?_, ?_, h.ref, ?_, ?_⟩
  · refine (Owned.congr h.sound hslot fun _ _ => hinUse _).extend fun σ hσ => ?_
    rcases (hused σ.inum).mp hσ.used with hu | he
    · exact .inr (hσ.mono hu)
    · exact .inl (hnew σ he)
  · exact fun i' => (or_congr_left (h.used i')).trans (hused i').symm
  · rintro i' (hi' | rfl)
    · have hne : i' ≠ i := fun he => hnot (he ▸ hi')
      have hu := (h.used i').mp hi'
      show _ = update w.file i _ i'
      rw [update_of_ne hne, ← h.file i' hi']
      refine Vol.file_congr ?_ (fun k hk => hslot _ (Vol.blkSlot_of hu hk)) fun k h0 => ?_
      · rw [hvol]
        exact update_of_ne hne ..
      · have hd := (Vol.ptr_dataBlk h.sound hu h0).1
        exact Data.newIno_buf hd.ne_inodeBmap (hd.ne_inumToBlk hi)
    · show _ = update w.file i' _ i'
      have hino : ((d.newIno i' ftype mode).vol sb).ino i' = (DInode.fresh ftype mode).trunc := by
        rw [hvol]
        exact update_self ..
      have hptr : ∀ k, ((d.newIno i' ftype mode).vol sb).ptr i' k = 0 := fun k => by
        unfold Vol.ptr
        split
        · refine hnew _ ?_
          unfold Vol.blkSlot
          split <;> rfl
        · rfl
      rw [update_self, Vol.file, hino]
      congr 1
      funext q
      rw [Vol.data, if_pos (hptr _)]
      rfl
  · intro i' n' hn'
    have hc := h.cached i' n' hn'
    have hne : i' ≠ i := fun he => hnot (he ▸ hc.used)
    exact
      { hc with
        used := .inl hc.used
        synced := fun hd => ((Data.diskIno_putIno hi.1 (h.isInum hc.used).1 hne _).trans
          (Data.diskIno_setBuf (inodeBmap_notTable sb) (h.isInum hc.used))).trans (hc.synced hd) }
  · intro i' hf' hi' k hk
    change k * bdevBlkSize < (update w.file i _ i').size ∨ (w.more i' k ∧ i' ≠ i) at hk
    by_cases hii : i' = i
    · subst hii
      rw [update_self] at hk
      exact hk.elim (fun h => absurd h (Nat.not_lt_zero _)) fun h => absurd rfl h.2
    · rw [update_of_ne hii] at hk
      have hi1 := hi'.resolve_right hii
      rw [Vol.ptr_congr fun k hk => hslot _ (Vol.blkSlot_of ((h.used i').mp hi1) hk)]
      exact h.filled i' (hf'.resolve_right hii) hi1 k (hk.imp_right And.left)

end newIno

theorem FsRep.congr {w' : View} (h : FsRep sb w d) (hu_iff : ∀ i, w'.used i ↔ w.used i)
    (hf : ∀ i, w.used i → w'.file i = w.file i) (hr : w'.ref = w.ref) (hd : w'.dirty = w.dirty)
    (hp : ∀ i, w.used i → w'.filled i → w.filled i ∧ ∀ k, w'.more i k → w.more i k) :
    FsRep sb w' d where
  filled i hi hu k hk := by
    have hu' := (hu_iff i).mp hu
    exact h.filled i (hp i hu' hi).1 hu' k (hk.imp (hf i hu' ▸ ·) ((hp i hu' hi).2 k))
  sound := h.sound
  used i := (hu_iff i).trans (h.used i)
  file i hi := (h.file i ((hu_iff i).mp hi)).trans (hf i ((hu_iff i).mp hi)).symm
  ref i := by rw [hr, h.ref]
  cached i n hn :=
    have hc := h.cached i n hn
    { hc with
      used := (hu_iff i).mpr hc.used
      dirty := fun hdirty => by rw [hd]; exact hc.dirty hdirty }

theorem FsRep.freeIno (h : FsRep sb w d) (hi : sb.IsInum i) (hr : w.ref i = 0) :
    FsRep sb { w with used := fun i' => w.used i' ∧ i' ≠ i }
      (d.setBuf sfsInodeBmapBlk ((d.buf sfsInodeBmapBlk).clearBit (i - 1))) := by
  have h3 : ¬ sb.DataBlk sfsInodeBmapBlk := fun hd => hd.ne_inodeBmap rfl
  have hun3 : (d.vol sb).Unowned sb sfsInodeBmapBlk := h.sound.unowned_of_not_data (by decide) h3
  have hvol := Data.vol_setBuf (d := d) (m := (d.buf sfsInodeBmapBlk).clearBit (i - 1))
      (inodeBmap_notTable sb)
  have hused : ∀ i', sb.Used (d.setBuf sfsInodeBmapBlk
      ((d.buf sfsInodeBmapBlk).clearBit (i - 1))).buf i' ↔
      sb.Used d.buf i' ∧ i' ≠ i := fun i' => by
    simp only [SbInfo.Used, Data.setBuf, update_self, Bytes.bit_clearBit, Bool.and_eq_true,
      decide_eq_true_eq, and_assoc]
    refine and_congr_right fun hi' => and_congr_right fun _ => not_congr ?_
    exact ⟨Nat.sub_one_cancel hi'.1 hi.1, fun he => by rw [he]⟩
  have hinUse : ∀ b, sb.InUse d.buf b →
      sb.InUse (d.setBuf sfsInodeBmapBlk ((d.buf sfsInodeBmapBlk).clearBit (i - 1))).buf b :=
      fun b hb =>
    ⟨hb.1, by
      simp only [Data.setBuf]
      rw [update_of_ne (bmapBlk_ne_inodeBmap sb b)]
      exact hb.2⟩
  refine ⟨?_, ?_, ?_, h.ref, ?_, ?_⟩
  · rw [hvol]
    refine (Owned.congr h.sound (Vol.slot_setBuf hun3 _) fun _ _ => hinUse _).extend fun σ hσ => ?_
    exact .inr (hσ.mono ((hused σ.inum).mp hσ.used).1)
  · exact fun i' => (and_congr_left' (h.used i')).trans (hused i').symm
  · rintro i' ⟨hi', _⟩
    rw [hvol, Vol.file_setBuf hun3 _ (h.used_buf hi'), h.file i' hi']
  · intro i' n' hn'
    have hc := h.cached i' n' hn'
    have hne : i' ≠ i := fun he => by
      have hn : d.icache i = some n' := he ▸ hn'
      rw [h.ref, Data.refs, hn] at hr
      exact absurd hr hc.ref.ne'
    exact
      { hc with
        used := ⟨hc.used, hne⟩
        synced := fun hd => (Data.diskIno_setBuf (inodeBmap_notTable sb) (h.isInum hc.used)).trans
          (hc.synced hd) }
  · rintro i' hf' ⟨hi', _⟩ k hk
    rw [hvol, Vol.ptr_setBuf hun3 _ (h.used_buf hi')]
    exact h.filled i' hf' hi' k hk

/-! ## Inodes in the cache -/

/-- The number of references to an inode is another. -/
def View.setRef (w : View) (i : Inum) (r : ℕ) : View := { w with ref := update w.ref i r }

theorem Data.vol_setInode (hi : (d.setInode i o).ino i = d.ino i) :
    (d.setInode i o).vol sb = d.vol sb := by
  rw [vol, vol, Vol.mk.injEq]
  refine ⟨?_, rfl⟩
  funext i'
  by_cases hii : i' = i
  · subst hii
    rw [hi]
  · have : (d.setInode i o).ino i' = d.ino i' := by
      rw [ino, ino, setInode]
      simp only [update_of_ne hii]
      rfl
    rw [this]

/-- What the cache has for an inode changes, and the inode does not. -/
theorem FsRep.setInode (h : FsRep sb w d) (hi : (d.setInode i o).ino i = d.ino i)
    (ho : ∀ n, o = some n → w.Cached d i n) :
    FsRep sb (w.setRef i (o.elim 0 (·.ref))) (d.setInode i o) where
  filled := Data.vol_setInode hi ▸ h.filled
  sound := Data.vol_setInode hi ▸ h.sound
  used := h.used
  file i' hi' := Data.vol_setInode hi ▸ h.file i' hi'
  ref i' := by
    rw [View.setRef, Data.refs, Data.setInode]
    by_cases hii : i' = i
    · subst hii
      simp only [update_self]
      cases o <;> rfl
    · simp only [update_of_ne hii]
      exact h.ref i'
  cached i' n' hn' := by
    by_cases hii : i' = i
    · subst hii
      have : o = some n' := Data.setInode_icache_self.symm.trans hn'
      exact { ho n' this with }
    · have hn : d.icache i' = some n' := (Data.setInode_icache_of_ne hii).symm.trans hn'
      exact { h.cached i' n' hn with }

theorem FsRep.setRef (h : FsRep sb w d) (hn : d.icache i = some n) {r : ℕ} (hr : 0 < r) :
    FsRep sb (w.setRef i r) (d.setInode i (some { n with ref := r })) := by
  have hc := h.cached i n hn
  refine h.setInode (o := some { n with ref := r }) ?_ fun n' hn' => ?_
  · rw [Data.ino_of_cached hn hc.valid, Data.ino_of_cached (n := { n with ref := r })
      (update_self ..) hc.valid]
  · cases hn'
    exact { hc with ref := hr }

theorem FsRep.loadInode (h : FsRep sb w d) (hu : w.used i) (hn : d.icache i = none) :
    FsRep sb (w.setRef i 1) (d.setInode i (some ⟨d.diskIno i, 1, true, false⟩)) := by
  have hino : d.ino i = d.diskIno i := by rw [Data.ino, hn]
  refine h.setInode (o := some ⟨d.diskIno i, 1, true, false⟩) ?_ fun n' hn' => ?_
  · rw [hino, Data.ino_of_cached (update_self ..) rfl]
  · cases hn'
    have hfit : (d.diskIno i).Fits := DInode.decode_fits _ _
    have hnlink : (d.diskIno i).nlink < 256 ^ 2 := le_lt
    exact
      { used := hu
        valid := rfl
        ref := Nat.one_pos
        fits := hfit
        synced := fun _ => by
          show _ = (d.diskIno i).trunc
          rw [hfit.trunc, Nat.mod_eq_of_lt hnlink]
        dirty := fun hd => by cases hd }

/-- One more block that a file is known to have. -/
def View.addMore (w : View) (i : Inum) (k : ℕ) : View :=
  { w with more := fun i' k' => w.more i' k' ∨ (i' = i ∧ k' = k) }

theorem FsRep.addMore (h : FsRep sb w d) {k : ℕ} (hk : (d.vol sb).ptr i k ≠ 0) :
    FsRep sb (w.addMore i k) d :=
  { h with
    cached := fun i' n hn => { h.cached i' n hn with }
    filled := fun i' hf hu k' hk' => by
      rcases hk' with hlt | hm | ⟨rfl, rfl⟩
      · exact h.filled i' hf hu k' (.inl hlt)
      · exact h.filled i' hf hu k' (.inr hm)
      · exact hk }

theorem FsRep.setMetaDirty (h : FsRep sb w d) (hn : d.icache i = some n) (hv : x.valid = true)
    (hr : x.ref = n.ref) (hfit : x.Fits) (hd : x.dirty = true) (ha : x.addrs = n.addrs)
    (hp : w.filled i → ∀ k, k * bdevBlkSize < x.size → (d.vol sb).ptr i k ≠ 0) :
    FsRep sb { w.setFile i ⟨x.ftype, x.mode, x.nlink, x.size, (w.file i).data⟩ with
      dirty := fun i' => w.dirty i' ∨ i' = i } (d.setInode i (some x)) := by
  have hc := h.cached i n hn
  have hvol := Data.vol_setInode_some (d := d) (h.isInum hc.used) hv
  have ha' : x.addrs = ((d.vol sb).ino i).addrs := by rw [h.vol_ino hn, ha]
  refine ⟨hvol ▸ h.sound.setIno ha', h.used, fun i' hi' => ?_, fun i' => ?_, fun i' n' hn' => ?_,
    fun i' hf' hi' k hk => ?_⟩
  · rw [hvol, Vol.file_setIno ha', update_apply, h.file i hc.used, h.file i' hi']
    exact (update_apply ..).symm
  · show w.ref i' = _
    rw [h.ref i', Data.refs, Data.refs]
    by_cases hii : i' = i
    · subst hii
      rw [hn, Data.setInode_icache_self]
      exact hr.symm
    · rw [Data.setInode_icache_of_ne hii]
  · by_cases hii : i' = i
    · subst hii
      obtain rfl : x = n' := Option.some.inj (Data.setInode_icache_self.symm.trans hn')
      exact
        { used := hc.used
          valid := hv
          ref := hr ▸ hc.ref
          fits := hfit
          synced := fun h0 => by rw [hd] at h0; cases h0
          dirty := fun _ => .inr rfl }
    · have hc' := h.cached i' n' ((Data.setInode_icache_of_ne hii).symm.trans hn')
      exact { hc' with dirty := fun h0 => .inl (hc'.dirty h0) }
  · rw [hvol, Vol.ptr_setIno ha']
    by_cases hii : i' = i
    · subst hii
      rw [View.setFile_file_self] at hk
      exact hk.elim (hp hf' k) fun hm => h.filled i' hf' hi' k (.inr hm)
    · rw [View.setFile_file_of_ne _ _ hii] at hk
      exact h.filled i' hf' hi' k hk

end Osv
