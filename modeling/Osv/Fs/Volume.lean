import Osv.Fs.Basic
import Osv.Fs.Sfs
import Osv.Lib.Owner

/-!
# Volumes

A volume is a table of inodes with the contents of blocks.  It is what the file
system has on disk, with newer inodes in memory in place of those on disk, and also
what `tools/mkfs.c` works on.

Block numbers stand in the inodes and in the entries of indirect blocks, the
*slots* of a volume.  The volume is *sound* when the slots of allocated inodes own
data blocks: each block number is in the range of the data blocks, has its bit set
in the bitmap, and occurs once.

The *file* of an inode is its bytes with what the inode says about it.  Bytes of
blocks that are not there read as 0.  So a fresh block, which is all zeros, can be
put into any empty slot of a sound volume and no file changes (`file_assignAddr`,
`file_assignEntry`), and a write to a block of a file changes that file only
(`data_write`).
-/

namespace Osv

open Function (update update_self update_of_ne)

/-- A table of inodes with the contents of blocks. -/
structure Vol where
  ino : Inum → DInode
  buf : Blk → Bytes

/-- A place for a block number: in an inode, or in the indirect block for block `k` of a file. -/
inductive Slot where
  | addr (i : Inum) (j : ℕ)
  | entry (i : Inum) (k : ℕ)
deriving DecidableEq

/-- The slots of a set of inodes. -/
def Slot.Of (used : Inum → Prop) : Slot → Prop
  | .addr i j => used i ∧ j < sfsNdirect + sfsNindirect
  | .entry i k => used i ∧ sfsNdirect ≤ k ∧ k < sfsMaxBlks

/-- A file: what its inode says about it, and its bytes. -/
structure File where
  ftype : ℕ
  mode : ℕ
  nlink : ℕ
  size : ℕ
  data : Bytes

/-- The block of the data bitmap with the bit of a data block. -/
def SbInfo.bmapBlk (sb : SbInfo) (b : ℕ) : ℕ := sb.dataBmapStart + (b - sb.dataStart) / bitsPerBlk

/-- The bit of a data block in its bitmap block. -/
def SbInfo.bmapIdx (sb : SbInfo) (b : ℕ) : ℕ := (b - sb.dataStart) % bitsPerBlk

/-- The numbers of data blocks. -/
def SbInfo.DataBlk (sb : SbInfo) (b : ℕ) : Prop := sb.dataStart ≤ b ∧ b < sb.dataStart + sb.size

/-- A data block whose bit is set. -/
def SbInfo.InUse (sb : SbInfo) (buf : Blk → Bytes) (b : ℕ) : Prop :=
  sb.DataBlk b ∧ (buf (sb.bmapBlk b)).bit (sb.bmapIdx b) = true

/-- A data block whose bit is clear. -/
def SbInfo.Free (sb : SbInfo) (buf : Blk → Bytes) (b : ℕ) : Prop :=
  sb.DataBlk b ∧ (buf (sb.bmapBlk b)).bit (sb.bmapIdx b) = false

/-- The numbers of inodes. -/
def SbInfo.IsInum (sb : SbInfo) (i : ℕ) : Prop := 1 ≤ i ∧ i ≤ sb.numInodes

/-- An inode whose bit is set. -/
def SbInfo.Used (sb : SbInfo) (buf : Blk → Bytes) (i : ℕ) : Prop :=
  sb.IsInum i ∧ (buf sfsInodeBmapBlk).bit (i - 1) = true

/-! ## Where blocks are -/

section layout

variable {sb : SbInfo} {b i : ℕ}

theorem inumToBlk_lt (h : sb.IsInum i) : inumToBlk i < sb.dataBmapStart := by
  have h1 := sb.table_le
  have h2 := sb.inodes_dvd
  have h3 := h.2
  have h4 := h.1
  unfold inumToBlk
  omega

theorem inumToBlk_ge (i : ℕ) : sfsInodeTableBlk ≤ inumToBlk i := Nat.le_add_right ..

theorem bmap_lt_dataStart (sb : SbInfo) : sb.dataBmapStart < sb.dataStart := by
  have h1 := sb.bmap_le
  have h2 := sb.journal_le
  omega

theorem table_le_bmap (sb : SbInfo) : sfsInodeTableBlk ≤ sb.dataBmapStart :=
  (Nat.le_add_right ..).trans sb.table_le

theorem SbInfo.DataBlk.bmapBlk_lt (h : sb.DataBlk b) : sb.bmapBlk b < sb.journalStart := by
  have h1 := sb.size_le
  have h2 := h.1
  have h3 := h.2
  have h4 := sb.bmap_le
  unfold bmapBlk bitsPerBlk at *
  omega

theorem bmapBlk_ge (sb : SbInfo) (b : ℕ) : sb.dataBmapStart ≤ sb.bmapBlk b := Nat.le_add_right ..

theorem SbInfo.DataBlk.ne_bmapBlk {b' : ℕ} (h : sb.DataBlk b) (h' : sb.DataBlk b') :
    b ≠ sb.bmapBlk b' := by
  have h1 := h'.bmapBlk_lt
  have h2 := h.1
  have h3 := sb.journal_le
  omega

theorem SbInfo.DataBlk.ne_inumToBlk (h : sb.DataBlk b) (hi : sb.IsInum i) : b ≠ inumToBlk i := by
  have h1 := inumToBlk_lt hi
  have h2 := h.1
  have h3 := bmap_lt_dataStart sb
  omega

theorem SbInfo.DataBlk.ne_inodeBmap (h : sb.DataBlk b) : b ≠ sfsInodeBmapBlk := by
  have h1 := table_le_bmap sb
  have h2 := h.1
  have h3 := bmap_lt_dataStart sb
  unfold sfsInodeTableBlk sfsInodeBmapBlk at *
  omega

theorem bmapBlk_ne_inumToBlk (b : ℕ) (hi : sb.IsInum i) : sb.bmapBlk b ≠ inumToBlk i := by
  have h1 := inumToBlk_lt hi
  have h2 := bmapBlk_ge sb b
  omega

theorem bmapBlk_ne_inodeBmap (sb : SbInfo) (b : ℕ) : sb.bmapBlk b ≠ sfsInodeBmapBlk := by
  have h1 := table_le_bmap sb
  have h2 := bmapBlk_ge sb b
  unfold sfsInodeTableBlk sfsInodeBmapBlk at *
  omega

theorem inumToBlk_ne_inodeBmap (i : ℕ) : inumToBlk i ≠ sfsInodeBmapBlk := by
  have h1 := inumToBlk_ge i
  unfold sfsInodeTableBlk sfsInodeBmapBlk at *
  omega

theorem SbInfo.DataBlk.ne_zero (h : sb.DataBlk b) : b ≠ 0 := by
  have h2 := h.1
  have h3 := bmap_lt_dataStart sb
  omega

theorem SbInfo.DataBlk.lt (h : sb.DataBlk b) : b < 256 ^ 4 := by
  have h1 := sb.data_le
  have h2 := h.2
  omega

end layout

/-! ## Slots and files -/

namespace Vol

/-- What stands in a slot. -/
def slot (w : Vol) : Slot → Blk
  | .addr i j => (w.ino i).addrs j
  | .entry i k =>
    if (w.ino i).addrs (indirIndex k) = 0 then 0
    else (w.buf ((w.ino i).addrs (indirIndex k))).le (4 * indirOfs k) 4

/-- The slot of block `k` of a file. -/
def blkSlot (i : Inum) (k : ℕ) : Slot := if k < sfsNdirect then .addr i k else .entry i k

/-- Block `k` of a file, or 0. -/
def ptr (w : Vol) (i : Inum) (k : ℕ) : Blk := if k < sfsMaxBlks then w.slot (blkSlot i k) else 0

/-- The bytes of a file.  What is not there reads as 0. -/
def data (w : Vol) (i : Inum) : Bytes := fun n =>
  if w.ptr i (n / bdevBlkSize) = 0 then 0 else w.buf (w.ptr i (n / bdevBlkSize)) (n % bdevBlkSize)

/-- The file of an inode. -/
def file (w : Vol) (i : Inum) : File :=
  ⟨(w.ino i).ftype, (w.ino i).mode, (w.ino i).nlink, (w.ino i).size, w.data i⟩

/-- The slots of allocated inodes own data blocks. -/
def Sound (sb : SbInfo) (w : Vol) : Prop :=
  Owned w.slot (Slot.Of (sb.Used w.buf)) (sb.InUse w.buf)

/-- A block is written. -/
def setBuf (w : Vol) (b : Blk) (m : Bytes) : Vol := { w with buf := update w.buf b m }

/-- An inode is replaced. -/
def setIno (w : Vol) (i : Inum) (n : DInode) : Vol := { w with ino := update w.ino i n }

variable {sb : SbInfo} {w w' : Vol} {i i' : Inum} {j k : ℕ} {b : Blk}

theorem setBuf_buf_self (m : Bytes) : (w.setBuf b m).buf b = m := update_self ..

theorem setBuf_buf_of_ne {b' : Blk} (m : Bytes) (hb : b' ≠ b) : (w.setBuf b m).buf b' = w.buf b' :=
  update_of_ne hb ..

theorem indirIndex_lt (h : k < sfsMaxBlks) : indirIndex k < sfsNdirect + sfsNindirect := by
  unfold indirIndex sfsMaxBlks sfsNdirect sfsNindirect ptrsPerBlk at *
  omega

theorem indirIndex_ge (k : ℕ) : sfsNdirect ≤ indirIndex k := Nat.le_add_right ..

theorem eq_of_indir {k' : ℕ} (hk : sfsNdirect ≤ k) (hk' : sfsNdirect ≤ k')
    (h1 : indirIndex k = indirIndex k') (h2 : indirOfs k = indirOfs k') : k = k' := by
  unfold indirIndex indirOfs sfsNdirect ptrsPerBlk at *
  omega

theorem blkSlot_of {used : Inum → Prop} (hi : used i) (hk : k < sfsMaxBlks) :
    (blkSlot i k).Of used := by
  unfold blkSlot
  split
  · exact ⟨hi, by unfold sfsNdirect sfsNindirect at *; omega⟩
  · exact ⟨hi, by omega, hk⟩

theorem blkSlot_inj {k' : ℕ} (h : blkSlot i k = blkSlot i' k') : i = i' ∧ k = k' := by
  unfold blkSlot at h
  split at h <;> split at h <;> cases h <;> exact ⟨rfl, rfl⟩

theorem blkSlot_ne_addr (hj : sfsNdirect ≤ j) : blkSlot i k ≠ .addr i' j := by
  unfold blkSlot
  split
  · intro h
    cases h
    omega
  · exact Slot.noConfusion

theorem slot_entry_congr (ha : (w'.ino i).addrs (indirIndex k) = (w.ino i).addrs (indirIndex k))
    (hb : (w.ino i).addrs (indirIndex k) ≠ 0 →
      (w'.buf ((w.ino i).addrs (indirIndex k))).le (4 * indirOfs k) 4 =
        (w.buf ((w.ino i).addrs (indirIndex k))).le (4 * indirOfs k) 4) :
    w'.slot (.entry i k) = w.slot (.entry i k) := by
  simp only [slot, ha]
  split
  · rfl
  · exact hb ‹_›

theorem data_congr (hp : ∀ k, w'.ptr i k = w.ptr i k)
    (hb : ∀ k, w.ptr i k ≠ 0 → w'.buf (w.ptr i k) = w.buf (w.ptr i k)) : w'.data i = w.data i := by
  funext n
  simp only [data, hp]
  split
  · rfl
  · rw [hb _ ‹_›]

theorem slot_setBuf {used : Inum → Prop} (hfree : ∀ σ, Slot.Of used σ → w.slot σ ≠ b) (m : Bytes) :
    ∀ σ, Slot.Of used σ → (w.setBuf b m).slot σ = w.slot σ
  | .addr _ _, _ => rfl
  | .entry i k, h => by
    refine slot_entry_congr rfl fun _ => ?_
    have hne : (w.ino i).addrs (indirIndex k) ≠ b :=
      hfree (.addr i (indirIndex k)) ⟨h.1, indirIndex_lt h.2.2⟩
    rw [setBuf_buf_of_ne m hne]

theorem ptr_congr (h : ∀ k < sfsMaxBlks, w'.slot (blkSlot i k) = w.slot (blkSlot i k)) (k : ℕ) :
    w'.ptr i k = w.ptr i k := by
  unfold ptr
  split
  · exact h k ‹_›
  · rfl

/-! ## Writing a block that is in no slot -/

/-- No slot has the block. -/
def Unowned (sb : SbInfo) (w : Vol) (b : Blk) : Prop :=
  ∀ σ, Slot.Of (sb.Used w.buf) σ → w.slot σ ≠ b

theorem Sound.unowned_of_not_inUse (h : w.Sound sb) (hb : b ≠ 0) (hu : ¬ sb.InUse w.buf b) :
    w.Unowned sb b := by
  intro σ hσ he
  subst he
  exact hu (h.live σ hσ hb)

theorem Sound.unowned_of_not_data (h : w.Sound sb) (hb : b ≠ 0) (hu : ¬ sb.DataBlk b) :
    w.Unowned sb b :=
  h.unowned_of_not_inUse hb fun hi => hu hi.1

theorem file_congr (hino : w'.ino i = w.ino i)
    (hs : ∀ k < sfsMaxBlks, w'.slot (blkSlot i k) = w.slot (blkSlot i k))
    (hb : ∀ k, w.ptr i k ≠ 0 → w'.buf (w.ptr i k) = w.buf (w.ptr i k)) : w'.file i = w.file i := by
  rw [file, file, hino, data_congr (ptr_congr hs) hb]

theorem ptr_eq_slot (h : w.ptr i k ≠ 0) : k < sfsMaxBlks ∧ w.ptr i k = w.slot (blkSlot i k) := by
  unfold ptr at h ⊢
  split at h
  · exact ⟨‹_›, if_pos ‹_›⟩
  · exact absurd rfl h

theorem ptr_of_lt (hk : k < sfsMaxBlks) : w.ptr i k = w.slot (blkSlot i k) := if_pos hk

theorem Unowned.ptr_ne (h : w.Unowned sb b) (hi : sb.Used w.buf i) (h0 : w.ptr i k ≠ 0) :
    w.ptr i k ≠ b := by
  obtain ⟨hk, he⟩ := ptr_eq_slot h0
  rw [he]
  exact h _ (blkSlot_of hi hk)

theorem file_setBuf (h : w.Unowned sb b) (m : Bytes) (hi : sb.Used w.buf i) :
    (w.setBuf b m).file i = w.file i := by
  refine file_congr rfl (fun k hk => slot_setBuf h m _ (blkSlot_of hi hk)) fun k h0 => ?_
  rw [setBuf_buf_of_ne m (h.ptr_ne hi h0)]

theorem ptr_setBuf (h : w.Unowned sb b) (m : Bytes) (hi : sb.Used w.buf i) :
    (w.setBuf b m).ptr i k = w.ptr i k :=
  ptr_congr (fun _ hk => slot_setBuf h m _ (blkSlot_of hi hk)) k

theorem used_setBuf (h3 : b ≠ sfsInodeBmapBlk) (m : Bytes) :
    sb.Used (w.setBuf b m).buf = sb.Used w.buf := by
  funext i
  rw [SbInfo.Used, SbInfo.Used, setBuf_buf_of_ne m h3.symm]

theorem Unowned.setBuf {b' : Blk} (h : w.Unowned sb b') (hb : w.Unowned sb b)
    (h3 : b ≠ sfsInodeBmapBlk) (m : Bytes) : (w.setBuf b m).Unowned sb b' := by
  intro σ hσ
  rw [used_setBuf h3 m] at hσ
  rw [slot_setBuf hb m σ hσ]
  exact h σ hσ

theorem Sound.setBuf (h : w.Sound sb) (hb : w.Unowned sb b) (h3 : b ≠ sfsInodeBmapBlk) {m : Bytes}
    (hm : ∀ b', sb.InUse w.buf b' → sb.InUse (w.setBuf b m).buf b') : (w.setBuf b m).Sound sb := by
  unfold Sound
  rw [used_setBuf h3 m]
  exact Owned.congr h (slot_setBuf hb m) fun _ _ => hm _

/-! ## A block for an empty slot -/

/-- A block that has its bit set, is in no slot and is all zeros. -/
structure Fresh (sb : SbInfo) (w : Vol) (b : Blk) : Prop where
  inUse : sb.InUse w.buf b
  unowned : w.Unowned sb b
  zero : w.buf b = Bytes.zero

/-- Put a block number into an inode. -/
def assignAddr (w : Vol) (i : Inum) (j : ℕ) (b : Blk) : Vol :=
  w.setIno i { w.ino i with addrs := update (w.ino i).addrs j b }

theorem slot_assignAddr_self : (w.assignAddr i j b).slot (.addr i j) = b := by
  simp [slot, assignAddr, setIno]

theorem slot_assignAddr (hz : w.buf b = Bytes.zero) (h0 : (w.ino i).addrs j = 0) :
    ∀ σ, σ ≠ .addr i j → (w.assignAddr i j b).slot σ = w.slot σ
  | .addr i' j', hne => by
    by_cases hi : i' = i
    · subst hi
      have hj : j' ≠ j := fun hj => hne (by rw [hj])
      simp [slot, assignAddr, setIno, update_of_ne hj]
    · simp [slot, assignAddr, setIno, update_of_ne hi]
  | .entry i' k, _ => by
    by_cases hi : i' = i
    · subst hi
      by_cases hj : indirIndex k = j
      · subst hj
        simp [slot, assignAddr, setIno, h0, hz]
      · simp [slot, assignAddr, setIno, update_of_ne hj]
    · simp [slot, assignAddr, setIno, update_of_ne hi]

theorem Sound.assignAddr (h : w.Sound sb) (hb : w.Fresh sb b) (h0 : (w.ino i).addrs j = 0) :
    (w.assignAddr i j b).Sound sb :=
  Owned.assign h hb.unowned hb.inUse slot_assignAddr_self fun σ _ hne =>
    slot_assignAddr hb.zero h0 σ hne

/-- A volume whose slots are the same but for one, which was empty and has a block of zeros now. -/
theorem data_assign {σ : Slot} (hi : sb.Used w.buf i) (hself : w'.slot σ = b) (h0 : w.slot σ = 0)
    (hs : ∀ τ, Slot.Of (sb.Used w.buf) τ → τ ≠ σ → w'.slot τ = w.slot τ)
    (hbuf : ∀ k, w.ptr i k ≠ 0 → w'.buf (w.ptr i k) = w.buf (w.ptr i k))
    (hzero : w'.buf b = Bytes.zero) : w'.data i = w.data i := by
  funext n
  by_cases hk : n / bdevBlkSize < sfsMaxBlks
  · by_cases hσ : blkSlot i (n / bdevBlkSize) = σ
    · have h1 : w.ptr i (n / bdevBlkSize) = 0 := by rw [ptr_of_lt hk, hσ, h0]
      have h2 : w'.ptr i (n / bdevBlkSize) = b := by rw [ptr_of_lt hk, hσ, hself]
      simp only [data, h1, h2, hzero, Bytes.zero, ite_self, if_true]
    · have h1 : w'.ptr i (n / bdevBlkSize) = w.ptr i (n / bdevBlkSize) := by
        rw [ptr_of_lt hk, ptr_of_lt hk, hs _ (blkSlot_of hi hk) hσ]
      simp only [data, h1]
      split
      · rfl
      · rw [hbuf _ ‹_›]
  · simp only [data, ptr, if_neg hk, if_true]

theorem file_assignAddr {i' : Inum} (hi : sb.Used w.buf i') (hb : w.Fresh sb b)
    (h0 : (w.ino i).addrs j = 0) : (w.assignAddr i j b).file i' = w.file i' := by
  have hd : (w.assignAddr i j b).data i' = w.data i' :=
    data_assign hi slot_assignAddr_self h0 (fun τ _ hne => slot_assignAddr hb.zero h0 τ hne)
      (fun _ _ => rfl) hb.zero
  rw [file, file, hd]
  by_cases hii : i' = i
  · subst hii
    simp [assignAddr, setIno]
  · simp [assignAddr, setIno, update_of_ne hii]

/-- Put a block number into an indirect block. -/
def assignEntry (w : Vol) (i : Inum) (k : ℕ) (b : Blk) : Vol :=
  w.setBuf ((w.ino i).addrs (indirIndex k))
    ((w.buf ((w.ino i).addrs (indirIndex k))).put (4 * indirOfs k) (Bytes.leBytes 4 b))

section entry

variable (h : w.Sound sb) (hi : sb.Used w.buf i) (hk1 : sfsNdirect ≤ k) (hk2 : k < sfsMaxBlks)
variable (ha : (w.ino i).addrs (indirIndex k) ≠ 0)

include hi hk2 in
theorem indir_of : Slot.Of (sb.Used w.buf) (.addr i (indirIndex k)) := ⟨hi, indirIndex_lt hk2⟩

include ha in
theorem slot_assignEntry_self (hb : b < 256 ^ 4) : (w.assignEntry i k b).slot (.entry i k) = b := by
  have hino : (w.assignEntry i k b).ino = w.ino := rfl
  rw [slot, hino, if_neg ha, assignEntry, setBuf_buf_self, Bytes.le_put_of_lt hb]

include h hi hk1 hk2 ha in
theorem slot_assignEntry : ∀ σ, Slot.Of (sb.Used w.buf) σ → σ ≠ .entry i k →
    (w.assignEntry i k b).slot σ = w.slot σ
  | .addr _ _, _, _ => rfl
  | .entry i' k', hσ, hne => by
    refine slot_entry_congr rfl fun _ => ?_
    by_cases hbb : (w.ino i').addrs (indirIndex k') = (w.ino i).addrs (indirIndex k)
    · have ha' : (w.ino i').addrs (indirIndex k') ≠ 0 := hbb.symm ▸ ha
      have hsame := h.inj (.addr i' (indirIndex k')) (.addr i (indirIndex k))
        (indir_of hσ.1 hσ.2.2) (indir_of hi hk2) ha' hbb
      obtain ⟨hii, hjj⟩ := Slot.addr.inj hsame
      have hofs : indirOfs k' ≠ indirOfs k := fun ho =>
        hne (by rw [hii, eq_of_indir hσ.2.1 hk1 hjj ho])
      rw [hbb, assignEntry, setBuf_buf_self, Bytes.le_put_of_disjoint (by
        rw [Bytes.length_leBytes]
        omega)]
    · rw [assignEntry, setBuf_buf_of_ne _ hbb]

include h hi hk2 ha in
theorem used_assignEntry : sb.Used (w.assignEntry i k b).buf = sb.Used w.buf ∧
    sb.InUse (w.assignEntry i k b).buf = sb.InUse w.buf := by
  have hd : sb.DataBlk ((w.ino i).addrs (indirIndex k)) := (h.live _ (indir_of hi hk2) ha).1
  constructor
  · funext i'
    rw [SbInfo.Used, SbInfo.Used, assignEntry, setBuf_buf_of_ne _ hd.ne_inodeBmap.symm]
  · funext b'
    rw [SbInfo.InUse, SbInfo.InUse, assignEntry, eq_iff_iff]
    refine and_congr_right fun hb' => ?_
    rw [setBuf_buf_of_ne _ (hd.ne_bmapBlk hb').symm]

include h hi hk1 hk2 ha in
theorem Sound.assignEntry (hb : w.Fresh sb b) : (w.assignEntry i k b).Sound sb := by
  obtain ⟨hu, hin⟩ := used_assignEntry (b := b) h hi hk2 ha
  unfold Sound
  rw [hu, hin]
  exact Owned.assign h hb.unowned hb.inUse (slot_assignEntry_self ha hb.inUse.1.lt)
    (slot_assignEntry h hi hk1 hk2 ha)

include h hi hk1 hk2 ha in
theorem file_assignEntry {i' : Inum} (hi' : sb.Used w.buf i') (hb : w.Fresh sb b)
    (h0 : w.slot (.entry i k) = 0) : (w.assignEntry i k b).file i' = w.file i' := by
  have hbuf : ∀ b', b' ≠ (w.ino i).addrs (indirIndex k) → (w.assignEntry i k b).buf b' = w.buf b' :=
    fun b' hne => update_of_ne hne ..
  have hd : (w.assignEntry i k b).data i' = w.data i' := by
    refine data_assign hi' (slot_assignEntry_self ha hb.inUse.1.lt) h0
      (slot_assignEntry h hi hk1 hk2 ha) (fun k' hk' => hbuf _ ?_) ?_
    · intro he
      obtain ⟨hlt, hs⟩ := ptr_eq_slot hk'
      rw [hs] at he hk'
      exact blkSlot_ne_addr (indirIndex_ge k)
        (h.inj _ (.addr i (indirIndex k)) (blkSlot_of hi' hlt) (indir_of hi hk2) hk' he)
    · rw [hbuf b (hb.unowned _ (indir_of hi hk2)).symm, hb.zero]
  rw [file, file, hd]
  rfl

end entry

/-! ## Writing to a file -/

/-- Write to block `k` of a file. -/
def write (w : Vol) (i : Inum) (k o : ℕ) (l : List UInt8) : Vol :=
  w.setBuf (w.ptr i k) ((w.buf (w.ptr i k)).put o l)

section write

variable {o : ℕ} {l : List UInt8} (h : w.Sound sb) (hi : sb.Used w.buf i) (h0 : w.ptr i k ≠ 0)

include h hi h0

theorem ptr_dataBlk : sb.InUse w.buf (w.ptr i k) := by
  obtain ⟨hk, he⟩ := ptr_eq_slot h0
  rw [he]
  exact h.live _ (blkSlot_of hi hk) (he ▸ h0)

theorem ptr_inj {k' : ℕ} (hi' : sb.Used w.buf i') (he : w.ptr i' k' = w.ptr i k) :
    i' = i ∧ k' = k := by
  have h0' : w.ptr i' k' ≠ 0 := he ▸ h0
  obtain ⟨hk, hs⟩ := ptr_eq_slot h0
  obtain ⟨hk', hs'⟩ := ptr_eq_slot h0'
  rw [hs, hs'] at he
  exact blkSlot_inj (h.inj _ _ (blkSlot_of hi' hk') (blkSlot_of hi hk) (hs' ▸ h0') he)

theorem slot_write : ∀ σ, Slot.Of (sb.Used w.buf) σ → (w.write i k o l).slot σ = w.slot σ
  | .addr _ _, _ => rfl
  | .entry i' k', hσ => by
    refine slot_entry_congr rfl fun hne => ?_
    have hind : (w.ino i').addrs (indirIndex k') ≠ w.ptr i k := by
      intro he
      obtain ⟨hk, hs⟩ := ptr_eq_slot h0
      rw [hs] at he h0
      exact blkSlot_ne_addr (indirIndex_ge k')
        (h.inj _ (.addr i' (indirIndex k')) (blkSlot_of hi hk) (indir_of hσ.1 hσ.2.2) h0 he.symm)
    rw [write, setBuf_buf_of_ne _ hind]

theorem used_write : sb.Used (w.write i k o l).buf = sb.Used w.buf ∧
    sb.InUse (w.write i k o l).buf = sb.InUse w.buf := by
  have hd : sb.DataBlk (w.ptr i k) := (ptr_dataBlk h hi h0).1
  constructor
  · funext i'
    rw [SbInfo.Used, SbInfo.Used, write, setBuf_buf_of_ne _ hd.ne_inodeBmap.symm]
  · funext b'
    rw [SbInfo.InUse, SbInfo.InUse, write, eq_iff_iff]
    refine and_congr_right fun hb' => ?_
    rw [setBuf_buf_of_ne _ (hd.ne_bmapBlk hb').symm]

theorem Sound.write : (w.write i k o l).Sound sb := by
  obtain ⟨hu, hin⟩ := used_write (o := o) (l := l) h hi h0
  unfold Sound
  rw [hu, hin]
  exact Owned.congr h (slot_write h hi h0) fun _ _ hl => hl

theorem ptr_write (hi' : sb.Used w.buf i') (k' : ℕ) : (w.write i k o l).ptr i' k' = w.ptr i' k' :=
  ptr_congr (fun _ hlt => slot_write h hi h0 _ (blkSlot_of hi' hlt)) k'

theorem file_write_of_ne (hi' : sb.Used w.buf i') (hne : i' ≠ i) :
    (w.write i k o l).file i' = w.file i' := by
  refine file_congr rfl (fun _ hlt => slot_write h hi h0 _ (blkSlot_of hi' hlt)) fun k' _ => ?_
  have : w.ptr i' k' ≠ w.ptr i k := fun he => hne (ptr_inj h hi h0 hi' he).1
  rw [write, setBuf_buf_of_ne _ this]

theorem data_write (hl : o + l.length ≤ bdevBlkSize) :
    (w.write i k o l).data i = (w.data i).put (k * bdevBlkSize + o) l := by
  funext n
  have hB : 0 < bdevBlkSize := by decide
  have hdiv := Nat.div_add_mod' n bdevBlkSize
  have hmod := Nat.mod_lt n hB
  simp only [data, ptr_write h hi h0 hi]
  by_cases hk : n / bdevBlkSize = k
  · subst hk
    rw [if_neg h0, write, setBuf_buf_self]
    by_cases hn : o ≤ n % bdevBlkSize ∧ n % bdevBlkSize < o + l.length
    · obtain ⟨q, hq⟩ := Nat.exists_eq_add_of_le hn.1
      rw [hq, Bytes.put_add (by omega)]
      have hn' : n = n / bdevBlkSize * bdevBlkSize + o + q := by omega
      conv_rhs => rw [hn']
      rw [show (n / bdevBlkSize * bdevBlkSize + o + q) / bdevBlkSize =
        n / bdevBlkSize by rw [← hn'],
        Bytes.put_add (by omega)]
    · rw [Bytes.put_of_disjoint (by omega), Bytes.put_of_disjoint (by omega), data, if_neg h0]
  · have hp : w.ptr i (n / bdevBlkSize) = w.ptr i k → False := fun he =>
      hk (ptr_inj h hi h0 hi he).2
    have hbuf : (w.write i k o l).buf (w.ptr i (n / bdevBlkSize)) =
        w.buf (w.ptr i (n / bdevBlkSize)) := update_of_ne hp ..
    rw [hbuf]
    refine (Bytes.put_of_disjoint (m := w.data i) ?_).symm
    rcases Nat.lt_or_gt_of_ne hk with hlt | hgt
    · left
      have := Nat.mul_le_mul_right bdevBlkSize (Nat.succ_le_of_lt hlt)
      rw [Nat.succ_mul] at this
      omega
    · right
      have := Nat.mul_le_mul_right bdevBlkSize (Nat.succ_le_of_lt hgt)
      rw [Nat.succ_mul] at this
      omega

end write

/-! ## What an inode says about its file -/

variable {n : DInode}

theorem slot_setIno (ha : n.addrs = (w.ino i).addrs) : ∀ σ, (w.setIno i n).slot σ = w.slot σ
  | .addr i' _ | .entry i' _ => by
    by_cases hi : i' = i
    · subst hi
      simp [slot, setIno, ha]
    · simp [slot, setIno, update_of_ne hi]

theorem Sound.setIno (h : w.Sound sb) (ha : n.addrs = (w.ino i).addrs) : (w.setIno i n).Sound sb :=
  Owned.congr h (fun σ _ => slot_setIno ha σ) fun _ _ hl => hl

theorem ptr_setIno (ha : n.addrs = (w.ino i).addrs) (i' : Inum) (k : ℕ) :
    (w.setIno i n).ptr i' k = w.ptr i' k :=
  ptr_congr (fun _ _ => slot_setIno ha _) k

theorem data_setIno (ha : n.addrs = (w.ino i).addrs) (i' : Inum) :
    (w.setIno i n).data i' = w.data i' :=
  data_congr (ptr_congr fun _ _ => slot_setIno ha _) fun _ _ => rfl

theorem file_setIno (ha : n.addrs = (w.ino i).addrs) : (w.setIno i n).file =
    Function.update w.file i ⟨n.ftype, n.mode, n.nlink, n.size, (w.file i).data⟩ := by
  funext i'
  rw [file, data_setIno ha]
  rcases eq_or_ne i' i with rfl | hne <;> simp [setIno, file, *]

end Vol

end Osv
