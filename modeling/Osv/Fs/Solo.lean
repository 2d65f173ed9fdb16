import Osv.Fs.Rep

/-!
# A volume with one file

`solo K size nlink` is a file system with the super block of `tools/mkfs.c` and one inode,
number 2, which is in memory.  Its file has the first `K` blocks, one after the other on
the device, and the indirect blocks that they need.  The size of the file can be any
number: a write that fails leaves blocks beyond it.
-/

namespace Osv

/-- The block numbers of an array, as the bytes of a buffer. -/
def numBytes (f : ℕ → ℕ) : Bytes := fun o => UInt8.ofNat (f (o / 4) / 256 ^ (o % 4) % 256)

theorem le_numBytes {f : ℕ → ℕ} {e : ℕ} (h : f e < 256 ^ 4) : (numBytes f).le (4 * e) 4 = f e := by
  have hbyte : ∀ q < 4, (numBytes f (4 * e + q)).toNat = f e / 256 ^ q % 256 := by
    intro q hq
    have h1 : (4 * e + q) / 4 = e := by omega
    have h2 : (4 * e + q) % 4 = q := by omega
    rw [numBytes, h1, h2, UInt8.toNat_ofNat']
    exact Nat.mod_eq_of_lt (Nat.mod_lt _ (by decide))
  have h0 := hbyte 0 (by decide)
  have h1 := hbyte 1 (by decide)
  have h2 := hbyte 2 (by decide)
  have h3 := hbyte 3 (by decide)
  simp only [Bytes.le, Nat.add_assoc, Nat.reduceAdd, h1, h2, h3]
  rw [Nat.add_zero] at h0
  rw [h0]
  simp only [Nat.pow_zero, Nat.div_one]
  omega

namespace Solo

/-- `i_addrs` of a file with `K` blocks. -/
def addrs (K j : ℕ) : ℕ :=
  if j < sfsNdirect then (if j < K then 324 + j else 0)
  else if j < sfsNdirect + sfsNindirect ∧
      sfsNdirect + (j - sfsNdirect) * ptrsPerBlk < K then 324 + j
  else 0

/-- The entry for block `k`. -/
def entry (K k : ℕ) : ℕ := if k < K then 326 + k else 0

/-- The contents of the device: the bitmaps and the indirect blocks. -/
def buf (K : ℕ) (b : Blk) : Bytes :=
  if b = sfsInodeBmapBlk then fun o => if o = 0 then 2 else 0
  else if b = 36 then fun o => if o < 34 then 255 else if o = 34 then 7 else 0
  else if b = 336 then numBytes fun e => entry K (sfsNdirect + e)
  else if b = 337 then numBytes fun e => entry K (sfsNdirect + ptrsPerBlk + e)
  else Bytes.zero

/-- The inode of the file. -/
def inode (K size nlink : ℕ) : Inode := ⟨⟨ftypeFile, 0, nlink, size, addrs K⟩, 1, true, true⟩

/-- The file is cached, and no other inode is. -/
def data (K size nlink : ℕ) : Data where
  buf := buf K
  icache i := if i = 2 then some (inode K size nlink) else none
  cleanup := []
  next _ := none

variable {K size nlink : ℕ}

theorem bit_inodeBmap (x : ℕ) : (buf K sfsInodeBmapBlk).bit x = true ↔ x = 1 := by
  have hbit : ∀ x < 8, ((2 : UInt8).toBitVec.getLsbD x = true ↔ x = 1) := by decide
  show Bytes.bit (fun o => if o = 0 then 2 else 0) x = true ↔ _
  unfold Bytes.bit
  beta_reduce
  split
  · rw [hbit (x % 8) (Nat.mod_lt _ (by decide))]
    omega
  · refine iff_of_false ?_ ?_
    · rw [UInt8.toBitVec_zero, BitVec.getLsbD_zero]
      decide
    · omega

theorem used_iff (i : ℕ) : mkfsSb.Used (buf K) i ↔ i = 2 := by
  rw [SbInfo.Used, bit_inodeBmap]
  constructor
  · rintro ⟨h1, h2⟩
    have := h1.1
    omega
  · rintro rfl
    exact ⟨⟨by decide, by decide⟩, rfl⟩

theorem inUse {b : ℕ} (h1 : 324 ≤ b) (h2 : b < 596) : mkfsSb.InUse (buf K) b := by
  have hbit : ∀ x < 8, (255 : UInt8).toBitVec.getLsbD x = true := by decide
  have hblk : mkfsSb.bmapBlk b = 36 := by
    show 36 + (b - 324) / 4096 = 36
    omega
  have hidx : mkfsSb.bmapIdx b = b - 324 := by
    show (b - 324) % 4096 = b - 324
    omega
  refine ⟨⟨h1, ?_⟩, ?_⟩
  · show b < 324 + 131072
    omega
  · rw [hblk, hidx]
    show Bytes.bit (fun o => if o < 34 then 255 else if o = 34 then 7 else 0) (b - 324) = true
    have hlt : (b - 324) / 8 < 34 := by omega
    unfold Bytes.bit
    beta_reduce
    rw [if_pos hlt]
    exact hbit _ (Nat.mod_lt _ (by decide))

theorem addrs_eq {j : ℕ} (h0 : addrs K j ≠ 0) : addrs K j = 324 + j ∧ j < 14 := by
  unfold addrs sfsNdirect sfsNindirect at *
  split_ifs at h0 ⊢ with h1 h2 h3
  · exact ⟨rfl, by omega⟩
  · exact absurd rfl h0
  · exact ⟨rfl, h3.1⟩
  · exact absurd rfl h0

theorem addrs_direct {j : ℕ} (hj : j < sfsNdirect) : addrs K j ≠ 0 ↔ j < K := by
  rw [addrs, if_pos hj]
  split
  · exact iff_of_true (by omega) ‹_›
  · exact iff_of_false (by simp) ‹_›

theorem addrs_indirect {j : ℕ} (h1 : sfsNdirect ≤ j) (h2 : j < sfsNdirect + sfsNindirect) :
    addrs K j ≠ 0 ↔ sfsNdirect + (j - sfsNdirect) * ptrsPerBlk < K := by
  rw [addrs, if_neg (Nat.not_lt.mpr h1)]
  split
  · exact iff_of_true (by omega) (‹_ ∧ _›).2
  · refine iff_of_false (by simp) fun h => ?_
    tauto

theorem vol_ino : ((data K size nlink).vol mkfsSb).ino 2 = (inode K size nlink).toDInode := by
  rw [Data.vol_ino ⟨by decide, by decide⟩]
  rfl

theorem slot_addr (j : ℕ) : ((data K size nlink).vol mkfsSb).slot (.addr 2 j) = addrs K j := by
  rw [Vol.slot, vol_ino]
  rfl

theorem slot_entry {k : ℕ} (hk1 : sfsNdirect ≤ k) (hk2 : k < sfsMaxBlks) (hK : K ≤ sfsMaxBlks) :
    ((data K size nlink).vol mkfsSb).slot (.entry 2 k) = entry K k := by
  have hsmall : ∀ k', entry K k' < 256 ^ 4 := by
    intro k'
    unfold entry sfsMaxBlks sfsNdirect sfsNindirect ptrsPerBlk at *
    split <;> omega
  rw [Vol.slot, vol_ino]
  show (if addrs K (indirIndex k) = 0 then 0 else (buf K (addrs K (indirIndex k))).le
      (4 * indirOfs k) 4) = _
  split
  · rename_i h0
    have hlt := (addrs_indirect (K := K) (Vol.indirIndex_ge k) (Vol.indirIndex_lt hk2)).not_right.mp
        h0
    rw [entry, if_neg]
    unfold indirIndex sfsNdirect ptrsPerBlk at *
    omega
  · rename_i h0
    rw [(addrs_eq h0).1]
    have hcase : (indirIndex k = 12 ∧ sfsNdirect + indirOfs k = k) ∨
        (indirIndex k = 13 ∧ sfsNdirect + ptrsPerBlk + indirOfs k = k) := by
      unfold indirIndex indirOfs sfsMaxBlks sfsNdirect sfsNindirect ptrsPerBlk at *
      omega
    rcases hcase with ⟨h1, h2⟩ | ⟨h1, h2⟩
    · rw [h1]
      show (numBytes fun e => entry K (sfsNdirect + e)).le _ _ = _
      rw [le_numBytes (f := fun e => entry K (sfsNdirect + e)) (hsmall _), h2]
    · rw [h1]
      show (numBytes fun e => entry K (sfsNdirect + ptrsPerBlk + e)).le _ _ = _
      rw [le_numBytes (f := fun e => entry K (sfsNdirect + ptrsPerBlk + e)) (hsmall _), h2]

theorem entry_ne {k : ℕ} : entry K k ≠ 0 ↔ k < K := by
  unfold entry
  split
  · exact iff_of_true (by omega) ‹_›
  · exact iff_of_false (by simp) ‹_›

theorem slot_eq (hK : K ≤ sfsMaxBlks) {σ : Slot} (h : σ.Of (mkfsSb.Used (buf K)))
    (h0 : ((data K size nlink).vol mkfsSb).slot σ ≠ 0) :
    (∃ j < 14, σ = .addr 2 j ∧ ((data K size nlink).vol mkfsSb).slot σ = 324 + j) ∨
      ∃ k, 12 ≤ k ∧ k < 268 ∧ σ = .entry 2 k ∧ ((data K size nlink).vol mkfsSb).slot σ =
        326 + k := by
  cases σ with
  | addr i j =>
    obtain ⟨hi, -⟩ := h
    obtain rfl := (used_iff i).mp hi
    rw [slot_addr] at h0 ⊢
    exact .inl ⟨j, (addrs_eq h0).2, rfl, (addrs_eq h0).1⟩
  | entry i k =>
    obtain ⟨hi, hk1, hk2⟩ := h
    obtain rfl := (used_iff i).mp hi
    rw [slot_entry hk1 hk2 hK] at h0 ⊢
    refine .inr ⟨k, hk1, hk2, rfl, ?_⟩
    rw [entry, if_pos (entry_ne.mp h0)]

theorem sound (hK : K ≤ sfsMaxBlks) : ((data K size nlink).vol mkfsSb).Sound mkfsSb where
  live σ hσ h0 := by
    rcases slot_eq hK hσ h0 with ⟨j, hj, -, he⟩ | ⟨k, hk1, hk2, -, he⟩ <;> rw [he] <;>
      exact inUse (by omega) (by omega)
  inj σ τ hσ hτ h0 he := by
    rcases slot_eq hK hσ h0 with ⟨j, hj, rfl, h1⟩ | ⟨k, hk1, hk2, rfl, h1⟩ <;>
      rcases slot_eq hK hτ (he ▸ h0) with ⟨j', hj', rfl, h2⟩ | ⟨k', hk1', hk2', rfl, h2⟩
    · have h : 324 + j = 324 + j' := h1.symm.trans (he.trans h2)
      obtain rfl : j = j' := by omega
      rfl
    · have h : 324 + j = 326 + k' := h1.symm.trans (he.trans h2)
      omega
    · have h : 326 + k = 324 + j' := h1.symm.trans (he.trans h2)
      omega
    · have h : 326 + k = 326 + k' := h1.symm.trans (he.trans h2)
      obtain rfl : k = k' := by omega
      rfl

/-- What is known of it. -/
def view (K size nlink : ℕ) : View where
  used i := i = 2
  file := ((data K size nlink).vol mkfsSb).file
  ref := (data K size nlink).refs
  dirty _ := True
  filled i := i = 2
  more _ _ := False

theorem addrs_lt (K j : ℕ) : addrs K j < 256 ^ 4 := by
  by_cases h0 : addrs K j = 0
  · rw [h0]
    decide
  · obtain ⟨he, hj⟩ := addrs_eq h0
    rw [he]
    omega

theorem fsRep (hK : K ≤ sfsMaxBlks) (hsize : size ≤ K * bdevBlkSize) :
    FsRep mkfsSb (view K size nlink) (data K size nlink) where
  sound := sound hK
  used i := (used_iff i).symm
  file _ _ := rfl
  ref _ := rfl
  cached i n hn := by
    obtain rfl : i = 2 := by
      by_contra hne
      exact Option.some_ne_none n (hn.symm.trans (if_neg hne))
    obtain rfl : inode K size nlink = n := Option.some.inj hn
    have hsmall : size < 256 ^ 4 := by
      unfold sfsMaxBlks sfsNdirect sfsNindirect ptrsPerBlk bdevBlkSize at *
      omega
    have hftype : ftypeFile < 256 ^ 1 := by decide
    refine ⟨rfl, rfl, Nat.one_pos, ⟨hftype, (Nat.zero_le _).trans_lt hftype, hsmall, addrs_lt K,
      fun j hj => ?_⟩, fun h => (by cases h), fun _ => trivial⟩
    by_contra h0
    exact absurd (addrs_eq h0).2 (Nat.not_lt.mpr hj)
  filled i hi _ k hk := by
    obtain rfl : i = 2 := hi
    replace hk := hk.resolve_right id
    have hfile : ((view K size nlink).file 2).size = size := by
      show (((data K size nlink).vol mkfsSb).ino 2).size = size
      rw [vol_ino]
      rfl
    rw [hfile] at hk
    have hkK : k < K := by
      by_contra hge
      exact absurd (hk.trans_le hsize) (Nat.not_lt.mpr (Nat.mul_le_mul_right _ (Nat.not_lt.mp hge)))
    have hlt : k < sfsMaxBlks := hkK.trans_le hK
    rw [Vol.ptr_of_lt hlt, Vol.blkSlot]
    split
    · rw [slot_addr, addrs_direct ‹_›]
      exact hkK
    · rw [slot_entry (Nat.not_lt.mp ‹_›) hlt hK, entry_ne]
      exact hkK

/-- The file system in a transaction that has just begun. -/
def fs (K size nlink : ℕ) (A : ℕ → Bool) : Fs :=
  ⟨data K size nlink, .idle true A, ⟨buf K, []⟩⟩

end Solo

end Osv
