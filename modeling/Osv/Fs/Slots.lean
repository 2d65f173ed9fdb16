import Osv.Fs.Block
import Osv.Fs.Rep

/-!
# The slots of one inode

An inode has the slots of `i_addrs` and the entries of its two indirect blocks.  While
a file grows, blocks that were free go into slots that were empty, and the bit of a
block is set for no other reason (`Gained`).  So no block is taken and lost: what the
data bitmap gains is in the slots, also after a write that fails.
-/

namespace Osv

/-! ## The data bitmap -/

/-- The bit of a data block. -/
def Data.bmapBit (sb : SbInfo) (d : Data) (b : Blk) : Bool :=
  (d.buf (sb.bmapBlk b)).bit (sb.bmapIdx b)

/-- The data bitmap has a bit for the block. -/
def SbInfo.HasBit (sb : SbInfo) (b : ℕ) : Prop := sb.dataStart ≤ b ∧ sb.bmapBlk b < sb.journalStart

section bits

variable {sb : SbInfo} {d : Data} {b b' : ℕ}

theorem SbInfo.DataBlk.hasBit (h : sb.DataBlk b) : sb.HasBit b := ⟨h.1, h.bmapBlk_lt⟩

theorem SbInfo.HasBit.ne_zero (h : sb.HasBit b) : b ≠ 0 := by
  have h1 := bmap_lt_dataStart sb
  have h2 := h.1
  omega

theorem SbInfo.DataBlk.ne_bmapBlk_of_hasBit (h : sb.DataBlk b) (h' : sb.HasBit b') :
    b ≠ sb.bmapBlk b' := by
  have h1 := h.1
  have h2 := h'.2
  have h3 := sb.journal_le
  omega

theorem SbInfo.HasBit.eq_of_idx (hb : sb.HasBit b) (hb' : sb.HasBit b')
    (hblk : sb.bmapBlk b' = sb.bmapBlk b) (hidx : sb.bmapIdx b' = sb.bmapIdx b) : b' = b := by
  have h1 := hb.1
  have h2 := hb'.1
  unfold SbInfo.bmapBlk SbInfo.bmapIdx bitsPerBlk at *
  omega

theorem bmapBit_setBuf (hb : sb.DataBlk b) (m : Bytes) (hb' : sb.HasBit b') :
    (d.setBuf b m).bmapBit sb b' = d.bmapBit sb b' := by
  rw [Data.bmapBit, Data.bmapBit, setBuf_buf_of_ne m (hb.ne_bmapBlk_of_hasBit hb').symm]

theorem bmapBit_storeIno {i : Inum} (hi : sb.IsInum i) (n : Inode) (b' : Blk) :
    (d.storeIno i n).bmapBit sb b' = d.bmapBit sb b' := by
  rw [Data.bmapBit, Data.bmapBit]
  congr 1
  exact Function.update_of_ne (bmapBlk_ne_inumToBlk b' hi) ..

theorem bmapBit_takeBlk (hb : sb.DataBlk b) (hb' : sb.HasBit b') :
    (d.takeBlk sb b).bmapBit sb b' = true ↔ d.bmapBit sb b' = true ∨ b' = b := by
  rw [Data.takeBlk, bmapBit_setBuf hb _ hb', Data.bmapBit, Data.bmapBit]
  by_cases hblk : sb.bmapBlk b' = sb.bmapBlk b
  · rw [hblk, setBuf_buf_self, Bytes.bit_setBit, Bool.or_eq_true, decide_eq_true_iff]
    exact or_congr_right ⟨hb.hasBit.eq_of_idx hb' hblk, fun h => by rw [h]⟩
  · rw [setBuf_buf_of_ne _ hblk]
    exact (or_iff_left fun h => hblk (by rw [h])).symm

end bits

/-! ## What an inode gains -/

/-- The slots of an inode. -/
def Slot.Mine (i : Inum) : Slot → Prop := Slot.Of (· = i)

/-- Blocks that were free are in slots of an inode that were empty, and nothing else is taken. -/
structure Gained (sb : SbInfo) (i : Inum) (d d' : Data) : Prop where
  kept : ∀ σ, Slot.Mine i σ → (d.vol sb).slot σ ≠ 0 → (d'.vol sb).slot σ = (d.vol sb).slot σ
  free : ∀ σ, Slot.Mine i σ → (d'.vol sb).slot σ ≠ (d.vol sb).slot σ →
    d.bmapBit sb ((d'.vol sb).slot σ) = false
  bits : ∀ b, sb.HasBit b →
    (d'.bmapBit sb b = true ↔ d.bmapBit sb b = true ∨ ∃ σ, Slot.Mine i σ ∧ (d'.vol sb).slot σ = b)

section gained

variable {sb : SbInfo} {w : View} {d d' d'' : Data} {i : Inum} {n : Inode} {σ : Slot} {b : ℕ}

theorem Slot.Mine.of_used (h : σ.Mine i) (hu : sb.Used d.buf i) :
    σ.Of (sb.Used (d.vol sb).buf) := by
  cases σ with
  | addr i' j | entry i' k => exact ⟨h.1 ▸ hu, h.2⟩

section

variable (hr : FsRep sb w d) (hu : w.used i)

include hr hu

theorem FsRep.bmapBit_slot (hσ : σ.Mine i) (h0 : (d.vol sb).slot σ ≠ 0) :
    sb.HasBit ((d.vol sb).slot σ) ∧ d.bmapBit sb ((d.vol sb).slot σ) = true := by
  have hlive := hr.sound.live σ (hσ.of_used (hr.used_buf hu)) h0
  exact ⟨hlive.1.hasBit, hlive.2⟩

theorem Gained.of_eq (hs : ∀ σ, Slot.Mine i σ → (d'.vol sb).slot σ = (d.vol sb).slot σ)
    (hbits : ∀ b, sb.HasBit b → d'.bmapBit sb b = d.bmapBit sb b) : Gained sb i d d' where
  kept σ hσ _ := hs σ hσ
  free σ hσ hne := absurd (hs σ hσ) hne
  bits b hb := by
    rw [hbits b hb, iff_self_or]
    rintro ⟨σ, hσ, rfl⟩
    rw [hs σ hσ] at hb ⊢
    exact (hr.bmapBit_slot hu hσ hb.ne_zero).2

theorem Gained.refl : Gained sb i d d :=
  .of_eq hr hu (fun _ _ => rfl) fun _ _ => rfl

theorem Gained.of_assign (hfree : sb.Free d.buf b) (hσ : σ.Mine i) (h0 : (d.vol sb).slot σ = 0)
    (hself : (d'.vol sb).slot σ = b)
    (hs : ∀ τ, Slot.Mine i τ → τ ≠ σ → (d'.vol sb).slot τ = (d.vol sb).slot τ)
    (hbits : ∀ b', sb.HasBit b' → (d'.bmapBit sb b' = true ↔ d.bmapBit sb b' = true ∨ b' = b)) :
    Gained sb i d d' where
  kept τ hτ hne := hs τ hτ fun he => hne (he ▸ h0)
  free τ hτ hne := by
    by_cases he : τ = σ
    · rw [he, hself]
      exact hfree.2
    · exact absurd (hs τ hτ he) hne
  bits b' hb' := by
    rw [hbits b' hb']
    constructor
    · rintro (h | rfl)
      · exact .inl h
      · exact .inr ⟨σ, hσ, hself⟩
    · rintro (h | ⟨τ, hτ, rfl⟩)
      · exact .inl h
      · by_cases he : τ = σ
        · exact .inr (by rw [he, hself])
        · rw [hs τ hτ he] at hb' ⊢
          exact .inl (hr.bmapBit_slot hu hτ hb'.ne_zero).2

end

theorem Gained.trans (h : Gained sb i d d') (h' : Gained sb i d' d'') (hr : FsRep sb w d'')
    (hu : w.used i) : Gained sb i d d'' where
  kept σ hσ h0 := by
    have h1 := h.kept σ hσ h0
    rw [h'.kept σ hσ (h1.symm ▸ h0), h1]
  free σ hσ hne := by
    by_cases he : (d''.vol sb).slot σ = (d'.vol sb).slot σ
    · rw [he] at hne ⊢
      exact h.free σ hσ hne
    · have h1 := h'.free σ hσ he
      by_cases h0 : (d''.vol sb).slot σ = 0
      · by_cases h0' : (d'.vol sb).slot σ = 0
        · exact absurd (h0.trans h0'.symm) he
        · exact absurd (h'.kept σ hσ h0') he
      · rw [Bool.eq_false_iff] at h1 ⊢
        exact fun hbit => h1 ((h.bits _ (hr.bmapBit_slot hu hσ h0).1).mpr (.inl hbit))
  bits b hb := by
    rw [h'.bits b hb, h.bits b hb, or_assoc]
    refine or_congr_right (or_iff_right_of_imp ?_)
    rintro ⟨σ, hσ, rfl⟩
    exact ⟨σ, hσ, h'.kept σ hσ hb.ne_zero⟩

section

variable (hr : FsRep sb w d)

include hr

theorem FsRep.slot_takeBlk (hfree : sb.Free d.buf b) (hσ : σ.Of (sb.Used (d.vol sb).buf)) :
    ((d.takeBlk sb b).vol sb).slot σ = (d.vol sb).slot σ := by
  obtain ⟨hun, hun1⟩ := hr.unowned_free hfree
  set m := (d.buf (sb.bmapBlk b)).setBit (sb.bmapIdx b) with hm
  have hun2 := hun.setBuf hun1 (bmapBlk_ne_inodeBmap sb b) m
  have hσ1 : σ.Of (sb.Used ((d.vol sb).setBuf (sb.bmapBlk b) m).buf) := by
    rw [Vol.used_setBuf (bmapBlk_ne_inodeBmap sb b) m]
    exact hσ
  rw [Data.takeBlk, Data.vol_setBuf hfree.1.notTable, Data.vol_setBuf (bmapBlk_notTable sb b),
    Vol.slot_setBuf hun2 _ σ hσ1, Vol.slot_setBuf hun1 _ σ hσ]

theorem FsRep.gained_assign (hn : d.icache i = some n) (hfree : sb.Free d.buf b) {j : ℕ}
    (hj : j < sfsNdirect + sfsNindirect) (h0 : n.addrs j = 0) :
    Gained sb i d ((d.takeBlk sb b).storeIno i (n.assign j b)) := by
  obtain ⟨hr1, hfresh⟩ := hr.takeBlk hfree
  have hu := (hr.cached i n hn).used
  have hi := hr.isInum hu
  have hn1 : (d.takeBlk sb b).icache i = some n := hn
  have h0' : (((d.takeBlk sb b).vol sb).ino i).addrs j = 0 := by rw [hr1.vol_ino hn1, h0]
  refine .of_assign (σ := .addr i j) hr hu hfree ⟨rfl, hj⟩ ?_ ?_ (fun τ hτ hne => ?_) fun b' hb' =>
    ?_
  · rw [Vol.slot, hr.vol_ino hn, h0]
  · rw [hr1.vol_assign hn1, Vol.slot_assignAddr_self]
  · have hτ1 := hτ.of_used (hr1.used_buf hu)
    rw [hr1.vol_assign hn1, Vol.slot_assignAddr (hfresh.setTable hr1.sound hi _).zero h0' τ hne,
      Vol.slot_setBuf (hr1.sound.unowned_table hi) _ τ hτ1, hr.slot_takeBlk hfree
      (hτ.of_used (hr.used_buf hu))]
  · rw [bmapBit_storeIno hi, bmapBit_takeBlk hfree.1 hb']

theorem FsRep.gained_assignEntry (hu : w.used i) (hfree : sb.Free d.buf b) {k : ℕ}
    (hk1 : sfsNdirect ≤ k) (hk2 : k < sfsMaxBlks) {indir : Blk}
    (hind : (((d.takeBlk sb b).vol sb).ino i).addrs (indirIndex k) = indir) (hne : indir ≠ 0)
    (h0 : (d.vol sb).slot (.entry i k) = 0) : Gained sb i d ((d.takeBlk sb b).setBuf indir
      (((d.takeBlk sb b).buf indir).put (4 * indirOfs k) (Bytes.leBytes 4 b))) := by
  obtain ⟨hr1, hfresh⟩ := hr.takeBlk hfree
  have hu1 := hr1.used_buf hu
  subst hind
  have hdata : sb.DataBlk ((((d.takeBlk sb b).vol sb).ino i).addrs (indirIndex k)) :=
    (hr1.sound.live (.addr i (indirIndex k)) (Vol.indir_of hu1 hk2) hne).1
  have hvol : ((d.takeBlk sb b).setBuf _ (((d.takeBlk sb b).buf _).put (4 * indirOfs k)
      (Bytes.leBytes 4 b))).vol sb =
      ((d.takeBlk sb b).vol sb).assignEntry i k b := Data.vol_setBuf hdata.notTable
  refine .of_assign (σ := .entry i k) hr hu hfree ⟨rfl, hk1, hk2⟩ h0 ?_
    (fun τ hτ hne' => ?_) fun b' hb' => ?_
  · rw [hvol, Vol.slot_assignEntry_self hne hfresh.inUse.1.lt]
  · rw [hvol, Vol.slot_assignEntry hr1.sound hu1 hk1 hk2 hne τ (hτ.of_used hu1) hne',
      hr.slot_takeBlk hfree (hτ.of_used (hr.used_buf hu))]
  · rw [bmapBit_setBuf hdata _ hb', bmapBit_takeBlk hfree.1 hb']

theorem FsRep.gained_write (hu : w.used i) {k o : ℕ} {l : List UInt8} (hp : (d.vol sb).ptr i k = b)
    (hb : b ≠ 0) : Gained sb i d (d.setBuf b ((d.buf b).put o l)) := by
  subst hp
  have hu' := hr.used_buf hu
  have hdata : sb.DataBlk ((d.vol sb).ptr i k) := (Vol.ptr_dataBlk hr.sound hu' hb).1
  refine .of_eq hr hu (fun σ hσ => ?_) fun b' hb' => bmapBit_setBuf hdata _ hb'
  rw [Data.vol_setBuf hdata.notTable]
  exact Vol.slot_write hr.sound hu' hb σ (hσ.of_used hu')

theorem FsRep.gained_storeIno (hn : d.icache i = some n) {x : Inode} (hv : x.valid = true)
    (ha : x.addrs = n.addrs) : Gained sb i d (d.storeIno i x) := by
  have hu := (hr.cached i n hn).used
  have hi := hr.isInum hu
  refine .of_eq hr hu (fun σ hσ => ?_) fun b' _ => bmapBit_storeIno hi x b'
  have ha' : x.addrs = (((d.vol sb).setBuf (inumToBlk i)
      ((d.buf (inumToBlk i)).put (inumToOfs i) x.encode)).ino i).addrs := by
    show _ = ((d.vol sb).ino i).addrs
    rw [hr.vol_ino hn, ha]
  rw [Data.vol_storeIno hi hv, Vol.slot_setIno ha',
    Vol.slot_setBuf (hr.sound.unowned_table hi) _ σ (hσ.of_used (hr.used_buf hu))]

theorem FsRep.gained_setInode (hn : d.icache i = some n) {x : Inode} (hv : x.valid = true)
    (ha : x.addrs = n.addrs) : Gained sb i d (d.setInode i (some x)) := by
  have hu := (hr.cached i n hn).used
  refine .of_eq hr hu (fun σ _ => ?_) fun _ _ => rfl
  have ha' : x.addrs = ((d.vol sb).ino i).addrs := by rw [hr.vol_ino hn, ha]
  rw [Data.vol_setInode_some (hr.isInum hu) hv, Vol.slot_setIno ha']

end

end gained

end Osv
