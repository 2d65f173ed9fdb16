import Osv.Fs.Slots

/-!
# Getting a block of a file

`alloc_data_block` sets the bit of a free block and fills the block with zeros, or
changes nothing.  `get_data_block` may put such blocks into empty slots of the
inode and of an indirect block, so the view of the file system is the same after it
(`wp_getDataBlock`), whether it succeeds or not.

There are two ways not to return.  The journal may be full.  And when the block of a
file is behind an indirect block and its own buffer cannot be had, the path for
failures releases the lock of the indirect block a second time, which
`sleeplock_release` asserts against.
-/

namespace Osv

open Prog (wp wp_bind)

/-- The assertion of `sleeplock_release`. -/
def lockNotHeld : Trap := .kassert "lock && lock->holder == thread_current()"

/-- No data block is free. -/
def NoFree (sb : SbInfo) (d : Data) : Prop := ∀ b, ¬ sb.Free d.buf b

variable {sb : SbInfo} {w : View} {A : ℕ → Bool} {p : Blk → ℕ} {h : List Blk} {L : ℕ}
variable {d : Data} {c : Ctl} {v : Dev} {E : Trap → Prop} {i : Inum} {n : Inode}

/-! ## Allocating a block -/

variable {Q : Except Err Blk → Fs → Prop}

theorem wp_initDataBlock {b : Blk} (hfree : sb.Free d.buf b) (hb : b ∉ h)
    (hc : c.At E A p (sb.bmapBlk b :: h) L) (hE : Room (L + 1) E)
    (hok : ∀ c', c'.At E A p h (L + 1) → Q (.ok b) ⟨d.takeBlk sb b, c', v⟩)
    (herr : Fails A → ∀ c', c'.At E A p h (L + 1) → Q (.error .nomem) ⟨d, c', v⟩) :
    wp (initDataBlock (sb.bmapBlk b) (sb.bmapIdx b) b) Q E
      ⟨d.setBuf (sb.bmapBlk b) ((d.buf (sb.bmapBlk b)).setBit (sb.bmapIdx b)), c, v⟩ := by
  have hne : b ≠ sb.bmapBlk b := hfree.1.ne_bmapBlk hfree.1
  rw [initDataBlock, wp_bind]
  refine wp_bdevGetBlk (by simp [hb, hne]) hc (fun c1 h1 => ?_) (fun _ hA c1 h1 => ?_)
  · rw [if_pos rfl, wp_bind]
    refine wp_bdevReleaseBlk (by simp) h1 fun c2 h2 => ?_
    rw [List.erase_cons_tail (by simpa using hne), List.erase_cons_head] at h2
    rw [wp_bind]
    refine wp_logWrite h2 hE fun c3 h3 => ?_
    rw [wp_bind]
    exact wp_release_head h3 hok
  · rw [if_neg (by decide), wp_bind]
    refine wp_bmapFreeElement_set hfree.2 h1 hE fun c2 h2 => ?_
    rw [wp_bind]
    exact wp_release_head h2 (herr hA)

variable {k : ℕ}

theorem bmap_bit {j : ℕ} (hj : j < 8 * min bdevBlkSize ((sb.size - k * bitsPerBlk) / 8)) :
    sb.DataBlk (sb.dataStart + k * bitsPerBlk + j) ∧
      sb.bmapBlk (sb.dataStart + k * bitsPerBlk + j) = sb.dataBmapStart + k ∧
      sb.bmapIdx (sb.dataStart + k * bitsPerBlk + j) = j := by
  unfold SbInfo.DataBlk SbInfo.bmapBlk SbInfo.bmapIdx bdevBlkSize bitsPerBlk at *
  have h1 : j < 8 * 512 := lt_of_lt_of_le hj (by omega)
  have h2 : j < 8 * ((sb.size - k * 4096) / 8) := lt_of_lt_of_le hj (by omega)
  omega

theorem bmap_bit_lt {b : ℕ} (hb : sb.DataBlk b) : sb.bmapIdx b < 8 * min bdevBlkSize
      ((sb.size - (b - sb.dataStart) / bitsPerBlk * bitsPerBlk) / 8) := by
  have h1 := hb.1
  have h2 := hb.2
  obtain ⟨q, hq⟩ := sb.size_dvd
  unfold SbInfo.bmapIdx bdevBlkSize bitsPerBlk
  omega

section

variable (hh : ∀ b ∈ h, sb.InUse d.buf b)
    (hE : Room (L + 2) E)
    (hok : ∀ b c', sb.Free d.buf b → c'.At E A p h (L + 2) → Q (.ok b) ⟨d.takeBlk sb b, c', v⟩)
    (hmem : Fails A → ∀ c', c'.At E A p h (L + 2) → Q (.error .nomem) ⟨d, c', v⟩)
    (hres : NoFree sb d → ∀ c', c'.At E A p h (L + 2) → Q (.error .nores) ⟨d, c', v⟩)

include hh hE hok hmem hres

theorem wp_allocDataBlockFrom : ∀ {r k : ℕ} {c : Ctl}, r + k = sb.bmapBlks →
      (∀ b, sb.Free d.buf b → k ≤ (b - sb.dataStart) / bitsPerBlk) → c.At E A p h L →
      wp (allocDataBlockFrom sb r k) Q E ⟨d, c, v⟩
  | 0, k, c, hk, hbelow, hc => by
    refine hres (fun b hb => ?_) c (hc.mono (Nat.le_add_right ..))
    have h1 := hb.1.bmapBlk_lt
    have h2 := hbelow b hb
    have h3 := sb.bmap_le
    unfold SbInfo.bmapBlk SbInfo.bmapBlks at *
    omega
  | r + 1, k, c, hk, hbelow, hc => by
    have hbm : sb.dataBmapStart + k ∉ h := fun hmem => by
      have h1 := (hh _ hmem).1.1
      have h2 := sb.journal_le
      have h3 := sb.bmap_le
      unfold SbInfo.bmapBlks at hk
      omega
    rw [allocDataBlockFrom, wp_bind]
    refine wp_bdevGetBlk hbm hc (fun c1 h1 => ?_)
      (fun _ hA c1 h1 => hmem hA c1 (h1.mono (Nat.le_add_right ..)))
    rw [if_pos rfl, wp_bind]
    refine wp_bmapAllocElement h1 (hE.mono (Nat.le_succ _)) (fun j hj hbit c2 h2 => ?_) fun hall =>
      ?_
    · obtain ⟨hdata, hblk, hidx⟩ := bmap_bit hj
      set b := sb.dataStart + k * bitsPerBlk + j with hb
      rw [← hblk] at hbit h2 ⊢
      rw [← hidx] at hbit
      have hfree : sb.Free d.buf b := ⟨hdata, hbit⟩
      have hbh : b ∉ h := fun hmem => by
        have := (hh b hmem).2
        rw [hbit] at this
        cases this
      have := wp_initDataBlock (v := v) (Q := Q) hfree hbh h2 hE (fun c' => hok b c' hfree) hmem
      rw [hidx] at this
      exact this
    · show wp (_ >>= _) Q E _
      rw [wp_bind]
      refine wp_release_head h1 fun c2 h2 =>
        wp_allocDataBlockFrom (by omega) (fun b hb => ?_) h2
      have hle := hbelow b hb
      rcases Nat.lt_or_eq_of_le hle with hlt | heq
      · exact hlt
      · have hj := bmap_bit_lt hb.1
        rw [← heq] at hj
        have hset := hall _ hj
        have hblk : sb.bmapBlk b = sb.dataBmapStart + k := by rw [heq]; rfl
        rw [← hblk, hb.2] at hset
        cases hset

theorem wp_allocDataBlock (hc : c.At E A p h L) : wp (allocDataBlock sb) Q E ⟨d, c, v⟩ :=
  wp_allocDataBlockFrom hh hE hok hmem hres (Nat.add_zero _) (fun _ _ => Nat.zero_le _) hc

end

/-! ## Changing an inode -/

theorem wp_inode {Q : Inode → Fs → Prop} (hn : d.icache i = some n) (hQ : Q n ⟨d, c, v⟩) :
    wp (inode i) Q E ⟨d, c, v⟩ := by
  rw [inode, wp_bind, Prog.wp_read]
  dsimp only
  rw [hn]
  exact hQ

/-- An inode is changed in memory.  It is stored too unless the buffer cannot be had. -/
theorem wp_updateInode {f : DInode → DInode} {Q : Err → Fs → Prop} (hn : d.icache i = some n)
    (hi : i ≠ 0) (hb : inumToBlk i ∉ h) (hc : c.At E A p h L) (hE : Room (L + 1) E)
    (hok : ∀ c', c'.At E A p h (L + 1) →
      Q .ok ⟨d.storeIno i { n with toDInode := f n.toDInode, dirty := false }, c', v⟩)
    (herr : p (inumToBlk i) = 0 → Fails A → ∀ c', c'.At E A p h (L + 1) →
      Q .nomem ⟨d.setInode i (some { n with toDInode := f n.toDInode, dirty := true }), c', v⟩) :
    wp (updateInode i f) Q E ⟨d, c, v⟩ := by
  rw [updateInode, wp_bind]
  refine wp_inode hn ?_
  rw [wp_bind, setInode, wp_modifyData, sfsWriteInode, wp_bind]
  refine wp_inode Data.setInode_icache_self ?_
  rw [wp_kassert_bind (by simp [hi]), wp_bind]
  refine wp_bdevGetBlk hb hc (fun c1 h1 => ?_)
    (fun hp hA c1 h1 => herr hp hA c1 (h1.mono (Nat.le_succ L)))
  rw [if_pos rfl, wp_bind]
  refine wp_logWrite h1 hE fun c2 h2 => ?_
  rw [wp_bind, setInode, wp_modifyData, wp_bind]
  refine wp_release_head h2 fun c3 h3 => ?_
  have hd : ((d.setInode i (some { n with toDInode := f n.toDInode, dirty := true })).setBuf
      (inumToBlk i) ((d.buf (inumToBlk i)).put (inumToOfs i) (f n.toDInode).encode)).setInode i
        (some { n with toDInode := f n.toDInode, dirty := false }) =
      d.storeIno i { n with toDInode := f n.toDInode, dirty := false } := by
    simp [Data.storeIno, Data.setInode, Data.setBuf]
  have := hok c3 h3
  rw [← hd] at this
  exact this

/-! ## The block of a slot in the inode -/

theorem FsRep.inum_ne_zero (hr : FsRep sb w d) (hn : d.icache i = some n) : i ≠ 0 :=
  Nat.pos_iff_ne_zero.mp (hr.isInum (hr.cached i n hn).used).1

/-- Why a block could not be had. -/
def NoBlk (sb : SbInfo) (A : ℕ → Bool) (alloc : Bool) (d : Data) (e : Err) : Prop :=
  (e = .nomem ∧ Fails A) ∨ (e = .nores ∧ alloc = true ∧ NoFree sb d)

/-- Why a block of a file could not be had: one that is to be allocated is not there yet. -/
def NoBlkAt (sb : SbInfo) (A : ℕ → Bool) (alloc : Bool) (d : Data) (i : Inum) (k : ℕ) (e : Err) :
    Prop :=
  (e = .nomem ∧ Fails A) ∨ (e = .nores ∧ alloc = true ∧ NoFree sb d ∧ (d.vol sb).ptr i k = 0)

variable {alloc : Bool}

theorem NoBlk.at {e : Err} (h : NoBlk sb A alloc d e) (h0 : (d.vol sb).ptr i k = 0) :
    NoBlkAt sb A alloc d i k e :=
  h.imp_right fun ⟨he, ha, hno⟩ => ⟨he, ha, hno, h0⟩

theorem NoBlkAt.noBlk {e : Err} (h : NoBlkAt sb A alloc d i k e) : NoBlk sb A alloc d e :=
  h.imp_right fun ⟨he, ha, hno, _⟩ => ⟨he, ha, hno⟩

theorem wp_directBlock {j : ℕ} (hr : FsRep sb w d) (hn : d.icache i = some n)
    (hj : j < sfsNdirect + sfsNindirect) (hp : 0 < p (inumToBlk i)) (hc : c.At E A p [] L)
    (hE : n.addrs j = 0 → alloc = true → Room (L + 3) E)
    (hold : n.addrs j ≠ 0 → Q (.ok (n.addrs j)) ⟨d, c, v⟩)
    (hnone : n.addrs j = 0 → alloc = false → Q (.error .notExist) ⟨d, c, v⟩)
    (hnew : ∀ b d' c', n.addrs j = 0 → alloc = true → FsRep sb w d' → Gained sb i d d' →
      d'.icache i = some (n.assign j b) → b ≠ 0 → d'.buf b = Bytes.zero → c'.At E A p [] (L + 3) →
        Q (.ok b) ⟨d', c', v⟩)
    (herr : ∀ e c', n.addrs j = 0 → alloc = true → NoBlk sb A alloc d e → c'.At E A p [] (L + 3) →
      Q (.error e) ⟨d, c', v⟩) : wp (directBlock sb i j alloc) Q E ⟨d, c, v⟩ := by
  rw [directBlock, wp_bind]
  refine wp_inode hn ?_
  by_cases h0 : n.addrs j = 0
  · rw [if_neg (not_not.mpr h0)]
    cases alloc with
    | false => exact hnone h0 rfl
    | true =>
      rw [if_neg (by decide), wp_bind]
      have hroom := hE h0 rfl
      refine wp_allocDataBlock (by simp) (hroom.mono (by omega)) (fun b c1 hfree h1 => ?_)
        (fun hA c1 h1 => herr _ c1 h0 rfl (.inl ⟨rfl, hA⟩) (h1.mono (by omega)))
        (fun hno c1 h1 => herr _ c1 h0 rfl (.inr ⟨rfl, rfl, hno⟩) (h1.mono (by omega))) hc
      obtain ⟨hr1, hfresh⟩ := hr.takeBlk hfree
      have hn1 : (d.takeBlk sb b).icache i = some n := hn
      have hi := hr.isInum (hr.cached i n hn).used
      show wp (_ >>= _) Q E _
      rw [wp_bind]
      refine wp_updateInode hn1 (hr1.inum_ne_zero hn1) (by simp) h1 hroom (fun c2 h2 => ?_)
        (fun h0' => absurd h0' hp.ne')
      refine hnew b _ c2 h0 rfl (hr1.assign hn1 hfresh hj h0) (hr.gained_assign hn hfree hj h0)
        Data.setInode_icache_self hfree.1.ne_zero ?_ h2
      rw [← hfresh.zero]
      exact Function.update_of_ne (hfree.1.ne_inumToBlk hi) ..
  · rw [if_pos h0]
    exact hold h0

/-! ## The block of an entry of an indirect block -/

theorem wp_indirectEntry {indir : Blk} (hr : FsRep sb w d) (hi : w.used i) (hk1 : sfsNdirect ≤ k)
    (hk2 : k < sfsMaxBlks) (hind : ((d.vol sb).ino i).addrs (indirIndex k) = indir)
    (hne : indir ≠ 0) (hc : c.At E A p [indir] L)
    (hE : (d.vol sb).ptr i k = 0 → alloc = true → Room (L + 3) E)
    (hold : ∀ c', (d.vol sb).ptr i k ≠ 0 → c'.At E A p [] L →
    Q (.ok ((d.vol sb).ptr i k)) ⟨d, c', v⟩)
    (hnone : (d.vol sb).ptr i k = 0 → alloc = false → Q (.error .notExist) ⟨d, c, v⟩)
    (hnew : ∀ b d' c', (d.vol sb).ptr i k = 0 → alloc = true → FsRep sb w d' → Gained sb i d d' →
      (d'.vol sb).ptr i k = b → b ≠ 0 → c'.At E A p [] (L + 3) → Q (.ok b) ⟨d', c', v⟩)
    (herr : ∀ e c', (d.vol sb).ptr i k = 0 → alloc = true → NoBlk sb A alloc d e →
    c'.At E A p [indir] (L + 3) →
      Q (.error e) ⟨d, c', v⟩) : wp (indirectEntry sb indir (indirOfs k) alloc) Q E ⟨d, c, v⟩ := by
  have hptr : (d.vol sb).ptr i k = (d.buf indir).le (4 * indirOfs k) 4 := by
    rw [Vol.ptr_of_lt hk2, Vol.blkSlot, if_neg (Nat.not_lt.mpr hk1), Vol.slot, hind, if_neg hne]
    rfl
  have hinUse : sb.InUse d.buf indir := by
    rw [← hind] at hne ⊢
    exact hr.sound.live (.addr i (indirIndex k)) (Vol.indir_of (hr.used_buf hi) hk2) hne
  rw [indirectEntry, wp_bind, Prog.wp_read]
  show wp (if (d.buf indir).le (4 * indirOfs k) 4 ≠ 0 then _ else _) Q E _
  by_cases h0 : (d.buf indir).le (4 * indirOfs k) 4 = 0
  · rw [if_neg (not_not.mpr h0)]
    have hptr0 := hptr.trans h0
    cases alloc with
    | false => exact hnone hptr0 rfl
    | true =>
      rw [if_neg (by decide), wp_bind]
      have hroom := hE hptr0 rfl
      refine wp_allocDataBlock (by simpa using hinUse) (hroom.mono (by omega))
        (fun b c1 hfree h1 => ?_)
        (fun hA c1 h1 => herr _ c1 hptr0 rfl (.inl ⟨rfl, hA⟩) (h1.mono (by omega)))
        (fun hno c1 h1 => herr _ c1 hptr0 rfl (.inr ⟨rfl, rfl, hno⟩) (h1.mono (by omega))) hc
      obtain ⟨hr1, hfresh⟩ := hr.takeBlk hfree
      have hnb : indir ≠ b := fun h => SbInfo.Free.not_inUse hfree (h ▸ hinUse)
      have hbuf : (d.takeBlk sb b).buf indir = d.buf indir := by
        simp only [Data.takeBlk, Data.setBuf, Function.update_of_ne hnb,
          Function.update_of_ne (hinUse.1.ne_bmapBlk hfree.1)]
      have hind1 : (((d.takeBlk sb b).vol sb).ino i).addrs (indirIndex k) = indir := by
        rw [Data.takeBlk, Data.vol_setBuf hfree.1.notTable, Data.vol_setBuf (bmapBlk_notTable sb b)]
        exact hind
      show wp (_ >>= _) Q E _
      rw [wp_bind]
      refine wp_logWrite h1 hroom fun c2 h2 => ?_
      rw [wp_bind]
      refine wp_release_head h2 fun c3 h3 => ?_
      obtain ⟨hr2, hp2⟩ := hr1.assignEntry hi hk1 hk2 hind1 hne (by rw [hbuf, h0]) hfresh
      have hslot : (d.vol sb).slot (.entry i k) = 0 := by
        rw [← hptr0, Vol.ptr_of_lt hk2, Vol.blkSlot, if_neg (Nat.not_lt.mpr hk1)]
      exact hnew b _ c3 hptr0 rfl hr2 (hr.gained_assignEntry hi hfree hk1 hk2 hind1 hne hslot) hp2
        hfree.1.ne_zero h3
  · rw [if_pos h0, wp_bind]
    refine wp_release_head hc fun c1 h1 => ?_
    rw [← hptr] at h0 ⊢
    exact hold c1 h0 h1

/-! ## The end of `get_data_block` -/

theorem wp_finishBlock_error {e : Err} {q : Option Blk}
    (hc : c.At E A (pin p (inumToBlk i)) q.toList L)
    (hQ : ∀ c', c'.At E A p [] L → Q (.error e) ⟨d, c', v⟩) :
    wp (finishBlock i q (.error e)) Q E ⟨d, c, v⟩ := by
  rw [finishBlock]
  cases q with
  | none =>
    show wp (bdevReleaseBlkUnlocked _ >>= _) Q E _
    rw [wp_bind]
    exact wp_bdevReleaseBlkUnlocked hc hQ
  | some b =>
    show wp (bdevReleaseBlk b >>= _) Q E _
    rw [wp_bind]
    refine wp_release_head hc fun c1 h1 => ?_
    rw [wp_bind]
    exact wp_bdevReleaseBlkUnlocked h1 hQ

/-- The block is there, and its buffer is taken.  If that fails an indirect block is released once
more. -/
theorem wp_finishBlock_ok {b : Blk} {q : Option Blk} (hb : b ≠ 0)
    (hc : c.At E A (pin p (inumToBlk i)) [] L) (hdbl : q ≠ none → Fails A → E lockNotHeld)
    (hok : ∀ c', c'.At E A p [b] L → Q (.ok b) ⟨d, c', v⟩)
    (herr : Fails A → ∀ c', c'.At E A p [] L → Q (.error .nomem) ⟨d, c', v⟩) :
    wp (finishBlock i q (.ok b)) Q E ⟨d, c, v⟩ := by
  rw [finishBlock, wp_kassert_bind (by simp [hb, Nat.pos_iff_ne_zero]), wp_bind]
  refine wp_bdevGetBlk (by simp) hc (fun c1 h1 => ?_) (fun _ hA c1 h1 => ?_)
  · rw [if_pos rfl, wp_bind]
    exact wp_bdevReleaseBlkUnlocked h1 hok
  · rw [if_neg (by decide)]
    cases q with
    | none => exact wp_finishBlock_error (q := none) h1 (herr hA)
    | some b' =>
      show wp (bdevReleaseBlk b' >>= _) Q E _
      rw [wp_bind, bdevReleaseBlk, blkUnlock, wp_bind, wp_bind, wp_kassert]
      exact ⟨fun hheld => by simp [h1.held] at hheld, fun _ => hdbl (by simp) hA⟩

/-! ## `get_data_block` -/

/-- What is left of a call: the view is the same, and nothing changed at all if the block was there
or none was to be allocated. -/
structure BlkGot (E : Trap → Prop) (sb : SbInfo) (w : View) (A : ℕ → Bool) (p : Blk → ℕ)
    (L : ℕ) (i : Inum) (k : ℕ)
    (alloc : Bool) (d : Data) (h : List Blk) (d' : Data) (c' : Ctl) : Prop where
  rep : FsRep sb w d'
  gained : Gained sb i d d'
  same : alloc = false ∨ (d.vol sb).ptr i k ≠ 0 → d' = d ∧ c'.At E A p h L
  ctl : c'.At E A p h (L + 6)

theorem BlkGot.of_same {c' : Ctl} (hr : FsRep sb w d) (hu : w.used i) (hc : c'.At E A p h L) :
    BlkGot E sb w A p L i k alloc d h d c' where
  rep := hr
  gained := .refl hr hu
  same _ := ⟨rfl, hc⟩
  ctl := hc.mono (Nat.le_add_right ..)

theorem wp_getDataBlock {ofs : ℕ} (hr : FsRep sb w d) (hi : 0 < w.ref i)
    (hofs : ofs < sfsMaxFileSize) (hc : c.At E A p [] L)
    (hE : alloc = true → (d.vol sb).ptr i (ofs / bdevBlkSize) = 0 →
    Room (L + 6) E) (hdbl : Fails A → E lockNotHeld)
    (hok : ∀ b d' c', BlkGot E sb w A p L i (ofs / bdevBlkSize) alloc d [b] d' c' →
      (d'.vol sb).ptr i (ofs / bdevBlkSize) = b → b ≠ 0 → Q (.ok b) ⟨d', c', v⟩)
    (herr : ∀ e d' c', BlkGot E sb w A p L i (ofs / bdevBlkSize) alloc d [] d' c' →
      NoBlkAt sb A alloc d' i (ofs / bdevBlkSize) e ∨
        (e = .notExist ∧ alloc = false ∧ (d.vol sb).ptr i (ofs / bdevBlkSize) = 0) →
      Q (.error e) ⟨d', c', v⟩) : wp (getDataBlock sb i ofs alloc) Q E ⟨d, c, v⟩ := by
  obtain ⟨n, hn, hcached⟩ := hr.cached_of_ref hi
  have hu := hcached.used
  have hino := hr.vol_ino hn
  have hk : ofs / bdevBlkSize < sfsMaxBlks := by
    unfold sfsMaxFileSize at hofs
    exact Nat.div_lt_of_lt_mul (by rwa [Nat.mul_comm])
  set k := ofs / bdevBlkSize with hkdef
  -- how every path ends: with a block, or with a failure
  have hend : ∀ {q : Option Blk} {b : Blk} {d' : Data} {c' : Ctl} {M : ℕ},
      (d'.vol sb).ptr i k = b → b ≠ 0 → c'.At E A (pin p (inumToBlk i)) [] M →
      (∀ h c2, c2.At E A p h M → BlkGot E sb w A p L i k alloc d h d' c2) →
      wp (finishBlock i q (.ok b)) Q E ⟨d', c', v⟩ := fun hp hb h' G =>
    wp_finishBlock_ok hb h' (fun _ => hdbl) (fun c2 h2 => hok _ _ c2 (G _ c2 h2) hp hb)
      fun hA c2 h2 => herr _ _ c2 (G _ c2 h2) (.inl (.inl ⟨rfl, hA⟩))
  have hfail : ∀ {q : Option Blk} {e : Err} {d' : Data} {c' : Ctl} {M : ℕ},
      c'.At E A (pin p (inumToBlk i)) q.toList M →
      (∀ h c2, c2.At E A p h M → BlkGot E sb w A p L i k alloc d h d' c2) →
      NoBlkAt sb A alloc d' i k e ∨ (e = .notExist ∧ alloc = false ∧ (d.vol sb).ptr i k = 0) →
      wp (finishBlock i q (.error e)) Q E ⟨d', c', v⟩ := fun h' G he =>
    wp_finishBlock_error h' fun c2 h2 => herr _ _ c2 (G _ c2 h2) he
  have hsame : ∀ h c2, c2.At E A p h L → BlkGot E sb w A p L i k alloc d h d c2 :=
      fun _ _ => .of_same hr hu
  have hnew : ∀ {d' : Data} {M : ℕ}, alloc = true → (d.vol sb).ptr i k = 0 →
      FsRep sb w d' → Gained sb i d d' →
      M ≤ L + 6 → ∀ h c2, c2.At E A p h M → BlkGot E sb w A p L i k alloc d h d' c2 :=
    fun ha h0 hr' hg' hM _ _ h2 =>
      ⟨hr', hg', fun hs => hs.elim (nomatch ha ▸ ·) (absurd h0), h2.mono hM⟩
  rw [getDataBlock, wp_kassert_bind (by simp [hofs]), wp_bind]
  refine wp_bdevGetBlkUnlocked hc (fun c1 h1 => ?_)
    (fun _ hA c1 h1 => herr _ _ _ (.of_same hr hu h1) (.inl (.inl ⟨rfl, hA⟩)))
  rw [if_pos rfl]
  by_cases hdir : k < sfsNdirect
  · have hptr : ∀ {d' : Data} {n' : Inode}, FsRep sb w d' → d'.icache i = some n' →
        (d'.vol sb).ptr i k = n'.addrs k := fun hr' hn' => by
      rw [Vol.ptr_of_lt hk, Vol.blkSlot, if_pos hdir, Vol.slot, hr'.vol_ino hn']
    have hptr0 := hptr hr hn
    rw [if_pos hdir, wp_bind]
    refine wp_directBlock hr hn (by unfold sfsNindirect; omega) (pin_pos p _) h1
      (fun h0 ha => (hE ha (hptr0.trans h0)).mono (by omega)) (fun hne => hend hptr0 hne h1 hsame)
      (fun h0 ha => hfail h1 hsame (.inr ⟨rfl, ha, hptr0.trans h0⟩))
      (fun b d' c' h0 ha hr' hg' hn' hb _ h' => ?_) (fun e c' h0 ha he h' => ?_)
    · have hptr1 : (d'.vol sb).ptr i k = b := by
        rw [hptr hr' hn']
        exact Function.update_self ..
      exact hend hptr1 hb h' (hnew ha (hptr0.trans h0) hr' hg' (by omega))
    · exact hfail h' (hnew ha (hptr0.trans h0) hr (.refl hr hu) (by omega))
        (.inl (he.at (hptr0.trans h0)))
  · have hk1 : sfsNdirect ≤ k := Nat.not_lt.mp hdir
    have hptr_zero : n.addrs (indirIndex k) = 0 → (d.vol sb).ptr i k = 0 := fun h0 => by
      rw [Vol.ptr_of_lt hk, Vol.blkSlot, if_neg hdir, Vol.slot, hino, if_pos h0]
    have hbehind : ∀ {b : Blk} {d' : Data} {c' : Ctl} {M : ℕ}, FsRep sb w d' →
        ((d'.vol sb).ino i).addrs (indirIndex k) = b → b ≠ 0 →
        c'.At E A (pin p (inumToBlk i)) [] M → M ≤ L + 3 →
        ((d'.vol sb).ptr i k = 0 → (d.vol sb).ptr i k = 0) → Gained sb i d d' →
        (∀ h c2, c2.At E A p h M → BlkGot E sb w A p L i k alloc d h d' c2) →
        wp (do
          kassert "INODE_INFO(inode)->i_addrs[indir_blk_index] > 0" fun _ => 0 < b
          if ← bdevGetBlk b then do
            let r ← indirectEntry sb b (indirOfs k) alloc
            finishBlock i (some b) r
          else finishBlock i none (.error .nomem)) Q E ⟨d', c', v⟩ := by
      intro b d' c' M hr' hind hb h' hM hptr hg' G
      rw [wp_kassert_bind (by simp [hb, Nat.pos_iff_ne_zero]), wp_bind]
      refine wp_bdevGetBlk (by simp) h' (fun c2 h2 => ?_) (fun _ hA c2 h2 => ?_)
      · rw [if_pos rfl, wp_bind]
        refine wp_indirectEntry hr' hu hk1 hk hind hb h2
          (fun h0 ha => (hE ha (hptr h0)).mono (by omega)) (fun c3 hne3 h3 => hend rfl hne3 h3 G)
          (fun h0 ha => hfail (q := some b) h2 G (.inr ⟨rfl, ha, hptr h0⟩))
          (fun b' d3 c3 h0 ha hr3 hg3 hp3 hb3 h3 => hend hp3 hb3 h3 ?_) (fun e c3 h0 ha he h3 => ?_)
        · exact hnew ha (hptr h0) hr3 (hg'.trans hg3 hr3 hu) (by omega)
        · exact hfail (q := some b) h3 (hnew ha (hptr h0) hr' hg' (by omega)) (.inl (he.at h0))
      · rw [if_neg (by decide)]
        exact hfail (q := none) h2 G (.inl (.inl ⟨rfl, hA⟩))
    rw [if_neg hdir, wp_kassert_bind (by simpa using Vol.indirIndex_lt hk), wp_bind]
    refine wp_directBlock hr hn (Vol.indirIndex_lt hk) (pin_pos p _) h1
      (fun h0 ha => (hE ha (hptr_zero h0)).mono (by omega))
      (fun hne => hbehind hr (by rw [hino]) hne h1 (by omega) id (.refl hr hu) hsame)
      (fun h0 ha => hfail (q := none) h1 hsame (.inr ⟨rfl, ha, hptr_zero h0⟩))
      (fun b d' c' h0 ha hr' hg' hn' hb hzero h' => ?_) (fun e c' h0 ha he h' => ?_)
    · have hind : ((d'.vol sb).ino i).addrs (indirIndex k) = b := by
        rw [hr'.vol_ino hn']
        exact Function.update_self ..
      have hp0 := hptr_zero h0
      exact hbehind hr' hind hb h' le_rfl (fun _ => hp0) hg' (hnew ha hp0 hr' hg' (by omega))
    · exact hfail (q := none) h' (hnew ha (hptr_zero h0) hr (.refl hr hu) (by omega))
        (.inl (he.at (hptr_zero h0)))

end Osv
