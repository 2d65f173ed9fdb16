import Osv.Fs.Dir

/-!
# Reading and writing files

`write_data` writes block by block and stops at the first block that cannot be had.
The loop of it keeps that all blocks before its offset are there, so that the inode
has all its blocks up to the new size when the loop is done.  `read_data` returns the
bytes of the file, up to the first block that cannot be had.
-/

namespace Osv

open Prog (wp wp_bind wp_pure)

/-- The file with bytes written at an offset. -/
def File.write (f : File) (ofs : ℕ) (l : List UInt8) : File := { f with data := f.data.put ofs l }

/-- The file with bytes written at an offset, and the size to go with them. -/
def File.append (f : File) (ofs : ℕ) (l : List UInt8) : File :=
  { f.write ofs l with size := max f.size (ofs + l.length) }

/-- The inode has the blocks of the first `n` bytes. -/
def View.Reaches (w : View) (i : Inum) (n : ℕ) : Prop :=
  ∀ k, k * bdevBlkSize < n → k * bdevBlkSize < (w.file i).size ∨ w.more i k

variable {sb : SbInfo} {w : View} {A : ℕ → Bool} {p : Blk → ℕ} {L : ℕ}
variable {d : Data} {c : Ctl} {v : Dev} {E : Trap → Prop} {i : Inum}

theorem View.Reaches.ptr_ne {n k : ℕ} (h : w.Reaches i n) (hr : FsRep sb w d) (hu : w.used i)
    (hf : w.filled i) (hk : k * bdevBlkSize < n) : (d.vol sb).ptr i k ≠ 0 :=
  hr.filled i hf hu k (h k hk)

/-! ## Writing -/

theorem View.Reaches.step {ofs len : ℕ} {f : File} (h : w.Reaches i ofs)
    (hsize : f.size = (w.file i).size) (hlen : ofs % bdevBlkSize + len ≤ bdevBlkSize) :
    ((w.addMore i (ofs / bdevBlkSize)).setFile i f).Reaches i (ofs + len) := by
  intro k hk
  rw [View.setFile_file_self, hsize]
  by_cases hlt : k * bdevBlkSize < ofs
  · exact (h k hlt).imp_right .inl
  · refine .inr (.inr ⟨rfl, ?_⟩)
    unfold bdevBlkSize at *
    omega

/-- The assertion of `get_data_block` about the offset. -/
def ofsTooLarge : Trap := .kassert "ofs < SFS_MAX_FILE_SIZE"

theorem View.setFile_write_nil (w : View) (i : Inum) (ofs : ℕ) :
    w.setFile i ((w.file i).write ofs []) = w := by
  rw [View.setFile, File.write, Bytes.put_nil, Function.update_eq_self]

/-- The first bytes are written, the rest is not because a block could not be had. -/
theorem wp_writeLoop {Q : List UInt8 → Fs → Prop} (hfull : E journalFull)
    (hdbl : Fails A → E lockNotHeld) :
    ∀ {r : ℕ} {bytes : List UInt8} {ofs : ℕ} {w : View} {d : Data} {c : Ctl} {L : ℕ},
    bytes.length ≤ r → FsRep sb w d → 0 < w.ref i → w.filled i → w.Reaches i ofs →
      ofs ≤ sfsMaxFileSize → (sfsMaxFileSize < ofs + bytes.length → E ofsTooLarge)
    → c.At E A p [] L →
    (∀ l rest M d' c', bytes = l ++ rest → ofs + l.length ≤ sfsMaxFileSize → Gained sb i d d' →
      FsRep sb { w.setFile i ((w.file i).write ofs l) with more := M } d' →
      View.Reaches { w.setFile i ((w.file i).write ofs l) with more := M } i (ofs + l.length) →
      (rest ≠ [] → ∃ e, NoBlkAt sb A true d' i ((ofs + l.length) / bdevBlkSize) e) →
      (∃ L, c'.At E A p [] L) →
      Q rest ⟨d', c', v⟩) →
    wp (writeLoop sb i r bytes ofs) Q E ⟨d, c, v⟩
  | 0, bytes, ofs, w, d, c, L, hlen, hr, hi, hf, hreach, hmax, _, hc, hQ => by
    have hu := hr.used_of_ref hi
    obtain rfl : bytes = [] := List.eq_nil_of_length_eq_zero (by omega)
    refine hQ [] [] w.more d c rfl hmax (.refl hr hu) ?_ ?_ (fun h => absurd rfl h) ⟨L, hc⟩
    · exact (w.setFile_write_nil i ofs).symm ▸ hr
    · exact (w.setFile_write_nil i ofs).symm ▸ hreach
  | r + 1, bytes, ofs, w, d, c, L, hlen, hr, hi, hf, hreach, hmax, hlarge, hc, hQ => by
    have hu := hr.used_of_ref hi
    have hnone := (w.setFile_write_nil i ofs).symm
    rw [writeLoop]
    by_cases hnil : bytes = []
    · subst hnil
      rw [if_pos rfl, wp_pure]
      exact hQ [] [] w.more d c rfl hmax (.refl hr hu) (hnone ▸ hr) (hnone ▸ hreach)
        (fun h => absurd rfl h) ⟨L, hc⟩
    rw [if_neg hnil, wp_bind]
    have hpos : 0 < bytes.length := List.length_pos_iff.mpr hnil
    rcases Nat.eq_or_lt_of_le hmax with rfl | hlt
    · rw [getDataBlock, wp_bind, wp_kassert]
      exact ⟨fun h => by simp at h, fun _ => hlarge (by omega)⟩
    refine wp_getDataBlock hr hi hlt hc (fun _ _ => .inr hfull) hdbl (fun b d1 c1 hg hp hb => ?_)
      (fun e d1 c1 hg he => ?_)
    · set len := min (bdevBlkSize - ofs % bdevBlkSize) bytes.length with hlendef
      have hmod : ofs % bdevBlkSize < bdevBlkSize := Nat.mod_lt _ (by decide)
      have hfit : ofs % bdevBlkSize + len ≤ bdevBlkSize := by omega
      have htake : (bytes.take len).length = len := List.length_take_of_le (by omega)
      have hr1 := (hg.rep.addMore (hp.symm ▸ hb)).write
          (o := ofs % bdevBlkSize) (l := bytes.take len)
        hu hp hb (by rw [htake]; exact hfit)
      rw [Nat.div_add_mod'] at hr1
      show wp (logWrite b _ >>= _) Q E _
      rw [wp_bind]
      refine wp_logWrite hg.ctl (.inr hfull) fun c2 h2 => ?_
      rw [wp_bind]
      refine wp_release_head h2 fun c3 h3 => ?_
      have hmax1 : ofs + len ≤ sfsMaxFileSize := by
        unfold sfsMaxFileSize sfsMaxBlks sfsNdirect sfsNindirect ptrsPerBlk bdevBlkSize at *
        omega
      refine wp_writeLoop hfull hdbl (by rw [List.length_drop]; omega) hr1 hi hf
        (hreach.step rfl hfit) hmax1 (fun h => hlarge (by rw [List.length_drop] at h; omega)) h3
        fun l rest M d' c' hsplit hmax' hgain hr' hreach' hrest hc' => ?_
      rw [Nat.add_assoc] at hmax' hrest
      have hbytes : bytes = (bytes.take len ++ l) ++ rest := by
        rw [List.append_assoc, ← hsplit, List.take_append_drop]
      have hview : { ((w.addMore i (ofs / bdevBlkSize)).setFile i
            ((w.file i).write ofs (bytes.take len))).setFile i
            (((w.file i).write ofs (bytes.take len)).write (ofs + len) l) with more := M } =
          { w.setFile i ((w.file i).write ofs (bytes.take len ++ l)) with more := M } := by
        simp only [View.setFile, View.addMore, Function.update_idem, File.write, Bytes.put_append,
          htake]
      rw [View.setFile_file_self] at hr' hreach'
      have hlength : (bytes.take len ++ l).length = len + l.length := by
          rw [List.length_append, htake]
      have hgain1 := (hg.gained.trans (hg.rep.gained_write hu hp hb) hr1 hu).trans hgain hr' hu
      refine hQ (bytes.take len ++ l) rest M d' c' hbytes (hlength ▸ hmax') hgain1 (hview ▸ hr') ?_
        (hlength ▸ hrest) hc'
      rw [hlength, ← Nat.add_assoc]
      exact hview ▸ hreach'
    · refine hQ [] bytes w.more d1 c1 rfl hmax hg.gained (hnone ▸ hg.rep) (hnone ▸ hreach)
        (fun _ => ⟨e, ?_⟩) ⟨_, hg.ctl⟩
      exact he.resolve_right fun h => by cases h.2.1

theorem NoBlkAt.congr {alloc : Bool} {e : Err} {d' : Data} {k : ℕ} (h : NoBlkAt sb A alloc d i k e)
    (hb : ∀ b, d'.buf (sb.bmapBlk b) = d.buf (sb.bmapBlk b))
    (hp : (d'.vol sb).ptr i k = (d.vol sb).ptr i k) : NoBlkAt sb A alloc d' i k e := by
  refine h.imp_right (And.imp_right
    (And.imp_right (And.imp (fun hno b hfree => hno b ?_) hp.trans)))
  rw [SbInfo.Free, hb] at hfree
  exact hfree

theorem wp_writeData {Q : ℕ → Fs → Prop} {bytes : List UInt8} {ofs : ℕ} (hfull : E journalFull)
    (hdbl : Fails A → E lockNotHeld) (hr : FsRep sb w d) (hi : 0 < w.ref i) (hf : w.filled i)
    (hofs : ofs ≤ (w.file i).size) (hlarge : sfsMaxFileSize < ofs + bytes.length → E ofsTooLarge)
    (hc : c.At E A p [] L) (hQ : ∀ l rest D M d' c', bytes = l ++ rest →
    ofs + l.length ≤ sfsMaxFileSize → Gained sb i d d' →
      FsRep sb { w.setFile i ((w.file i).append ofs l) with dirty := D, more := M } d' →
      (rest ≠ [] → ∃ e, NoBlkAt sb A true d' i ((ofs + l.length) / bdevBlkSize) e) →
      (∃ L, c'.At E A p [] L) →
      Q l.length ⟨d', c', v⟩) :
    wp (writeData sb i bytes ofs) Q E ⟨d, c, v⟩ := by
  have hu := hr.used_of_ref hi
  have hstart : w.Reaches i ofs := fun k hk => .inl (hk.trans_le hofs)
  rw [writeData, wp_bind]
  refine wp_writeLoop hfull hdbl le_rfl hr hi hf hstart (hofs.trans (hr.size_le hu hf)) hlarge hc
    fun l rest M d1 c1 hsplit hmax hgain hr1 hreach hrest hc1 => ?_
  obtain ⟨L1, h1⟩ := hc1
  have htotal : bytes.length - rest.length = l.length := by
    rw [hsplit, List.length_append]
    omega
  obtain ⟨n, hn, hcached⟩ := hr1.cached_of_ref hi
  have hsize : n.size = (w.file i).size := by
    rw [← hr1.file_size hn]
    show (View.file (w.setFile i _) i).size = _
    rw [View.setFile_file_self]
    rfl
  rw [wp_bind]
  refine wp_inode hn ?_
  rw [htotal, hsize]
  by_cases hgrow : 0 < bytes.length ∧ (w.file i).size < ofs + l.length
  · have happend : (w.file i).append ofs l = ⟨n.ftype, n.mode, n.nlink, ofs + l.length,
        (w.file i).data.put ofs l⟩ := by
      have hfile : (w.file i).write ofs l =
          ⟨n.ftype, n.mode, n.nlink, n.size, (w.file i).data.put ofs l⟩ := by
        have := hr1.file i hcached.used
        rw [Vol.file, hr1.vol_ino hn] at this
        change _ = View.file (w.setFile i _) i at this
        rw [View.setFile_file_self] at this
        rw [← this]
        congr 1
        have hdata := congrArg File.data this
        exact hdata
      rw [File.append, hfile, max_eq_right hgrow.2.le]
    have hsmall : ofs + l.length < 256 ^ 4 := by
      have hmax' : sfsMaxFileSize = 137216 := rfl
      omega
    have hptr : ∀ k, k * bdevBlkSize < ofs + l.length → (d1.vol sb).ptr i k ≠ 0 := fun k hk =>
      hreach.ptr_ne hr1 hu hf hk
    have hview : ∀ D, { ({ w.setFile i ((w.file i).write ofs l) with more := M } : View).setFile i
          ⟨n.ftype, n.mode, n.nlink, ofs + l.length, (w.file i).data.put ofs l⟩ with dirty := D } =
        { w.setFile i ((w.file i).append ofs l) with dirty := D, more := M } := fun D => by
      rw [happend]
      simp only [View.setFile, Function.update_idem]
    have hdata : (({ w.setFile i ((w.file i).write ofs l) with more := M } : View).file i).data =
        (w.file i).data.put ofs l := by
      show (View.file (w.setFile i _) i).data = _
      rw [View.setFile_file_self]
      rfl
    rw [if_pos hgrow, wp_bind]
    refine wp_updateInode hn (hr1.inum_ne_zero hn) (by simp) h1 (.inr hfull) (fun c2 h2 => ?_)
      (fun _ _ c2 h2 => ?_)
    · have hr2 := hr1.setMeta hn (x := { n with size := ofs + l.length, dirty := false })
          hcached.valid rfl
        { hcached.fits with size := hsmall } rfl rfl fun _ => hptr
      rw [hdata] at hr2
      have hgain2 := hgain.trans (hr1.gained_storeIno hn
          (x := { n with size := ofs + l.length, dirty := false })
        hcached.valid rfl) hr2 hu
      refine hQ l rest w.dirty M _ c2 hsplit hmax hgain2 (hview w.dirty ▸ hr2)
        (fun hne => ?_) ⟨_, h2⟩
      obtain ⟨e, he⟩ := hrest hne
      exact ⟨e, he.congr (fun b => Function.update_of_ne
        (bmapBlk_ne_inumToBlk b (hr1.isInum hcached.used)) ..)
        (hr1.ptr_storeIno (x := { n with size := ofs + l.length, dirty := false })
          hn hcached.valid rfl
          hcached.used _)⟩
    · have hr2 := hr1.setMetaDirty hn (x := { n with size := ofs + l.length, dirty := true })
          hcached.valid rfl
        { hcached.fits with size := hsmall } rfl rfl fun _ => hptr
      rw [hdata] at hr2
      have hgain2 := hgain.trans (hr1.gained_setInode hn
          (x := { n with size := ofs + l.length, dirty := true })
        hcached.valid rfl) hr2 hu
      refine hQ l rest _ M _ c2 hsplit hmax hgain2 (hview _ ▸ hr2) (fun hne => ?_) ⟨_, h2⟩
      obtain ⟨e, he⟩ := hrest hne
      refine ⟨e, he.congr (fun _ => rfl) ?_⟩
      have haddrs : n.addrs = ((d1.vol sb).ino i).addrs := by rw [hr1.vol_ino hn]
      rw [Data.vol_setInode_some (hr1.isInum hcached.used) (by exact hcached.valid)]
      exact Vol.ptr_setIno (n := { n.toDInode with size := ofs + l.length }) haddrs _ _
  · rw [if_neg hgrow, wp_pure]
    have hle : ofs + l.length ≤ (w.file i).size := by
      by_contra hgt
      refine hgrow ⟨?_, Nat.not_le.mp hgt⟩
      rw [hsplit, List.length_append]
      omega
    refine hQ l rest w.dirty M d1 c1 hsplit hmax hgain ?_ hrest ⟨L1, h1⟩
    have happend : (w.file i).append ofs l = (w.file i).write ofs l := by
      rw [File.append, max_eq_left hle]
      rfl
    rw [happend]
    exact hr1

/-! ## Reading -/

theorem FsRep.slice_eq (hr : FsRep sb w d) (hu : w.used i) {ofs len : ℕ}
    (hp : (d.vol sb).ptr i (ofs / bdevBlkSize) ≠ 0) (hlen : ofs % bdevBlkSize + len ≤ bdevBlkSize) :
    (d.buf ((d.vol sb).ptr i (ofs / bdevBlkSize))).slice (ofs % bdevBlkSize) len =
    (w.file i).data.slice ofs len := by
  refine List.map_congr_left fun k hk => ?_
  rw [List.mem_range] at hk
  rw [← hr.data_eq hu hp (by omega), ← Nat.add_assoc, Nat.div_add_mod']

theorem Bytes.slice_append (m : Bytes) (o a b : ℕ) :
    m.slice o (a + b) = m.slice o a ++ m.slice (o + a) b := by
  unfold Bytes.slice
  rw [List.range_add, List.map_append, List.map_map]
  congr 1
  refine List.map_congr_left fun k _ => ?_
  show m (o + (a + k)) = m (o + a + k)
  rw [Nat.add_assoc]

/-- The bytes of the file from the offset on, all that are asked for unless memory cannot be had. -/
theorem wp_readLoop {Q : List UInt8 → Fs → Prop} (hr : FsRep sb w d) (hi : 0 < w.ref i)
    (hf : w.filled i) (hdbl : Fails A → E lockNotHeld) :
    ∀ {r count ofs : ℕ} {c : Ctl}, count ≤ r → c.At E A p [] L →
    (∀ len c', len ≤ min count ((w.file i).size - ofs) →
      (len = min count ((w.file i).size - ofs) ∨ Fails A) → c'.At E A p [] L →
      Q ((w.file i).data.slice ofs len) ⟨d, c', v⟩) → wp (readLoop sb i r count ofs) Q E ⟨d, c, v⟩
  | 0, count, ofs, c, hcount, hc, hQ => by
    have h0 : min count ((w.file i).size - ofs) = 0 := by omega
    exact hQ 0 c (Nat.zero_le _) (.inl h0.symm) hc
  | r + 1, count, ofs, c, hcount, hc, hQ => by
    obtain ⟨n, hn, hcached⟩ := hr.cached_of_ref hi
    have hsize : n.size = (w.file i).size := (hr.file_size hn).symm
    have hmax := hr.size_le hcached.used hf
    rw [readLoop, wp_bind]
    refine wp_inode hn ?_
    rw [hsize]
    by_cases hmore : 0 < count ∧ ofs < (w.file i).size
    · rw [if_pos hmore, wp_bind]
      have hptr : (d.vol sb).ptr i (ofs / bdevBlkSize) ≠ 0 :=
        hr.filled i hf hcached.used _ (.inl ((Nat.div_mul_le_self ..).trans_lt hmore.2))
      refine wp_getDataBlock hr hi (hmore.2.trans_le hmax) hc (fun h => by cases h) hdbl
        (fun b d1 c1 hg hp hb => ?_) (fun e d1 c1 hg he => ?_)
      · obtain ⟨hd, h1⟩ := hg.same (.inl rfl)
        subst d1
        set len := min (min (bdevBlkSize - ofs % bdevBlkSize) count)
          ((w.file i).size - ofs) with hlen
        have hmod : ofs % bdevBlkSize < bdevBlkSize := Nat.mod_lt _ (by decide)
        show wp (Prog.read >>= _) Q E _
        rw [wp_bind, Prog.wp_read, wp_bind]
        refine wp_release_head h1 fun c2 h2 => ?_
        rw [wp_bind]
        refine wp_readLoop hr hi hf hdbl (by omega) h2 fun len' c3 hle hall h3 => ?_
        rw [wp_pure, ← hp, hr.slice_eq hcached.used hptr (by omega), ← Bytes.slice_append]
        exact hQ (len + len') c3 (by omega) (hall.imp_left fun h => by omega) h3
      · obtain ⟨hd, h1⟩ := hg.same (.inl rfl)
        subst d1
        refine hQ 0 c1 (Nat.zero_le _) (.inr ?_) h1
        rcases he with (⟨_, hA⟩ | ⟨_, h, _⟩) | ⟨_, _, h0⟩
        · exact hA
        · cases h
        · exact absurd h0 hptr
    · rw [if_neg hmore, wp_pure]
      exact hQ 0 c (Nat.zero_le _) (.inl (by omega)) hc

end Osv
