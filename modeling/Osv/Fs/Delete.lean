import Mathlib.Data.Nat.Count
import Mathlib.Data.Set.Insert
import Osv.Fs.GetBlock

/-!
# Deleting a file

`sfs_delete_inode` counts the bytes of the blocks that it frees, and stops when it has
counted as many as the file is long.  A slot of `i_addrs` that is empty is skipped and
not counted; an entry of an indirect block is counted also when it is empty.  Nothing
but the count bounds the two loops.

`Cut sb d₀ i n F d` says that `d` is what is left of the buffers and inodes `d₀` when the
slots `F` of the inode `i` are empty and the bits of what stood in them are clear.  The
loops keep it, also when they fail.  What a call empties is determined by the number of
direct blocks, the number of blocks that the size stands for, and the indirect blocks:
`Counts` says when that is all there is (`sfsDeleteInode_frees`, `counts_of_sfsDeleteInode`).
-/

namespace Osv

open Prog (wp wp_bind wp_pure)
open Slot (addr)

/-- Blocks of a file with a size. -/
def blocksOf (size : ℕ) : ℕ := (size + (bdevBlkSize - 1)) / bdevBlkSize

theorem lt_blocksOf {t size : ℕ} : t < blocksOf size ↔ bdevBlkSize * t < size := by
  unfold blocksOf bdevBlkSize
  omega

/-- The bit of a block is cleared. -/
def Data.freeBlk (sb : SbInfo) (d : Data) (b : Blk) : Data :=
  d.setBuf (sb.bmapBlk b) ((d.buf (sb.bmapBlk b)).clearBit (sb.bmapIdx b))

section bits

variable {sb : SbInfo} {d : Data} {b b' : ℕ}

theorem bmapBit_freeBlk (hb : sb.HasBit b) (hb' : sb.HasBit b') :
    (d.freeBlk sb b).bmapBit sb b' = true ↔ d.bmapBit sb b' = true ∧ b' ≠ b := by
  rw [Data.bmapBit, Data.bmapBit, Data.freeBlk]
  by_cases hblk : sb.bmapBlk b' = sb.bmapBlk b
  · rw [hblk, setBuf_buf_self, Bytes.bit_clearBit, Bool.and_eq_true, decide_eq_true_iff]
    exact and_congr_right fun _ => not_congr ⟨hb.eq_of_idx hb' hblk, fun h => by rw [h]⟩
  · rw [setBuf_buf_of_ne _ hblk]
    exact (and_iff_left fun h => hblk (by rw [h])).symm

end bits

/-! ## An inode with all its slots -/

/-- An inode in memory, on a sound volume. -/
structure Whole (sb : SbInfo) (d : Data) (i : Inum) (n : Inode) : Prop where
  cached : d.icache i = some n
  valid : n.valid = true
  used : sb.Used d.buf i
  sound : (d.vol sb).Sound sb

namespace Whole

variable {sb : SbInfo} {d₀ : Data} {i : Inum} {n : Inode} {σ τ : Slot} {j k : ℕ}

section

variable (W : Whole sb d₀ i n)

include W

theorem ino : (d₀.vol sb).ino i = n.toDInode := by
  rw [Data.vol_ino W.used.1, Data.ino_of_cached W.cached W.valid]

theorem of_mine (h : σ.Mine i) : σ.Of (sb.Used (d₀.vol sb).buf) := h.of_used W.used

theorem live (h : σ.Mine i) (h0 : (d₀.vol sb).slot σ ≠ 0) : sb.InUse d₀.buf ((d₀.vol sb).slot σ) :=
  W.sound.live σ (W.of_mine h) h0

theorem inj (h : σ.Mine i) (h' : τ.Mine i) (h0 : (d₀.vol sb).slot σ ≠ 0)
    (he : (d₀.vol sb).slot σ = (d₀.vol sb).slot τ) : σ = τ :=
  W.sound.inj σ τ (W.of_mine h) (W.of_mine h') h0 he

theorem slot_addr (j : ℕ) : (d₀.vol sb).slot (.addr i j) = n.addrs j := by
  rw [Vol.slot, W.ino]

theorem slot_entry (h0 : n.addrs (indirIndex k) ≠ 0) :
    (d₀.vol sb).slot (.entry i k) = (d₀.buf (n.addrs (indirIndex k))).le (4 * indirOfs k) 4 := by
  rw [Vol.slot, W.ino, if_neg h0]
  rfl

theorem addr_dataBlk (hj : j < sfsNdirect + sfsNindirect) (h0 : n.addrs j ≠ 0) :
    sb.DataBlk (n.addrs j) := by
  have h := W.live (σ := .addr i j) ⟨rfl, hj⟩ (by rwa [W.slot_addr])
  rw [W.slot_addr] at h
  exact h.1

end

end Whole

/-- What is left of buffers and inodes when some slots of an inode are emptied. -/
structure Cut (sb : SbInfo) (d₀ : Data) (i : Inum) (n : Inode) (F : Set Slot) (d : Data) :
    Prop where
  ino : ∃ a, d.icache i = some { n with addrs := a } ∧
    ∀ j, (.addr i j ∈ F → a j = 0) ∧ (.addr i j ∉ F → a j = n.addrs j)
  next : d.next = d₀.next
  inodeBmap : d.buf sfsInodeBmapBlk = d₀.buf sfsInodeBmapBlk
  entry : ∀ k, sfsNdirect ≤ k → k < sfsMaxBlks → n.addrs (indirIndex k) ≠ 0 →
    (.entry i k ∈ F → (d.buf (n.addrs (indirIndex k))).le (4 * indirOfs k) 4 = 0) ∧
    (.entry i k ∉ F → (d.buf (n.addrs (indirIndex k))).le (4 * indirOfs k) 4 =
      (d₀.vol sb).slot (.entry i k))
  bits : ∀ b, sb.HasBit b →
    (d.bmapBit sb b = true ↔ d₀.bmapBit sb b = true ∧ ∀ σ ∈ F, (d₀.vol sb).slot σ ≠ b)

variable {a : ℕ → Blk}

namespace Cut

variable {sb : SbInfo} {d₀ d : Data} {i : Inum} {n : Inode} {F : Set Slot} {σ : Slot} {j k : ℕ}

theorem refl (W : Whole sb d₀ i n) : Cut sb d₀ i n ∅ d₀ where
  ino := ⟨n.addrs, W.cached, fun _ => ⟨fun h => absurd h (Set.notMem_empty _), fun _ => rfl⟩⟩
  next := rfl
  inodeBmap := rfl
  entry k _ _ h0 := ⟨fun h => absurd h (Set.notMem_empty _), fun _ => (W.slot_entry h0).symm⟩
  bits b _ := by simp

theorem notMem_of_insert {α : Type} {a b : α} {s : Set α} (h : a ∉ insert b s) : a ≠ b ∧ a ∉ s :=
  ⟨fun he => h (he ▸ Set.mem_insert b s), fun hs => h (Set.mem_insert_of_mem b hs)⟩

section

variable (h : Cut sb d₀ i n F d)

include h

theorem skip (W : Whole sb d₀ i n) (h0 : (d₀.vol sb).slot σ = 0) :
    Cut sb d₀ i n (insert σ F) d where
  ino := by
    obtain ⟨a, ha, hj⟩ := h.ino
    refine ⟨a, ha, fun j => ⟨fun hmem => ?_, fun hno => (hj j).2 (notMem_of_insert hno).2⟩⟩
    by_cases hF : addr i j ∈ F
    · exact (hj j).1 hF
    · rw [(hj j).2 hF, ← W.slot_addr, (Set.mem_insert_iff.mp hmem).resolve_right hF, h0]
  next := h.next
  inodeBmap := h.inodeBmap
  entry k h1 h2 h3 := by
    have he := h.entry k h1 h2 h3
    refine ⟨fun hmem => ?_, fun hno => he.2 (notMem_of_insert hno).2⟩
    by_cases hF : Slot.entry i k ∈ F
    · exact he.1 hF
    · rw [he.2 hF, (Set.mem_insert_iff.mp hmem).resolve_right hF, h0]
  bits b hb := by
    rw [h.bits b hb]
    refine and_congr_right fun _ =>
      ⟨fun hall τ hτ => ?_, fun hall τ hτ => hall τ (Set.mem_insert_of_mem σ hτ)⟩
    rcases Set.mem_insert_iff.mp hτ with rfl | hτ
    · rw [h0]
      exact hb.ne_zero.symm
    · exact hall τ hτ

theorem bits_freeBlk (hσ : sb.HasBit ((d₀.vol sb).slot σ)) {b : Blk} (hb : sb.HasBit b) :
    (d.freeBlk sb ((d₀.vol sb).slot σ)).bmapBit sb b = true ↔
      d₀.bmapBit sb b = true ∧ ∀ τ ∈ insert σ F, (d₀.vol sb).slot τ ≠ b := by
  rw [bmapBit_freeBlk hσ hb, h.bits b hb, and_assoc]
  refine and_congr_right fun _ => ⟨fun hall τ hτ => ?_, fun hall => ⟨fun τ hτ => ?_, ?_⟩⟩
  · rcases Set.mem_insert_iff.mp hτ with rfl | hτ
    · exact hall.2.symm
    · exact hall.1 τ hτ
  · exact hall τ (Set.mem_insert_of_mem σ hτ)
  · exact (hall σ (Set.mem_insert σ F)).symm

theorem freeAddr (W : Whole sb d₀ i n) (hj : j < sfsNdirect + sfsNindirect) (h0 : n.addrs j ≠ 0)
    (ha : ∀ j, (.addr i j ∈ F → a j = 0) ∧ (.addr i j ∉ F → a j = n.addrs j)) :
    Cut sb d₀ i n (insert (.addr i j) F)
      ((d.freeBlk sb (n.addrs j)).setInode i (some { n with addrs := Function.update a j 0 })) where
  ino := by
    refine ⟨_, Data.setInode_icache_self, fun j' => ⟨fun hmem => ?_, fun hno => ?_⟩⟩
    · by_cases hjj : j' = j
      · rw [hjj, Function.update_self]
      · rw [Function.update_of_ne hjj]
        refine (ha j').1 ((Set.mem_insert_iff.mp hmem).resolve_left fun he => hjj ?_)
        exact (addr.inj he).2
    · have hjj : j' ≠ j := fun he => (notMem_of_insert hno).1 (by rw [he])
      rw [Function.update_of_ne hjj]
      exact (ha j').2 (notMem_of_insert hno).2
  next := h.next
  inodeBmap := by
    rw [← h.inodeBmap]
    exact setBuf_buf_of_ne _ (bmapBlk_ne_inodeBmap sb _).symm
  entry k h1 h2 h3 := by
    have he := h.entry k h1 h2 h3
    have hbuf : (d.freeBlk sb (n.addrs j)).buf (n.addrs (indirIndex k)) =
        d.buf (n.addrs (indirIndex k)) :=
      setBuf_buf_of_ne _ ((W.addr_dataBlk (Vol.indirIndex_lt h2) h3).ne_bmapBlk
        (W.addr_dataBlk hj h0))
    refine ⟨fun hmem => ?_, fun hno => ?_⟩
    · show ((d.freeBlk sb (n.addrs j)).buf _).le _ _ = _
      rw [hbuf]
      exact he.1 ((Set.mem_insert_iff.mp hmem).resolve_left Slot.noConfusion)
    · show ((d.freeBlk sb (n.addrs j)).buf _).le _ _ = _
      rw [hbuf]
      exact he.2 (notMem_of_insert hno).2
  bits b hb := by
    have hslot := W.slot_addr j
    have := h.bits_freeBlk (σ := .addr i j) (by rw [hslot]; exact (W.addr_dataBlk hj h0).hasBit) hb
    rw [hslot] at this
    exact this

theorem freeEntry (W : Whole sb d₀ i n) (hk1 : sfsNdirect ≤ k) (hk2 : k < sfsMaxBlks)
    (hne : n.addrs (indirIndex k) ≠ 0) (h0 : (d₀.vol sb).slot (.entry i k) ≠ 0) {d' : Data}
    (hd' : d' = (d.freeBlk sb ((d₀.vol sb).slot (.entry i k))).setBuf (n.addrs (indirIndex k))
      (((d.freeBlk sb ((d₀.vol sb).slot (.entry i k))).buf (n.addrs (indirIndex k))).put
      (4 * indirOfs k)
        (Bytes.leBytes 4 0))) : Cut sb d₀ i n (insert (.entry i k) F) d' := by
  have hind : sb.DataBlk (n.addrs (indirIndex k)) := W.addr_dataBlk (Vol.indirIndex_lt hk2) hne
  have hblk : sb.DataBlk ((d₀.vol sb).slot (.entry i k)) :=
      (W.live (σ := .entry i k) ⟨rfl, hk1, hk2⟩ h0).1
  subst hd'
  refine ⟨?_, h.next, ?_, fun k' h1 h2 h3 => ?_, fun b hb => ?_⟩
  · obtain ⟨a, ha, hj⟩ := h.ino
    refine ⟨a, ha, fun j => ⟨fun hmem => ?_, fun hno => (hj j).2 (notMem_of_insert hno).2⟩⟩
    exact (hj j).1 ((Set.mem_insert_iff.mp hmem).resolve_left Slot.noConfusion)
  · rw [setBuf_buf_of_ne _ hind.ne_inodeBmap.symm, ← h.inodeBmap]
    exact setBuf_buf_of_ne _ (bmapBlk_ne_inodeBmap sb _).symm
  · have he := h.entry k' h1 h2 h3
    have hind' : sb.DataBlk (n.addrs (indirIndex k')) := W.addr_dataBlk (Vol.indirIndex_lt h2) h3
    have hbuf : ∀ b : Blk, sb.DataBlk b →
        (d.freeBlk sb ((d₀.vol sb).slot (.entry i k))).buf b = d.buf b :=
      fun b hb => setBuf_buf_of_ne _ (hb.ne_bmapBlk hblk)
    by_cases hkk : k' = k
    · subst hkk
      refine ⟨fun _ => ?_, fun hno => absurd (Set.mem_insert _ F) hno⟩
      rw [setBuf_buf_self, Bytes.le_put]
      rfl
    · have hle : ∀ m : Bytes, m = d.buf (n.addrs (indirIndex k')) →
          (((d.freeBlk sb ((d₀.vol sb).slot (.entry i k))).setBuf (n.addrs (indirIndex k))
            (((d.freeBlk sb ((d₀.vol sb).slot (.entry i k))).buf (n.addrs (indirIndex k))).put
              (4 * indirOfs k)
              (Bytes.leBytes 4 0))).buf (n.addrs (indirIndex k'))).le (4 * indirOfs k') 4 =
            m.le (4 * indirOfs k') 4 := by
        rintro m rfl
        by_cases hbb : n.addrs (indirIndex k') = n.addrs (indirIndex k)
        · have hsame : indirIndex k' = indirIndex k := by
            have := W.inj (σ := .addr i (indirIndex k')) (τ := .addr i (indirIndex k))
              ⟨rfl, Vol.indirIndex_lt h2⟩ ⟨rfl, Vol.indirIndex_lt hk2⟩ (by rwa [W.slot_addr])
              (by rw [W.slot_addr, W.slot_addr, hbb])
            exact (addr.inj this).2
          have hofs : indirOfs k' ≠ indirOfs k := fun ho => hkk (Vol.eq_of_indir h1 hk1 hsame ho)
          rw [hbb, setBuf_buf_self, Bytes.le_put_of_disjoint (by rw [Bytes.length_leBytes]; omega),
            hbuf _ hind]
        · rw [setBuf_buf_of_ne _ hbb, hbuf _ hind']
      rw [hle _ rfl]
      refine ⟨fun hmem => he.1 ((Set.mem_insert_iff.mp hmem).resolve_left fun hs => hkk ?_),
        fun hno => he.2 (notMem_of_insert hno).2⟩
      exact (Slot.entry.inj hs).2
  · rw [bmapBit_setBuf hind _ hb]
    exact h.bits_freeBlk hblk.hasBit hb

end

end Cut

/-! ## The loops -/

/-- The blocks that the transaction of a deletion logs. -/
def deleteSet (sb : SbInfo) (n : Inode) : Finset Blk :=
  (Finset.range sb.bmapBlks).image (sb.dataBmapStart + ·) ∪
    {sfsInodeBmapBlk, n.addrs sfsNdirect, n.addrs (sfsNdirect + 1)}

theorem card_deleteSet_le (sb : SbInfo) (n : Inode) : (deleteSet sb n).card ≤ sb.bmapBlks + 3 := by
  refine (Finset.card_union_le _ _).trans (Nat.add_le_add ?_ Finset.card_le_three)
  exact Finset.card_image_le.trans (Finset.card_range _).le

theorem bmapBlk_mem_deleteSet {sb : SbInfo} {n : Inode} {b : ℕ} (hb : sb.DataBlk b) :
    sb.bmapBlk b ∈ deleteSet sb n := by
  refine Finset.mem_union_left _ (Finset.mem_image.mpr ⟨sb.bmapBlk b - sb.dataBmapStart, ?_, ?_⟩)
  · have h1 := hb.bmapBlk_lt
    have h2 := bmapBlk_ge sb b
    rw [Finset.mem_range, SbInfo.bmapBlks]
    omega
  · exact Nat.add_sub_cancel' (bmapBlk_ge sb b)

theorem inodeBmap_mem_deleteSet {sb : SbInfo} {n : Inode} : sfsInodeBmapBlk ∈ deleteSet sb n :=
  Finset.mem_union_right _ (by simp)

variable {j : ℕ}

theorem indir_mem_deleteSet {sb : SbInfo} {n : Inode} (h1 : sfsNdirect ≤ j)
    (h2 : j < sfsNdirect + sfsNindirect) : n.addrs j ∈ deleteSet sb n := by
  have hj : j = sfsNdirect ∨ j = sfsNdirect + 1 := by
    unfold sfsNindirect at h2
    omega
  refine Finset.mem_union_right _ ?_
  rcases hj with rfl | rfl <;> simp

/-- What a call that fails on the way may have emptied: slots of the inode, and no indirect block.
-/
structure Tried (i : Inum) (F F' : Set Slot) : Prop where
  sub : F ⊆ F'
  mine : ∀ σ ∈ F', σ ∈ F ∨ σ.Mine i
  indir : ∀ j, sfsNdirect ≤ j → .addr i j ∈ F' → .addr i j ∈ F

theorem Tried.refl (i : Inum) (F : Set Slot) : Tried i F F :=
  ⟨le_refl F, fun _ h => .inl h, fun _ _ h => h⟩

variable {F : Set Slot}

theorem Tried.trans {i : Inum} {F' F'' : Set Slot} (h : Tried i F F') (h' : Tried i F' F'') :
    Tried i F F'' where
  sub := h.sub.trans h'.sub
  mine σ hσ := (h'.mine σ hσ).elim (h.mine σ) .inr
  indir j hj hmem := h.indir j hj (h'.indir j hj hmem)

variable {σ : Slot}

section loops

variable {sb : SbInfo} {d₀ : Data} {i : Inum} {n : Inode}
variable {A : ℕ → Bool} {p : Blk → ℕ} {B : Finset Blk} {E : Trap → Prop}
    {v : Dev} {Q : Err → Fs → Prop}

theorem wp_freeDataBlock {b : ℕ} {h : List Blk} {d : Data} {c : Ctl}
    (hj : sb.bmapBlks + 3 ≤ journalSize) (hb : sb.DataBlk b) (hh : sb.bmapBlk b ∉ h)
    (hc : c.Txn E A p h B (deleteSet sb n))
    (hok : ∀ c', c'.Txn E A p h B (deleteSet sb n) → Q .ok ⟨d.freeBlk sb b, c', v⟩)
    (herr : p (sb.bmapBlk b) = 0 → sb.bmapBlk b ∉ B → Fails A → ∀ c',
    c'.Txn E A p h B (deleteSet sb n) →
      Q .nomem ⟨d, c', v⟩) : wp (freeDataBlock sb b) Q E ⟨d, c, v⟩ := by
  rw [freeDataBlock, wp_kassert_bind (by simp [hb.1]), wp_bind]
  refine hc.wp_getBlk hh (fun c1 h1 => ?_) fun hp hB hA c1 h1 => herr hp hB hA c1 h1
  rw [if_pos rfl, wp_bind]
  refine h1.wp_logWrite (bmapBlk_mem_deleteSet hb) ((card_deleteSet_le sb n).trans hj) fun c2 h2 =>
    ?_
  rw [wp_bind]
  exact h2.wp_release fun c3 h3 => hok c3 h3

/-- The slots of the entries of an indirect block, from one to another. -/
def entriesOf (i : Inum) (j e e' : ℕ) : Set Slot :=
  { σ | ∃ x, e ≤ x ∧ x < e' ∧ σ = .entry i (sfsNdirect + (j - sfsNdirect) * ptrsPerBlk + x) }

theorem entriesOf_self (j e : ℕ) : entriesOf i j e e = ∅ := by
  ext σ
  refine ⟨?_, fun h => absurd h (Set.notMem_empty σ)⟩
  rintro ⟨x, h1, h2, -⟩
  omega

theorem entriesOf_step {j e e' : ℕ} (h : e < e') :
    entriesOf i j e e' = insert (.entry i (sfsNdirect + (j - sfsNdirect) * ptrsPerBlk + e))
      (entriesOf i j (e + 1) e') := by
  ext σ
  constructor
  · rintro ⟨x, h1, h2, rfl⟩
    rcases Nat.eq_or_lt_of_le h1 with rfl | hlt
    · exact Set.mem_insert _ _
    · exact Set.mem_insert_of_mem _ ⟨x, hlt, h2, rfl⟩
  · intro hσ
    rcases Set.mem_insert_iff.mp hσ with rfl | ⟨x, h1, h2, rfl⟩
    · exact ⟨e, le_refl e, h, rfl⟩
    · exact ⟨x, by omega, h2, rfl⟩

/-- Why the loop over an indirect block fails: the bitmap block for an entry is not in memory. -/
def EntryFails (sb : SbInfo) (d₀ : Data) (i : Inum) (F : Set Slot) (A : ℕ → Bool) (p : Blk → ℕ)
    (B : Finset Blk) : Prop :=
  Fails A ∧ ∃ k, .entry i k ∉ F ∧ sfsNdirect ≤ k ∧ k < sfsMaxBlks ∧
    (d₀.vol sb).slot (.entry i k) ≠ 0 ∧
    p (sb.bmapBlk ((d₀.vol sb).slot (.entry i k))) = 0 ∧
    sb.bmapBlk ((d₀.vol sb).slot (.entry i k)) ∉ B

theorem EntryFails.mono {F' : Set Slot} (h : EntryFails sb d₀ i F' A p B) (hF : F ⊆ F') :
    EntryFails sb d₀ i F A p B := by
  obtain ⟨hA, k, hk, hrest⟩ := h
  exact ⟨hA, k, fun hmem => hk (hF hmem), hrest⟩

theorem indir_of_entry {j e : ℕ} (hj1 : sfsNdirect ≤ j) (he : e < ptrsPerBlk) :
    indirIndex (sfsNdirect + (j - sfsNdirect) * ptrsPerBlk + e) = j ∧
      indirOfs (sfsNdirect + (j - sfsNdirect) * ptrsPerBlk + e) = e := by
  unfold indirIndex indirOfs sfsNdirect ptrsPerBlk at *
  omega

/-- The entries from `e` on are freed, as many as are left of the size, when the block has that
many. -/
theorem wp_deleteEntries (W : Whole sb d₀ i n) (hjr : sb.bmapBlks + 3 ≤ journalSize)
    (hj1 : sfsNdirect ≤ j) (hj2 : j < sfsNdirect + sfsNindirect) (hne : n.addrs j ≠ 0)
    {Q : Except Err ℕ → Fs → Prop} :
    ∀ {r e t : ℕ} {flag : Bool} {F : Set Slot} {d : Data} {c : Ctl},
    blocksOf n.size - t < r → t ≤ blocksOf n.size → e ≤ ptrsPerBlk → Cut sb d₀ i n F d →
    c.Txn E A p [n.addrs j] B (deleteSet sb n) →
    (ptrsPerBlk < e + (blocksOf n.size - t) → d₀.next (n.addrs j) = none ∧ E (.wild "indirect")) →
    (∀ d' c', e + (blocksOf n.size - t) ≤ ptrsPerBlk →
      Cut sb d₀ i n (entriesOf i j e (e + (blocksOf n.size - t)) ∪ F) d' →
      c'.Txn E A p [n.addrs j] B (deleteSet sb n) →
        Q (.ok (bdevBlkSize * blocksOf n.size)) ⟨d', c', v⟩) →
    (EntryFails sb d₀ i F A p B → ∀ e' d' c', Cut sb d₀ i n (entriesOf i j e e' ∪ F) d' →
      c'.Txn E A p [n.addrs j] B (deleteSet sb n) → Q (.error .nomem) ⟨d', c', v⟩) →
    wp (deleteEntries sb i (n.addrs j) r e (bdevBlkSize * t) flag) Q E ⟨d, c, v⟩
  | 0, e, t, flag, F, d, c, hr, _, _, _, _, _, _, _ => absurd hr (Nat.not_lt_zero _)
  | r + 1, e, t, flag, F, d, c, hr, ht, he, hcut, hc, hover, hdone, hfail => by
    obtain ⟨a, ha, haddr⟩ := hcut.ino
    rw [deleteEntries, wp_bind]
    refine wp_inode ha ?_
    by_cases hlt : t < blocksOf n.size
    · have hsize : bdevBlkSize * t < n.size := lt_blocksOf.mp hlt
      rw [if_pos hsize, wp_bind, Prog.wp_read]
      rcases Nat.lt_or_ge e ptrsPerBlk with hlt128 | hge
      · set k := sfsNdirect + (j - sfsNdirect) * ptrsPerBlk + e with hk
        obtain ⟨hkj, hke⟩ := indir_of_entry (e := e) hj1 hlt128
        have hk1 : sfsNdirect ≤ k := by
          rw [hk, Nat.add_assoc]
          exact Nat.le_add_right ..
        have hk2 : k < sfsMaxBlks := by
          unfold sfsMaxBlks sfsNindirect sfsNdirect ptrsPerBlk at *
          omega
        have hfollow : d.following (n.addrs j) (e / ptrsPerBlk) = some (n.addrs j) := by
          rw [Nat.div_eq_of_lt hlt128]
          rfl
        have hentry := hcut.entry k hk1 hk2 (hkj.symm ▸ hne)
        rw [hkj, hke] at hentry
        have hmod : e % ptrsPerBlk = e := Nat.mod_eq_of_lt hlt128
        have hcount : bdevBlkSize * t + bdevBlkSize = bdevBlkSize * (t + 1) :=
            (Nat.mul_succ ..).symm
        have hrest : ∀ {flag : Bool} {d1 : Data} {c1 : Ctl}, Cut sb d₀ i n
            (insert (.entry i k) F) d1 →
            c1.Txn E A p [n.addrs j] B (deleteSet sb n) →
            wp (deleteEntries sb i (n.addrs j) r (e + 1) (bdevBlkSize * t + bdevBlkSize) flag) Q E
              ⟨d1, c1, v⟩ := by
          intro flag d1 c1 hcut1 h1
          have hstep : ∀ e', e < e' → entriesOf i j (e + 1) e' ∪ insert (.entry i k) F =
              entriesOf i j e e' ∪ F := fun e' he' => by
            rw [entriesOf_step he', Set.union_insert, Set.insert_union]
          rw [hcount]
          refine wp_deleteEntries W hjr hj1 hj2 hne (by omega) (by omega) hlt128 hcut1 h1
            (fun h => hover (by omega)) (fun d' c' hle hcut' h' => ?_)
            (fun hEF e' d' c' hcut' h' => ?_)
          · rw [show e + 1 + (blocksOf n.size - (t + 1)) = e + (blocksOf n.size - t) by omega,
              hstep _ (by omega)] at hcut'
            exact hdone d' c' (by omega) hcut' h'
          · replace hEF := hEF.mono (Set.subset_insert _ F)
            rcases Nat.lt_or_ge e e' with hee | hee
            · rw [hstep e' hee] at hcut'
              exact hfail hEF e' d' c' hcut' h'
            · have hnone : entriesOf i j (e + 1) e' = ∅ := by
                ext σ
                refine ⟨?_, fun h => absurd h (Set.notMem_empty σ)⟩
                rintro ⟨x, h1, h2, -⟩
                omega
              refine hfail hEF (e + 1) d' c' ?_ h'
              rw [hnone, Set.empty_union] at hcut'
              rw [entriesOf_step (Nat.lt_succ_self e), entriesOf_self,
                Set.insert_union, Set.empty_union]
              exact hcut'
        simp only [hfollow, hmod]
        by_cases h0 : (d.buf (n.addrs j)).le (4 * e) 4 = 0
        · rw [if_pos h0]
          refine hrest ?_ hc
          by_cases hF : Slot.entry i k ∈ F
          · rwa [Set.insert_eq_of_mem hF]
          · exact hcut.skip W ((hentry.2 hF).symm.trans h0)
        · rw [if_neg h0]
          have hF : Slot.entry i k ∉ F := fun hmem => h0 (hentry.1 hmem)
          have hval := hentry.2 hF
          have h0' : (d₀.vol sb).slot (.entry i k) ≠ 0 := fun h => h0 (hval.trans h)
          have hlive := W.live (σ := .entry i k) ⟨rfl, hk1, hk2⟩ h0'
          rw [hval, wp_kassert_bind (by simp [hlive.1.1])]
          have hheld : sb.bmapBlk ((d₀.vol sb).slot (.entry i k)) ∉ [n.addrs j] := fun hmem =>
            (W.addr_dataBlk hj2 hne).ne_bmapBlk hlive.1 (List.mem_singleton.mp hmem).symm
          rw [wp_bind]
          refine wp_freeDataBlock hjr hlive.1 hheld hc (fun c1 h1 => ?_) (fun hp hB hA c1 h1 => ?_)
          · rw [if_neg (by decide), wp_bind, blkWrite, wp_modifyData]
            have hcut1 := hcut.freeEntry W hk1 hk2 (hkj.symm ▸ hne) h0' rfl
            rw [hkj, hke] at hcut1
            cases flag with
            | true =>
              rw [if_pos rfl]
              exact hrest hcut1 h1
            | false =>
              rw [if_neg (by decide), wp_bind]
              exact h1.wp_logBlk (indir_mem_deleteSet hj1 hj2) ((card_deleteSet_le sb n).trans hjr)
                fun c2 h2 => hrest hcut1 h2
          · rw [if_pos (by decide), wp_pure]
            refine hfail ⟨hA, k, hF, hk1, hk2, h0', hp, hB⟩ e d c1 ?_ h1
            rwa [entriesOf_self, Set.empty_union]
      · obtain rfl : e = ptrsPerBlk := by omega
        obtain ⟨hnone, hE⟩ := hover (by omega)
        have hfollow : d.following (n.addrs j) (ptrsPerBlk / ptrsPerBlk) = none := by
          show (some (n.addrs j)).bind d.next = none
          rw [hcut.next]
          exact hnone
        simp only [hfollow]
        exact hE
    · rw [if_neg (fun h => hlt (lt_blocksOf.mpr h)), wp_pure]
      obtain rfl : t = blocksOf n.size := by omega
      refine hdone d c (by omega) ?_ hc
      rwa [Nat.sub_self, Nat.add_zero, entriesOf_self, Set.empty_union]

section

variable {j m : ℕ} (hj1 : sfsNdirect ≤ j) (hj2 : j < sfsNdirect + sfsNindirect)
    (hm : m ≤ ptrsPerBlk)

include hj1 hj2 hm

theorem mine_of_entriesOf (h : σ ∈ entriesOf i j 0 m) : σ.Mine i := by
  obtain ⟨x, -, hx, rfl⟩ := h
  refine ⟨rfl, ?_, ?_⟩
  · rw [Nat.add_assoc]
    exact Nat.le_add_right ..
  · unfold sfsMaxBlks sfsNindirect sfsNdirect ptrsPerBlk at *
    omega

theorem tried_entries : Tried i F (entriesOf i j 0 m ∪ F) where
  sub := Set.subset_union_right
  mine σ hσ := hσ.elim (fun h => .inr (mine_of_entriesOf hj1 hj2 hm h)) .inl
  indir j' _ hmem := hmem.elim (fun ⟨_, _, _, he⟩ => by cases he) id

end

theorem wp_deleteBlocks_done {d : Data} {c : Ctl} (hcut : Cut sb d₀ i n F d) {size : ℕ}
    (hsize : n.size ≤ size) (hQ : Q .ok ⟨d, c, v⟩) {r j : ℕ} :
    wp (deleteBlocks sb i r j size) Q E ⟨d, c, v⟩ := by
  obtain ⟨a, ha, -⟩ := hcut.ino
  cases r <;> rw [deleteBlocks, wp_bind] <;> refine wp_inode ha ?_ <;>
    rw [if_neg (Nat.not_lt.mpr hsize)] <;> exact hQ

theorem le_blocksOf (size : ℕ) : size ≤ bdevBlkSize * blocksOf size := by
  unfold blocksOf bdevBlkSize
  omega

theorem addr_cases {F : Set Slot}
    (haddr : (addr i j ∈ F → a j = 0) ∧ (addr i j ∉ F → a j = n.addrs j)) :
    a j = 0 ∧ (.addr i j ∈ F ∨ n.addrs j = 0) ∨ .addr i j ∉ F ∧
      a j = n.addrs j ∧ n.addrs j ≠ 0 := by
  by_cases hF : addr i j ∈ F
  · exact .inl ⟨haddr.1 hF, .inl hF⟩
  · by_cases h0 : n.addrs j = 0
    · exact .inl ⟨(haddr.2 hF).trans h0, .inr h0⟩
    · exact .inr ⟨hF, haddr.2 hF, h0⟩

section

variable {d : Data} {c : Ctl} {r j t : ℕ} (W : Whole sb d₀ i n)
    (hjr : sb.bmapBlks + 3 ≤ journalSize)
  (ht : t < blocksOf n.size) (hcut : Cut sb d₀ i n F d) (hc : c.Txn E A p [] B (deleteSet sb n))
  (hskip : .addr i j ∈ F ∨ n.addrs j = 0 → wp (deleteBlocks sb i r (j + 1) (bdevBlkSize * t)) Q E
    ⟨d, c, v⟩)

include W hjr ht hcut hc hskip

theorem wp_deleteBlocks_direct (hj : j < sfsNdirect)
    (hfree : .addr i j ∉ F → n.addrs j ≠ 0 → ∀ d' c', Cut sb d₀ i n (insert (.addr i j) F) d' →
      c'.Txn E A p [] B (deleteSet sb n) →
      wp (deleteBlocks sb i r (j + 1) (bdevBlkSize * (t + 1))) Q E ⟨d', c', v⟩)
    (hfail : Fails A → ∀ c', c'.Txn E A p [] B (deleteSet sb n) → Q .nomem ⟨d, c', v⟩) :
    wp (deleteBlocks sb i (r + 1) j (bdevBlkSize * t)) Q E ⟨d, c, v⟩ := by
  obtain ⟨a, ha, haddr⟩ := hcut.ino
  have hj14 : j < sfsNdirect + sfsNindirect := Nat.lt_add_right _ hj
  rw [deleteBlocks, wp_bind]
  refine wp_inode ha ?_
  rw [if_pos (lt_blocksOf.mp ht)]
  show wp (if a j = 0 then _ else _) Q E _
  rcases addr_cases (haddr j) with ⟨h0, hs⟩ | ⟨hF, hval, hne⟩
  · rw [if_pos h0]
    exact hskip hs
  · rw [if_neg (hval ▸ hne)]
    have hdata := W.addr_dataBlk hj14 hne
    show wp (kassert _ (fun _ => decide (sb.dataStart ≤ a j)) >>= _) Q E _
    rw [wp_kassert_bind (by simp [hval, hdata.1]), wp_bind, deleteBelow, if_pos hj, wp_pure]
    show wp (freeDataBlock sb (a j) >>= _) Q E _
    rw [wp_bind, hval]
    refine wp_freeDataBlock hjr hdata List.not_mem_nil hc (fun c1 h1 => ?_)
      (fun _ _ hA c1 h1 => hfail hA c1 h1)
    rw [if_neg (by decide), wp_bind, setInode, wp_modifyData]
    exact hfree hF hne _ c1 (hcut.freeAddr W hj14 hne haddr) h1

theorem wp_deleteBlocks_indirect (hj1 : sfsNdirect ≤ j) (hj2 : j < sfsNdirect + sfsNindirect)
    (hentries : ¬ EntryFails sb d₀ i F A p B)
    (hover : .addr i j ∉ F → n.addrs j ≠ 0 → ptrsPerBlk < blocksOf n.size - t →
      d₀.next (n.addrs j) = none ∧ E (.wild "indirect"))
    (hdone : .addr i j ∉ F → n.addrs j ≠ 0 → blocksOf n.size - t ≤ ptrsPerBlk → ∀ d' c',
      Cut sb d₀ i n (insert (.addr i j) (entriesOf i j 0 (blocksOf n.size - t) ∪ F)) d' →
      c'.Txn E A p [] B (deleteSet sb n) → Q .ok ⟨d', c', v⟩)
    (hfail : Fails A → ∀ F' d' c', Tried i F F' → Cut sb d₀ i n F' d' →
    c'.Txn E A p [] B (deleteSet sb n) →
      Q .nomem ⟨d', c', v⟩) : wp (deleteBlocks sb i (r + 1) j (bdevBlkSize * t)) Q E ⟨d, c, v⟩ := by
  obtain ⟨a, ha, haddr⟩ := hcut.ino
  rw [deleteBlocks, wp_bind]
  refine wp_inode ha ?_
  rw [if_pos (lt_blocksOf.mp ht)]
  show wp (if a j = 0 then _ else _) Q E _
  rcases addr_cases (haddr j) with ⟨h0, hs⟩ | ⟨hF, hval, hne⟩
  · rw [if_pos h0]
    exact hskip hs
  · rw [if_neg (hval ▸ hne)]
    have hdata := W.addr_dataBlk hj2 hne
    show wp (kassert _ (fun _ => decide (sb.dataStart ≤ a j)) >>= _) Q E _
    rw [wp_kassert_bind (by simp [hval, hdata.1])]
    show wp (deleteBelow sb i j (a j) _ >>= _) Q E _
    rw [wp_bind, hval, deleteBelow, if_neg (Nat.not_lt.mpr hj1), wp_bind]
    refine hc.wp_getBlk List.not_mem_nil (fun c1 h1 => ?_)
      (fun _ _ hA c1 h1 => hfail hA F d c1 (.refl i F) hcut h1)
    rw [if_pos rfl, wp_bind]
    refine wp_inode ha ?_
    rw [wp_bind]
    have hfuel : blocksOf n.size - t < n.size / bdevBlkSize + 2 := by
      unfold blocksOf bdevBlkSize
      omega
    refine wp_deleteEntries W hjr hj1 hj2 hne hfuel ht.le (Nat.zero_le _) hcut h1
      (fun h => hover hF hne (by omega)) (fun d2 c2 hle hcut2 h2 => ?_)
      (fun hEF => absurd hEF hentries)
    rw [Nat.zero_add] at hle hcut2
    show wp (bdevReleaseBlk (n.addrs j) >>= _) _ E _
    rw [wp_bind]
    refine h2.wp_release fun c3 h3 => ?_
    show wp (freeDataBlock sb (a j) >>= _) Q E _
    rw [wp_bind, hval]
    have hmem : ∀ j', addr i j' ∈ entriesOf i j 0 (blocksOf n.size - t) ∪ F ↔ addr i j' ∈ F := by
      intro j'
      refine or_iff_right ?_
      rintro ⟨x, -, -, hx⟩
      cases hx
    refine wp_freeDataBlock hjr hdata List.not_mem_nil h3 (fun c4 h4 => ?_)
      (fun _ _ hA c4 h4 => hfail hA _ d2 c4 (tried_entries hj1 hj2 hle) hcut2 h4)
    rw [if_neg (by decide), wp_bind, setInode, wp_modifyData]
    have hcut4 := hcut2.freeAddr W hj2 hne (a := a) fun j' => by
      rw [hmem]
      exact haddr j'
    exact wp_deleteBlocks_done hcut4 (le_blocksOf n.size) (hdone hF hne hle _ c4 hcut4 h4)

end

/-- The first slots of an inode. -/
def addrsBelow (i : Inum) (m : ℕ) : Set Slot := { σ | ∃ j < m, σ = .addr i j }

theorem addrsBelow_succ (m : ℕ) : addrsBelow i (m + 1) = insert (.addr i m) (addrsBelow i m) := by
  ext σ
  constructor
  · rintro ⟨j, hj, rfl⟩
    rcases Nat.lt_succ_iff_lt_or_eq.mp hj with hlt | rfl
    · exact Set.mem_insert_of_mem _ ⟨j, hlt, rfl⟩
    · exact Set.mem_insert _ _
  · intro hσ
    rcases Set.mem_insert_iff.mp hσ with rfl | ⟨j, hj, rfl⟩
    · exact ⟨m, Nat.lt_succ_self m, rfl⟩
    · exact ⟨j, by omega, rfl⟩

variable {m : ℕ}

theorem addr_mem_addrsBelow : addr i j ∈ addrsBelow i m ↔ j < m := by
  constructor
  · rintro ⟨j', hj', he⟩
    rw [(addr.inj he).2]
    exact hj'
  · exact fun h => ⟨j, h, rfl⟩

theorem mine_of_addrsBelow (hm : m ≤ sfsNdirect) (h : σ ∈ addrsBelow i m) : σ.Mine i := by
  obtain ⟨j, hj, rfl⟩ := h
  exact ⟨rfl, Nat.lt_add_right _ (hj.trans_le hm)⟩

theorem tried_addrsBelow (hm : m ≤ sfsNdirect) : Tried i F (addrsBelow i m ∪ F) where
  sub := Set.subset_union_right
  mine _ hσ := hσ.elim (fun h => .inr (mine_of_addrsBelow hm h)) .inl
  indir _ hj hmem := hmem.resolve_left fun h =>
    absurd ((addr_mem_addrsBelow.mp h).trans_le hm) (Nat.not_lt.mpr hj)

open Classical in
/-- The direct blocks before the `m`-th that are there. -/
noncomputable def directs (i : Inum) (n : Inode) (F : Set Slot) (m : ℕ) : ℕ :=
  Nat.count (fun j => Slot.addr i j ∉ F ∧ n.addrs j ≠ 0) m

theorem directs_zero (F : Set Slot) : directs i n F 0 = 0 := by
  rw [directs, Nat.count_zero]

theorem directs_succ_of_skip (h : .addr i m ∈ F ∨ n.addrs m = 0) :
    directs i n F (m + 1) = directs i n F m := by
  rw [directs, Nat.count_succ, if_neg (by tauto)]
  rfl

theorem directs_succ_of_there (hF : .addr i m ∉ F) (h0 : n.addrs m ≠ 0) :
    directs i n F (m + 1) = directs i n F m + 1 := by
  rw [directs, Nat.count_succ, if_pos ⟨hF, h0⟩]
  rfl

open Classical in
theorem directs_mono {m' : ℕ} (h : m ≤ m') : directs i n F m ≤ directs i n F m' := by
  unfold directs
  exact Nat.count_monotone _ h

theorem directs_lt {m' j : ℕ} (hF : .addr i j ∉ F) (h0 : n.addrs j ≠ 0) (h1 : m ≤ j) (h2 : j < m') :
    directs i n F m < directs i n F m' := by
  have h3 : directs i n F m ≤ directs i n F j := directs_mono h1
  have h4 : directs i n F j + 1 ≤ directs i n F m' := directs_succ_of_there hF h0 ▸ directs_mono h2
  omega

theorem exists_of_directs_lt : ∀ {m'}, directs i n F m < directs i n F m' →
    ∃ j, m ≤ j ∧ j < m' ∧ .addr i j ∉ F ∧ n.addrs j ≠ 0
  | 0, h => absurd h (by rw [directs_zero]; exact Nat.not_lt_zero _)
  | m' + 1, h => by
    by_cases hskip : .addr i m' ∈ F ∨ n.addrs m' = 0
    · rw [directs_succ_of_skip hskip] at h
      obtain ⟨j, h1, h2, h3⟩ := exists_of_directs_lt h
      exact ⟨j, h1, by omega, h3⟩
    · obtain ⟨hF, h0⟩ := not_or.mp hskip
      refine ⟨m', ?_, Nat.lt_succ_self m', hF, h0⟩
      by_contra hlt
      exact absurd h (Nat.not_lt.mpr (directs_mono (by omega)))

theorem directs_eq_count (ha : ∀ j, a j = 0 ↔ .addr i j ∈ F ∨ n.addrs j = 0) :
    ∀ m, directs i n F m = Nat.count (a · ≠ 0) m
  | 0 => by rw [directs_zero, Nat.count_zero]
  | m + 1 => by
    rw [Nat.count_succ, ← directs_eq_count ha m]
    by_cases h0 : a m = 0
    · rw [if_neg (not_not.mpr h0), directs_succ_of_skip ((ha m).mp h0)]
      rfl
    · obtain ⟨hF, hne⟩ := not_or.mp ((ha m).not.mp h0)
      rw [if_pos h0, directs_succ_of_there hF hne]

/-- What a call has emptied when it returns with success, from the slots that were empty before it.
-/
inductive Emptied (i : Inum) (n : Inode) (F : Set Slot) : Set Slot → Prop
  /-- The size is reached in the direct blocks. -/
  | direct {m : ℕ} (hm : m ≤ sfsNdirect) (hcount : directs i n F m = blocksOf n.size) :
      Emptied i n F (addrsBelow i m ∪ F)
  /-- The size is reached in an indirect block, which is the first one there. -/
  | indirect {j : ℕ} (hj1 : sfsNdirect ≤ j) (hj2 : j < sfsNdirect + sfsNindirect)
      (hlt : directs i n F sfsNdirect < blocksOf n.size)
      (hfirst : ∀ j', sfsNdirect ≤ j' → j' < j → .addr i j' ∈ F ∨ n.addrs j' = 0)
      (hF : .addr i j ∉ F) (hne : n.addrs j ≠ 0)
      (hroom : blocksOf n.size - directs i n F sfsNdirect ≤ ptrsPerBlk) :
      Emptied i n F (insert (.addr i j)
        (entriesOf i j 0 (blocksOf n.size - directs i n F sfsNdirect) ∪
        (addrsBelow i sfsNdirect ∪ F)))

theorem wp_deleteDirects (W : Whole sb d₀ i n) (hjr : sb.bmapBlks + 3 ≤ journalSize)
    (hstop : ∀ m d' c', m ≤ sfsNdirect → directs i n F m = blocksOf n.size →
      Cut sb d₀ i n (addrsBelow i m ∪ F) d' → c'.Txn E A p []
        B (deleteSet sb n) → Q .ok ⟨d', c', v⟩)
    (hfail : Fails A → ∀ F' d' c', Tried i F F' → Cut sb d₀ i n F' d' →
    c'.Txn E A p [] B (deleteSet sb n) →
      Q .nomem ⟨d', c', v⟩) (hnext : directs i n F sfsNdirect < blocksOf n.size → ∀ d' c',
      Cut sb d₀ i n (addrsBelow i sfsNdirect ∪ F) d' → c'.Txn E A p [] B (deleteSet sb n) →
      wp (deleteBlocks sb i sfsNindirect sfsNdirect (bdevBlkSize * directs i n F sfsNdirect)) Q E
        ⟨d', c', v⟩) :
    ∀ {r m : ℕ} {d : Data} {c : Ctl}, r + m = sfsNdirect + sfsNindirect → m ≤ sfsNdirect →
      directs i n F m ≤ blocksOf n.size → Cut sb d₀ i n (addrsBelow i m ∪ F) d →
      c.Txn E A p [] B (deleteSet sb n) →
      wp (deleteBlocks sb i r m (bdevBlkSize * directs i n F m)) Q E ⟨d, c, v⟩ := by
  intro r m d c hr hm hle hcut hc
  induction hk : sfsNdirect - m generalizing r m d c with
  | zero =>
    obtain rfl : m = sfsNdirect := by omega
    obtain rfl : r = sfsNindirect := by omega
    rcases Nat.eq_or_lt_of_le hle with heq | hlt
    · rw [heq]
      exact wp_deleteBlocks_done hcut (le_blocksOf n.size) (hstop _ d c hm heq hcut hc)
    · exact hnext hlt d c hcut hc
  | succ k ih =>
    rcases Nat.eq_or_lt_of_le hle with heq | hlt
    · rw [heq]
      exact wp_deleteBlocks_done hcut (le_blocksOf n.size) (hstop _ d c hm heq hcut hc)
    · obtain ⟨r, rfl⟩ : ∃ r', r = r' + 1 := ⟨r - 1, by unfold sfsNindirect at hr; omega⟩
      have hlt12 : m < sfsNdirect := by omega
      have hmem : addr i m ∈ addrsBelow i m ∪ F ↔ addr i m ∈ F :=
        or_iff_right fun h => Nat.lt_irrefl m (addr_mem_addrsBelow.mp h)
      have hstep : addrsBelow i (m + 1) ∪ F = insert (.addr i m) (addrsBelow i m ∪ F) := by
        rw [addrsBelow_succ, Set.insert_union]
      refine wp_deleteBlocks_direct W hjr hlt hcut hc (fun hskip => ?_) hlt12
        (fun hF hne d' c' hcut' h' => ?_)
        (fun hA c' h' => hfail hA _ d c' (tried_addrsBelow hm) hcut h')
      · rw [hmem] at hskip
        have hcount := directs_succ_of_skip hskip
        rw [← hcount]
        refine ih (by omega) hlt12 (hcount ▸ hle) ?_ hc (by omega)
        rw [hstep]
        rcases hskip with hF | h0
        · rwa [Set.insert_eq_of_mem (hmem.mpr hF)]
        · exact hcut.skip W (by rw [W.slot_addr, h0])
      · rw [hmem] at hF
        have hcount := directs_succ_of_there hF hne
        rw [← hcount]
        exact ih (by omega) hlt12 (by omega) (hstep ▸ hcut') h' (by omega)

theorem Emptied.mine {F' : Set Slot} (h : Emptied i n F F') (hσ : σ ∈ F') : σ ∈ F ∨ σ.Mine i := by
  cases h with
  | direct hm => exact hσ.elim (fun h => .inr (mine_of_addrsBelow hm h)) .inl
  | indirect hj1 hj2 _ _ _ _ hroom =>
    rcases hσ with rfl | hσ | hσ | hσ
    · exact .inr ⟨rfl, hj2⟩
    · exact .inr (mine_of_entriesOf hj1 hj2 hroom hσ)
    · exact .inr (mine_of_addrsBelow le_rfl hσ)
    · exact .inl hσ

/-- What is left when the inode on disk is freed too. -/
structure Deleted (sb : SbInfo) (d₀ : Data) (i : Inum) (F : Set Slot) (d : Data) : Prop where
  bits : ∀ b, sb.HasBit b →
    (d.bmapBit sb b = true ↔ d₀.bmapBit sb b = true ∧ ∀ σ ∈ F, (d₀.vol sb).slot σ ≠ b)
  inodeBmap : d.buf sfsInodeBmapBlk = (d₀.buf sfsInodeBmapBlk).clearBit (i - 1)

section delete

variable (W : Whole sb d₀ i n) (hjr : sb.bmapBlks + 3 ≤ journalSize) {Q : Err → Fs → Prop}
variable {F : Set Slot} {d : Data} {c : Ctl} (hcut : Cut sb d₀ i n F d)
    (hc : c.Txn E A p [] B (deleteSet sb n))
variable (hentries : ¬ EntryFails sb d₀ i F A p B)
variable (hover : ∀ j, sfsNdirect ≤ j → j < sfsNdirect + sfsNindirect →
    .addr i j ∉ F → n.addrs j ≠ 0 →
  (∀ j', sfsNdirect ≤ j' → j' < j → .addr i j' ∈ F ∨ n.addrs j' = 0) →
  ptrsPerBlk < blocksOf n.size - directs i n F sfsNdirect →
    d₀.next (n.addrs j) = none ∧ E (.wild "indirect"))
variable (hpast : directs i n F sfsNdirect < blocksOf n.size →
  (∀ j, sfsNdirect ≤ j → j < sfsNdirect + sfsNindirect → .addr i j ∈ F ∨ n.addrs j = 0) →
    E (.wild "i_addrs"))

include W hjr hcut hc hentries hover hpast

theorem wp_deleteBlocks
    (hok : ∀ F' d' c', Emptied i n F F' → Cut sb d₀ i n F' d' → c'.Txn E A p [] B (deleteSet sb n) →
      Q .ok ⟨d', c', v⟩) (hfail : Fails A → ∀ F' d' c', Tried i F F' → Cut sb d₀ i n F' d' →
    c'.Txn E A p [] B (deleteSet sb n) →
      Q .nomem ⟨d', c', v⟩) : wp (deleteBlocks sb i (sfsNdirect + sfsNindirect) 0 0) Q E
        ⟨d, c, v⟩ := by
  have hzero : directs i n F 0 = 0 := directs_zero F
  have hnil : addrsBelow i 0 ∪ F = F := by
    have : addrsBelow i 0 = ∅ := by
      ext σ
      refine ⟨?_, fun h => absurd h (Set.notMem_empty σ)⟩
      rintro ⟨j, hj, -⟩
      exact absurd hj (Nat.not_lt_zero j)
    rw [this, Set.empty_union]
  have hmem : ∀ {j}, sfsNdirect ≤ j → (addr i j ∈ addrsBelow i sfsNdirect ∪ F ↔ addr i j ∈ F) :=
    fun hj => or_iff_right fun h => absurd (addr_mem_addrsBelow.mp h) (Nat.not_lt.mpr hj)
  have key := wp_deleteDirects (A := A) (p := p) (B := B) (E := E) (v := v) (Q := Q)
    (F := F) (r := 14) (m := 0) (d := d) (c := c) W hjr
    (fun m d' c' hm hcount hcut' h' => hok _ d' c' (.direct hm hcount) hcut' h') hfail
    (fun hlt d1 c1 hcut1 h1 => ?_) rfl (Nat.zero_le _) (hzero ▸ Nat.zero_le _) (hnil.symm ▸ hcut) hc
  · rw [hzero, Nat.mul_zero] at key
    exact key
  have hentries1 : ¬ EntryFails sb d₀ i (addrsBelow i sfsNdirect ∪ F) A p B := fun h =>
    hentries (h.mono Set.subset_union_right)
  have hfail1 : Fails A → ∀ F' d' c', Tried i (addrsBelow i sfsNdirect ∪ F)
      F' → Cut sb d₀ i n F' d' →
      c'.Txn E A p [] B (deleteSet sb n) → Q .nomem ⟨d', c', v⟩ := fun hA F' d' c' htried =>
    hfail hA F' d' c' ((tried_addrsBelow le_rfl).trans htried)
  show wp (deleteBlocks sb i (1 + 1) sfsNdirect _) Q E _
  refine wp_deleteBlocks_indirect W hjr hlt hcut1 h1 (fun hskip => ?_)
    (le_refl _) (by decide) hentries1
    (fun hF hne hgt => hover _ (le_refl _) (by decide) ((hmem (le_refl _)).not.mp hF) hne
      (fun j' h1 h2 => absurd h2 (Nat.not_lt.mpr h1)) hgt)
    (fun hF hne hroom d' c' hcut' h' => hok _ d' c' (.indirect (le_refl _) (by decide) hlt
      (fun j' h1 h2 => absurd h2 (Nat.not_lt.mpr h1)) ((hmem (le_refl _)).not.mp hF)
      hne hroom) hcut' h') hfail1
  rw [hmem (le_refl _)] at hskip
  have hfirst : ∀ j', sfsNdirect ≤ j' → j' < sfsNdirect + 1 → .addr i j' ∈ F ∨
      n.addrs j' = 0 := fun j' h1 h2 => by
    obtain rfl : j' = sfsNdirect := by omega
    exact hskip
  show wp (deleteBlocks sb i (0 + 1) (sfsNdirect + 1) _) Q E _
  refine wp_deleteBlocks_indirect W hjr hlt hcut1 h1 (fun hskip' => ?_)
    (Nat.le_succ _) (by decide) hentries1
    (fun hF hne hgt => hover _ (Nat.le_succ _) (by decide) ((hmem (Nat.le_succ _)).not.mp hF)
      hne hfirst hgt)
    (fun hF hne hroom d' c' hcut' h' =>
      hok _ d' c' (.indirect (Nat.le_succ _) (by decide) hlt hfirst
      ((hmem (Nat.le_succ _)).not.mp hF) hne hroom) hcut' h') hfail1
  rw [hmem (Nat.le_succ _)] at hskip'
  obtain ⟨a, ha, -⟩ := hcut1.ino
  rw [deleteBlocks, wp_bind]
  refine wp_inode ha ?_
  rw [if_pos (lt_blocksOf.mp hlt)]
  refine hpast hlt fun j h1 h2 => ?_
  rcases Nat.lt_or_ge j (sfsNdirect + 1) with hj | hj
  · exact hfirst j h1 hj
  · obtain rfl : j = sfsNdirect + 1 := by
      unfold sfsNindirect at h2
      omega
    exact hskip'

theorem wp_sfsDeleteInode (hl : n.nlink = 0)
    (hok : ∀ F' d' c', Emptied i n F F' → Deleted sb d₀ i F' d' →
    c'.Txn E A p [] B (deleteSet sb n) →
      Q .ok ⟨d', c', v⟩) (hfail : Fails A → ∀ F' d' c', Tried i F F' ∨
        Emptied i n F F' → Cut sb d₀ i n F' d' →
      c'.Txn E A p [] B (deleteSet sb n) → Q .nomem ⟨d', c', v⟩) :
        wp (sfsDeleteInode sb i) Q E ⟨d, c, v⟩ := by
  have hi : i ≠ 0 := Nat.pos_iff_ne_zero.mp W.used.1.1
  obtain ⟨a, ha, -⟩ := hcut.ino
  rw [sfsDeleteInode, wp_kassert_bind (by simp [Nat.pos_iff_ne_zero, hi]), wp_bind]
  refine wp_inode ha ?_
  rw [wp_kassert_bind (by simp [hl]), wp_bind]
  refine wp_deleteBlocks W hjr hcut hc hentries hover hpast (fun F' d1 c1 hemp hcut1 h1 => ?_)
    (fun hA F' d1 c1 htried hcut1 h1 => ?_)
  · rw [if_neg (by decide), wp_bind, freeDiskInode, wp_kassert_bind (by simp [hi]), wp_bind]
    refine h1.wp_getBlk List.not_mem_nil (fun c2 h2 => ?_)
      (fun _ _ hA c2 h2 => hfail hA F' d1 c2 (.inr hemp) hcut1 h2)
    rw [if_pos rfl, wp_bind]
    refine h2.wp_logWrite inodeBmap_mem_deleteSet ((card_deleteSet_le sb n).trans hjr) fun c3 h3 =>
      ?_
    rw [wp_bind]
    refine h3.wp_release fun c4 h4 => ?_
    obtain ⟨a', ha', -⟩ := hcut1.ino
    rw [wp_pure, if_neg (by decide), wp_bind]
    refine wp_inode (n := { n with addrs := a' }) ha' ?_
    rw [wp_bind, setInode, wp_modifyData, wp_pure]
    refine hok F' _ c4 hemp ⟨fun b hb => ?_, ?_⟩ h4
    · rw [← hcut1.bits b hb]
      show (((d1.setBuf sfsInodeBmapBlk _).buf _).bit _ = true ↔ _)
      rw [setBuf_buf_of_ne _ (bmapBlk_ne_inodeBmap sb b)]
      rfl
    · rw [← hcut1.inodeBmap]
      exact setBuf_buf_self (d := d1) (b := sfsInodeBmapBlk)
        ((d1.buf sfsInodeBmapBlk).clearBit (i - 1))
  · rw [if_pos (by decide), wp_pure]
    exact hfail hA F' d1 c1 (.inl htried) hcut1 h1

end delete

end loops

/-! ## When a call frees all -/

/-- The count of `sfs_delete_inode` comes out: the direct blocks make up the size, or they and one
indirect block do, with all that this block has. -/
def Counts (d : Data) (n : Inode) : Prop :=
  (Nat.count (n.addrs · ≠ 0) sfsNdirect = blocksOf n.size ∧
    ∀ j, sfsNdirect ≤ j → j < sfsNdirect + sfsNindirect → n.addrs j = 0) ∨
  (Nat.count (n.addrs · ≠ 0) sfsNdirect < blocksOf n.size ∧
    blocksOf n.size - Nat.count (n.addrs · ≠ 0) sfsNdirect ≤ ptrsPerBlk ∧
    ∃ j, sfsNdirect ≤ j ∧ j < sfsNdirect + sfsNindirect ∧ n.addrs j ≠ 0 ∧
      (∀ j', sfsNdirect ≤ j' → j' < sfsNdirect + sfsNindirect → j' ≠ j → n.addrs j' = 0) ∧
      ∀ e, blocksOf n.size - Nat.count (n.addrs · ≠ 0) sfsNdirect ≤ e → e < ptrsPerBlk →
        (d.buf (n.addrs j)).le (4 * e) 4 = 0)

section counts

variable {sb : SbInfo} {d₀ d : Data} {i : Inum} {n n' : Inode} {F F' : Set Slot}

/-- `Counts` in terms of the slots that are empty. -/
structure CountsOn (sb : SbInfo) (d₀ : Data) (i : Inum) (n : Inode) (F : Set Slot) : Prop where
  le : directs i n F sfsNdirect ≤ blocksOf n.size
  room : blocksOf n.size - directs i n F sfsNdirect ≤ ptrsPerBlk
  /-- An indirect block is there if and only if the direct blocks do not make up the size. -/
  indir : ∀ j, sfsNdirect ≤ j → j < sfsNdirect + sfsNindirect → .addr i j ∉ F → n.addrs j ≠ 0 →
    directs i n F sfsNdirect < blocksOf n.size ∧
    (∀ j', sfsNdirect ≤ j' → j' < sfsNdirect + sfsNindirect → j' ≠ j →
    .addr i j' ∈ F ∨ n.addrs j' = 0) ∧
    ∀ k, sfsNdirect ≤ k → k < sfsMaxBlks → indirIndex k = j →
      blocksOf n.size - directs i n F sfsNdirect ≤ indirOfs k →
      .entry i k ∈ F ∨ (d₀.vol sb).slot (.entry i k) = 0
  some : directs i n F sfsNdirect < blocksOf n.size →
    ∃ j, sfsNdirect ≤ j ∧ j < sfsNdirect + sfsNindirect ∧ .addr i j ∉ F ∧ n.addrs j ≠ 0

section

variable (hcut : Cut sb d₀ i n F d) (hn' : d.icache i = some n')

include hcut hn'

theorem Cut.addrs_eq_zero (j : ℕ) : n'.addrs j = 0 ↔ .addr i j ∈ F ∨ n.addrs j = 0 := by
  obtain ⟨a, ha, haddr⟩ := hcut.ino
  rw [hn'] at ha
  obtain rfl := Option.some.inj ha
  show a j = 0 ↔ _
  by_cases hF : addr i j ∈ F
  · exact iff_of_true ((haddr j).1 hF) (.inl hF)
  · rw [(haddr j).2 hF, or_iff_right hF]

theorem Cut.directs_eq (m : ℕ) : directs i n F m = Nat.count (n'.addrs · ≠ 0) m :=
  directs_eq_count (hcut.addrs_eq_zero hn') m

theorem Cut.size_eq : n'.size = n.size := by
  obtain ⟨a, ha, -⟩ := hcut.ino
  rw [hn'] at ha
  obtain rfl := Option.some.inj ha
  rfl

theorem Cut.entry_eq_zero {k : ℕ} (hk1 : sfsNdirect ≤ k) (hk2 : k < sfsMaxBlks)
    (h0 : n'.addrs (indirIndex k) ≠ 0) :
    (d.buf (n'.addrs (indirIndex k))).le (4 * indirOfs k) 4 = 0 ↔
      .entry i k ∈ F ∨ (d₀.vol sb).slot (.entry i k) = 0 := by
  obtain ⟨a, ha, haddr⟩ := hcut.ino
  rw [hn'] at ha
  obtain rfl := Option.some.inj ha
  replace h0 : a (indirIndex k) ≠ 0 := h0
  show (d.buf (a (indirIndex k))).le _ _ = 0 ↔ _
  have hF : addr i (indirIndex k) ∉ F := fun hmem => h0 ((haddr _).1 hmem)
  rw [(haddr _).2 hF] at h0 ⊢
  obtain ⟨h1, h2⟩ := hcut.entry k hk1 hk2 h0
  by_cases hmem : Slot.entry i k ∈ F
  · exact iff_of_true (h1 hmem) (.inl hmem)
  · rw [h2 hmem, or_iff_right hmem]

end

theorem entry_of_indir {j e : ℕ} (hj1 : sfsNdirect ≤ j) (hj2 : j < sfsNdirect + sfsNindirect)
    (he : e < ptrsPerBlk) :
    ∃ k, sfsNdirect ≤ k ∧ k < sfsMaxBlks ∧ indirIndex k = j ∧ indirOfs k = e := by
  refine ⟨sfsNdirect + (j - sfsNdirect) * ptrsPerBlk + e, ?_, ?_, indir_of_entry hj1 he⟩
  · rw [Nat.add_assoc]
    exact Nat.le_add_right ..
  · unfold sfsMaxBlks sfsNindirect sfsNdirect ptrsPerBlk at *
    omega

theorem indirOfs_lt (k : ℕ) : indirOfs k < ptrsPerBlk := Nat.mod_lt _ (by decide)

theorem Cut.counts_iff (hcut : Cut sb d₀ i n F d) (hn' : d.icache i = some n') :
    Counts d n' ↔ CountsOn sb d₀ i n F := by
  have hsize := hcut.size_eq hn'
  have hcount := hcut.directs_eq hn' sfsNdirect
  have hzero := hcut.addrs_eq_zero hn'
  have hnot : ∀ j, (.addr i j ∉ F ∧ n.addrs j ≠ 0) ↔ n'.addrs j ≠ 0 := fun j => by
    rw [← not_or, ← hzero j]
  rw [Counts, hsize, ← hcount]
  constructor
  · rintro (⟨heq, hnone⟩ | ⟨hlt, hroom, j, hj1, hj2, hne, hothers, hempty⟩)
    · refine ⟨heq.le, by omega, fun j h1 h2 hF h0 => ?_, fun hlt => by omega⟩
      exact absurd (hnone j h1 h2) ((hnot j).mp ⟨hF, h0⟩)
    · refine ⟨hlt.le, hroom, fun j1 h1 h2 hF h0 => ?_, fun _ => ⟨j, hj1, hj2, (hnot j).mpr hne⟩⟩
      have hj : j1 = j := by
        by_contra hjj
        exact (hnot j1).mp ⟨hF, h0⟩ (hothers j1 h1 h2 hjj)
      subst hj
      refine ⟨hlt, fun j' h1' h2' hjj => (hzero j').mp (hothers j' h1' h2' hjj),
        fun k hk1 hk2 hk hle => ?_⟩
      have := hempty (indirOfs k) hle (indirOfs_lt k)
      rw [← hk] at this hne
      exact (hcut.entry_eq_zero hn' hk1 hk2 hne).mp this
  · intro C
    rcases Nat.eq_or_lt_of_le C.le with heq | hlt
    · refine .inl ⟨heq, fun j h1 h2 => ?_⟩
      by_contra h0
      obtain ⟨hF, hne⟩ := (hnot j).mpr h0
      have := (C.indir j h1 h2 hF hne).1
      omega
    · obtain ⟨j, hj1, hj2, hF, hne⟩ := C.some hlt
      obtain ⟨-, hothers, hempty⟩ := C.indir j hj1 hj2 hF hne
      have hne' := (hnot j).mp ⟨hF, hne⟩
      refine .inr ⟨hlt, C.room, j, hj1, hj2, hne', fun j' h1 h2 hjj => (hzero j').mpr
        (hothers j' h1 h2 hjj), fun e hle he => ?_⟩
      obtain ⟨k, hk1, hk2, rfl, rfl⟩ := entry_of_indir hj1 hj2 he
      exact (hcut.entry_eq_zero hn' hk1 hk2 hne').mpr (hempty k hk1 hk2 rfl hle)

/-- All that the inode had is emptied. -/
def AllEmptied (sb : SbInfo) (d₀ : Data) (i : Inum) (F : Set Slot) : Prop :=
  ∀ σ, Slot.Mine i σ → (d₀.vol sb).slot σ ≠ 0 → σ ∈ F

/-- An indirect block is emptied after its entries. -/
def Closed (sb : SbInfo) (d₀ : Data) (i : Inum) (F : Set Slot) : Prop :=
  ∀ k, sfsNdirect ≤ k → k < sfsMaxBlks → .addr i (indirIndex k) ∈ F →
    (d₀.vol sb).slot (.entry i k) ≠ 0 →
    .entry i k ∈ F

theorem Whole.indir_of_entry_ne (W : Whole sb d₀ i n) {k : ℕ}
    (h0 : (d₀.vol sb).slot (.entry i k) ≠ 0) : n.addrs (indirIndex k) ≠ 0 := by
  intro h
  rw [Vol.slot, W.ino, if_pos h] at h0
  exact h0 rfl

theorem mem_entriesOf {k j m : ℕ} (hk1 : sfsNdirect ≤ k) (hj : indirIndex k = j)
    (hm : indirOfs k < m) : Slot.entry i k ∈ entriesOf i j 0 m := by
  refine ⟨indirOfs k, Nat.zero_le _, hm, ?_⟩
  rw [← hj]
  congr 1
  unfold indirIndex indirOfs sfsNdirect ptrsPerBlk at *
  omega

theorem CountsOn.allEmptied (C : CountsOn sb d₀ i n F) (W : Whole sb d₀ i n)
    (hcl : Closed sb d₀ i F) (hemp : Emptied i n F F') : AllEmptied sb d₀ i F' := by
  cases hemp with
  | @direct m hm hcount =>
    have heq : directs i n F sfsNdirect = directs i n F m := Nat.le_antisymm
        (hcount ▸ C.le) (directs_mono hm)
    have hlast : ∀ j, m ≤ j → j < sfsNdirect → n.addrs j ≠ 0 → addr i j ∈ F := by
      intro j h1 h2 h0
      by_contra hF
      exact absurd heq (directs_lt hF h0 h1 h2).ne'
    have hindir : ∀ j, sfsNdirect ≤ j → j < sfsNdirect + sfsNindirect →
        n.addrs j ≠ 0 → addr i j ∈ F := by
      intro j h1 h2 h0
      by_contra hF
      have := (C.indir j h1 h2 hF h0).1
      omega
    intro σ hσ h0
    cases σ with
    | addr i' j =>
      obtain ⟨rfl, hj⟩ := hσ
      rw [W.slot_addr] at h0
      rcases Nat.lt_or_ge j m with hlt | hge
      · exact .inl ⟨j, hlt, rfl⟩
      · rcases Nat.lt_or_ge j sfsNdirect with h12 | h12
        · exact .inr (hlast j hge h12 h0)
        · exact .inr (hindir j h12 hj h0)
    | entry i' k =>
      obtain ⟨rfl, hk1, hk2⟩ := hσ
      have hne := W.indir_of_entry_ne h0
      exact .inr (hcl k hk1 hk2 (hindir _ (Vol.indirIndex_ge k) (Vol.indirIndex_lt hk2) hne) h0)
  | @indirect j hj1 hj2 hlt hfirst hF hne hroom =>
    obtain ⟨-, hothers, hempty⟩ := C.indir j hj1 hj2 hF hne
    intro σ hσ h0
    cases σ with
    | addr i' j' =>
      obtain ⟨rfl, hj'⟩ := hσ
      rw [W.slot_addr] at h0
      rcases Nat.lt_or_ge j' sfsNdirect with h12 | h12
      · exact .inr (.inr (.inl ⟨j', h12, rfl⟩))
      · by_cases hjj : j' = j
        · exact .inl (by rw [hjj])
        · exact .inr (.inr (.inr ((hothers j' h12 hj' hjj).resolve_right h0)))
    | entry i' k =>
      obtain ⟨rfl, hk1, hk2⟩ := hσ
      have hne' := W.indir_of_entry_ne h0
      by_cases hjj : indirIndex k = j
      · rcases Nat.lt_or_ge (indirOfs k)
          (blocksOf n.size - directs i' n F sfsNdirect) with hlt' | hge
        · exact .inr (.inl (mem_entriesOf hk1 hjj hlt'))
        · exact .inr (.inr (.inr ((hempty k hk1 hk2 hjj hge).resolve_right h0)))
      · have := (hothers _ (Vol.indirIndex_ge k) (Vol.indirIndex_lt hk2) hjj).resolve_right hne'
        exact .inr (.inr (.inr (hcl k hk1 hk2 this h0)))

theorem Emptied.countsOn (hemp : Emptied i n ∅ F') (W : Whole sb d₀ i n)
    (hall : AllEmptied sb d₀ i F') : CountsOn sb d₀ i n ∅ := by
  have hmine : ∀ j, j < sfsNdirect + sfsNindirect → n.addrs j ≠ 0 → addr i j ∈ F' := fun j hj h0 =>
    hall (.addr i j) ⟨rfl, hj⟩ (by rwa [W.slot_addr])
  cases hemp with
  | @direct m hm hcount =>
    have hlt : ∀ j, j < sfsNdirect + sfsNindirect → n.addrs j ≠ 0 → j < m := fun j hj h0 =>
      (hmine j hj h0).elim addr_mem_addrsBelow.mp fun h => absurd h (Set.notMem_empty _)
    have hle : directs i n ∅ sfsNdirect ≤ blocksOf n.size := by
      by_contra hgt
      obtain ⟨j, h1, h2, -, h0⟩ := exists_of_directs_lt (hcount ▸ Nat.not_le.mp hgt)
      exact absurd (hlt j (Nat.lt_add_right _ h2) h0) (Nat.not_lt.mpr h1)
    have hge : blocksOf n.size ≤ directs i n ∅ sfsNdirect := hcount ▸ directs_mono hm
    refine ⟨hle, by omega, fun j h1 h2 _ h0 => ?_, fun h => by omega⟩
    have := hlt j h2 h0
    omega
  | @indirect j hj1 hj2 hlt hfirst hF hne hroom =>
    have haddr : ∀ j', sfsNdirect ≤ j' → j' < sfsNdirect + sfsNindirect →
        n.addrs j' ≠ 0 → j' = j := by
      intro j' h1 h2 h0
      rcases hmine j' h2 h0 with he | ⟨x, -, -, hx⟩ | h | h
      · exact (addr.inj he).2
      · cases hx
      · exact absurd (addr_mem_addrsBelow.mp h) (Nat.not_lt.mpr h1)
      · exact absurd h (Set.notMem_empty _)
    refine ⟨hlt.le, hroom, fun j1 h1 h2 _ h0 =>
      ⟨hlt, fun j' h1' h2' hjj => ?_, fun k hk1 hk2 hk hle => ?_⟩,
      fun _ => ⟨j, hj1, hj2, hF, hne⟩⟩
    · by_contra hno
      have h0' : n.addrs j' ≠ 0 := fun h => hno (.inr h)
      exact hjj ((haddr j' h1' h2' h0').trans (haddr j1 h1 h2 h0).symm)
    · by_contra hno
      have h0' : (d₀.vol sb).slot (.entry i k) ≠ 0 := fun h => hno (.inr h)
      rcases hall (.entry i k) ⟨rfl, hk1, hk2⟩ h0' with he | ⟨x, -, hx, he⟩ | ⟨x, -, he⟩ | h
      · cases he
      · have hkx := (Slot.entry.inj he).2
        have := (indir_of_entry (e := x) hj1 (by omega)).2
        rw [← hkx] at this
        omega
      · cases he
      · exact absurd h (Set.notMem_empty _)

/-- What an inode had is free and nothing else: the blocks, and the inode. -/
structure FreedAll (sb : SbInfo) (d : Data) (i : Inum) (d' : Data) : Prop where
  blocks : ∀ b, sb.HasBit b →
    (d'.bmapBit sb b = true ↔ d.bmapBit sb b = true ∧ ∀ σ, Slot.Mine i σ → (d.vol sb).slot σ ≠ b)
  inode : ∀ x, (d'.buf sfsInodeBmapBlk).bit x = true ↔ (d.buf sfsInodeBmapBlk).bit x = true ∧
    x ≠ i - 1

theorem Deleted.freedAll (D : Deleted sb d₀ i F d) (hmine : ∀ σ ∈ F, Slot.Mine i σ)
    (hall : AllEmptied sb d₀ i F) : FreedAll sb d₀ i d where
  blocks b hb := by
    rw [D.bits b hb]
    refine and_congr_right fun _ => ⟨fun h σ hσ he => ?_, fun h σ hσ => h σ (hmine σ hσ)⟩
    exact h σ (hall σ hσ (he.trans_ne hb.ne_zero)) he
  inode x := by
    rw [D.inodeBmap, Bytes.bit_clearBit, Bool.and_eq_true, decide_eq_true_iff]

theorem Deleted.allEmptied (D : Deleted sb d₀ i F d) (W : Whole sb d₀ i n)
    (hmine : ∀ σ ∈ F, Slot.Mine i σ)
    (hclear : ∀ σ, Slot.Mine i σ → (d₀.vol sb).slot σ ≠ 0 →
    d.bmapBit sb ((d₀.vol sb).slot σ) = false) : AllEmptied sb d₀ i F := by
  intro σ hσ h0
  have hlive := W.live hσ h0
  by_contra hF
  refine absurd ((D.bits _ hlive.1.hasBit).mpr ⟨hlive.2, fun τ hτ he => hF ?_⟩)
    (by simp [hclear σ hσ h0])
  rwa [W.inj hσ (hmine τ hτ) h0 he.symm]

theorem FreedAll.clear (h : FreedAll sb d₀ i d) (W : Whole sb d₀ i n) (hσ : Slot.Mine i σ)
    (h0 : (d₀.vol sb).slot σ ≠ 0) : d.bmapBit sb ((d₀.vol sb).slot σ) = false := by
  rw [Bool.eq_false_iff]
  intro hbit
  exact ((h.blocks _ (W.live hσ h0).1.hasBit).mp hbit).2 σ hσ rfl

/-- A transaction has begun, with nothing in it yet. -/
structure Ctl.Begun (c : Ctl) : Prop where
  busy : c.busy = true
  held : c.held = []
  logged : c.logged = []
  pages : c.Unbroken

/-- The same file system with its buffers elsewhere in memory. -/
def Fs.withNext (s : Fs) (nx : Blk → Option Blk) : Fs :=
  { s with data := { s.data with next := nx } }

variable {s s' : Fs}

theorem Whole.withNext (W : Whole sb s.data i n) (nx : Blk → Option Blk) :
    Whole sb (s.withNext nx).data i n :=
  ⟨W.cached, W.valid, W.used, W.sound⟩

section

variable (W : Whole sb s.data i n) (hl : n.nlink = 0) (hjr : sb.bmapBlks + 3 ≤ journalSize)
variable (hc : s.ctl.Begun) (hA : ∀ t, s.ctl.avail t = true)

include W hl hjr hc hA

/-- A call that no allocation fails in frees all when the count comes out, wherever the buffers are.
-/
theorem sfsDeleteInode_frees (hcounts : Counts s.data n) (nx : Blk → Option Blk) :
    ∃ s', sfsDeleteInode sb i (s.withNext nx) = .ok (.ok, s') ∧ FreedAll sb s.data i s'.data := by
  have hno : ¬ Fails s.ctl.avail := fun ⟨t, ht⟩ => by simp [hA t] at ht
  have W' := W.withNext nx
  have C : CountsOn sb (s.withNext nx).data i n ∅ := ((Cut.refl W').counts_iff W'.cached).mp hcounts
  have hnone : ∀ {σ : Slot}, σ ∈ (∅ : Set Slot) → False := fun h => Set.notMem_empty _ h
  have key : wp (sfsDeleteInode sb i) (fun e s' => e = .ok ∧ FreedAll sb s.data i s'.data)
      (fun _ => False)
      (s.withNext nx) := by
    refine wp_sfsDeleteInode W' hjr (Cut.refl W')
      (Ctl.Txn.start (c := s.ctl) hc.busy hc.held hc.logged
        (.inl (hc.pages.untorn hno)))
      (fun hEF => hno hEF.1) (fun j hj1 hj2 hF hne _ hgt => absurd C.room (Nat.not_le.mpr hgt))
      (fun hlt hnoindir => ?_) hl (fun F' d' c' hemp hdel _ => ⟨rfl, ?_⟩)
      (fun hA' => absurd hA' hno)
    · obtain ⟨j, hj1, hj2, hF, hne⟩ := C.some hlt
      exact (hnoindir j hj1 hj2).elim hF hne
    · have hall := C.allEmptied W' (fun k _ _ hmem => absurd hmem hnone) hemp
      have hfreed := hdel.freedAll (fun σ hσ => (hemp.mine hσ).resolve_left hnone) hall
      exact ⟨hfreed.blocks, hfreed.inode⟩
  obtain ⟨e, s', hrun, rfl, hfreed⟩ := Prog.wp_returns key
  exact ⟨s', hrun, hfreed⟩

/-- A call that frees all, with no buffer behind an indirect block, has counted right. -/
theorem counts_of_sfsDeleteInode
    (hrun : sfsDeleteInode sb i (s.withNext fun _ => none) = .ok (.ok, s'))
    (hclear : ∀ σ, Slot.Mine i σ → (s.data.vol sb).slot σ ≠ 0 → s'.data.bmapBit sb
    ((s.data.vol sb).slot σ) = false) : Counts s.data n := by
  have hno : ¬ Fails s.ctl.avail := fun ⟨t, ht⟩ => by simp [hA t] at ht
  have W' := W.withNext fun _ => none
  have hnone : ∀ {σ : Slot}, σ ∈ (∅ : Set Slot) → False := fun h => Set.notMem_empty _ h
  have key : wp (sfsDeleteInode sb i) (fun _ s' => ∃ F', Emptied i n ∅ F' ∧
      Deleted sb (s.withNext fun _ => none).data i F' s'.data) (fun _ => True)
      (s.withNext fun _ => none) :=
    wp_sfsDeleteInode W' hjr (Cut.refl W') (Ctl.Txn.start (c := s.ctl) hc.busy hc.held hc.logged
        (.inl (hc.pages.untorn hno)))
      (fun hEF => hno hEF.1) (fun _ _ _ _ _ _ _ => ⟨rfl, trivial⟩) (fun _ _ => trivial)
      hl (fun F' d' c' hemp hdel _ => ⟨F', hemp, hdel⟩) (fun hA' => absurd hA' hno)
  obtain ⟨F', hemp, hdel⟩ := Prog.wp_ok key hrun
  have hall := hdel.allEmptied W' (fun σ hσ => (hemp.mine hσ).resolve_left hnone) hclear
  exact ((Cut.refl W').counts_iff W'.cached).mpr (hemp.countsOn W' hall)

end

end counts

end Osv
