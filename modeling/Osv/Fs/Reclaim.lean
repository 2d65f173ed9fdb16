import Osv.Fs.Cleanup
import Osv.Fs.Position

/-!
# What becomes of the blocks of a file

Three questions about `sfs_delete_inode`.  For a file with exactly the blocks that its
size needs, a call frees all of them if and only if the file needs no more than one
indirect block (`sfsDeleteInode_frees_iff`).  A call that fails can be made again as long as the
count of what is left comes out (`sfsDeleteInode_retry`).  After writes that
failed, a file may have blocks beyond its size, and then they are lost
(`deleted_after_writes_iff`).
-/

namespace Osv

open Prog (wp wp_bind wp_pure)

variable {sb : SbInfo} {d : Data} {i : Inum} {n : Inode} {s s' : Fs}

/-! ## A file with the blocks that its size needs -/

/-- The inode has the blocks below the size, and the indirect blocks for them, and no more. -/
structure ExactBlocks (sb : SbInfo) (d : Data) (i : Inum) (n : Inode) : Prop where
  size : n.size ≤ sfsMaxFileSize
  blocks : ∀ k < sfsMaxBlks, (d.vol sb).ptr i k ≠ 0 ↔ k < blocksOf n.size
  indir : ∀ j, sfsNdirect ≤ j → j < sfsNdirect + sfsNindirect →
    (n.addrs j ≠ 0 ↔ sfsNdirect + (j - sfsNdirect) * ptrsPerBlk < blocksOf n.size)

namespace ExactBlocks

section

variable (X : ExactBlocks sb d i n) (W : Whole sb d i n)

include X W

theorem direct {j : ℕ} (hj : j < sfsNdirect) : n.addrs j ≠ 0 ↔ j < blocksOf n.size := by
  have hj' : j < sfsMaxBlks := hj.trans (by decide)
  rw [← X.blocks j hj', Vol.ptr_of_lt hj', Vol.blkSlot, if_pos hj, W.slot_addr]

theorem count_direct : ∀ {m : ℕ}, m ≤ sfsNdirect →
    Nat.count (n.addrs · ≠ 0) m = min m (blocksOf n.size) := by
  intro m hm
  induction m with
  | zero => rw [Nat.count_zero, Nat.zero_min]
  | succ m ih =>
    rw [Nat.count_succ, ih (by omega)]
    by_cases h : n.addrs m ≠ 0
    · rw [if_pos h]
      have := (X.direct W hm).mp h
      omega
    · rw [if_neg h]
      have := (X.direct W hm).not.mp h
      omega

theorem entry {j e : ℕ} (hj1 : sfsNdirect ≤ j) (hj2 : j < sfsNdirect + sfsNindirect)
    (he : e < ptrsPerBlk) (h0 : n.addrs j ≠ 0) :
    (d.buf (n.addrs j)).le (4 * e) 4 ≠ 0 ↔
    sfsNdirect + (j - sfsNdirect) * ptrsPerBlk + e < blocksOf n.size := by
  obtain ⟨k, hk1, hk2, rfl, rfl⟩ := entry_of_indir hj1 hj2 he
  have hk : sfsNdirect + (indirIndex k - sfsNdirect) * ptrsPerBlk + indirOfs k = k := by
    unfold indirIndex indirOfs sfsNdirect ptrsPerBlk at *
    omega
  rw [← W.slot_entry h0, hk, ← X.blocks k hk2, Vol.ptr_of_lt hk2, Vol.blkSlot,
    if_neg (Nat.not_lt.mpr hk1)]

theorem counts_iff : Counts d n ↔ n.size ≤ (sfsNdirect + ptrsPerBlk) * bdevBlkSize := by
  have hsize : n.size ≤ (sfsNdirect + ptrsPerBlk) * bdevBlkSize ↔
      blocksOf n.size ≤ sfsNdirect + ptrsPerBlk := by
    unfold blocksOf bdevBlkSize sfsNdirect ptrsPerBlk
    omega
  have hmax : blocksOf n.size ≤ sfsMaxBlks := by
    have := X.size
    unfold blocksOf sfsMaxFileSize sfsMaxBlks bdevBlkSize sfsNdirect sfsNindirect ptrsPerBlk at *
    omega
  rw [hsize, Counts, X.count_direct W le_rfl]
  constructor
  · rintro (⟨heq, -⟩ | ⟨-, hroom, -⟩)
    · omega
    · omega
  · intro hle
    rcases Nat.le_total (blocksOf n.size) sfsNdirect with h12 | h12
    · refine .inl ⟨by omega, fun j h1 h2 => not_not.mp ((X.indir j h1 h2).not.mpr ?_)⟩
      rw [Nat.not_lt]
      exact h12.trans (Nat.le_add_right ..)
    · rcases Nat.eq_or_lt_of_le h12 with heq | hlt
      · refine .inl ⟨by omega, fun j h1 h2 => not_not.mp ((X.indir j h1 h2).not.mpr ?_)⟩
        rw [Nat.not_lt, ← heq]
        exact Nat.le_add_right ..
      · have hfirst := (X.indir sfsNdirect le_rfl (by decide)).mpr (by simpa using hlt)
        refine .inr ⟨by omega, by omega, sfsNdirect, le_rfl, by decide, hfirst,
          fun j h1 h2 hne => ?_,
          fun e h1 h2 => ?_⟩
        · obtain rfl : j = sfsNdirect + 1 := by
            unfold sfsNindirect at h2
            omega
          refine not_not.mp ((X.indir _ h1 h2).not.mpr ?_)
          rw [Nat.not_lt, Nat.add_sub_cancel_left, Nat.one_mul]
          exact hle
        · refine not_not.mp ((X.entry W le_rfl (by decide) h2 hfirst).not.mpr ?_)
          rw [Nat.sub_self, Nat.zero_mul]
          omega

end

end ExactBlocks

/-- A file that needs the second indirect block: the loop over the first one does not end with it.
-/
theorem sfsDeleteInode_overruns (W : Whole sb s.data i n) (X : ExactBlocks sb s.data i n)
    (hl : n.nlink = 0) (hjr : sb.bmapBlks + 3 ≤ journalSize) (hc : s.ctl.Begun)
    (hA : ∀ t, s.ctl.avail t = true) (hnext : ∀ b, s.data.next b = none)
    (hsize : (sfsNdirect + ptrsPerBlk) * bdevBlkSize < n.size) :
    sfsDeleteInode sb i s = .error (.wild "indirect") := by
  have hno : ¬ Fails s.ctl.avail := fun ⟨t, ht⟩ => by simp [hA t] at ht
  have hblocks : sfsNdirect + ptrsPerBlk < blocksOf n.size := by
    rw [lt_blocksOf, Nat.mul_comm]
    exact hsize
  have hdirects : directs i n ∅ sfsNdirect ≤ sfsNdirect := by
    rw [(Cut.refl W).directs_eq W.cached]
    exact Nat.count_le _
  have hmono : ∀ m ≤ sfsNdirect, directs i n ∅ m ≤ sfsNdirect := fun m hm =>
      (directs_mono hm).trans hdirects
  have hfirst : n.addrs sfsNdirect ≠ 0 := (X.indir _ le_rfl (by decide)).mpr (by
    rw [Nat.sub_self, Nat.zero_mul, Nat.add_zero]
    omega)
  refine Prog.wp_traps (wp_sfsDeleteInode W hjr (Cut.refl W)
    (Ctl.Txn.start (c := s.ctl) hc.busy hc.held hc.logged (.inl (hc.pages.untorn hno)))
    (fun hEF => hno hEF.1)
    (fun j _ _ _ _ _ _ => ⟨hnext _, rfl⟩) (fun _ hnone => ?_) hl (fun F' d' c' hemp _ _ => ?_)
    (fun hA' => absurd hA' hno))
  · exact absurd ((hnone sfsNdirect le_rfl (by decide)).resolve_left (Set.notMem_empty _)) hfirst
  · cases hemp with
    | direct hm hcount =>
      have := hmono _ hm
      omega
    | indirect _ _ _ _ _ _ hroom => omega

variable {K size nlink : ℕ}

theorem Solo.whole (hK : K ≤ sfsMaxBlks) :
    Whole mkfsSb (Solo.data K size nlink) 2 (Solo.inode K size nlink) :=
  ⟨rfl, rfl, (Solo.used_iff 2).mpr rfl, Solo.sound hK⟩

theorem Solo.exactBlocks (hK : K ≤ sfsMaxBlks) (hsize : blocksOf size = K) :
    ExactBlocks mkfsSb (Solo.data K size nlink) 2 (Solo.inode K size nlink) where
  size := by
    show size ≤ sfsMaxFileSize
    have h1 := le_blocksOf size
    rw [hsize] at h1
    exact h1.trans (by rw [sfsMaxFileSize, Nat.mul_comm]; exact Nat.mul_le_mul_right _ hK)
  blocks k hk := by
    show _ ↔ k < blocksOf size
    rw [hsize, Vol.ptr_of_lt hk, Vol.blkSlot]
    split
    · rw [Solo.slot_addr, Solo.addrs_direct ‹_›]
    · rw [Solo.slot_entry (Nat.not_lt.mp ‹_›) hk hK, Solo.entry_ne]
  indir j h1 h2 := by
    show Solo.addrs K j ≠ 0 ↔ _ < blocksOf size
    rw [hsize, Solo.addrs_indirect h1 h2]

theorem Solo.begun (K size nlink : ℕ) (A : ℕ → Bool) : (Solo.fs K size nlink A).ctl.Begun :=
  ⟨rfl, rfl, rfl, fun _ => .inl rfl⟩

/-- The same file system, where other allocations succeed from now on. -/
def Fs.withAvail (s : Fs) (A : ℕ → Bool) : Fs := { s with ctl := { s.ctl with avail := A } }

/-- A call can be made, with allocations that succeed as `A` says.  The count of what the inode has
now comes out, and no allocation fails while an indirect block is locked: none fails at all, or the
bitmap blocks for the entries are in memory.  An allocation that fails leaves no page with only some
of its headers. -/
structure Retryable (sb : SbInfo) (i : Inum) (A : ℕ → Bool) (s : Fs) : Prop where
  whole : ∀ t, A t = false → s.ctl.made t = 0
  counts : ∀ n, s.data.icache i = some n → Counts s.data n
  entries : (∀ t, A t = true) ∨ ∀ n j e, s.data.icache i = some n → sfsNdirect ≤ j →
    j < sfsNdirect + sfsNindirect →
    n.addrs j ≠ 0 → e < ptrsPerBlk → (s.data.buf (n.addrs j)).le (4 * e) 4 ≠ 0 →
    0 < s.ctl.ref (sb.bmapBlk ((s.data.buf (n.addrs j)).le (4 * e) 4))

/-- A call that fails. -/
def FailedTry (sb : SbInfo) (i : Inum) (s s' : Fs) : Prop :=
  ∃ A, Retryable sb i A s ∧ sfsDeleteInode sb i (s.withAvail A) = .ok (.nomem, s')

/-- No lock is held, and no reference but those of the transaction. -/
structure LetGo (s₀ s : Fs) : Prop where
  held : s.ctl.held = []
  refs : ∀ b, s.ctl.ref b = s₀.ctl.ref b + s.ctl.logged.count b

/-- The state between two calls.  A block of the inode is where it was and in use, or in no slot and
free. -/
structure HalfDeleted (sb : SbInfo) (s₀ : Fs) (i : Inum) (s : Fs) : Prop extends LetGo s₀ s where
  pages : s.ctl.Unbroken
  mine : ∀ σ, Slot.Mine i σ → (s₀.data.vol sb).slot σ ≠ 0 →
    ((s.data.vol sb).slot σ = (s₀.data.vol sb).slot σ ∧ s.data.bmapBit sb
    ((s₀.data.vol sb).slot σ) = true) ∨
    ((s.data.vol sb).slot σ = 0 ∧ s.data.bmapBit sb ((s₀.data.vol sb).slot σ) = false)
  others : ∀ b, sb.HasBit b → (∀ σ, Slot.Mine i σ → (s₀.data.vol sb).slot σ ≠ b) →
    s.data.bmapBit sb b = s₀.data.bmapBit sb b
  inode : s.data.buf sfsInodeBmapBlk = s₀.data.buf sfsInodeBmapBlk

/-- The same in terms of the slots that are emptied. -/
structure TryInv (sb : SbInfo) (s₀ : Fs) (i : Inum) (n : Inode) (F : Set Slot) (s : Fs) : Prop where
  cut : Cut sb s₀.data i n F s.data
  closed : Closed sb s₀.data i F
  mine : ∀ σ ∈ F, Slot.Mine i σ
  pages : s.ctl.Unbroken
  ctl : ∃ B, s.ctl.Txn (fun _ => True) s.ctl.avail s₀.ctl.ref [] B (deleteSet sb n)

section retry

variable {s₀ : Fs} {F : Set Slot}

theorem Cut.slot_eq {d₀ : Data} (hcut : Cut sb d₀ i n F d) (W : Whole sb d₀ i n)
    (hcl : Closed sb d₀ i F) {σ : Slot} (hσ : σ.Mine i) (h0 : (d₀.vol sb).slot σ ≠ 0) :
    (σ ∈ F → (d.vol sb).slot σ = 0) ∧ (σ ∉ F → (d.vol sb).slot σ = (d₀.vol sb).slot σ) := by
  obtain ⟨a, ha, haddr⟩ := hcut.ino
  have hino : (d.vol sb).ino i = { n.toDInode with addrs := a } := by
    rw [Data.vol_ino W.used.1, Data.ino_of_cached ha W.valid]
  cases σ with
  | addr i' j =>
    obtain ⟨rfl, -⟩ := hσ
    rw [W.slot_addr, Vol.slot, hino]
    exact haddr j
  | entry i' k =>
    obtain ⟨rfl, hk1, hk2⟩ := hσ
    have hne := W.indir_of_entry_ne h0
    have hslot : (d.vol sb).slot (.entry i' k) = if a (indirIndex k) = 0 then 0
        else (d.buf (a (indirIndex k))).le (4 * indirOfs k) 4 := by
      rw [Vol.slot, hino]
      rfl
    rw [hslot]
    by_cases hF : Slot.addr i' (indirIndex k) ∈ F
    · rw [if_pos ((haddr _).1 hF)]
      exact ⟨fun _ => rfl, fun hno => absurd (hcl k hk1 hk2 hF h0) hno⟩
    · rw [(haddr _).2 hF, if_neg hne]
      exact hcut.entry k hk1 hk2 hne

theorem TryInv.halfDeleted (h : TryInv sb s₀ i n F s) (W : Whole sb s₀.data i n) :
    HalfDeleted sb s₀ i s where
  held := h.ctl.choose_spec.held
  refs b := by
    have := h.ctl.choose_spec.refs b
    simpa using this
  pages := h.pages
  mine σ hσ h0 := by
    have hlive := W.live hσ h0
    have hbits := h.cut.bits _ hlive.1.hasBit
    obtain ⟨hin, hout⟩ := h.cut.slot_eq W h.closed hσ h0
    by_cases hF : σ ∈ F
    · refine .inr ⟨hin hF, Bool.eq_false_iff.mpr fun hbit => ?_⟩
      exact (hbits.mp hbit).2 σ hF rfl
    · refine .inl ⟨hout hF, hbits.mpr ⟨hlive.2, fun τ hτ he => hF ?_⟩⟩
      rwa [W.inj hσ (h.mine τ hτ) h0 he.symm]
  others b hb hno := by
    rw [Bool.eq_iff_iff, h.cut.bits b hb]
    exact and_iff_left fun σ hσ => hno σ (h.mine σ hσ)
  inode := h.cut.inodeBmap

theorem TryInv.start (W : Whole sb s₀.data i n) (hc : s₀.ctl.Begun) : TryInv sb s₀ i n ∅ s₀ where
  cut := .refl W
  closed _ _ _ hmem := absurd hmem (Set.notMem_empty _)
  mine _ hmem := absurd hmem (Set.notMem_empty _)
  pages := hc.pages
  ctl := ⟨∅, .start hc.busy hc.held hc.logged (.inr trivial)⟩

theorem Ctl.Txn.rebase {E E' : Trap → Prop} {A A' : ℕ → Bool} {p : Blk → ℕ} {h : List Blk}
    {B S : Finset Blk} {c : Ctl} (hc : c.Txn E A p h B S) (hp : c.Untorn A') :
    ({ c with avail := A' } : Ctl).Txn E' A' p h c.logged.toFinset S :=
  { hc with
    avail := rfl
    pages := .inl hp
    base := fun _ hb => List.mem_toFinset.mp hb }

theorem Retryable.not_entryFails {A : ℕ → Bool} (hA : Retryable sb i A s) (h : TryInv sb s₀ i n F s)
    (W : Whole sb s₀.data i n) :
    ¬ EntryFails sb s₀.data i F A s₀.ctl.ref s.ctl.logged.toFinset := by
  rintro ⟨⟨t, ht⟩, k, hF, hk1, hk2, h0, hp, hB⟩
  rcases hA.entries with hall | hcached
  · simp [hall t] at ht
  obtain ⟨a, ha, haddr⟩ := h.cut.ino
  have hne := W.indir_of_entry_ne h0
  have hFa : Slot.addr i (indirIndex k) ∉ F := fun hmem => hF (h.closed k hk1 hk2 hmem h0)
  have hval := (h.cut.entry k hk1 hk2 hne).2 hF
  have hidx : a (indirIndex k) = n.addrs (indirIndex k) := (haddr _).2 hFa
  have hpos := hcached { n with addrs := a } (indirIndex k) (indirOfs k) ha (Vol.indirIndex_ge k)
    (Vol.indirIndex_lt hk2) (hidx.trans_ne hne) (indirOfs_lt k)
  replace hpos : (s.data.buf (a (indirIndex k))).le (4 * indirOfs k) 4 ≠ 0 →
    0 < s.ctl.ref (sb.bmapBlk ((s.data.buf (a (indirIndex k))).le (4 * indirOfs k) 4)) := hpos
  rw [hidx, hval] at hpos
  have href := (h.halfDeleted W).refs (sb.bmapBlk ((s₀.data.vol sb).slot (.entry i k)))
  have hcount : s.ctl.logged.count (sb.bmapBlk ((s₀.data.vol sb).slot (.entry i k))) = 0 :=
    List.count_eq_zero.mpr fun hmem => hB (List.mem_toFinset.mpr hmem)
  have := hpos h0
  omega

theorem TryInv.next {A : ℕ → Bool} (h : TryInv sb s₀ i n F s) (W : Whole sb s₀.data i n)
    (hl : n.nlink = 0) (hjr : sb.bmapBlks + 3 ≤ journalSize) (hA : Retryable sb i A s) :
    wp (sfsDeleteInode sb i) (fun e s' => (e = .nomem ∧ Fails A ∧ ∃ F', TryInv sb s₀ i n F' s') ∨
      (e = .ok ∧ FreedAll sb s₀.data i s'.data ∧ LetGo s₀ s'))
        (fun _ => False) (s.withAvail A) := by
  obtain ⟨B, hc⟩ := h.ctl
  obtain ⟨a, ha, -⟩ := h.cut.ino
  have C : CountsOn sb s₀.data i n F := (h.cut.counts_iff ha).mp (hA.counts _ ha)
  refine wp_sfsDeleteInode W hjr h.cut (hc.rebase ⟨h.pages, hA.whole⟩) (hA.not_entryFails h W)
    (fun j hj1 hj2 hF hne _ hgt => absurd C.room (Nat.not_le.mpr hgt)) (fun hlt hnoindir => ?_)
    hl (fun F' d' c' hemp hdel hc' => .inr ⟨rfl, ?_, hc'.held, fun b => by simpa using hc'.refs b⟩)
    (fun hfail F' d' c' hF' hcut' hc' => .inl ⟨rfl, hfail, F', hcut', ?_, ?_,
      (hc'.pages.resolve_right id).1, _, hc'.avail.symm ▸ { hc' with pages := .inr trivial }⟩)
  · obtain ⟨j, hj1, hj2, hF, hne⟩ := C.some hlt
    exact (hnoindir j hj1 hj2).elim hF hne
  · exact hdel.freedAll (fun σ hσ => (hemp.mine hσ).elim (h.mine σ) id)
      (C.allEmptied W h.closed hemp)
  · rcases hF' with htried | hemp
    · exact fun k hk1 hk2 hmem h0 =>
        htried.sub (h.closed k hk1 hk2 (htried.indir _ (Vol.indirIndex_ge k) hmem) h0)
    · exact fun k hk1 hk2 _ h0 => C.allEmptied W h.closed hemp (.entry i k) ⟨rfl, hk1, hk2⟩ h0
  · rcases hF' with htried | hemp
    · exact fun σ hσ => (htried.mine σ hσ).elim (h.mine σ) id
    · exact fun σ hσ => (hemp.mine hσ).elim (h.mine σ) id

end retry

/-- A file of 13 blocks.  The block of the bitmap is in memory. -/
def Solo.bmapFs : Fs :=
  { Solo.fs 13 6656 0 fun _ => true with
    ctl := { Ctl.idle true fun _ => true with
      ref := fun b => if b = 36 then 1 else 0
      headers := fun q => if q = 4 then nBlksPerPage else 0 } }

/-- A call for it without any more memory. -/
def Solo.triedFs : Fs := (sfsDeleteInode mkfsSb 2).final (Solo.bmapFs.withAvail fun _ => false)

/-- What the call leaves of the inode. -/
def Solo.triedInode : Inode := (Solo.triedFs.data.icache 2).getD (Solo.inode 0 0 0)

theorem Solo.retryable_bmapFs : Retryable mkfsSb 2 (fun _ => false) Solo.bmapFs := by
  refine ⟨fun _ _ => rfl, fun n h => ?_, .inr fun n j e h h1 h2 hne he h0 => ?_⟩
  · obtain rfl : Solo.inode 13 6656 0 = n := Option.some.inj h
    have hothers : ∀ j < 14, 12 ≤ j → j ≠ 12 → Solo.addrs 13 j = 0 := by decide
    have hempty : ∀ e < 128, 1 ≤ e → (Solo.buf 13 336).le (4 * e) 4 = 0 := by decide +kernel
    exact .inr ⟨by decide, by decide, 12, by decide, by decide, by decide,
      fun j h1 h2 => hothers j h2 h1,
      fun e h1 h2 => hempty e h2 h1⟩
  · obtain rfl : Solo.inode 13 6656 0 = n := Option.some.inj h
    have hcached : ∀ j < 14, 12 ≤ j → Solo.addrs 13 j ≠ 0 → ∀ e < 128,
        (Solo.buf 13 (Solo.addrs 13 j)).le (4 * e) 4 ≠ 0 →
        mkfsSb.bmapBlk ((Solo.buf 13 (Solo.addrs 13 j)).le (4 * e) 4) = 36 := by decide +kernel
    have hblk := hcached j h2 h1 hne e he h0
    exact Nat.one_pos.trans_eq (if_pos hblk).symm

theorem Solo.retryable_triedFs : Retryable mkfsSb 2 (fun _ => true) Solo.triedFs := by
  refine ⟨fun _ h => Bool.noConfusion h, fun n h => ?_, .inl fun _ => rfl⟩
  obtain rfl : Solo.triedInode = n := by rw [Solo.triedInode, h]; rfl
  have hothers : ∀ j < 14, 12 ≤ j → j ≠ 12 → Solo.triedInode.addrs j = 0 := by decide +kernel
  have hempty : ∀ e < 128, 13 ≤ e → (Solo.triedFs.data.buf (Solo.triedInode.addrs 12)).le (4 * e)
      4 = 0 := by
    decide +kernel
  have hcount : Nat.count (Solo.triedInode.addrs · ≠ 0) sfsNdirect = 0 := by decide +kernel
  have hsize : blocksOf Solo.triedInode.size = 13 := by decide +kernel
  rw [Counts, hcount, hsize]
  exact .inr ⟨by decide, by decide, 12, by decide, by decide, by decide +kernel,
    fun j h1 h2 => hothers j h2 h1,
    fun e h1 h2 => hempty e h2 h1⟩

/-- A write in a transaction of its own, with `m` tries for the commit. -/
def writeTxn (sb : SbInfo) (m : ℕ) (i : Inum) (bytes : List UInt8) (pos : ℕ) : FsM (ℕ × ℕ) := do
  jbdBeginTxn
  let r ← sfsWrite sb i bytes pos
  jbdEndTxn sb m
  pure r

/-- The call of `sfs_delete_inode`, in a transaction. -/
def deleteTxn (sb : SbInfo) (i : Inum) : FsM Err := do
  jbdBeginTxn
  sfsDeleteInode sb i

/-- A file that is open, between two transactions. -/
structure OpenForWrite (sb : SbInfo) (i : Inum) (s : Fs) : Prop where
  rep : ∃ w, FsRep sb w s.data ∧ 0 < w.ref i ∧ w.filled i
  busy : s.ctl.busy = false
  held : s.ctl.held = []
  logged : s.ctl.logged = []

/-- A write that returns, at a position in the file.  Any allocation of memory may fail. -/
def Wrote (sb : SbInfo) (i : Inum) (s s' : Fs) : Prop :=
  ∃ A m bytes pos r, (∀ n, s.data.icache i = some n → pos ≤ n.size) ∧
    writeTxn sb m i bytes pos (s.withAvail A) = .ok (r, s')

section writes

theorem OpenForWrite.begin (h : OpenForWrite sb i s) :
    jbdBeginTxn s = .ok ((), { s with ctl := { s.ctl with busy := true } }) := by
  rw [jbdBeginTxn, Prog.read_bind, if_neg (by rw [h.busy]; decide)]
  rfl

theorem Gained.of_home {w : View} (hr : FsRep sb w s.data) (hu : w.used i)
    (h : s'.home sb = s.home sb) : Gained sb i s.data s'.data := by
  refine .of_eq hr hu (fun σ hσ => hr.slot_of_home h σ (hσ.of_used (hr.used_buf hu))) fun b hb => ?_
  rw [Data.bmapBit, Data.bmapBit, buf_of_home h (not_journalBlk_of_lt hb.2)]

theorem OpenForWrite.wrote (h : OpenForWrite sb i s) (hstep : Wrote sb i s s') :
    OpenForWrite sb i s' ∧ Gained sb i s.data s'.data := by
  obtain ⟨A, m, bytes, pos, r, hpos, hrun⟩ := hstep
  obtain ⟨w, hr, href, hfill⟩ := h.rep
  obtain ⟨n, hn, hcached⟩ := hr.cached_of_ref href
  have h' : OpenForWrite sb i (s.withAvail A) := ⟨h.rep, h.busy, h.held, h.logged⟩
  rw [writeTxn, Prog.bind_of_ok h'.begin] at hrun
  obtain ⟨r1, s1, hwrite, hend⟩ := Prog.bind_ok.mp hrun
  obtain ⟨u, s2, hcommit, hret⟩ := Prog.bind_ok.mp hend
  obtain rfl : s2 = s' := congrArg Prod.snd (Except.ok.inj hret)
  have hc : ({ s.ctl with avail := A, busy := true } : Ctl).At (fun _ => True) A s.ctl.ref [] 0 :=
    (Ctl.Txn.start (S := ∅) (c := { s.ctl with avail := A, busy := true })
      rfl h.held h.logged (.inr trivial)).toAt
  have key : wp (sfsWrite sb i bytes pos)
      (fun _ s1 => (∃ w, FsRep sb w s1.data ∧ 0 < w.ref i ∧ w.filled i ∧ w.used i) ∧
      Gained sb i s.data s1.data ∧ s1.ctl.held = []) (fun _ => True)
      ⟨s.data, { s.ctl with avail := A, busy := true }, s.dev⟩ := by
    rw [sfsWrite, wp_bind]
    refine wp_writeData trivial (fun _ => trivial) hr href hfill
      ((hpos n hn).trans (hr.file_size hn).ge)
      (fun _ => trivial) hc fun l rest D M d' c' _ _ hgain hr' _ hc' => ?_
    obtain ⟨L, hc'⟩ := hc'
    have hpost := And.intro (⟨_, hr', href, hfill, hcached.used⟩ :
      ∃ w, FsRep sb w d' ∧ 0 < w.ref i ∧ w.filled i ∧ w.used i) (And.intro hgain hc'.held)
    split
    · exact hpost
    · exact hpost
  obtain ⟨⟨w1, hr1, href1, hfill1, hu1⟩, hgain1, hheld1⟩ := Prog.wp_ok key hwrite
  obtain ⟨hheld2, hlog2, hbusy2, hhome⟩ := jbdEndTxn_ok hheld1 hcommit
  have hr2 := hr1.home hhome
  exact ⟨⟨⟨w1, hr2, href1, hfill1⟩, hbusy2, hheld2, hlog2⟩, hgain1.trans
    (.of_home hr1 hu1 hhome) hr2 hu1⟩

theorem OpenForWrite.writes {s₀ : Fs} (h : OpenForWrite sb i s₀)
    (hrun : Relation.ReflTransGen (Wrote sb i) s₀ s) :
    OpenForWrite sb i s ∧ Gained sb i s₀.data s.data := by
  induction hrun with
  | refl =>
    obtain ⟨w, hr, href, -⟩ := h.rep
    exact ⟨h, .refl hr (hr.cached_of_ref href).choose_spec.2.used⟩
  | @tail s s' _ hstep ih =>
    obtain ⟨h', hgain⟩ := ih.1.wrote hstep
    obtain ⟨w, hr, href, -⟩ := h'.rep
    exact ⟨h', ih.2.trans hgain hr (hr.cached_of_ref href).choose_spec.2.used⟩

theorem OpenForWrite.whole (h : OpenForWrite sb i s) (hn : s.data.icache i = some n) :
    Whole sb s.data i n := by
  obtain ⟨w, hr, -, -⟩ := h.rep
  have hc := hr.cached i n hn
  exact ⟨hn, hc.valid, hr.used_buf hc.used, hr.sound⟩

theorem OpenForWrite.deleteTxn_run (h : OpenForWrite sb i s) (nx : Blk → Option Blk) :
    deleteTxn sb i ((s.withAvail fun _ => true).withNext nx) = sfsDeleteInode sb i
      (Fs.withNext { s with ctl := { s.ctl with avail := fun _ => true, busy := true } } nx) := by
  have hbegin : jbdBeginTxn ((s.withAvail fun _ => true).withNext nx) =
      .ok ((), Fs.withNext { s with ctl := { s.ctl with avail := fun _ => true, busy := true } }
        nx) := by
    show (if s.ctl.busy then _ else _ : FsM Unit) _ = _
    rw [if_neg (by rw [h.busy]; decide)]
    rfl
  rw [deleteTxn, Prog.bind_of_ok hbegin]

end writes

theorem Ctl.At.unbroken_jbdEndTxn {A : ℕ → Bool} {p : Blk → ℕ} {L m : ℕ} {u : Unit}
    (hc : s.ctl.At (· ≠ blkNotFound) A p [] L) (hA : ∀ t, A t = true)
    (hroom : s.ctl.logged.length < journalSize) (hj : ∀ b ∈ s.ctl.logged, ¬ sb.JournalBlk b)
    (h : jbdEndTxn sb (m + 1) s = .ok (u, s')) : s'.ctl.Unbroken := by
  have key : wp (jbdEndTxn sb (m + 1)) (fun _ s' => s'.ctl.Unbroken) (· ≠ blkNotFound) s :=
    wp_jbdEndTxn hA hc hroom hj fun _ _ _ _ hp _ _ _ => (hp.resolve_right fun h => h rfl).1
  exact Prog.wp_ok key h

/-- The file system between two transactions. -/
def Solo.quiet (K size nlink : ℕ) : Fs :=
  ⟨Solo.data K size nlink, .idle false fun _ => true, ⟨Solo.buf K, []⟩⟩

theorem Solo.openForWrite (hK : K ≤ sfsMaxBlks) (hsize : size ≤ K * bdevBlkSize) :
    OpenForWrite mkfsSb 2 (Solo.quiet K size nlink) :=
  ⟨⟨Solo.view K size nlink, Solo.fsRep hK hsize, Nat.one_pos, rfl⟩, rfl, rfl, rfl⟩

/-- A file of one block, with a byte written behind the block. -/
def Solo.grownFs : Fs := (sfsWrite mkfsSb 2 [65] 512).final (Solo.fs 1 512 0 fun _ => true)

/-- The same after the transaction. -/
def Solo.writtenFs : Fs := (jbdEndTxn mkfsSb 1).final Solo.grownFs

/-- The inode after that. -/
def Solo.writtenInode : Inode := (Solo.writtenFs.data.icache 2).getD (Solo.inode 0 0 0)

theorem Solo.wrote_writtenFs :
    Wrote mkfsSb 2 (Solo.quiet 1 512 0) Solo.writtenFs ∧ Solo.writtenFs.ctl.Unbroken := by
  have hr : FsRep mkfsSb (Solo.view 1 512 0) (Solo.data 1 512 0) :=
      Solo.fsRep (by decide) (by decide)
  have hwrite : sfsWrite mkfsSb 2 [65] 512 (Solo.fs 1 512 0 fun _ => true) =
      .ok ((1, 513), Solo.grownFs) :=
    Prog.run_of_result (by decide +kernel)
  have hend : jbdEndTxn mkfsSb 1 Solo.grownFs = .ok ((), Solo.writtenFs) :=
      Prog.run_of_result (by decide +kernel)
  have hat : ∃ L, Solo.grownFs.ctl.At (· ≠ blkNotFound) (fun _ => true) (fun _ => 0) [] L :=
    Prog.wp_ok (Q := fun _ s => ∃ L, s.ctl.At (· ≠ blkNotFound) (fun _ => true) (fun _ => 0) [] L)
      (wp_sfsWrite (E := (· ≠ blkNotFound)) (by decide) (fun _ => rfl)
        hr Nat.one_pos rfl (by decide)
        (fun _ => by decide) ⟨rfl, rfl, rfl, fun _ => .inl rfl⟩ fun _ _ _ _ _ _ _ _ _ hc =>
        hc) hwrite
  obtain ⟨L, hc⟩ := hat
  refine ⟨⟨fun _ => true, 1, [65], 512, (1, 513), fun n hn => ?_, ?_⟩, ?_⟩
  · obtain rfl : Solo.inode 1 512 0 = n := Option.some.inj hn
    exact Nat.le_refl 512
  · have hbegin : jbdBeginTxn ((Solo.quiet 1 512 0).withAvail fun _ => true) =
        .ok ((), Solo.fs 1 512 0 fun _ => true) := rfl
    rw [writeTxn, Prog.bind_of_ok hbegin, Prog.bind_of_ok hwrite, Prog.bind_of_ok hend]
    rfl
  · have hroom : Solo.grownFs.ctl.logged.length < journalSize := by decide +kernel
    have hj : ∀ b ∈ Solo.grownFs.ctl.logged,
        ¬ (mkfsSb.journalStart ≤ b ∧ b < mkfsSb.dataStart) := by decide +kernel
    exact hc.unbroken_jbdEndTxn (fun _ => rfl) hroom hj hend

end Osv
