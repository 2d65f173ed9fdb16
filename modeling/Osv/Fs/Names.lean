import Osv.Fs.Insert

/-!
# Names in directories

What `fs_get_inode`, `sfs_lookup`, and `create_inode_in_dir` of `sfs_create` and
`sfs_mkdir` do to the view of a file system.  Each has one outcome for success, with the
view after it, and one for an error, where files, allocated inodes and the numbers of
references are as they were.

A run may end without a result here: with the journal full, or after a failed
allocation of memory with a lock released twice or with an inode freed that has a
reference.
-/

namespace Osv

open Prog (wp wp_bind wp_pure)

/-- The assertion of `fs_free_inode`. -/
def inodeInUse : Trap := .kassert "inode->i_ref == 0"

/-- A transaction is open and nothing is locked. -/
def Ctl.OpenFor (E : Trap → Prop) (A : ℕ → Bool) (p : Blk → ℕ) (c : Ctl) : Prop :=
  ∃ L, c.At E A p [] L

/-- A transaction is open and nothing is locked, and no page has or will have only some of its
headers. -/
def Ctl.Open (A : ℕ → Bool) (p : Blk → ℕ) (c : Ctl) : Prop := c.OpenFor (fun _ => False) A p

theorem Ctl.OpenFor.weaken {E E' : Trap → Prop} {A : ℕ → Bool} {p : Blk → ℕ} {c : Ctl}
    (hc : c.OpenFor E A p) (hE : E blkNotFound → E' blkNotFound) : c.OpenFor E' A p :=
  hc.imp fun _ h => h.weaken hE

/-- The run may end with the journal full, or on the two paths where a failed allocation of memory
is not handled. -/
structure MayFail (A : ℕ → Bool) (E : Trap → Prop) : Prop where
  full : E journalFull
  twice : Fails A → E lockNotHeld
  inUse : Fails A → E inodeInUse

variable {sb : SbInfo} {w : View} {A : ℕ → Bool} {p : Blk → ℕ} {L : ℕ}
variable {d : Data} {c : Ctl} {v : Dev} {E : Trap → Prop} {i : Inum} {n : Inode}

/-! ## Inodes on disk -/

theorem numInodes_div (sb : SbInfo) : 8 * (sb.numInodes / 8) = sb.numInodes :=
  Nat.mul_div_cancel' sb.inodes_dvd

theorem wp_initDiskInode {ftype mode index : ℕ} {Q : Except Err Inum → Fs → Prop}
    (hbit : (d.buf sfsInodeBmapBlk).bit index = false) (hc : c.At E A p [sfsInodeBmapBlk] L)
    (hE : E journalFull)
    (hok : ∀ c', c'.OpenFor E A p → Q (.ok (index + 1)) ⟨d.newIno (index + 1) ftype mode, c', v⟩)
    (herr : Fails A → ∀ c', c'.OpenFor E A p → Q (.error .nomem) ⟨d, c', v⟩) :
    wp (initDiskInode ftype mode index) Q E
      ⟨d.setBuf sfsInodeBmapBlk ((d.buf sfsInodeBmapBlk).setBit index), c, v⟩ := by
  have hne : inumToBlk (index + 1) ≠ sfsInodeBmapBlk := inumToBlk_ne_inodeBmap _
  rw [initDiskInode, wp_bind]
  refine wp_bdevGetBlk (by simpa using hne) hc (fun c1 h1 => ?_) (fun _ hA c1 h1 => ?_)
  · rw [if_pos rfl, wp_bind]
    refine wp_bdevReleaseBlk (by simp) h1 fun c2 h2 => ?_
    rw [List.erase_cons_tail (by simpa using hne), List.erase_cons_head] at h2
    rw [wp_bind]
    refine wp_logWrite h2 (.inr hE) fun c3 h3 => ?_
    rw [wp_bind]
    exact wp_release_head h3 fun c4 h4 => hok c4 ⟨_, h4⟩
  · rw [if_neg (by decide), wp_bind]
    refine wp_bmapFreeElement_set hbit h1 (.inr hE) fun c2 h2 => ?_
    rw [wp_bind]
    exact wp_release_head h2 fun c3 h3 => herr hA c3 ⟨_, h3⟩

theorem wp_allocDiskInode {ftype mode : ℕ} {Q : Except Err Inum → Fs → Prop} (hc : c.OpenFor E A p)
    (hE : E journalFull)
    (hok : ∀ i c', sb.IsInum i → (d.buf sfsInodeBmapBlk).bit (i - 1) = false → c'.OpenFor E A p →
      Q (.ok i) ⟨d.newIno i ftype mode, c', v⟩)
    (herr : ∀ e c', e = .nomem ∨ e = .nores → c'.OpenFor E A p → Q (.error e) ⟨d, c', v⟩) :
    wp (allocDiskInode sb ftype mode) Q E ⟨d, c, v⟩ := by
  obtain ⟨L, hc⟩ := hc
  rw [allocDiskInode, wp_bind]
  refine wp_bdevGetBlk (by simp) hc (fun c1 h1 => ?_)
    (fun _ hA c1 h1 => herr _ c1 (.inl rfl) ⟨L, h1⟩)
  rw [if_pos rfl, wp_bind]
  refine wp_bmapAllocElement h1 (.inr hE) (fun index hlt hbit c2 h2 => ?_) (fun hall => ?_)
  · rw [numInodes_div] at hlt
    exact wp_initDiskInode hbit h2 hE (fun c3 h3 => hok _ c3 ⟨Nat.succ_pos _, hlt⟩ hbit h3)
      fun _ c3 h3 => herr _ c3 (.inl rfl) h3
  · show wp (bdevReleaseBlk _ >>= _) Q E _
    rw [wp_bind]
    exact wp_release_head h1 fun c2 h2 => herr _ c2 (.inr rfl) ⟨L, h2⟩

theorem wp_freeDiskInode {Q : Err → Fs → Prop} (hi : i ≠ 0) (hp : 0 < p sfsInodeBmapBlk)
    (hc : c.OpenFor E A p) (hE : E journalFull) (hok : ∀ c', c'.OpenFor E A p →
      Q .ok ⟨d.setBuf sfsInodeBmapBlk ((d.buf sfsInodeBmapBlk).clearBit (i - 1)), c', v⟩) :
    wp (freeDiskInode i) Q E ⟨d, c, v⟩ := by
  obtain ⟨L, hc⟩ := hc
  rw [freeDiskInode, wp_kassert_bind (by simp [hi]), wp_bind]
  refine wp_bdevGetBlk (by simp) hc (fun c1 h1 => ?_) (fun h0 => absurd h0 hp.ne')
  rw [if_pos rfl, wp_bind]
  refine wp_logWrite h1 (.inr hE) fun c2 h2 => ?_
  rw [wp_bind]
  exact wp_release_head h2 fun c3 h3 => hok c3 ⟨_, h3⟩

/-! ## Inodes in memory -/

variable {Q : Except Err Unit → Fs → Prop}

theorem wp_newInode (hc : c.OpenFor E A p) (hE : Fails A → E inodeInUse)
    (hok : ∀ c', c'.OpenFor E A p →
      Q (.ok ()) ⟨d.setInode i (some ⟨⟨0, 0, 0, 0, fun _ => 0⟩, 1, false, false⟩), c', v⟩)
    (herr : Fails A → ∀ c', c'.OpenFor E A p → Q (.error .nomem) ⟨d, c', v⟩) :
    wp (newInode i) Q E ⟨d, c, v⟩ := by
  obtain ⟨L, hc⟩ := hc
  rw [newInode, wp_bind]
  refine wp_memAlloc hc (fun c1 h1 => ?_) (fun hA c1 h1 => herr hA c1 ⟨L, h1⟩)
  rw [if_pos rfl, wp_bind]
  refine wp_memAlloc h1 (fun c2 h2 => ?_) (fun hA _ _ => hE hA)
  rw [if_pos rfl, wp_bind]
  refine wp_memAlloc h2 (fun c3 h3 => ?_) (fun hA _ _ => hE hA)
  exact hok c3 ⟨L, h3⟩

theorem wp_validInode_new (hu : sb.IsInum i) (hn : d.icache i = none) (hc : c.OpenFor E A p)
    (hok : ∀ c', c'.OpenFor E A p → Q (.ok ())
    ⟨d.setInode i (some ⟨d.diskIno i, 1, true, false⟩), c', v⟩)
    (herr : Fails A → ∀ e c', e ≠ .ok → c'.OpenFor E A p → Q (.error e) ⟨d, c', v⟩) :
    wp (validInode i) Q E ⟨d.setInode i (some ⟨⟨0, 0, 0, 0, fun _ => 0⟩, 1, false, false⟩), c,
      v⟩ := by
  obtain ⟨L, hc⟩ := hc
  have hi : i ≠ 0 := Nat.pos_iff_ne_zero.mp hu.1
  set blank : Inode := ⟨⟨0, 0, 0, 0, fun _ => 0⟩, 1, false, false⟩
  have hcached : (d.setInode i (some blank)).icache i = some blank := Data.setInode_icache_self
  have htwice : ∀ o, (d.setInode i (some blank)).setInode i o = d.setInode i o := fun o => by
    rw [Data.setInode, Data.setInode, Data.setInode, Function.update_idem]
  have hback : d.setInode i none = d := by
    rw [Data.setInode, ← hn, Function.update_eq_self]
  rw [validInode, wp_bind]
  refine wp_inode hcached ?_
  rw [if_neg (by decide), wp_bind, sfsReadInode, wp_bind]
  refine wp_inode hcached ?_
  rw [wp_kassert_bind (by simp [hi]), wp_kassert_bind (by simp [blank]), wp_bind]
  refine wp_bdevGetBlk (by simp) hc (fun c1 h1 => ?_) (fun _ hA c1 h1 => ?_)
  · rw [if_pos rfl, wp_bind, Prog.wp_read, wp_bind, Osv.setInode, wp_modifyData, wp_bind]
    refine wp_release_head h1 fun c2 h2 => ?_
    rw [wp_pure, if_pos rfl, wp_pure, htwice]
    exact hok c2 ⟨L, h2⟩
  · rw [if_neg (by decide), wp_pure, if_neg (by decide), wp_bind, fsReleaseInode, fsReleaseInodeAs,
      wp_kassert_bind (by simp [Nat.pos_iff_ne_zero, hi]), wp_bind]
    refine wp_inode hcached ?_
    rw [wp_kassert_bind (by simp [blank]), if_pos (show blank.ref - 1 = 0 from rfl),
      if_neg (by simp [blank]), wp_kassert_bind (by simp), wp_modifyData, htwice, hback]
    exact herr hA _ c1 (by decide) ⟨L, h1⟩

theorem wp_fsGetInode (hr : FsRep sb w d) (hu : w.used i) (hc : c.OpenFor E A p)
    (hE : Fails A → E inodeInUse)
    (hok : ∀ d' c', FsRep sb (w.setRef i (w.ref i + 1)) d' → c'.OpenFor E A p →
    Q (.ok ()) ⟨d', c', v⟩)
    (herr : Fails A → ∀ e c', e ≠ .ok → c'.OpenFor E A p → Q (.error e) ⟨d, c', v⟩) :
    wp (fsGetInode i) Q E ⟨d, c, v⟩ := by
  rw [fsGetInode, wp_bind, Prog.wp_read]
  cases hn : d.icache i with
  | some n =>
    have hcached := hr.cached i n hn
    have href : w.ref i = n.ref := by rw [hr.ref, Data.refs, hn]
    show wp (Osv.setInode i _ >>= _) Q E _
    rw [wp_bind, Osv.setInode, wp_modifyData, validInode, wp_bind]
    refine wp_inode Data.setInode_icache_self ?_
    rw [if_pos hcached.valid, wp_pure]
    exact hok _ c (href ▸ hr.setRef hn (Nat.succ_pos _)) hc
  | none =>
    have h0 : w.ref i = 0 := by rw [hr.ref, Data.refs, hn]
    show wp (newInode i >>= _) Q E _
    rw [wp_bind]
    refine wp_newInode hc hE (fun c1 h1 => ?_) (fun hA c1 h1 => herr hA _ c1 (by decide) h1)
    refine wp_validInode_new (hr.isInum hu) hn h1 (fun c2 h2 => hok _ c2 ?_ h2) herr
    rw [h0]
    exact hr.loadInode hu hn

/-! ## Creating -/

/-- The file of a new inode. -/
def File.new (ftype mode : ℕ) : File := ⟨ftype % 256 ^ 1, mode % 256 ^ 1, 1, 0, Bytes.zero⟩

/-- The view with a new inode that has a name. -/
def View.create (w : View) (dir i m : ℕ) (name : List UInt8) (ftype mode : ℕ) : View :=
  (w.alloc i (File.new ftype mode)).setFile dir ((w.file dir).insert m i name)

theorem Harmless.newIno {name : List UInt8} {dir : Inum} {f : File} {ftype mode : ℕ}
    (hr : FsRep sb w d) (hu : w.used dir) (hi : sb.IsInum i)
    (hbit : (d.buf sfsInodeBmapBlk).bit (i - 1) = false) (h : Harmless sb name w dir d) :
    Harmless sb name (w.alloc i f) dir (d.newIno i ftype mode) := by
  have hne : dir ≠ i := fun he => hr.not_used hbit (he ▸ hu)
  have hfile : (w.alloc i f).file dir = w.file dir := Function.update_of_ne hne ..
  have hptr := hr.ptr_newIno hi hbit ftype mode hu
  refine h.imp_right fun h m hv hm => ?_
  rw [hfile] at hv
  obtain ⟨hf, hnext⟩ := h m hv hm
  refine ⟨.inl hf, fun b' hb' => ?_⟩
  rw [hptr] at hb' ⊢
  obtain ⟨h1, h2, h3⟩ := hnext b' hb'
  refine ⟨h1, h2, ?_⟩
  rw [Data.newIno_buf h2.ne_inodeBmap (h2.ne_inumToBlk hi)]
  exact h3

section create

variable {dir : Inum} {name : List UInt8} {ftype mode : ℕ} {Q : Err → Fs → Prop}
variable (hE : MayFail A E) (hr : FsRep sb w d) (hi : 0 < w.ref dir) (hname : 0 ∉ name)
variable (hharm : Harmless sb name w dir d)

include hE hr hi hname hharm in
/-- `create_inode_in_dir` from where the bitmap of inodes is pinned. -/
theorem wp_createEntry (hc : c.OpenFor E A (pin p sfsInodeBmapBlk))
    (hok : ∀ i m d' c', ¬ w.used i → (w.file dir).Vacant m →
      FsRep sb (w.create dir i m name ftype mode) d' → c'.OpenFor E A p → Q .ok ⟨d', c', v⟩)
    (herr : ∀ e d' c', e = .nomem ∨ e = .nores → FsRep sb w d' →
    c'.OpenFor E A p → Q e ⟨d', c', v⟩) :
    wp (createEntry sb dir ftype name mode) Q E ⟨d, c, v⟩ := by
  have hu := hr.used_of_ref hi
  have hout : ∀ {e : Err} {d' : Data} {c' : Ctl}, c'.OpenFor E A (pin p sfsInodeBmapBlk) →
      (∀ c', c'.OpenFor E A p → Q e ⟨d', c', v⟩) →
      wp (bdevReleaseBlkUnlocked sfsInodeBmapBlk >>= fun _ => pure e) Q E ⟨d', c', v⟩ := by
    rintro e d' c' ⟨L, hc'⟩ hQ
    rw [wp_bind]
    exact wp_bdevReleaseBlkUnlocked hc' fun c2 h2 => hQ c2 ⟨L, h2⟩
  rw [createEntry, wp_bind]
  refine wp_allocDiskInode hc hE.full (fun i c1 hinum hbit h1 => ?_)
    (fun e c1 he h1 => hout h1 fun c2 h2 => herr e d c2 he hr h2)
  have hnot := hr.not_used hbit
  have hne : dir ≠ i := fun he => hnot (he ▸ hu)
  have hr1 := hr.newIno hinum hbit ftype mode
  obtain ⟨L1, h1⟩ := h1
  show wp (allocDirent sb dir name i >>= _) Q E _
  rw [wp_bind]
  refine wp_allocDirent hr1 hi (.inl hE.full) hE.twice h1 (fun e d2 c2 L2 he hr2 h2 _ => ?_) hname
    (hharm.newIno hr hu hinum hbit) fun m d2 c2 L2 hvac hr2 h2 _ => ?_
  · rw [if_neg he.ne_ok, wp_bind]
    refine wp_freeDiskInode (Nat.pos_iff_ne_zero.mp hinum.1) (pin_pos p _) ⟨L2, h2⟩
      hE.full fun c3 h3 => ?_
    refine hout h3 fun c4 h4 => herr e _ c4 he.cases ?_ h4
    have hr3 := hr2.freeIno hinum (show w.ref i = 0 from ?_)
    · refine hr3.congr (fun i' => ⟨fun h => ⟨.inl h, fun he => hnot (he ▸ h)⟩, fun h =>
        h.1.resolve_right h.2⟩)
        (fun i' hi' => (Function.update_of_ne hi'.2 ..).symm) rfl rfl fun i' hi' hf =>
        ⟨.inl hf, fun k hm => ⟨hm, hi'.2⟩⟩
    · by_contra h0
      exact hnot (hr.cached_of_ref (Nat.pos_of_ne_zero h0)).choose_spec.2.used
  · have hfile : (w.alloc i (File.new ftype mode)).file dir = w.file dir :=
        Function.update_of_ne hne ..
    rw [if_pos rfl]
    refine hout ⟨L2, h2⟩ fun c3 h3 => hok i m d2 c3 hnot (hfile ▸ hvac) ?_ h3
    rw [View.create, ← hfile]
    exact hr2

include hE hr hi hname hharm in
theorem wp_createInodeInDir (hf : w.filled dir) (hc : c.OpenFor E A p)
    (hok : ∀ i m d' c', ((w.file dir).Lacks name ∨ Fails A) → ¬ w.used i → (w.file dir).Vacant m →
      FsRep sb (w.create dir i m name ftype mode) d' → c'.OpenFor E A p → Q .ok ⟨d', c', v⟩)
    (herr : ∀ e d' c', (e = .exist ∧ ∃ m, (w.file dir).Finds name m) ∨ e = .nomem ∨ e = .nores →
      FsRep sb w d' → c'.OpenFor E A p → Q e ⟨d', c', v⟩) :
    wp (createInodeInDir sb dir ftype name mode) Q E ⟨d, c, v⟩ := by
  have hu := hr.used_of_ref hi
  obtain ⟨L, hc⟩ := hc
  have hcreate : ∀ c', ((w.file dir).Lacks name ∨ Fails A) → c'.At E A p [] L →
      wp (bdevGetBlkUnlocked sfsInodeBmapBlk >>= fun r =>
        if r then createEntry sb dir ftype name mode else pure .nomem) Q E ⟨d, c', v⟩ := by
    intro c' hlacks hc'
    rw [wp_bind]
    refine wp_bdevGetBlkUnlocked hc' (fun c1 h1 => ?_)
      (fun _ _ c1 h1 => herr _ d c1 (.inr (.inl rfl)) hr ⟨L, h1⟩)
    exact wp_createEntry hE hr hi hname hharm ⟨L, h1⟩
      (fun i m d' c' hnot hvac hr' h' => hok i m d' c' hlacks hnot hvac hr' h')
      (fun e d' c' he => herr e d' c' (.inr he))
  rw [createInodeInDir, wp_bind]
  refine wp_searchDir hr hi (hr.size_le hu hf) hE.twice hc (fun m c1 hfind h1 => ?_)
    (fun c1 hlacks h1 => hcreate c1 (.inl hlacks) h1)
    (fun c1 hfail h1 => hcreate c1 (.inr (hfail.resolve_right (fun h => h hf))) h1)
  rw [if_pos hfind.inum_pos.ne']
  exact herr _ d c1 (.inl ⟨rfl, m, hfind⟩) hr ⟨L, h1⟩

end create

/-! ## Looking up -/

section lookup

variable {dir : Inum} {name : List UInt8}

/-- The inode of the name is in memory with one more reference, or nothing changed. -/
theorem wp_sfsLookup {Q : Except Err Inum → Fs → Prop} (hdbl : Fails A → E lockNotHeld)
    (huse : Fails A → E inodeInUse) (hr : FsRep sb w d) (hi : 0 < w.ref dir) (hf : w.filled dir)
    (hc : c.OpenFor E A p) (hused : ∀ m, (w.file dir).Finds name m →
    w.used ((w.file dir).dirent m).inum) (hok : ∀ m d' c', (w.file dir).Finds name m →
      FsRep sb (w.setRef ((w.file dir).dirent m).inum (w.ref ((w.file dir).dirent m).inum + 1)) d' →
      c'.OpenFor E A p → Q (.ok ((w.file dir).dirent m).inum) ⟨d', c', v⟩)
    (herr : ∀ e c', e ≠ .ok → (e = .notExist ∧ (w.file dir).Lacks name) ∨
    Fails A → c'.OpenFor E A p →
      Q (.error e) ⟨d, c', v⟩) : wp (sfsLookup sb dir name) Q E ⟨d, c, v⟩ := by
  have hu := hr.used_of_ref hi
  obtain ⟨L, hc⟩ := hc
  rw [sfsLookup, wp_bind]
  refine wp_searchDir hr hi (hr.size_le hu hf) hdbl hc (fun m c1 hfind h1 => ?_)
    (fun c1 hlacks h1 => herr _ c1 (by decide) (.inl ⟨rfl, hlacks⟩) ⟨L, h1⟩)
    (fun c1 hfail h1 => herr _ c1 (by decide) (.inr (hfail.resolve_right fun h => h hf)) ⟨L, h1⟩)
  rw [if_neg hfind.inum_pos.ne', wp_bind]
  exact wp_fsGetInode hr (hused m hfind) ⟨L, h1⟩ huse (fun d2 c2 hr2 h2 => hok m d2 c2 hfind hr2 h2)
    fun hA e c' he => herr e c' he (.inr hA)

theorem File.Finds.unique {f : File} {m m' : ℕ} (h : f.Finds name m) (h' : f.Finds name m') :
    m' = m := by
  rcases Nat.lt_trichotomy m' m with hlt | rfl | hlt
  · have := h.first m' hlt
    rw [h'.isName] at this
    cases this
  · rfl
  · have := h'.first m hlt
    rw [h.isName] at this
    cases this

end lookup

end Osv
