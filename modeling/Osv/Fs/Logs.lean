import Osv.Lib.Commute
import Osv.Fs.Jbd

/-!
# What is logged

Which functions of the file system call `jbd_write_blk`.  A function is *quiet* if it
leaves the journal alone and does the same whether a transaction is going on or not,
so it passes no assertion about the journal.  Any other function *logs*: it puts
blocks on the list one after the other, each once, and only during a transaction.

The functions that search, read or look up are quiet, `get_data_block` among them
unless it is to allocate.  Those that change blocks log.
-/

namespace Osv

variable (sb : SbInfo)

/-- The state with a transaction or without. -/
def Fs.setBusy (s : Fs) (b : Bool) : Fs := { s with ctl := { s.ctl with busy := b } }

/-- What the journal knows of the transaction. -/
def Fs.txn (s : Fs) : Bool × List Blk := (s.ctl.busy, s.ctl.logged)

/-- The function leaves the journal alone and does not ask for it. -/
structure Quiet {α : Type} (m : FsM α) : Prop where
  keeps : Prog.Keeps Fs.txn m
  blind : ∀ s b, m (s.setBusy b) = (m s).map fun r => (r.1, r.2.setBusy b)

/-- The list after some calls of `jbd_write_blk`. -/
def logAll : List Blk → List Blk → List Blk
  | l, [] => l
  | l, b :: bs => logAll (if b ∈ l then l else l ++ [b]) bs

/-- The function changes the journal by calls of `jbd_write_blk` only, which it makes during a
transaction. -/
def Logs {α : Type} (m : FsM α) : Prop :=
  ∀ s a s', m s = .ok (a, s') → s'.ctl.busy = s.ctl.busy ∧
    ∃ bs, s'.ctl.logged = logAll s.ctl.logged bs ∧ (bs ≠ [] → s.ctl.busy = true)

theorem logAll_append (l bs bs' : List Blk) : logAll l (bs ++ bs') = logAll (logAll l bs) bs' := by
  induction bs generalizing l with
  | nil => rfl
  | cons b bs ih => exact ih _

variable {sb} {α β : Type}

/-! ## Rules -/

variable {m : FsM α}

theorem Quiet.commutes (hm : Quiet m) (b : Bool) : Prog.Commutes (Fs.setBusy · b) m :=
  fun s => hm.blind s b

theorem quiet_pure (a : α) : Quiet (pure a : FsM α) := ⟨Prog.keeps_pure a, fun _ _ => rfl⟩

theorem quiet_trap (e : Trap) : Quiet (Prog.trap e : FsM α) := ⟨Prog.keeps_trap e, fun _ _ => rfl⟩

theorem quiet_kassert {c : String} {p : Fs → Bool} (h : ∀ s b, p (s.setBusy b) = p s) :
    Quiet (kassert c p) :=
  ⟨Prog.keeps_check _ _, fun s b => Prog.commutes_check (h · b) s⟩

theorem quiet_update {f : Fs → Fs} (hk : ∀ s, (f s).txn = s.txn)
    (hb : ∀ s b, f (s.setBusy b) = (f s).setBusy b) : Quiet (Prog.update f) :=
  ⟨Prog.keeps_update hk, fun s b => Prog.commutes_update (hb · b) s⟩

theorem quiet_read_bind {f : Fs → FsM α} (hf : ∀ s, Quiet (f s))
    (hb : ∀ s b, f (s.setBusy b) = f s) : Quiet (Prog.read >>= f) where
  keeps := Prog.keeps_bind Prog.keeps_read fun s => (hf s).keeps
  blind s b := Prog.commutes_read_bind (hb · b) (fun s => (hf s).commutes b) s

theorem Quiet.bind {f : α → FsM β} (hm : Quiet m) (hf : ∀ a, Quiet (f a)) : Quiet (m >>= f) where
  keeps := Prog.keeps_bind hm.keeps fun a => (hf a).keeps
  blind s b := Prog.commutes_bind (hm.commutes b) (fun a => (hf a).commutes b) s

variable {m n : FsM α}

theorem quiet_ite {p : Prop} [Decidable p] (hm : Quiet m) (hn : Quiet n) :
    Quiet (if p then m else n) := by
  split
  · exact hm
  · exact hn

theorem Quiet.logs (hm : Quiet m) : Logs m := by
  intro s a s' h
  have hk := Prod.mk.inj (hm.keeps s a s' h)
  exact ⟨hk.1, [], hk.2, fun hne => absurd rfl hne⟩

theorem Quiet.wp_of_busy (hm : Quiet m) {Q : α → Fs → Prop} {E : Trap → Prop} {s : Fs}
    (h : Prog.wp m (fun a s' => Q a (s'.setBusy s.ctl.busy)) E (s.setBusy true)) :
    Prog.wp m Q E s :=
  ((hm.commutes s.ctl.busy).wp (s := s.setBusy true)).mpr h

theorem logs_pure {a : α} : Logs (pure a : FsM α) := (quiet_pure a).logs

theorem logs_read : Logs (Prog.read : FsM Fs) := by
  intro s a s' h
  cases h
  exact ⟨rfl, [], rfl, fun hne => absurd rfl hne⟩

theorem Logs.bind {f : α → FsM β} (hm : Logs m) (hf : ∀ a, Logs (f a)) : Logs (m >>= f) := by
  intro s b s'' h
  obtain ⟨a, s', h1, h2⟩ := Prog.bind_ok.mp h
  obtain ⟨hb1, bs1, hl1, ht1⟩ := hm s a s' h1
  obtain ⟨hb2, bs2, hl2, ht2⟩ := hf a s' b s'' h2
  refine ⟨hb2.trans hb1, bs1 ++ bs2, by rw [hl2, hl1, logAll_append], fun hne => ?_⟩
  cases bs1 with
  | nil => exact hb1 ▸ ht2 hne
  | cons _ _ => exact ht1 (List.cons_ne_nil _ _)

theorem logs_ite {p : Prop} [Decidable p] (hm : Logs m) (hn : Logs n) :
    Logs (if p then m else n) := by
  split
  · exact hm
  · exact hn

theorem logs_kassert {c : String} {p : Fs → Bool} : Logs (kassert c p) := by
  intro s a s' h
  have hk : s' = s := Prog.keeps_check (π := id) p (Trap.kassert c) s a s' h
  rw [hk]
  exact ⟨rfl, [], rfl, fun hne => absurd rfl hne⟩

/-! ## Buffers -/

theorem quiet_modifyData (f : Data → Data) : Quiet (modifyData f) :=
  quiet_update (fun _ => rfl) fun _ _ => rfl

theorem quiet_memAlloc : Quiet memAlloc := by
  have htick : Quiet (modifyCtl fun c => { c with tick := c.tick + 1 }) :=
    quiet_update (fun _ => rfl) fun _ _ => rfl
  exact quiet_read_bind (fun _ => htick.bind fun _ => quiet_pure _) fun _ _ => rfl

section

variable (b : Blk)

include b

theorem quiet_blkRef : Quiet (blkRef b) := quiet_update (fun _ => rfl) fun _ _ => rfl

theorem quiet_bdevGetBlkUnlocked : Quiet (bdevGetBlkUnlocked b) :=
  have href : Quiet (do blkRef b; pure true) := (quiet_blkRef b).bind fun _ => quiet_pure _
  have hset : ∀ n, Quiet (setHeaders b n) := fun _ => quiet_update (fun _ => rfl) fun _ _ => rfl
  quiet_read_bind (fun _ => quiet_ite href <| quiet_ite (quiet_trap _) <|
    quiet_memAlloc.bind fun _ =>
    quiet_ite ((hset _).bind fun _ => href) ((hset _).bind fun _ => quiet_pure _)) fun _ _ => rfl

theorem quiet_blkLock : Quiet (blkLock b) :=
  quiet_read_bind (fun _ => quiet_ite (quiet_trap _) (quiet_update (fun _ => rfl) fun _ _ => rfl))
    fun _ _ => rfl

theorem quiet_blkUnlock : Quiet (blkUnlock b) :=
  (quiet_kassert fun _ _ => rfl).bind fun _ => quiet_update (fun _ => rfl) fun _ _ => rfl

theorem quiet_bdevGetBlk : Quiet (bdevGetBlk b) :=
  (quiet_bdevGetBlkUnlocked b).bind fun _ =>
    quiet_ite ((quiet_blkLock b).bind fun _ => quiet_pure _) (quiet_pure _)

theorem quiet_bdevReleaseBlkUnlocked : Quiet (bdevReleaseBlkUnlocked b) := by
  refine (quiet_kassert fun _ _ => rfl).bind fun _ => quiet_update (fun s => ?_) fun s busy =>
    ?_ <;>
    dsimp only [Fs.txn, Fs.setBusy, Ctl.freeBlkHeaders] <;> split <;> rfl

theorem quiet_bdevReleaseBlk : Quiet (bdevReleaseBlk b) :=
  (quiet_blkUnlock b).bind fun _ => quiet_bdevReleaseBlkUnlocked b

theorem logs_jbdWriteBlk : Logs (jbdWriteBlk b) := by
  intro s a s' h
  obtain ⟨hb, hbusy, hl⟩ := jbdWriteBlk_ok h
  split_ifs at hl with hm
  · exact ⟨hbusy, [], hl, fun hne => absurd rfl hne⟩
  · exact ⟨hbusy, [b], by rw [hl, logAll, logAll, if_neg hm], fun _ => hb⟩

theorem logs_logBlk : Logs (logBlk b) := by
  refine Logs.bind (Quiet.logs ?_) fun _ => logs_jbdWriteBlk b
  exact quiet_update (fun _ => rfl) fun _ _ => rfl

theorem logs_logWrite (f : Bytes → Bytes) : Logs (logWrite b f) :=
  (quiet_modifyData _).logs.bind fun _ => logs_logBlk b

end

theorem quiet_get {b : Blk} (hm : Quiet m) (hn : Quiet n) :
    Quiet (do if ← bdevGetBlk b then m else n) :=
  (quiet_bdevGetBlk b).bind fun _ => quiet_ite hm hn

theorem logs_get {b : Blk} (hm : Logs m) (hn : Logs n) :
    Logs (do if ← bdevGetBlk b then m else n) :=
  (quiet_bdevGetBlk b).logs.bind fun _ => logs_ite hm hn

theorem logs_getUnlocked {b : Blk} (hm : Logs m) (hn : Logs n) :
    Logs (do if ← bdevGetBlkUnlocked b then m else n) :=
  (quiet_bdevGetBlkUnlocked b).logs.bind fun _ => logs_ite hm hn

theorem quiet_release_pure (b : Blk) (a : α) : Quiet (do bdevReleaseBlk b; pure a) :=
  (quiet_bdevReleaseBlk b).bind fun _ => quiet_pure a

theorem quiet_releaseUnlocked_pure (b : Blk) (a : α) :
    Quiet (do bdevReleaseBlkUnlocked b; pure a) :=
  (quiet_bdevReleaseBlkUnlocked b).bind fun _ => quiet_pure a

theorem logs_write_release {b b' : Blk} {f : Bytes → Bytes} {a : α} :
    Logs (do logWrite b f; bdevReleaseBlk b'; pure a) :=
  (logs_logWrite b f).bind fun _ => (quiet_release_pure b' a).logs

/-! ## Code that reads -/

/-- A property that code has if its parts do, and that the calls for a buffer have. -/
structure ByParts (P : ∀ {α : Type}, FsM α → Prop) : Prop where
  bind {α β : Type} {m : FsM α} {f : α → FsM β} : P m → (∀ a, P (f a)) → P (m >>= f)
  read_bind {α : Type} {f : Fs → FsM α} :
    (∀ s, P (f s)) → (∀ s b, f (s.setBusy b) = f s) → P (Prog.read >>= f)
  kassert {c : String} {p : Fs → Bool} : (∀ s b, p (s.setBusy b) = p s) → P (kassert c p)
  pure {α : Type} (a : α) : P (pure a : FsM α)
  trap {α : Type} (e : Trap) : P (Prog.trap e : FsM α)
  get (b : Blk) : P (bdevGetBlk b)
  getUnlocked (b : Blk) : P (bdevGetBlkUnlocked b)
  release (b : Blk) : P (bdevReleaseBlk b)
  releaseUnlocked (b : Blk) : P (bdevReleaseBlkUnlocked b)

namespace ByParts

variable {P : ∀ {α : Type}, FsM α → Prop}

theorem branch {p : Prop} [Decidable p] (hm : P m) (hn : P n) : P (if p then m else n) := by
  split
  · exact hm
  · exact hn

variable (R : ByParts P)

include R

theorem inode (i : Inum) : P (inode i) :=
  R.read_bind (fun s => by
    cases s.data.icache i with
    | none => exact R.trap _
    | some n => exact R.pure n) fun _ _ => rfl

theorem directBlock (i : Inum) (k : ℕ) : P (directBlock sb i k false) :=
  R.bind (R.inode i) fun _ => branch (R.pure _) (R.pure _)

theorem indirectEntry (indir : Blk) (e : ℕ) : P (indirectEntry sb indir e false) :=
  R.read_bind (fun _ => branch (R.bind (R.release _) fun _ => R.pure _) (R.pure _)) fun _ _ => rfl

theorem finishBlock (i : Inum) (indir : Option Blk) (r : Except Err Blk) :
    P (finishBlock i indir r) := by
  have hend {r : Except Err Blk} : P (do bdevReleaseBlkUnlocked (inumToBlk i); Pure.pure r) :=
    R.bind (R.releaseUnlocked _) fun _ => R.pure _
  have hfail (e : Err) : P (finishBlock.fail i indir e) := by
    cases indir with
    | none => exact hend
    | some b => exact R.bind (R.release b) fun _ => hend
  cases r with
  | error e => exact hfail e
  | ok blk =>
    exact R.bind (R.kassert fun _ _ => rfl) fun _ => R.bind (R.get blk)
      fun _ => branch hend (hfail _)

variable {alloc : Bool}

theorem getDataBlock {i : Inum} (hdirect : ∀ k, P (Osv.directBlock sb i k alloc))
    (hentry : ∀ b e, P (Osv.indirectEntry sb b e alloc)) (ofs : ℕ) :
    P (getDataBlock sb i ofs alloc) := by
  refine R.bind (R.kassert fun _ _ => rfl) fun _ => R.bind (R.getUnlocked _) fun _ =>
    branch (branch ?_ ?_) (R.pure _)
  · exact R.bind (hdirect _) fun r => R.finishBlock _ _ r
  · refine R.bind (R.kassert fun _ _ => rfl) fun _ => R.bind (hdirect _) fun r => ?_
    cases r with
    | error e => exact R.finishBlock _ _ _
    | ok indir =>
      exact R.bind (R.kassert fun _ _ => rfl) fun _ => R.bind (R.get _) fun _ =>
        branch (R.bind (hentry _ _) fun r => R.finishBlock _ _ r) (R.finishBlock _ _ _)

theorem readBlock (i : Inum) (ofs : ℕ) : P (Osv.getDataBlock sb i ofs false) :=
  R.getDataBlock (R.directBlock i) R.indirectEntry ofs

theorem dirScan {scan : DirScan α} {dir : Inum}
    (hblock : ∀ ofs, P (Osv.getDataBlock sb dir ofs scan.alloc))
    (hhit : ∀ b ofs de, P (scan.hit b ofs de)) (hfail : ∀ e, P (scan.fail e))
    (hdone : P scan.done) : P (dirScan sb dir scan) := by
  have hdir (ofs : ℕ) (bh : Option Blk) : P (dirBlock sb dir scan.alloc ofs bh) := by
    cases bh with
    | none => exact branch (hblock ofs) (R.trap _)
    | some b => exact branch (R.bind (R.release b) fun _ => hblock ofs) (R.pure _)
  have hloop (n ofs : ℕ) (bh : Option Blk) : P (dirLoop sb dir scan n ofs bh) := by
    induction n generalizing ofs bh with
    | zero => exact R.trap _
    | succ n ih =>
      refine R.bind (R.inode dir) fun ino => branch (R.bind (hdir ofs bh) fun r => ?_) ?_
      · cases r with
        | error e => exact hfail e
        | ok b => exact R.read_bind (fun s => branch (hhit _ _ _) (ih _ _)) fun _ _ => rfl
      · cases bh with
        | none => exact hdone
        | some b => exact R.bind (R.release b) fun _ => hdone
  exact hloop _ _ _

theorem searchDir (dir : Inum) (name : List UInt8) : P (searchDir sb dir name) :=
  R.dirScan (R.readBlock dir) (fun _ _ _ => R.bind (R.release _) fun _ => R.pure _)
    (fun _ => R.pure _) (R.pure _)

end ByParts

theorem quiet_byParts : ByParts @Quiet :=
  ⟨Quiet.bind, quiet_read_bind, quiet_kassert, quiet_pure, quiet_trap, quiet_bdevGetBlk,
    quiet_bdevGetBlkUnlocked, quiet_bdevReleaseBlk, quiet_bdevReleaseBlkUnlocked⟩

theorem logs_byParts : ByParts @Logs :=
  ⟨Logs.bind, fun h _ => logs_read.bind h, fun _ => logs_kassert, fun _ => logs_pure,
    fun e => (quiet_trap e).logs, fun b => (quiet_bdevGetBlk b).logs, fun b =>
    (quiet_bdevGetBlkUnlocked b).logs,
    fun b => (quiet_bdevReleaseBlk b).logs, fun b => (quiet_bdevReleaseBlkUnlocked b).logs⟩

/-! ## Inodes -/

section

variable (i : Inum)

include i

theorem quiet_inode : Quiet (inode i) := quiet_byParts.inode i

theorem quiet_setInode (n : Inode) : Quiet (setInode i n) := quiet_modifyData _

theorem quiet_sfsReadInode : Quiet (sfsReadInode i) :=
  (quiet_inode i).bind fun _ => (quiet_kassert fun _ _ => rfl).bind fun _ =>
    (quiet_kassert fun _ _ => rfl).bind fun _ =>
      quiet_get
        (quiet_read_bind (fun _ => (quiet_setInode i _).bind fun _ => quiet_release_pure _ _)
          fun _ _ => rfl)
        (quiet_pure _)

theorem quiet_fsReleaseInode : Quiet (fsReleaseInode i) :=
  (quiet_kassert fun _ _ => rfl).bind fun _ => (quiet_inode i).bind fun _ =>
    (quiet_kassert fun _ _ => rfl).bind fun _ => quiet_ite (quiet_ite (quiet_modifyData _)
      ((quiet_kassert fun _ _ => rfl).bind fun _ => quiet_modifyData _)) (quiet_setInode i _)

theorem quiet_newInode : Quiet (newInode i) :=
  quiet_memAlloc.bind fun _ => quiet_ite
    (quiet_memAlloc.bind fun _ => quiet_ite
      (quiet_memAlloc.bind fun _ => quiet_ite ((quiet_setInode i _).bind fun _ => quiet_pure _)
        (quiet_trap _)) (quiet_trap _)) (quiet_pure _)

theorem quiet_validInode : Quiet (validInode i) :=
  (quiet_inode i).bind fun _ => quiet_ite (quiet_pure _)
    ((quiet_sfsReadInode i).bind fun _ => quiet_ite (quiet_pure _)
      ((quiet_fsReleaseInode i).bind fun _ => quiet_pure _))

theorem quiet_fsGetInode : Quiet (fsGetInode i) :=
  quiet_read_bind (fun s => by
    cases s.data.icache i with
    | some n => exact (quiet_setInode i _).bind fun _ => quiet_validInode i
    | none =>
      refine (quiet_newInode i).bind fun r => ?_
      cases r with
      | error e => exact quiet_pure _
      | ok _ => exact quiet_validInode i) fun _ _ => rfl

theorem logs_sfsWriteInode : Logs (sfsWriteInode i) :=
  (quiet_inode i).logs.bind fun _ => logs_kassert.bind fun _ =>
    logs_get ((logs_logWrite _ _).bind fun _ => (quiet_setInode i _).logs.bind fun _ =>
      (quiet_release_pure _ _).logs) logs_pure

theorem logs_updateInode (f : DInode → DInode) : Logs (updateInode i f) :=
  (quiet_inode i).logs.bind fun _ => (quiet_setInode i _).logs.bind fun _ => logs_sfsWriteInode i

end

/-! ## Bitmaps -/

theorem logs_bmapAllocElement (b : Blk) (size : ℕ) : Logs (bmapAllocElement b size) := by
  refine logs_read.bind fun s => ?_
  cases firstClear (s.data.buf b) (8 * size) with
  | none => exact logs_pure
  | some i => exact (logs_logWrite _ _).bind fun _ => logs_pure

theorem logs_initDiskInode (ftype mode index : ℕ) : Logs (initDiskInode ftype mode index) :=
  logs_get ((quiet_bdevReleaseBlk _).logs.bind fun _ => logs_write_release) logs_write_release

theorem logs_allocDiskInode (ftype mode : ℕ) : Logs (allocDiskInode sb ftype mode) := by
  refine logs_get ((logs_bmapAllocElement _ _).bind fun r => ?_) logs_pure
  cases r with
  | none => exact (quiet_release_pure _ _).logs
  | some index => exact logs_initDiskInode ftype mode index

theorem logs_freeDiskInode (i : Inum) : Logs (freeDiskInode i) :=
  logs_kassert.bind fun _ => logs_get logs_write_release logs_pure

theorem logs_initDataBlock (bmapBlk index : ℕ) (blk : Blk) :
    Logs (initDataBlock bmapBlk index blk) :=
  logs_get ((quiet_bdevReleaseBlk _).logs.bind fun _ => logs_write_release) logs_write_release

theorem logs_allocDataBlockFrom (n k : ℕ) : Logs (allocDataBlockFrom sb n k) := by
  induction n generalizing k with
  | zero => exact logs_pure
  | succ n ih =>
    refine logs_get ((logs_bmapAllocElement _ _).bind fun r => ?_) logs_pure
    cases r with
    | none => exact (quiet_bdevReleaseBlk _).logs.bind fun _ => ih (k + 1)
    | some index => exact logs_initDataBlock _ _ _

theorem logs_allocDataBlock : Logs (allocDataBlock sb) := logs_allocDataBlockFrom _ _

theorem logs_freeDataBlock (blk : Blk) : Logs (freeDataBlock sb blk) :=
  logs_kassert.bind fun _ => logs_get logs_write_release logs_pure

/-! ## The blocks of a file -/

theorem logs_directBlock (i : Inum) (k : ℕ) (alloc : Bool) : Logs (directBlock sb i k alloc) := by
  refine (quiet_inode i).logs.bind fun n => logs_ite logs_pure (logs_ite logs_pure ?_)
  refine logs_allocDataBlock.bind fun r => ?_
  cases r with
  | error e => exact logs_pure
  | ok blk => exact (logs_updateInode i _).bind fun _ => logs_pure

theorem logs_indirectEntry (indir : Blk) (e : ℕ) (alloc : Bool) :
    Logs (indirectEntry sb indir e alloc) := by
  refine logs_read.bind fun s => logs_ite (quiet_release_pure _ _).logs (logs_ite logs_pure ?_)
  refine logs_allocDataBlock.bind fun r => ?_
  cases r with
  | error e => exact logs_pure
  | ok blk => exact logs_write_release

section

variable (i : Inum)

include i

theorem logs_getDataBlock (ofs : ℕ) (alloc : Bool) : Logs (getDataBlock sb i ofs alloc) :=
  logs_byParts.getDataBlock (logs_directBlock i · alloc) (logs_indirectEntry · · alloc) ofs

theorem logs_writeLoop (n : ℕ) (bytes : List UInt8) (ofs : ℕ) :
    Logs (writeLoop sb i n bytes ofs) := by
  induction n generalizing bytes ofs with
  | zero => exact logs_pure
  | succ n ih =>
    refine logs_ite logs_pure ((logs_getDataBlock _ _ _).bind fun r => ?_)
    cases r with
    | error e => exact logs_pure
    | ok b =>
      exact (logs_logWrite _ _).bind fun _ => (quiet_bdevReleaseBlk b).logs.bind fun _ => ih _ _

theorem logs_writeData (bytes : List UInt8) (ofs : ℕ) : Logs (writeData sb i bytes ofs) :=
  (logs_writeLoop _ _ _ _).bind fun _ => (quiet_inode i).logs.bind fun _ =>
    logs_ite ((logs_updateInode i _).bind fun _ => logs_pure) logs_pure

/-! ## Deleting a file -/

theorem logs_deleteEntries (indir : Blk) (n e size : ℕ) (j : Bool) :
    Logs (deleteEntries sb i indir n e size j) := by
  induction n generalizing e size j with
  | zero => exact (quiet_trap _).logs
  | succ n ih =>
    refine (quiet_inode i).logs.bind fun ino => logs_ite (logs_read.bind fun s => ?_) logs_pure
    cases s.data.following indir (e / ptrsPerBlk) with
    | none => exact (quiet_trap _).logs
    | some b =>
      refine logs_ite (ih _ _ _) (logs_kassert.bind fun _ => (logs_freeDataBlock _).bind fun err =>
        ?_)
      refine logs_ite logs_pure ((quiet_modifyData _).logs.bind fun _ => ?_)
      cases j with
      | false => exact (logs_logBlk _).bind fun _ => ih _ _ _
      | true => exact logs_pure.bind fun _ => ih _ _ _

theorem logs_deleteBelow (index : ℕ) (blk : Blk) (size : ℕ) :
    Logs (deleteBelow sb i index blk size) := by
  refine logs_ite logs_pure (logs_get ?_ logs_pure)
  refine (quiet_inode i).logs.bind fun ino => (logs_deleteEntries _ _ _ _ _ _).bind fun r => ?_
  cases r with
  | error e => exact logs_pure
  | ok size => exact (quiet_release_pure _ _).logs

theorem logs_deleteBlocks (n index size : ℕ) : Logs (deleteBlocks sb i n index size) := by
  induction n generalizing index size with
  | zero => exact (quiet_inode i).logs.bind fun _ => logs_ite (quiet_trap _).logs logs_pure
  | succ n ih =>
    refine (quiet_inode i).logs.bind fun ino => logs_ite (logs_ite (ih _ _) ?_) logs_pure
    refine logs_kassert.bind fun _ => (logs_deleteBelow _ _ _ _).bind fun r => ?_
    cases r with
    | error e => exact logs_pure
    | ok size =>
      exact (logs_freeDataBlock _).bind fun err => logs_ite logs_pure
        ((quiet_setInode i _).logs.bind fun _ => ih _ _)

theorem logs_sfsDeleteInode : Logs (sfsDeleteInode sb i) :=
  logs_kassert.bind fun _ => (quiet_inode i).logs.bind fun _ => logs_kassert.bind fun _ =>
    (logs_deleteBlocks _ _ _ _).bind fun _ => logs_ite logs_pure
      ((logs_freeDiskInode i).bind fun _ => logs_ite logs_pure
        ((quiet_inode i).logs.bind fun _ => (quiet_setInode i _).logs.bind fun _ => logs_pure))

end

/-! ## Directories -/

theorem quiet_searchDir (dir : Inum) (name : List UInt8) : Quiet (searchDir sb dir name) :=
  quiet_byParts.searchDir dir name

theorem quiet_isDirEmpty (dir : Inum) : Quiet (isDirEmpty sb dir) :=
  quiet_byParts.dirScan (quiet_byParts.readBlock dir) (fun _ _ _ => quiet_release_pure _ _)
    (fun _ => quiet_pure _) (quiet_pure _)

theorem quiet_sfsLookup (dir : Inum) (name : List UInt8) : Quiet (sfsLookup sb dir name) := by
  refine (quiet_searchDir dir name).bind fun inum => quiet_ite (quiet_pure _) ?_
  exact (quiet_fsGetInode inum).bind fun r => by cases r <;> exact quiet_pure _

theorem logs_storeDirent (b : Blk) (o : ℕ) (inum : Inum) (name : List UInt8) :
    Logs (storeDirent b o inum name) :=
  (quiet_modifyData _).logs.bind fun _ => (quiet_modifyData _).logs.bind fun _ =>
    (quiet_modifyData _).logs.bind fun _ => logs_logBlk b

theorem logs_allocDirent (dir : Inum) (name : List UInt8) (inum : Inum) :
    Logs (allocDirent sb dir name inum) := by
  refine logs_getUnlocked (logs_byParts.dirScan (logs_getDataBlock dir · _) (fun b ofs de => ?_)
    (fun _ => (quiet_releaseUnlocked_pure _ _).logs) (quiet_releaseUnlocked_pure _ _).logs)
    logs_pure
  refine (quiet_inode dir).logs.bind fun n => ?_
  have hend : Logs (do bdevReleaseBlk b; bdevReleaseBlkUnlocked (inumToBlk dir); pure Err.ok) :=
    ((quiet_bdevReleaseBlk b).bind fun _ => quiet_releaseUnlocked_pure _ _).logs
  exact logs_ite ((logs_updateInode dir _).bind fun _ => (logs_storeDirent _ _ _ _).bind fun _ =>
    hend)
    ((logs_storeDirent _ _ _ _).bind fun _ => hend)

theorem logs_freeDirent (dir : Inum) (name : List UInt8) : Logs (freeDirent sb dir name) :=
  logs_byParts.dirScan (logs_getDataBlock dir · _) (fun _ _ _ => logs_write_release)
    (fun _ => logs_pure) logs_pure

theorem logs_createInodeInDir (dir : Inum) (ftype : ℕ) (name : List UInt8) (mode : ℕ) :
    Logs (createInodeInDir sb dir ftype name mode) := by
  refine (quiet_searchDir dir name).logs.bind fun _ => logs_ite logs_pure
    (logs_getUnlocked ((logs_allocDiskInode _ _).bind fun r => ?_) logs_pure)
  cases r with
  | error e => exact (quiet_releaseUnlocked_pure _ _).logs
  | ok inum =>
    exact (logs_allocDirent _ _ _).bind fun _ => logs_ite (quiet_releaseUnlocked_pure _ _).logs
      ((logs_freeDiskInode _).bind fun _ => (quiet_releaseUnlocked_pure _ _).logs)

theorem quiet_unlinkDone (i : Inum) (err : Err) : Quiet (unlinkDone i err) :=
  (quiet_bdevReleaseBlkUnlocked _).bind fun _ => (quiet_fsReleaseInode i).bind fun _ => quiet_pure _

theorem logs_unlinkEntry (dir : Inum) (name : List UInt8) (i : Inum) :
    Logs (unlinkEntry sb dir name i) :=
  (logs_freeDirent _ _).bind fun _ => logs_ite
    ((logs_updateInode i _).bind fun _ => (quiet_unlinkDone i _).logs)
    (logs_kassert.bind fun _ => (quiet_unlinkDone i _).logs)

theorem logs_unlinkInodeInDir (dir : Inum) (ftype : ℕ) (name : List UInt8) :
    Logs (unlinkInodeInDir sb dir ftype name) := by
  refine (quiet_sfsLookup dir name).logs.bind fun r => ?_
  cases r with
  | error e => exact logs_pure
  | ok i =>
    refine logs_getUnlocked ((quiet_inode i).logs.bind fun n => ?_) logs_pure
    refine logs_kassert.bind fun _ => logs_kassert.bind fun _ => logs_kassert.bind fun _ =>
      logs_ite (quiet_unlinkDone i _).logs (logs_ite ?_ (logs_unlinkEntry _ _ _))
    refine (quiet_isDirEmpty i).logs.bind fun r => ?_
    rcases r with e | _ | _
    · exact (quiet_unlinkDone i _).logs
    · exact (quiet_unlinkDone i _).logs
    · exact logs_unlinkEntry _ _ _

theorem logs_sfsLink (dir src : Inum) (name : List UInt8) : Logs (sfsLink sb dir src name) :=
  (quiet_inode src).logs.bind fun _ => logs_kassert.bind fun _ =>
    (quiet_searchDir dir name).logs.bind fun _ =>
    logs_ite logs_pure
      (logs_getUnlocked
        ((logs_allocDirent _ _ _).bind fun _ => logs_ite
          ((logs_updateInode src _).bind fun _ => (quiet_releaseUnlocked_pure _ _).logs)
          (quiet_releaseUnlocked_pure _ _).logs)
        logs_pure)

end Osv
