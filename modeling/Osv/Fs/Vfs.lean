import Osv.Lib.Calls
import Osv.Fs.Logs

/-!
# The calls of the file system

The functions of `kernel/fs/fs.c` that system calls and the cleanup thread execute.
They find their inodes by walking a path, open a transaction, change the file system
by a call of SFS, and close the transaction.  They are `Calls`: threads run them at
the same time, and what a call of SFS returns depends on the others.

What a call of SFS does when it runs alone is `SfsOp.run`.  `SfsOp.logs` are the
calls that log blocks, and `quiet_run` and `logs_run` say that it is right about them.

The locks of inodes are left out.  An assertion that fails stops the machine, and so
does the thread that fails it.
-/

namespace Osv

/-! ## Calls -/

/-- A call of SFS, or of the functions for inodes. -/
inductive SfsOp where
  | getInode (i : Inum)
  | releaseInode (i : Inum)
  /-- Read the fields of an inode in memory. -/
  | inode (i : Inum)
  | lookup (dir : Inum) (name : List UInt8)
  | create (dir : Inum) (name : List UInt8) (mode : ℕ)
  | mkdir (dir : Inum) (name : List UInt8) (mode : ℕ)
  | link (dir src : Inum) (name : List UInt8)
  | unlink (dir : Inum) (name : List UInt8)
  | rmdir (dir : Inum) (name : List UInt8)
  | write (i : Inum) (bytes : List UInt8) (ofs : ℕ)
  | deleteInode (i : Inum)
  | writeInode (i : Inum)

namespace SfsOp

/-- What a call returns. -/
@[reducible] def Ret : SfsOp → Type
  | getInode _ => Except Err Unit
  | releaseInode _ => Unit
  | inode _ => Inode
  | lookup _ _ => Except Err Inum
  | create _ _ _ => Err
  | mkdir _ _ _ => Err
  | link _ _ _ => Err
  | unlink _ _ => Err
  | rmdir _ _ => Err
  | write _ _ _ => ℕ
  | deleteInode _ => Err
  | writeInode _ => Err

/-- The call, made while no other thread runs. -/
def run (sb : SbInfo) : (op : SfsOp) → FsM op.Ret
  | getInode i => fsGetInode i
  | releaseInode i => fsReleaseInode i
  | inode i => Osv.inode i
  | lookup dir name => sfsLookup sb dir name
  | create dir name mode => sfsCreate sb dir name mode
  | mkdir dir name mode => sfsMkdir sb dir name mode
  | link dir src name => sfsLink sb dir src name
  | unlink dir name => sfsUnlink sb dir name
  | rmdir dir name => sfsRmdir sb dir name
  | write i bytes ofs => writeData sb i bytes ofs
  | deleteInode i => sfsDeleteInode sb i
  | writeInode i => sfsWriteInode i

/-- Whether the call may log blocks. -/
def logs : SfsOp → Bool
  | getInode _ => false
  | releaseInode _ => false
  | inode _ => false
  | lookup _ _ => false
  | create _ _ _ => true
  | mkdir _ _ _ => true
  | link _ _ _ => true
  | unlink _ _ => true
  | rmdir _ _ => true
  | write _ _ _ => true
  | deleteInode _ => true
  | writeInode _ => true

variable {sb : SbInfo}

theorem quiet_run {op : SfsOp} (h : op.logs = false) : Quiet (op.run sb) := by
  cases op with
  | getInode i => exact quiet_fsGetInode i
  | releaseInode i => exact quiet_fsReleaseInode i
  | inode i => exact quiet_inode i
  | lookup dir name => exact quiet_sfsLookup dir name
  | create | mkdir | link | unlink | rmdir | write | deleteInode | writeInode => cases h

theorem logs_run (op : SfsOp) : Logs (op.run sb) := by
  cases op with
  | getInode | releaseInode | inode | lookup => exact (quiet_run rfl).logs
  | create dir name mode | mkdir dir name mode => exact logs_createInodeInDir _ _ _ _
  | link dir src name => exact logs_sfsLink _ _ _
  | unlink dir name | rmdir dir name => exact logs_unlinkInodeInDir _ _ _
  | write i bytes ofs => exact logs_writeData _ _ _
  | deleteInode i => exact logs_sfsDeleteInode i
  | writeInode i => exact logs_sfsWriteInode i

end SfsOp

/-- A call of the functions of `fs.c`. -/
inductive VfsCall where
  /-- `journal_begin_txn`. -/
  | beginTxn
  /-- `journal_end_txn`. -/
  | endTxn
  | sfs (op : SfsOp)
  /-- The number of `proc_current()->cwd`. -/
  | cwd
  /-- `fs_alloc_file`. -/
  | allocFile
  /-- `write` of a pipe or the console. -/
  | devWrite (bytes : List UInt8)
  /-- Wait for an inode on the list of the cleanup thread and take it off. -/
  | nextInode
  /-- Stop the machine. -/
  | stop (why : Trap)

/-- What a call returns. -/
@[reducible] def VfsCall.Ret : VfsCall → Type
  | beginTxn => Unit
  | endTxn => Unit
  | sfs op => op.Ret
  | cwd => Option Inum
  | allocFile => Bool
  | devWrite _ => ℕ
  | nextInode => Inum
  | stop _ => Empty

/-- What the functions of `fs.c` depend on besides the file system. -/
structure Caller where
  /-- The number of `proc_current()->cwd`. -/
  cwd : Option Inum
  /-- How many bytes of a write a pipe or the console takes. -/
  devWrite : List UInt8 → ℕ
  /-- How often `jbd_end_txn` tries to commit. -/
  tries : ℕ

/-- A call, made while no other thread runs. -/
def VfsCall.alone (sb : SbInfo) (u : Caller) : (c : VfsCall) → FsM c.Ret
  | beginTxn => jbdBeginTxn
  | endTxn => jbdEndTxn sb u.tries
  | sfs op => op.run sb
  | cwd => pure u.cwd
  | allocFile => memAlloc
  | devWrite bytes => pure (u.devWrite bytes)
  | nextInode => do
    let s ← Prog.read
    match s.data.cleanup with
    | [] => Prog.trap (.wild "wait")
    | i :: rest => do
      modifyData fun d => { d with cleanup := rest }
      pure i
  | stop why => Prog.trap why

/-- A function of `fs.c`. -/
abbrev VfsM := Calls VfsCall VfsCall.Ret

namespace VfsM

/-- Make a call. -/
def make (c : VfsCall) : VfsM c.Ret := Calls.perform c

/-- `journal_begin_txn`. -/
def beginTxn : VfsM Unit := make .beginTxn

/-- `journal_end_txn`. -/
def endTxn : VfsM Unit := make .endTxn

/-- `fs_get_inode`. -/
def getInode (i : Inum) : VfsM (Except Err Unit) := make (.sfs (.getInode i))

/-- `fs_release_inode`. -/
def releaseInode (i : Inum) : VfsM Unit := make (.sfs (.releaseInode i))

/-- The fields of an inode. -/
def fields (i : Inum) : VfsM Inode := make (.sfs (.inode i))

/-- `i_ops->lookup`. -/
def lookup (dir : Inum) (name : List UInt8) : VfsM (Except Err Inum) :=
  make (.sfs (.lookup dir name))

/-- `i_ops->create`. -/
def create (dir : Inum) (name : List UInt8) (mode : ℕ) : VfsM Err :=
  make (.sfs (.create dir name mode))

/-- `i_ops->mkdir`. -/
def mkdir (dir : Inum) (name : List UInt8) (mode : ℕ) : VfsM Err :=
  make (.sfs (.mkdir dir name mode))

/-- `i_ops->link`. -/
def link (dir src : Inum) (name : List UInt8) : VfsM Err := make (.sfs (.link dir src name))

/-- `i_ops->unlink`. -/
def unlink (dir : Inum) (name : List UInt8) : VfsM Err := make (.sfs (.unlink dir name))

/-- `i_ops->rmdir`. -/
def rmdir (dir : Inum) (name : List UInt8) : VfsM Err := make (.sfs (.rmdir dir name))

/-- `f_ops->write` of a file. -/
def write (i : Inum) (bytes : List UInt8) (ofs : ℕ) : VfsM ℕ := make (.sfs (.write i bytes ofs))

/-- `s_ops->delete_inode`. -/
def deleteInode (i : Inum) : VfsM Err := make (.sfs (.deleteInode i))

/-- `s_ops->write_inode`. -/
def writeInode (i : Inum) : VfsM Err := make (.sfs (.writeInode i))

/-- The directory of the process. -/
def cwd : VfsM (Option Inum) := make .cwd

/-- `fs_alloc_file`. -/
def allocFile : VfsM Bool := make .allocFile

/-- `f_ops->write` of a device. -/
def devWrite (bytes : List UInt8) : VfsM ℕ := make (.devWrite bytes)

/-- Wait for an inode of the list. -/
def nextInode : VfsM Inum := make .nextInode

/-- The kernel stops. -/
def stop {α : Type} (why : Trap) : VfsM α := .call (.stop why) fun r => nomatch r

/-- `kassert`. -/
def assert (cond : String) (p : Bool) : VfsM Unit := if p then pure () else stop (.kassert cond)

/-- A loop that repeats a call until it succeeds, with `n` tries at most. -/
def retry (m : VfsM Err) : ℕ → VfsM Unit
  | 0 => stop (.wild "retry")
  | n + 1 => do
    if (← m) = .ok then pure () else retry m n

end VfsM

/-! ## Paths -/

/-- The character that separates the elements of a path. -/
def slash : UInt8 := 47

/-- `MAX_FILENAME_LEN`. -/
def maxFilenameLen : ℕ := 64

/-- The next element of a path, and what follows. -/
def pathNextElement (path : List UInt8) : List UInt8 × List UInt8 :=
  let path := path.dropWhile (· = slash)
  ((path.takeWhile (· ≠ slash)).take (maxFilenameLen - 1),
    (path.dropWhile (· ≠ slash)).dropWhile (· = slash))

open VfsM

/-- The loop of `fs_find_parent_inode`, with `n` steps at most. -/
def findParentLoop : (n : ℕ) → (path : List UInt8) → (curr : Inum) →
    VfsM (Except Err (Inum × List UInt8))
  | 0, _, _ => stop (.wild "path")
  | n + 1, path, curr => do
    if (← fields curr).ftype ≠ ftypeDir then do
      releaseInode curr
      pure (.error .ftype)
    else
      let (name, path) := pathNextElement path
      if path = [] then pure (.ok (curr, name))
      else
        match ← lookup curr name with
        | .error e => do
          releaseInode curr
          pure (.error e)
        | .ok next => do
          releaseInode curr
          findParentLoop n path next

/-- Returns the directory and the last element of the path.  Each step takes an element off the
path. -/
def fsFindParentInode (path : List UInt8) : VfsM (Except Err (Inum × List UInt8)) := do
  let cwd ← cwd
  let inum := if path.head? = some slash then sfsRootInum else cwd.getD sfsRootInum
  assert "inum > 0" (0 < inum)
  match ← getInode inum with
  | .error e => pure (.error e)
  | .ok _ => findParentLoop (path.length + 1) path inum

/-- The inode of a path. -/
def fsFindInode (path : List UInt8) : VfsM (Except Err Inum) := do
  match ← fsFindParentInode path with
  | .error e => pure (.error e)
  | .ok (parent, name) =>
    if name = [] then pure (.ok parent)
    else do
      let r ← lookup parent name
      releaseInode parent
      pure r

/-! ## Names -/

/-- Give the file of a path another path. -/
def fsLink (oldpath newpath : List UInt8) : VfsM Err := do
  match ← fsFindInode oldpath with
  | .error e => pure e
  | .ok src => do
    if (← fields src).ftype ≠ ftypeFile then do
      releaseInode src
      pure .ftype
    else
      match ← fsFindParentInode newpath with
      | .error e => do
        releaseInode src
        pure e
      | .ok (dir, name) =>
        if name = [] then do
          releaseInode dir
          releaseInode src
          pure .exist
        else do
          beginTxn
          let err ← link dir src name
          releaseInode dir
          releaseInode src
          endTxn
          pure err

/-- What `fs_unlink`, `fs_mkdir` and `fs_rmdir` share: a change of the directory of a path, in a
transaction. The root has no directory, and `atRoot` is the error then. -/
def changeParent (path : List UInt8) (atRoot : Err) (change : Inum → List UInt8 → VfsM Err) :
    VfsM Err := do
  match ← fsFindParentInode path with
  | .error e => pure e
  | .ok (dir, name) =>
    if name = [] then do
      releaseInode dir
      pure atRoot
    else do
      beginTxn
      let err ← change dir name
      releaseInode dir
      endTxn
      pure err

/-- Take the path of a file away. -/
def fsUnlink (path : List UInt8) : VfsM Err := changeParent path .ftype unlink

/-- `FMODE_R | FMODE_X`. -/
def fmodeRX : ℕ := 5

/-- Make a directory at a path. -/
def fsMkdir (path : List UInt8) : VfsM Err :=
  changeParent path .exist fun dir name => mkdir dir name fmodeRX

/-- Take the path of a directory away. -/
def fsRmdir (path : List UInt8) : VfsM Err := changeParent path .notEmpty rmdir

/-! ## Files -/

/-- `struct file`: its inode, unless it is a pipe or the console, and its flags. -/
structure OpenFile where
  inode : Option Inum
  oflag : BitVec 32

/-- `FS_RDONLY`. -/
def fsRdonly : BitVec 32 := 0x000

/-- `FS_WRONLY`. -/
def fsWronly : BitVec 32 := 0x001

/-- `FS_RDWR`. -/
def fsRdwr : BitVec 32 := 0x002

/-- `FS_CREAT`. -/
def fsCreat : BitVec 32 := 0x100

/-- One of the access modes, with or without `FS_CREAT`. -/
def validateFlag (flags : BitVec 32) : Bool :=
  flags &&& ~~~fsCreat = fsRdonly ∨ flags &&& ~~~fsCreat = fsWronly ∨ flags &&& ~~~fsCreat = fsRdwr

/-- `fs_open_file` from where the inode is known. -/
def openInode (flags : BitVec 32) (parent fi : Inum) : VfsM (Except Err OpenFile) := do
  if ← allocFile then do
    endTxn
    releaseInode parent
    pure (.ok ⟨some fi, flags &&& ~~~fsCreat⟩)
  else do
    endTxn
    releaseInode fi
    releaseInode parent
    pure (.error .nomem)

/-- `fs_open_file` from the label `fail`. -/
def openFail (parent : Inum) (err : Err) : VfsM (Except Err OpenFile) := do
  endTxn
  releaseInode parent
  pure (.error err)

/-- `fs_open_file` from where the file does not exist and is to be created. -/
def openCreate (flags : BitVec 32) (mode : ℕ) (parent : Inum) (name : List UInt8) :
    VfsM (Except Err OpenFile) := do
  let err ← create parent name mode
  if err ≠ .ok then do
    assert "err != ERR_EXIST" (err ≠ .exist)
    openFail parent err
  else
    match ← lookup parent name with
    | .ok fi => openInode flags parent fi
    | .error e => do
      assert "err != ERR_NOTEXIST" (e ≠ .notExist)
      openFail parent e

/-- Open the file of a path, or create it. -/
def fsOpenFile (path : List UInt8) (flags : BitVec 32) (mode : ℕ) : VfsM (Except Err OpenFile) := do
  if validateFlag flags then
    match ← fsFindParentInode path with
    | .error e => pure (.error e)
    | .ok (parent, name) => do
      beginTxn
      if name = [] then openInode flags parent parent
      else
        match ← lookup parent name with
        | .ok fi => openInode flags parent fi
        | .error e =>
          if e ≠ .notExist then openFail parent e
          else if flags &&& fsCreat = 0 then openFail parent e
          else openCreate flags mode parent name
  else pure (.error .inval)

/-- The write of `fs_write_file`, which the flags of the file allow or not. -/
def writeIf (file : OpenFile) (m : VfsM ℕ) : VfsM ℕ := if file.oflag ≠ fsRdonly then m else pure 0

/-- Returns the number of bytes written. -/
def fsWriteFile (file : OpenFile) (bytes : List UInt8) (ofs : ℕ) : VfsM ℕ :=
  match file.inode with
  | some i => do
    beginTxn
    let ws ← writeIf file (write i bytes ofs)
    endTxn
    pure ws
  | none => writeIf file (devWrite bytes)

/-! ## Cleaning up -/

/-- A round of `fs_inode_cleanup_thread`, whose loops make `n` tries at most. -/
def fsInodeCleanup (n : ℕ) : VfsM Unit := do
  let i ← nextInode
  beginTxn
  let ino ← fields i
  if ino.nlink = 0 then do
    retry (deleteInode i) n
    endTxn
    -- `fs_release_inode` of an inode whose number `sfs_delete_inode` has set to 0
    stop (.kassert "inode->i_inum > 0")
  else do
    assert "fs_is_inode_dirty(inode)" ino.dirty
    retry (writeInode i) n
    endTxn
    releaseInode i

/-! ## Threads -/

/-- What a thread may execute. -/
inductive FsCall where
  | openFile (path : List UInt8) (flags : BitVec 32) (mode : ℕ)
  | writeFile (file : OpenFile) (bytes : List UInt8) (ofs : ℕ)
  | link (oldpath newpath : List UInt8)
  | unlink (path : List UInt8)
  | mkdir (path : List UInt8)
  | rmdir (path : List UInt8)
  /-- A round of the cleanup thread. -/
  | cleanup (tries : ℕ)

/-- The code of a call, which leaves its result to the caller. -/
def FsCall.code : FsCall → VfsM Unit
  | openFile path flags mode => do
    let _ ← fsOpenFile path flags mode
    pure ()
  | writeFile file bytes ofs => do
    let _ ← fsWriteFile file bytes ofs
    pure ()
  | link oldpath newpath => do
    let _ ← fsLink oldpath newpath
    pure ()
  | unlink path => do
    let _ ← fsUnlink path
    pure ()
  | mkdir path => do
    let _ ← fsMkdir path
    pure ()
  | rmdir path => do
    let _ ← fsRmdir path
    pure ()
  | cleanup tries => fsInodeCleanup tries

/-- A thread that executes some calls. -/
def fsThread : List FsCall → VfsM Unit
  | [] => pure ()
  | f :: rest => do
    f.code
    fsThread rest

/-! ## Transactions -/

/-- What a call means to the journal. -/
inductive JEvent where
  | begin
  /-- Calls of `jbd_write_blk`. -/
  | log
  | finish
deriving DecidableEq

/-- What the journal sees of a call. -/
def VfsCall.event : VfsCall → Option JEvent
  | beginTxn => some .begin
  | endTxn => some .finish
  | sfs op => if op.logs then some .log else none
  | _ => none

/-- Where a call is with its transaction. -/
inductive Stage where
  | before
  | inside
  | after
deriving DecidableEq

/-- A call has one transaction at most, and logs in it only. -/
def Stage.once : Stage → JEvent → Option Stage
  | before, .begin => some inside
  | inside, .log => some inside
  | inside, .finish => some after
  | _, _ => none

/-- A thread has one transaction after the other, and logs in them only. -/
def oneByOne : Bool → JEvent → Option Bool
  | false, .begin => some true
  | true, .log => some true
  | true, .finish => some false
  | _, _ => none

/-- The code has its transactions as the protocol `Stage.once` wants. -/
abbrev VfsM.Once {α : Type} (p : VfsM α) (Q : Stage → Prop) (i : Stage) : Prop :=
  p.Obeys VfsCall.event Stage.once (fun _ j => Q j) i

/-- A call is over, and its transaction if it had one. -/
abbrev Stage.Closed (i : Stage) : Prop := i ≠ inside

section Once

open Calls (Obeys obeys_bind obeys_event obeys_silent Silent silent_perform silent_pure)

variable {α β : Type} {Q : Stage → Prop} {i : Stage}

theorem once_stop {Q : α → Stage → Prop} (why : Trap) :
    Obeys VfsCall.event Stage.once (stop why : VfsM α) Q i := ⟨i, rfl, fun r => nomatch r⟩

theorem silent_stop (why : Trap) : Silent VfsCall.event (stop why : VfsM α) :=
  ⟨rfl, fun r => nomatch r⟩

theorem silent_assert (cond : String) (p : Bool) : Silent VfsCall.event (assert cond p) := by
  cases p with
  | false => exact silent_stop _
  | true => exact silent_pure _

/-- What `fs_find_parent_inode` may call. -/
def VfsCall.walks : VfsCall → Bool
  | sfs op => !op.logs
  | cwd => true
  | stop why => why = .wild "path" ∨ why = .kassert "inum > 0"
  | _ => false

/-- Calls that `fs_find_parent_inode` does not make. -/
def VfsCall.strays (c : VfsCall) : Option Unit := if c.walks then none else some ()

theorem VfsCall.event_of_strays {c : VfsCall} (h : c.strays = none) : c.event = none := by
  have hw : c.walks = true := by
    by_contra hw
    rw [VfsCall.strays, if_neg hw] at h
    cases h
  cases c with
  | sfs op =>
    have : op.logs = false := by simpa [VfsCall.walks] using hw
    rw [VfsCall.event, this]
    rfl
  | beginTxn | endTxn => cases hw
  | cwd | allocFile | devWrite | nextInode | stop => rfl

theorem silent_make {E : Type} {ev : VfsCall → Option E} {c : VfsCall} (h : ev c = none) :
    Silent ev (make c) :=
  silent_perform h

theorem silent_releaseInode (n : Inum) : Silent VfsCall.event (releaseInode n) := silent_make rfl

variable {f : Unit → VfsM α}

theorem once_release {n : Inum} (h : (f ()).Once Q i) : (releaseInode n >>= f).Once Q i :=
  (silent_releaseInode n).obeys_bind fun _ => h

theorem silent_findParentLoop (n : ℕ) (path : List UInt8) (curr : Inum) :
    Silent VfsCall.strays (findParentLoop n path curr) := by
  have hrelease : Silent VfsCall.strays (releaseInode curr) := silent_make rfl
  induction n generalizing path curr with
  | zero => exact ⟨rfl, fun r => nomatch r⟩
  | succ n ih =>
    refine (silent_make (c := .sfs (.inode curr)) rfl).bind fun ino => ?_
    split
    · exact hrelease.bind fun _ => silent_pure _
    · dsimp only
      split
      · exact silent_pure _
      · refine (silent_make (c := .sfs (.lookup curr _)) rfl).bind fun r => ?_
        cases r with
        | error e => exact hrelease.bind fun _ => silent_pure _
        | ok next => exact hrelease.bind fun _ => ih _ next (silent_make rfl)

theorem strays_fsFindParentInode (path : List UInt8) :
    Silent VfsCall.strays (fsFindParentInode path) := by
  have hassert : ∀ p, Silent VfsCall.strays (assert "inum > 0" p) := by
    intro p
    cases p with
    | false => exact ⟨rfl, fun r => nomatch r⟩
    | true => exact silent_pure _
  refine (silent_make (c := .cwd) rfl).bind fun cwd => (hassert _).bind fun _ => ?_
  refine (silent_make (c := .sfs (.getInode _)) rfl).bind fun r => ?_
  cases r with
  | error e => exact silent_pure _
  | ok _ => exact silent_findParentLoop _ _ _

theorem silent_fsFindParentInode (path : List UInt8) :
    Silent VfsCall.event (fsFindParentInode path) :=
  (strays_fsFindParentInode path).mono fun _ => VfsCall.event_of_strays

theorem silent_fsFindInode (path : List UInt8) : Silent VfsCall.event (fsFindInode path) := by
  refine (silent_fsFindParentInode path).bind fun r => ?_
  rcases r with e | ⟨parent, name⟩
  · exact silent_pure _
  · dsimp only
    split
    · exact silent_pure _
    · exact (silent_make (c := .sfs (.lookup parent name)) rfl).bind fun _ =>
        (silent_releaseInode parent).bind fun _ => silent_pure _

/-! ## One transaction for each call -/

theorem once_begin (h : (f ()).Once Q .inside) : (beginTxn >>= f).Once Q .before :=
  obeys_event rfl rfl fun _ => h

theorem once_end (h : (f ()).Once Q .after) : (endTxn >>= f).Once Q .inside :=
  obeys_event rfl rfl fun _ => h

theorem once_log {op : SfsOp} {f : op.Ret → VfsM α} (h : ∀ r, (f r).Once Q .inside) :
    (make (.sfs op) >>= f).Once Q .inside := by
  cases hop : op.logs with
  | false => exact obeys_silent (by rw [VfsCall.event, hop]; rfl) h
  | true => exact obeys_event (by rw [VfsCall.event, hop]; rfl) rfl h

theorem once_closed (a : α) : (pure a : VfsM α).Once Stage.Closed .after := by
  rw [VfsM.Once, Calls.obeys_pure]
  decide

theorem once_none (a : α) : (pure a : VfsM α).Once Stage.Closed .before := by
  rw [VfsM.Once, Calls.obeys_pure]
  decide

theorem Once.discard {p : VfsM α} (h : p.Once Q i) :
    (p >>= fun _ => (pure () : VfsM Unit)).Once Q i :=
  obeys_bind.mpr h

theorem once_retry {m : VfsM Err} (hm : m.Once (· = .inside) .inside) {n : ℕ}
    (h : (f ()).Once Q .inside) : (retry m n >>= f).Once Q .inside := by
  induction n with
  | zero => exact obeys_bind.mpr (once_stop _)
  | succ n ih =>
    rw [retry, VfsM.Once, obeys_bind, obeys_bind]
    refine hm.mono fun err j hj => ?_
    rw [hj]
    split
    · exact h
    · exact obeys_bind.mp ih

theorem once_log_end {op : SfsOp} : (make (.sfs op)).Once (· = .inside) .inside :=
  once_log (f := pure) fun _ => rfl

theorem once_changeParent (path : List UInt8) (atRoot : Err) {change : Inum → List UInt8 → VfsM Err}
    (h : ∀ dir name, (change dir name).Once (· = .inside) .inside) :
    (changeParent path atRoot change).Once Stage.Closed .before := by
  refine (silent_fsFindParentInode path).obeys_bind fun r => ?_
  rcases r with e | ⟨dir, name⟩
  · exact once_none e
  · dsimp only
    split
    · exact once_release (once_none atRoot)
    · refine once_begin (obeys_bind.mpr ((h dir name).mono fun err j hj => ?_))
      rw [hj]
      exact once_release (once_end (once_closed err))

theorem once_fsLink (oldpath newpath : List UInt8) :
    (fsLink oldpath newpath).Once Stage.Closed .before := by
  refine (silent_fsFindInode oldpath).obeys_bind fun r => ?_
  rcases r with e | src
  · exact once_none e
  · refine (silent_make (c := .sfs (.inode src)) rfl).obeys_bind fun ino => ?_
    split
    · exact once_release (once_none _)
    · refine (silent_fsFindParentInode newpath).obeys_bind fun r => ?_
      rcases r with e | ⟨dir, name⟩
      · exact once_release (once_none e)
      · dsimp only
        split
        · exact once_release (once_release (once_none _))
        · exact once_begin (once_log fun err =>
            once_release (once_release (once_end (once_closed err))))

theorem once_openInode (flags : BitVec 32) (parent fi : Inum) :
    (openInode flags parent fi).Once Stage.Closed .inside := by
  refine (silent_make (c := .allocFile) rfl).obeys_bind fun r => ?_
  split
  · exact once_end (once_release (once_closed _))
  · exact once_end (once_release (once_release (once_closed _)))

theorem once_openFail (parent : Inum) (err : Err) :
    (openFail parent err).Once Stage.Closed .inside :=
  once_end (once_release (once_closed _))

theorem once_openCreate (flags : BitVec 32) (mode : ℕ) (parent : Inum) (name : List UInt8) :
    (openCreate flags mode parent name).Once Stage.Closed .inside := by
  refine once_log fun (err : Err) => ?_
  split
  · exact (silent_assert _ _).obeys_bind fun _ => once_openFail parent err
  · refine once_log fun (r : Except Err Inum) => ?_
    cases r with
    | error e => exact (silent_assert _ _).obeys_bind fun _ => once_openFail parent e
    | ok fi => exact once_openInode flags parent fi

theorem once_fsOpenFile (path : List UInt8) (flags : BitVec 32) (mode : ℕ) :
    (fsOpenFile path flags mode).Once Stage.Closed .before := by
  rw [fsOpenFile]
  split
  · refine (silent_fsFindParentInode path).obeys_bind fun r => ?_
    rcases r with e | ⟨parent, name⟩
    · exact once_none _
    · refine once_begin ?_
      split
      · exact once_openInode flags parent parent
      · refine once_log fun (r : Except Err Inum) => ?_
        cases r with
        | ok fi => exact once_openInode flags parent fi
        | error e =>
          dsimp only
          split
          · exact once_openFail parent e
          · split
            · exact once_openFail parent e
            · exact once_openCreate flags mode parent name
  · exact once_none _

theorem once_fsWriteFile (file : OpenFile) (bytes : List UInt8) (ofs : ℕ) :
    (fsWriteFile file bytes ofs).Once Stage.Closed .before := by
  rw [fsWriteFile]
  cases file.inode with
  | some i =>
    refine once_begin (obeys_bind.mpr ?_)
    rw [writeIf]
    split
    · exact once_log_end.mono fun ws j hj => hj ▸ once_end (once_closed ws)
    · exact once_end (once_closed 0)
  | none =>
    dsimp only [writeIf]
    split
    · exact (silent_make (c := .devWrite bytes) rfl).obeys fun ws => once_none ws
    · exact once_none 0

theorem once_fsInodeCleanup (n : ℕ) : (fsInodeCleanup n).Once Stage.Closed .before := by
  refine (silent_make (c := .nextInode) rfl).obeys_bind fun i => once_begin ?_
  refine (silent_make (c := .sfs (.inode i)) rfl).obeys_bind fun ino => ?_
  split
  · exact once_retry once_log_end (once_end (once_stop _))
  · exact (silent_assert _ _).obeys_bind fun _ =>
      once_retry once_log_end (once_end ((silent_releaseInode i).obeys fun u => once_closed u))

theorem FsCall.once (f : FsCall) : f.code.Once Stage.Closed .before := by
  cases f with
  | openFile path flags mode => exact Once.discard (once_fsOpenFile path flags mode)
  | writeFile file bytes ofs => exact Once.discard (once_fsWriteFile file bytes ofs)
  | link oldpath newpath => exact Once.discard (once_fsLink oldpath newpath)
  | unlink path | mkdir path | rmdir path =>
    exact Once.discard (once_changeParent path _ fun _ _ => once_log_end)
  | cleanup tries => exact once_fsInodeCleanup tries

end Once

/-! ## The transactions of a thread -/

theorem fsThread_oneByOne (fs : List FsCall) :
    (fsThread fs).Obeys VfsCall.event oneByOne (fun _ j => j = false) false := by
  induction fs with
  | nil => rfl
  | cons f rest ih =>
    rw [fsThread, Calls.obeys_bind]
    have h := f.once.map (φ := fun i => decide (i = Stage.inside)) fun i e j h =>
        show oneByOne _ e = _ by
      cases i <;> cases e <;> cases h <;> rfl
    refine h.mono fun _ j' hj => ?_
    obtain ⟨j, rfl, hclosed⟩ := hj
    rw [decide_eq_false hclosed]
    exact ih

theorem Stage.once_inside {l : List JEvent} {j : Stage} (h : l.foldlM once inside = some j)
    (hj : j.Closed) : ∃ n, l = List.replicate n .log ++ [.finish] := by
  induction l with
  | nil => exact absurd (Option.some.inj h).symm hj
  | cons e l ih =>
    rw [List.foldlM_cons] at h
    cases e with
    | begin => cases h
    | log =>
      obtain ⟨n, hn⟩ := ih h
      exact ⟨n + 1, by rw [hn]; rfl⟩
    | finish =>
      refine ⟨0, ?_⟩
      cases l with
      | nil => rfl
      | cons e' l => cases e' <;> cases h

theorem FsCall.path {f : FsCall} {l : List JEvent} {u : Unit} (h : f.code.Path VfsCall.event l u) :
    l = [] ∨ ∃ n, l = .begin :: (List.replicate n .log ++ [.finish]) := by
  obtain ⟨j, hj, hclosed⟩ := h.follows f.once
  cases l with
  | nil => exact .inl rfl
  | cons e l =>
    rw [List.foldlM_cons] at hj
    cases e with
    | begin =>
      obtain ⟨n, hn⟩ := Stage.once_inside hj hclosed
      exact .inr ⟨n, by rw [hn]⟩
    | log | finish => cases hj

end Osv
