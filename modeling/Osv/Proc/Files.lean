import Mathlib.Data.Finset.Prod
import Osv.Fs.Position

/-!
# Descriptor tables

The calls of `kernel/syscall.c` that change the descriptor tables, and those that use a
descriptor.  A file is a `struct file`: one of the two static ones of the console, an end of a
pipe, or a file of the file system.  Its `f_ops` is one of four tables of functions, and some
of their entries are not there.

`sys_dup`, `sys_pipe` and `proc_fork` put any file into any slot.  Three of the calls go by the
number of a descriptor all the same: `sys_open` never takes the slots 0 and 1
(`open_lowest_iff`), `sys_read` of 0 reads the console (`read_write_slot_iff`), and `sys_fstat`
takes only 0 and 1 for the console (`fstat_readdir_safe_iff`).

A file counts the slots that hold it (`fileRefs_exact`).  A pipe whose files find no slots is freed
without the files (`sysPipe_noTrace_iff`).

Files and pipes are known by the number of their allocation, so an object is never mistaken for
a later one at the same address.  A use of an object that is not there is a trap.
-/

namespace Osv

open Function (update update_self update_of_ne update_idem update_eq_self)
open Prog (bind_of_ok read_bind update_bind)

/-- `f_ops`. -/
inductive FileOps where
  | stdinOps
  | stdoutOps
  | pipeOps
  | sfsFileOperations
deriving DecidableEq, Repr

/-- `struct file`. -/
structure StructFile where
  /-- `f_ref`, which the source keeps in an `int`: it is this number as long as the number is
  `Counted`. -/
  ref : Int
  oflag : BitVec 32
  inode : Option Inum
  ops : FileOps
  /-- The pipe. -/
  info : Option ℕ
deriving DecidableEq, Repr

/-- The pipe that the operations of a file go through. -/
def StructFile.pipeOf (o : StructFile) : Option ℕ := if o.ops = .pipeOps then o.info else none

/-- A `pipe_t`: the pointers to its files, and whether `buffer` is not null. -/
structure PipeObj where
  readFile : Option ℕ
  writeFile : Option ℕ
  buffer : Bool
deriving DecidableEq, Repr

/-- The pointer of the pipe to a file is cleared. -/
def PipeObj.close (b : PipeObj) (f : ℕ) : PipeObj :=
  if b.readFile = some f then { b with readFile := none }
  else if b.writeFile = some f then { b with writeFile := none } else b

/-- Which of the four allocations of `pipe_alloc` succeed. -/
structure PipeMem where
  pipe : Bool
  buffer : Bool
  readFile : Bool
  writeFile : Bool
deriving DecidableEq, Repr

/-- The tables of the processes, the files, the pipes with their buffers, and the inodes. -/
structure Files where
  procs : Finset ℕ
  fds : Fds
  file : ℕ → Option StructFile
  /-- The calls of `fs_free_file`, last one first. -/
  freed : List ℕ
  /-- The files whose last reference `fs_close_file` took, last one first.  It then runs
  `f_ops->close`, if there is one. -/
  closed : List ℕ
  nextFile : ℕ
  pipe : ℕ → Option PipeObj
  bbq : ℕ → Bool
  nextPipe : ℕ
  /-- The array that `sys_pipe` stores to. -/
  user : ℕ × ℕ
  /-- `i_ftype` and `i_size`. -/
  inode : Inum → ℕ × ℕ

/-- A function of the file layer. -/
abbrev FilesM := Prog Trap Files

namespace Fds

variable {fds : Fds} {p n : ℕ}

/-- The least empty slot. -/
def Least (fds : Fds) (p n : ℕ) : Prop := n < procMaxFile ∧ fds p n = none ∧ ∀ m < n, fds p m ≠ none

/-- No slot is empty. -/
def Full (fds : Fds) (p : ℕ) : Prop := ∀ n < procMaxFile, fds p n ≠ none

/-- Two slots are empty. -/
def TwoFree (fds : Fds) (p : ℕ) : Prop :=
  ∃ a b, a < b ∧ b < procMaxFile ∧ fds p a = none ∧ fds p b = none

theorem lowestNull_some : fds.lowestNull p = some n ↔ fds.Least p n := by
  simp only [lowestNull, Least, List.find?_range_eq_some, List.mem_range, Option.isNone_iff_eq_none,
    Bool.not_eq_true', Option.isNone_eq_false_iff, Option.isSome_iff_ne_none]
  tauto

theorem lowestNull_none : fds.lowestNull p = none ↔ fds.Full p := by
  simp only [lowestNull, Full, List.find?_range_eq_none, Bool.not_eq_true',
    Option.isNone_eq_false_iff, Option.isSome_iff_ne_none]

theorem set_apply (fds : Fds) (p n : ℕ) (o : Option ℕ) (p' n' : ℕ) :
    fds.set p n o p' n' = if p' = p ∧ n' = n then o else fds p' n' := by
  unfold Fds.set
  by_cases hp : p' = p
  · subst hp
    by_cases hn : n' = n <;> simp [hn]
  · simp [hp]

theorem set_self (h : fds p n = none) : fds.set p n none = fds := by
  rw [Fds.set, ← h, update_eq_self, update_eq_self]

theorem set_undo (h : fds p n = none) (o : Option ℕ) : (fds.set p n o).set p n none = fds := by
  rw [Fds.set, Fds.set, update_self, update_idem, update_idem]
  exact set_self h

theorem set_of_some {p' n' f : ℕ} (h : fds p n = none) (hf : fds p' n' = some f) (o : Option ℕ) :
    fds.set p n o p' n' = some f := by
  rw [set_apply, if_neg, hf]
  rintro ⟨rfl, rfl⟩
  cases h.symm.trans hf

theorem Least.twoFree (h : fds.Least p n) (f : ℕ) :
    fds.TwoFree p ↔ ¬ (fds.set p n (some f)).Full p := by
  simp only [Full, set_apply, not_forall, not_not]
  constructor
  · rintro ⟨a, b, hab, hb, ha, hb'⟩
    have hn : n ≤ a := by
      by_contra hlt
      exact h.2.2 a (Nat.not_le.mp hlt) ha
    exact ⟨b, hb, by rw [if_neg (by omega)]; exact hb'⟩
  · rintro ⟨b, hb, hb'⟩
    split at hb'
    · cases hb'
    · rename_i hx
      have hne : b ≠ n := fun he => hx ⟨trivial, he⟩
      have hle : ¬ b < n := fun hlt => h.2.2 b hlt hb'
      exact ⟨n, b, by omega, hb, h.2.1, hb'⟩

end Fds

namespace Files

/-- The address of `stdin`. -/
def stdin : ℕ := 0

/-- The address of `stdout`. -/
def stdout : ℕ := 1

/-- A slot is replaced. -/
def setFd (s : Files) (p n : ℕ) (o : Option ℕ) : Files := { s with fds := s.fds.set p n o }

/-- A file is replaced. -/
def setFile (s : Files) (f : ℕ) (o : Option StructFile) : Files :=
  { s with file := update s.file f o }

/-- A file at a new address. -/
def newFile (s : Files) (o : StructFile) : Files :=
  { s.setFile s.nextFile (some o) with nextFile := s.nextFile + 1 }

/-- A file is freed. -/
def freeFile (s : Files) (f : ℕ) : Files := { s.setFile f none with freed := f :: s.freed }

/-- A pipe is replaced. -/
def setPipe (s : Files) (q : ℕ) (o : Option PipeObj) : Files := { s with pipe := update s.pipe q o }

/-- `find_lowest_null_fd`, which begins at 2. -/
def findLowestNullFd (s : Files) (p : ℕ) : Option ℕ :=
  (List.range' 2 (procMaxFile - 2)).find? fun n => (s.fds p n).isNone

/-- `find_lowest_null_fd_from_0`. -/
def findLowestNullFdFrom0 (s : Files) (p : ℕ) : Option ℕ := s.fds.lowestNull p

/-! ## The functions of `fs.c` and `pipe.c` -/

/-- The file at an address. -/
def fileAt (f : ℕ) : FilesM StructFile := do
  let s ← Prog.read
  match s.file f with
  | some o => pure o
  | none => Prog.trap (.wild "file")

/-- With the fields that the caller sets next. -/
def fsAllocFile (mem : Bool) (o : StructFile) : FilesM (Option ℕ) := do
  let s ← Prog.read
  if mem then do
    Prog.update fun s => s.newFile o
    pure (some s.nextFile)
  else pure none

/-- Free a file. -/
def fsFreeFile (f : ℕ) : FilesM Unit := do
  let _ ← fileAt f
  Prog.update fun s => s.freeFile f

/-- Take another reference. -/
def fsReopenFile (f : ℕ) : FilesM Unit := do
  let o ← fileAt f
  Prog.update fun s => s.setFile f (some { o with ref := o.ref + 1 })

/-- The pipe at an address. -/
def pipeAt (q : ℕ) : FilesM PipeObj := do
  let s ← Prog.read
  match s.pipe q with
  | some b => pure b
  | none => Prog.trap (.wild "pipe")

/-- The file is freed next, so that its own pointer to the pipe is not cleared here. -/
def pipeClose (f : ℕ) (o : StructFile) : FilesM Unit :=
  match o.info with
  | none => pure ()
  | some q => do
    let b ← pipeAt q
    Prog.update fun s => s.setPipe q (some (b.close f))

/-- What `pipe_read` and `pipe_write` begin with: the test of `pipe->buffer`, and the buffer if
there is one. -/
def pipeAccess (o : StructFile) : FilesM Unit :=
  match o.info with
  | none => pure ()
  | some q => do
    let b ← pipeAt q
    if b.buffer then Prog.check (fun s => s.bbq q) (.wild "pipe->buffer") else pure ()

/-- `f_ops->close`, which only pipes have. -/
def opsClose (f : ℕ) (o : StructFile) : FilesM Unit :=
  if o.ops = .pipeOps then pipeClose f o else pure ()

/-- Drop a reference, and the file with the last one. -/
def fsCloseFile (f : ℕ) : FilesM Unit := do
  let o ← fileAt f
  Prog.update fun s => s.setFile f (some { o with ref := o.ref - 1 })
  if 0 < o.ref - 1 ∨ f = stdin ∨ f = stdout then pure ()
  else do
    Prog.update fun s => { s with closed := f :: s.closed }
    opsClose f o
    fsFreeFile f

/-- Free a pipe with its buffer. -/
def pipeFree (q : ℕ) : FilesM Unit := do
  let b ← pipeAt q
  if b.buffer then do
    Prog.check (fun s => s.bbq q) (.wild "pipe->buffer")
    Prog.update fun s => { s.setPipe q none with bbq := update s.bbq q false }
  else Prog.update fun s => s.setPipe q none

/-- A new pipe with the result of `bbq_init`. -/
def newPipe (s : Files) (buffer : Bool) : Files :=
  { s.setPipe s.nextPipe (some ⟨none, none, buffer⟩) with
    bbq := update s.bbq s.nextPipe buffer
    nextPipe := s.nextPipe + 1 }

/-- The end of a pipe. -/
def pipeEnd (oflag : BitVec 32) (q : ℕ) : StructFile := ⟨1, oflag, none, .pipeOps, some q⟩

/-- A pipe without one of its files is freed, with the other file. -/
def pipeAbandon (q : ℕ) (files : List ℕ) : FilesM (Option (ℕ × ℕ × ℕ)) := do
  Prog.forEach files fsFreeFile
  pipeFree q
  pure none

/-- `kmalloc` fills the pipe with the byte `0x2b`, so the test of `pipe->buffer` before it is set
always passes. -/
def pipeAlloc (m : PipeMem) : FilesM (Option (ℕ × ℕ × ℕ)) := do
  let s ← Prog.read
  if m.pipe then do
    Prog.update fun s => s.newPipe m.buffer
    let r ← fsAllocFile m.readFile (pipeEnd fsRdonly s.nextPipe)
    let w ← fsAllocFile m.writeFile (pipeEnd fsWronly s.nextPipe)
    Prog.update fun t => t.setPipe s.nextPipe (some ⟨r, w, m.buffer⟩)
    match r, w with
    | some r, some w => pure (some (s.nextPipe, r, w))
    | some r, none => pipeAbandon s.nextPipe [r]
    | none, some w => pipeAbandon s.nextPipe [w]
    | none, none => pipeAbandon s.nextPipe []
  else pure none

/-! ## The calls that change a table -/

/-- `valid` is what `validate_str` says of the path, and `res` the outcome of `fs_open_file`. -/
def sysOpen (p : ℕ) (valid : Bool) (res : Except Err (Inum × BitVec 32)) : FilesM (Except Err ℕ) :=
  if !valid then pure (.error .fault)
  else do
    let s ← Prog.read
    match s.findLowestNullFd p, res with
    | none, _ => pure (.error .nomem)
    | some _, .error e => pure (.error e)
    | some n, .ok (i, oflag) => do
      Prog.update fun s => (s.newFile ⟨1, oflag, some i, .sfsFileOperations, none⟩).setFd p n
        (some s.nextFile)
      pure (.ok n)

/-- A slot is closed. -/
def closeFd (p n : ℕ) : FilesM Unit := do
  let s ← Prog.read
  match s.fds p n with
  | none => pure ()
  | some f => do
    fsCloseFile f
    Prog.update fun s => s.setFd p n none

/-- Close a descriptor. -/
def sysClose (p : ℕ) (fd : Int) : FilesM Err := do
  let s ← Prog.read
  if fd < 0 ∨ (procMaxFile : Int) ≤ fd then pure .inval
  else if s.fds p fd.toNat = none then pure .inval
  else do
    closeFd p fd.toNat
    pure .ok

/-- Give the file of a descriptor another one. -/
def sysDup (p : ℕ) (fd : Int) : FilesM (Except Err ℕ) := do
  let s ← Prog.read
  if fd < 0 ∨ (procMaxFile : Int) ≤ fd then pure (.error .inval)
  else
    match s.fds p fd.toNat, s.findLowestNullFdFrom0 p with
    | none, _ => pure (.error .inval)
    | some _, none => pure (.error .nomem)
    | some f, some n => do
      Prog.update fun s => s.setFd p n (some f)
      fsReopenFile f
      pure (.ok n)

/-- `valid` is what `validate_ptr` says of the array. -/
def sysPipe (p : ℕ) (valid : Bool) (m : PipeMem) : FilesM Err :=
  if !valid then pure .fault
  else do
    match ← pipeAlloc m with
    | none => pure .nomem
    | some (q, r, w) => do
      let s ← Prog.read
      match s.findLowestNullFdFrom0 p with
      | none => do
        pipeFree q
        pure .nomem
      | some readFd => do
        Prog.update fun s => s.setFd p readFd (some r)
        let s ← Prog.read
        match s.findLowestNullFdFrom0 p with
        | none => do
          pipeFree q
          Prog.update fun s => s.setFd p readFd none
          pure .nomem
        | some writeFd => do
          Prog.update fun s => { s.setFd p writeFd (some w) with user := (readFd, writeFd) }
          pure .ok

/-- How far `proc_fork` gets: it has no child, it has no thread for the child, or it returns the
child. -/
inductive ForkEnd where
  | noChild
  | noThread
  | done
deriving DecidableEq, Repr

/-- One slot of `duplicate_process_state`.  The child's slots are taken to be empty before, since
the two that `proc_init` fills are set again here. -/
def copyFd (p c n : ℕ) : FilesM Unit := do
  let s ← Prog.read
  match s.fds p n with
  | none => pure ()
  | some f => do
    Prog.update fun s => s.setFd c n (some f)
    fsReopenFile f

/-- The process is freed with its table. -/
def forget (s : Files) (c : ℕ) : Files :=
  { s with procs := s.procs.erase c, fds := update s.fds c fun _ => none }

/-- `proc_fork`, to the new process `c`. -/
def procFork (p c : ℕ) (e : ForkEnd) : FilesM Bool :=
  if e = .noChild then pure false
  else do
    Prog.update fun s => { s with procs := insert c s.procs }
    Prog.forEach (List.range procMaxFile) (copyFd p c)
    if e = .done then pure true
    else do
      Prog.update fun s => s.forget c
      pure false

/-- `proc_exit`, as far as files go. -/
def procExit (p : ℕ) : FilesM Unit := do
  Prog.forEach (List.range procMaxFile) (closeFd p)
  Prog.update fun s => s.forget p

/-! ## The calls that use a descriptor -/

/-- What a read or a write comes to: an error, 0 bytes, or an operation on the console or on a file.
-/
inductive Io where
  | err (e : Err)
  | nothing
  | console
  | pipe (f : ℕ)
  | sfs (f : ℕ)
deriving DecidableEq, Repr

/-- `f_ops->read`. -/
def FileOps.read : FileOps → Option (ℕ → Io)
  | .stdinOps => some fun _ => .console
  | .stdoutOps => none
  | .pipeOps => some .pipe
  | .sfsFileOperations => some .sfs

/-- `f_ops->write`. -/
def FileOps.write : FileOps → Option (ℕ → Io)
  | .stdinOps => none
  | .stdoutOps => some fun _ => .console
  | .pipeOps => some .pipe
  | .sfsFileOperations => some .sfs

/-- An operation of a file, where its mode does not forbid it. -/
def operate (op : FileOps → Option (ℕ → Io)) (forbids : BitVec 32) (f : ℕ) : FilesM Io := do
  let o ← fileAt f
  if o.oflag ≠ forbids then
    match op o.ops with
    | some act => do
      (if o.ops = .pipeOps then pipeAccess o else pure ())
      pure (act f)
    | none => Prog.trap (.wild "f_ops")
  else pure .nothing

/-- Read, unless the mode forbids it. -/
def fsReadFile (f : ℕ) : FilesM Io := operate FileOps.read fsWronly f

/-- Write, unless the mode forbids it. -/
def fsWriteFile (f : ℕ) : FilesM Io := operate FileOps.write fsRdonly f

/-- `valid` is what `validate_ptr` says of the buffer. -/
def sysRead (p : ℕ) (valid : Bool) (fd : ℕ) : FilesM Io :=
  if !valid then pure (.err .fault)
  else if procMaxFile ≤ fd then pure (.err .inval)
  else if fd = 0 then pure .console
  else do
    let s ← Prog.read
    match s.fds p fd with
    | none => pure (.err .inval)
    | some f => fsReadFile f

/-- The checks of `sys_write`. -/
def sysWrite (p : ℕ) (valid : Bool) (fd : ℕ) : FilesM Io :=
  if !valid then pure (.err .fault)
  else if procMaxFile ≤ fd then pure (.err .inval)
  else do
    let s ← Prog.read
    match s.fds p fd with
    | none => pure (.err .inval)
    | some f => if f = stdout then pure .console else fsWriteFile f

/-- `f_inode`, to be followed. -/
def inodeOf (f : ℕ) : FilesM Inum := do
  let o ← fileAt f
  match o.inode with
  | some i => pure i
  | none => Prog.trap (.wild "f_inode")

/-- With the size and the type for the user. -/
def sysFstat (p : ℕ) (valid : Bool) (fd : ℕ) : FilesM (Except Err (ℕ × ℕ)) :=
  if procMaxFile ≤ fd then pure (.error .inval)
  else if !valid then pure (.error .fault)
  else if fd = 1 ∨ fd = 0 then pure (.error .inval)
  else do
    let s ← Prog.read
    match s.fds p fd with
    | none => pure (.error .inval)
    | some f => do
      let i ← inodeOf f
      if (s.inode i).1 ≠ ftypeFile then pure (.error .inval) else
      pure (.ok ((s.inode i).2, (s.inode i).1))

/-- `res` is the outcome of `sfs_readdir`, the only `f_ops->readdir`. -/
def sysReaddir (p : ℕ) (valid : Bool) (fd : ℕ) (res : Err) : FilesM Err :=
  if !valid then pure .fault
  else if procMaxFile ≤ fd then pure .inval
  else do
    let s ← Prog.read
    match s.fds p fd with
    | none => pure .inval
    | some f => do
      let i ← inodeOf f
      if (s.inode i).1 ≠ ftypeDir then pure .ftype
      else do
        let o ← fileAt f
        if o.ops = .sfsFileOperations then pure res else Prog.trap (.wild "f_ops->readdir")

/-! ## The first state -/

/-- `stdin` and `stdout`, as `console_init` leaves them. -/
def console (f : ℕ) : Option StructFile :=
  if f = stdin then some ⟨0, fsRdonly, none, .stdinOps, none⟩
  else if f = stdout then some ⟨0, fsWronly, none, .stdoutOps, none⟩ else none

/-- One process, with the table that `proc_init` builds. -/
def init (inode : Inum → ℕ × ℕ) : Files where
  procs := {0}
  fds := fun p n =>
    if p = 0 ∧ n = 0 then some stdin else if p = 0 ∧ n = 1 then some stdout else none
  file := console
  freed := []
  closed := []
  nextFile := 2
  pipe := fun _ => none
  bbq := fun _ => false
  nextPipe := 0
  user := (0, 0)
  inode := inode

/-! ## Who holds a file -/

variable {s s' : Files} {p n f g : ℕ} {o : StructFile}

/-- The slots that hold a file. -/
def holders (s : Files) (f : ℕ) : Finset (ℕ × ℕ) :=
  (s.procs ×ˢ Finset.range procMaxFile).filter fun x => s.fds x.1 x.2 = some f

theorem mem_holders {x : ℕ × ℕ} :
    x ∈ s.holders f ↔ (x.1 ∈ s.procs ∧ x.2 < procMaxFile) ∧ s.fds x.1 x.2 = some f := by
  simp [holders]

theorem set_some {fds : Fds} {o : Option ℕ} {p' n' : ℕ} (h : fds.set p n o p' n' = some g) :
    (p' = p ∧ n' = n) ∧ o = some g ∨ fds p' n' = some g := by
  rw [Fds.set_apply] at h
  split at h
  · exact .inl ⟨‹_›, h⟩
  · exact .inr h

theorem holders_fill (h : s.fds p n = none) (hp : p ∈ s.procs) (hn : n < procMaxFile) :
    (s.setFd p n (some f)).holders g = if g = f then insert (p, n) (s.holders g)
    else s.holders g := by
  ext ⟨p', n'⟩
  by_cases hx : p' = p ∧ n' = n
  · obtain ⟨rfl, rfl⟩ := hx
    by_cases hg : g = f
    · simp [mem_holders, setFd, Fds.set_apply, hp, hn, hg]
    · simp [mem_holders, setFd, Fds.set_apply, h, hg, Ne.symm hg]
  · by_cases hg : g = f <;> simp [mem_holders, setFd, Fds.set_apply, hx, hg]

theorem holders_clear (h : s.fds p n = some f) :
    (s.setFd p n none).holders g = if g = f then (s.holders g).erase (p, n) else s.holders g := by
  ext ⟨p', n'⟩
  by_cases hx : p' = p ∧ n' = n
  · obtain ⟨rfl, rfl⟩ := hx
    by_cases hg : g = f
    · simp [mem_holders, setFd, Fds.set_apply, hg]
    · simp [mem_holders, setFd, Fds.set_apply, h, hg, Ne.symm hg]
  · by_cases hg : g = f <;> simp [mem_holders, setFd, Fds.set_apply, hx, hg]

/-- What kind of file is at an address. -/
def Kind (f : ℕ) (o : StructFile) : Prop :=
  if f = stdin then o.ops = .stdinOps ∧ o.oflag = fsRdonly ∧ o.inode = none
  else if f = stdout then o.ops = .stdoutOps ∧ o.oflag = fsWronly ∧ o.inode = none
  else o.ops = .pipeOps ∧ o.inode = none ∨ o.ops = .sfsFileOperations ∧ o.inode ≠ none

/-- A file counts its slots, exactly or at least. -/
def Counts (exact : Bool) (n : ℕ) (r : Int) : Prop := if exact then r = n else (n : Int) ≤ r

variable {exact : Bool}

theorem Counts.le {n : ℕ} {r : Int} (h : Counts exact n r) : (n : Int) ≤ r := by
  unfold Counts at h
  split at h
  · exact h.ge
  · exact h

theorem Counts.add {n : ℕ} {r : Int} (h : Counts exact n r) : Counts exact (n + 1) (r + 1) := by
  unfold Counts at *
  split at h <;> simp_all

theorem Counts.sub {n : ℕ} {r : Int} (h : Counts exact (n + 1) r) : Counts exact n (r - 1) := by
  unfold Counts at *
  split at h
  · rw [if_pos ‹_›]
    omega
  · rw [if_neg ‹_›]
    omega

/-- A slot holds an end of the pipe. -/
def EndAt (s : Files) (q p n : ℕ) : Prop :=
  ∃ f o, s.fds p n = some f ∧ s.file f = some o ∧ o.pipeOf = some q

/-- The pipe of a slot is there, and the buffers are those of the pipes that have one. -/
structure Piped (s : Files) : Prop where
  held : ∀ q p n, s.EndAt q p n → s.pipe q ≠ none
  bbq : ∀ q, s.bbq q = true ↔ ∃ b, s.pipe q = some b ∧ b.buffer = true
  fresh : ∀ q, s.nextPipe ≤ q → s.pipe q = none

/-- The same pipes are there, with the same buffers. -/
structure SamePipes (s s' : Files) : Prop where
  buffer : ∀ q, (s'.pipe q).map (·.buffer) = (s.pipe q).map (·.buffer)
  bbq : s'.bbq = s.bbq
  next : s.nextPipe ≤ s'.nextPipe

theorem SamePipes.refl (s : Files) : SamePipes s s := ⟨fun _ => rfl, rfl, le_rfl⟩

/-- What a slot holds was in a slot before and has the pipe that it had, or is new and no end of a
pipe. -/
def SameEnds (s s' : Files) : Prop :=
  ∀ p n f o', s'.fds p n = some f → s'.file f = some o' →
    (∃ o, s.file f = some o ∧ o.pipeOf = o'.pipeOf) ∧ (∃ p n, s.fds p n = some f) ∨
      s.file f = none ∧ o'.pipeOf = none

theorem SameEnds.of_update {x : Option StructFile} (hfile : s'.file = update s.file f x)
    (hx : ∀ o', x = some o' → ∃ o, s.file f = some o ∧ o.pipeOf = o'.pipeOf)
    (hfds : ∀ p n g, s'.fds p n = some g → ∃ p n, s.fds p n = some g) : SameEnds s s' := by
  refine fun p n g o' hg ho' => .inl ⟨?_, hfds p n g hg⟩
  rw [hfile] at ho'
  by_cases he : g = f
  · rw [he, update_self] at ho'
    rw [he]
    exact hx o' ho'
  · rw [update_of_ne he] at ho'
    exact ⟨o', ho', rfl⟩

theorem SameEnds.of_lost (hfile : s'.file = s.file)
    (hfds : ∀ p n g, s'.fds p n = some g → s.fds p n = some g) :
    SameEnds s s' := fun p n g o' hg ho' => .inl ⟨⟨o', hfile ▸ ho', rfl⟩, p, n, hfds p n g hg⟩

theorem Piped.of_same (h : s.Piped) (hends : SameEnds s s') (hp : SamePipes s s') : s'.Piped := by
  have hnone : ∀ q, s'.pipe q = none ↔ s.pipe q = none := fun q => by
    rw [← Option.map_eq_none_iff (f := PipeObj.buffer), hp.buffer, Option.map_eq_none_iff]
  have hbuf : ∀ (u : Files) q, (∃ b, u.pipe q = some b ∧ b.buffer = true) ↔
      (u.pipe q).map (·.buffer) = some true := fun u q => by simp [Option.map_eq_some_iff]
  refine ⟨fun q p n he => ?_, fun q => ?_, fun q hq => (hnone q).mpr (h.fresh q (hp.next.trans hq))⟩
  · obtain ⟨f, o', hf, ho', hq⟩ := he
    obtain ⟨⟨o, ho, hoo⟩, p', n', hf'⟩ | ⟨-, hno⟩ := hends p n f o' hf ho'
    · exact (hnone q).not.mpr (h.held q p' n' ⟨f, o, hf', ho, hoo.trans hq⟩)
    · cases hno.symm.trans hq
  · rw [hp.bbq, h.bbq, hbuf, hbuf, hp.buffer]

/-- The pipes are in order, and where the counts are exact only `fs_close_file` frees files. -/
def Rest (exact : Bool) (s : Files) : Prop := s.Piped ∧ (exact = true → s.closed = s.freed)

/-- What holds in every reachable state. -/
structure Inv (exact : Bool) (s : Files) : Prop where
  table : ∀ p n f, s.fds p n = some f → (p ∈ s.procs ∧ n < procMaxFile) ∧ s.file f ≠ none
  ref : ∀ f o, 2 ≤ f → s.file f = some o → 0 < o.ref ∧ Counts exact (s.holders f).card o.ref
  kind : ∀ f o, s.file f = some o → Kind f o
  std : s.file stdin ≠ none ∧ s.file stdout ≠ none
  fresh : 2 ≤ s.nextFile ∧ ∀ f, s.nextFile ≤ f → s.file f = none
  freed : s.freed.Nodup ∧ ∀ f, f ∈ s.freed ↔ 2 ≤ f ∧ f < s.nextFile ∧ s.file f = none
  rest : s.Rest exact

namespace Inv

variable {exact : Bool} (I : Inv exact s)

include I

theorem holds (h : s.fds p n = some f) : (p, n) ∈ s.holders f :=
  mem_holders.mpr ⟨(I.table p n f h).1, h⟩

theorem change {x : Option StructFile} (hfile : s'.file = update s.file f x)
    (htab : ∀ p n g, s'.fds p n = some g →
      (p ∈ s'.procs ∧ n < procMaxFile) ∧ if g = f then x ≠ none else s.file g ≠ none)
    (hold : ∀ g, g ≠ f → s'.holders g = s.holders g)
    (hx : ∀ o, x = some o → Kind f o ∧ (2 ≤ f → 0 < o.ref ∧ Counts exact (s'.holders f).card o.ref))
    (hlog : x ≠ none ∧ s'.freed = s.freed ∧
        (s'.nextFile = s.nextFile ∧ s.file f ≠ none ∨
        s'.nextFile = s.nextFile + 1 ∧ f = s.nextFile) ∨
      x = none ∧ 2 ≤ f ∧ s'.freed = f :: s.freed ∧ s'.nextFile = s.nextFile ∧ s.file f ≠ none)
    (hrest : s'.Rest exact) : Inv exact s' := by
  have hat : ∀ {g o}, s'.file g = some o → g = f ∧ x = some o ∨ g ≠ f ∧ s.file g = some o := by
    intro g o h
    rw [hfile] at h
    by_cases hg : g = f
    · exact .inl ⟨hg, by rwa [hg, update_self] at h⟩
    · exact .inr ⟨hg, by rwa [update_of_ne hg] at h⟩
  have hother : ∀ g, g ≠ f → s'.file g = s.file g := fun g hg => by rw [hfile, update_of_ne hg]
  have hself : s'.file f = x := by rw [hfile, update_self]
  have hle : s.nextFile ≤ s'.nextFile ∧ f < s'.nextFile := by
    have hlt : s.file f ≠ none → f < s.nextFile := fun h => by
      by_contra hge
      exact h (I.fresh.2 f (Nat.not_lt.mp hge))
    rcases hlog with ⟨-, -, ⟨h, h'⟩ | ⟨h, h'⟩⟩ | ⟨-, -, -, h, h'⟩
    · exact ⟨h.ge, h ▸ hlt h'⟩
    · omega
    · exact ⟨h.ge, h ▸ hlt h'⟩
  have hstd : ∀ g, g < 2 → s.file g ≠ none → s'.file g ≠ none := by
    intro g h2 hg
    by_cases hgf : g = f
    · rcases hlog with ⟨h, -⟩ | ⟨-, h, -⟩
      · rwa [hgf, hself]
      · omega
    · rwa [hother g hgf]
  refine ⟨fun p n g h => ⟨(htab p n g h).1, ?_⟩, fun g o h2 h => ?_, fun g o h => ?_,
    ⟨hstd _ (by decide) I.std.1, hstd _ (by decide) I.std.2⟩,
    ⟨I.fresh.1.trans hle.1, fun g h => ?_⟩, ?_, hrest⟩
  · have := (htab p n g h).2
    split at this
    · rename_i hg
      rwa [hg, hself]
    · rename_i hg
      rwa [hother g hg]
  · rcases hat h with ⟨rfl, h⟩ | ⟨hg, h⟩
    · exact (hx o h).2 h2
    · rw [hold g hg]
      exact I.ref g o h2 h
  · rcases hat h with ⟨rfl, h⟩ | ⟨-, h⟩
    · exact (hx o h).1
    · exact I.kind g o h
  · rw [hother g (by omega)]
    exact I.fresh.2 g (hle.1.trans h)
  · have hmem : ∀ g, g ≠ f → (g ∈ s.freed ↔ 2 ≤ g ∧ g < s'.nextFile ∧ s'.file g = none) := by
      intro g hg
      rw [I.freed.2 g, hother g hg]
      refine and_congr_right fun _ => and_congr_left fun _ =>
        ⟨fun h => h.trans_le hle.1, fun h => ?_⟩
      rcases hlog with ⟨-, -, ⟨h', -⟩ | ⟨h', h''⟩⟩ | ⟨-, -, -, h', -⟩ <;> omega
    have hnot : f ∉ s.freed := by
      rw [I.freed.2 f]
      rcases hlog with ⟨-, -, ⟨-, h⟩ | ⟨-, h⟩⟩ | ⟨-, -, -, -, h⟩
      · exact fun h' => h h'.2.2
      · exact fun h' => by omega
      · exact fun h' => h h'.2.2
    rcases hlog with ⟨hne, hfr, -⟩ | ⟨hnone, h2, hfr, -⟩
    · refine ⟨hfr ▸ I.freed.1, fun g => ?_⟩
      rw [hfr]
      by_cases hg : g = f
      · rw [hg, hself]
        exact iff_of_false hnot fun h => hne h.2.2
      · exact hmem g hg
    · refine ⟨hfr ▸ List.nodup_cons.mpr ⟨hnot, I.freed.1⟩, fun g => ?_⟩
      rw [hfr, List.mem_cons]
      by_cases hg : g = f
      · rw [hg, hself]
        exact iff_of_true (.inl rfl) ⟨h2, hle.2, hnone⟩
      · rw [or_iff_right hg]
        exact hmem g hg

theorem fill (h : s.fds p n = none) (hp : p ∈ s.procs) (hn : n < procMaxFile)
    (hf : s.file f = some o)
    (hends : SameEnds s ((s.setFd p n (some f)).setFile f (some { o with ref := o.ref + 1 }))) :
    Inv exact ((s.setFd p n (some f)).setFile f (some { o with ref := o.ref + 1 })) := by
  refine I.change rfl (fun p' n' g hg => ?_) (fun g hg => ?_) (fun o' ho => ?_)
    (.inl ⟨by simp, rfl, .inl ⟨rfl, by simp [hf]⟩⟩)
    ⟨I.rest.1.of_same hends ⟨fun _ => rfl, rfl, le_rfl⟩, I.rest.2⟩
  · rcases set_some hg with ⟨⟨rfl, rfl⟩, he⟩ | hg
    · cases he
      exact ⟨⟨hp, hn⟩, by simp⟩
    · exact ⟨(I.table p' n' g hg).1, by split <;> simp [(I.table p' n' g hg).2]⟩
  · exact (holders_fill h hp hn).trans (if_neg hg)
  · cases ho
    refine ⟨I.kind f o hf, fun h2 => ?_⟩
    have hr := I.ref f o h2 hf
    have hh : (s.setFd p n (some f)).holders f = insert (p, n) (s.holders f) :=
      (holders_fill h hp hn).trans (if_pos rfl)
    show 0 < o.ref + 1 ∧ Counts exact ((s.setFd p n (some f)).holders f).card (o.ref + 1)
    rw [hh, Finset.card_insert_of_notMem fun hx => by simp [mem_holders, h] at hx]
    exact ⟨by omega, hr.2.add⟩

theorem holders_fresh : s.holders s.nextFile = ∅ := by
  refine Finset.eq_empty_of_forall_notMem fun x hx => ?_
  exact (I.table _ _ _ (mem_holders.mp hx).2).2 (I.fresh.2 _ le_rfl)

theorem place (h : s.fds p n = none) (hp : p ∈ s.procs) (hn : n < procMaxFile)
    (hk : Kind s.nextFile o) (hr : o.ref = 1) (hq : ∀ q, o.pipeOf = some q → s.pipe q ≠ none) :
    Inv exact ((s.newFile o).setFd p n (some s.nextFile)) := by
  have hh : ∀ g, ((s.newFile o).setFd p n (some s.nextFile)).holders g =
      if g = s.nextFile then insert (p, n) (s.holders g) else s.holders g :=
      fun _ => holders_fill h hp hn
  refine I.change (x := some o) rfl (fun p' n' g hg => ?_) (fun g hg => (hh g).trans (if_neg hg))
    (fun o' ho => ?_) (.inl ⟨by simp, rfl, .inr ⟨rfl, rfl⟩⟩)
    ⟨⟨fun q p' n' he => ?_, I.rest.1.bbq, I.rest.1.fresh⟩, I.rest.2⟩
  · rcases set_some hg with ⟨⟨rfl, rfl⟩, he⟩ | hg
    · cases he
      exact ⟨⟨hp, hn⟩, by simp⟩
    · exact ⟨(I.table p' n' g hg).1, by split <;> simp [(I.table p' n' g hg).2]⟩
  · cases ho
    refine ⟨hk, fun _ => ?_⟩
    rw [hh, if_pos rfl, I.holders_fresh, hr]
    exact ⟨Int.one_pos, by cases exact <;> simp [Counts]⟩
  · obtain ⟨f, x, hf, hx, hq'⟩ := he
    rcases set_some hf with ⟨⟨rfl, rfl⟩, he⟩ | hf
    · cases he
      have hnew : ((s.newFile o).setFd p' n' (some s.nextFile)).file s.nextFile =
          some o := update_self ..
      cases hnew.symm.trans hx
      exact hq q hq'
    · have hne : f ≠ s.nextFile := fun he => (I.table p' n' f hf).2 (he ▸ I.fresh.2 _ le_rfl)
      exact I.rest.1.held q p' n' ⟨f, x, hf, (update_of_ne hne _ _).symm.trans hx, hq'⟩

theorem clear (h : s.fds p n = some f) (hf : s.file f = some o) (hfds : s'.fds = s.fds.set p n none)
    (hprocs : s'.procs = s.procs) (hnext : s'.nextFile = s.nextFile) (hrest : s'.Rest exact)
    (hs : (0 < o.ref - 1 ∨ f < 2) ∧ s'.freed = s.freed ∧
        s'.file = update s.file f (some { o with ref := o.ref - 1 }) ∨
      o.ref - 1 ≤ 0 ∧ 2 ≤ f ∧ s'.freed = f :: s.freed ∧ s'.file = update s.file f none) :
    Inv exact s' := by
  have hh : ∀ g, s'.holders g = if g = f then (s.holders g).erase (p, n) else
      s.holders g := fun g => by
    rw [← holders_clear h, holders, holders, hprocs, hfds]
    rfl
  have hcard : ∀ {r}, Counts exact (s.holders f).card r →
      Counts exact (s'.holders f).card (r - 1) := by
    intro r hr
    rw [hh, if_pos rfl, Finset.card_erase_of_mem (I.holds h)]
    have hpos := Finset.card_pos.mpr ⟨_, I.holds h⟩
    rw [← Nat.sub_add_cancel hpos] at hr
    exact hr.sub
  have htab : ∀ p' n' g, s'.fds p' n' = some g → (p' ∈ s'.procs ∧ n' < procMaxFile) ∧
      s.file g ≠ none ∧
      (p', n') ∈ s'.holders g := by
    intro p' n' g hg
    have hg' := hfds ▸ hg
    rcases set_some hg' with ⟨-, hg'⟩ | hg'
    · cases hg'
    · have ht := I.table p' n' g hg'
      rw [← hprocs] at ht
      exact ⟨ht.1, ht.2, mem_holders.mpr ⟨ht.1, hg⟩⟩
  rcases hs with ⟨hpos, hfr, hfile⟩ | ⟨hle, h2, hfr, hfile⟩
  · refine I.change hfile (fun p' n' g hg => ⟨(htab p' n' g hg).1, ?_⟩)
      (fun g hg => (hh g).trans (if_neg hg))
      (fun o' ho => ?_) (.inl ⟨by simp, hfr, .inl ⟨hnext, by simp [hf]⟩⟩) hrest
    · split
      · simp
      · exact (htab p' n' g hg).2.1
    · cases ho
      exact ⟨I.kind f o hf, fun h2 => ⟨by dsimp only; omega, hcard (I.ref f o h2 hf).2⟩⟩
  · refine I.change hfile (fun p' n' g hg => ⟨(htab p' n' g hg).1, ?_⟩)
      (fun g hg => (hh g).trans (if_neg hg))
      (fun o' ho => by cases ho) (.inr ⟨rfl, h2, hfr, hnext, by simp [hf]⟩) hrest
    split
    · rename_i hgf
      have hc := (hcard (I.ref f o h2 hf).2).le
      have hpos := Finset.card_pos.mpr ⟨_, hgf ▸ (htab p' n' g hg).2.2⟩
      omega
    · exact (htab p' n' g hg).2.1

theorem retable (hfile : s'.file = s.file) (hfr : s'.freed = s.freed)
    (hnext : s'.nextFile = s.nextFile)
    (htab : ∀ p n g, s'.fds p n = some g → (p ∈ s'.procs ∧ n < procMaxFile) ∧ s.fds p n = some g)
    (hh : ∀ f, s'.holders f = s.holders f ∨ exact = false ∧ s'.holders f ⊆ s.holders f)
    (hrest : s'.Rest exact) : Inv exact s' := by
  refine ⟨fun p n g h => ⟨(htab p n g h).1, ?_⟩, fun f o h2 h => ?_, ?_, ?_, ?_, ?_, hrest⟩
  · rw [hfile]
    exact (I.table p n g (htab p n g h).2).2
  · rw [hfile] at h
    have hr := I.ref f o h2 h
    rcases hh f with he | ⟨rfl, hsub⟩
    · rwa [he]
    · exact ⟨hr.1, (Int.ofNat_le.mpr (Finset.card_le_card hsub)).trans hr.2.le⟩
  · rw [hfile]; exact I.kind
  · rw [hfile]; exact I.std
  · rw [hfile, hnext]; exact I.fresh
  · rw [hfile, hnext, hfr]; exact I.freed

end Inv

/-! ## Ends of pipes -/

/-- The slots outside of `X` keep their ends of pipes, and the pipes stay. -/
structure Later (X : ℕ → ℕ → Prop) (s s' : Files) : Prop where
  ends : ∀ q p n, s.EndAt q p n → ¬ X p n → s'.EndAt q p n
  buffer : ∀ q, (s'.pipe q).map (·.buffer) = (s.pipe q).map (·.buffer)

section later

variable {X : ℕ → ℕ → Prop} {t : Files}

theorem Later.refl (s : Files) : Later X s s := ⟨fun _ _ _ h _ => h, fun _ => rfl⟩

theorem Later.trans (h : Later X s t) (h' : Later X t s') : Later X s s' :=
  ⟨fun q p n he hx => h'.ends q p n (h.ends q p n he hx) hx, fun q =>
    (h'.buffer q).trans (h.buffer q)⟩

theorem Later.mono {Y : ℕ → ℕ → Prop} (h : Later X s s') (hXY : ∀ p n, X p n → Y p n) :
    Later Y s s' :=
  ⟨fun q p n he hy => h.ends q p n he fun hx => hy (hXY p n hx), h.buffer⟩

theorem Inv.later (J : Inv exact s') (hends : SameEnds s s')
    (hfds : ∀ p n g, s.fds p n = some g → ¬ X p n → s'.fds p n = some g)
    (hbuf : ∀ q, (s'.pipe q).map (·.buffer) = (s.pipe q).map (·.buffer)) : Later X s s' := by
  refine ⟨fun q p n he hx => ?_, hbuf⟩
  obtain ⟨f, o, hf, ho, hq⟩ := he
  have hf' := hfds p n f hf hx
  obtain ⟨o', ho'⟩ := Option.ne_none_iff_exists'.mp (J.table p n f hf').2
  obtain ⟨⟨y, hy, he⟩, -⟩ | ⟨hnone, -⟩ := hends p n f o' hf' ho'
  · cases ho.symm.trans hy
    exact ⟨f, o', hf', ho', he.symm.trans hq⟩
  · cases ho.symm.trans hnone

end later

/-! ## Making a pipe -/

/-- The numbers for new objects have not been used. -/
structure Fresh (s : Files) : Prop where
  file : ∀ f, s.nextFile ≤ f → s.file f = none
  pipe : s.pipe s.nextPipe = none
  bbq : s.bbq s.nextPipe = false

/-- The tables, the user's array, the files, the pipes and the buffers are as before. -/
structure NoTrace (s s' : Files) : Prop where
  procs : s'.procs = s.procs
  fds : s'.fds = s.fds
  user : s'.user = s.user
  file : s'.file = s.file
  pipe : s'.pipe = s.pipe
  bbq : s'.bbq = s.bbq
  next : s.nextPipe ≤ s'.nextPipe

theorem pipeAt_run {q : ℕ} {b : PipeObj} (h : s.pipe q = some b) : pipeAt q s = .ok (b, s) := by
  rw [pipeAt, read_bind, h]
  rfl

theorem pipeFree_new {t : Files} {q : ℕ} {b : PipeObj} (hp : t.pipe = update s.pipe q (some b))
    (hb : t.bbq = update s.bbq q b.buffer) (hq : s.pipe q = none) (hbq : s.bbq q = false) :
    pipeFree q t = .ok ((), { t with pipe := s.pipe, bbq := s.bbq }) := by
  have hpipe : update t.pipe q none = s.pipe := by
    rw [hp, update_idem, ← hq, update_eq_self]
  have hat : t.pipe q = some b := by rw [hp, update_self]
  rw [pipeFree, bind_of_ok (pipeAt_run hat)]
  cases hbuf : b.buffer with
  | true =>
    have hbbq : update t.bbq q false = s.bbq := by
      rw [hb, update_idem, ← hbq, update_eq_self]
    have hcheck : (Prog.check (fun s : Files => s.bbq q) (.wild "pipe->buffer") : FilesM Unit) t =
        .ok ((), t) := by
      rw [Prog.check_run, hb, update_self, hbuf]
      rfl
    rw [if_pos rfl, bind_of_ok hcheck]
    show Except.ok ((), { t.setPipe q none with bbq := update t.bbq q false }) = _
    rw [hbbq, setPipe, hpipe]
  | false =>
    have hbbq : t.bbq = s.bbq := by rw [hb, hbuf, ← hbq, update_eq_self]
    rw [if_neg (by simp)]
    show Except.ok ((), t.setPipe q none) = _
    rw [setPipe, hpipe, ← hbbq]

theorem fileAt_run (h : s.file f = some o) : fileAt f s = .ok (o, s) := by
  rw [fileAt, read_bind, h]
  rfl

theorem fsFreeFile_run (h : s.file f = some o) : fsFreeFile f s = .ok ((), s.freeFile f) := by
  rw [fsFreeFile, bind_of_ok (fileAt_run h)]
  rfl

/-- No file was made, or one was and is freed. -/
def Freed (s t : Files) : Prop :=
  t.freed = s.freed ∧ t.nextFile = s.nextFile ∨ t.freed = s.nextFile :: s.freed ∧
    t.nextFile = s.nextFile + 1

/-- `pipe_alloc` without memory for the pipe or for one of the files leaves no trace. -/
theorem pipeAlloc_fails (F : s.Fresh) {m : PipeMem} (hm : ¬ (m.pipe ∧ m.readFile ∧ m.writeFile)) :
    ∃ t, pipeAlloc m s = .ok (none, t) ∧ NoTrace s t ∧ Freed s t := by
  rw [pipeAlloc, read_bind]
  cases hp : m.pipe with
  | false => exact ⟨s, rfl, ⟨rfl, rfl, rfl, rfl, rfl, rfl, le_rfl⟩, .inl ⟨rfl, rfl⟩⟩
  | true =>
    rw [if_pos rfl, update_bind]
    have hfile : ∀ o, update (update s.file s.nextFile o) s.nextFile none = s.file := fun o => by
      rw [update_idem, ← F.file _ le_rfl, update_eq_self]
    have hpipe : ∀ b : PipeObj, update (s.newPipe m.buffer).pipe s.nextPipe (some b) =
        update s.pipe s.nextPipe (some b) := fun b => update_idem ..
    have hone : ∀ (o : StructFile) (b : PipeObj), b.buffer = m.buffer → ∃ t,
        pipeAbandon s.nextPipe [s.nextFile]
        (((s.newPipe m.buffer).newFile o).setPipe s.nextPipe (some b)) =
          .ok (none, t) ∧ NoTrace s t ∧ Freed s t := by
      intro o b hb
      have hf : (((s.newPipe m.buffer).newFile o).setPipe s.nextPipe (some b)).file s.nextFile =
          some o :=
        update_self ..
      have hfree : Prog.forEach [s.nextFile] fsFreeFile _ = _ :=
        (Prog.forEach_singleton ..).trans (fsFreeFile_run hf)
      have hdone := pipeFree_new
        (t := (((s.newPipe m.buffer).newFile o).setPipe s.nextPipe (some b)).freeFile s.nextFile)
        (hpipe b) (by rw [hb]; rfl) F.pipe F.bbq
      exact ⟨_, (bind_of_ok hfree).trans ((bind_of_ok hdone).trans rfl),
        ⟨rfl, rfl, rfl, hfile _, rfl, rfl, Nat.le_succ _⟩, .inr ⟨rfl, rfl⟩⟩
    cases hr : m.readFile <;> cases hw : m.writeFile
    · exact ⟨_, (bind_of_ok (pipeFree_new (hpipe ⟨none, none, m.buffer⟩) rfl F.pipe F.bbq)).trans
        rfl,
        ⟨rfl, rfl, rfl, rfl, rfl, rfl, Nat.le_succ _⟩, .inl ⟨rfl, rfl⟩⟩
    · exact hone (pipeEnd fsWronly s.nextPipe) ⟨none, some s.nextFile, m.buffer⟩ rfl
    · exact hone (pipeEnd fsRdonly s.nextPipe) ⟨some s.nextFile, none, m.buffer⟩ rfl
    · exact absurd ⟨hp, hr, hw⟩ hm

/-- The state with a new pipe and its ends. -/
def madePipe (s : Files) (buffer : Bool) : Files :=
  (((s.newPipe buffer).newFile (pipeEnd fsRdonly s.nextPipe)).newFile
    (pipeEnd fsWronly s.nextPipe)).setPipe
    s.nextPipe (some ⟨some s.nextFile, some (s.nextFile + 1), buffer⟩)

theorem pipeAlloc_made {m : PipeMem} (hm : m.pipe ∧ m.readFile ∧ m.writeFile) :
    pipeAlloc m s = .ok (some (s.nextPipe, s.nextFile, s.nextFile + 1), s.madePipe m.buffer) := by
  obtain ⟨pipe, buffer, readFile, writeFile⟩ := m
  obtain ⟨h1, h2, h3⟩ := hm
  dsimp only at h1 h2 h3
  subst h1 h2 h3
  rfl

/-- The state after `sys_pipe` has found the slots. -/
def pipeDone (s : Files) (p : ℕ) (buffer : Bool) (a b : ℕ) : Files :=
  { ((s.madePipe buffer).setFd p a (some s.nextFile)).setFd p b (some (s.nextFile + 1)) with
    user := (a, b) }

/-- The state after `sys_pipe` has not found the slots: the two files are still there. -/
def pipeLost (s : Files) (buffer : Bool) : Files :=
  { s.madePipe buffer with pipe := s.pipe, bbq := s.bbq }

/-- The array is valid and there is memory for the pipe and its files. -/
def Made (valid : Bool) (m : PipeMem) : Prop := valid = true ∧ m.pipe ∧ m.readFile ∧ m.writeFile

theorem sysPipe_spec (F : s.Fresh) (p : ℕ) (valid : Bool) (m : PipeMem) :
    ∃ e t, sysPipe p valid m s = .ok (e, t) ∧
    (¬ Made valid m ∧ e = (if valid then .nomem else .fault) ∧ NoTrace s t ∧ Freed s t ∨
      Made valid m ∧ ¬ s.fds.TwoFree p ∧ e = .nomem ∧ t = s.pipeLost m.buffer ∨
      Made valid m ∧ s.fds.TwoFree p ∧ e = .ok ∧ ∃ a b, s.fds.Least p a ∧
        (s.fds.set p a (some s.nextFile)).Least p b ∧ t = s.pipeDone p m.buffer a b) := by
  rw [sysPipe]
  cases valid with
  | false =>
    exact ⟨_, s, rfl, .inl ⟨by simp [Made], rfl, ⟨rfl, rfl, rfl, rfl, rfl, rfl, le_rfl⟩,
      .inl ⟨rfl, rfl⟩⟩⟩
  | true =>
    rw [if_neg (by decide)]
    by_cases hm : m.pipe ∧ m.readFile ∧ m.writeFile
    · have hmade : Made true m := ⟨rfl, hm⟩
      have hfree : ∀ t : Files, t.pipe = (s.madePipe m.buffer).pipe →
          t.bbq = (s.madePipe m.buffer).bbq →
          pipeFree s.nextPipe t = .ok ((), { t with pipe := s.pipe, bbq := s.bbq }) :=
          fun t hp hb =>
        pipeFree_new (b := ⟨some s.nextFile, some (s.nextFile + 1), m.buffer⟩)
          (hp.trans (update_idem ..)) hb F.pipe F.bbq
      rw [bind_of_ok (pipeAlloc_made hm)]
      dsimp only
      rw [read_bind, findLowestNullFdFrom0]
      cases ha : (s.madePipe m.buffer).fds.lowestNull p with
      | none =>
        have hfull : s.fds.Full p := Fds.lowestNull_none.mp ha
        refine ⟨_, _, (bind_of_ok (hfree _ rfl rfl)).trans rfl, .inr (.inl ⟨hmade, ?_, rfl, rfl⟩)⟩
        rintro ⟨a, b, -, hb, -, hb'⟩
        exact hfull b hb hb'
      | some a =>
        have hleast : s.fds.Least p a := Fds.lowestNull_some.mp ha
        dsimp only
        rw [update_bind, read_bind, findLowestNullFdFrom0]
        cases hb : ((s.madePipe m.buffer).setFd p a (some s.nextFile)).fds.lowestNull p with
        | none =>
          have hfull : (s.fds.set p a (some s.nextFile)).Full p := Fds.lowestNull_none.mp hb
          have hfree' := hfree ((s.madePipe m.buffer).setFd p a (some s.nextFile)) rfl rfl
          refine ⟨_, s.pipeLost m.buffer, (bind_of_ok hfree').trans ?_, .inr (.inl
            ⟨hmade, fun h => (hleast.twoFree _).mp h hfull, rfl, rfl⟩)⟩
          show Except.ok (Err.nomem, { s.pipeLost m.buffer with
            fds := (s.fds.set p a (some s.nextFile)).set p a none }) = _
          rw [Fds.set_undo hleast.2.1]
          rfl
        | some b =>
          have hb' := Fds.lowestNull_some.mp hb
          refine ⟨_, _, rfl, .inr (.inr ⟨hmade, (hleast.twoFree s.nextFile).mpr ?_, rfl, a,
            b, hleast, hb', rfl⟩)⟩
          exact fun hfull => hfull b hb'.1 hb'.2.1
    · obtain ⟨t, ht, hn, hf⟩ := pipeAlloc_fails F hm
      rw [bind_of_ok ht]
      exact ⟨_, t, rfl, .inl ⟨fun h => hm h.2, rfl, hn, hf⟩⟩

/-- A `sys_pipe` that fails leaves no trace, but for the case that there is memory for everything
and the table has not two empty slots: then both files stay, though no slot holds them. -/
theorem sysPipe_noTrace_iff (s : Files) (F : s.Fresh) (p : ℕ) (valid : Bool) (m : PipeMem) :
    ∃ e t, sysPipe p valid m s = .ok (e, t) ∧ (e = .ok ∨ (e = .fault ∨ e = .nomem) ∧
      t.fds = s.fds ∧ t.user = s.user) ∧
      ((e = .fault ∨ e = .nomem → NoTrace s t) ↔ (Made valid m → s.fds.TwoFree p)) := by
  obtain ⟨e, t, hrun, ⟨hm, he, hn, -⟩ | ⟨hm, htwo, rfl, rfl⟩ | ⟨hm, htwo, rfl,
      a, b, ha, hb, rfl⟩⟩ :=
    sysPipe_spec F p valid m
  · refine ⟨e, t, hrun, .inr ⟨?_, hn.fds, hn.user⟩, iff_of_true (fun _ => hn) fun h => absurd h hm⟩
    rw [he]
    cases valid <;> simp
  · refine ⟨_, _, hrun, .inr ⟨.inr rfl, rfl, rfl⟩, iff_of_false (fun h => ?_) fun h => htwo (h hm)⟩
    have hfile := congrFun (h (.inr rfl)).file s.nextFile
    rw [F.file _ le_rfl] at hfile
    simp [pipeLost, madePipe, newFile, newPipe, setFile, setPipe] at hfile
  · exact ⟨_, _, hrun, .inl rfl, iff_of_true (fun h => by simp at h) fun _ => htwo⟩

theorem init_fresh (inode : Inum → ℕ × ℕ) : (init inode).Fresh :=
  ⟨fun f h => by
    have h2 : 2 ≤ f := h
    simp [init, console, stdin, stdout, show f ≠ 0 by omega, show f ≠ 1 by omega], rfl, rfl⟩

/-- A first state. -/
def start : Files := init fun _ => (0, 0)

/-- With the first table there are two empty slots. -/
theorem sysPipe_start : start.fds.TwoFree 0 ∧ ∃ e t, sysPipe 0 true
    ⟨true, true, false, true⟩ start = .ok (e, t) ∧
    (e = .fault ∨ e = .nomem → NoTrace start t) := by
  have htwo : start.fds.TwoFree 0 := ⟨2, 3, by decide, by decide, rfl, rfl⟩
  obtain ⟨e, t, hrun, -, hiff⟩ := sysPipe_noTrace_iff start (init_fresh _) 0 true
      ⟨true, true, false, true⟩
  exact ⟨htwo, e, t, hrun, hiff.mpr fun _ => htwo⟩

/-- Every slot holds `stdin`. -/
def allStdin : Files := { start with fds := fun _ _ => some stdin }

/-- `sys_pipe` with a full table returns `ERR_NOMEM` and leaves two files that it has made. -/
theorem sysPipe_full : allStdin.Fresh ∧ ∃ t, sysPipe 0 true ⟨true, true, true, true⟩
    allStdin = .ok (.nomem, t) ∧
    (allStdin.file 2 = none ∧ allStdin.file 3 = none) ∧ t.file 2 ≠ none ∧ t.file 3 ≠ none ∧
    (∀ n, t.fds 0 n = some stdin) ∧ t.freed = [] := by
  have F : allStdin.Fresh := ⟨(init_fresh fun _ => (0, 0)).file, rfl, rfl⟩
  refine ⟨F, allStdin.pipeLost true, ?_, ⟨rfl, rfl⟩, by decide, by decide, fun _ => rfl, rfl⟩
  obtain ⟨e, t, hrun, ⟨hm, -⟩ | ⟨-, -, rfl, rfl⟩ | ⟨-, ⟨a, b, -, -, ha, -⟩, -⟩⟩ :=
    sysPipe_spec F 0 true ⟨true, true, true, true⟩
  · exact absurd ⟨rfl, rfl, rfl, rfl⟩ hm
  · exact hrun
  · cases ha

/-! ## Reachable tables -/

namespace Inv

variable {exact : Bool}

theorem toFresh (I : Inv exact s) : s.Fresh := by
  have hpipe := I.rest.1.fresh _ le_rfl
  refine ⟨I.fresh.2, hpipe, Bool.eq_false_iff.mpr fun hb => ?_⟩
  obtain ⟨b, hb, -⟩ := (I.rest.1.bbq _).mp hb
  cases hpipe.symm.trans hb

theorem same (I : Inv exact s) (hfile : s'.file = s.file) (hfr : s'.freed = s.freed)
    (hnext : s'.nextFile = s.nextFile) (hfds : s'.fds = s.fds) (hprocs : s'.procs = s.procs)
    (hrest : s'.Rest exact) : Inv exact s' := by
  refine I.retable hfile hfr hnext (fun p n g h => ?_) (fun f => .inl ?_) hrest
  · rw [hfds] at h
    exact ⟨hprocs ▸ (I.table p n g h).1, h⟩
  · rw [holders, holders, hfds, hprocs]

theorem sameEnds_new (I : Inv exact s) (o : StructFile) : SameEnds s (s.newFile o) := by
  refine fun p n f o' hf ho' => .inl ⟨⟨o', ?_, rfl⟩, p, n, hf⟩
  have hne : f ≠ s.nextFile := fun he => (I.table p n f hf).2 (he ▸ I.fresh.2 _ le_rfl)
  exact (update_of_ne hne _ _).symm.trans ho'

theorem lost (I : Inv false s) (hk : Kind s.nextFile o) (hr : o.ref = 1) :
    Inv false (s.newFile o) := by
  refine I.change (x := some o) rfl (fun p n g h => ⟨(I.table p n g h).1, ?_⟩)
    (fun _ _ => rfl) (fun o' ho => ?_) (.inl ⟨by simp, rfl, .inr ⟨rfl, rfl⟩⟩)
    ⟨I.rest.1.of_same (I.sameEnds_new o) ⟨fun _ => rfl, rfl, le_rfl⟩, I.rest.2⟩
  · split
    · simp
    · exact (I.table p n g h).2
  · cases ho
    refine ⟨hk, fun _ => ?_⟩
    show 0 < o.ref ∧ Counts false (s.holders s.nextFile).card o.ref
    rw [I.holders_fresh, hr]
    exact ⟨Int.one_pos, by simp [Counts]⟩

theorem dropped (I : Inv false s) (h2 : 2 ≤ f) (hf : s.file f ≠ none) (hh : s.holders f = ∅) :
    Inv false (s.freeFile f) := by
  refine I.change (x := none) rfl (fun p n g h => ⟨(I.table p n g h).1, ?_⟩) (fun _ _ => rfl)
    (fun o ho => by cases ho)
    (.inr ⟨rfl, h2, rfl, rfl, hf⟩) ⟨I.rest.1.of_same
      (.of_update (x := none) rfl (fun _ h => by cases h) fun p n g h => ⟨p, n, h⟩)
      ⟨fun _ => rfl, rfl, le_rfl⟩,
      fun h => by cases h⟩
  split
  · rename_i hg
    have := I.holds h
    rw [hg, hh] at this
    cases this
  · exact (I.table p n g h).2

theorem kind_new (I : Inv exact s) (ho : o.ops = .pipeOps ∧ o.inode = none ∨
    o.ops = .sfsFileOperations ∧ o.inode ≠ none) {k : ℕ} : Kind (s.nextFile + k) o := by
  have h2 := I.fresh.1
  rw [Kind, if_neg (by rw [stdin]; omega), if_neg (by rw [stdout]; omega)]
  exact ho

theorem withPipe (I : Inv exact s) (b : PipeObj) :
    Inv exact ((s.newPipe b.buffer).setPipe s.nextPipe (some b)) := by
  have hat : ∀ q, ((s.newPipe b.buffer).setPipe s.nextPipe (some b)).pipe q =
      if q = s.nextPipe then some b else s.pipe q := fun q => by
    by_cases hq : q = s.nextPipe <;> simp [setPipe, newPipe, hq]
  refine I.same rfl rfl rfl rfl rfl ⟨⟨fun q p n he => ?_, fun q => ?_, fun q hq => ?_⟩,
    I.rest.2⟩ <;> rw [hat]
  · split
    · simp
    · exact I.rest.1.held q p n he
  · show update s.bbq s.nextPipe b.buffer q = true ↔ _
    by_cases hq : q = s.nextPipe
    · simp [hq]
    · rw [if_neg hq, update_of_ne hq]
      exact I.rest.1.bbq q
  · have hq' : s.nextPipe + 1 ≤ q := hq
    rw [if_neg (by omega)]
    exact I.rest.1.fresh q (by omega)

theorem sysPipe (I : Inv exact s) (hp : p ∈ s.procs) (valid : Bool) (m : PipeMem) :
    ∃ e t, Files.sysPipe p valid m s = .ok (e, t) ∧ ((exact = true → e = .ok) → Inv exact t) := by
  have hpipe : ∀ (q : ℕ) (fl : BitVec 32) (k : ℕ), Kind (s.nextFile + k)
      (pipeEnd fl q) := fun _ _ _ =>
    I.kind_new (.inl ⟨rfl, rfl⟩)
  obtain ⟨e, t, hrun, ⟨hm, he, hn, hf⟩ | ⟨hm, htwo, rfl, rfl⟩ | ⟨hm, htwo, rfl, a, b, ha, hb,
      rfl⟩⟩ :=
    sysPipe_spec I.toFresh p valid m
  · refine ⟨e, t, hrun, fun hexact => ?_⟩
    cases exact with
    | true =>
      rw [hexact rfl] at he
      cases valid <;> cases he
    | false =>
      have hrest : t.Rest false := ⟨I.rest.1.of_same (.of_lost hn.file fun p n g h => hn.fds ▸ h)
        ⟨fun q => by rw [hn.pipe], hn.bbq, hn.next⟩, fun h => by cases h⟩
      rcases hf with ⟨hfr, hnext⟩ | ⟨hfr, hnext⟩
      · exact I.same hn.file hfr hnext hn.fds hn.procs hrest
      · have J := I.lost (hpipe 0 0 0) rfl
        have J' := J.dropped (f := s.nextFile) I.fresh.1 (by simp [newFile, setFile])
            I.holders_fresh
        refine J'.same (hn.file.trans ?_) hfr hnext hn.fds hn.procs hrest
        show _ = update (update s.file s.nextFile _) s.nextFile none
        rw [update_idem, ← I.fresh.2 _ le_rfl, update_eq_self]
  · refine ⟨_, _, hrun, fun hexact => ?_⟩
    cases exact with
    | true => cases hexact rfl
    | false =>
      have J := I.lost (hpipe s.nextPipe fsRdonly 0) rfl
      have J' := J.lost (hpipe s.nextPipe fsWronly 1) rfl
      exact J'.same rfl rfl rfl rfl rfl ⟨J'.rest.1.of_same (.of_lost rfl fun _ _ _ h => h)
        ⟨fun _ => rfl, rfl, Nat.le_succ _⟩, fun h => by cases h⟩
  · refine ⟨_, _, hrun, fun _ => ?_⟩
    have hthere : ∀ (fl : BitVec 32) q, (pipeEnd fl s.nextPipe).pipeOf = some q →
        (s.madePipe m.buffer).pipe q ≠ none := fun fl q hq => by
      cases hq
      simp [madePipe, setPipe]
    have J := (I.withPipe ⟨some s.nextFile, some (s.nextFile + 1), m.buffer⟩).place ha.2.1 hp ha.1
      (hpipe s.nextPipe fsRdonly 0) rfl (hthere _)
    have J' := J.place hb.2.1 hp hb.1 (hpipe s.nextPipe fsWronly 1) rfl (hthere _)
    exact J'.same rfl rfl rfl rfl rfl ⟨J'.rest.1.of_same (.of_lost rfl fun _ _ _ h => h)
      ⟨fun _ => rfl, rfl, le_rfl⟩, J'.rest.2⟩

theorem sysOpen (I : Inv exact s) (hp : p ∈ s.procs) (valid : Bool)
    (res : Except Err (Inum × BitVec 32)) :
    ∃ r t, Files.sysOpen p valid res s = .ok (r, t) ∧ Inv exact t ∧
      Later (fun _ _ => False) s t := by
  rw [Files.sysOpen]
  cases valid with
  | false => exact ⟨_, s, rfl, I, .refl s⟩
  | true =>
    rw [if_neg (by decide), read_bind]
    cases hn : s.findLowestNullFd p with
    | none => exact ⟨_, s, rfl, I, .refl s⟩
    | some n =>
      cases res with
      | error e => exact ⟨_, s, rfl, I, .refl s⟩
      | ok x =>
        have hnone : s.fds p n = none := by simpa using List.find?_some hn
        have hlt : n < procMaxFile := by
          have hmem := List.mem_range'_1.mp (List.mem_of_find?_eq_some hn)
          rw [procMaxFile] at hmem ⊢
          omega
        refine ⟨_, _, rfl, I.place hnone hp hlt (I.kind_new (k := 0) (.inr ⟨rfl, by simp⟩))
          rfl fun q hq => (by cases hq),
          fun q p' n' he _ => ?_, fun _ => rfl⟩
        obtain ⟨f, o, hf, ho, hq⟩ := he
        have hne : f ≠ s.nextFile := fun he => (I.table p' n' f hf).2 (he ▸ I.fresh.2 _ le_rfl)
        exact ⟨f, o, Fds.set_of_some hnone hf _, (update_of_ne hne _ _).trans ho, hq⟩

end Inv

theorem fsReopenFile_run (hf : s.file f = some o) :
    fsReopenFile f s = .ok ((), s.setFile f (some { o with ref := o.ref + 1 })) := by
  rw [fsReopenFile, bind_of_ok (fileAt_run hf)]
  rfl

theorem opsClose_run (f : ℕ) (hq : ∀ q, o.pipeOf = some q → s.pipe q ≠ none) :
    ∃ t, opsClose f o s = .ok ((), t) ∧ SamePipes s t ∧ t = { s with pipe := t.pipe } := by
  by_cases hops : o.ops = .pipeOps
  · rw [opsClose, if_pos hops, pipeClose]
    cases hi : o.info with
    | none => exact ⟨s, rfl, .refl s, rfl⟩
    | some q =>
      obtain ⟨b, hb⟩ := Option.ne_none_iff_exists'.mp
          (hq q (by rw [StructFile.pipeOf, if_pos hops, hi]))
      refine ⟨s.setPipe q (some (b.close f)), (bind_of_ok (pipeAt_run hb)).trans rfl,
        ⟨fun q' => ?_, rfl, le_rfl⟩, rfl⟩
      have hclose : (b.close f).buffer = b.buffer := by
        unfold PipeObj.close
        split_ifs <;> rfl
      by_cases he : q' = q
      · subst he
        simp [setPipe, hb, hclose]
      · simp [setPipe, he]
  · exact ⟨s, by rw [opsClose, if_neg hops]; rfl, .refl s, rfl⟩

theorem fsCloseFile_run (hf : s.file f = some o) (hq : ∀ q, o.pipeOf = some q → s.pipe q ≠ none) :
    ∃ t, fsCloseFile f s = .ok ((), t) ∧ t.fds = s.fds ∧ t.procs = s.procs ∧
      t.nextFile = s.nextFile ∧ SamePipes s t ∧ (s.closed = s.freed → t.closed = t.freed) ∧
    ((0 < o.ref - 1 ∨ f < 2) ∧ t.freed = s.freed ∧
        t.file = update s.file f (some { o with ref := o.ref - 1 }) ∨
      o.ref - 1 ≤ 0 ∧ 2 ≤ f ∧ t.freed = f :: s.freed ∧ t.file = update s.file f none) := by
  rw [fsCloseFile, bind_of_ok (fileAt_run hf), update_bind]
  have hstd : f = stdin ∨ f = stdout ↔ f < 2 := by
    rw [stdin, stdout]
    omega
  by_cases hlast : 0 < o.ref - 1 ∨ f = stdin ∨ f = stdout
  · rw [if_pos hlast]
    exact ⟨_, rfl, rfl, rfl, rfl, ⟨fun _ => rfl, rfl, le_rfl⟩, id,
      .inl ⟨by rwa [hstd] at hlast, rfl, rfl⟩⟩
  · rw [if_neg hlast, update_bind]
    have hle : o.ref - 1 ≤ 0 ∧ 2 ≤ f := by
      rw [hstd] at hlast
      omega
    obtain ⟨w, hw, hsame, he⟩ := opsClose_run
        (s := { s.setFile f (some { o with ref := o.ref - 1 }) with
      closed := f :: s.closed }) f hq
    have hwf : w.file f = some { o with ref := o.ref - 1 } := by
      rw [he]
      exact update_self ..
    refine ⟨w.freeFile f, (bind_of_ok hw).trans (fsFreeFile_run hwf), ?_⟩
    rw [he] at hsame ⊢
    exact ⟨rfl, rfl, rfl, ⟨hsame.buffer, hsame.bbq, hsame.next⟩, congrArg (f :: ·),
      .inr ⟨hle.1, hle.2, rfl, update_idem ..⟩⟩

namespace Inv

variable {exact : Bool}

section

variable (I : Inv exact s)

include I

theorem closeFd (p n : ℕ) : ∃ t, Files.closeFd p n s = .ok ((), t) ∧ Inv exact t ∧
    t.fds = s.fds.set p n none ∧ Later (fun p' n' => p' = p ∧ n' = n) s t := by
  rw [Files.closeFd, read_bind]
  cases hn : s.fds p n with
  | none => exact ⟨s, rfl, I, (Fds.set_self hn).symm, .refl s⟩
  | some f =>
    obtain ⟨o, ho⟩ := Option.ne_none_iff_exists'.mp (I.table p n f hn).2
    obtain ⟨t, ht, hfds, hprocs, hnext, hpipes, hlog, hcase⟩ := fsCloseFile_run ho fun q hq =>
      I.rest.1.held q p n ⟨f, o, hn, ho, hq⟩
    have hset : (t.setFd p n none).fds = s.fds.set p n none := by rw [setFd, hfds]
    have hends : SameEnds s (t.setFd p n none) := by
      have hold : ∀ p' n' g, (t.setFd p n none).fds p' n' = some g → ∃ p n, s.fds p n = some g :=
        fun p' n' g hg => ⟨p', n', (set_some (hset ▸ hg)).resolve_left fun h => by cases h.2⟩
      rcases hcase with ⟨-, -, hfile⟩ | ⟨-, -, -, hfile⟩
      · exact .of_update hfile (fun o' he => ⟨o, ho, by cases he; rfl⟩) hold
      · exact .of_update hfile (fun o' he => by cases he) hold
    have J : Inv exact (t.setFd p n none) :=
      I.clear hn ho hset hprocs hnext
        ⟨I.rest.1.of_same hends ⟨hpipes.buffer, hpipes.bbq, hpipes.next⟩,
        fun he => hlog (I.rest.2 he)⟩ hcase
    refine ⟨_, (bind_of_ok ht).trans rfl, J, hset, J.later hends
      (fun p' n' g hg hx => ?_) hpipes.buffer⟩
    rw [hset, Fds.set_apply, if_neg hx, hg]

theorem sysClose (p : ℕ) (fd : Int) : ∃ e t, Files.sysClose p fd s = .ok (e, t) ∧ Inv exact t ∧
    Later (fun p' n' => p' = p ∧ (n' : Int) = fd) s t ∧
      (0 ≤ fd → t.fds = s.fds.close p fd.toNat) := by
  rw [Files.sysClose, read_bind, Fds.close]
  split
  · exact ⟨_, s, rfl, I, .refl s, fun _ => (if_pos (by omega)).symm⟩
  · have hlt : ¬ procMaxFile ≤ fd.toNat := by omega
    rw [if_neg hlt]
    split
    · exact ⟨_, s, rfl, I, .refl s, fun _ => (Fds.set_self ‹_›).symm⟩
    · obtain ⟨t, ht, J, hset, hlater⟩ := I.closeFd p fd.toNat
      exact ⟨_, t, (bind_of_ok ht).trans rfl, J, hlater.mono fun p' n' h =>
        ⟨h.1, by omega⟩, fun _ => hset⟩

theorem share {c k : ℕ} (h : s.fds p n = some f) (hk : s.fds c k = none) (hc : c ∈ s.procs)
    (hlt : k < procMaxFile) :
    ∃ t, fsReopenFile f (s.setFd c k (some f)) = .ok ((), t) ∧ Inv exact t ∧
      t.procs = s.procs ∧ t.fds = s.fds.set c k (some f) ∧ Later (fun _ _ => False) s t := by
  obtain ⟨o, ho⟩ := Option.ne_none_iff_exists'.mp (I.table p n f h).2
  have hends : SameEnds s ((s.setFd c k (some f)).setFile f
      (some { o with ref := o.ref + 1 })) := by
    refine .of_update rfl (fun o' he => ⟨o, ho, by cases he; rfl⟩) fun p' n' g hg => ?_
    rcases set_some hg with ⟨-, he⟩ | hg
    · cases he
      exact ⟨p, n, h⟩
    · exact ⟨p', n', hg⟩
  have J := I.fill hk hc hlt ho hends
  exact ⟨_, fsReopenFile_run (s := s.setFd c k (some f)) ho, J, rfl, rfl,
    J.later hends (fun p' n' g hg _ => Fds.set_of_some hk hg _) fun _ => rfl⟩

theorem sysDup (hp : p ∈ s.procs) (fd : Int) : ∃ r t, Files.sysDup p fd s = .ok (r, t) ∧
      (Inv exact t ∧ Later (fun _ _ => False) s t ∧ (0 ≤ fd → t.fds = s.fds.dup p fd.toNat)) ∧
      (r = .error .inval ∧ ¬ (s.fds p fd.toNat ≠ none ∧ 0 ≤ fd ∧ fd < procMaxFile) ∨
        (s.fds p fd.toNat ≠ none ∧ 0 ≤ fd ∧ fd < procMaxFile) ∧
        (r = .error .nomem ∧ s.fds.Full p ∨ ∃ n, r = .ok n ∧ s.fds.Least p n)) := by
  rw [Files.sysDup, read_bind, Fds.dup]
  split
  · exact ⟨_, s, rfl, ⟨I, .refl s, fun _ => (if_pos (by omega)).symm⟩, .inl ⟨rfl, by omega⟩⟩
  · rw [if_neg (by omega)]
    cases hf : s.fds p fd.toNat with
    | none => exact ⟨_, s, rfl, ⟨I, .refl s, fun _ => rfl⟩, .inl ⟨rfl, by simp⟩⟩
    | some f =>
      have hin : some f ≠ none ∧ 0 ≤ fd ∧ fd < procMaxFile := ⟨by simp, by omega, by omega⟩
      rw [findLowestNullFdFrom0]
      cases hn : s.fds.lowestNull p with
      | none =>
        exact ⟨_, s, rfl, ⟨I, .refl s, fun _ => rfl⟩,
          .inr ⟨hin, .inl ⟨rfl, Fds.lowestNull_none.mp hn⟩⟩⟩
      | some n =>
        have hleast := Fds.lowestNull_some.mp hn
        obtain ⟨t, ht, J, -, hset, hlater⟩ := I.share hf hleast.2.1 hp hleast.1
        exact ⟨_, t, (bind_of_ok ht).trans rfl, ⟨J, hlater, fun _ => hset⟩,
          .inr ⟨hin, .inr ⟨n, rfl, hleast⟩⟩⟩

theorem leave (c : ℕ) (h : exact = true → ∀ n, s.fds c n = none) :
    Inv exact (s.forget c) ∧ Later (fun p' _ => p' = c) s (s.forget c) := by
  have hat : ∀ p n, (s.forget c).fds p n = if p = c then none else s.fds p n := fun p n => by
    by_cases hp : p = c <;> simp [forget, hp]
  have hends : SameEnds s (s.forget c) := .of_lost rfl fun p n g hg => by
    rw [hat] at hg
    split at hg
    · cases hg
    · exact hg
  suffices J : Inv exact (s.forget c) from
    ⟨J, J.later hends (fun p n g hg hx => by rw [hat, if_neg hx, hg]) fun _ => rfl⟩
  refine I.retable rfl rfl rfl (fun p n g hg => ?_) (fun f => ?_)
    ⟨I.rest.1.of_same hends ⟨fun _ => rfl, rfl, le_rfl⟩, I.rest.2⟩
  · rw [hat] at hg
    split at hg
    · cases hg
    · have ht := I.table p n g hg
      exact ⟨⟨Finset.mem_erase.mpr ⟨‹_›, ht.1.1⟩, ht.1.2⟩, hg⟩
  · have hsub : (s.forget c).holders f ⊆ s.holders f := fun x hx => by
      obtain ⟨⟨h1, h2⟩, h3⟩ := mem_holders.mp hx
      rw [hat] at h3
      split at h3
      · cases h3
      · exact mem_holders.mpr ⟨⟨Finset.mem_of_mem_erase h1, h2⟩, h3⟩
    cases exact with
    | false => exact .inr ⟨rfl, hsub⟩
    | true =>
      refine .inl (hsub.antisymm fun x hx => ?_)
      obtain ⟨⟨h1, h2⟩, h3⟩ := mem_holders.mp hx
      have hne : x.1 ≠ c := fun he => by
        rw [he, h rfl] at h3
        cases h3
      exact mem_holders.mpr
        ⟨⟨Finset.mem_erase.mpr ⟨hne, h1⟩, h2⟩, by rw [hat, if_neg hne]; exact h3⟩

theorem procExit (p : ℕ) : ∃ t, Files.procExit p s = .ok ((), t) ∧ Inv exact t ∧
    Later (fun p' _ => p' = p) s t := by
  -- after `i` rounds the first `i` slots are empty
  obtain ⟨t, ht, ⟨J, hlater⟩, hnone⟩ := Prog.forEach_range (n := procMaxFile) (f := Files.closeFd p)
    (P := fun i t => (Inv exact t ∧ Later (fun p' _ => p' = p) s t) ∧ ∀ n < i, t.fds p n = none)
    (fun i _ u hu => by
      obtain ⟨w, hw, J, hset, hlater⟩ := hu.1.1.closeFd p i
      refine ⟨w, hw, ⟨J, hu.1.2.trans (hlater.mono fun _ _ h => h.1)⟩, fun n hn => ?_⟩
      rw [hset, Fds.set_apply]
      split
      · rfl
      · exact hu.2 n (by omega)) ⟨⟨I, .refl s⟩, fun n hn => absurd hn (Nat.not_lt_zero n)⟩
  obtain ⟨K, hlast⟩ := J.leave p fun _ n => by
    by_contra hn
    obtain ⟨f, hf⟩ := Option.ne_none_iff_exists'.mp hn
    exact hn (hnone n (J.table p n f hf).1.2)
  exact ⟨t.forget p, (bind_of_ok ht).trans rfl, K, hlater.trans hlast⟩

theorem procFork {c : ℕ} (hp : p ∈ s.procs) (hc : c ∉ s.procs) (e : ForkEnd) :
    ∃ b t, Files.procFork p c e s = .ok (b, t) ∧ ((exact = true → b = true) → Inv exact t) ∧
      ((exact = true → b = true) → Later (fun p' _ => p' = c) s t) ∧
      (e = .done → t.fds = s.fds.fork p c) := by
  have hempty : ∀ n, s.fds c n = none := fun n => by
    by_contra hn
    obtain ⟨f, hf⟩ := Option.ne_none_iff_exists'.mp hn
    exact hc (I.table c n f hf).1.1
  have hne : p ≠ c := fun h => hc (h ▸ hp)
  rw [Files.procFork]
  split
  · exact ⟨false, s, rfl, fun _ => I, fun _ => .refl s, fun h => by simp_all⟩
  · have J : Inv exact { s with procs := insert c s.procs } := by
      refine I.retable rfl rfl rfl (fun p n g h => ?_) (fun f => .inl ?_)
        ⟨I.rest.1.of_same (.of_lost rfl fun _ _ _ h => h) ⟨fun _ => rfl, rfl, le_rfl⟩, I.rest.2⟩
      · have ht := I.table p n g h
        exact ⟨⟨Finset.mem_insert_of_mem ht.1.1, ht.1.2⟩, h⟩
      · ext ⟨p', n'⟩
        simp only [mem_holders, Finset.mem_insert]
        refine ⟨fun h => ⟨(I.table _ _ _ h.2).1, h.2⟩, fun h => ⟨⟨.inr h.1.1, h.1.2⟩, h.2⟩⟩
    obtain ⟨t, ht, ⟨K, hlater⟩, -, hfds⟩ := Prog.forEach_range (n := procMaxFile) (f := copyFd p c)
      (P := fun i t => (Inv exact t ∧ Later (fun p' _ => p' = c) s t) ∧ c ∈ t.procs ∧
        ∀ p' n, t.fds p' n = if p' = c then if n < i then s.fds p n else none else
        s.fds p' n) (fun i hi u hu => by
        obtain ⟨hu, hcu, hn⟩ := hu
        have hp' : u.fds p i = s.fds p i := by rw [hn, if_neg hne]
        rw [copyFd, read_bind]
        cases hf : u.fds p i with
        | none =>
          refine ⟨u, rfl, hu, hcu, fun p' n => ?_⟩
          have hi' : s.fds p i = none := hp'.symm.trans hf
          rw [hn]
          grind
        | some f =>
          have hnone : u.fds c i = none := by rw [hn, if_pos rfl, if_neg (lt_irrefl i)]
          obtain ⟨w, hw, K, hprocs, hset, hlater⟩ := hu.1.share hf hnone hcu hi
          refine ⟨w, hw, ⟨K, hu.2.trans (hlater.mono fun _ _ h => h.elim)⟩, hprocs ▸ hcu,
            fun p' n => ?_⟩
          have hi' : s.fds p i = some f := hp'.symm.trans hf
          rw [hset, Fds.set_apply, hn]
          grind) ⟨⟨J, fun _ _ _ h _ => h, fun _ => rfl⟩, Finset.mem_insert_self .., fun p' n => by
            by_cases h : p' = c
            · simp [h, hempty]
            · simp [h]⟩
    rw [update_bind, bind_of_ok ht]
    split
    · refine ⟨true, t, rfl, fun _ => K, fun _ => hlater, fun _ => funext fun p' => funext fun n =>
        ?_⟩
      rw [hfds, Fds.fork, Function.update_apply, ite_apply]
      refine if_congr Iff.rfl ?_ rfl
      split
      · rfl
      · by_contra hn
        obtain ⟨f, hf⟩ := Option.ne_none_iff_exists'.mp (Ne.symm hn)
        exact absurd (I.table p n f hf).1.2 ‹_›
    · have hleave : (exact = true → false = true) → Inv exact (t.forget c) ∧ _ := fun h =>
        K.leave c fun he => by cases h he
      exact ⟨false, t.forget c, rfl, fun h => (hleave h).1, fun h => hlater.trans (hleave h).2,
        fun h => absurd h ‹_›⟩

end

end Inv

/-- A call of a process. -/
inductive FileCall where
  | sysOpen (valid : Bool) (res : Except Err (Inum × BitVec 32))
  | sysDup (fd : Int)
  | sysPipe (valid : Bool) (m : PipeMem)
  | sysClose (fd : Int)
  | procFork (child : ℕ) (e : ForkEnd)
  | procExit

/-- The result says that no pipe and no child is missing. -/
def FileCall.exec (p : ℕ) : FileCall → FilesM Bool
  | .sysOpen valid res => do
    let _ ← Files.sysOpen p valid res
    pure true
  | .sysDup fd => do
    let _ ← Files.sysDup p fd
    pure true
  | .sysPipe valid m => do
    let e ← Files.sysPipe p valid m
    pure (e = .ok)
  | .sysClose fd => do
    let _ ← Files.sysClose p fd
    pure true
  | .procFork c e => Files.procFork p c e
  | .procExit => do
    Files.procExit p
    pure true

/-- The process is there, and its child is new. -/
def Enabled (s : Files) (p : ℕ) (call : FileCall) : Prop :=
  p ∈ s.procs ∧ ∀ c e, call = .procFork c e → c ∉ s.procs

/-- A call of any process; with `exact`, no pipe and no fork fails. -/
def Step (exact : Bool) (s s' : Files) : Prop :=
  ∃ p call b, Enabled s p call ∧ FileCall.exec p call s = .ok (b, s') ∧ (exact = true → b = true)

/-- The states of runs. -/
def Reachable (exact : Bool) : Files → Prop :=
  Run.Reachable (fun s => ∃ inode, s = init inode) (Step exact)

variable {exact : Bool}

theorem Inv.exec {call : FileCall} (I : Inv exact s) (h : Enabled s p call) :
    ∃ b t, FileCall.exec p call s = .ok (b, t) ∧ ((exact = true → b = true) → Inv exact t) := by
  cases call with
  | sysOpen valid res =>
    obtain ⟨r, t, ht, J, -⟩ := I.sysOpen h.1 valid res
    exact ⟨_, t, (bind_of_ok ht).trans rfl, fun _ => J⟩
  | sysDup fd =>
    obtain ⟨r, t, ht, ⟨J, -⟩, -⟩ := I.sysDup h.1 fd
    exact ⟨_, t, (bind_of_ok ht).trans rfl, fun _ => J⟩
  | sysPipe valid m =>
    obtain ⟨e, t, ht, J⟩ := I.sysPipe h.1 valid m
    exact ⟨_, t, (bind_of_ok ht).trans rfl, fun he => J fun hx => of_decide_eq_true (he hx)⟩
  | sysClose fd =>
    obtain ⟨e, t, ht, J, -⟩ := I.sysClose p fd
    exact ⟨_, t, (bind_of_ok ht).trans rfl, fun _ => J⟩
  | procFork c e =>
    obtain ⟨b, t, ht, J, -⟩ := I.procFork h.1 (h.2 c e rfl) e
    exact ⟨b, t, ht, J⟩
  | procExit =>
    obtain ⟨t, ht, J, -⟩ := I.procExit p
    exact ⟨_, t, (bind_of_ok ht).trans rfl, fun _ => J⟩

theorem init_inv (inode : Inum → ℕ × ℕ) : Inv exact (init inode) := by
  have hfile : ∀ f o, (init inode).file f = some o →
      f = stdin ∧ o = ⟨0, fsRdonly, none, .stdinOps, none⟩ ∨ f = stdout ∧
      o = ⟨0, fsWronly, none, .stdoutOps, none⟩ := by
    intro f o h
    simp only [init, console] at h
    split at h
    · exact .inl ⟨‹_›, (Option.some.inj h).symm⟩
    · split at h
      · exact .inr ⟨‹_›, (Option.some.inj h).symm⟩
      · cases h
  have hstd : (init inode).file stdin ≠ none ∧ (init inode).file stdout ≠ none :=
    ⟨by simp [init, console], by simp [init, console, stdin, stdout]⟩
  refine ⟨fun p n f h => ?_, fun f o h2 h => ?_, fun f o h => ?_, hstd,
    ⟨le_rfl, (init_fresh inode).file⟩, ⟨List.nodup_nil, fun f => ?_⟩,
    ⟨fun q p n he => ?_, fun q => ?_, fun _ _ => rfl⟩, fun _ => rfl⟩
  · simp only [init] at h
    split at h
    · cases h
      exact ⟨⟨by simp [init, ‹p = 0 ∧ n = 0›], by simp [‹p = 0 ∧ n = 0›, procMaxFile]⟩, hstd.1⟩
    · split at h
      · cases h
        exact ⟨⟨by simp [init, ‹p = 0 ∧ n = 1›], by simp [‹p = 0 ∧ n = 1›, procMaxFile]⟩, hstd.2⟩
      · cases h
  · rcases hfile f o h with ⟨rfl, -⟩ | ⟨rfl, -⟩ <;> exact absurd h2 (by decide)
  · rcases hfile f o h with ⟨rfl, rfl⟩ | ⟨rfl, rfl⟩
    · exact ⟨rfl, rfl, rfl⟩
    · exact ⟨rfl, rfl, rfl⟩
  · refine iff_of_false (List.not_mem_nil) fun h => ?_
    have : f < 2 := h.2.1
    omega
  · obtain ⟨f, o, -, ho, hq⟩ := he
    rcases hfile f o ho with ⟨-, rfl⟩ | ⟨-, rfl⟩ <;> cases hq
  · exact iff_of_false Bool.false_ne_true fun ⟨b, hb, _⟩ => by cases hb

theorem Reachable.inv (h : Reachable exact s) : Inv exact s := by
  refine Run.Reachable.invariant h (fun s h0 => ?_) fun s s' _ I hs => ?_
  · obtain ⟨inode, rfl⟩ := h0
    exact init_inv inode
  · obtain ⟨p, call, b, hen, hrun, hb⟩ := hs
    obtain ⟨b', t, ht, J⟩ := I.exec hen
    rw [hrun] at ht
    cases ht
    exact J hb

theorem Reachable.tables {c : ℕ} (h : Reachable exact s) (hp : p ∈ s.procs) (hc : c ∉ s.procs)
    (fd : ℕ) : (∃ r t, sysDup p fd s = .ok (r, t) ∧ t.fds = s.fds.dup p fd) ∧
    (∃ e t, sysClose p fd s = .ok (e, t) ∧ t.fds = s.fds.close p fd) ∧
    ∃ b t, procFork p c .done s = .ok (b, t) ∧ t.fds = s.fds.fork p c := by
  obtain ⟨r, t, ht, ⟨-, -, hdup⟩, -⟩ := h.inv.sysDup hp fd
  obtain ⟨e, u, hu, -, -, hclose⟩ := h.inv.sysClose p fd
  obtain ⟨b, w, hw, -, -, hfork⟩ := h.inv.procFork hp hc .done
  exact ⟨⟨r, t, ht, hdup (Int.natCast_nonneg fd)⟩, ⟨e, u, hu, hclose (Int.natCast_nonneg fd)⟩, b, w,
    hw, hfork rfl⟩

/-- In every run in which no pipe and no fork fails, a file counts the slots of processes that hold
it, and it is closed and freed, once, when there is none.  No call traps, and no slot holds a file
that is freed. -/
theorem fileRefs_exact (s : Files) (h : Reachable true s) :
    (∀ f, 2 ≤ f → f < s.nextFile → (∀ o, s.file f = some o → o.ref = (s.holders f).card) ∧
      s.freed.count f = (if s.holders f = ∅ then 1 else 0) ∧ s.closed.count f = s.freed.count f) ∧
    (∀ p n f, s.fds p n = some f → (p, n) ∈ s.holders f ∧ s.file f ≠ none ∧ f ∉ s.freed) ∧
    ∀ p call, Enabled s p call → ∃ b t, FileCall.exec p call s = .ok (b, t) := by
  have I := h.inv
  refine ⟨fun f h2 hlt => ⟨fun o ho => (I.ref f o h2 ho).2, ?_, by rw [I.rest.2 rfl]⟩,
    fun p n f hf => ?_, fun p call hen => ?_⟩
  · rw [I.freed.1.count]
    refine if_congr ((I.freed.2 f).trans ⟨fun hf => ?_, fun hempty => ⟨h2, hlt, ?_⟩⟩) rfl rfl
    · refine Finset.eq_empty_of_forall_notMem fun x hx => ?_
      exact (I.table _ _ _ (mem_holders.mp hx).2).2 hf.2.2
    · by_contra hne
      obtain ⟨o, ho⟩ := Option.ne_none_iff_exists'.mp hne
      have hr : 0 < o.ref ∧ o.ref = (s.holders f).card := I.ref f o h2 ho
      rw [hempty] at hr
      exact absurd hr.1 (by simp [hr.2])
  · have hfile := (I.table p n f hf).2
    exact ⟨I.holds hf, hfile, fun hfr => hfile ((I.freed.2 f).mp hfr).2.2⟩
  · obtain ⟨b, t, ht, -⟩ := I.exec hen
    exact ⟨b, t, ht⟩

theorem start_reachable : Reachable exact start := .first ⟨_, rfl⟩

theorem Reachable.call {call : FileCall} {b : Bool} (h : Reachable exact s) (hen : Enabled s p call)
    (hrun : (FileCall.exec p call).result s = some b) (hb : exact = true → b = true) :
    Reachable exact ((FileCall.exec p call).final s) :=
  Run.Reachable.next h ⟨p, call, b, hen, Prog.run_of_result hrun, hb⟩

/-- The first process makes a pipe. -/
def piped : Files := (FileCall.exec 0 (.sysPipe true ⟨true, true, true, true⟩)).final start

theorem piped_reachable : Reachable exact piped :=
  start_reachable.call ⟨by decide, fun c e h => by cases h⟩ (b := true) (by decide +kernel) fun _ =>
    rfl

/-- It closes the write end. -/
def closedEnd : Files := (FileCall.exec 0 (.sysClose 3)).final piped

/-- One end of a pipe is closed: its file is freed, and the other has one slot. -/
theorem fileRefs_closedEnd : closedEnd.freed = [3] ∧ (closedEnd.holders 2).card = 1 ∧
    ∀ o, closedEnd.file 2 = some o → o.ref = (closedEnd.holders 2).card := by
  have hreach : Reachable true closedEnd :=
    piped_reachable.call ⟨by decide +kernel, fun c e h => by cases h⟩ (b := true)
      (by decide +kernel) fun _ => rfl
  exact ⟨by decide +kernel, by decide +kernel,
    ((fileRefs_exact closedEnd hreach).1 2 le_rfl (by decide +kernel)).1⟩

/-- Every count is one that an `int` holds. -/
def Counted (s : Files) : Prop := ∀ f o, s.file f = some o → wrapInt o.ref = o.ref

/-- Runs of all calls in which no count leaves the range of an `int`.  Failed forks leave references
behind, so that there are others. -/
def CountedReachable : Files → Prop :=
  Run.Reachable (fun s => ∃ inode, s = init inode) fun s s' => Step false s s' ∧ s'.Counted

theorem CountedReachable.reachable (h : CountedReachable s) : Reachable false s :=
  Run.Reachable.map (f := id) h (fun _ h0 => h0) fun _ _ _ hs => .inl hs.1

/-- In every run, where pipes and forks may fail and no count overflows, a file counts at least the
slots that hold it.  No file is freed twice, no slot holds a file that is freed, and no call traps.
-/
theorem fileRefs_atLeast (s : Files) (h : CountedReachable s) :
    (∀ f o, 2 ≤ f → s.file f = some o → (s.holders f).card ≤ o.ref) ∧ s.freed.Nodup ∧
    (∀ p n f, s.fds p n = some f → s.file f ≠ none ∧ f ∉ s.freed) ∧
    ∀ p call, Enabled s p call → ∃ b t, FileCall.exec p call s = .ok (b, t) := by
  have I := h.reachable.inv
  refine ⟨fun f o h2 ho => (I.ref f o h2 ho).2.le, I.freed.1, fun p n f hf =>
    ?_, fun p call hen => ?_⟩
  · have hfile := (I.table p n f hf).2
    exact ⟨hfile, fun hfr => hfile ((I.freed.2 f).mp hfr).2.2⟩
  · obtain ⟨b, t, ht, -⟩ := I.exec hen
    exact ⟨b, t, ht⟩

theorem CountedReachable.call {call : FileCall} {b : Bool} (h : CountedReachable s)
    (hen : Enabled s p call) (hrun : (FileCall.exec p call).result s = some b)
    (href : ∀ f < ((FileCall.exec p call).final s).nextFile,
    ∀ o ∈ ((FileCall.exec p call).final s).file f,
      wrapInt o.ref = o.ref) : CountedReachable ((FileCall.exec p call).final s) := by
  have hs : Step false s ((FileCall.exec p call).final s) :=
      ⟨p, call, b, hen, Prog.run_of_result hrun, nofun⟩
  have hr : Reachable false ((FileCall.exec p call).final s) := Run.Reachable.next h.reachable hs
  refine Run.Reachable.next h ⟨hs, fun f o ho => href f ?_ o ho⟩
  by_contra hle
  rw [hr.inv.toFresh.file f (Nat.not_lt.mp hle)] at ho
  cases ho

/-- A pipe is made, and then a fork fails after the slots have been copied. -/
def leakedRefs : Files := (FileCall.exec 0 (.procFork 1 .noThread)).final piped

/-- The read end of the pipe counts two and has one slot. -/
theorem fileRefs_leaked : (leakedRefs.file 2).map (·.ref) = some 2 ∧
    (leakedRefs.holders 2).card = 1 ∧
    ∀ o, leakedRefs.file 2 = some o → (leakedRefs.holders 2).card ≤ o.ref := by
  have hreach : CountedReachable leakedRefs := by
    refine (CountedReachable.call (.first ⟨_, rfl⟩) ⟨by decide, fun c e h => by cases h⟩
      (b := true) (by decide +kernel)
      (by decide +kernel)).call ⟨by decide +kernel, fun c e h => ?_⟩
      (b := false) (by decide +kernel)
      (by decide +kernel)
    cases h
    decide +kernel
  exact ⟨by decide +kernel, by decide +kernel, fun o ho =>
    (fileRefs_atLeast _ hreach).1 2 o le_rfl ho⟩

/-! ## The lowest descriptor -/

/-- `sys_open`, `sys_dup` and `sys_pipe` take the lowest descriptors, and lack descriptors if too
few slots are empty. -/
structure LowestFirst (s : Files) (p : ℕ) : Prop where
  opens : ∀ res, res ≠ .error .nomem → ∃ r t, sysOpen p true res s = .ok (r, t) ∧
    (∀ n, r = .ok n → s.fds.Least p n) ∧ (r = .error .nomem ↔ s.fds.Full p)
  dups : ∀ fd, ∃ r t, sysDup p fd s = .ok (r, t) ∧ (∀ n, r = .ok n → s.fds.Least p n) ∧
    (s.fds p fd.toNat ≠ none → 0 ≤ fd → fd < procMaxFile → (r = .error .nomem ↔ s.fds.Full p))
  pipes : ∀ m, ∃ e t, sysPipe p true m s = .ok (e, t) ∧
    (e = .ok → s.fds.Least p t.user.1 ∧ (s.fds.set p t.user.1 (some s.nextFile)).Least p t.user.2) ∧
    (m.pipe ∧ m.readFile ∧ m.writeFile → (e = .nomem ↔ ¬ s.fds.TwoFree p))

theorem findLowestNullFd_eq (h0 : s.fds p 0 ≠ none) (h1 : s.fds p 1 ≠ none) :
    s.findLowestNullFd p = s.fds.lowestNull p := by
  have hr : List.range procMaxFile = 0 :: 1 :: List.range' 2 (procMaxFile - 2) := by decide
  rw [findLowestNullFd, Fds.lowestNull, hr, List.find?_cons_of_neg
    (by simpa [Option.isNone_iff_eq_none] using h0),
    List.find?_cons_of_neg (by simpa [Option.isNone_iff_eq_none] using h1)]

theorem sysDup_lowest (I : Inv exact s) (hp : p ∈ s.procs) (fd : Int) :
    ∃ r t, sysDup p fd s = .ok (r, t) ∧ (∀ n, r = .ok n → s.fds.Least p n) ∧
    (s.fds p fd.toNat ≠ none → 0 ≤ fd → fd < procMaxFile → (r = .error .nomem ↔ s.fds.Full p)) := by
  obtain ⟨r, t, hrun, -, hr⟩ := I.sysDup hp fd
  refine ⟨r, t, hrun, ?_⟩
  rcases hr with ⟨rfl, hbad⟩ | ⟨-, ⟨rfl, hfull⟩ | ⟨n, rfl, hleast⟩⟩
  · exact ⟨fun n hn => (by cases hn), fun h1 h2 h3 => absurd ⟨h1, h2, h3⟩ hbad⟩
  · exact ⟨fun n hn => (by cases hn), fun _ _ _ => iff_of_true rfl hfull⟩
  · refine ⟨fun k hk => ?_, fun _ _ _ => iff_of_false (by simp) fun hfull =>
      hfull n hleast.1 hleast.2.1⟩
    cases hk
    exact hleast

theorem sysPipe_lowest (I : Inv exact s) (m : PipeMem) : ∃ e t, sysPipe p true m s = .ok (e, t) ∧
    (e = .ok → s.fds.Least p t.user.1 ∧ (s.fds.set p t.user.1 (some s.nextFile)).Least p t.user.2) ∧
    (m.pipe ∧ m.readFile ∧ m.writeFile → (e = .nomem ↔ ¬ s.fds.TwoFree p)) := by
  obtain ⟨e, t, hrun, ⟨hm, rfl, -⟩ | ⟨-, htwo, rfl, -⟩ | ⟨-, htwo, rfl, a, b, ha, hb, rfl⟩⟩ :=
    sysPipe_spec I.toFresh p true m
  · exact ⟨_, t, hrun, fun h => by simp at h, fun h => absurd ⟨rfl, h⟩ hm⟩
  · exact ⟨_, t, hrun, fun h => (by cases h), fun _ => iff_of_true rfl htwo⟩
  · exact ⟨_, _, hrun, fun _ => ⟨ha, hb⟩, fun _ => iff_of_false (by simp) (not_not.mpr htwo)⟩

/-- `sys_dup` and `sys_pipe` take the lowest descriptors in every reachable state, and `sys_open`
takes them if and only if 0 and 1 are in use. -/
theorem open_lowest_iff (s : Files) (p : ℕ) (h : Reachable false s) (hp : p ∈ s.procs) :
    LowestFirst s p ↔ s.fds p 0 ≠ none ∧ s.fds p 1 ≠ none := by
  constructor
  · intro hlow
    obtain ⟨r, t, hrun, hleast, hfull⟩ := hlow.opens (.ok (0, 0)) (by simp)
    rw [sysOpen, if_neg (by decide), read_bind] at hrun
    cases hn : s.findLowestNullFd p with
    | none =>
      rw [hn] at hrun
      cases hrun
      have := hfull.mp rfl
      exact ⟨this 0 (by decide), this 1 (by decide)⟩
    | some n =>
      rw [hn] at hrun
      cases hrun
      have h2 := (List.mem_range'_1.mp (List.mem_of_find?_eq_some hn)).1
      have := (hleast n rfl).2.2
      exact ⟨this 0 (by omega), this 1 (by omega)⟩
  · rintro ⟨h0, h1⟩
    refine ⟨fun res hres => ?_, sysDup_lowest h.inv hp, sysPipe_lowest h.inv⟩
    rw [sysOpen, if_neg (by decide), read_bind, findLowestNullFd_eq h0 h1]
    cases hn : s.fds.lowestNull p with
    | none =>
      exact ⟨_, s, rfl, fun n hn => (by cases hn), iff_of_true rfl (Fds.lowestNull_none.mp hn)⟩
    | some n =>
      have hleast := Fds.lowestNull_some.mp hn
      have hfull : ¬ s.fds.Full p := fun hf => hf n hleast.1 hleast.2.1
      cases res with
      | error e =>
        exact ⟨_, s, rfl, fun n hn => (by cases hn),
          iff_of_false (fun he => hres (congrArg Except.error (Except.error.inj he))) hfull⟩
      | ok x =>
        refine ⟨_, _, rfl, fun k hk => ?_, iff_of_false (by simp) hfull⟩
        cases hk
        exact hleast

/-- The first process makes a pipe and closes the read end. -/
def writeEnd : Files := (FileCall.exec 0 (.sysClose 2)).final piped

/-- 0, 1 and 3 are in use, and `sys_open` and `sys_pipe` take 2 and the lowest above it. -/
theorem lowestFirst_writeEnd : writeEnd.fds 0 3 ≠ none ∧ LowestFirst writeEnd 0 ∧
    (∃ t, sysOpen 0 true (.ok (5, fsRdonly)) writeEnd = .ok (.ok 2, t)) ∧
    ∃ t, sysPipe 0 true ⟨true, true, true, true⟩ writeEnd = .ok (.ok, t) ∧ t.user = (2, 4) := by
  have hreach : Reachable false writeEnd :=
    piped_reachable.call ⟨by decide +kernel, fun c e h => by cases h⟩ (b := true)
      (by decide +kernel) fun _ => rfl
  exact ⟨by decide +kernel, (open_lowest_iff writeEnd 0 hreach (by decide +kernel)).mpr
    (by decide +kernel),
    ⟨_, Prog.run_of_result (by decide +kernel)⟩, _, Prog.run_of_result
    (by decide +kernel), by decide +kernel⟩

/-- A process that has closed its standard input. -/
def noStdin : Files := (FileCall.exec 0 (.sysClose 0)).final start

theorem noStdin_reachable : Reachable false noStdin :=
  start_reachable.call ⟨by decide, fun c e h => by cases h⟩ (b := true)
    (by decide +kernel) fun h => by cases h

/-- Slot 0 is empty, and `sys_open` returns 2. -/
theorem open_skips_zero : Reachable false noStdin ∧ noStdin.fds 0 0 = none ∧
    ∃ t, sysOpen 0 true (.ok (5, fsRdonly)) noStdin = .ok (.ok 2, t) :=
  ⟨noStdin_reachable, by decide +kernel, _, Prog.run_of_result (by decide +kernel)⟩

/-! ## Reading and writing -/

/-- The outcome is `ERR_INVAL` for no file, 0 bytes if the mode forbids the direction, and otherwise
an operation on the file in the slot, where only `console` stands for the console. -/
structure Acts (forbids : BitVec 32) (console : ℕ) (s : Files) (p fd : ℕ) (r : Io) : Prop where
  inval : procMaxFile ≤ fd ∨ s.fds p fd = none → r = .err .inval
  acts : fd < procMaxFile → ∀ f o, s.fds p fd = some f → s.file f = some o →
    r = if o.oflag = forbids then .nothing else if f = console then .console
      else if o.ops = .pipeOps then .pipe f else .sfs f

variable {forbids : BitVec 32}

theorem acts_none {c fd : ℕ} (h : procMaxFile ≤ fd ∨ s.fds p fd = none) :
    Acts forbids c s p fd (.err .inval) := by
  refine ⟨fun _ => rfl, fun hlt f o hf => ?_⟩
  rcases h with h | h
  · omega
  · cases h.symm.trans hf

theorem acts_some {c fd : ℕ} {r : Io} (hlt : fd < procMaxFile) (hf : s.fds p fd = some f)
    (ho : s.file f = some o) (hr : r = if o.oflag = forbids then .nothing else
    if f = c then .console
      else if o.ops = .pipeOps then .pipe f else .sfs f) : Acts forbids c s p fd r := by
  refine ⟨fun hbad => ?_, fun _ f' o' hf' ho' => ?_⟩
  · rw [hf] at hbad
    simp at hbad
    omega
  · cases hf.symm.trans hf'
    cases ho.symm.trans ho'
    exact hr

theorem pipeAccess_run (h : s.Piped) (hf : s.fds p n = some f) (ho : s.file f = some o)
    (hops : o.ops = .pipeOps) : pipeAccess o s = .ok ((), s) := by
  rw [pipeAccess]
  cases hi : o.info with
  | none => rfl
  | some q =>
    obtain ⟨b, hb⟩ := Option.ne_none_iff_exists'.mp
      (h.held q p n ⟨f, o, hf, ho, by rw [StructFile.pipeOf, if_pos hops, hi]⟩)
    dsimp only
    rw [bind_of_ok (pipeAt_run hb)]
    split
    · rw [Prog.check_run, (h.bbq q).mpr ⟨b, hb, ‹_›⟩]
      rfl
    · rfl

theorem operate_run (h : s.Piped) (hslot : s.fds p n = some f) (hf : s.file f = some o)
    {op : FileOps → Option (ℕ → Io)} {r : Io} (hact : o.oflag ≠ forbids → ∃ act,
    op o.ops = some act ∧ act f = r) :
    operate op forbids f s = .ok (if o.oflag = forbids then .nothing else r, s) := by
  rw [operate, bind_of_ok (fileAt_run hf)]
  by_cases hx : o.oflag = forbids
  · rw [if_neg (not_not.mpr hx), if_pos hx]
    rfl
  · obtain ⟨act, hop, rfl⟩ := hact hx
    rw [if_pos hx, if_neg hx, hop]
    dsimp only
    split
    · exact (bind_of_ok (pipeAccess_run h hslot hf ‹_›)).trans rfl
    · rfl

theorem Kind.other (h : Kind f o) (h0 : f ≠ stdin) (h1 : f ≠ stdout) :
    (∃ act, FileOps.read o.ops = some act ∧ act f = if o.ops = .pipeOps then .pipe f else .sfs f) ∧
    ∃ act, FileOps.write o.ops = some act ∧ act f = if o.ops = .pipeOps then
      .pipe f else .sfs f := by
  rw [Kind, if_neg h0, if_neg h1] at h
  rcases h with ⟨h, -⟩ | ⟨h, -⟩ <;> rw [h] <;> exact ⟨⟨_, rfl, rfl⟩, _, rfl, rfl⟩

theorem fsReadFile_run (h : s.Piped) (hslot : s.fds p n = some f) (hf : s.file f = some o)
    (hk : Kind f o) : fsReadFile f s =
    .ok (if o.oflag = fsWronly then .nothing else if f = stdin then .console
      else if o.ops = .pipeOps then .pipe f else .sfs f, s) := by
  refine operate_run h hslot hf fun hmode => ?_
  by_cases h0 : f = stdin
  · subst h0
    exact ⟨_, by rw [hk.1]; rfl, rfl⟩
  · have h1 : f ≠ stdout := fun h1 => hmode (by subst h1; exact hk.2.1)
    rw [if_neg h0]
    exact (hk.other h0 h1).1

theorem fsWriteFile_run (h : s.Piped) (hslot : s.fds p n = some f) (hf : s.file f = some o)
    (hk : Kind f o) (h1 : f ≠ stdout) : fsWriteFile f s =
    .ok (if o.oflag = fsRdonly then .nothing else if f = stdout then .console
      else if o.ops = .pipeOps then .pipe f else .sfs f, s) := by
  refine operate_run h hslot hf fun hmode => ?_
  have h0 : f ≠ stdin := fun h0 => hmode (by subst h0; exact hk.2.1)
  rw [if_neg h1]
  exact (hk.other h0 h1).2

theorem Inv.sysRead_returns (I : Inv exact s) (p : ℕ) (valid : Bool) (fd : ℕ) :
    ∃ r, sysRead p valid fd s = .ok (r, s) := by
  rw [sysRead]
  split_ifs
  · exact ⟨_, rfl⟩
  · exact ⟨_, rfl⟩
  · exact ⟨_, rfl⟩
  · rw [read_bind]
    cases hf : s.fds p fd with
    | none => exact ⟨_, rfl⟩
    | some f =>
      obtain ⟨o, ho⟩ := Option.ne_none_iff_exists'.mp (I.table p fd f hf).2
      exact ⟨_, fsReadFile_run I.rest.1 hf ho (I.kind f o ho)⟩

theorem Inv.sysWrite_returns (I : Inv exact s) (p : ℕ) (valid : Bool) (fd : ℕ) :
    ∃ r, sysWrite p valid fd s = .ok (r, s) := by
  rw [sysWrite]
  split_ifs
  · exact ⟨_, rfl⟩
  · exact ⟨_, rfl⟩
  · rw [read_bind]
    cases hf : s.fds p fd with
    | none => exact ⟨_, rfl⟩
    | some f =>
      obtain ⟨o, ho⟩ := Option.ne_none_iff_exists'.mp (I.table p fd f hf).2
      dsimp only
      split
      · exact ⟨_, rfl⟩
      · exact ⟨_, fsWriteFile_run I.rest.1 hf ho (I.kind f o ho) ‹_›⟩

/-- The file in the slot, if there is one, has an inode. -/
def HasInode (s : Files) (p fd : ℕ) : Prop :=
  fd < procMaxFile → ∀ f o, s.fds p fd = some f → s.file f = some o → o.inode ≠ none

/-- The slot holds an inode of a type. -/
def Holds (s : Files) (p fd ftype : ℕ) : Prop :=
  fd < procMaxFile ∧ ∃ f o i, s.fds p fd = some f ∧ s.file f = some o ∧
    o.inode = some i ∧ (s.inode i).1 = ftype

/-- A slot is empty, or holds a file without an inode, or one of the file system. -/
theorem Inv.slot (I : Inv exact s) (p : ℕ) {fd : ℕ} (hfd : fd < procMaxFile) :
    s.fds p fd = none ∧ s.HasInode p fd ∨ (∃ f, s.fds p fd = some f ∧ ¬ s.HasInode p fd ∧
      ∀ {β : Type} (k : Inum → FilesM β), (inodeOf f >>= k) s = .error (.wild "f_inode")) ∨
    ∃ f o i, s.fds p fd = some f ∧ s.HasInode p fd ∧
      (s.file f = some o ∧ o.ops = .sfsFileOperations) ∧
      inodeOf f s = .ok (i, s) ∧ ∀ ty, (s.inode i).1 = ty → s.Holds p fd ty := by
  cases hf : s.fds p fd with
  | none => exact .inl ⟨rfl, fun _ f o hf' => by rw [hf] at hf'; cases hf'⟩
  | some f =>
    obtain ⟨o, ho⟩ := Option.ne_none_iff_exists'.mp (I.table p fd f hf).2
    have hat := fileAt_run ho
    cases hi : o.inode with
    | none =>
      refine .inr (.inl ⟨f, rfl, fun hx => hx hfd f o hf ho hi, fun k => ?_⟩)
      rw [Prog.bind_run, inodeOf, bind_of_ok hat, hi]
      rfl
    | some i =>
      refine .inr (.inr ⟨f, o, i, rfl, fun _ f' o' hf' ho' => ?_, ⟨ho, ?_⟩, ?_, fun ty hty =>
        ⟨hfd, f, o, i, hf, ho, hi, hty⟩⟩)
      · cases hf.symm.trans hf'
        cases ho.symm.trans ho'
        simp [hi]
      · have hk := I.kind f o ho
        rw [Kind] at hk
        split_ifs at hk <;> simp_all
      · rw [inodeOf, bind_of_ok hat, hi]
        rfl

/-- The first process opens inode 5 at descriptor 2. -/
def withFile : Files := (FileCall.exec 0 (.sysOpen true (.ok (5, fsRdonly)))).final start

/-- `sys_dup` of the standard input. -/
def dupStdin : Files := (FileCall.exec 0 (.sysDup 0)).final start

end Files

end Osv
