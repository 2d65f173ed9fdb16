import Osv.Proc.Fork
import Osv.Vm.Load

/-!
# What a spawn leaves behind

`proc_spawn` makes a process, opens its executable file, loads it and sets up its
stack and its thread.  The file is never closed, so every spawn that gets that far
leaves a `struct file`.  A spawn that fails releases its address space and its
process, and not the reference to the root directory that `proc_init` took.

So a spawn is neutral only if it fails before it opens the file: in `proc_init` without
a new slab, or in `fs_open_file` at the one exit that releases a reference too many,
which is the one the process has (`procSpawn_neutral_iff`).

The bytes of the file are an input, as in `Osv.Vm.Load`.  Pages that the page cache
takes while the file is read are left out.
-/

namespace Osv

/-- What a spawn depends on besides the state. -/
structure SpawnInput where
  sb : SbInfo
  caller : Caller
  /-- The blocks that `fs_get_inode` takes for the root directory. -/
  rootBlocks : Blocks
  /-- The blocks that `fs_open_file` takes. -/
  openBlocks : Blocks
  file : ExecFile

namespace Kernel

/-! ## `proc_spawn` -/

/-- `proc_load`. -/
def procLoad (w : SpawnInput) (path : List UInt8) (p : ℕ) : KernelM (Except Err ℕ) := do
  match ← fsCall w.openBlocks (VfsM.alone w.sb w.caller (fsOpenFile path fsRdonly 0)) with
  | .error e => pure (.error e)
  | .ok _ => do
    Prog.update fun s => { s with files := s.files + 1 }
    spCall (Osv.procLoad { w.file with openErr := .ok } (procAs p))

/-- The label `error`. -/
def spawnFail (p : ℕ) (err : Err) : KernelM (Except Err ℕ) := do
  asDestroy (procAs p)
  procFree p
  pure (.error err)

/-- `proc_spawn` from where the stack is set up. -/
def spawnThread (parent : Option ℕ) (p : ℕ) : KernelM (Except Err ℕ) := do
  match ← threadCreate p with
  | none => spawnFail p .nomem
  | some _ => do
    Prog.update fun s =>
      { s.setProc p { s.proc p with parent := parent } with ptable := s.ptable ++ [p] }
    pure (.ok p)

/-- `proc_spawn` from where the file is loaded. -/
def spawnStack (parent : Option ℕ) (p : ℕ) : KernelM (Except Err ℕ) := do
  match ← spCall (stackSetup (procAs p)) with
  | .error e => spawnFail p e
  | .ok _ => spawnThread parent p

/-- `proc_spawn` for the process in slot `parent`, which the first process does not have.  Returns
the slot of the new process. -/
def procSpawn (w : SpawnInput) (path : List UInt8) (parent : Option ℕ) :
    KernelM (Except Err ℕ) := do
  match ← procInit w.rootBlocks path with
  | none => pure (.error .nomem)
  | some p => do
    match ← procLoad w path p with
    | .error e => spawnFail p e
    | .ok _ => spawnStack parent p

/-! ## What is left of it -/

/-- A spawn leaves the files and the references to inodes, but for the new process's own to the root
directory, and if it fails the free pages. -/
structure Neutral (s s' : Kernel) (r : Except Err ℕ) : Prop where
  files : s'.files = s.files
  iref : ∀ i, s'.fs.iref i = s.fs.iref i + if r.isOk ∧ i = sfsRootInum then 1 else 0
  pages : r.isOk = false → freePages s'.pm = freePages s.pm

/-- The spawn opens the root directory, and there is no memory for a `struct file`.  The directory
has another reference or is not handed to the cleanup thread. -/
structure OpensRoot (w : SpawnInput) (path : List UInt8) (s : Kernel) : Prop where
  slashes : ∀ c ∈ path, c = slash
  start : w.caller.start path = sfsRootInum
  root : ∃ fs n, fsGetInode sfsRootInum s.fs = .ok (.ok (), fs) ∧
    fs.data.icache sfsRootInum = some n ∧
    n.ftype = ftypeDir ∧ (n.ref = 1 → n.nlink ≠ 0 ∧ n.dirty = false) ∧
      fs.ctl.avail fs.ctl.tick = false

/-- The spawn fails in `proc_init`, or it opens the root directory, and takes no blocks. -/
def SpawnQuiet (w : SpawnInput) (path : List UInt8) (s : Kernel) : Prop :=
  (∃ x : InitExit, x.At w.rootBlocks s) ∨
    (s.Stocked .proc ∧ s.Stocked .vpmap ∧ w.rootBlocks.sizes = [] ∧
      w.openBlocks.sizes = [] ∧ OpensRoot w path s)

variable {w : SpawnInput} {path : List UInt8} {parent : Option ℕ} {s s' : Kernel} {r : Except Err ℕ}

theorem InitFailed.neutral_iff {exit : InitExit} (h : InitFailed w.rootBlocks s s' exit) :
    Neutral s s' (.error .nomem) ↔ SpawnQuiet w path s := by
  constructor
  · exact fun hn => .inl ⟨exit, h.pages.mp (hn.pages rfl)⟩
  · intro hq
    have hat : exit.At w.rootBlocks s := by
      rcases hq with ⟨x, hx⟩ | ⟨h1, h2, h3, -⟩
      · rwa [← h.only x hx]
      · exact h.stocked h1 h2 h3
    refine ⟨h.files, fun i => ?_, fun _ => h.pages.mpr hat⟩
    rw [h.iref]
    rfl

section Opened

variable {p : ℕ} {t : Kernel}

theorem keeps_spawnFail (p : ℕ) (err : Err) : Prog.Keeps stock (spawnFail p err) :=
  Prog.keeps_bind (keeps_asDestroy _) fun _ => Prog.keeps_bind (keeps_procFree p)
    fun _ => Prog.keeps_pure _

theorem keeps_spawnStack (p : ℕ) : Prog.Keeps stock (spawnStack parent p) := by
  refine Prog.keeps_bind (keeps_spCall _) fun r => ?_
  cases r with
  | error e => exact keeps_spawnFail p e
  | ok _ =>
    refine Prog.keeps_bind (keeps_threadCreate p) fun r => ?_
    cases r with
    | none => exact keeps_spawnFail p _
    | some _ => exact Prog.keeps_bind (Prog.keeps_update fun _ => rfl) fun _ => Prog.keeps_pure _

section

variable (hd : InitDone w.rootBlocks s t p)

include hd

/-- A process that `proc_init` has made is taken apart, after blocks have been taken. -/
theorem spawnFail_pages {pm : Pmem} {fs : Fs} {e : Err} (hspent : t.pm.Spent pm)
    (hpages : freePages pm = freePages t.pm ↔ w.openBlocks.sizes = [])
    (h : spawnFail p e { t.withPm pm with fs := fs } = .ok (r, s')) :
    r = .error e ∧ s'.fs = fs ∧ s'.files = s.files ∧ (freePages s'.pm = freePages s.pm ↔
      s.Stocked .proc ∧ s.Stocked .vpmap ∧ w.rootBlocks.sizes = [] ∧ w.openBlocks.sizes = []) := by
  obtain ⟨v, g, hfresh, hback, hiff⟩ := hd.space
  have hfresh' : Fresh { t.withPm pm with fs := fs } (procAs p) v g :=
    ⟨hfresh.vpmap, hfresh.space, hfresh.empty, hfresh.ne, hspent.holding _ hfresh.held⟩
  obtain ⟨_, t1, hdestroy, h⟩ := Prog.bind_ok.mp h
  obtain ⟨_, t2, hfree, h⟩ := Prog.bind_ok.mp h
  cases h
  obtain ⟨hrest1, -, -, hpages1⟩ := asDestroy_fresh hfresh' hdestroy
  obtain ⟨hrest2, hsp2, -, -⟩ := procFree_ok hfree
  obtain ⟨hfs, -, -, hfiles⟩ := rest_eq (hrest2.trans hrest1)
  refine ⟨rfl, hfs, hfiles.trans hd.files, ?_⟩
  have hs' : freePages s'.pm = insert g (freePages pm) := by
    rw [Kernel.pm, hsp2]
    exact hpages1
  have hg : g ∉ freePages t.pm := hfresh.held.not_free (Set.mem_singleton g)
  have hsplit : insert g (freePages pm) = freePages s.pm ↔
      insert g (freePages t.pm) = freePages s.pm ∧ freePages pm = freePages t.pm := by
    constructor
    · intro heq
      have hsame : freePages pm = freePages t.pm := by
        refine Set.Subset.antisymm hspent.subset fun x hx => ?_
        have hx' : x ∈ insert g (freePages pm) := by
          rw [heq]
          exact hback (Set.mem_insert_of_mem g hx)
        exact hx'.resolve_left fun hxg => hg (hxg ▸ hx)
      exact ⟨hsame ▸ heq, hsame⟩
    · exact fun h => h.2 ▸ h.1
  rw [hs', hsplit, hiff, hpages]
  tauto

theorem InitDone.rootInode : t.fs.iref = Function.update s.fs.iref sfsRootInum
    (s.fs.iref sfsRootInum + 1) ∧
      ∃ n, t.fs.data.icache sfsRootInum = some n ∧ n.valid = true ∧
        n.ref = s.fs.iref sfsRootInum + 1 := by
  rcases fsGetInode_ok hd.root with ⟨-, hiref, n, hn, hv⟩ | ⟨⟨e, herr⟩, -⟩
  · refine ⟨hiref, n, hn, hv, ?_⟩
    rw [← Fs.iref_cached hn, hiref, Function.update_self]
  · cases herr

/-- A spawn that cannot open its file leaves the references as they were iff it opens the root
directory. -/
theorem open_iref_iff {fs : Fs} {e : Err}
    (h : VfsM.alone w.sb w.caller (fsOpenFile path fsRdonly 0) t.fs = .ok (.error e, fs)) :
    fs.iref = s.fs.iref ↔ OpensRoot w path s := by
  obtain ⟨hiref, n, hn, hv, href⟩ := hd.rootInode
  have hroot : t.fs.iref sfsRootInum =
      s.fs.iref sfsRootInum + 1 := by rw [hiref, Function.update_self]
  have hkept : fs.iref sfsRootInum = t.fs.iref sfsRootInum → fs.iref ≠ s.fs.iref := by
    intro hk heq
    rw [heq, hroot] at hk
    omega
  have hpos : 0 < t.fs.iref sfsRootInum := by omega
  constructor
  · intro heq
    by_cases hpath : ∀ c ∈ path, c = slash
    · by_cases hstart : w.caller.start path = sfsRootInum
      · refine ⟨hpath, hstart, t.fs, n, hd.root, hn, ?_⟩
        rcases fsOpenFile_slashes_self hpath hstart hn hv (by omega) h with
          ⟨-, hk⟩ | ⟨hdir, havail, ⟨-, -, hk⟩ | ⟨hclean, -⟩⟩
        · exact absurd heq (hkept (by rw [hk, href, hroot]))
        · exact absurd heq (hkept (by rw [hk, href, hroot]))
        · exact ⟨hdir, hclean, havail⟩
      · exact absurd heq (hkept (fsOpenFile_slashes_other hpath hstart hpos h))
    · simp only [not_forall, exists_prop] at hpath
      exact absurd heq (hkept (fsOpenFile_named hpath hpos h))
  · rintro ⟨hpath, hstart, fs1, n1, hget, hn1, hdir, hclean, -⟩
    rw [hd.root] at hget
    cases hget
    rw [hn] at hn1
    cases hn1
    rcases fsOpenFile_slashes_self hpath hstart hn hv (by omega) h with
      ⟨hndir, -⟩ | ⟨-, -, ⟨hone, hgone, -⟩ | ⟨-, hiref'⟩⟩
    · exact absurd hdir hndir
    · obtain ⟨h1, h2⟩ := hclean hone
      rcases hgone with h | h
      · exact absurd h h1
      · rw [h2] at h
        cases h
    · rw [hiref', hiref, Function.update_idem, href, Nat.add_sub_cancel, Function.update_eq_self]

theorem not_opensRoot {fs : Fs} {file : OpenFile}
    (h : VfsM.alone w.sb w.caller (fsOpenFile path fsRdonly 0) t.fs = .ok (.ok file, fs)) :
    ¬ OpensRoot w path s := by
  rintro ⟨hpath, hstart, fs1, n1, hget, hn1, -, -, havail⟩
  obtain ⟨-, n, hn, hv, -⟩ := hd.rootInode
  rw [hd.root] at hget
  cases hget
  rw [fsOpenFile_slashes_ok hpath hstart hn hv h] at havail
  cases havail

theorem InitDone.neutral_iff (hr : t.pm.Ready) (h : (procLoad w path p >>= fun
      | .error e => spawnFail p e
      | .ok _ => spawnStack parent p) t = .ok (r, s')) : Neutral s s' r ↔ SpawnQuiet w path s := by
  have hquiet : SpawnQuiet w path s ↔ s.Stocked .proc ∧ s.Stocked .vpmap ∧ w.rootBlocks.sizes = [] ∧
      w.openBlocks.sizes = [] ∧ OpensRoot w path s :=
    or_iff_right fun ⟨x, hx⟩ => hd.never x hx
  obtain ⟨r1, t1, hload, h⟩ := Prog.bind_ok.mp h
  obtain ⟨r2, t2, hcall, hload⟩ := Prog.bind_ok.mp hload
  obtain ⟨pm, fs, hopen, rfl, hspent, hpages⟩ := fsCall_ok hr hcall
  cases r2 with
  | error e =>
    cases hload
    obtain ⟨rfl, hfs, hfiles, hiff⟩ := spawnFail_pages hd hspent hpages h
    rw [hquiet, ← open_iref_iff hd hopen]
    constructor
    · intro hn
      obtain ⟨h1, h2, h3, h4⟩ := hiff.mp (hn.pages rfl)
      exact ⟨h1, h2, h3, h4, by rw [← hfs]; exact funext hn.iref⟩
    · rintro ⟨h1, h2, h3, h4, heq⟩
      refine ⟨hfiles, fun i => ?_, fun _ => hiff.mpr ⟨h1, h2, h3, h4⟩⟩
      rw [hfs, heq]
      rfl
  | ok file =>
    obtain ⟨t3, rfl, hload⟩ := Prog.update_bind_ok.mp hload
    have hk1 := keeps_spCall _ _ _ _ hload
    have hk2 : s'.stock = t1.stock := by
      cases r1 with
      | error e => exact keeps_spawnFail p e _ _ _ h
      | ok _ => exact keeps_spawnStack p _ _ _ h
    have hfiles : s'.files = t.files + 1 := congrArg Prod.snd (hk2.trans hk1)
    refine iff_of_false (fun hn => ?_) fun hq => not_opensRoot hd hopen (hquiet.mp hq).2.2.2.2
    rw [hn.files, hd.files] at hfiles
    omega

end

end Opened

/-- A spawn leaves the files, the references to inodes and, if it fails, the free pages as they were
iff it fails in `proc_init`, or opens the root directory without memory for a file, and no blocks
are taken for good. -/
theorem procSpawn_neutral_iff (hs : s.Sound) (h : procSpawn w path parent s = .ok (r, s')) :
    Neutral s s' r ↔ SpawnQuiet w path s := by
  obtain ⟨r1, t, hinit, h⟩ := Prog.bind_ok.mp h
  rcases procInit_ok hs hinit with ⟨rfl, exit, hfail⟩ | ⟨p, rfl, hd⟩
  · cases h
    exact hfail.neutral_iff
  · obtain ⟨v, g, hfresh, -⟩ := hd.space
    exact hd.neutral_iff hfresh.held.ready h

/-! ## Two spawns -/

/-- A file without bytes. -/
def emptyFile : ExecFile := ⟨.ok, fun _ _ => [], by simp⟩

/-- The file system takes no blocks. -/
def plainInput : SpawnInput :=
  ⟨mkfsSb, ⟨some sfsRootInum, List.length, 1⟩, Blocks.none, Blocks.none, emptyFile⟩

/-- The root directory is in memory, and there is no memory for a `struct file`. -/
def noFiles : Kernel := stocked { rootFs with ctl := .idle false fun _ => false }

theorem noFiles_quiet : SpawnQuiet plainInput [slash] noFiles :=
  .inr ⟨List.cons_ne_nil _ _, List.cons_ne_nil _ _, rfl, rfl,
    fun _ hc => List.mem_singleton.mp hc, rfl, _, _, Prog.run_of_result (by decide +kernel),
    rfl, rfl, by decide, rfl⟩

/-- A spawn of the root directory takes a process, a page table and a reference to the directory,
and gives them back. -/
theorem noFiles_spawn : ∃ s', procSpawn plainInput [slash] (some 0) noFiles =
    .ok (.error .nomem, s') ∧ Neutral noFiles s' (.error .nomem) := by
  have hrun : procSpawn plainInput [slash] (some 0) noFiles =
      .ok (.error .nomem, (procSpawn plainInput [slash] (some 0)).final noFiles) :=
    Prog.run_of_result (by decide +kernel)
  exact ⟨_, hrun, (procSpawn_neutral_iff (stocked_sound _) hrun).mpr noFiles_quiet⟩

/-- The root directory has one entry, `a`, for inode 2. -/
def entryFs : Fs where
  data :=
    { buf := fun b o => if b = 324 ∧ o = 0 then 2 else if b = 324 ∧ o = 4 then 97 else 0
      icache := fun i =>
        if i = sfsRootInum then
          some ⟨⟨ftypeDir, 0, 1, 32, fun k => if k = 0 then 324 else 0⟩, 1, true, false⟩
        else if i = 2 then some ⟨⟨ftypeFile, 0, 1, 0, fun _ => 0⟩, 1, true, false⟩
        else none
      cleanup := []
      next := fun _ => none }
  ctl := rootFs.ctl
  dev := rootFs.dev

/-- There is enough of everything. -/
def spawner : Kernel := stocked entryFs

/-- The file `a` is not executable.  It stays open, with a reference to its inode, and the root
directory has a reference from the process that is gone. -/
theorem spawner_leaks : ∃ s', spawner.Sound ∧
    procSpawn plainInput [97] (some 0) spawner = .ok (.error .inval, s') ∧
    s'.files = spawner.files + 1 ∧ s'.fs.iref 2 = spawner.fs.iref 2 + 1 ∧
    s'.fs.iref sfsRootInum = spawner.fs.iref sfsRootInum + 1 ∧
      ¬ Neutral spawner s' (.error .inval) := by
  have hrun : procSpawn plainInput [97] (some 0) spawner =
      .ok (.error .inval, (procSpawn plainInput [97] (some 0)).final spawner) :=
      Prog.run_of_result (by decide +kernel)
  have hfiles : ((procSpawn plainInput [97] (some 0)).final spawner).files = 1 := by decide +kernel
  refine ⟨_, stocked_sound _, hrun, hfiles, by decide +kernel, by decide +kernel, fun hn => ?_⟩
  have := hn.files
  rw [hfiles] at this
  exact absurd this (by decide)

end Kernel

end Osv
