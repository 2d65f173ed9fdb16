import Osv.Proc.Process
import Osv.Vm.Shared

/-!
# A fork that fails

`proc_fork` asks for memory at six places, and each has an exit of its own:
`proc_init` has four, the copy of the address space has one, and the new thread the
last.  The exits of `proc_init` give back what they took, but for the object of the
page table when there is no page for the table.  The exit of the copy frees the
process and nothing else, and neither this one nor the last gives back the reference
to the root directory that `proc_init` took.

So a fork that fails leaves a trace unless it fails in `proc_init`, at one of the three
other exits and without a new slab before it (`procFork_noTrace_iff`).
-/

namespace Osv

namespace Kernel

/-! ## `proc_fork` -/

/-- One descriptor of `duplicate_process_state`. -/
def copyDescriptor (parent child fd : ℕ) : KernelM Unit := do
  let s ← Prog.read
  match (s.proc parent).fileDescriptors fd with
  | none =>
    Prog.update fun s => s.setProc child
      { s.proc child with
        fileDescriptors := Function.update (s.proc child).fileDescriptors fd none }
  | some f =>
    Prog.update fun s =>
      { s.setProc child
          { s.proc child with
            fileDescriptors := Function.update (s.proc child).fileDescriptors fd (some f) } with
        fRef := Function.update s.fRef f (wrapInt (s.fRef f + 1)) }

/-- `duplicate_process_state` from where the address space has been copied. -/
def copyFiles (parent child : ℕ) : KernelM Unit := do
  Prog.update fun s => s.setProc child { s.proc child with cwd := (s.proc parent).cwd }
  Prog.forEach (List.range procMaxFile) (copyDescriptor parent child)
  Prog.update fun s => s.setProc child { s.proc child with curFd := (s.proc parent).curFd }

/-- A child with the memory and the files of its parent. -/
def duplicateProcessState (ns : Blocks) (parent : ℕ) : KernelM (Option ℕ) := do
  let s ← Prog.read
  match ← procInit ns (s.proc parent).name with
  | none => pure none
  | some child => do
    let err ← spCall (asCopyAs (procAs parent) (procAs child))
    if err ≠ .ok then do
      procFree child
      pure none
    else do
      copyFiles parent child
      pure (some child)

/-- `proc_fork` of the process in slot `parent`.  Returns the slot of the child. -/
def procFork (ns : Blocks) (parent : ℕ) : KernelM (Option ℕ) := do
  match ← duplicateProcessState ns parent with
  | none => pure none
  | some child => do
    Prog.update fun s => s.setProc child { s.proc child with parent := some parent }
    match ← threadCreate child with
    | none => do
      asDestroy (procAs child)
      procFree child
      pure none
    | some _ => do
      Prog.update fun s => { s with ptable := s.ptable ++ [child] }
      pure (some child)

/-! ## What is left of it -/

/-- Nothing is left of a call. -/
structure NoTrace (s s' : Kernel) : Prop where
  pages : freePages s'.pm = freePages s.pm
  regions : s'.sp.cache.live = s.sp.cache.live
  vpmaps : (s'.cache .vpmap).live = (s.cache .vpmap).live
  procs : (s'.cache .proc).live = (s.cache .proc).live
  fRef : s'.fRef = s.fRef
  iref : s'.fs.iref = s.fs.iref
  ptable : s'.ptable = s.ptable

/-- The exits of `proc_init` that give back all that was taken, if no slab was. -/
def ForkQuiet (ns : Blocks) (s : Kernel) : Prop :=
  InitExit.At ns s .proc ∨ InitExit.At ns s .vpmap ∨ InitExit.At ns s .root

variable {s s' : Kernel} {ns : Blocks} {parent : ℕ}

theorem InitFailed.noTrace_iff {exit : InitExit} (h : InitFailed ns s s' exit) :
    NoTrace s s' ↔ ForkQuiet ns s := by
  constructor
  · intro hno
    have hat := h.pages.mp hno.pages
    have hne := h.vpmaps.mp hno.vpmaps
    cases exit with
    | proc => exact .inl hat
    | vpmap => exact .inr (.inl hat)
    | page => exact absurd rfl hne
    | root => exact .inr (.inr hat)
  · intro hq
    have hall : exit.At ns s ∧ exit ≠ .page := by
      rcases hq with hat | hat | hat <;> rw [← h.only _ hat] <;> exact ⟨hat, by decide⟩
    exact ⟨h.pages.mpr hall.1, by rw [h.regions], h.vpmaps.mpr hall.2, h.procs,
      h.fRef, h.iref, h.ptable⟩

theorem keeps_copyDescriptor (child fd : ℕ) :
    Prog.Keeps stock (copyDescriptor parent child fd) := by
  refine Prog.keeps_bind Prog.keeps_read fun s => ?_
  cases (s.proc parent).fileDescriptors fd with
  | none | some f => exact Prog.keeps_update fun _ => rfl

theorem keeps_copyFiles (child : ℕ) : Prog.Keeps stock (copyFiles parent child) := by
  refine Prog.keeps_bind (Prog.keeps_update fun _ => rfl) fun _ =>
    Prog.keeps_bind ?_ fun _ => Prog.keeps_update fun _ => rfl
  intro s _ s' h
  exact Prog.forEach_inv (P := fun t => t.stock = s.stock)
    (fun fd _ t _ t' ht hrun => (keeps_copyDescriptor child fd t _ t' hrun).trans ht) rfl h

theorem InitDone.not_noTrace {p : ℕ} {t : Kernel} (hd : InitDone ns s t p)
    (hkeep : s'.stock = t.stock) : ¬ NoTrace s s' := by
  intro hno
  have hfs : s'.fs = t.fs := congrArg Prod.fst hkeep
  rcases fsGetInode_ok hd.root with ⟨-, hiref, -⟩ | ⟨⟨e, herr⟩, -⟩
  · have h1 := congrFun hno.iref sfsRootInum
    rw [hfs, hiref, Function.update_self] at h1
    omega
  · cases herr

theorem InitDone.not_forkQuiet {p : ℕ} (hd : InitDone ns s s' p) : ¬ ForkQuiet ns s := by
  rintro (hat | hat | hat)
  · exact hd.never _ hat
  · exact hd.never _ hat
  · exact hd.never _ hat

/-- A fork that fails has failed in `proc_init`, or it has kept the reference to the root directory.
-/
theorem procFork_none (hs : s.Sound) (h : procFork ns parent s = .ok (none, s')) :
    (∃ exit, InitFailed ns s s' exit) ∨ ∃ p t, InitDone ns s t p ∧ s'.stock = t.stock := by
  obtain ⟨r, t1, hdup, h⟩ := Prog.bind_ok.mp h
  rw [duplicateProcessState, Prog.read_bind] at hdup
  obtain ⟨r1, t, hinit, hdup⟩ := Prog.bind_ok.mp hdup
  rcases procInit_ok hs hinit with ⟨rfl, hfail⟩ | ⟨p, rfl, hd⟩
  · cases hdup
    cases h
    exact .inl hfail
  · obtain ⟨err, t2, hcopy, hdup⟩ := Prog.bind_ok.mp hdup
    have hk := keeps_spCall _ _ _ _ hcopy
    split at hdup
    · obtain ⟨_, t3, hfree, hdup⟩ := Prog.bind_ok.mp hdup
      cases hdup
      cases h
      exact .inr ⟨p, t, hd, (keeps_procFree p _ _ _ hfree).trans hk⟩
    · obtain ⟨_, t3, hfiles, hdup⟩ := Prog.bind_ok.mp hdup
      cases hdup
      obtain ⟨t4, rfl, h⟩ := Prog.update_bind_ok.mp h
      obtain ⟨r2, t5, hthread, h⟩ := Prog.bind_ok.mp h
      have hk5 : t5.stock = t.stock :=
        (keeps_threadCreate p _ _ _ hthread).trans ((keeps_copyFiles p _ _ _ hfiles).trans hk)
      cases r2 with
      | none =>
        obtain ⟨_, t6, hdestroy, h⟩ := Prog.bind_ok.mp h
        obtain ⟨_, t7, hfree, h⟩ := Prog.bind_ok.mp h
        cases h
        exact .inr ⟨p, t, hd, (keeps_procFree p _ _ _ hfree).trans
          ((keeps_asDestroy _ _ _ _ hdestroy).trans hk5)⟩
      | some _ =>
        obtain ⟨t6, rfl, h⟩ := Prog.update_bind_ok.mp h
        cases h

/-- A fork that fails for want of memory leaves no trace iff it fails in `proc_init`, for want of a
process, of a page table or of the root directory, and no cache has taken a slab before. -/
theorem procFork_noTrace_iff (hs : s.Sound) (h : procFork ns parent s = .ok (none, s')) :
    NoTrace s s' ↔ ForkQuiet ns s := by
  rcases procFork_none hs h with ⟨exit, hfail⟩ | ⟨p, t, hd, hkeep⟩
  · exact hfail.noTrace_iff
  · exact iff_of_false (hd.not_noTrace hkeep) hd.not_forkQuiet

/-! ## Two forks -/

/-- A file system with the root directory in memory. -/
def rootFs : Fs where
  data :=
    { buf := fun _ => Bytes.zero
      icache := fun i =>
        if i = sfsRootInum then some ⟨⟨ftypeDir, 0, 1, 0, fun _ => 0⟩, 1, true, false⟩ else none
      cleanup := []
      next := fun _ => none }
  ctl := .idle false fun _ => true
  dev := ⟨fun _ => Bytes.zero, []⟩

/-- Process 0 runs, on a machine with some memory. -/
def oneProc (pm : Pmem) (free : ObjKind → List ℕ) : Kernel where
  sp := { kernelOnly with vm := ⟨kernelMem, pm⟩ }
  fs := rootFs
  cache k := ⟨free k, 4⟩
  vpmap a := if a = 1 then some 0 else none
  proc _ := initialProc ⟨0, [], some sfsRootInum, [], fun _ => none, 0, none, false, 0⟩ []
  ptable := [0]
  fRef _ := 1
  files := 0
  pidAllocator := 1
  idle := true

theorem oneProc_sound {pm : Pmem} {free : ObjKind → List ℕ} (hr : pm.Ready)
    (hused : 1 ∉ freePages pm) (hfree : ∀ k, RegionCache.Sound ⟨free k, 4⟩) :
    (oneProc pm free).Sound := ⟨hr, hused, hfree⟩

/-- There are objects of all kinds, and pages. -/
def stocked (fs : Fs) : Kernel := { oneProc mediumWorld.pm fun _ => [1, 2, 3] with fs := fs }

theorem stocked_sound (fs : Fs) : (stocked fs).Sound :=
  ⟨mediumWorld_reachable.ready,
    show 1 ∉ freePages mediumWorld.pm from mediumWorld_reachable.live_used (by decide +kernel),
    fun _ => show RegionCache.Sound ⟨[1, 2, 3], 4⟩ from ⟨by decide, by decide⟩⟩

/-- The root directory is not in memory, and there is no memory to read it. -/
def noRoot : Kernel := stocked
  { rootFs with
    data := { rootFs.data with icache := fun _ => none }
    ctl := .idle false fun _ => false }

theorem noRoot_exit : InitExit.At Blocks.none noRoot .root := by
  refine ⟨List.cons_ne_nil _ _, List.cons_ne_nil _ _, fun h => ?_,
    ⟨.nomem, _, Prog.run_of_result (by decide +kernel)⟩, rfl⟩
  have hnone : (pmemNalloc 1).result noRoot.pm = some none := by rw [Prog.result, h]
  exact absurd hnone (by decide +kernel)

/-- A fork that cannot read the root directory for the child gives back its `struct proc` and its
page table, and leaves no trace. -/
theorem noRoot_fork : ∃ s', procFork Blocks.none 0 noRoot = .ok (none, s') ∧ NoTrace noRoot s' := by
  have hrun : procFork Blocks.none 0 noRoot = .ok (none, (procFork Blocks.none 0).final noRoot) :=
    Prog.run_of_result (by decide +kernel)
  exact ⟨_, hrun, (procFork_noTrace_iff (stocked_sound _) hrun).mpr (.inr (.inr noRoot_exit))⟩

/-- The machine with one page left, page 7. -/
@[irreducible] def onePage : Pmem := (pmemNalloc 8).final ((pmemNalloc 8).final mediumWorld.pm)

theorem onePage_spent : mediumWorld.pm.Spent onePage := by
  have step : ∀ {pm : Pmem}, pm.Ready → (pmemNalloc 8).result pm ≠ none →
      pm.Spent ((pmemNalloc 8).final pm) := by
    intro pm hr hres
    obtain ⟨r, hr'⟩ := Option.ne_none_iff_exists'.mp hres
    rcases hr.nalloc_cases (by decide) (by decide)
      (Prog.run_of_result hr') with ⟨-, heq, -⟩ | ⟨-, hspent, -⟩
    · rw [heq]
      exact .refl hr
    · exact hspent
  have h1 := step mediumWorld_reachable.ready (by decide +kernel)
  rw [onePage]
  exact h1.trans (step h1.ready (by decide +kernel))

/-- There are objects of all kinds, and one page. -/
def lowMemory : Kernel := oneProc onePage fun _ => [1, 2, 3]

theorem lowMemory_sound : lowMemory.Sound :=
  oneProc_sound onePage_spent.ready
    (fun h => mediumWorld_reachable.live_used (by decide +kernel) (onePage_spent.subset h))
    fun _ => ⟨by decide, by decide⟩

/-- The child gets the last page for its page table and none for its thread.  The file that was
standard input has a reference from the child that is gone. -/
theorem lowMemory_fork : ∃ s', lowMemory.Sound ∧ procFork Blocks.none 0 lowMemory = .ok (none, s') ∧
    s'.fRef stdinFile = lowMemory.fRef stdinFile + 1 ∧ ¬ NoTrace lowMemory s' := by
  have hrun : procFork Blocks.none 0 lowMemory =
      .ok (none, (procFork Blocks.none 0).final lowMemory) :=
    Prog.run_of_result (by decide +kernel)
  have href : ((procFork Blocks.none 0).final lowMemory).fRef stdinFile = 2 := by decide +kernel
  refine ⟨_, lowMemory_sound, hrun, href, fun hno => ?_⟩
  have := congrFun hno.fRef stdinFile
  rw [href] at this
  exact absurd this (by decide)

end Kernel

end Osv
