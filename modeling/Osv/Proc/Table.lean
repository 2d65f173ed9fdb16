import Mathlib.Data.List.Nodup
import Osv.Base
import Osv.Lib.Run

/-!
# The process table

`proc_fork` and `proc_spawn` of `kernel/proc.c` put a new process on the table.
`proc_exit` marks the caller as exited.  `proc_wait` takes a marked child of the caller
off the table and frees its structure.  Nothing else frees a structure that was on the table.

A process that exits after its creator marks itself all the same, and nobody is left to
look for the mark, so it stays on the table (`orphan_stays`).  In the runs where every process
that exits has a creator that has not, a process that was waited for is gone
(`orphans_reaped`).

A structure is known by its address, and the address that was freed last is used first.  So the
`parent` of a process can come to be the address of a process that did not create it, and
that process takes it for a child (`stranger_waits`).  Without such an address a wait
returns children of the caller only, and each of them once (`procWait_own_children`).

The processes themselves are numbered by their creation, and the state has a record of who
created whom, who exited, and who waited for whom.  The source has no such record.
-/

namespace Osv

open Function (update update_self update_of_ne update_idem update_eq_self)
open Prog (bind_of_ok)

/-- `ANY_CHILD`. -/
def anyChild : Int := -1

/-- `struct proc`, as far as the table goes. -/
structure ProcRec where
  pid : Int
  /-- The address of the parent. -/
  parent : Option ℕ
  hasExited : Bool
  exitStatus : Int
  /-- The number of its creation. -/
  who : ℕ
deriving DecidableEq, Repr

/-- The creation of a process. -/
structure Birth where
  creator : Option ℕ
  pid : Int
deriving DecidableEq, Repr

/-- A call of `proc_exit`. -/
structure ExitRec where
  who : ℕ
  status : Int
  /-- The creator had exited. -/
  orphan : Bool
deriving DecidableEq, Repr

/-- A call of `proc_wait` that returned a child. -/
structure WaitRec where
  caller : ℕ
  child : ℕ
  pid : Int
  status : Int
deriving DecidableEq, Repr

/-- The structures, the table, the memory for structures, and the record of what happened. -/
structure Procs where
  proc : ℕ → Option ProcRec
  ptable : List ℕ
  /-- Addresses that were freed, the last one first. -/
  freed : List ℕ
  /-- The addresses from here on have not been used. -/
  fresh : ℕ
  pidAllocator : Int
  births : List Birth
  exits : List ExitRec
  waits : List WaitRec

/-- A function of `proc.c`. -/
abbrev ProcsM := Prog Trap Procs

/-- What succeeds in a call that creates a process: memory for the structure, the rest of
`proc_init`, the address space, and the thread. -/
structure CreateMem where
  struct : Bool
  init : Bool
  space : Bool
  thread : Bool
deriving DecidableEq, Repr

/-- The structure after `proc_exit`. -/
def ProcRec.exit (e : ProcRec) (status : Int) : ProcRec :=
  if e.parent = none then e else { e with exitStatus := status, hasExited := true }

namespace Procs

/-- A `struct proc` is replaced. -/
def setProc (s : Procs) (q : ℕ) (e : Option ProcRec) : Procs :=
  { s with proc := update s.proc q e }

/-- The address that `kmem_cache_alloc` returns. -/
def slot (s : Procs) : ℕ := s.freed.headD s.fresh

/-- Who created a process. -/
def creator (s : Procs) (i : ℕ) : Option ℕ := (s.births[i]?).bind (·.creator)

/-- A process has called `proc_exit`. -/
def exited (s : Procs) (i : ℕ) : Bool := s.exits.any fun x => x.who = i

/-- The creator of a process has called `proc_exit`. -/
def orphaned (s : Procs) (i : ℕ) : Bool := (s.creator i).any s.exited

/-- There is a process at the address that has not exited. -/
def live (s : Procs) (q : ℕ) : Bool := (s.proc q).any fun e => !s.exited e.who

/-! ## The functions of `proc.c` -/

/-- The structure at an address. -/
def struct (q : ℕ) : ProcsM ProcRec := do
  let s ← Prog.read
  match s.proc q with
  | some e => pure e
  | none => Prog.trap (.wild "proc")

/-- A new structure, with the fields that `proc_alloc` and `proc_init` set. -/
def newStruct (s : Procs) : Procs :=
  { s.setProc s.slot (some ⟨s.pidAllocator, none, false, statusAlive, s.births.length⟩) with
    freed := s.freed.tail
    fresh := if s.freed = [] then s.fresh + 1 else s.fresh
    pidAllocator := wrapInt (s.pidAllocator + 1) }

/-- Take a `struct proc`, if there is memory. -/
def procAlloc (mem : Bool) : ProcsM (Option ℕ) := do
  let s ← Prog.read
  if mem then do
    Prog.update newStruct
    pure (some s.slot)
  else pure none

/-- A `struct proc` is freed. -/
def freeStruct (s : Procs) (q : ℕ) : Procs := { s.setProc q none with freed := q :: s.freed }

/-- Free a `struct proc`. -/
def procFree (q : ℕ) : ProcsM Unit := do
  let _ ← struct q
  Prog.update fun s => s.freeStruct q

/-- A new process, or none if memory is short. -/
def procInit (m : CreateMem) : ProcsM (Option ℕ) := do
  match ← procAlloc m.struct with
  | none => pure none
  | some q =>
    if m.init then pure (some q)
    else do
      procFree q
      pure none

/-- `list_append` to the table, with the record of who created the process. -/
def publish (q p : ℕ) : ProcsM Unit := do
  let parent ← struct p
  let e ← struct q
  Prog.update fun s =>
    { s with ptable := s.ptable ++ [q], births := s.births ++ [⟨some parent.who, e.pid⟩] }

/-- `child->parent = parent`. -/
def setParent (q p : ℕ) : ProcsM Unit := do
  let e ← struct q
  Prog.update fun s => s.setProc q (some { e with parent := some p })

/-- `duplicate_process_state`. -/
def duplicateProcessState (m : CreateMem) : ProcsM (Option ℕ) := do
  match ← procInit m with
  | none => pure none
  | some child =>
    if m.space then pure (some child)
    else do
      procFree child
      pure none

/-- `proc_fork`, called by the process at `p`. -/
def procFork (p : ℕ) (m : CreateMem) : ProcsM (Option ℕ) := do
  match ← duplicateProcessState m with
  | none => pure none
  | some child => do
    setParent child p
    if m.thread then do
      publish child p
      pure (some child)
    else do
      procFree child
      pure none

/-- `proc_spawn`, called by the process at `p`. -/
def procSpawn (p : ℕ) (m : CreateMem) : ProcsM (Option ℕ) := do
  match ← procInit m with
  | none => pure none
  | some proc =>
    if m.space && m.thread then do
      publish proc p
      setParent proc p
      pure (some proc)
    else do
      procFree proc
      pure none

/-- The mark of `proc_exit`, and the record of it. -/
def mark (s : Procs) (p : ℕ) (e : ProcRec) (status : Int) : Procs :=
  { s.setProc p (some (e.exit status)) with
    exits := s.exits ++ [⟨e.who, status, s.orphaned e.who⟩] }

/-- `proc_exit`, called by the process at `p`. -/
def procExit (p : ℕ) (status : Int) : ProcsM Unit := do
  let e ← struct p
  Prog.update fun s => s.mark p e status

/-- The outcome of a pass of `proc_wait` over the table. -/
inductive WaitRes where
  /-- The pid and the status of a child. -/
  | child (pid status : Int)
  /-- `ERR_CHILD`. -/
  | none
  /-- There is a child and it has not exited. -/
  | again
deriving DecidableEq, Repr

/-- `list_remove` from the table, with the record that the process numbered `i` waited. -/
def unlist (s : Procs) (q : ℕ) (e : ProcRec) (i : ℕ) : Procs :=
  { s with
    ptable := s.ptable.erase q
    waits := s.waits ++ [⟨i, e.who, e.pid, e.exitStatus⟩] }

/-- What `proc_wait` does with a child that has exited. -/
def reap (p q : ℕ) : ProcsM WaitRes := do
  let caller ← struct p
  let e ← struct q
  Prog.update fun s => s.unlist q e caller.who
  procFree q
  pure (.child e.pid e.exitStatus)

/-- A pass over what is left of the table. -/
def waitScan (p : ℕ) (pid : Int) : List ℕ → (foundChild : Bool) → ProcsM WaitRes
  | [], foundChild => pure (if foundChild then .again else .none)
  | q :: rest, foundChild => do
    let e ← struct q
    if e.parent = some p ∧ (pid = anyChild ∨ e.pid = pid) then
      if e.hasExited then reap p q else waitScan p pid rest true
    else waitScan p pid rest foundChild

/-- A pass of `proc_wait`, called by the process at `p`. -/
def procWait (p : ℕ) (pid : Int) : ProcsM WaitRes := do
  let s ← Prog.read
  waitScan p pid s.ptable false

end Procs

/-! ## Runs -/

/-- A call of the process at an address. -/
inductive ProcCall where
  | fork (p : ℕ) (m : CreateMem)
  | spawn (p : ℕ) (m : CreateMem)
  | exit (p : ℕ) (status : Int)
  | wait (p : ℕ) (pid : Int)
deriving DecidableEq, Repr

namespace ProcCall

/-- The process that calls. -/
def caller : ProcCall → ℕ
  | fork p _ | spawn p _ | exit p _ | wait p _ => p

/-- The call is for a new process. -/
def Creates : ProcCall → Prop
  | fork _ _ | spawn _ _ => True
  | _ => False

/-- The state after the call. -/
def exec (s : Procs) (c : ProcCall) : Except Trap Procs :=
  match c with
  | fork p m => (Procs.procFork p m s).map (·.2)
  | spawn p m => (Procs.procSpawn p m s).map (·.2)
  | exit p status => (Procs.procExit p status s).map (·.2)
  | wait p pid => (Procs.procWait p pid s).map (·.2)

end ProcCall

variable {c : ProcCall}

namespace Procs

/-- The first process, which `proc_spawn` makes without a parent. -/
def boot : Procs where
  proc := fun q => if q = 0 then some ⟨0, none, false, statusAlive, 0⟩ else none
  ptable := [0]
  freed := []
  fresh := 1
  pidAllocator := 1
  births := [⟨none, 0⟩]
  exits := []
  waits := []

/-- A call of a process that has not exited, under a condition. -/
def Step (P : Procs → ProcCall → Prop) (s s' : Procs) : Prop :=
  ∃ c : ProcCall, s.live c.caller = true ∧ P s c ∧ c.exec s = .ok s'

/-- The states of the runs all of whose calls meet a condition. -/
def Reachable (P : Procs → ProcCall → Prop) (s : Procs) : Prop :=
  Run.Reachable (· = boot) (Step P) s

/-! ## What a call does -/

variable {s s' : Procs} {p q : ℕ} {e : ProcRec}

theorem struct_run (h : s.proc q = some e) : struct q s = .ok (e, s) := by
  rw [struct, Prog.read_bind, h]
  rfl

theorem procFree_run (h : s.proc q = some e) : procFree q s = .ok ((), s.freeStruct q) := by
  rw [procFree, bind_of_ok (struct_run h)]
  rfl

theorem setParent_run (h : s.proc q = some e) :
    setParent q p s = .ok ((), s.setProc q (some { e with parent := some p })) := by
  rw [setParent, bind_of_ok (struct_run h)]
  rfl

variable {e' : ProcRec}

theorem publish_run (hp : s.proc p = some e') (hq : s.proc q = some e) :
    publish q p s = .ok ((), { s with
      ptable := s.ptable ++ [q], births := s.births ++ [⟨some e'.who, e.pid⟩] }) := by
  rw [publish, bind_of_ok (struct_run hp), bind_of_ok (struct_run hq)]
  rfl

/-- The structure was taken and given back. -/
def burn (s : Procs) : Procs := s.newStruct.freeStruct s.slot

/-- A new process of the process at `p`, whose number is `i`. -/
def create (s : Procs) (p i : ℕ) : Procs :=
  { s.newStruct.setProc s.slot (some ⟨s.pidAllocator, some p, false, statusAlive,
    s.births.length⟩) with
    ptable := s.ptable ++ [s.slot]
    births := s.births ++ [⟨some i, s.pidAllocator⟩] }

theorem newStruct_slot : s.newStruct.proc s.slot =
    some ⟨s.pidAllocator, none, false, statusAlive, s.births.length⟩ :=
  update_self ..

theorem newStruct_of_ne (h : q ≠ s.slot) : s.newStruct.proc q = s.proc q := update_of_ne h ..

theorem procInit_run (m : CreateMem) (s : Procs) :
    (∃ t, procInit m s = .ok (none, t) ∧ (t = s ∨ t = s.burn)) ∨
      procInit m s = .ok (some s.slot, s.newStruct) := by
  unfold procInit
  cases hs : m.struct with
  | false => exact .inl ⟨s, rfl, .inl rfl⟩
  | true =>
    rw [bind_of_ok (show procAlloc true s = .ok (some s.slot, s.newStruct) from rfl)]
    cases m.init with
    | true => exact .inr rfl
    | false =>
      refine .inl ⟨s.burn, ?_, .inr rfl⟩
      exact bind_of_ok (procFree_run newStruct_slot)

theorem freeStruct_setProc (s : Procs) (q : ℕ) (o : Option ProcRec) :
    (s.setProc q o).freeStruct q = s.freeStruct q := by
  simp only [freeStruct, setProc, update_idem]

section create

variable (hslot : s.proc s.slot = none) (hp : s.proc p = some e)

include hslot hp

theorem ne_slot : p ≠ s.slot := by
  rintro rfl
  rw [hslot] at hp
  cases hp

theorem newStruct_caller : s.newStruct.proc p = some e := by
  rw [newStruct_of_ne (ne_slot hslot hp), hp]

/-- A call of `proc_fork` makes a process or leaves the table alone. -/
theorem procFork_run (m : CreateMem) :
    ∃ r t, procFork p m s = .ok (r, t) ∧ (t = s ∨ t = s.burn ∨ t = s.create p e.who) := by
  rw [procFork, duplicateProcessState]
  rcases procInit_run m s with ⟨t, hinit, ht⟩ | hinit
  · refine ⟨none, t, ?_, ht.imp_right .inl⟩
    rw [bind_of_ok (a := none) (by rw [bind_of_ok hinit]; rfl)]
    rfl
  · cases hspace : m.space with
    | false =>
      refine ⟨none, s.burn, ?_, .inr (.inl rfl)⟩
      rw [bind_of_ok (a := none) (by
        rw [bind_of_ok hinit]
        exact bind_of_ok (procFree_run newStruct_slot))]
      rfl
    | true =>
      rw [bind_of_ok (a := some s.slot) (by rw [bind_of_ok hinit]; rfl)]
      have hparent := setParent_run (p := p) (newStruct_slot (s := s))
      cases hthread : m.thread with
      | true =>
        refine ⟨some s.slot, s.create p e.who, ?_, .inr (.inr rfl)⟩
        show (setParent s.slot p >>= _) _ = _
        rw [bind_of_ok hparent]
        have hcaller : ∀ o, (s.newStruct.setProc s.slot o).proc p = some e := fun o =>
          (update_of_ne (ne_slot hslot hp) ..).trans (newStruct_caller hslot hp)
        show (publish s.slot p >>= _) _ = _
        rw [bind_of_ok (publish_run (hcaller _) (update_self ..))]
        rfl
      | false =>
        refine ⟨none, s.burn, ?_, .inr (.inl rfl)⟩
        show (setParent s.slot p >>= _) _ = _
        rw [bind_of_ok hparent]
        show (procFree s.slot >>= _) _ = _
        rw [bind_of_ok (procFree_run (update_self ..)), freeStruct_setProc]
        rfl

/-- A call of `proc_spawn` makes a process or leaves the table alone. -/
theorem procSpawn_run (m : CreateMem) :
    ∃ r t, procSpawn p m s = .ok (r, t) ∧ (t = s ∨ t = s.burn ∨ t = s.create p e.who) := by
  rw [procSpawn]
  rcases procInit_run m s with ⟨t, hinit, ht⟩ | hinit
  · refine ⟨none, t, ?_, ht.imp_right .inl⟩
    rw [bind_of_ok hinit]
    rfl
  · rw [bind_of_ok hinit]
    cases hm : m.space && m.thread with
    | true =>
      refine ⟨some s.slot, s.create p e.who, ?_, .inr (.inr rfl)⟩
      show (publish s.slot p >>= _) _ = _
      rw [bind_of_ok (publish_run (newStruct_caller hslot hp) newStruct_slot)]
      refine (bind_of_ok (setParent_run
        (e := ⟨s.pidAllocator, none, false, statusAlive, s.births.length⟩) ?_)).trans rfl
      exact newStruct_slot
    | false =>
      refine ⟨none, s.burn, ?_, .inr (.inl rfl)⟩
      exact bind_of_ok (procFree_run newStruct_slot)

end create

theorem procExit_run (hp : s.proc p = some e) (status : Int) :
    procExit p status s = .ok ((), s.mark p e status) := by
  rw [procExit, bind_of_ok (struct_run hp)]
  rfl

theorem update_some {f : ℕ → Option ProcRec} {a : ℕ} {o : Option ProcRec}
    (h : update f a o q = some e) : q = a ∧ o = some e ∨ q ≠ a ∧ f q = some e := by
  by_cases hq : q = a
  · subst hq
    rw [update_self] at h
    exact .inl ⟨rfl, h⟩
  · rw [update_of_ne hq] at h
    exact .inr ⟨hq, h⟩

theorem create_proc (s : Procs) (p i : ℕ) : (s.create p i).proc =
    update s.proc s.slot (some ⟨s.pidAllocator, some p, false, statusAlive, s.births.length⟩) :=
  update_idem ..

theorem exit_who (e : ProcRec) (status : Int) : (e.exit status).who = e.who := by
  unfold ProcRec.exit
  split <;> rfl

theorem exit_parent (e : ProcRec) (status : Int) : (e.exit status).parent = e.parent := by
  unfold ProcRec.exit
  split <;> rfl

theorem mark_proc_some {status : Int} (hp : s.proc p = some e)
    (h : (s.mark p e status).proc q = some e') :
    ∃ e0, s.proc q = some e0 ∧ e'.who = e0.who ∧ e'.parent = e0.parent := by
  rcases update_some h with ⟨rfl, he⟩ | ⟨-, h⟩
  · cases he
    exact ⟨e, hp, exit_who e status, exit_parent e status⟩
  · exact ⟨e', h, rfl, rfl⟩

theorem mark_proc_of_some {e0 : ProcRec} (hp : s.proc p = some e) (status : Int)
    (h : s.proc q = some e0) : ∃ e', (s.mark p e status).proc q = some e' ∧ e'.who = e0.who := by
  by_cases hq : q = p
  · subst hq
    rw [hp] at h
    cases h
    exact ⟨e.exit status, update_self .., exit_who e status⟩
  · exact ⟨e0, (update_of_ne hq ..).trans h, rfl⟩

/-- A child of the process at `p` that has exited, and that the call asks for. -/
structure Due (s : Procs) (p : ℕ) (pid : Int) (q : ℕ) (e : ProcRec) : Prop where
  at_q : s.proc q = some e
  parent : e.parent = some p
  exited : e.hasExited = true
  pid : pid = anyChild ∨ e.pid = pid

theorem reap_run (hp : s.proc p = some e') (hq : s.proc q = some e) :
    reap p q s = .ok (.child e.pid e.exitStatus, (s.unlist q e e'.who).freeStruct q) := by
  rw [reap, bind_of_ok (struct_run hp), bind_of_ok (struct_run hq), Prog.update_bind]
  have hq' : (s.unlist q e e'.who).proc q = some e := hq
  rw [bind_of_ok (procFree_run hq')]
  rfl

/-- A pass finds a child that has exited and takes it off the table, or changes nothing. -/
theorem waitScan_run (hp : s.proc p = some e) (pid : Int) : ∀ (l : List ℕ) (b : Bool),
    (∀ q ∈ l, s.proc q ≠ none) → (∃ q e', Due s p pid q e' ∧ waitScan p pid l b s =
      .ok (.child e'.pid e'.exitStatus, (s.unlist q e' e.who).freeStruct q)) ∨
    ∃ r, waitScan p pid l b s = .ok (r, s) ∧ ∀ n k, r ≠ .child n k
  | [], b, _ => .inr ⟨_, rfl, by cases b <;> simp⟩
  | q :: rest, b, hl => by
    obtain ⟨e', hq⟩ := Option.ne_none_iff_exists'.mp (hl q List.mem_cons_self)
    have ih := fun b => waitScan_run hp pid rest b fun q' h => hl q' (List.mem_cons_of_mem q h)
    rw [waitScan, bind_of_ok (struct_run hq)]
    split
    · rename_i hchild
      split
      · rename_i hexited
        exact .inl ⟨q, e', ⟨hq, hchild.1, hexited, hchild.2⟩, reap_run hp hq⟩
      · exact ih true
    · exact ih b

/-! ## What every run keeps -/

/-- The addresses that can be used are not those of structures. -/
structure Stocked (s : Procs) : Prop where
  used : ∀ q, s.proc q ≠ none → q < s.fresh ∧ q ∉ s.freed
  nodup : s.freed.Nodup
  lt : ∀ q ∈ s.freed, q < s.fresh

namespace Stocked

variable (S : s.Stocked)

include S

theorem slot_free : s.proc s.slot = none := by
  by_contra hne
  obtain ⟨hlt, hmem⟩ := S.used _ hne
  cases hf : s.freed with
  | nil => rw [slot, hf] at hlt; exact Nat.lt_irrefl _ hlt
  | cons q rest => rw [slot, hf] at hmem; exact hmem List.mem_cons_self

theorem burn_proc : s.burn.proc = s.proc := by
  show update (update s.proc s.slot _) s.slot none = s.proc
  rw [update_idem, ← S.slot_free, update_eq_self]

theorem newStruct : s.newStruct.Stocked := by
  have hused : ∀ q, s.newStruct.proc q ≠ none → q = s.slot ∨ s.proc q ≠ none := fun q hq => by
    by_cases h : q = s.slot
    · exact .inl h
    · exact .inr (newStruct_of_ne h ▸ hq)
  cases hf : s.freed with
  | nil =>
    have hslot : s.slot = s.fresh := by rw [slot, hf]; rfl
    have hfresh : s.newStruct.fresh = s.fresh + 1 := if_pos hf
    have hfreed : s.newStruct.freed = [] := congrArg List.tail hf
    refine ⟨fun q hq => ?_, by rw [hfreed]; exact List.nodup_nil, by simp [hfreed]⟩
    rw [hfresh, hfreed]
    refine ⟨?_, List.not_mem_nil⟩
    rcases hused q hq with rfl | h
    · rw [hslot]; exact Nat.lt_succ_self _
    · exact Nat.lt_succ_of_lt (S.used q h).1
  | cons a rest =>
    have hslot : s.slot = a := by rw [slot, hf]; rfl
    have hfresh : s.newStruct.fresh = s.fresh := if_neg (by rw [hf]; simp)
    have hfreed : s.newStruct.freed = rest := congrArg List.tail hf
    have hnodup := S.nodup
    rw [hf, List.nodup_cons] at hnodup
    refine ⟨fun q hq => ?_, by rw [hfreed]; exact hnodup.2, fun q hq => ?_⟩
    · rw [hfresh, hfreed]
      rcases hused q hq with rfl | h
      · rw [hslot]
        exact ⟨S.lt a (by simp [hf]), hnodup.1⟩
      · refine ⟨(S.used q h).1, fun hmem => (S.used q h).2 ?_⟩
        rw [hf]
        exact List.mem_cons_of_mem a hmem
    · rw [hfreed] at hq
      rw [hfresh]
      exact S.lt q (by rw [hf]; exact List.mem_cons_of_mem a hq)

theorem setProc (hq : s.proc q ≠ none) (o : Option ProcRec) : (s.setProc q o).Stocked := by
  refine ⟨fun q' hq' => ?_, S.nodup, S.lt⟩
  by_cases h : q' = q
  · rw [h]; exact S.used q hq
  · exact S.used q' (update_of_ne (β := fun _ => Option ProcRec) h _ s.proc ▸ hq')

theorem freeStruct (hq : s.proc q ≠ none) : (s.freeStruct q).Stocked := by
  refine ⟨fun q' hq' => ?_, List.nodup_cons.mpr ⟨(S.used q hq).2, S.nodup⟩, fun q' hq' => ?_⟩
  · have hne : q' ≠ q := by
      rintro rfl
      exact hq' (update_self ..)
    have hold : s.proc q' ≠ none := (update_of_ne (β := fun _ => Option ProcRec) hne none s.proc)
        ▸ hq'
    refine ⟨(S.used q' hold).1, fun hmem => ?_⟩
    rcases List.mem_cons.mp hmem with h | h
    · exact hne h
    · exact (S.used q' hold).2 h
  · rcases List.mem_cons.mp hq' with rfl | h
    · exact (S.used q' hq).1
    · exact S.lt q' h

end Stocked

/-- The table, the structures and the record agree. -/
structure Inv (s : Procs) : Prop where
  stocked : s.Stocked
  listed : ∀ q, q ∈ s.ptable ↔ s.proc q ≠ none
  nodup : s.ptable.Nodup
  /-- A structure is the one of a process that was created. -/
  born : ∀ q e, s.proc q = some e → (s.births[e.who]?).map (·.pid) = some e.pid
  inj : ∀ q q' e e', s.proc q = some e → s.proc q' = some e' → e.who = e'.who → q = q'
  marked : ∀ q e, s.proc q = some e → e.hasExited = true →
    ∃ x ∈ s.exits, x.who = e.who ∧ x.status = e.exitStatus
  /-- A process that was waited for is gone. -/
  waited : ∀ w ∈ s.waits, w.child < s.births.length ∧ ∀ q e, s.proc q = some e → e.who ≠ w.child

theorem boot_proc (h : boot.proc q = some e) : q = 0 ∧ e = ⟨0, none, false, statusAlive, 0⟩ := by
  have h' : (if q = 0 then some (ProcRec.mk 0 none false statusAlive 0) else none) = some e := h
  split at h'
  · exact ⟨‹_›, (Option.some.inj h').symm⟩
  · cases h'

theorem boot_inv : boot.Inv where
  stocked := ⟨fun q hq => by
    obtain ⟨e, h⟩ := Option.ne_none_iff_exists'.mp hq
    rw [(boot_proc h).1]
    exact ⟨Nat.one_pos, List.not_mem_nil⟩, List.nodup_nil, by simp [boot]⟩
  listed q := by
    by_cases h : q = 0 <;> simp [boot, h]
  nodup := List.nodup_singleton 0
  born q e h := by
    obtain ⟨-, rfl⟩ := boot_proc h
    rfl
  inj q q' e e' h h' _ := (boot_proc h).1.trans (boot_proc h').1.symm
  marked q e h hx := by
    obtain ⟨-, rfl⟩ := boot_proc h
    cases hx
  waited := by simp [boot]

namespace Inv

variable (I : s.Inv)

include I

theorem who_lt (h : s.proc q = some e) : e.who < s.births.length := by
  have hb := I.born q e h
  by_contra hge
  rw [List.getElem?_eq_none (Nat.not_lt.mp hge)] at hb
  cases hb

theorem burn : s.burn.Inv := by
  have hproc := I.stocked.burn_proc
  have hslot : s.newStruct.proc s.slot ≠ none := by rw [newStruct_slot]; simp
  refine ⟨I.stocked.newStruct.freeStruct hslot, fun q => ?_, I.nodup, fun q e h => ?_,
    fun q q' e e' h h' => ?_, fun q e h => ?_, fun w hw => ⟨(I.waited w hw).1, fun q e h => ?_⟩⟩
  · rw [hproc]
    exact I.listed q
  · exact I.born q e (hproc ▸ h)
  · exact I.inj q q' e e' (hproc ▸ h) (hproc ▸ h')
  · exact I.marked q e (hproc ▸ h)
  · exact (I.waited w hw).2 q e (hproc ▸ h)

theorem create {i : ℕ} : (s.create p i).Inv := by
  have hfree := I.stocked.slot_free
  have hslot : s.newStruct.proc s.slot ≠ none := by rw [newStruct_slot]; simp
  have hnew : s.slot ∉ s.ptable := fun h => (I.listed _).mp h hfree
  have hbirth : ∀ {j : ℕ}, j < s.births.length →
      (s.births ++ [⟨some i, s.pidAllocator⟩])[j]? = s.births[j]? := fun h =>
      List.getElem?_append_left h
  have S := I.stocked.newStruct.setProc hslot
    (some ⟨s.pidAllocator, some p, false, statusAlive, s.births.length⟩)
  refine ⟨⟨S.used, S.nodup, S.lt⟩, fun q => ?_, ?_, fun q e h => ?_, fun q q' e e' h h' hw =>
    ?_, fun q e h hx => ?_,
    fun w hw => ⟨?_, fun q e h => ?_⟩⟩
  · show q ∈ s.ptable ++ [s.slot] ↔ _
    rw [create_proc, List.mem_append, List.mem_singleton]
    by_cases hq : q = s.slot
    · simp [hq]
    · rw [update_of_ne hq, or_iff_left hq]
      exact I.listed q
  · exact List.nodup_append.mpr ⟨I.nodup, List.nodup_singleton _, fun a ha b hb hab =>
      hnew (List.mem_singleton.mp hb ▸ hab ▸ ha)⟩
  · show ((s.births ++ [⟨some i, s.pidAllocator⟩])[e.who]?).map (·.pid) = _
    rw [create_proc] at h
    rcases update_some h with ⟨-, he⟩ | ⟨-, h⟩
    · cases he
      rw [List.getElem?_append_right le_rfl, Nat.sub_self]
      rfl
    · rw [hbirth (I.who_lt h)]
      exact I.born q e h
  · rw [create_proc] at h h'
    rcases update_some h with ⟨hq, he⟩ | ⟨-, h⟩ <;> rcases update_some h' with ⟨hq', he'⟩ | ⟨-, h'⟩
    · rw [hq, hq']
    · cases he
      exact absurd hw (Nat.ne_of_gt (I.who_lt h'))
    · cases he'
      exact absurd hw (Nat.ne_of_lt (I.who_lt h))
    · exact I.inj q q' e e' h h' hw
  · rw [create_proc] at h
    rcases update_some h with ⟨-, he⟩ | ⟨-, h⟩
    · cases he
      cases hx
    · exact I.marked q e h hx
  · show w.child < (s.births ++ [_]).length
    rw [List.length_append]
    exact Nat.lt_add_right _ (I.waited w hw).1
  · rw [create_proc] at h
    rcases update_some h with ⟨-, he⟩ | ⟨-, h⟩
    · cases he
      exact Nat.ne_of_gt (I.waited w hw).1
    · exact (I.waited w hw).2 q e h

theorem mark (hp : s.proc p = some e) (status : Int) : (s.mark p e status).Inv := by
  have hne : s.proc p ≠ none := by rw [hp]; simp
  have S := I.stocked.setProc hne (some (e.exit status))
  have hold : ∀ {q e'}, (s.mark p e status).proc q = some e' →
      ∃ e0, s.proc q = some e0 ∧ e'.who = e0.who ∧ e'.pid = e0.pid ∧
        (e'.hasExited = true → e0.hasExited = true ∧ e'.exitStatus = e0.exitStatus ∨
          e'.who = e.who ∧ e'.exitStatus = status) := by
    intro q e' h
    rcases update_some h with ⟨rfl, he⟩ | ⟨-, h⟩
    · cases he
      unfold ProcRec.exit
      split
      · exact ⟨e, hp, rfl, rfl, fun hx => .inl ⟨hx, rfl⟩⟩
      · exact ⟨e, hp, rfl, rfl, fun _ => .inr ⟨rfl, rfl⟩⟩
    · exact ⟨e', h, rfl, rfl, fun hx => .inl ⟨hx, rfl⟩⟩
  refine ⟨⟨S.used, S.nodup, S.lt⟩, fun q => ?_, I.nodup, fun q e' h => ?_,
    fun q q' e' e'' h h' hw => ?_, fun q e' h hx => ?_,
    fun w hw => ⟨(I.waited w hw).1, fun q e' h => ?_⟩⟩
  · show q ∈ s.ptable ↔ update s.proc p _ q ≠ none
    rw [I.listed q]
    by_cases hq : q = p
    · rw [hq, update_self]
      exact iff_of_true hne (by simp)
    · rw [update_of_ne hq]
  · obtain ⟨e0, h0, hwho, hpid, -⟩ := hold h
    rw [hwho, hpid]
    exact I.born q e0 h0
  · obtain ⟨e0, h0, hwho, -⟩ := hold h
    obtain ⟨e1, h1, hwho', -⟩ := hold h'
    exact I.inj q q' e0 e1 h0 h1 (by rw [← hwho, ← hwho', hw])
  · obtain ⟨e0, h0, hwho, -, hmark⟩ := hold h
    rcases hmark hx with ⟨hx0, hst⟩ | ⟨hw, hst⟩
    · obtain ⟨x, hx, hxw, hxs⟩ := I.marked q e0 h0 hx0
      exact ⟨x, List.mem_append_left _ hx, by rw [hxw, hwho], by rw [hxs, hst]⟩
    · exact ⟨_, List.mem_append_right _ List.mem_cons_self, hw.symm, hst.symm⟩
  · obtain ⟨e0, h0, hwho, -⟩ := hold h
    rw [hwho]
    exact (I.waited w hw).2 q e0 h0

theorem reap {i : ℕ} (hq : s.proc q = some e) : ((s.unlist q e i).freeStruct q).Inv := by
  have hne : s.proc q ≠ none := by rw [hq]; simp
  have S := I.stocked.freeStruct hne
  have hold : ∀ {q' e'}, ((s.unlist q e i).freeStruct q).proc q' = some e' → q' ≠ q ∧
      s.proc q' = some e' := by
    intro q' e' h
    rcases update_some h with ⟨-, he⟩ | h
    · cases he
    · exact h
  refine ⟨⟨S.used, S.nodup, S.lt⟩, fun q' => ?_, I.nodup.erase q, fun q' e' h =>
    I.born q' e' (hold h).2,
    fun a b e' e'' h h' => I.inj a b e' e'' (hold h).2 (hold h').2, fun q' e' h =>
    I.marked q' e' (hold h).2,
    fun w hw => ?_⟩
  · show q' ∈ s.ptable.erase q ↔ update s.proc q none q' ≠ none
    rw [I.nodup.mem_erase_iff, I.listed q']
    by_cases h : q' = q
    · rw [h, update_self]
      simp
    · rw [update_of_ne h, and_iff_right h]
  · rcases List.mem_append.mp hw with hw | hw
    · exact ⟨(I.waited w hw).1, fun q' e' h => (I.waited w hw).2 q' e' (hold h).2⟩
    · obtain rfl := List.mem_singleton.mp hw
      refine ⟨I.who_lt hq, fun q' e' h hwho => (hold h).1 ?_⟩
      exact I.inj q' q e' e (hold h).2 hq hwho

end Inv

/-! ## Runs -/

/-- What a call of a process that has not exited can do. -/
inductive Did (s : Procs) : ProcCall → Procs → Prop
  | same {c : ProcCall} : Did s c s
  | burn {c : ProcCall} : Did s c s.burn
  | create {c : ProcCall} {e : ProcRec} : c.Creates → s.proc c.caller = some e →
      Did s c (s.create c.caller e.who)
  | mark {p : ℕ} {e : ProcRec} {status : Int} :
    s.proc p = some e → Did s (.exit p status) (s.mark p e status)
  | reap {p q : ℕ} {pid : Int} {e e' : ProcRec} : s.proc p = some e → Due s p pid q e' →
      Did s (.wait p pid) ((s.unlist q e' e.who).freeStruct q)

theorem live_proc (h : s.live p = true) : ∃ e, s.proc p = some e ∧ s.exited e.who = false := by
  rw [live, Option.any_eq_true] at h
  obtain ⟨e, he, hx⟩ := h
  exact ⟨e, he, by simpa using hx⟩

namespace Inv

variable (I : s.Inv)

include I

theorem procWait_run (hp : s.proc p = some e) (pid : Int) :
    (∃ q e', Due s p pid q e' ∧ procWait p pid s =
      .ok (.child e'.pid e'.exitStatus, (s.unlist q e' e.who).freeStruct q)) ∨
    ∃ r, procWait p pid s = .ok (r, s) ∧ ∀ n k, r ≠ .child n k := by
  rw [procWait, Prog.read_bind]
  exact waitScan_run hp pid s.ptable false fun q hq => (I.listed q).mp hq

theorem exec_did (c : ProcCall) (hlive : s.live c.caller = true) :
    ∃ s', c.exec s = .ok s' ∧ Did s c s' := by
  obtain ⟨e, he, -⟩ := live_proc hlive
  have hslot := I.stocked.slot_free
  cases c with
  | fork p m =>
    obtain ⟨r, t, hrun, rfl | rfl | rfl⟩ := procFork_run hslot he m
    · exact ⟨t, congrArg (Except.map Prod.snd) hrun, .same⟩
    · exact ⟨_, congrArg (Except.map Prod.snd) hrun, .burn⟩
    · exact ⟨_, congrArg (Except.map Prod.snd) hrun, .create trivial he⟩
  | spawn p m =>
    obtain ⟨r, t, hrun, rfl | rfl | rfl⟩ := procSpawn_run hslot he m
    · exact ⟨t, congrArg (Except.map Prod.snd) hrun, .same⟩
    · exact ⟨_, congrArg (Except.map Prod.snd) hrun, .burn⟩
    · exact ⟨_, congrArg (Except.map Prod.snd) hrun, .create trivial he⟩
  | exit p status =>
    exact ⟨_, congrArg (Except.map Prod.snd) (procExit_run he status), .mark he⟩
  | wait p pid =>
    rcases I.procWait_run he pid with ⟨q, e', hdue, hrun⟩ | ⟨r, hrun, -⟩
    · exact ⟨_, congrArg (Except.map Prod.snd) hrun, .reap he hdue⟩
    · exact ⟨s, congrArg (Except.map Prod.snd) hrun, .same⟩

theorem did (h : Did s c s') : s'.Inv := by
  cases h with
  | same => exact I
  | burn => exact I.burn
  | create => exact I.create
  | mark hp => exact I.mark hp _
  | reap _ hdue => exact I.reap hdue.at_q

theorem step_did {P : Procs → ProcCall → Prop} (h : Step P s s') : ∃ c, P s c ∧ Did s c s' := by
  obtain ⟨c, hlive, hP, hrun⟩ := h
  obtain ⟨t, ht, hdid⟩ := I.exec_did c hlive
  rw [hrun] at ht
  cases ht
  exact ⟨c, hP, hdid⟩

end Inv

variable {P : Procs → ProcCall → Prop}

theorem Reachable.inv (h : s.Reachable P) : s.Inv :=
  Run.Reachable.invariant (I := Inv) h (fun _ h0 => h0 ▸ boot_inv) fun _ _ _ I hstep => by
    obtain ⟨c, -, hdid⟩ := I.step_did hstep
    exact I.did hdid

theorem Reachable.keeps {J : Procs → Prop} (h : s.Reachable P) (h0 : J boot)
    (hdid : ∀ s c s', s.Inv → J s → P s c → Did s c s' → J s') : J s :=
  Run.Reachable.invariant (I := J) h (fun _ h => h ▸ h0) fun s s' hr hJ hstep => by
    have I := Reachable.inv (P := P) hr
    obtain ⟨c, hP, hd⟩ := I.step_did hstep
    exact hdid s c s' I hJ hP hd

/-! ## Processes that exit after their creators -/

variable {i : ℕ}

theorem creator_create_of_lt {j : ℕ} (h : j < s.births.length) :
    (s.create p i).creator j = s.creator j := by
  show ((s.births ++ [_])[j]?).bind _ = _
  rw [List.getElem?_append_left h]
  rfl

theorem creator_create_self : (s.create p i).creator s.births.length = some i := by
  show ((s.births ++ [_])[s.births.length]?).bind _ = _
  rw [List.getElem?_append_right le_rfl, Nat.sub_self]
  rfl

theorem lt_of_creator {c : ℕ} (h : s.creator i = some c) : i < s.births.length := by
  by_contra hge
  rw [creator, List.getElem?_eq_none (Nat.not_lt.mp hge)] at h
  cases h

theorem exited_mark {status : Int} :
    (s.mark p e status).exited i = true ↔ s.exited i = true ∨ e.who = i := by
  show (s.exits ++ [_]).any _ = true ↔ _
  rw [List.any_append, Bool.or_eq_true]
  exact or_congr Iff.rfl (by simp)

theorem orphaned_iff : s.orphaned i = true ↔ ∃ c, s.creator i = some c ∧ s.exited c = true :=
  Option.any_eq_true ..

namespace Did

variable {c : ProcCall}

theorem creator (h : Did s c s') {j : ℕ} (hi : s.creator i = some j) : s'.creator i = some j := by
  cases h with
  | create => rw [creator_create_of_lt (lt_of_creator hi), hi]
  | _ => exact hi

theorem exited (h : Did s c s') (hi : s.exited i = true) : s'.exited i = true := by
  cases h with
  | mark => exact exited_mark.mpr (.inl hi)
  | _ => exact hi

theorem orphaned (h : Did s c s') (hi : s.orphaned i = true) : s'.orphaned i = true := by
  obtain ⟨j, hj, hx⟩ := orphaned_iff.mp hi
  exact orphaned_iff.mpr ⟨j, h.creator hj, h.exited hx⟩

end Did

theorem Reachable.orphan (h : s.Reachable P) :
    ∀ x ∈ s.exits, x.orphan = true → s.orphaned x.who = true := by
  refine h.keeps (J := fun s => ∀ x ∈ s.exits, x.orphan = true → s.orphaned x.who = true)
    (by simp [boot]) fun s c s' _ ih _ hdid x hx ho => ?_
  have hold : x ∈ s.exits → s'.orphaned x.who = true := fun hx => hdid.orphaned (ih x hx ho)
  cases hdid with
  | mark hp =>
    rcases List.mem_append.mp hx with hx | hx
    · exact hold hx
    · obtain rfl := List.mem_singleton.mp hx
      exact Did.orphaned (.mark hp) ho
  | _ => exact hold hx

/-- The process has exited, and its creator has. -/
def Orphan (s : Procs) (e : ProcRec) : Prop := s.exited e.who = true ∧ s.orphaned e.who = true

/-- No orphan that has exited is left. -/
structure NoOrphans (s : Procs) : Prop where
  table : ∀ q ∈ s.ptable, ∀ e, s.proc q = some e → ¬ s.Orphan e
  memory : ∀ q e, s.proc q = some e → ¬ s.Orphan e

/-- Every process that exited with a live parent has been waited for by that parent. -/
def Waited (s : Procs) : Prop :=
  ∀ x ∈ s.exits, x.orphan = false → ∀ c, s.creator x.who = some c →
    ∃ w ∈ s.waits, w.caller = c ∧ w.child = x.who

theorem exited_iff : s.exited i = true ↔ ∃ x ∈ s.exits, x.who = i := by
  simp [exited]

theorem Waited.exit_orphan (hw : s.Waited) (I : s.Inv) (hq : s.proc q = some e) (ho : s.Orphan e) :
    ∃ x ∈ s.exits, x.who = e.who ∧ x.orphan = true := by
  obtain ⟨x, hx, hxe⟩ := exited_iff.mp ho.1
  obtain ⟨c, hc, -⟩ := orphaned_iff.mp ho.2
  refine ⟨x, hx, hxe, ?_⟩
  by_contra hlive
  obtain ⟨w, hmem, -, hchild⟩ := hw x hx (by simpa using hlive) c (hxe ▸ hc)
  exact (I.waited w hmem).2 q e hq (hchild ▸ hxe).symm

end Procs

/-- A process does not exit after its creator has. -/
def ProcCall.Attended (s : Procs) : ProcCall → Prop
  | .exit p _ => (s.proc p).all (fun e => !s.orphaned e.who) = true
  | _ => True

instance (s : Procs) (c : ProcCall) : Decidable (c.Attended s) :=
  match c with
  | .exit _ _ => inferInstanceAs (Decidable (_ = true))
  | .fork _ _ | .spawn _ _ | .wait _ _ => .isTrue trivial

namespace Procs

/-- In the runs where no process exits after its creator has, a state in which every child that
exited was waited for has no orphan left.  In every run, an exit leaves no orphan if and only if
there was none and the creator of the caller has not exited. -/
theorem orphans_reaped (s : Procs) :
    (s.Reachable (fun s c => c.Attended s) → s.Waited → s.NoOrphans) ∧
    ∀ p e status s', s.Reachable (fun _ _ => True) → s.proc p = some e → s.exited e.who = false →
      procExit p status s = .ok ((), s') → s'.Waited →
      (s'.NoOrphans ↔ s.NoOrphans ∧ s.orphaned e.who = false) := by
  constructor
  · intro h hw
    have hlive : ∀ x ∈ s.exits, x.orphan = false := by
      refine h.keeps (J := fun s => ∀ x ∈ s.exits, x.orphan = false) (by simp [boot])
        fun s c s' _ ih hc hdid => ?_
      cases hdid with
      | mark hp =>
        intro x hx
        rcases List.mem_append.mp hx with hx | hx
        · exact ih x hx
        · obtain rfl := List.mem_singleton.mp hx
          have : (s.proc _).all (fun e => !s.orphaned e.who) = true := hc
          rw [hp] at this
          simpa using this
      | _ => exact ih
    have hmem : ∀ q e, s.proc q = some e → ¬ s.Orphan e := fun q e hq ho => by
      obtain ⟨x, hx, -, hxo⟩ := hw.exit_orphan h.inv hq ho
      rw [hlive x hx] at hxo
      cases hxo
    exact ⟨fun q _ => hmem q, hmem⟩
  · intro p e status s' h hp hx hrun hw
    rw [procExit_run hp status] at hrun
    cases hrun
    have hdid : Did s (.exit p status) (s.mark p e status) := .mark hp
    constructor
    · intro hno
      have hmem : ∀ q e0, s.proc q = some e0 → ¬ s.Orphan e0 := fun q e0 hq ho => by
        obtain ⟨e', he', hwho⟩ := mark_proc_of_some hp status hq
        exact hno.memory q e' he' ⟨hwho ▸ hdid.exited ho.1, hwho ▸ hdid.orphaned ho.2⟩
      refine ⟨⟨fun q _ => hmem q, hmem⟩, ?_⟩
      by_contra ho
      obtain ⟨e', he', hwho⟩ := mark_proc_of_some hp status hp
      exact hno.memory p e' he' ⟨exited_mark.mpr (.inr hwho.symm),
        hwho ▸ hdid.orphaned (by simpa using ho)⟩
    · rintro ⟨hno, hlive⟩
      have hmem : ∀ q e', (s.mark p e status).proc q = some e' → ¬ (s.mark p e status).Orphan e' :=
        fun q e' hq ho => by
          obtain ⟨x, hx, hxe, hxo⟩ := hw.exit_orphan (h.inv.did hdid) hq ho
          rcases List.mem_append.mp hx with hx | hx
          · obtain ⟨e0, h0, hwho, -⟩ := mark_proc_some hp hq
            rw [hwho] at hxe
            exact hno.memory q e0 h0 ⟨exited_iff.mpr ⟨x, hx, hxe⟩, hxe ▸ h.orphan x hx hxo⟩
          · obtain rfl := List.mem_singleton.mp hx
            rw [hlive] at hxo
            cases hxo
      exact ⟨fun q _ => hmem q, hmem⟩

theorem Reachable.calls {P : Procs → ProcCall → Prop} [∀ s c, Decidable (P s c)] {Q : Procs → Prop}
    [DecidablePred Q] (cs : List ProcCall)
    (h : (Run.perform (fun s (c : ProcCall) => s.live c.caller = true ∧ P s c)
    ProcCall.exec boot cs).any (Q ·) =
      true) : ∃ s, s.Reachable P ∧ Q s :=
  Run.Reachable.performed (fun _ c _ hc hrun => ⟨c, hc.1, hc.2, hrun⟩) cs (.first rfl) h

instance (s : Procs) : Decidable s.Waited :=
  decidable_of_iff (∀ x ∈ s.exits, x.orphan = false → ∀ c ∈ s.creator x.who,
    ∃ w ∈ s.waits, w.caller = c ∧ w.child = x.who) (by simp only [Waited, Option.mem_def])

instance (s : Procs) (e : ProcRec) : Decidable (s.Orphan e) := inferInstanceAs (Decidable (_ ∧ _))

/-- All that a call needs is there. -/
def allMem : CreateMem := ⟨true, true, true, true⟩

/-- A child that exits before its creator, and is waited for, is gone. -/
theorem child_reaped : ∃ s : Procs,
    (s.Reachable (fun s c => c.Attended s) ∧ s.Waited ∧ s.exits ≠ []) ∧
    s.NoOrphans := by
  obtain ⟨s, hs, hw, hx⟩ := Reachable.calls (P := fun s c => c.Attended s)
    (Q := fun s => s.Waited ∧ s.exits ≠ []) [.fork 0 allMem, .exit 1 7, .wait 0 anyChild]
    (by decide +kernel)
  exact ⟨s, ⟨hs, hw, hx⟩, (orphans_reaped s).1 hs hw⟩

/-- A process whose creator was waited for exits, and stays on the table. -/
theorem orphan_stays : ∃ s : Procs, s.Reachable (fun _ _ => True) ∧ s.Waited ∧ ¬ s.NoOrphans := by
  obtain ⟨s, hs, hw, q, hq, hno⟩ := Reachable.calls (P := fun _ _ => True)
    (Q := fun s => s.Waited ∧ ∃ q ∈ s.ptable, ∃ e ∈ s.proc q, s.Orphan e)
    [.fork 0 allMem, .fork 1 allMem, .exit 1 0, .wait 0 anyChild, .exit 2 0] (by decide +kernel)
  obtain ⟨e, he, ho⟩ := hno
  exact ⟨s, hs, hw, fun h => h.table q hq e he ho⟩

/-! ## Waiting for the children of others -/

/-- The structure at the address of the parent, if there is one, is the one of the creator. -/
def Faithful (s : Procs) : Prop :=
  ∀ q e p e', s.proc q = some e → e.parent = some p → s.proc p = some e' →
    s.creator e.who = some e'.who

end Procs

/-- The address for a new process is not the parent of a process on the table. -/
def ProcCall.Unclaimed (s : Procs) : ProcCall → Prop
  | .fork _ _ | .spawn _ _ => ∀ q ∈ s.ptable, ∀ e ∈ s.proc q, e.parent ≠ some s.slot
  | _ => True

instance (s : Procs) (c : ProcCall) : Decidable (c.Unclaimed s) :=
  match c with
  | .fork _ _ | .spawn _ _ =>
    inferInstanceAs (Decidable (∀ q ∈ s.ptable, ∀ e ∈ s.proc q, e.parent ≠ some s.slot))
  | .exit _ _ | .wait _ _ => .isTrue trivial

namespace Procs

theorem unclaimed_slot (I : s.Inv) (hc : c.Creates) (h : c.Unclaimed s) (hq : s.proc q = some e) :
    e.parent ≠ some s.slot := by
  have hmem : q ∈ s.ptable := (I.listed q).mpr (by rw [hq]; simp)
  cases c with
  | fork | spawn => exact h q hmem e hq
  | exit | wait => cases hc

theorem Faithful.did (F : s.Faithful) (I : s.Inv) (hc : c.Unclaimed s) (h : Did s c s') :
    s'.Faithful := by
  cases h with
  | same => exact F
  | burn =>
    intro q e p e' hq hpar hp
    rw [I.stocked.burn_proc] at hq hp
    exact F q e p e' hq hpar hp
  | @create _ e0 hcr he0 =>
    intro q e p e' hq hpar hp
    rw [create_proc] at hq hp
    rcases update_some hq with ⟨-, he⟩ | ⟨-, hq⟩
    · cases he
      cases hpar
      rcases update_some hp with ⟨hslot, -⟩ | ⟨-, hp⟩
      · exact absurd hslot (ne_slot I.stocked.slot_free he0)
      · rw [he0] at hp
        cases hp
        exact creator_create_self
    · rcases update_some hp with ⟨hslot, -⟩ | ⟨-, hp⟩
      · exact absurd (hslot ▸ hpar) (unclaimed_slot I hcr hc hq)
      · rw [creator_create_of_lt (I.who_lt hq)]
        exact F q e p e' hq hpar hp
  | mark hp0 =>
    intro q e p e' hq hpar hp
    obtain ⟨e0, h0, hwho, hpar0⟩ := mark_proc_some hp0 hq
    obtain ⟨e1, h1, hwho1, -⟩ := mark_proc_some hp0 hp
    rw [hwho, hwho1]
    exact F q e0 p e1 h0 (hpar0 ▸ hpar) h1
  | reap hp0 hdue =>
    intro q e p e' hq hpar hp
    rcases update_some hq with ⟨-, he⟩ | ⟨-, hq⟩
    · cases he
    · rcases update_some hp with ⟨-, he⟩ | ⟨-, hp⟩
      · cases he
      · exact F q e p e' hq hpar hp

/-- In the runs where no process gets the address that a process on the table has as its parent, a
wait returns the pid and the status of a process that the caller created and that has exited, and
that no wait has returned before. -/
theorem procWait_own_children (s : Procs) (h : s.Reachable (fun s c => c.Unclaimed s)) (p : ℕ)
    (e : ProcRec)
    (hp : s.proc p = some e) (pid n k : Int) (s' : Procs)
    (hrun : procWait p pid s = .ok (.child n k, s')) :
    ∃ i, s.creator i = some e.who ∧ (s.births[i]?).map (·.pid) = some n ∧
      (∃ x ∈ s.exits, x.who = i ∧ x.status = k) ∧ (∀ w ∈ s.waits, w.child ≠ i) ∧
      s'.waits = s.waits ++ [⟨e.who, i, n, k⟩] := by
  have I := h.inv
  have F : s.Faithful := h.keeps (J := Faithful)
    (fun q e p e' hq hpar _ => by
      obtain ⟨-, rfl⟩ := boot_proc hq
      cases hpar)
    fun s c s' I F hc hdid => F.did I hc hdid
  rcases I.procWait_run hp pid with ⟨q, e', hdue, hrun'⟩ | ⟨r, hrun', hr⟩
  · rw [hrun] at hrun'
    cases hrun'
    exact ⟨e'.who, F q e' p e hdue.at_q hdue.parent hp, I.born q e' hdue.at_q,
      I.marked q e' hdue.at_q hdue.exited, fun w hw hchild =>
      (I.waited w hw).2 q e' hdue.at_q hchild.symm, rfl⟩
  · rw [hrun] at hrun'
    cases hrun'
    exact absurd rfl (hr n k)

instance (s : Procs) (p : ℕ) (pid n k : Int) :
    Decidable (∃ s', procWait p pid s = .ok (.child n k, s')) :=
  decidable_of_iff ((procWait p pid).result s = some (.child n k))
    ⟨fun h => ⟨_, Prog.run_of_result h⟩, fun ⟨_, h⟩ => by rw [Prog.result, h]⟩

/-- A process waits for its child. -/
theorem boot_waits : ∃ (s : Procs) (e : ProcRec) (s' : Procs),
    (s.Reachable (fun s c => c.Unclaimed s) ∧
    s.proc 0 = some e ∧ procWait 0 anyChild s = .ok (.child 1 7, s')) ∧
    ∃ i, s.creator i = some e.who ∧ (s.births[i]?).map (·.pid) = some 1 ∧
      (∃ x ∈ s.exits, x.who = i ∧ x.status = 7) ∧ (∀ w ∈ s.waits, w.child ≠ i) ∧
      s'.waits = s.waits ++ [⟨e.who, i, 1, 7⟩] := by
  obtain ⟨s, hs, he, s', hrun⟩ := Reachable.calls (P := fun s c => c.Unclaimed s)
    (Q := fun s => s.proc 0 = some ⟨0, none, false, statusAlive, 0⟩ ∧
      ∃ s', procWait 0 anyChild s = .ok (.child 1 7, s'))
    [.fork 0 allMem, .exit 1 7] (by decide +kernel)
  exact ⟨s, _, s', ⟨hs, he, hrun⟩, procWait_own_children s hs 0 _ he _ _ _ s' hrun⟩

/-- A process that got the address of another waits for a child of that one, which it did not
create. -/
theorem stranger_waits : ∃ (s : Procs) (s' : Procs), s.Reachable (fun _ _ => True) ∧
    s.proc 1 = some ⟨3, some 0, false, statusAlive, 3⟩ ∧
    procWait 1 anyChild s = .ok (.child 2 7, s') ∧
    ∀ i, (s.births[i]?).map (·.pid) = some 2 → s.creator i ≠ some 3 := by
  obtain ⟨s, hs, he, ⟨s', hrun⟩, hb⟩ := Reachable.calls (P := fun _ _ => True)
    (Q := fun s => s.proc 1 = some ⟨3, some 0, false, statusAlive, 3⟩ ∧
      (∃ s', procWait 1 anyChild s = .ok (.child 2 7, s')) ∧
      s.births = [⟨none, 0⟩, ⟨some 0, 1⟩, ⟨some 1, 2⟩, ⟨some 0, 3⟩])
    [.fork 0 allMem, .fork 1 allMem, .exit 1 0, .wait 0 anyChild, .fork 0 allMem, .exit 2 7]
    (by decide +kernel)
  refine ⟨s, s', hs, he, hrun, fun i hi hc => ?_⟩
  rw [creator, hb] at hc
  rw [hb] at hi
  match i with
  | 0 | 1 | 2 | 3 => simp_all
  | i + 4 => simp at hi

end Procs

end Osv
