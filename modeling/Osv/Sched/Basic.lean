import Osv.Base
import Osv.Lib.Run
import Mathlib.Data.Fintype.Basic

/-!
# The scheduler

`sched_ready`, `sched_sched` and `sched` of `kernel/sched.c`, the condition
variables of `kernel/synch.c` and the start and end of a thread, run by any number of
CPUs after `synch_init`.

The ready queue and the states of threads are under `sched_lock`, and the
waiter list of a condition variable is under the spinlock that its callers pass.  A
spinlock turns interrupts off, so a thread that holds one is not preempted.  The
sections under `sched_lock` are steps, with one exception: `sched_sched` for a
thread that goes to sleep gives up the lock of the condition variable in the
middle, and from then on another CPU can take the thread off the waiter list.
It is two steps here, `sleep` and `switch`.

What a CPU does between two steps of the scheduler is its `Act`.  The thread that
is switched to releases `sched_lock`.  If it was switched away from before, it
returns to `sched_sched`, and has to clean up after its predecessor if that one
is a zombie.  A thread that runs for the first time returns to `thread_start`,
which does not look at its predecessor.
-/

namespace Osv

open Function (update)

/-- `threadstate_t`. -/
inductive ThreadState where
  | running
  | ready
  | sleeping
  | zombie
deriving DecidableEq, Repr

/-- Condition variables. -/
abbrev Cv := ℕ
/-- Spinlocks. -/
abbrev Lock := ℕ

/-- What does not change: the idle thread of each CPU, and the spinlock of each condition
variable. -/
structure Machine (κ : Type) where
  idle : κ → Tid
  idle_inj : Function.Injective idle
  guard : Cv → Lock

/-- Where the code of a CPU is. -/
inductive Act where
  /-- In the thread's own code, or in an interrupt handler. -/
  | run
  /-- In `condvar_wait`, on the waiter list, before `sched_sched`. -/
  | queued (cv : Cv)
  /-- In `sched_sched`, before `sched`. -/
  | switching
  /-- In `condvar_signal` or `condvar_broadcast`, before `sched_ready`. -/
  | waking (t : Tid) (loop : Option Cv)
  /-- At the head of the loop of `condvar_broadcast`. -/
  | broadcasting (cv : Cv)
deriving DecidableEq, Repr

/-- The current thread has not given up the CPU. -/
def Act.on : Act → Bool
  | run | waking _ _ | broadcasting _ => true
  | queued _ | switching => false

/-- The state of the scheduler. -/
structure Sched (κ : Type) where
  current : κ → Tid
  act : κ → Act
  state : Tid → ThreadState
  readyQueue : List Tid
  waiters : Cv → List Tid
  /-- The thread that holds a spinlock. -/
  holder : Lock → Option Tid
  /-- The CPU that holds `sched_lock`. -/
  schedLock : Option κ
  /-- The threads given to `sched_ready` by `thread_start_context`. -/
  started : List Tid
  /-- Those that have not run yet. -/
  fresh : List Tid
  /-- Calls of `thread_cleanup` to come: who makes them and for whom, latest first. -/
  duty : List (Tid × Tid)
  /-- The threads given to `thread_cleanup`. -/
  cleaned : List Tid

namespace Sched

variable {κ : Type} [DecidableEq κ]

/-- A CPU goes on to `a`. -/
def setAct (s : Sched κ) (c : κ) (a : Act) : Sched κ := { s with act := update s.act c a }

/-- The body of `sched_ready`. -/
def schedReady (s : Sched κ) (t : Tid) : Sched κ :=
  { s with state := update s.state t .ready, readyQueue := s.readyQueue ++ [t] }

/-- `sched_sched` up to `sched`. -/
def leave (M : Machine κ) (s : Sched κ) (c : κ) (next : ThreadState) (lock : Option Lock) :
    Sched κ :=
  { s with
    readyQueue :=
      if next = .ready ∧ s.current c ≠ M.idle c then s.readyQueue ++ [s.current c] else s.readyQueue
    state := update s.state (s.current c) next
    holder := match lock with
      | none => s.holder
      | some l => update s.holder l none
    schedLock := some c
    act := update s.act c .switching }

/-- `cpu_switch_thread`, and what the next thread does with `sched_lock` and its predecessor. -/
def switchThread (s : Sched κ) (c : κ) (next : Tid) : Sched κ :=
  { s with
    state := update s.state next .running
    current := update s.current c next
    act := update s.act c .run
    schedLock := none
    fresh := s.fresh.erase next
    duty :=
      if s.current c ≠ next ∧ s.state (s.current c) = .zombie ∧ next ∉ s.fresh then
        (next, s.current c) :: s.duty
      else s.duty }

/-- `sched`. -/
def sched (M : Machine κ) (s : Sched κ) (c : κ) : Except Trap (Sched κ) :=
  match s.readyQueue with
  | next :: rest =>
    if s.state next = .ready then .ok (switchThread { s with readyQueue := rest } c next)
    else .error (.kassert "next->state == READY")
  | [] => .ok (s.switchThread c (M.idle c))

/-- Take the first waiter off the list, on the way to `sched_ready`. -/
def wakeFirst (s : Sched κ) (c : κ) (cv : Cv) (loop : Option Cv) : Sched κ :=
  match s.waiters cv with
  | [] => s.setAct c .run
  | t :: rest => { s with waiters := update s.waiters cv rest }.setAct c (.waking t loop)

/-- `thread_cleanup`. -/
def threadCleanup (s : Sched κ) (c : κ) (t : Tid) : Except Trap (Sched κ) :=
  if s.current c ≠ t then
    .ok { s with duty := s.duty.erase (s.current c, t), cleaned := s.cleaned ++ [t] }
  else .error (.kassert "thread_current() != t")

/-- The current thread has no call of `thread_cleanup` to make. -/
def Free (s : Sched κ) (c : κ) : Prop := ∀ d ∈ s.duty, d.1 ≠ s.current c

instance (s : Sched κ) (c : κ) : Decidable (s.Free c) :=
  inferInstanceAs (Decidable (∀ d ∈ s.duty, d.1 ≠ s.current c))

/-- Each CPU runs its idle thread, and no other thread has been started. -/
def Init (M : Machine κ) (s : Sched κ) : Prop :=
  s.current = M.idle ∧ s.act = (fun _ => .run) ∧ s.readyQueue = [] ∧ s.waiters = (fun _ => []) ∧
    s.holder = (fun _ => none) ∧ s.schedLock = none ∧ s.started = [] ∧ s.fresh = [] ∧ s.duty = [] ∧
    s.cleaned = []

end Sched

/-- A step of the code on a CPU. -/
inductive SchedOp (κ : Type) where
  /-- `spinlock_acquire` and `spinlock_release` of the lock of a condition variable. -/
  | acquire (c : κ) (l : Lock)
  | release (c : κ) (l : Lock)
  /-- `sched_ready` at the end of `thread_start_context`. -/
  | start (c : κ) (t : Tid)
  /-- `sched_sched(READY, NULL)`, from the timer. -/
  | yield (c : κ)
  /-- `sched_sched(ZOMBIE, NULL)`, from `thread_exit`. -/
  | exit (c : κ)
  /-- `condvar_wait` up to `sched_sched`. -/
  | wait (c : κ) (cv : Cv)
  /-- `sched_sched(SLEEPING, lock)` up to `sched`. -/
  | sleep (c : κ) (cv : Cv)
  /-- `sched` of a thread that goes to sleep. -/
  | switch (c : κ)
  /-- `condvar_signal` up to `sched_ready`. -/
  | signal (c : κ) (cv : Cv)
  /-- `condvar_broadcast` up to its loop. -/
  | broadcast (c : κ) (cv : Cv)
  /-- An iteration of the loop up to `sched_ready`, or the end of the loop. -/
  | iterate (c : κ) (cv : Cv)
  /-- `sched_ready` of a thread taken off a waiter list. -/
  | ready (c : κ) (t : Tid) (loop : Option Cv)
  /-- The call of `thread_cleanup` at the end of `sched_sched`. -/
  | cleanup (c : κ) (t : Tid)

namespace SchedOp

open Sched

variable {κ : Type} [DecidableEq κ]

/-- When a CPU can make the step.  Idle threads neither wait nor exit, a thread that has to clean up
can only be interrupted before that, and condition variables are used under their locks. -/
def Enabled (M : Machine κ) (s : Sched κ) : SchedOp κ → Prop
  | acquire c l => s.act c = .run ∧ s.holder l = none
  | release c l => s.act c = .run ∧ s.holder l = some (s.current c)
  | start c t => s.act c = .run ∧ s.schedLock = none ∧ t ∉ s.started ∧ ∀ c, t ≠ M.idle c
  | yield c => s.act c = .run ∧ s.schedLock = none
  | exit c => s.act c = .run ∧ s.schedLock = none ∧ s.current c ≠ M.idle c ∧ s.Free c
  | wait c cv => s.act c = .run ∧ s.current c ≠ M.idle c ∧ s.Free c ∧
      s.holder (M.guard cv) = some (s.current c)
  | sleep c cv => s.act c = .queued cv ∧ s.schedLock = none
  | switch c => s.act c = .switching
  | signal c cv | broadcast c cv => s.act c = .run ∧ s.holder (M.guard cv) = some (s.current c)
  | iterate c cv => s.act c = .broadcasting cv
  | ready c t loop => s.act c = .waking t loop ∧ s.schedLock = none
  | cleanup c t => s.act c = .run ∧ s.duty.find? (fun d => d.1 =
    s.current c) = some (s.current c, t)

instance [Fintype κ] (M : Machine κ) (s : Sched κ) : ∀ op : SchedOp κ, Decidable (op.Enabled M s)
  | acquire _ _ | release _ _ | yield _ | sleep _ _ | signal _ _ | broadcast _ _ | ready _ _ _
  | cleanup _ _ => inferInstanceAs (Decidable (_ ∧ _))
  | start _ _ | exit _ | wait _ _ => inferInstanceAs (Decidable (_ ∧ _ ∧ _ ∧ _))
  | switch _ | iterate _ _ => inferInstanceAs (Decidable (_ = _))

/-- What an operation does. -/
def exec (M : Machine κ) (s : Sched κ) : SchedOp κ → Except Trap (Sched κ)
  | acquire c l => .ok { s with holder := update s.holder l (some (s.current c)) }
  | release _ l => .ok { s with holder := update s.holder l none }
  | start _ t => .ok { s.schedReady t with started := t :: s.started, fresh := t :: s.fresh }
  | yield c => (s.leave M c .ready none).sched M c
  | exit c => (s.leave M c .zombie none).sched M c
  | wait c cv =>
    .ok ({ s with waiters := update s.waiters cv (s.waiters cv ++ [s.current c]) }.setAct c
      (.queued cv))
  | sleep c cv => .ok (s.leave M c .sleeping (some (M.guard cv)))
  | switch c => s.sched M c
  | signal c cv => .ok (s.wakeFirst c cv none)
  | broadcast c cv => .ok (s.setAct c (.broadcasting cv))
  | iterate c cv => .ok (s.wakeFirst c cv (some cv))
  | ready c t loop => .ok ((s.schedReady t).setAct c (loop.elim .run .broadcasting))
  | cleanup c t => s.threadCleanup c t

end SchedOp

namespace Sched

variable {κ : Type} [DecidableEq κ]

/-- One step on one CPU. -/
def Step (M : Machine κ) (s s' : Sched κ) : Prop :=
  ∃ op : SchedOp κ, op.Enabled M s ∧ op.exec M s = .ok s'

/-- The states of all runs of the scheduler. -/
def Reachable (M : Machine κ) (s : Sched κ) : Prop := Run.Reachable (Init M) (Step M) s

theorem Reachable.performed [Fintype κ] {M : Machine κ} {P : Sched κ → Prop} [DecidablePred P]
    {s : Sched κ} (h : s.Reachable M) (ops : List (SchedOp κ))
    (hrun : (Run.perform (fun s op => op.Enabled M s) (SchedOp.exec M) s ops).any (P ·) = true) :
    ∃ s', Reachable M s' ∧ P s' :=
  Run.Reachable.performed (fun _ op _ hop hexec => ⟨op, hop, hexec⟩) ops h hrun

end Sched

/-- Two CPUs, and one lock for all condition variables. -/
def twoCpus : Machine Bool where
  idle := fun c => if c then 1 else 0
  idle_inj := by decide
  guard := fun _ => 0

/-- The state in which the two CPUs start to schedule. -/
def twoIdle : Sched Bool where
  current := twoCpus.idle
  act := fun _ => .run
  state := fun _ => .running
  readyQueue := []
  waiters := fun _ => []
  holder := fun _ => none
  schedLock := none
  started := []
  fresh := []
  duty := []
  cleaned := []

theorem twoIdle_reachable : twoIdle.Reachable twoCpus :=
  .first ⟨rfl, rfl, rfl, rfl, rfl, rfl, rfl, rfl, rfl, rfl⟩

end Osv
