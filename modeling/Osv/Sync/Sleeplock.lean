import Osv.Base
import Osv.Lib.Run
import Osv.Lib.Waiters

/-!
# Sleeplocks

`sleeplock_acquire`, `sleeplock_try_acquire` and `sleeplock_release` of
`kernel/synch.c`, run by any number of threads after `synch_init`.  The sections
under the spinlock `lk` are the steps.  A thread that finds the lock held goes to sleep and
gives `lk` up in one step, and runs its loop again when it has been signalled and resumed.

`release` gives the lock to nobody: it clears `holder` and signals one thread, and a
thread that comes first can take the lock.  The signalled thread then finds it held and
sleeps again, and the one that took it signals when it is done.  So what is handed on is
not the lock but the signal: `sleeplock_handoff`.
-/

namespace Osv

/-- A sleeplock with the threads that wait for it. -/
structure Sleeplock where
  holder : Option Tid
  waiters : Waiters Tid
  /-- The threads that have acquired the lock and not released it. -/
  inside : List Tid

namespace Sleeplock

/-- The lock of `sleeplock_init`. -/
def init : Sleeplock := ⟨none, .empty, []⟩

/-- The thread takes the lock. -/
def take (s : Sleeplock) (t : Tid) : Sleeplock :=
  { s with holder := some t, inside := t :: s.inside }

/-- The section of `sleeplock_acquire`. -/
def acquire (s : Sleeplock) (t : Tid) : Sleeplock :=
  match s.holder with
  | some _ => { s with waiters := s.waiters.sleep t }
  | none => s.take t

/-- The section of `sleeplock_try_acquire`, with its return value. -/
def tryAcquire (s : Sleeplock) (t : Tid) : Err × Sleeplock :=
  match s.holder with
  | none => (.ok, s.take t)
  | some _ => (.lockBusy, s)

/-- `sleeplock_release`. -/
def release (s : Sleeplock) (t : Tid) : Except Trap Sleeplock :=
  if s.holder = some t then
    .ok { s with holder := none, waiters := s.waiters.signal, inside := s.inside.erase t }
  else .error (.kassert "lock && lock->holder == thread_current()")

end Sleeplock

/-- A step of a thread. -/
inductive SleeplockOp where
  | acquire (t : Tid)
  | tryAcquire (t : Tid)
  | release (t : Tid)
  /-- A signalled thread goes on in `sleeplock_acquire`. -/
  | resume (t : Tid)

namespace SleeplockOp

/-- A thread that does not wait makes its calls, and it releases only what it has. -/
def Enabled (s : Sleeplock) : SleeplockOp → Prop
  | acquire t | tryAcquire t => ¬ s.waiters.Mem t
  | release t => ¬ s.waiters.Mem t ∧ t ∈ s.inside
  | resume t => t ∈ s.waiters.woken

instance : ∀ (s : Sleeplock) (op : SleeplockOp), Decidable (op.Enabled s)
  | _, acquire _ | _, tryAcquire _ => inferInstanceAs (Decidable (¬ (_ ∨ _)))
  | _, release _ => inferInstanceAs (Decidable (¬ (_ ∨ _) ∧ _ ∈ _))
  | _, resume _ => inferInstanceAs (Decidable (_ ∈ _))

/-- What an operation does. -/
def exec (s : Sleeplock) : SleeplockOp → Except Trap Sleeplock
  | acquire t => .ok (s.acquire t)
  | tryAcquire t => .ok (s.tryAcquire t).2
  | release t => s.release t
  | resume t => .ok (Sleeplock.acquire { s with waiters := s.waiters.resume t } t)

end SleeplockOp

/-- One step of one thread. -/
def SleeplockStep (s s' : Sleeplock) : Prop := ∃ op : SleeplockOp, op.Enabled s ∧ op.exec s = .ok s'

/-- The states of all runs of a sleeplock. -/
def Sleeplock.Reachable (s : Sleeplock) : Prop := Run.Reachable (· = Sleeplock.init) SleeplockStep s

namespace Sleeplock

variable {s s' : Sleeplock} {t : Tid}

theorem Reachable.perform (h : s.Reachable) (ops : List SleeplockOp)
    (hrun : Run.perform (fun s op => op.Enabled s) SleeplockOp.exec s ops = some s') :
    s'.Reachable :=
  Run.Reachable.perform (fun _ op _ hop hexec => ⟨op, hop, hexec⟩) ops h hrun

/-- One thread has the lock if it is held, and a free lock has a thread on its way. -/
structure Inv (s : Sleeplock) : Prop where
  inside : s.inside = s.holder.toList
  waiters : s.waiters.Covers (if s.holder = none then 1 else 0)

namespace Inv

theorem take (I : Inv s) (hfree : s.holder = none) (w : Waiters Tid) :
    Inv (Sleeplock.take { s with waiters := w } t) := by
  refine ⟨?_, .none _⟩
  simp only [Sleeplock.take, I.inside, hfree, Option.toList_none, Option.toList_some]

theorem acquire (I : Inv s) (w : Waiters Tid) :
    Inv (Sleeplock.acquire { s with waiters := w } t) := by
  cases hholder : s.holder with
  | none =>
    simp only [Sleeplock.acquire]
    exact hholder ▸ I.take hholder w
  | some u =>
    simp only [Sleeplock.acquire]
    exact ⟨hholder ▸ I.inside, .none _⟩

theorem tryAcquire (I : Inv s) : Inv (s.tryAcquire t).2 := by
  rw [Sleeplock.tryAcquire]
  split
  · exact I.take (by assumption) s.waiters
  · exact I

theorem release (I : Inv s) (h : s.release t = .ok s') : Inv s' := by
  rw [Sleeplock.release] at h
  split at h
  · rename_i hholder
    cases h
    refine ⟨?_, ?_⟩
    · simp [I.inside, hholder]
    · have h0 := I.waiters
      rw [if_neg (by rw [hholder]; exact Option.some_ne_none t)] at h0
      exact h0.signal
  · cases h

theorem step (I : Inv s) (h : SleeplockStep s s') : Inv s' := by
  obtain ⟨op, -, hrun⟩ := h
  cases op with
  | acquire t =>
    cases hrun
    exact I.acquire s.waiters
  | tryAcquire t =>
    cases hrun
    exact I.tryAcquire
  | release t => exact I.release hrun
  | resume t =>
    cases hrun
    exact I.acquire (s.waiters.resume t)

theorem reachable (h : s.Reachable) : Inv s := by
  refine Run.Reachable.invariant h (fun s h0 => ?_) fun _ _ _ I hstep => I.step hstep
  subst h0
  exact ⟨rfl, .empty⟩

end Inv

end Sleeplock

/-- The threads between an acquire and its release are the holder alone, a release by one of them
does not fail, and while the lock is free with threads asleep, one has been signalled and not been
resumed. -/
theorem sleeplock_handoff {s : Sleeplock} (h : s.Reachable) :
    s.inside = s.holder.toList ∧ (∀ t ∈ s.inside, ∃ s', s.release t = .ok s') ∧
      (s.holder = none → s.waiters.asleep ≠ [] → s.waiters.woken ≠ []) := by
  have I := Sleeplock.Inv.reachable h
  refine ⟨I.inside, fun t ht => ?_, fun hfree hasleep hwoken => ?_⟩
  · have hholder : s.holder = some t := by
      rw [I.inside, Option.mem_toList] at ht
      exact ht
    exact ⟨_, by rw [Sleeplock.release, if_pos hholder]⟩
  · have hcovers := I.waiters
    rw [if_pos hfree] at hcovers
    have hlen := hcovers hasleep
    rw [hwoken] at hlen
    exact absurd hlen (by decide)

/-- Thread 1 has the lock, 2 and 3 wait, and 1 releases it. -/
def released : Sleeplock := ⟨none, ⟨[3], [2]⟩, []⟩

theorem released_reachable : released.Reachable :=
  Sleeplock.Reachable.perform (.first rfl) [.acquire 1, .acquire 2, .acquire 3, .release 1] rfl

/-- Thread 3 is not stranded. -/
theorem released_handoff : released.waiters.asleep = [3] ∧ released.waiters.woken ≠ [] :=
  ⟨rfl, (sleeplock_handoff released_reachable).2.2 rfl (by decide)⟩

end Osv
