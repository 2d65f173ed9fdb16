import Mathlib.Data.List.Basic

/-!
# Waiting on a condition variable

The threads that wait on a condition variable are asleep, in the order they
came, or have been signalled and not been resumed yet.  A signal wakes the first
of those asleep.  Between the signal and the moment the woken thread runs, other
threads may run and take what the signal was for, so a woken thread tests its
condition again and may go back to sleep.

`Covers w n` is the counting invariant of such a variable: if a thread is
asleep, then for each of the `n` units of what the threads wait for there is a
thread on its way.  One signal goes with each new unit (`Covers.signal`), a woken
thread takes a unit or finds none (`Covers.resume`, `Covers.none`), and threads
that come in between only take units (`Covers.mono`).
-/

/-- The threads that wait on a condition variable. -/
structure Waiters (τ : Type) where
  /-- First in, first out. -/
  asleep : List τ
  /-- Signalled and not resumed yet. -/
  woken : List τ

namespace Waiters

variable {τ : Type} {w : Waiters τ} {t : τ} {n m : ℕ}

/-- Nobody waits. -/
def empty : Waiters τ := ⟨[], []⟩

/-- Go to sleep. -/
def sleep (w : Waiters τ) (t : τ) : Waiters τ := { w with asleep := w.asleep ++ [t] }

/-- Wake the first of those asleep, if there is one. -/
def signal (w : Waiters τ) : Waiters τ :=
  match w.asleep with
  | [] => w
  | t :: rest => ⟨rest, w.woken ++ [t]⟩

/-- A woken thread runs. -/
def resume [DecidableEq τ] (w : Waiters τ) (t : τ) : Waiters τ :=
  { w with woken := w.woken.erase t }

/-- If a thread is asleep, there is a woken thread for each of `n` units. -/
def Covers (w : Waiters τ) (n : ℕ) : Prop := w.asleep ≠ [] → n ≤ w.woken.length

theorem signal_nil (h : w.asleep = []) : w.signal = w := by
  rw [signal, h]

theorem signal_cons {rest : List τ} (h : w.asleep = t :: rest) :
    w.signal = ⟨rest, w.woken ++ [t]⟩ := by
  rw [signal, h]

theorem Covers.empty : (empty : Waiters τ).Covers n := fun h => absurd rfl h

theorem Covers.none (w : Waiters τ) : w.Covers 0 := fun _ => Nat.zero_le _

theorem Covers.mono (h : w.Covers n) (hm : m ≤ n) : w.Covers m := fun hw => Nat.le_trans hm (h hw)

theorem Covers.signal (h : w.Covers n) : w.signal.Covers (n + 1) := by
  cases hw : w.asleep with
  | nil =>
    rw [signal_nil hw]
    exact fun h => absurd hw h
  | cons t rest =>
    rw [signal_cons hw]
    intro _
    rw [List.length_append, List.length_singleton]
    have := h (by rw [hw]; exact List.cons_ne_nil t rest)
    omega

/-- A woken thread takes a unit, if there is one. -/
theorem Covers.resume [DecidableEq τ] (h : w.Covers n) (ht : t ∈ w.woken) :
    (w.resume t).Covers (n - 1) := by
  intro hw
  have := h hw
  rw [Waiters.resume, List.length_erase_of_mem ht]
  omega

/-! ## Who waits -/

/-- The thread waits, asleep or woken. -/
def Mem (w : Waiters τ) (t : τ) : Prop := t ∈ w.asleep ∨ t ∈ w.woken

/-- No thread waits twice. -/
def Distinct (w : Waiters τ) : Prop := (w.asleep ++ w.woken).Nodup

theorem Distinct.empty : (empty : Waiters τ).Distinct := List.nodup_nil

theorem mem_empty {u : τ} : ¬ (empty : Waiters τ).Mem u := by
  rintro (h | h) <;> cases h

theorem mem_sleep {u : τ} : (w.sleep t).Mem u ↔ w.Mem u ∨ u = t := by
  simp only [Mem, sleep, List.mem_append, List.mem_singleton]
  tauto

theorem mem_signal {u : τ} : w.signal.Mem u ↔ w.Mem u := by
  cases hw : w.asleep with
  | nil => rw [signal_nil hw]
  | cons t rest =>
    rw [signal_cons hw]
    simp only [Mem, hw, List.mem_append, List.mem_cons, List.not_mem_nil, or_false]
    tauto

theorem Distinct.sleep (h : w.Distinct) (ht : ¬ w.Mem t) : (w.sleep t).Distinct := by
  have hperm : ((w.sleep t).asleep ++ (w.sleep t).woken).Perm (t :: (w.asleep ++ w.woken)) := by
    rw [Waiters.sleep, List.append_assoc]
    exact List.perm_middle
  refine hperm.nodup_iff.mpr (List.nodup_cons.mpr ⟨fun hm => ht ?_, h⟩)
  exact List.mem_append.mp hm

theorem Distinct.signal (h : w.Distinct) : w.signal.Distinct := by
  cases hw : w.asleep with
  | nil => rwa [signal_nil hw]
  | cons t rest =>
    rw [Distinct, hw] at h
    rw [signal_cons hw, Distinct, ← List.append_assoc]
    exact (List.perm_append_singleton t (rest ++ w.woken)).nodup_iff.mpr h

theorem Distinct.resume [DecidableEq τ] (h : w.Distinct) : (w.resume t).Distinct :=
  h.sublist (List.Sublist.append (List.Sublist.refl _) List.erase_sublist)

theorem Distinct.mem_resume [DecidableEq τ] (h : w.Distinct) (ht : t ∈ w.woken) {u : τ} :
    (w.resume t).Mem u ↔ w.Mem u ∧ u ≠ t := by
  obtain ⟨-, hwoken, hdisj⟩ := List.nodup_append.mp h
  simp only [Mem, Waiters.resume, hwoken.mem_erase_iff]
  constructor
  · rintro (hu | ⟨hne, hu⟩)
    · exact ⟨.inl hu, hdisj u hu t ht⟩
    · exact ⟨.inr hu, hne⟩
  · rintro ⟨hu | hu, hne⟩
    · exact .inl hu
    · exact .inr ⟨hne, hu⟩

/-- A thread that waits alone has not been signalled while it is asleep. -/
theorem Distinct.woken_eq_nil (h : w.Distinct) (ht : t ∈ w.asleep) (hall : ∀ u, w.Mem u → u = t) :
    w.woken = [] := by
  refine List.eq_nil_iff_forall_not_mem.mpr fun u hu => ?_
  obtain rfl := hall u (.inr hu)
  exact (List.nodup_append.mp h).2.2 u ht u hu rfl

end Waiters
