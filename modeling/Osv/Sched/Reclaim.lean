import Osv.Sched.Places
import Mathlib.Data.List.Perm.Basic

/-!
# Zombies are reclaimed

A thread that exits cannot free its own stack, so its successor does it: `sched`
returns the predecessor if that one is a zombie, and `sched_sched` hands it to
`thread_cleanup`.  A thread that has been switched away from before comes back to
`sched_sched`.  A thread that runs for the first time does not: it returns to
`thread_start`, which releases `sched_lock` and forgets its predecessor.

So zombies are reclaimed in the runs in which no thread exits with a fresh thread at the
head of the ready queue.  In such a run each zombie is given to
`thread_cleanup` once, or one thread has the call to make (`zombies_reclaimed`).
-/

namespace Osv

section Reclaim

variable {κ : Type} [DecidableEq κ] {M : Machine κ} {s s' : Sched κ} {c : κ}

/-- A thread that exits is not followed by a fresh one. -/
def SchedOp.Resumes (s : Sched κ) : SchedOp κ → Prop
  | .exit _ => ∀ next ∈ s.readyQueue.head?, next ∉ s.fresh
  | _ => True

instance (s : Sched κ) : ∀ op : SchedOp κ, Decidable (op.Resumes s)
  | .exit _ => inferInstanceAs (Decidable (∀ next ∈ s.readyQueue.head?, next ∉ s.fresh))
  | .acquire _ _ | .release _ _ | .start _ _ | .yield _ | .wait _ _ | .sleep _
    _ | .switch _ | .signal _ _
  | .broadcast _ _ | .iterate _ _ | .ready _ _ _ | .cleanup _ _ => inferInstanceAs (Decidable True)

namespace Sched

/-- A step that switches from a zombie only to a thread that has run before. -/
def ResumingStep (M : Machine κ) (s s' : Sched κ) : Prop :=
  ∃ op : SchedOp κ, op.Enabled M s ∧ op.Resumes s ∧ op.exec M s = .ok s'

/-- The threads that have been cleaned up, and those that will be. -/
def reclaimed (s : Sched κ) : List Tid := s.cleaned ++ s.duty.map Prod.snd

/-- The zombies are those that have been cleaned up or will be, each once. -/
structure Reclaims (s : Sched κ) : Prop where
  nodup : s.reclaimed.Nodup
  mem_iff : ∀ z, z ∈ s.reclaimed ↔ s.At z .zombie
  fresh : ∀ t ∈ s.fresh, t ∈ s.started

/-- The next thread is the head of the ready queue, or the idle thread if that is empty. -/
theorem sched_cases (h : s.sched M c = .ok s') : ∃ next rest,
    s' = Sched.switchThread { s with readyQueue := rest } c next ∧
      (s.readyQueue = next :: rest ∨ s.readyQueue = [] ∧ rest = [] ∧ next = M.idle c) := by
  rw [Sched.sched] at h
  split at h
  · rename_i next rest hq
    split at h
    · exact ⟨next, rest, (Except.ok.inj h).symm, .inl hq⟩
    · cases h
  · rename_i hq
    refine ⟨M.idle c, [], (Except.ok.inj h).symm.trans ?_, .inr ⟨hq, rfl, rfl⟩⟩
    rw [← hq]

namespace Reclaims

omit [DecidableEq κ] in
theorem frame (R : Reclaims s) (hz : ∀ z, s'.At z .zombie ↔ s.At z .zombie)
    (hduty : s'.duty = s.duty) (hcleaned : s'.cleaned = s.cleaned)
    (hfresh : ∀ t ∈ s'.fresh, t ∈ s'.started) : Reclaims s' := by
  have hr : s'.reclaimed = s.reclaimed := by rw [reclaimed, reclaimed, hduty, hcleaned]
  exact ⟨hr ▸ R.nodup, fun z => hr ▸ (R.mem_iff z).trans (hz z).symm, hfresh⟩

omit [DecidableEq κ] in
theorem zombie_setState {t : Tid} {st : ThreadState} (ht : ¬ s.At t .zombie) (hst : st ≠ .zombie)
    (hstate : s'.state = Function.update s.state t st) (hstarted : s'.started = s.started)
    (z : Tid) : s'.At z .zombie ↔ s.At z .zombie := by
  simp only [At, hstate, hstarted]
  by_cases hz : z = t
  · subst hz
    refine iff_of_false (fun h => hst ?_) ht
    exact (Function.update_self ..).symm.trans h.2
  · rw [Function.update_of_ne hz]

theorem switchThread (R : Reclaims s) {next : Tid} {rest : List Tid} (hnext : ¬ s.At next .zombie)
    (hprev : s.state (s.current c) ≠ .zombie) :
    Reclaims (Sched.switchThread { s with readyQueue := rest } c next) :=
  R.frame (zombie_setState hnext (by simp) rfl rfl) (if_neg fun h => hprev h.2.1) rfl
    fun t ht => R.fresh t (List.mem_of_mem_erase ht)

omit [DecidableEq κ] in
theorem next_not_zombie {f : Tid → Option (Place κ)} (I : Located M s f) {next : Tid}
    {rest : List Tid}
    (hnext : s.readyQueue = next :: rest ∨ s.readyQueue = [] ∧ rest = [] ∧ next = M.idle c) :
    ¬ s.At next .zombie := by
  rcases hnext with hq | ⟨-, -, rfl⟩
  · refine I.elsewhere (p := .ready) ?_ (by simp)
    rw [At, hq]
    exact List.mem_cons_self
  · intro h
    exact I.not_idle _ h.1 c rfl

theorem exit (R : Reclaims s) {f : Tid → Option (Place κ)} (I : Located M s f)
    (hop : (SchedOp.exit c).Enabled M s) (hresumes : (SchedOp.exit c).Resumes s)
    (h : (SchedOp.exit c).exec M s = .ok s') :
    Reclaims s' ∧ s'.duty = (s'.current c, s.current c) :: s.duty := by
  obtain ⟨hact, -, hidle, -⟩ := hop
  have hon : (s.act c).on = true := by rw [hact]; rfl
  have hcpu : s.At (s.current c) (.cpu c) := ⟨rfl, hon⟩
  have hstarted := I.current_started hon hidle
  obtain ⟨next, rest, hs', hnext⟩ := sched_cases h
  replace hnext : s.readyQueue = next :: rest ∨ s.readyQueue = [] ∧ rest = [] ∧
      next = M.idle c := hnext
  have hne : s.current c ≠ next := by
    rcases hnext with hq | ⟨-, -, rfl⟩
    · rintro rfl
      refine I.elsewhere (q := .ready) hcpu (by simp) ?_
      rw [At, hq]
      exact List.mem_cons_self
    · exact hidle
  have hfresh : next ∉ s.fresh := by
    rcases hnext with hq | ⟨-, -, rfl⟩
    · exact hresumes next (by rw [hq]; rfl)
    · exact fun h => I.not_idle _ (R.fresh _ h) c rfl
  have hduty : s'.duty = (next, s.current c) :: s.duty := by
    rw [hs']
    exact if_pos ⟨hne, Function.update_self .., hfresh⟩
  have hzombie : ∀ z, s'.At z .zombie ↔ z = s.current c ∨ s.At z .zombie := by
    intro z
    rw [hs']
    by_cases hz : z = next
    · subst hz
      refine iff_of_false (by simp [At, Sched.switchThread]) ?_
      rintro (h | h)
      · exact hne h.symm
      · exact next_not_zombie I hnext h
    · by_cases hzc : z = s.current c
      · subst hzc
        simp [At, Sched.switchThread, Sched.leave, Function.update_of_ne hz, hstarted]
      · simp [At, Sched.switchThread, Sched.leave, Function.update_of_ne hz, hzc]
  have hperm : s'.reclaimed.Perm (s.current c :: s.reclaimed) := by
    rw [reclaimed, hduty, hs']
    exact List.perm_middle
  subst hs'
  refine ⟨⟨?_, fun z => ?_, fun t ht => R.fresh t (List.mem_of_mem_erase ht)⟩, ?_⟩
  · refine hperm.nodup_iff.mpr (List.nodup_cons.mpr ⟨fun h => ?_, R.nodup⟩)
    exact I.elsewhere (q := .zombie) hcpu (by simp) ((R.mem_iff _).mp h)
  · rw [hperm.mem_iff, List.mem_cons, R.mem_iff, hzombie]
  · rw [hduty]
    simp [Sched.switchThread]

omit [DecidableEq κ] in
theorem threadCleanup (R : Reclaims s) {t : Tid} (hduty : (s.current c, t) ∈ s.duty)
    (h : s.threadCleanup c t = .ok s') : Reclaims s' := by
  rw [Sched.threadCleanup] at h
  split at h
  · cases h
    have hperm : ((s.cleaned ++ [t]) ++ (s.duty.erase (s.current c, t)).map Prod.snd).Perm
        s.reclaimed := by
      rw [List.append_assoc, reclaimed]
      exact ((List.perm_cons_erase hduty).map Prod.snd).symm.append_left s.cleaned
    exact ⟨hperm.nodup_iff.mpr R.nodup, fun z => hperm.mem_iff.trans (R.mem_iff z), R.fresh⟩
  · cases h

theorem step (R : Reclaims s) (hinv : Inv M s) (h : ResumingStep M s s') : Reclaims s' := by
  obtain ⟨op, hop, hresumes, hexec⟩ := h
  obtain ⟨f, I, -, hsleep⟩ := hinv
  cases op with
  | acquire c l | release c l | wait c cv | broadcast c cv =>
    cases hexec
    exact R.frame (fun _ => Iff.rfl) rfl rfl R.fresh
  | signal c cv | iterate c cv =>
    cases hexec
    rw [Sched.wakeFirst]
    split <;> exact R.frame (fun _ => Iff.rfl) rfl rfl R.fresh
  | start c t =>
    obtain ⟨-, -, hnew, -⟩ := hop
    cases hexec
    refine R.frame (fun z => ?_) rfl rfl fun u hu => ?_
    · by_cases hz : z = t
      · subst hz
        exact iff_of_false (by simp [At, schedReady]) fun h => hnew h.1
      · simp [At, schedReady, hz]
    · rcases List.mem_cons.mp hu with rfl | hu
      · exact List.mem_cons_self
      · exact List.mem_cons_of_mem t (R.fresh u hu)
  | yield c =>
    obtain ⟨hact, hlock⟩ := hop
    have hcpu : s.At (s.current c) (.cpu c) := ⟨rfl, by rw [hact]; rfl⟩
    have R' : Reclaims (s.leave M c .ready none) :=
      R.frame (zombie_setState (I.elsewhere hcpu (by simp)) (by simp) rfl rfl) rfl rfl R.fresh
    obtain ⟨next, rest, rfl, hnext⟩ := sched_cases hexec
    refine R'.switchThread (next_not_zombie (I.leave hact hlock (.inl rfl)) hnext) ?_
    simp [Sched.leave]
  | exit c => exact (R.exit I hop hresumes hexec).1
  | sleep c cv =>
    cases hexec
    have hwait : s.At (s.current c) (.waiting cv) := I.queued c cv hop.1
    exact R.frame (zombie_setState (I.elsewhere hwait (by simp)) (by simp) rfl rfl) rfl rfl R.fresh
  | switch c =>
    obtain ⟨next, rest, rfl, hnext⟩ := sched_cases hexec
    exact R.switchThread (next_not_zombie I hnext) (by simp [hsleep c hop])
  | ready c t loop =>
    cases hexec
    have hwaker : s.At t (.waker c) := ⟨loop, hop.1⟩
    exact R.frame (zombie_setState (I.elsewhere hwaker (by simp)) (by simp) rfl rfl) rfl rfl R.fresh
  | cleanup c t => exact R.threadCleanup (List.mem_of_find?_eq_some hop.2) hexec

end Reclaims

/-- The states of the runs in which each exiting thread is followed by one that has run before. -/
def ResumingReachable (M : Machine κ) (s : Sched κ) : Prop :=
  Run.Reachable (Init M) (ResumingStep M) s

theorem ResumingReachable.reachable (h : s.ResumingReachable M) : s.Reachable M := by
  refine Run.Reachable.invariant h (fun s h0 => .first h0) fun s s' _ ih hstep => ?_
  obtain ⟨op, hop, -, hexec⟩ := hstep
  exact ih.next ⟨op, hop, hexec⟩

theorem ResumingReachable.performed [Fintype κ] {P : Sched κ → Prop} [DecidablePred P]
    (h : s.ResumingReachable M) (ops : List (SchedOp κ))
    (hrun : (Run.perform (fun s op => op.Enabled M s ∧ op.Resumes s) (SchedOp.exec M) s ops).any
    (P ·) =
      true) : ∃ s', ResumingReachable M s' ∧ P s' :=
  Run.Reachable.performed (fun _ op _ hop hexec => ⟨op, hop.1, hop.2, hexec⟩) ops h hrun

theorem ResumingReachable.reclaims (h : s.ResumingReachable M) : Reclaims s := by
  refine Run.Reachable.invariant h (fun s h0 => ?_) fun s s' hs R hstep => ?_
  · obtain ⟨-, -, -, -, -, -, hst, hfresh, hduty, hcleaned⟩ := h0
    refine ⟨?_, fun z => ?_, ?_⟩ <;> simp [reclaimed, At, hst, hfresh, hduty, hcleaned]
  · exact R.step (Inv.reachable (ResumingReachable.reachable hs)) hstep

end Sched

end Reclaim

/-- In a run in which no thread exits with a fresh thread at the head of the ready queue, the
zombies are the threads given to `thread_cleanup` and those that a thread has yet to give to it,
each once.  When a thread exits in such a run, the thread that follows on its CPU has the call to
make. -/
theorem zombies_reclaimed {κ : Type} [DecidableEq κ] {M : Machine κ} {s : Sched κ}
    (h : s.ResumingReachable M) : (s.cleaned ++ s.duty.map Prod.snd).Nodup ∧
      (∀ z, z ∈ s.cleaned ++ s.duty.map Prod.snd ↔ z ∈ s.started ∧ s.state z = .zombie) ∧
      ∀ c s', (SchedOp.exit c).Enabled M s → (SchedOp.exit c).Resumes s →
        (SchedOp.exit c).exec M s = .ok s' → s'.duty = (s'.current c, s.current c) :: s.duty := by
  have R := h.reclaims
  obtain ⟨f, I, -⟩ := Sched.Inv.reachable h.reachable
  exact ⟨R.nodup, R.mem_iff, fun c s' hop hresumes hexec => (R.exit I hop hresumes hexec).2⟩

/-- Thread 2 exits, and the idle thread follows. -/
theorem idle_reclaims : ∃ s : Sched Bool, s.state 2 = .zombie ∧ s.duty = [(0, 2)] ∧
    2 ∈ s.cleaned ++ s.duty.map Prod.snd := by
  have h0 : twoIdle.ResumingReachable twoCpus :=
    .first ⟨rfl, rfl, rfl, rfl, rfl, rfl, rfl, rfl, rfl, rfl⟩
  obtain ⟨s, h, hstarted, hstate, hduty⟩ := h0.performed
    (P := fun s => 2 ∈ s.started ∧ s.state 2 = .zombie ∧ s.duty = [(0, 2)])
    [.start false 2, .yield false, .exit false] (by decide +kernel)
  exact ⟨s, hstate, hduty, ((zombies_reclaimed h).2.1 2).mpr ⟨hstarted, hstate⟩⟩

/-- Threads 2 and 3 are started, and thread 2 exits before thread 3 has run. -/
def exitBeforeFresh : List (SchedOp Bool) :=
  [.start false 2, .start false 3, .yield false, .exit false]

/-- Thread 2 is a zombie, its successor has released `sched_lock`, and nobody has a call to make. -/
theorem zombie_forgotten : ∃ s : Sched Bool, s.Reachable twoCpus ∧ 2 ∈ s.started ∧
    s.state 2 = .zombie ∧ (∀ c, s.current c ≠ 2) ∧ s.schedLock = none ∧
    2 ∉ s.cleaned ++ s.duty.map Prod.snd :=
  twoIdle_reachable.performed exitBeforeFresh (by decide +kernel)

end Osv
