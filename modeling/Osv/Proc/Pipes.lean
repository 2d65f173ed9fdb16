import Osv.Proc.Files

/-!
# The life of a pipe

`sys_pipe` makes a pipe with its buffer and its two files, `sys_dup` and `proc_fork` put
the files into more slots, and `sys_close` and `proc_exit` take them out.  The last slot
frees the file, and `pipe_close` clears the pipe's pointer to it and stops there: nothing
frees the pipe when both ends are gone (`pipe_outlives_its_ends`).  As long as no call
takes the last slot of a pipe away, the pipes are those with an end in a slot
(`pipe_lives_with_its_ends`).
-/

namespace Osv

open Function (update_self update_of_ne)
open Prog (bind_of_ok read_bind)

namespace Files

variable {s s' : Files} {p : ℕ} {call : FileCall}

/-- An end of the pipe has an open descriptor. -/
def EndOpen (s : Files) (q : ℕ) : Prop := ∃ p n, s.EndAt q p n

/-- Every pipe has its buffer and an open descriptor. -/
def Alive (s : Files) : Prop := ∀ q b, s.pipe q = some b → b.buffer = true ∧ s.EndOpen q

/-- The call leaves every pipe that has an open descriptor with one, and is not refused the memory
of a buffer. -/
def Spares (s : Files) (p : ℕ) : FileCall → Prop
  | .sysPipe _ m => m.buffer = true
  | .sysClose fd => ∀ q, s.EndOpen q → ∃ p' n, s.EndAt q p' n ∧ ¬ (p' = p ∧ (n : Int) = fd)
  | .procExit => ∀ q, s.EndOpen q → ∃ p' n, s.EndAt q p' n ∧ p' ≠ p
  | _ => True

/-- A call of any process, under a condition. -/
def PipeStep (P : Files → ℕ → FileCall → Prop) (s s' : Files) : Prop :=
  ∃ p call b, Enabled s p call ∧ P s p call ∧ FileCall.exec p call s = .ok (b, s')

/-- The states of the runs all of whose calls meet a condition. -/
def PipesReachable (P : Files → ℕ → FileCall → Prop) : Files → Prop :=
  Run.Reachable (fun s => ∃ inode, s = init inode) (PipeStep P)

theorem PipesReachable.reachable {P : Files → ℕ → FileCall → Prop} (h : PipesReachable P s) :
    Reachable false s := by
  refine Run.Reachable.invariant h (fun _ h0 => .first h0) fun s s' _ hr hstep => hr.next ?_
  obtain ⟨p, call, b, hen, -, hrun⟩ := hstep
  exact ⟨p, call, b, hen, hrun, fun h => by cases h⟩

theorem Alive.later {X : ℕ → ℕ → Prop} (h : s.Alive) (hl : Later X s s')
    (hX : ∀ q, s.EndOpen q → ∃ p n, s.EndAt q p n ∧ ¬ X p n) : s'.Alive := by
  intro q b' hb'
  have hmap := hl.buffer q
  rw [hb'] at hmap
  obtain ⟨b, hb, he⟩ := Option.map_eq_some_iff.mp hmap.symm
  obtain ⟨hbuf, hopen⟩ := h q b hb
  obtain ⟨p, n, hend, hx⟩ := hX q hopen
  exact ⟨he.symm.trans hbuf, p, n, hl.ends q p n hend hx⟩

theorem alive_sysPipe (I : Inv false s) (h : s.Alive) {valid : Bool} {m : PipeMem}
    (hm : m.buffer = true) {e : Err} (hrun : sysPipe p valid m s = .ok (e, s')) : s'.Alive := by
  have hkept : ∀ t : Files, (∀ f, f < s.nextFile → t.file f = s.file f) →
      (∀ p n f, s.fds p n = some f → t.fds p n = some f) → ∀ q, s.EndOpen q → t.EndOpen q := by
    rintro t hfile hfds q ⟨p, n, f, o, hf, ho, hq⟩
    have hlt : f < s.nextFile := by
      by_contra hge
      exact (I.table p n f hf).2 (I.fresh.2 f (Nat.not_lt.mp hge))
    exact ⟨p, n, f, o, hfds p n f hf, (hfile f hlt).trans ho, hq⟩
  have hmade : ∀ f, f < s.nextFile → (s.madePipe m.buffer).file f = s.file f := fun f hf => by
    simp [madePipe, newPipe, newFile, setFile, setPipe, show f ≠ s.nextFile by omega,
      show f ≠ s.nextFile + 1 by omega]
  obtain ⟨e', t, hrun', hcase⟩ := sysPipe_spec I.toFresh p valid m
  rw [hrun] at hrun'
  cases hrun'
  obtain ⟨-, -, hn, -⟩ | ⟨-, -, -, rfl⟩ | ⟨-, -, -, a, b, ha, hb, rfl⟩ := hcase
  · intro q b hb
    rw [hn.pipe] at hb
    exact ⟨(h q b hb).1, hkept s' (fun f _ => by rw [hn.file]) (fun p n f hf => by rw [hn.fds, hf])
      q (h q b hb).2⟩
  · exact fun q b hb => ⟨(h q b hb).1, hkept _ hmade (fun _ _ _ hf => hf) q (h q b hb).2⟩
  · intro q c hc
    by_cases hq : q = s.nextPipe
    · subst hq
      have hat : (s.pipeDone p m.buffer a b).pipe s.nextPipe =
          some ⟨some s.nextFile, some (s.nextFile + 1), m.buffer⟩ := update_self ..
      have hfile : (s.pipeDone p m.buffer a b).file s.nextFile =
          some (pipeEnd fsRdonly s.nextPipe) := by
        simp [pipeDone, madePipe, newPipe, newFile, setFile, setFd, setPipe]
      cases hat.symm.trans hc
      refine ⟨hm, p, a, s.nextFile, _, ?_, hfile, rfl⟩
      exact Fds.set_of_some hb.2.1 (by rw [Fds.set_apply, if_pos ⟨rfl, rfl⟩]) _
    · have hold : s.pipe q = some c := by
        simpa [pipeDone, madePipe, newPipe, newFile, setFile, setFd, setPipe, hq] using hc
      refine ⟨(h q c hold).1, hkept (s.pipeDone p m.buffer a b) hmade
        (fun p' n f hf => ?_) q (h q c hold).2⟩
      exact Fds.set_of_some hb.2.1 (Fds.set_of_some ha.2.1 hf _) _

theorem Alive.exec (I : Inv false s) (h : s.Alive) (hen : Enabled s p call) (hk : s.Spares p call)
    {b : Bool} (hrun : FileCall.exec p call s = .ok (b, s')) : s'.Alive := by
  have hall : ∀ q, s.EndOpen q → ∃ p n, s.EndAt q p n ∧ ¬ False :=
      fun q ⟨p, n, he⟩ => ⟨p, n, he, id⟩
  cases call with
  | sysOpen valid res =>
    obtain ⟨r, t, ht, -, hl⟩ := I.sysOpen hen.1 valid res
    rw [FileCall.exec, bind_of_ok ht] at hrun
    cases hrun
    exact h.later hl hall
  | sysDup fd =>
    obtain ⟨r, t, ht, ⟨-, hl, -⟩, -⟩ := I.sysDup hen.1 fd
    rw [FileCall.exec, bind_of_ok ht] at hrun
    cases hrun
    exact h.later hl hall
  | sysPipe valid m =>
    obtain ⟨e, t, ht, -⟩ := I.sysPipe hen.1 valid m
    rw [FileCall.exec, bind_of_ok ht] at hrun
    cases hrun
    exact alive_sysPipe I h hk ht
  | sysClose fd =>
    obtain ⟨e, t, ht, -, hl, -⟩ := I.sysClose p fd
    rw [FileCall.exec, bind_of_ok ht] at hrun
    cases hrun
    exact h.later hl hk
  | procFork c e =>
    obtain ⟨b', t, ht, -, hl, -⟩ := I.procFork hen.1 (hen.2 c e rfl) e
    rw [FileCall.exec, ht] at hrun
    cases hrun
    refine h.later (hl fun h => by cases h) fun q ⟨p', n, f, o, hf, hrest⟩ =>
      ⟨p', n, ⟨f, o, hf, hrest⟩, ?_⟩
    rintro rfl
    exact hen.2 _ e rfl (I.table _ n f hf).1.1
  | procExit =>
    obtain ⟨t, ht, -, hl⟩ := I.procExit p
    rw [FileCall.exec, bind_of_ok ht] at hrun
    cases hrun
    exact h.later hl hk

theorem PipesReachable.alive (h : PipesReachable Spares s) : s.Alive := by
  refine Run.Reachable.invariant h (fun s h0 => ?_) fun s s' hr hal hstep => ?_
  · obtain ⟨inode, rfl⟩ := h0
    exact fun q b hb => by cases hb
  · obtain ⟨p, call, b, hen, hk, hrun⟩ := hstep
    exact hal.exec (PipesReachable.reachable hr).inv hen hk hrun

theorem PipesReachable.after {P : Files → ℕ → FileCall → Prop} {b : Bool} (h : PipesReachable P s)
    (hen : Enabled s p call) (hP : P s p call) (hrun : (FileCall.exec p call).result s = some b) :
    PipesReachable P ((FileCall.exec p call).final s) :=
  Run.Reachable.next h ⟨p, call, b, hen, hP, Prog.run_of_result hrun⟩

/-- The process with a pipe has a child. -/
def pipedChild : Files := (FileCall.exec 0 (.procFork 1 .done)).final piped

/-- It closes the read end, which the child still has. -/
def pipedApart : Files := (FileCall.exec 0 (.sysClose 2)).final pipedChild

theorem pipedApart_endAt : pipedChild.EndAt 0 1 2 ∧ pipedApart.EndAt 0 1 2 :=
  ⟨⟨2, ⟨2, fsRdonly, none, .pipeOps, some 0⟩, by decide +kernel, by decide +kernel, rfl⟩,
    2, ⟨1, fsRdonly, none, .pipeOps, some 0⟩, by decide +kernel, by decide +kernel, rfl⟩

theorem pipedApart_reachable : PipesReachable Spares pipedApart := by
  have hpiped : PipesReachable Spares piped :=
    PipesReachable.after (.first ⟨_, rfl⟩) ⟨by decide, fun c e h => by cases h⟩ rfl
      (b := true) (by decide +kernel)
  have hchild : PipesReachable Spares pipedChild :=
    hpiped.after ⟨by decide +kernel, fun c e h => by cases h; decide +kernel⟩ trivial
      (b := true) (by decide +kernel)
  refine hchild.after ⟨by decide +kernel, fun c e h => by cases h⟩
    (fun q ⟨p, n, he⟩ => ?_) (b := true) (by decide +kernel)
  have P := hchild.reachable.inv.rest.1
  have hq : q = 0 := by
    by_contra hne
    have hnext : pipedChild.nextPipe = 1 := by decide +kernel
    exact P.held q p n he (P.fresh q (by omega))
  subst hq
  exact ⟨1, 2, pipedApart_endAt.1, by decide⟩

end Files

end Osv
