import Mathlib.Data.List.Nodup
import Osv.Base
import Osv.Lib.Run

/-!
# The disk

The request queue of `kernel/bdev.c` and the IDE driver of `kernel/drivers/ide.c`.  A thread
in `bdev_make_request` appends its request under the lock of the queue, runs
`ide_request_handler`, and waits until the request is complete.  The status of the
disk has a lock of its own, which the handler and the interrupt handler hold while they
look at the queue, so requests may be appended between any two of their steps.
`IdeAt` says how far the holder of that lock has come.

A request lives on the stack of its submitter, so a submission is known by its `bio`,
and `pc` says where the submitter is.  The state has three histories beside the
queue: the operations submitted, issued to the disk, and completed.  `IdeInv` is the
invariant, with one case for each place the holder of the lock can be at (`Ide.Place`).
-/

namespace Osv

open Function (update update_self update_of_ne)

/-- `bio_op_t`. -/
inductive BioOp where
  | read
  | write
deriving DecidableEq, Repr

/-- A block operation: a number of blocks from a starting block.  `id` tells submissions apart. -/
structure Bio where
  id : ℕ
  op : BioOp
  blk : ℕ
  size : ℕ
deriving DecidableEq, Repr

/-- `bio_status_t`. -/
inductive BioStatus where
  | pending
  | complete
deriving DecidableEq, Repr

/-- What the driver takes the disk for. -/
inductive IdeStatus where
  | idle
  | busy
deriving DecidableEq, Repr

/-- What `ide_issue_cmd` writes to the registers. -/
structure IdeCmd where
  count : ℕ
  sector : ℕ
  cylL : ℕ
  cylH : ℕ
  drive : ℕ
  cmd : ℕ
deriving DecidableEq, Repr

/-- The command of an operation.  A sector is a block. -/
def ideCmd (index : ℕ) (b : Bio) : IdeCmd where
  count := b.size % 2 ^ 8
  sector := b.blk % 2 ^ 8
  cylL := b.blk / 2 ^ 8 % 2 ^ 8
  cylH := b.blk / 2 ^ 16 % 2 ^ 8
  drive := 0xE0 ||| index * 2 ^ 4 ||| b.blk / 2 ^ 24 % 2 ^ 4
  cmd := match b.op with
    | .read => if b.size > 1 then 0xC4 else 0x20
    | .write => if b.size > 1 then 0xC5 else 0x30

/-- Where the submitter of an operation is. -/
inductive Pc where
  /-- It has yet to run `ide_request_handler`. -/
  | enter
  /-- It is in `ide_request_handler`, with the lock. -/
  | handler
  /-- It has yet to test whether the operation is complete. -/
  | test
  /-- It waits on the operation's condition variable. -/
  | asleep
  /-- It has returned from `bdev_make_request`. -/
  | returned
deriving DecidableEq, Repr

/-- Where the holder of the disk's lock is. -/
inductive IdeAt where
  /-- The submitter of `b`, which found the disk idle, has yet to look at the queue. -/
  | front (b : Bio)
  /-- It has yet to issue `h`. -/
  | issue (b h : Bio)
  /-- The interrupt handler has yet to take the first request. -/
  | trapPop
  /-- It has yet to complete it. -/
  | trapComplete (b : Bio)
  /-- It has yet to look for the next one. -/
  | trapFront
  /-- It has yet to issue that one. -/
  | trapIssue (b : Bio)
  /-- There was no next one, and it has yet to say so. -/
  | trapIdle
deriving DecidableEq, Repr

/-- The disk, its driver and the threads that use it. -/
structure Ide where
  index : ℕ
  status : IdeStatus
  queue : List Bio
  bioStatus : Bio → BioStatus
  /-- The holder of the lock. -/
  lock : Option IdeAt
  /-- The submitters: who they are and where. -/
  tid : Bio → Tid
  pc : Bio → Pc
  /-- The command the disk executes. -/
  working : Option Bio
  /-- Interrupts that have been raised and not been taken. -/
  raised : ℕ
  cmds : List IdeCmd
  submitted : List Bio
  issued : List Bio
  completed : List Bio

namespace Ide

/-- The state after `ide_init`. -/
def Init (s : Ide) : Prop :=
  s.status = .idle ∧ s.queue = [] ∧ s.lock = none ∧ s.working = none ∧ s.raised = 0 ∧ s.cmds = [] ∧
    s.submitted = [] ∧ s.issued = [] ∧ s.completed = []

/-- A request gets to `pc`. -/
def setPc (s : Ide) (b : Bio) (pc : Pc) : Ide := { s with pc := update s.pc b pc }

theorem setPc_self (s : Ide) (b : Bio) (pc : Pc) : (s.setPc b pc).pc b = pc :=
  update_self ..

theorem setPc_of_ne (s : Ide) {b c : Bio} (pc : Pc) (h : c ≠ b) : (s.setPc b pc).pc c = s.pc c :=
  update_of_ne h ..

/-- Append a request. -/
def submit (s : Ide) (t : Tid) (b : Bio) : Ide :=
  { s with
    bioStatus := update s.bioStatus b .pending
    queue := s.queue ++ [b]
    tid := update s.tid b t
    pc := update s.pc b .enter
    submitted := s.submitted ++ [b] }

/-- Issue a command to the disk. -/
def issueCmd (s : Ide) (b : Bio) : Except Trap Ide :=
  if 0 < b.size ∧ b.size ≤ 8 then
    .ok { s with
      cmds := s.cmds ++ [ideCmd s.index b]
      working := some b
      status := .busy
      issued := s.issued ++ [b] }
  else .error (.kassert "num_sectors > 0 && num_sectors <= 8")

/-- `kassert(bio->status == BIO_PENDING)`. -/
def whenPending (s : Ide) (b : Bio) (s' : Ide) : Except Trap Ide :=
  if s.bioStatus b = .pending then .ok s' else .error (.kassert "bio->status == BIO_PENDING")

/-- `ide_request_handler` takes the lock.  Unless the disk is idle it lets it go again. -/
def enter (s : Ide) (b : Bio) : Ide :=
  match s.status with
  | .idle => { s.setPc b .handler with lock := some (.front b) }
  | .busy => s.setPc b .test

/-- `ide_trap_handler` takes the lock.  If no command was issued it lets it go again. -/
def trap (s : Ide) : Ide :=
  match s.status with
  | .idle => { s with raised := s.raised - 1 }
  | .busy => { s with raised := s.raised - 1, lock := some .trapPop }

/-- Complete an operation and wake up its submitter. -/
def complete (s : Ide) (b : Bio) : Ide :=
  { s with
    bioStatus := update s.bioStatus b .complete
    pc := if s.pc b = .asleep then update s.pc b .test else s.pc
    completed := s.completed ++ [b] }

/-- The holder of the lock makes its next step. -/
def proceed (s : Ide) : IdeAt → Except Trap Ide
  | .front b =>
    match s.queue.head? with
    | none => .ok { s.setPc b .test with lock := none }
    | some h => s.whenPending h { s with lock := some (.issue b h) }
  | .issue b h => Ide.issueCmd { s.setPc b .test with lock := none } h
  | .trapPop =>
    match s.queue with
    | [] => .error (.kassert "bio")
    | b :: rest => s.whenPending b { s with queue := rest, lock := some (.trapComplete b) }
  | .trapComplete b => .ok { s.complete b with lock := some .trapFront }
  | .trapFront =>
    match s.queue.head? with
    | none => .ok { s with lock := some .trapIdle }
    | some h => s.whenPending h { s with lock := some (.trapIssue h) }
  | .trapIssue b => Ide.issueCmd { s with lock := none } b
  | .trapIdle => .ok { s with status := .idle, lock := none }

/-- The loop of `bdev_make_request`: return, or wait. -/
def test (s : Ide) (b : Bio) : Ide :=
  match s.bioStatus b with
  | .complete => s.setPc b .returned
  | .pending => s.setPc b .asleep

end Ide

/-- A step of a thread or of the disk. -/
inductive IdeOp where
  | submit (t : Tid) (b : Bio)
  | enter (b : Bio)
  | proceed
  | test (b : Bio)
  /-- The disk is done with its command and raises an interrupt. -/
  | done
  /-- An interrupt is taken. -/
  | trap
deriving DecidableEq

namespace IdeOp

/-- A thread submits when it is in no other call, an operation of 1 to 8 blocks as the callers of
`bdev_make_request` make them. -/
def Enabled (s : Ide) : IdeOp → Prop
  | submit t b => b ∉ s.submitted ∧ (0 < b.size ∧ b.size ≤ 8) ∧
      ∀ c ∈ s.submitted, s.tid c = t → s.pc c = .returned
  | enter b => b ∈ s.submitted ∧ s.pc b = .enter ∧ s.lock = none
  | proceed => s.lock ≠ none
  | test b => b ∈ s.submitted ∧ s.pc b = .test
  | done => s.working ≠ none
  | trap => s.lock = none ∧ 0 < s.raised

/-- What an operation does. -/
def exec (s : Ide) : IdeOp → Except Trap Ide
  | submit t b => .ok (s.submit t b)
  | enter b => .ok (s.enter b)
  | proceed => s.lock.elim (.ok s) s.proceed
  | test b => .ok (s.test b)
  | done => .ok { s with working := none, raised := s.raised + 1 }
  | trap => .ok s.trap

end IdeOp

/-- A step of the driver. -/
def IdeStep (s s' : Ide) : Prop := ∃ op : IdeOp, op.Enabled s ∧ op.exec s = .ok s'

/-- The states of all runs. -/
def Ide.Reachable (s : Ide) : Prop := Run.Reachable Ide.Init IdeStep s

/-! ## The invariant -/

namespace Ide

/-- No command is outstanding. -/
def Quiet (s : Ide) : Prop := s.working = none ∧ s.raised = 0

/-- All that has been issued is complete, and the rest is in the queue. -/
def Settled (s : Ide) : Prop :=
  s.submitted = s.completed ++ s.queue ∧ s.issued = s.completed ∧ s.Quiet

/-- The first request has been issued and the others have not. -/
def Active (s : Ide) (b : Bio) : Prop :=
  s.submitted = s.completed ++ s.queue ∧ s.queue.head? = some b ∧ s.issued = s.completed ++ [b]

/-- The submitter of every request in the queue has yet to run the handler. -/
def Promised (s : Ide) : Prop := ∀ b ∈ s.queue, s.pc b = .enter

/-- What holds according to where the holder of the lock is. -/
def Place (s : Ide) : Option IdeAt → Prop
  | none => s.status = .idle ∧ s.Settled ∧ s.Promised ∨
      s.status = .busy ∧ ∃ b, s.Active b ∧
        (s.working = some b ∧ s.raised = 0 ∨ s.working = none ∧ s.raised = 1)
  | some (.front b) => s.status = .idle ∧ s.Settled ∧ b ∈ s.submitted ∧ s.pc b = .handler
  | some (.issue b h) => s.status = .idle ∧ s.Settled ∧ s.queue.head? = some h ∧ b ∈ s.submitted ∧
      s.pc b = .handler
  | some .trapPop => s.status = .busy ∧ (∃ b, s.Active b) ∧ s.Quiet
  | some (.trapComplete b) => s.status = .busy ∧ s.submitted = s.completed ++ b :: s.queue ∧
      s.issued = s.completed ++ [b] ∧ s.Quiet
  | some .trapFront => s.status = .busy ∧ s.Settled
  | some (.trapIssue b) => s.status = .busy ∧ s.Settled ∧ s.queue.head? = some b
  | some .trapIdle => s.status = .busy ∧ s.Settled ∧ s.Promised

end Ide

/-- What holds of the submissions, wherever the holder of the lock is. -/
structure IdeBook (s : Ide) : Prop where
  nodup : s.submitted.Nodup
  fits : ∀ b ∈ s.submitted, 0 < b.size ∧ b.size ≤ 8
  status : ∀ b ∈ s.submitted, s.bioStatus b = .complete ↔ b ∈ s.completed
  cmds : s.cmds = s.issued.map (ideCmd s.index)
  /-- The submitter of a request that is not complete is in `bdev_make_request`. -/
  live : ∀ b ∈ s.submitted, b ∉ s.completed → s.pc b ≠ .returned
  /-- No wakeup is lost. -/
  asleep : ∀ b ∈ s.submitted, s.pc b = .asleep → b ∉ s.completed
/-- What holds in every reachable state. -/
structure IdeInv (s : Ide) : Prop extends IdeBook s where
  place : s.Place s.lock
  /-- The holder of the lock is the only thread in the handler. -/
  handler : ∀ b ∈ s.submitted, s.pc b = .handler →
    s.lock = some (.front b) ∨ ∃ h, s.lock = some (.issue b h)

theorem IdeBook.setPc {s : Ide} (B : IdeBook s) (b : Bio) (pc : Pc)
    (hlive : pc = .returned → b ∈ s.completed) (hasleep : pc = .asleep → b ∉ s.completed) :
    IdeBook (s.setPc b pc) := by
  refine ⟨B.nodup, B.fits, B.status, B.cmds, ?_, ?_⟩
  · intro c hcs hcc
    by_cases hcb : c = b
    · subst hcb
      rw [Ide.setPc_self]
      exact fun h => hcc (hlive h)
    · rw [Ide.setPc_of_ne s pc hcb]
      exact B.live c hcs hcc
  · intro c hcs ha
    by_cases hcb : c = b
    · subst hcb
      rw [Ide.setPc_self] at ha
      exact hasleep ha
    · rw [Ide.setPc_of_ne s pc hcb] at ha
      exact B.asleep c hcs ha

theorem IdeBook.setLock {s : Ide} (B : IdeBook s) (l : Option IdeAt) :
    IdeBook { s with lock := l } :=
  ⟨B.nodup, B.fits, B.status, B.cmds, B.live, B.asleep⟩

variable {a : IdeAt}

namespace IdeInv

variable {s s' : Ide}

theorem outline (I : IdeInv s) :
    s.Settled ∨ (∃ b, s.Active b ∧ (s.Quiet ∨ s.lock = none ∧ s.status = .busy ∧
      (s.working = some b ∧ s.raised = 0 ∨ s.working = none ∧ s.raised = 1))) ∨
    ∃ b, s.submitted = s.completed ++ b :: s.queue ∧ s.issued = s.completed ++ [b] ∧ s.Quiet := by
  have h := I.place
  rcases hl : s.lock with - | a
  · rw [hl] at h
    rcases h with ⟨-, h, -⟩ | ⟨hs, b, hact, hout⟩
    · exact .inl h
    · exact .inr (.inl ⟨b, hact, .inr ⟨rfl, hs, hout⟩⟩)
  · rw [hl] at h
    cases a with
    | front b | issue b c => exact .inl h.2.1
    | trapPop => exact .inr (.inl ⟨_, h.2.1.choose_spec, .inl h.2.2⟩)
    | trapComplete b => exact .inr (.inr ⟨b, h.2⟩)
    | trapFront => exact .inl h.2
    | trapIssue b | trapIdle => exact .inl h.2.1

theorem history (I : IdeInv s) : s.completed <+: s.issued ∧ s.issued <+: s.submitted := by
  have hpopped : ∀ b rest, s.submitted = s.completed ++ b :: rest → s.issued = s.completed ++ [b] →
      s.completed <+: s.issued ∧ s.issued <+: s.submitted := by
    intro b rest hsub hiss
    rw [hiss, hsub]
    exact ⟨List.prefix_append _ _, ⟨rest, by rw [List.append_assoc]; rfl⟩⟩
  rcases I.outline with ⟨hsub, hiss, -⟩ | ⟨b, ⟨hsub, hhead, hiss⟩, -⟩ | ⟨b, hsub, hiss, -⟩
  · rw [hiss, hsub]
    exact ⟨List.prefix_rfl, List.prefix_append _ _⟩
  · obtain ⟨rest, hq⟩ := List.head?_eq_some_iff.mp hhead
    exact hpopped b rest (by rw [hsub, hq]) hiss
  · exact hpopped b _ hsub hiss

variable {b : Bio}

theorem completed_sub (I : IdeInv s) (h : b ∈ s.completed) : b ∈ s.submitted :=
  (I.history.1.trans I.history.2).subset h

theorem queue_sub (I : IdeInv s) (h : b ∈ s.queue) : b ∈ s.submitted ∧ b ∉ s.completed := by
  have hsplit : ∀ mid, s.submitted = s.completed ++ mid → b ∈ mid →
      b ∈ s.submitted ∧ b ∉ s.completed := by
    intro mid hsub hb
    have hn := I.nodup
    rw [hsub] at hn ⊢
    exact ⟨List.mem_append_right _ hb, fun hc => (List.nodup_append.mp hn).2.2 b hc b hb rfl⟩
  rcases I.outline with ⟨hsub, -⟩ | ⟨c, ⟨hsub, -⟩, -⟩ | ⟨c, hsub, -⟩
  · exact hsplit _ hsub h
  · exact hsplit _ hsub h
  · exact hsplit _ hsub (List.mem_cons_of_mem _ h)

theorem queue_pending (I : IdeInv s) (h : b ∈ s.queue) : s.bioStatus b = .pending := by
  obtain ⟨hsub, hc⟩ := I.queue_sub h
  cases hs : s.bioStatus b with
  | pending => rfl
  | complete => exact absurd ((I.status b hsub).mp hs) hc

theorem init (h : s.Init) : IdeInv s := by
  obtain ⟨hstat, hq, hl, hw, hr, hcmds, hsub, hiss, hc⟩ := h
  have hnone : ∀ b, b ∉ s.submitted := fun b => by rw [hsub]; exact List.not_mem_nil
  refine ⟨⟨?_, fun b hb => absurd hb (hnone b), fun b hb => absurd hb (hnone b), ?_,
    fun b hb => absurd hb (hnone b), fun b hb => absurd hb (hnone b)⟩, ?_,
    fun b hb => absurd hb (hnone b)⟩
  · rw [hsub]; exact List.nodup_nil
  · rw [hcmds, hiss]; rfl
  · rw [hl]
    refine .inl ⟨hstat, ⟨?_, ?_, hw, hr⟩, fun b hb => ?_⟩
    · rw [hsub, hc, hq]; rfl
    · rw [hiss, hc]
    · rw [hq] at hb; cases hb

/-! ### Submissions -/

theorem submit (I : IdeInv s) {t : Tid} (hnew : b ∉ s.submitted) (hfits : 0 < b.size ∧ b.size ≤ 8) :
    IdeInv (s.submit t b) := by
  have hne : ∀ {c}, c ∈ s.submitted → c ≠ b := fun hc he => hnew (he ▸ hc)
  have hmem : ∀ {c}, c ∈ s.submitted ++ [b] → c ∈ s.submitted ∨ c = b := fun hc =>
    (List.mem_append.mp hc).imp id List.mem_singleton.mp
  have hpc : ∀ {c}, c ∈ s.submitted → (s.submit t b).pc c = s.pc c :=
    fun hc => update_of_ne (hne hc) _ _
  have hpcb : (s.submit t b).pc b = .enter := update_self ..
  have hc : b ∉ s.completed := fun h => hnew (I.completed_sub h)
  have hsub : ∀ l, s.submitted = s.completed ++ l →
      s.submitted ++ [b] = s.completed ++ (l ++ [b]) :=
    fun l h => by rw [h, List.append_assoc]
  have hsettled : s.Settled → (s.submit t b).Settled := fun h => ⟨hsub _ h.1, h.2⟩
  have hhead : ∀ c, s.queue.head? = some c → (s.queue ++ [b]).head? = some c := by
    intro c h
    obtain ⟨rest, hq⟩ := List.head?_eq_some_iff.mp h
    rw [hq]; rfl
  have hactive : ∀ c, s.Active c → (s.submit t b).Active c := fun c h =>
    ⟨hsub _ h.1, hhead c h.2.1, h.2.2⟩
  have hprom : s.Promised → (s.submit t b).Promised := by
    intro h c hcq
    rcases List.mem_append.mp hcq with hq | hq
    · rw [hpc (I.queue_sub hq).1]
      exact h c hq
    · rw [List.mem_singleton.mp hq]
      exact hpcb
  refine ⟨⟨?_, ?_, ?_, I.cmds, ?_, ?_⟩, ?_, ?_⟩
  · exact List.nodup_append.mpr ⟨I.nodup, List.nodup_singleton b, fun c hcs d hd => by
      rw [List.mem_singleton.mp hd]; exact hne hcs⟩
  · intro c hcs
    rcases hmem hcs with h | rfl
    · exact I.fits c h
    · exact hfits
  · intro c hcs
    rcases hmem hcs with h | rfl
    · show update s.bioStatus b .pending c = .complete ↔ _
      rw [update_of_ne (hne h)]
      exact I.status c h
    · show update s.bioStatus c .pending c = .complete ↔ _
      rw [update_self]
      exact ⟨(fun h => nomatch h), fun h => absurd h hc⟩
  · intro c hcs hcc
    rcases hmem hcs with h | rfl
    · rw [hpc h]; exact I.live c h hcc
    · rw [hpcb]; exact fun h => nomatch h
  · intro c hcs ha
    rcases hmem hcs with h | rfl
    · rw [hpc h] at ha; exact I.asleep c h ha
    · exact hc
  · show (s.submit t b).Place s.lock
    have h := I.place
    rcases hl : s.lock with - | a
    · rw [hl] at h
      rcases h with ⟨h1, h2, h3⟩ | ⟨h1, c, h2, h3⟩
      · exact .inl ⟨h1, hsettled h2, hprom h3⟩
      · exact .inr ⟨h1, c, hactive c h2, h3⟩
    · rw [hl] at h
      cases a with
      | front c =>
        exact ⟨h.1, hsettled h.2.1,
          List.mem_append_left _ h.2.2.1, by rw [hpc h.2.2.1]; exact h.2.2.2⟩
      | issue c d =>
        exact ⟨h.1, hsettled h.2.1, hhead d h.2.2.1, List.mem_append_left _ h.2.2.2.1,
          by rw [hpc h.2.2.2.1]; exact h.2.2.2.2⟩
      | trapPop =>
        obtain ⟨h1, ⟨c, h2⟩, h3⟩ := h
        exact ⟨h1, ⟨c, hactive c h2⟩, h3⟩
      | trapComplete c => exact ⟨h.1, hsub (c :: s.queue) h.2.1, h.2.2⟩
      | trapFront => exact ⟨h.1, hsettled h.2⟩
      | trapIssue c => exact ⟨h.1, hsettled h.2.1, hhead c h.2.2⟩
      | trapIdle => exact ⟨h.1, hsettled h.2.1, hprom h.2.2⟩
  · intro c hcs hh
    rcases hmem hcs with h | rfl
    · rw [hpc h] at hh; exact I.handler c h hh
    · rw [hpcb] at hh; cases hh

/-! ### Moves of a submitter -/

theorem enter (I : IdeInv s) (hb : b ∈ s.submitted) (hl : s.lock = none) : IdeInv (s.enter b) := by
  have hp := I.place
  have hnot : ∀ c ∈ s.submitted, s.pc c ≠ .handler := by
    intro c hc h
    have := I.handler c hc h
    simp [hl] at this
  rw [hl] at hp
  rw [Ide.enter]
  rcases hp with ⟨hs, hset, -⟩ | ⟨hs, c, hact, hout⟩
  · rw [hs]
    refine ⟨(I.toIdeBook.setPc b .handler (by simp) (by simp)).setLock _,
      ⟨hs, hset, hb, Ide.setPc_self ..⟩, fun c hc hh => ?_⟩
    by_cases hcb : c = b
    · exact .inl (by rw [hcb])
    · exact absurd (Ide.setPc_of_ne s _ hcb ▸ hh) (hnot c hc)
  · rw [hs]
    refine ⟨I.toIdeBook.setPc b .test (by simp) (by simp), ?_, fun c hc hh => ?_⟩
    · show (s.setPc b .test).Place s.lock
      rw [hl]
      exact .inr ⟨hs, c, hact, hout⟩
    · by_cases hcb : c = b
      · subst hcb
        exact absurd ((Ide.setPc_self s c .test).symm.trans hh) (fun h => nomatch h)
      · exact absurd (Ide.setPc_of_ne s _ hcb ▸ hh) (hnot c hc)

theorem leave (I : IdeInv s) (hb : s.lock = some (.front b) ∨ ∃ h, s.lock = some (.issue b h))
    {c : Bio} (hc : c ∈ s.submitted) : (s.setPc b .test).pc c ≠ .handler := by
  by_cases hcb : c = b
  · rw [hcb, Ide.setPc_self]
    exact fun h => nomatch h
  · rw [Ide.setPc_of_ne s _ hcb]
    intro hh
    rcases I.handler c hc hh with h | ⟨g, h⟩
    all_goals
      rcases hb with h' | ⟨g', h'⟩ <;> rw [h] at h' <;> cases h'
      exact hcb rfl

theorem issueCmd (B : IdeBook s) (hl : s.lock = none) (hset : s.Settled)
    (hhead : s.queue.head? = some b) (hno : ∀ c ∈ s.submitted, s.pc c ≠ .handler)
    (h : s.issueCmd b = .ok s') : IdeInv s' := by
  rw [Ide.issueCmd] at h
  split at h
  · cases h
    refine ⟨⟨B.nodup, B.fits, B.status, ?_, B.live, B.asleep⟩, ?_,
      fun c hc hh => absurd hh (hno c hc)⟩
    · show s.cmds ++ [_] = (s.issued ++ [b]).map _
      rw [B.cmds, List.map_append]
      rfl
    · show Ide.Place _ s.lock
      rw [hl]
      refine .inr ⟨rfl, b, ⟨hset.1, hhead, ?_⟩, .inl ⟨rfl, hset.2.2.2⟩⟩
      show s.issued ++ [b] = s.completed ++ [b]
      rw [hset.2.1]
  · cases h

theorem whenPending_ok {u : Ide} (h : s.whenPending b u = .ok s') : s' = u := by
  rw [Ide.whenPending] at h
  split at h <;> cases h
  rfl

/-! ### Moves of the holder of the lock -/

section

variable (I : IdeInv s)

include I

theorem moveLock {l : Option IdeAt} (hplace : Ide.Place { s with lock := l } l)
    (hhandler : ∀ b ∈ s.submitted, s.pc b ≠ .handler ∨ l = some (.front b) ∨
      ∃ h, l = some (.issue b h)) : IdeInv { s with lock := l } :=
  ⟨I.toIdeBook.setLock l, hplace, fun b hb hh => (hhandler b hb).resolve_left fun h => h hh⟩

theorem no_handler (hl : s.lock = some a) (ha : ∀ b, a ≠ .front b ∧ ∀ h, a ≠ .issue b h) :
    ∀ b ∈ s.submitted, s.pc b ≠ .handler := by
  intro b hb hh
  rcases I.handler b hb hh with h | ⟨g, h⟩
  · exact (ha b).1 (Option.some.inj (hl.symm.trans h))
  · exact (ha b).2 g (Option.some.inj (hl.symm.trans h))

theorem complete (hl : s.lock = some (.trapComplete b)) :
    IdeInv { s.complete b with lock := some .trapFront } := by
  have hp := I.place
  rw [hl] at hp
  obtain ⟨hs, hsub, hiss, hquiet⟩ := hp
  have hno := I.no_handler hl (by simp)
  have hb : b ∈ s.submitted := by rw [hsub]; simp
  have hmem : ∀ {c}, c ∈ s.completed ++ [b] ↔ c ∈ s.completed ∨ c = b := by
    intro c; rw [List.mem_append, List.mem_singleton]
  have hpc : ∀ c, (s.complete b).pc c = s.pc c ∧ s.pc c ≠ .asleep ∨
      c ≠ b ∧ (s.complete b).pc c = s.pc c ∨ (s.complete b).pc c = .test := by
    intro c
    by_cases ha : s.pc b = .asleep
    · have heq : (s.complete b).pc = update s.pc b .test := if_pos ha
      by_cases hcb : c = b
      · subst hcb
        exact .inr (.inr (by rw [heq, update_self]))
      · exact .inr (.inl ⟨hcb, by rw [heq, update_of_ne hcb]⟩)
    · have heq : (s.complete b).pc = s.pc := if_neg ha
      by_cases hcb : c = b
      · subst hcb
        exact .inl ⟨by rw [heq], ha⟩
      · exact .inr (.inl ⟨hcb, by rw [heq]⟩)
  refine ⟨⟨I.nodup, I.fits, ?_, I.cmds, ?_, ?_⟩, ⟨hs, ?_, hiss, hquiet⟩, ?_⟩
  · intro c hcs
    show update s.bioStatus b .complete c = .complete ↔ c ∈ s.completed ++ [b]
    rw [hmem]
    by_cases hcb : c = b
    · subst hcb
      rw [update_self]
      exact ⟨fun _ => .inr rfl, fun _ => rfl⟩
    · rw [update_of_ne hcb, I.status c hcs]
      exact ⟨.inl, fun h => h.resolve_right hcb⟩
  · intro c hcs hcc
    show (s.complete b).pc c ≠ _
    have hlive := I.live c hcs fun h => hcc (hmem.mpr (.inl h))
    rcases hpc c with ⟨h, -⟩ | ⟨-, h⟩ | h <;> rw [h]
    · exact hlive
    · exact hlive
    · exact fun h => nomatch h
  · intro c hcs ha hcc
    have ha' : (s.complete b).pc c = .asleep := ha
    rcases hpc c with ⟨h, hne⟩ | ⟨hcb, h⟩ | h <;> rw [h] at ha'
    · exact hne ha'
    · exact I.asleep c hcs ha' ((hmem.mp hcc).resolve_right hcb)
    · cases ha'
  · show s.submitted = (s.completed ++ [b]) ++ s.queue
    rw [hsub, List.append_assoc]
    rfl
  · intro c hcs hh
    have hh' : (s.complete b).pc c = .handler := hh
    rcases hpc c with ⟨h, -⟩ | ⟨-, h⟩ | h <;> rw [h] at hh'
    · exact absurd hh' (hno c hcs)
    · exact absurd hh' (hno c hcs)
    · cases hh'

theorem proceed (hl : s.lock = some a) (h : s.proceed a = .ok s') : IdeInv s' := by
  have hp := I.place
  rw [hl] at hp
  cases a with
  | front b =>
    obtain ⟨hs, hset, hb, hpcb⟩ := hp
    rw [Ide.proceed] at h
    split at h
    · rename_i hq
      cases h
      refine ⟨(I.toIdeBook.setPc b .test (by simp) (by simp)).setLock none,
        .inl ⟨hs, hset, fun c hc => ?_⟩, fun c hc hh => absurd hh (I.leave (.inl hl) hc)⟩
      have hc' : c ∈ s.queue := hc
      rw [List.head?_eq_none_iff.mp hq] at hc'
      cases hc'
    · rename_i g hq
      obtain rfl := whenPending_ok h
      refine I.moveLock ⟨hs, hset, hq, hb, hpcb⟩ fun c hc => ?_
      by_cases hcb : c = b
      · exact .inr (.inr ⟨g, by rw [hcb]⟩)
      · refine .inl fun hh => ?_
        rcases I.handler c hc hh with h' | ⟨_, h'⟩ <;> rw [hl] at h' <;> cases h'
        exact hcb rfl
  | issue b g =>
    obtain ⟨hs, hset, hhead, hb, hpcb⟩ := hp
    exact issueCmd ((I.toIdeBook.setPc b .test (by simp) (by simp)).setLock none) rfl hset
      hhead (fun c hc => I.leave (.inr ⟨g, hl⟩) hc) h
  | trapPop =>
    obtain ⟨hs, ⟨b, hsub, hhead, hiss⟩, hquiet⟩ := hp
    obtain ⟨rest, hq⟩ := List.head?_eq_some_iff.mp hhead
    have hno := I.no_handler hl (by simp)
    rw [Ide.proceed, hq] at h
    obtain rfl := whenPending_ok h
    rw [hq] at hsub
    exact ⟨⟨I.nodup, I.fits, I.status, I.cmds, I.live, I.asleep⟩, ⟨hs, hsub, hiss, hquiet⟩,
      fun c hc hh => absurd hh (hno c hc)⟩
  | trapComplete b =>
    cases h
    exact I.complete hl
  | trapFront =>
    obtain ⟨hs, hset⟩ := hp
    have hno := I.no_handler hl (by simp)
    rw [Ide.proceed] at h
    split at h
    · rename_i hq
      cases h
      refine I.moveLock ⟨hs, hset, fun c hc => ?_⟩ fun c hc => .inl (hno c hc)
      have hc' : c ∈ s.queue := hc
      rw [List.head?_eq_none_iff.mp hq] at hc'
      cases hc'
    · rename_i g hq
      obtain rfl := whenPending_ok h
      exact I.moveLock ⟨hs, hset, hq⟩ fun c hc => .inl (hno c hc)
  | trapIssue b =>
    obtain ⟨hs, hset, hhead⟩ := hp
    have hno := I.no_handler hl (by simp)
    exact issueCmd (I.toIdeBook.setLock none) rfl hset hhead hno h
  | trapIdle =>
    obtain ⟨hs, hset, hprom⟩ := hp
    have hno := I.no_handler hl (by simp)
    cases h
    exact ⟨⟨I.nodup, I.fits, I.status, I.cmds, I.live, I.asleep⟩, .inl ⟨rfl, hset, hprom⟩,
      fun c hc hh => absurd hh (hno c hc)⟩

/-! ### The other moves -/

theorem test (hb : b ∈ s.submitted) (hpc : s.pc b = .test) : IdeInv (s.test b) := by
  have hmove : ∀ pc : Pc, pc ≠ .handler → IdeBook (s.setPc b pc) → IdeInv (s.setPc b pc) := by
    intro pc hne B
    have hkeep : ∀ {c : Bio} {q : Pc}, q ≠ .test → s.pc c = q → (s.setPc b pc).pc c = q := by
      intro c q hq hc
      have hcb : c ≠ b := fun h => hq (by rw [← hc, h, hpc])
      rw [Ide.setPc_of_ne s pc hcb, hc]
    have hprom : s.Promised → (s.setPc b pc).Promised :=
      fun h c hc => hkeep (fun h => nomatch h) (h c hc)
    refine ⟨B, ?_, fun c hc hh => ?_⟩
    · show (s.setPc b pc).Place s.lock
      have h := I.place
      rcases hl : s.lock with - | a
      · rw [hl] at h
        exact h.imp (fun h => ⟨h.1, h.2.1, hprom h.2.2⟩) id
      · rw [hl] at h
        cases a with
        | front c => exact ⟨h.1, h.2.1, h.2.2.1, hkeep (fun h => nomatch h) h.2.2.2⟩
        | issue c d =>
          exact ⟨h.1, h.2.1, h.2.2.1, h.2.2.2.1, hkeep (fun h => nomatch h) h.2.2.2.2⟩
        | trapIdle => exact ⟨h.1, h.2.1, hprom h.2.2⟩
        | _ => exact h
    · by_cases hcb : c = b
      · subst hcb
        rw [Ide.setPc_self] at hh
        exact absurd hh hne
      · exact I.handler c hc (Ide.setPc_of_ne s pc hcb ▸ hh)
  rw [Ide.test]
  split
  · rename_i hc
    exact hmove _ (fun h => nomatch h) (I.toIdeBook.setPc b .returned
      (fun _ => (I.status b hb).mp hc) (fun h => nomatch h))
  · rename_i hc
    refine hmove _ (fun h => nomatch h)
      (I.toIdeBook.setPc b .asleep (fun h => nomatch h) fun _ h => ?_)
    rw [(I.status b hb).mpr h] at hc
    cases hc

theorem done (hw : s.working ≠ none) :
    IdeInv { s with working := none, raised := s.raised + 1 } := by
  refine ⟨⟨I.nodup, I.fits, I.status, I.cmds, I.live, I.asleep⟩, ?_, I.handler⟩
  show Ide.Place _ s.lock
  rcases I.outline with h | ⟨b, hact, h | ⟨hl, hs, ⟨-, hr⟩ | ⟨hn, -⟩⟩⟩ | ⟨b, -, -, h⟩
  · exact absurd h.2.2.1 hw
  · exact absurd h.1 hw
  · rw [hl]
    exact .inr ⟨hs, b, hact, .inr ⟨rfl, by rw [hr]⟩⟩
  · exact absurd hn hw
  · exact absurd h.1 hw

theorem trap (hl : s.lock = none) (hr : 0 < s.raised) : IdeInv s.trap := by
  have h := I.place
  have hno : ∀ b ∈ s.submitted, s.pc b ≠ .handler := by
    intro b hb hh
    have := I.handler b hb hh
    simp [hl] at this
  rw [hl] at h
  rcases h with ⟨-, h, -⟩ | ⟨hs, b, hact, hout⟩
  · exact absurd h.2.2.2 (by omega)
  · rcases hout with ⟨-, h0⟩ | ⟨hw, h1⟩
    · omega
    · rw [Ide.trap, hs]
      refine ⟨⟨I.nodup, I.fits, I.status, I.cmds, I.live, I.asleep⟩, ⟨rfl, ⟨b, hact⟩, hw, ?_⟩,
        fun c hc hh => absurd hh (hno c hc)⟩
      show s.raised - 1 = 0
      rw [h1]

/-- Every step keeps the invariant. -/
theorem step (h : IdeStep s s') : IdeInv s' := by
  obtain ⟨op, hop, hrun⟩ := h
  cases op with
  | submit t b =>
    cases hrun
    exact I.submit hop.1 hop.2.1
  | enter b =>
    cases hrun
    exact I.enter hop.1 hop.2.2
  | proceed =>
    obtain ⟨a, ha⟩ := Option.ne_none_iff_exists'.mp hop
    rw [IdeOp.exec, ha] at hrun
    exact I.proceed ha hrun
  | test b =>
    cases hrun
    exact I.test hop.1 hop.2
  | done =>
    cases hrun
    exact I.done hop
  | trap =>
    cases hrun
    exact I.trap hop.1 hop.2

end

theorem reachable (h : s.Reachable) : IdeInv s :=
  Run.Reachable.invariant h (fun _ => init) fun _ _ _ I hstep => I.step hstep

/-! ### Assertions -/

theorem head_mem (h : s.queue.head? = some b) : b ∈ s.queue :=
  List.mem_of_head? h

theorem issueCmd_run (I : IdeInv s) (hb : b ∈ s.submitted) (u : Ide) :
    ∃ s', u.issueCmd b = .ok s' := by
  rw [Ide.issueCmd, if_pos (I.fits b hb)]
  exact ⟨_, rfl⟩

theorem whenPending_run (I : IdeInv s) (hb : b ∈ s.queue) (u : Ide) :
    s.whenPending b u = .ok u := by
  rw [Ide.whenPending, if_pos (I.queue_pending hb)]

theorem proceed_run (I : IdeInv s) (hl : s.lock = some a) : ∃ s', s.proceed a = .ok s' := by
  have hp := I.place
  rw [hl] at hp
  cases a with
  | front b =>
    rw [Ide.proceed]
    split
    · exact ⟨_, rfl⟩
    · rename_i hq
      exact ⟨_, I.whenPending_run (head_mem hq) _⟩
  | issue b h => exact I.issueCmd_run (I.queue_sub (head_mem hp.2.2.1)).1 _
  | trapPop =>
    obtain ⟨-, ⟨b, -, hhead, -⟩, -⟩ := hp
    obtain ⟨rest, hq⟩ := List.head?_eq_some_iff.mp hhead
    rw [Ide.proceed, hq]
    exact ⟨_, I.whenPending_run (head_mem hhead) _⟩
  | trapComplete b => exact ⟨_, rfl⟩
  | trapFront =>
    rw [Ide.proceed]
    split
    · exact ⟨_, rfl⟩
    · rename_i hq
      exact ⟨_, I.whenPending_run (head_mem hq) _⟩
  | trapIssue b => exact I.issueCmd_run (I.queue_sub (head_mem hp.2.2)).1 _
  | trapIdle => exact ⟨_, rfl⟩

theorem exec_run (I : IdeInv s) {op : IdeOp} (hop : op.Enabled s) : ∃ s', op.exec s = .ok s' := by
  cases op with
  | proceed =>
    obtain ⟨a, ha⟩ := Option.ne_none_iff_exists'.mp hop
    rw [IdeOp.exec, ha]
    exact I.proceed_run ha
  | _ => exact ⟨_, rfl⟩

end IdeInv

/-! ## Progress -/

/-- How many steps the submitter of an operation has before it at most, for the measure. -/
def Pc.weight : Pc → ℕ
  | .enter => 6
  | .handler => 3
  | .test => 2
  | .asleep => 1
  | .returned => 0

/-- The same for the holder of the lock. -/
def IdeAt.weight : IdeAt → ℕ
  | .front _ => 2
  | .issue _ _ => 1
  | .trapPop => 9
  | .trapComplete _ => 8
  | .trapFront => 5
  | .trapIssue _ => 4
  | .trapIdle => 4

/-- A submission, by which alone the work grows. -/
def IdeOp.isSubmit : IdeOp → Bool
  | .submit _ _ => true
  | _ => false

/-- The work of the submitters. -/
def Ide.calls (s : Ide) : ℕ := (s.submitted.map fun b => (s.pc b).weight).sum

/-- The work of the disk: what has to be issued, executed and answered. -/
def Ide.device (s : Ide) : ℕ :=
  20 * (s.submitted.length - s.issued.length) + (if s.working = none then 0 else 11) + 10 * s.raised

/-- The work that is left: a number that every step but a submission makes smaller. -/
def Ide.work (s : Ide) : ℕ := s.device + s.lock.elim 0 IdeAt.weight + s.calls

theorem sum_update {α : Type} [DecidableEq α] {l : List α} {f : α → ℕ} {b : α} {n : ℕ}
    (hl : l.Nodup) (hb : b ∈ l) : (l.map (update f b n)).sum + f b = (l.map f).sum + n := by
  induction l with
  | nil => cases hb
  | cons c l ih =>
    obtain ⟨hc, hl⟩ := List.nodup_cons.mp hl
    rw [List.map_cons, List.map_cons, List.sum_cons, List.sum_cons]
    by_cases hcb : c = b
    · subst hcb
      have hrest : l.map (update f c n) = l.map f :=
        List.map_congr_left fun d hd => update_of_ne (fun h : d = c => hc (h ▸ hd)) ..
      rw [update_self, hrest]
      omega
    · have := ih hl ((List.mem_cons.mp hb).resolve_left fun h => hcb h.symm)
      rw [update_of_ne hcb]
      omega

namespace IdeInv

variable {s s' : Ide} {b : Bio}

theorem calls_setPc (I : IdeInv s) (hb : b ∈ s.submitted) (pc : Pc) :
    (s.setPc b pc).calls + (s.pc b).weight = s.calls + pc.weight := by
  have hfun : (fun c => ((s.setPc b pc).pc c).weight) =
      update (fun c => (s.pc c).weight) b pc.weight := by
    funext c
    by_cases hcb : c = b
    · subst hcb
      rw [Ide.setPc_self, update_self]
    · rw [Ide.setPc_of_ne s pc hcb, update_of_ne hcb]
  rw [Ide.calls, hfun]
  exact sum_update (f := fun c => (s.pc c).weight) I.nodup hb

theorem calls_complete (I : IdeInv s) (hb : b ∈ s.submitted) :
    (s.complete b).calls ≤ s.calls + 1 := by
  by_cases ha : s.pc b = .asleep
  · have heq : (s.complete b).calls = (s.setPc b .test).calls := by
      have hpc : (s.complete b).pc = (s.setPc b .test).pc := if_pos ha
      rw [Ide.calls, Ide.calls, hpc]
      rfl
    have := I.calls_setPc hb .test
    rw [ha] at this
    simp only [Pc.weight] at this
    omega
  · have heq : (s.complete b).calls = s.calls := by
      have hpc : (s.complete b).pc = s.pc := if_neg ha
      rw [Ide.calls, Ide.calls, hpc]
      rfl
    omega

theorem issueCmd_device (hlen : s.issued.length < s.submitted.length) (hw : s.working = none)
    (h : s.issueCmd b = .ok s') :
    s'.device + 9 = s.device ∧ s'.lock = s.lock ∧ s'.calls = s.calls := by
  rw [Ide.issueCmd] at h
  split at h
  · cases h
    refine ⟨?_, rfl, rfl⟩
    simp only [Ide.device, List.length_append, List.length_singleton, hw, if_true, reduceCtorEq,
      if_false]
    omega
  · cases h

theorem issued_lt (hset : s.Settled) (hhead : s.queue.head? = some b) :
    s.issued.length < s.submitted.length := by
  have hq := List.length_pos_of_mem (head_mem hhead)
  rw [hset.1, hset.2.1, List.length_append]
  omega

theorem proceed_work (I : IdeInv s) (hl : s.lock = some a) (h : s.proceed a = .ok s') :
    s'.work < s.work := by
  have hp := I.place
  have hwork : s.work = s.device + a.weight + s.calls := by rw [Ide.work, hl]; rfl
  rw [hl] at hp
  rw [hwork]
  cases a with
  | front b =>
    have hcalls := I.calls_setPc hp.2.2.1 .test
    rw [hp.2.2.2] at hcalls
    rw [Ide.proceed] at h
    split at h
    · cases h
      show s.device + 0 + (s.setPc b .test).calls < _
      simp only [Pc.weight, IdeAt.weight] at hcalls ⊢
      omega
    · rw [whenPending_ok h]
      show s.device + 1 + s.calls < s.device + 2 + s.calls
      omega
  | issue b g =>
    have hcalls := I.calls_setPc hp.2.2.2.1 .test
    rw [hp.2.2.2.2] at hcalls
    obtain ⟨hdev, hlock, hc⟩ := issueCmd_device (s := { s.setPc b .test with lock := none })
      (issued_lt hp.2.1 hp.2.2.1) hp.2.1.2.2.1 h
    have hc' : s'.calls = (s.setPc b .test).calls := hc
    have hdev' : s'.device + 9 = s.device := hdev
    rw [Ide.work, hlock, hc']
    simp only [Pc.weight, IdeAt.weight, Option.elim_none] at hcalls ⊢
    omega
  | trapPop =>
    obtain ⟨-, ⟨b, -, hhead, -⟩, -⟩ := hp
    obtain ⟨rest, hq⟩ := List.head?_eq_some_iff.mp hhead
    rw [Ide.proceed, hq] at h
    rw [whenPending_ok h]
    show s.device + 8 + s.calls < s.device + 9 + s.calls
    omega
  | trapComplete b =>
    cases h
    have hcalls := I.calls_complete (b := b) (by rw [hp.2.1]; simp)
    show s.device + 5 + (s.complete b).calls < s.device + 8 + s.calls
    omega
  | trapFront =>
    rw [Ide.proceed] at h
    split at h
    · cases h
      show s.device + 4 + s.calls < s.device + 5 + s.calls
      omega
    · rw [whenPending_ok h]
      show s.device + 4 + s.calls < s.device + 5 + s.calls
      omega
  | trapIssue b =>
    obtain ⟨hdev, hlock, hc⟩ := issueCmd_device (s := { s with lock := none })
      (issued_lt hp.2.1 hp.2.2) hp.2.1.2.2.1 h
    have hc' : s'.calls = s.calls := hc
    have hdev' : s'.device + 9 = s.device := hdev
    rw [Ide.work, hlock, hc']
    simp only [IdeAt.weight, Option.elim_none]
    omega
  | trapIdle =>
    cases h
    show s.device + 0 + s.calls < s.device + 4 + s.calls
    omega

theorem exec_work (I : IdeInv s) {op : IdeOp} (hop : op.Enabled s) (hns : op.isSubmit = false)
    (h : op.exec s = .ok s') : s'.work < s.work := by
  cases op with
  | submit t b => cases hns
  | enter b =>
    cases h
    have hl := hop.2.2
    have hwork : s.work = s.device + 0 + s.calls := by rw [Ide.work, hl]; rfl
    rw [hwork, Ide.enter]
    split
    · have hcalls := I.calls_setPc hop.1 .handler
      rw [hop.2.1] at hcalls
      show s.device + 2 + (s.setPc b .handler).calls < _
      simp only [Pc.weight] at hcalls
      omega
    · have hcalls := I.calls_setPc hop.1 .test
      rw [hop.2.1] at hcalls
      show s.device + s.lock.elim 0 IdeAt.weight + (s.setPc b .test).calls < _
      rw [hl]
      simp only [Pc.weight, Option.elim_none] at hcalls ⊢
      omega
  | proceed =>
    obtain ⟨a, ha⟩ := Option.ne_none_iff_exists'.mp hop
    rw [IdeOp.exec, ha] at h
    exact I.proceed_work ha h
  | test b =>
    cases h
    have hstep : ∀ pc : Pc, pc.weight < 2 → (s.setPc b pc).work < s.work := by
      intro pc hlt
      have hcalls := I.calls_setPc hop.1 pc
      rw [hop.2] at hcalls
      have htest : Pc.test.weight = 2 := rfl
      show s.device + s.lock.elim 0 IdeAt.weight + (s.setPc b pc).calls < s.work
      rw [Ide.work]
      omega
    rw [Ide.test]
    split
    · exact hstep _ (by decide)
    · exact hstep _ (by decide)
  | done =>
    cases h
    have hw : s.working ≠ none := hop
    simp only [Ide.work, Ide.device, if_neg hw, if_true, Ide.calls]
    omega
  | trap =>
    cases h
    obtain ⟨hl, hr⟩ := hop
    have hwork : s.work = s.device + 0 + s.calls := by rw [Ide.work, hl]; rfl
    have hdev : ({ s with raised := s.raised - 1 } : Ide).device + 10 = s.device := by
      simp only [Ide.device]
      omega
    rw [hwork, Ide.trap]
    split
    · show ({ s with raised := s.raised - 1 } : Ide).device + s.lock.elim 0 IdeAt.weight + s.calls <
          _
      have hz : s.lock.elim 0 IdeAt.weight = 0 := by rw [hl]; rfl
      omega
    · show ({ s with raised := s.raised - 1 } : Ide).device + 9 + s.calls < _
      omega

theorem quiescent (I : IdeInv s) (h : ∀ op : IdeOp, op.isSubmit = false → ¬ op.Enabled s) :
    s.completed = s.submitted ∧ s.issued = s.submitted ∧ ∀ b ∈ s.submitted, s.pc b = .returned := by
  have hl : s.lock = none := by
    by_contra hl
    exact h .proceed rfl hl
  have hw : s.working = none := by
    by_contra hw
    exact h .done rfl hw
  have hr : s.raised = 0 := by
    by_contra hr
    exact h .trap rfl ⟨hl, by omega⟩
  have henter : ∀ b ∈ s.submitted, s.pc b ≠ .enter := fun b hb hpc => h (.enter b) rfl ⟨hb, hpc, hl⟩
  have htest : ∀ b ∈ s.submitted, s.pc b ≠ .test := fun b hb hpc => h (.test b) rfl ⟨hb, hpc⟩
  have hp := I.place
  rw [hl] at hp
  rcases hp with ⟨-, ⟨hsub, hiss, -⟩, hprom⟩ | ⟨-, b, -, hout⟩
  · have hq : s.queue = [] := by
      cases hq : s.queue with
      | nil => rfl
      | cons b rest =>
        have hb : b ∈ s.queue := by rw [hq]; exact List.mem_cons_self
        exact absurd (hprom b hb) (henter b (I.queue_sub hb).1)
    have hc : s.submitted = s.completed := by rw [hsub, hq, List.append_nil]
    refine ⟨hc.symm, hiss.trans hc.symm, fun b hb => ?_⟩
    cases hpc : s.pc b with
    | enter => exact absurd hpc (henter b hb)
    | handler =>
      have := I.handler b hb hpc
      simp [hl] at this
    | test => exact absurd hpc (htest b hb)
    | asleep => exact absurd (hc ▸ hb) (I.asleep b hb hpc)
    | returned => rfl
  · rcases hout with ⟨hw', -⟩ | ⟨-, hr'⟩
    · rw [hw] at hw'; cases hw'
    · omega

end IdeInv

/-! ## The protocol -/

/-- What the driver and the disk keep to. -/
structure IdeProtocol (s : Ide) : Prop where
  /-- Every operation is issued at most once and completed at most once, in the order of submission.
  -/
  order : s.submitted.Nodup ∧ s.completed <+: s.issued ∧ s.issued <+: s.submitted
  /-- The commands are those of the operations issued. -/
  cmds : s.cmds = s.issued.map (ideCmd s.index)
  /-- At most one command is outstanding, and with it at most one interrupt. -/
  outstanding : s.issued.length ≤ s.completed.length + 1 ∧ (s.working ≠ none → s.raised = 0) ∧
    s.raised ≤ 1
  /-- Whenever the lock is free, the disk is busy iff the first request is issued and not complete.
  -/
  busy : s.lock = none → (s.status = .busy ↔
    ∃ b, s.queue.head? = some b ∧ b ∈ s.issued ∧ b ∉ s.completed)
  /-- No assertion fails. -/
  asserts : ∀ op : IdeOp, op.Enabled s → ∃ s', op.exec s = .ok s'
  /-- If there are requests while the disk is idle, a submitter has yet to run the handler. -/
  promised : s.queue ≠ [] → s.status = .idle →
    ∃ b ∈ s.submitted, s.pc b = .enter ∨ s.pc b = .handler
  /-- The submitter of a request in the queue, which is on its stack, has not returned. -/
  live : ∀ b ∈ s.queue, s.pc b ≠ .returned
  /-- Without further submissions a run comes to an end. -/
  progress : ∀ (op : IdeOp) (s' : Ide), op.Enabled s → op.isSubmit = false → op.exec s = .ok s' →
    s'.work < s.work
  /-- At its end all that was submitted has been issued and completed, and every submitter has
  returned. -/
  finished : (∀ op : IdeOp, op.isSubmit = false → ¬ op.Enabled s) →
    s.completed = s.submitted ∧ s.issued = s.submitted ∧ ∀ b ∈ s.submitted, s.pc b = .returned

namespace IdeInv

variable {s : Ide}

theorem outstanding (I : IdeInv s) : s.issued.length ≤ s.completed.length + 1 ∧
    (s.working ≠ none → s.raised = 0) ∧ s.raised ≤ 1 := by
  have hquiet : s.Quiet → (s.working ≠ none → s.raised = 0) ∧ s.raised ≤ 1 :=
    fun h => ⟨fun _ => h.2, by rw [h.2]; exact Nat.zero_le 1⟩
  have hone : ∀ b, s.issued = s.completed ++ [b] → s.issued.length ≤ s.completed.length + 1 :=
    fun b h => by rw [h, List.length_append]; exact le_rfl
  rcases I.outline with ⟨-, hiss, h⟩ | ⟨b, hact, h | ⟨-, -, hout⟩⟩ | ⟨b, -, hiss, h⟩
  · exact ⟨by rw [hiss]; exact Nat.le_succ _, hquiet h⟩
  · exact ⟨hone b hact.2.2, hquiet h⟩
  · refine ⟨hone b hact.2.2, ?_⟩
    rcases hout with ⟨-, h0⟩ | ⟨hw, h1⟩
    · exact ⟨fun _ => h0, by omega⟩
    · exact ⟨fun h => absurd hw h, by omega⟩
  · exact ⟨hone b hiss, hquiet h⟩

theorem busy (I : IdeInv s) (hl : s.lock = none) : s.status = .busy ↔
    ∃ b, s.queue.head? = some b ∧ b ∈ s.issued ∧ b ∉ s.completed := by
  have h := I.place
  rw [hl] at h
  rcases h with ⟨hs, hset, -⟩ | ⟨hs, b, hact, -⟩
  · rw [hs]
    refine ⟨(fun h => nomatch h), ?_⟩
    rintro ⟨b, -, hb, hc⟩
    exact absurd (hset.2.1 ▸ hb) hc
  · refine ⟨fun _ => ⟨b, hact.2.1, ?_, (I.queue_sub (head_mem hact.2.1)).2⟩, fun _ => hs⟩
    rw [hact.2.2]
    exact List.mem_append_right _ List.mem_cons_self

theorem promised (I : IdeInv s) (hq : s.queue ≠ []) (hs : s.status = .idle) :
    ∃ b ∈ s.submitted, s.pc b = .enter ∨ s.pc b = .handler := by
  obtain ⟨b, hb⟩ := List.exists_mem_of_ne_nil _ hq
  have h := I.place
  rcases hl : s.lock with - | a
  · rw [hl] at h
    rcases h with ⟨-, -, hprom⟩ | ⟨hs', -⟩
    · exact ⟨b, (I.queue_sub hb).1, .inl (hprom b hb)⟩
    · rw [hs] at hs'; cases hs'
  · rw [hl] at h
    cases a with
    | front c => exact ⟨c, h.2.2.1, .inr h.2.2.2⟩
    | issue c d => exact ⟨c, h.2.2.2.1, .inr h.2.2.2.2⟩
    | _ => exact absurd (hs.symm.trans h.1) (fun h => nomatch h)

end IdeInv

/-- In every reachable state of the threads, the driver and the disk, the protocol is kept. -/
theorem ide_protocol {s : Ide} (h : s.Reachable) : IdeProtocol s := by
  have I := IdeInv.reachable h
  exact ⟨⟨I.nodup, I.history⟩, I.cmds, I.outstanding, I.busy, fun op hop => I.exec_run hop,
    I.promised, fun b hb => I.live b (I.queue_sub hb).1 (I.queue_sub hb).2,
    fun op s' hop hns hrun => I.exec_work hop hns hrun, I.quiescent⟩

/-- The disk before the first submission. -/
def freshIde : Ide :=
  ⟨1, .idle, [], fun _ => .pending, none, fun _ => 0, fun _ => .returned, none, 0, [], [], [], []⟩

/-- Reading the page of block 8. -/
def oneBio : Bio := ⟨1, .read, 8, 8⟩

/-- Writing the page of block 16. -/
def nextBio : Bio := ⟨2, .write, 16, 8⟩

/-- Thread 2 waits for its operation, which the interrupt for the one of thread 1 has issued. -/
theorem nextBio_issued : ∃ s : Ide, s.Reachable ∧ s.lock = none ∧ s.issued = [oneBio, nextBio] ∧
    s.queue = [nextBio] ∧ s.completed = [oneBio] ∧ s.pc oneBio = .returned ∧
      s.pc nextBio = .asleep := by
  have h0 : freshIde.Reachable := .first ⟨rfl, rfl, rfl, rfl, rfl, rfl, rfl, rfl, rfl⟩
  have h1 := h0.next ⟨.submit 1 oneBio, ⟨List.not_mem_nil, by decide, fun _ h => nomatch h⟩, rfl⟩
  have h2 := h1.next ⟨.enter oneBio, ⟨List.mem_cons_self, rfl, rfl⟩, rfl⟩
  have h3 := h2.next ⟨.proceed, (fun h => nomatch h), rfl⟩
  have h4 := h3.next ⟨.proceed, (fun h => nomatch h), rfl⟩
  have h5 := h4.next ⟨.submit 2 nextBio, ⟨by decide, by decide, by decide⟩, rfl⟩
  have h6 := h5.next ⟨.enter nextBio, ⟨by decide, rfl, rfl⟩, rfl⟩
  have h7 := h6.next ⟨.test nextBio, ⟨by decide, rfl⟩, rfl⟩
  have h8 := h7.next ⟨.done, (fun h => nomatch h), rfl⟩
  have h9 := h8.next ⟨.trap, ⟨rfl, by decide⟩, rfl⟩
  have h10 := h9.next ⟨.proceed, (fun h => nomatch h), rfl⟩
  have h11 := h10.next ⟨.proceed, (fun h => nomatch h), rfl⟩
  have h12 := h11.next ⟨.proceed, (fun h => nomatch h), rfl⟩
  have h13 := h12.next ⟨.proceed, (fun h => nomatch h), rfl⟩
  have h14 := h13.next ⟨.test oneBio, ⟨by decide, rfl⟩, rfl⟩
  exact ⟨_, h14, rfl, rfl, rfl, rfl, rfl, rfl⟩

/-- The first operation is complete, and the disk is busy with the second. -/
theorem nextBio_busy : ∃ s : Ide, s.Reachable ∧ IdeProtocol s ∧ s.completed = [oneBio] ∧
    s.status = .busy := by
  obtain ⟨s, hs, hl, hi, hq, hc, -⟩ := nextBio_issued
  have hp := ide_protocol hs
  refine ⟨s, hs, hp, hc, (hp.busy hl).mpr ⟨nextBio, by rw [hq]; rfl, ?_, ?_⟩⟩
  · rw [hi]
    decide
  · rw [hc]
    decide

end Osv
