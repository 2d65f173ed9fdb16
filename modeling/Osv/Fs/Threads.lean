import Osv.Lib.Run
import Osv.Fs.Vfs

/-!
# Threads and transactions

Threads execute the functions of `Osv.Fs.Vfs`, in any interleaving.  `jbd_begin_txn`
and the end of `jbd_end_txn` are sections of the journal's spinlock.  Everything else
that `jbd_write_blk` and `jbd_end_txn` do with the journal is done without a lock, so
it is made of several steps: the list is searched in one and a block stored at the
index found in another, and the list is committed and emptied before the transaction
is closed.

`JSys.Inv` names the thread that opened the transaction.  That thread follows the
protocol of `oneByOne` inside a transaction and the others outside, so no other thread
can be where a block is logged or a transaction closed.
-/

namespace Osv

open Function (update update_self update_of_ne)

/-- Where a thread is. -/
inductive Status where
  /-- Between calls of the journal. -/
  | running
  /-- In `condvar_wait` of `jbd_begin_txn`. -/
  | asleep
  /-- At the start of `jbd_write_blk`. -/
  | logging (b : Blk)
  /-- In `jbd_write_blk`, about to store the block at an index. -/
  | storing (b : Blk) (index : ℕ)
  /-- In `jbd_end_txn`, with blocks to commit. -/
  | committing
  /-- In `jbd_end_txn`, about to set `state` to `IDLE`. -/
  | closing
deriving DecidableEq

/-- The journal and the threads. -/
structure JSys (T : Type) where
  /-- `state` is `BUSY`. -/
  busy : Bool
  /-- `datablks`, of which there are `next_index`. -/
  logged : List Blk
  /-- What the thread still has to execute. -/
  code : T → VfsM Unit
  status : T → Status
  /-- Calls of `jbd_begin_txn` that have returned. -/
  begun : T → ℕ
  /-- Calls of `jbd_end_txn` that have returned. -/
  ended : T → ℕ

namespace JSys

variable {T : Type}

/-- The threads are about to execute some calls each. -/
structure Init (s : JSys T) : Prop where
  busy : s.busy = false
  logged : s.logged = []
  code : ∀ t, ∃ fs, s.code t = fsThread fs
  status : ∀ t, s.status t = .running
  begun : ∀ t, s.begun t = 0
  ended : ∀ t, s.ended t = 0

variable [DecidableEq T]

/-- A thread gets a new status. -/
def setStatus (s : JSys T) (t : T) (st : Status) : JSys T :=
  { s with status := update s.status t st }

/-- The call of a thread has returned. -/
def goOn (s : JSys T) (t : T) (p : VfsM Unit) : JSys T := { s with code := update s.code t p }

/-- Set `state` to `IDLE` and wake the threads that wait. -/
def unlock (s : JSys T) (t : T) : JSys T :=
  { s with
    busy := false
    status := fun u => if u = t ∨ s.status u = .asleep then .running else s.status u
    ended := update s.ended t (s.ended t + 1) }

/-- A step of a thread. -/
inductive Step : JSys T → JSys T → Prop
  | begin {s : JSys T} {t : T} {k : Unit → VfsM Unit} (hs : s.status t = .running)
      (hc : s.code t = .call .beginTxn k) (hb : s.busy = false) :
      Step s { s.goOn t (k ()) with busy := true, begun := update s.begun t (s.begun t + 1) }
  | wait {s : JSys T} {t : T} {k : Unit → VfsM Unit} (hs : s.status t = .running)
      (hc : s.code t = .call .beginTxn k) (hb : s.busy = true) : Step s (s.setStatus t .asleep)
  /-- A call that logs calls `jbd_write_blk`. -/
  | log {s : JSys T} {t : T} {op : SfsOp} {k : op.Ret → VfsM Unit} (b : Blk)
      (hs : s.status t = .running)
      (hc : s.code t = .call (.sfs op) k) (hl : op.logs = true) : Step s
      (s.setStatus t (.logging b))
  | found {s : JSys T} {t : T} {b : Blk} (hs : s.status t = .logging b) (hb : s.busy = true)
      (hm : b ∈ s.logged) : Step s (s.setStatus t .running)
  | search {s : JSys T} {t : T} {b : Blk} (hs : s.status t = .logging b) (hb : s.busy = true)
      (hm : b ∉ s.logged) (hn : s.logged.length < journalSize) :
      Step s (s.setStatus t (.storing b s.logged.length))
  | store {s : JSys T} {t : T} {b : Blk} {n : ℕ} (hs : s.status t = .storing b n) :
      Step s { s.setStatus t .running with logged := s.logged.take n ++ [b] }
  /-- A call that has nothing to do with the journal, or has called `jbd_write_blk` as often as it
  wants to. -/
  | ret {s : JSys T} {t : T} {c : VfsCall} {k : c.Ret → VfsM Unit} (r : c.Ret)
      (hs : s.status t = .running)
      (hc : s.code t = .call c k) (hbegin : c ≠ .beginTxn)
      (hend : c ≠ .endTxn) : Step s (s.goOn t (k r))
  | endEmpty {s : JSys T} {t : T} {k : Unit → VfsM Unit} (hs : s.status t = .running)
      (hc : s.code t = .call .endTxn k) (hb : s.busy = true) (hl : s.logged = []) :
      Step s (s.setStatus t .closing)
  | endTxn {s : JSys T} {t : T} {k : Unit → VfsM Unit} (hs : s.status t = .running)
      (hc : s.code t = .call .endTxn k) (hb : s.busy = true) (hl : s.logged ≠ []) :
      Step s (s.setStatus t .committing)
  /-- `commit_journal` has succeeded. -/
  | commit {s : JSys T} {t : T} (hs : s.status t = .committing)
      (hn : s.logged.length < journalSize) :
      Step s { s.setStatus t .closing with logged := [] }
  | idle {s : JSys T} {t : T} {k : Unit → VfsM Unit} (hs : s.status t = .closing)
      (hc : s.code t = .call .endTxn k) : Step s ((s.goOn t (k ())).unlock t)

/-- The states that the threads reach. -/
abbrev Reachable (s : JSys T) : Prop := Run.Reachable Init Step s

/-- The thread has returned from `jbd_begin_txn` and not from the `jbd_end_txn` that belongs to it.
-/
def Inside (s : JSys T) (t : T) : Prop := s.ended t < s.begun t

/-- The thread executes `jbd_write_blk`. -/
def InWrite (s : JSys T) (t : T) : Prop :=
  ∃ b, s.status t = .logging b ∨ ∃ n, s.status t = .storing b n

/-- The thread is about to execute `jbd_end_txn`, and its assertion first. -/
def AtEnd (s : JSys T) (t : T) : Prop := s.status t = .running ∧ ∃ k, s.code t = .call .endTxn k

/-! ## The opener -/

/-- The rest of a thread follows the protocol. -/
abbrev Follows (s : JSys T) (t : T) (inside : Bool) : Prop :=
  (s.code t).Obeys VfsCall.event oneByOne (fun _ j => j = false) inside

/-- What the thread that opened the transaction may be doing. -/
structure Opener (s : JSys T) (t : T) : Prop where
  follows : s.Follows t true
  awake : s.status t ≠ .asleep
  index : ∀ b n, s.status t = .storing b n → n = s.logged.length
  empty : s.status t = .closing → s.logged = []

/-- What any other thread may be doing. -/
structure Outsider (s : JSys T) (t : T) : Prop where
  follows : s.Follows t false
  status : s.status t = .running ∨ s.status t = .asleep ∧ s.busy = true

/-- The invariant, with the thread that opened the transaction if there is one. -/
structure Inv (s : JSys T) (o : Option T) : Prop where
  busy : s.busy = o.isSome
  idle : o = none → s.logged = []
  counts : ∀ t, s.begun t = s.ended t + if o = some t then 1 else 0
  opener : ∀ t, o = some t → s.Opener t
  outsider : ∀ t, o ≠ some t → s.Outsider t

variable {s s' : JSys T} {t u : T} {o : Option T}

theorem Init.inv (h : Init s) : s.Inv none where
  busy := h.busy
  idle _ := h.logged
  counts t := by rw [h.begun, h.ended, if_neg (nofun : (none : Option T) ≠ some t)]
  opener t ht := nomatch ht
  outsider t _ := by
    obtain ⟨fs, hfs⟩ := h.code t
    exact ⟨by rw [Follows, hfs]; exact fsThread_oneByOne fs, .inl (h.status t)⟩

theorem Inv.eq_of_status (h : s.Inv o) (hr : s.status t ≠ .running) (ha : s.status t ≠ .asleep) :
    o = some t := by
  by_contra ho
  rcases (h.outsider t ho).status with hs | hs
  · exact hr hs
  · exact ha hs.1

omit [DecidableEq T] in
theorem Follows.call {c : VfsCall} {k : c.Ret → VfsM Unit} {i : Bool} (h : s.Follows t i)
    (hc : s.code t = .call c k) : ∃ j, Calls.advance oneByOne i c.event = some j ∧
      ∀ r, (k r).Obeys VfsCall.event oneByOne (fun _ j => j = false) j := by
  rw [Follows, hc] at h
  exact h

theorem Inv.eq_of_call {c : VfsCall} {k : c.Ret → VfsM Unit} (h : s.Inv o)
    (hc : s.code t = .call c k) (hout : Calls.advance oneByOne false c.event = none) :
    o = some t := by
  by_contra ho
  obtain ⟨j, hj, -⟩ := (h.outsider t ho).follows.call hc
  rw [hout] at hj
  cases hj

variable {k : Unit → VfsM Unit}

theorem Inv.ne_of_begin (h : s.Inv o) (hc : s.code t = .call .beginTxn k) : o ≠ some t := by
  intro ho
  obtain ⟨j, hj, -⟩ := (h.opener t ho).follows.call hc
  cases hj

theorem Inv.step_opener (h : s.Inv (some t)) (ht : s'.Opener t) (hb : s'.busy = s.busy)
    (hbegun : s'.begun = s.begun) (hended : s'.ended = s.ended)
    (hu : ∀ u, u ≠ t → s'.code u = s.code u ∧ s'.status u = s.status u) : s'.Inv (some t) where
  busy := hb.trans h.busy
  idle hn := nomatch hn
  counts u := by rw [hbegun, hended]; exact h.counts u
  opener u hut := Option.some.inj hut ▸ ht
  outsider u hut := by
    obtain ⟨hc, hs⟩ := hu u fun he => hut (by rw [he])
    have ho := h.outsider u hut
    exact ⟨by rw [Follows, hc]; exact ho.follows, by rw [hs, hb]; exact ho.status⟩

theorem Inv.setStatus_opener (h : s.Inv (some t)) {st : Status} (ha : st ≠ .asleep)
    (hi : ∀ b n, st = .storing b n → n = s.logged.length) (he : st = .closing → s.logged = []) :
    (s.setStatus t st).Inv (some t) := by
  have hst : (s.setStatus t st).status t = st := update_self _ _ _
  refine h.step_opener ⟨(h.opener t rfl).follows, ?_, ?_, ?_⟩ rfl rfl rfl fun u hut =>
    ⟨rfl, update_of_ne hut _ _⟩
  · rw [hst]; exact ha
  · rw [hst]; exact hi
  · rw [hst]; exact he

/-! ## Steps -/

section

variable (h : s.Inv o)

include h

theorem Inv.begin (hs : s.status t = .running) (hc : s.code t = .call .beginTxn k)
    (hb : s.busy = false) :
    Inv { s.goOn t (k ()) with busy := true, begun := update s.begun t (s.begun t + 1) }
      (some t) := by
  have ho : o = none := by
    rw [h.busy, Option.isSome_eq_false_iff, Option.isNone_iff_eq_none] at hb
    exact hb
  obtain rfl := ho
  have hout := h.outsider t (nofun : (none : Option T) ≠ some t)
  refine ⟨rfl, (fun hn => nomatch hn), fun u => ?_, fun u hu => ?_, fun u hu => ?_⟩
  · have hcount := h.counts u
    rw [if_neg (nofun : (none : Option T) ≠ some u)] at hcount
    by_cases hut : u = t
    · subst hut
      rw [if_pos rfl]
      exact (update_self _ _ _).trans (congrArg (· + 1) hcount)
    · rw [if_neg fun he => hut (Option.some.inj he).symm]
      exact (update_of_ne hut _ _).trans hcount
  · obtain rfl := Option.some.inj hu
    obtain ⟨j, hj, hk⟩ := hout.follows.call hc
    cases hj
    have hst : s.status t = .running := hs
    refine ⟨?_, ?_, ?_, ?_⟩
    · show Calls.Obeys _ _ (update s.code t (k ()) t) _ _
      rw [update_self]
      exact hk ()
    · exact hst ▸ (nofun : Status.running ≠ .asleep)
    · exact fun b n he => nomatch hst.symm.trans he
    · exact fun he => nomatch hst.symm.trans he
  · have hut : u ≠ t := fun he => hu (by rw [he])
    have hou := h.outsider u (nofun : (none : Option T) ≠ some u)
    refine ⟨?_, ?_⟩
    · show Calls.Obeys _ _ (update s.code t (k ()) u) _ _
      rw [update_of_ne hut]
      exact hou.follows
    · exact hou.status.imp id fun ha => ⟨ha.1, rfl⟩

theorem Inv.wait (hc : s.code t = .call .beginTxn k) (hb : s.busy = true) :
    (s.setStatus t .asleep).Inv o := by
  have ho := h.ne_of_begin hc
  refine ⟨h.busy, h.idle, h.counts, fun u hu => ?_, fun u hu => ?_⟩
  · have hut : u ≠ t := fun he => ho (he ▸ hu)
    have hop := h.opener u hu
    have hst : (s.setStatus t .asleep).status u = s.status u := update_of_ne hut _ _
    exact ⟨hop.follows, hst ▸ hop.awake, fun b n he => hop.index b n (hst ▸ he),
      fun he => hop.empty (hst ▸ he)⟩
  · refine ⟨(h.outsider u hu).follows, ?_⟩
    by_cases hut : u = t
    · subst hut
      exact .inr ⟨update_self _ _ _, hb⟩
    · have hst : (s.setStatus t .asleep).status u = s.status u := update_of_ne hut _ _
      rw [hst]
      exact (h.outsider u hu).status

theorem Inv.store {b : Blk} {n : ℕ} (hs : s.status t = .storing b n) :
    Inv { s.setStatus t .running with logged := s.logged.take n ++ [b] } o := by
  obtain rfl := h.eq_of_status (by rw [hs]; nofun) (by rw [hs]; nofun)
  have hst : update s.status t .running t = .running := update_self _ _ _
  refine h.step_opener ⟨(h.opener t rfl).follows, ?_, ?_, ?_⟩ rfl rfl rfl fun u hut =>
    ⟨rfl, update_of_ne hut _ _⟩
  · exact fun he => nomatch hst.symm.trans he
  · exact fun b n he => nomatch hst.symm.trans he
  · exact fun he => nomatch hst.symm.trans he

theorem Inv.ret {c : VfsCall} {k : c.Ret → VfsM Unit} (r : c.Ret) (hc : s.code t = .call c k)
    (hbegin : c ≠ .beginTxn) (hend : c ≠ .endTxn) : (s.goOn t (k r)).Inv o := by
  have hstay (i : Bool) (hf : s.Follows t i) : (s.goOn t (k r)).Follows t i := by
    obtain ⟨j, hj, hk⟩ := hf.call hc
    have hij : j = i := by
      cases c with
      | beginTxn => exact absurd rfl hbegin
      | endTxn => exact absurd rfl hend
      | sfs op =>
        rw [VfsCall.event] at hj
        split at hj
        · cases i <;> cases hj
          rfl
        · cases hj
          rfl
      | cwd | allocFile | devWrite | nextInode | stop => cases hj; rfl
    show Calls.Obeys _ _ (update s.code t (k r) t) _ _
    rw [update_self]
    exact hij ▸ hk r
  have hother (u : T) (i : Bool) (hf : s.Follows u i) : (s.goOn t (k r)).Follows u i := by
    by_cases hut : u = t
    · exact hut ▸ hstay i (hut ▸ hf)
    · show Calls.Obeys _ _ (update s.code t (k r) u) _ _
      rw [update_of_ne hut]
      exact hf
  exact ⟨h.busy, h.idle, h.counts,
    fun u hu => ⟨hother u true (h.opener u hu).follows, (h.opener u hu).awake,
      (h.opener u hu).index,
      (h.opener u hu).empty⟩,
    fun u hu => ⟨hother u false (h.outsider u hu).follows, (h.outsider u hu).status⟩⟩

theorem Inv.commit (hs : s.status t = .committing) :
    Inv { s.setStatus t .closing with logged := [] } o := by
  obtain rfl := h.eq_of_status (by rw [hs]; nofun) (by rw [hs]; nofun)
  have hst : update s.status t .closing t = .closing := update_self _ _ _
  refine h.step_opener ⟨(h.opener t rfl).follows, ?_, ?_, fun _ => rfl⟩ rfl rfl rfl fun u hut =>
    ⟨rfl, update_of_ne hut _ _⟩
  · exact fun he => nomatch hst.symm.trans he
  · exact fun b n he => nomatch hst.symm.trans he

theorem Inv.unlock (hs : s.status t = .closing) (hc : s.code t = .call .endTxn k) :
    ((s.goOn t (k ())).unlock t).Inv none := by
  obtain rfl := h.eq_of_status (by rw [hs]; nofun) (by rw [hs]; nofun)
  have hop := h.opener t rfl
  refine ⟨rfl, (fun _ => hop.empty hs), fun u => ?_, (fun u hu => nomatch hu), fun u _ => ?_⟩
  · have hcount := h.counts u
    rw [if_neg (nofun : (none : Option T) ≠ some u), Nat.add_zero]
    by_cases hut : u = t
    · subst hut
      rw [if_pos rfl] at hcount
      exact hcount.trans (update_self u (s.ended u + 1) s.ended).symm
    · rw [if_neg fun he => hut (Option.some.inj he).symm, Nat.add_zero] at hcount
      have he : ((s.goOn t (k ())).unlock t).ended u = s.ended u := update_of_ne hut _ _
      rw [he]
      exact hcount
  · by_cases hut : u = t
    · subst hut
      obtain ⟨j, hj, hk⟩ := hop.follows.call hc
      cases hj
      refine ⟨?_, .inl (if_pos (.inl rfl))⟩
      show Calls.Obeys _ _ (update s.code u (k ()) u) _ _
      rw [update_self]
      exact hk ()
    · have hou := h.outsider u fun he => hut (Option.some.inj he).symm
      refine ⟨?_, .inl ?_⟩
      · show Calls.Obeys _ _ (update s.code t (k ()) u) _ _
        rw [update_of_ne hut]
        exact hou.follows
      · rcases hou.status with hr | ha
        · show (if u = t ∨ s.status u = .asleep then Status.running else s.status u) = .running
          rw [hr, ite_self]
        · exact if_pos (.inr ha.1)

theorem Inv.step (hstep : Step s s') : ∃ o', s'.Inv o' := by
  cases hstep with
  | begin hs hc hb => exact ⟨_, h.begin hs hc hb⟩
  | wait hs hc hb => exact ⟨_, h.wait hc hb⟩
  | log b hs hc hl =>
    obtain rfl := h.eq_of_call hc (by rw [VfsCall.event, hl]; rfl)
    exact ⟨_, h.setStatus_opener (by simp) (by simp) (by simp)⟩
  | found hs hb hm =>
    obtain rfl := h.eq_of_status (by rw [hs]; simp) (by rw [hs]; simp)
    exact ⟨_, h.setStatus_opener (by simp) (by simp) (by simp)⟩
  | search hs hb hm hn =>
    obtain rfl := h.eq_of_status (by rw [hs]; simp) (by rw [hs]; simp)
    refine ⟨_, h.setStatus_opener (by simp) (fun b n he => ?_) (by simp)⟩
    cases he
    rfl
  | store hs => exact ⟨_, h.store hs⟩
  | ret r hs hc hbegin hend => exact ⟨_, h.ret r hc hbegin hend⟩
  | endEmpty hs hc hb hl =>
    obtain rfl := h.eq_of_call hc rfl
    exact ⟨_, h.setStatus_opener (by simp) (by simp) fun _ => hl⟩
  | endTxn hs hc hb hl =>
    obtain rfl := h.eq_of_call hc rfl
    exact ⟨_, h.setStatus_opener (by simp) (by simp) (by simp)⟩
  | commit hs hn => exact ⟨_, h.commit hs⟩
  | idle hs hc => exact ⟨_, h.unlock hs hc⟩

end

theorem Reachable.inv (h : s.Reachable) : ∃ o, s.Inv o := by
  refine Run.Reachable.invariant (I := fun s : JSys T => ∃ o, s.Inv o) h ?_ ?_
  · exact fun s h0 => ⟨none, h0.inv⟩
  · rintro s s' - ⟨o, hi⟩ hstep
    exact hi.step hstep

/-! ## Transactions -/

/-- The threads that are inside a transaction are the opener. -/
theorem Inv.inside_iff (h : s.Inv o) : s.Inside t ↔ o = some t := by
  have hcount := h.counts t
  rw [Inside]
  split at hcount
  · exact iff_of_true (by omega) ‹_›
  · exact iff_of_false (by omega) ‹_›

theorem Inv.inWrite (h : s.Inv o) (ht : s.InWrite t) : s.Inside t ∧ s.busy = true := by
  have ho : o = some t := by
    obtain ⟨b, hb | ⟨n, hb⟩⟩ := ht <;> exact h.eq_of_status (by rw [hb]; nofun) (by rw [hb]; nofun)
  exact ⟨h.inside_iff.mpr ho, by rw [h.busy, ho]; rfl⟩

theorem Inv.atEnd (h : s.Inv o) (ht : s.AtEnd t) : s.Inside t ∧ s.busy = true := by
  obtain ⟨-, k, hc⟩ := ht
  have ho : o = some t := h.eq_of_call hc rfl
  exact ⟨h.inside_iff.mpr ho, by rw [h.busy, ho]; rfl⟩

end JSys

/-- Every call brackets what it logs with one `jbd_begin_txn` and one `jbd_end_txn` on every path,
the calls of SFS log as they are said to, and in every interleaving one thread at most is inside a
transaction, blocks are logged and transactions closed by that thread, and the list is empty when a
transaction can begin. -/
theorem transactions_exclusive (sb : SbInfo) :
    (∀ (f : FsCall) (l : List JEvent) (u : Unit), f.code.Path VfsCall.event l u →
      l = [] ∨ ∃ n, l = .begin :: (List.replicate n .log ++ [.finish])) ∧
    (∀ op : SfsOp, (op.logs = false → Quiet (op.run sb)) ∧ Logs (op.run sb)) ∧
    ∀ (T : Type) [DecidableEq T] (s : JSys T), s.Reachable →
      (∀ t u, s.Inside t → s.Inside u → t = u) ∧
      (∀ t, s.ended t ≤ s.begun t ∧ s.begun t ≤ s.ended t + 1) ∧
      (∀ t, s.InWrite t ∨ s.AtEnd t → s.Inside t ∧ s.busy = true) ∧
      (s.busy = false → s.logged = []) := by
  refine ⟨fun f l u h => FsCall.path h, fun op => ⟨SfsOp.quiet_run, SfsOp.logs_run op⟩,
    fun T _ s h => ?_⟩
  obtain ⟨o, hi⟩ := h.inv
  refine ⟨fun t u ht hu => ?_, fun t => ?_, fun t ht => ?_, fun hb => ?_⟩
  · exact Option.some.inj ((hi.inside_iff.mp ht).symm.trans (hi.inside_iff.mp hu))
  · have hcount := hi.counts t
    split at hcount <;> omega
  · exact ht.elim hi.inWrite hi.atEnd
  · rw [hi.busy, Option.isSome_eq_false_iff, Option.isNone_iff_eq_none] at hb
    exact hi.idle hb

/-- Two threads that make a directory. -/
def twoMkdirs : JSys Bool where
  busy := false
  logged := []
  code _ := fsThread [.mkdir [97]]
  status _ := .running
  begun _ := 0
  ended _ := 0

theorem twoMkdirs_init : twoMkdirs.Init :=
  ⟨rfl, rfl, fun _ => ⟨_, rfl⟩, fun _ => rfl, fun _ => rfl, fun _ => rfl⟩

/-- The root directory, as a thread finds it. -/
def rootInode : Inode := ⟨⟨ftypeDir, 0, 1, 0, fun _ => 0⟩, 1, true, false⟩

/-- One thread logs a block while the other waits, and is the only one in a transaction. -/
theorem twoMkdirs_exclusive :
    ∃ s : JSys Bool, s.Reachable ∧ s.Inside true ∧ s.InWrite true ∧ s.status false = .asleep ∧
      s.busy = true ∧ ∀ u, s.Inside u → u = true := by
  have h0 : twoMkdirs.Reachable := .first twoMkdirs_init
  have h1 := h0.next (.ret (t := true) (c := .cwd) none rfl rfl nofun nofun)
  have h2 := h1.next (.ret (t := true) (c := .sfs (.getInode 1)) (.ok ()) rfl rfl nofun nofun)
  have h3 := h2.next (.ret (t := true) (c := .sfs (.inode 1)) rootInode rfl rfl nofun nofun)
  have h4 := h3.next (.ret (t := false) (c := .cwd) none rfl rfl nofun nofun)
  have h5 := h4.next (.ret (t := false) (c := .sfs (.getInode 1)) (.ok ()) rfl rfl nofun nofun)
  have h6 := h5.next (.ret (t := false) (c := .sfs (.inode 1)) rootInode rfl rfl nofun nofun)
  have h7 := h6.next (.begin (t := true) rfl rfl rfl)
  have h8 := h7.next (.wait (t := false) rfl rfl rfl)
  have h9 := h8.next (.log (t := true) 3 rfl rfl rfl)
  refine ⟨_, h9, ?_, ⟨3, .inl rfl⟩, rfl, rfl, fun u hu =>
    ((transactions_exclusive mkfsSb).2.2 Bool _ h9).1 u true hu ?_⟩
  · exact Nat.zero_lt_one
  · exact Nat.zero_lt_one

end Osv
