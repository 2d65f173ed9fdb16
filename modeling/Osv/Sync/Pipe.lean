import Osv.Sync.Bbq

/-!
# Pipes

`pipe_read`, `pipe_write` and `pipe_close` of `kernel/pipe.c`, run by any number
of threads.  A call goes byte by byte through the queue, and each byte is a step
of the queue.  Whether the other end is open is tested once, when the call
begins.  A read that finds the write end closed then tests before each byte whether the
buffer is empty, without the lock.  Closing an end clears a pointer and wakes
nobody.

So a reader that has some of its bytes goes to sleep for the others, and a
thread stays asleep when the other end closes.  What remains of the intended
rule is what the queue gives, and the whole rule for a pipe that is used with care
(`pipe_asleep`).
-/

namespace Osv

/-- A thread in `pipe_read`. -/
structure Reading where
  count : ℕ
  bytesRead : ℕ
  /-- The write end was closed when the call began. -/
  closed : Bool
  /-- `bbq_is_empty` has just said no. -/
  seen : Bool
deriving DecidableEq, Repr

/-- A thread in `pipe_write`. -/
structure Writing where
  buffer : List UInt8
  bytesWritten : ℕ
deriving DecidableEq, Repr

/-- A pipe, and the threads in its calls. -/
structure PipeSys where
  bbq : BbqSys
  readOpen : Bool
  writeOpen : Bool
  reading : Tid → Option Reading
  writing : Tid → Option Writing

/-- A step of a thread. -/
inductive PipeOp where
  | read (t : Tid) (count : ℕ)
  /-- The test of the loop that a read makes when the write end was closed. -/
  | testEmpty (t : Tid)
  /-- The thread comes to its section in `bbq_remove`. -/
  | readByte (t : Tid)
  /-- The thread is resumed in `bbq_remove`. -/
  | readResume (t : Tid)
  | readReturn (t : Tid)
  | write (t : Tid) (buffer : List UInt8)
  | writeByte (t : Tid)
  | writeResume (t : Tid) (b : UInt8)
  | writeReturn (t : Tid)
  | closeRead
  | closeWrite

namespace PipeSys

/-- A read gets on. -/
def setReading (p : PipeSys) (t : Tid) (r : Option Reading) : PipeSys :=
  { p with reading := Function.update p.reading t r }

/-- A write gets on. -/
def setWriting (p : PipeSys) (t : Tid) (w : Option Writing) : PipeSys :=
  { p with writing := Function.update p.writing t w }

/-- The pipe of `pipe_alloc`. -/
def Init (p : PipeSys) : Prop :=
  p.bbq.Init ∧ p.readOpen = true ∧ p.writeOpen = true ∧ p.reading = (fun _ => none) ∧
    p.writing = fun _ => none

/-- The end of a section of `bbq_remove`: a byte is stored, or the thread is asleep. -/
def afterRemove (p : PipeSys) (t : Tid) (r : Reading) (res : Option UInt8 × BbqSys) : PipeSys :=
  match res.1 with
  | none => { p with bbq := res.2 }
  | some _ => { p with bbq := res.2 }.setReading t
      (some { r with bytesRead := r.bytesRead + 1, seen := false })

end PipeSys

namespace PipeOp

/-- When a thread can make the step. -/
def Enabled (p : PipeSys) : PipeOp → Prop
  | read t _ => p.reading t = none ∧ p.writing t = none ∧ p.readOpen = true
  | testEmpty t => p.bbq.Outside t ∧ ∃ r, p.reading t = some r ∧ r.bytesRead < r.count ∧
      r.closed = true ∧ r.seen = false
  | readByte t => p.bbq.Outside t ∧ ∃ r, p.reading t = some r ∧ r.bytesRead < r.count ∧
      (r.closed = true → r.seen = true)
  | readResume t => t ∈ p.bbq.itemAdded.woken
  | readReturn t => p.bbq.Outside t ∧ ∃ r, p.reading t = some r ∧ r.count ≤ r.bytesRead
  | write t _ => p.reading t = none ∧ p.writing t = none ∧ p.writeOpen = true
  | writeByte t => p.bbq.Outside t ∧ ∃ w, p.writing t = some w ∧ w.bytesWritten < w.buffer.length
  | writeResume t b => (t, b) ∈ p.bbq.itemRemoved.woken
  | writeReturn t => p.bbq.Outside t ∧ ∃ w, p.writing t = some w ∧ w.buffer.length ≤ w.bytesWritten
  | closeRead => p.readOpen = true
  | closeWrite => p.writeOpen = true

instance : ∀ (p : PipeSys) (op : PipeOp), Decidable (op.Enabled p)
  | _, read _ _ => inferInstanceAs (Decidable (_ ∧ _ ∧ _))
  | p, testEmpty t => inferInstanceAs (Decidable (_ ∧ ∃ r ∈ p.reading t, _ ∧ _ ∧ _))
  | p, readByte t => inferInstanceAs (Decidable (_ ∧ ∃ r ∈ p.reading t, _ ∧ (_ → _)))
  | _, readResume _ => inferInstanceAs (Decidable (_ ∈ _))
  | p, readReturn t => inferInstanceAs (Decidable (_ ∧ ∃ r ∈ p.reading t, _ ≤ _))
  | _, write _ _ => inferInstanceAs (Decidable (_ ∧ _ ∧ _))
  | p, writeByte t => inferInstanceAs (Decidable (_ ∧ ∃ w ∈ p.writing t, _ < _))
  | _, writeResume _ _ => inferInstanceAs (Decidable (_ ∈ _))
  | p, writeReturn t => inferInstanceAs (Decidable (_ ∧ ∃ w ∈ p.writing t, _ ≤ _))
  | _, closeRead => inferInstanceAs (Decidable (_ = _))
  | _, closeWrite => inferInstanceAs (Decidable (_ = _))

/-- What an operation does. -/
def exec (p : PipeSys) : PipeOp → Except Trap PipeSys
  | read t count => .ok (p.setReading t (some ⟨count, 0, !p.writeOpen, false⟩))
  | testEmpty t =>
    match p.reading t with
    | none => .ok p
    | some r =>
      -- an empty buffer ends the loop and the call
      if p.bbq.q.isEmpty then .ok (p.setReading t none)
      else .ok (p.setReading t (some { r with seen := true }))
  | readByte t =>
    match p.reading t with
    | none => .ok p
    | some r => (p.bbq.remove t).map (p.afterRemove t r)
  | readResume t =>
    match p.reading t with
    | none => .ok p
    | some r =>
      (BbqSys.remove { p.bbq with itemAdded := p.bbq.itemAdded.resume t } t).map
        (p.afterRemove t r)
  | readReturn t => .ok (p.setReading t none)
  | write t buffer =>
    -- with the read end closed the call returns `ERR_END`
    if p.readOpen then .ok (p.setWriting t (some ⟨buffer, 0⟩)) else .ok p
  | writeByte t =>
    match p.writing t with
    | none => .ok p
    | some w =>
      (p.bbq.insert (t, w.buffer.getD w.bytesWritten 0)).map fun res =>
        { p with bbq := res.2 }.setWriting t (some { w with bytesWritten := w.bytesWritten + 1 })
  | writeResume t b =>
    (BbqSys.insert { p.bbq with itemRemoved := p.bbq.itemRemoved.resume (t, b) } (t, b)).map
      fun res => { p with bbq := res.2 }
  | writeReturn t => .ok (p.setWriting t none)
  | closeRead => .ok { p with readOpen := false }
  | closeWrite => .ok { p with writeOpen := false }

end PipeOp

/-- One step of one thread. -/
def PipeStep (p p' : PipeSys) : Prop := ∃ op : PipeOp, op.Enabled p ∧ op.exec p = .ok p'

/-- The states of all runs of a pipe. -/
def PipeSys.Reachable (p : PipeSys) : Prop := Run.Reachable PipeSys.Init PipeStep p

theorem PipeSys.Reachable.performed {P : PipeSys → Prop} [DecidablePred P] {p : PipeSys}
    (h : p.Reachable) (ops : List PipeOp)
    (hrun : (Run.perform (fun p op => op.Enabled p) PipeOp.exec p ops).any
    (P ·) = true) : ∃ p', PipeSys.Reachable p' ∧ P p' :=
  Run.Reachable.performed (fun _ op _ hop hexec => ⟨op, hop, hexec⟩) ops h hrun

/-! ## A pipe runs its queue -/

section Steps

variable {p p' : PipeSys}

theorem afterRemove_bbq (p : PipeSys) (t : Tid) (r : Reading) (res : Option UInt8 × BbqSys) :
    (p.afterRemove t r res).bbq = res.2 := by
  rw [PipeSys.afterRemove]
  split <;> rfl

theorem map_ok {α β : Type} {m : Except Trap α} {f : α → β} {b : β} (h : m.map f = .ok b) :
    ∃ a, m = .ok a ∧ f a = b := by
  cases m with
  | error e => cases h
  | ok a => exact ⟨a, rfl, Except.ok.inj h⟩

theorem PipeStep.bbq (h : PipeStep p p') : BbqStep p.bbq p'.bbq ∨ p'.bbq = p.bbq := by
  obtain ⟨op, hop, hrun⟩ := h
  cases op with
  | read t count | readReturn t | writeReturn t | closeRead | closeWrite =>
    cases hrun
    exact .inr rfl
  | write t buffer =>
    rw [PipeOp.exec] at hrun
    split at hrun <;> cases hrun <;> exact .inr rfl
  | testEmpty t =>
    obtain ⟨-, r, hr, -⟩ := hop
    simp only [PipeOp.exec, hr] at hrun
    split at hrun <;> cases hrun <;> exact .inr rfl
  | readByte t =>
    obtain ⟨hout, r, hr, -⟩ := hop
    simp only [PipeOp.exec, hr] at hrun
    obtain ⟨res, hres, rfl⟩ := map_ok hrun
    rw [afterRemove_bbq]
    exact .inl ⟨.remove t, hout, by rw [BbqOp.exec, hres]; rfl⟩
  | readResume t =>
    simp only [PipeOp.exec] at hrun
    split at hrun
    · cases hrun
      exact .inr rfl
    · obtain ⟨res, hres, rfl⟩ := map_ok hrun
      rw [afterRemove_bbq]
      exact .inl ⟨.resumeRemove t, hop, by rw [BbqOp.exec, hres]; rfl⟩
  | writeByte t =>
    obtain ⟨hout, w, hw, -⟩ := hop
    simp only [PipeOp.exec, hw] at hrun
    obtain ⟨res, hres, rfl⟩ := map_ok hrun
    exact .inl ⟨.insert (t, w.buffer.getD w.bytesWritten 0), hout, by rw [BbqOp.exec, hres]; rfl⟩
  | writeResume t b =>
    obtain ⟨res, hres, rfl⟩ := map_ok hrun
    exact .inl ⟨.resumeInsert (t, b), hop, by rw [BbqOp.exec, hres]; rfl⟩

theorem PipeSys.Reachable.bbq (h : p.Reachable) : p.bbq.Reachable :=
  Run.Reachable.map h (fun _ h0 => h0.1) fun _ _ _ hstep => hstep.bbq

/-- The threads that wait for a byte are in `pipe_read` with bytes left to read, and found the write
end open or the buffer not empty. -/
structure PipeInv (p : PipeSys) : Prop where
  distinct : p.bbq.itemAdded.Distinct
  readers : ∀ t, p.bbq.itemAdded.Mem t → ∃ r, p.reading t = some r ∧ r.bytesRead < r.count ∧
    (r.closed = true → r.seen = true)

namespace PipeInv

theorem frame (I : PipeInv p) (hd : p'.bbq.itemAdded.Distinct)
    (hm : ∀ u, p'.bbq.itemAdded.Mem u → p.bbq.itemAdded.Mem u)
    (hr : ∀ u, p.bbq.itemAdded.Mem u → p'.reading u = p.reading u) : PipeInv p' :=
  ⟨hd, fun u hu => hr u (hm u hu) ▸ I.readers u (hm u hu)⟩

/-- The section of `bbq_remove`, for a thread that is not among those who wait. -/
theorem remove (I : PipeInv p) {rs : Waiters Tid} {t : Tid} {r : Reading}
    {res : Option UInt8 × BbqSys} (hd : rs.Distinct) (hm : ∀ u, rs.Mem u → p.bbq.itemAdded.Mem u)
    (ht : ¬ rs.Mem t) (hr : p.reading t = some r) (hlt : r.bytesRead < r.count)
    (hseen : r.closed = true → r.seen = true)
    (h : BbqSys.remove { p.bbq with itemAdded := rs } t = .ok res) :
    PipeInv (p.afterRemove t r res) := by
  obtain ⟨x, b⟩ := res
  rcases BbqSys.remove_cases h with ⟨-, rfl, rfl⟩ | ⟨-, i, rfl, -, rfl⟩
  · refine ⟨hd.sleep ht, fun u hu => ?_⟩
    rcases Waiters.mem_sleep.mp hu with hu | rfl
    · exact I.readers u (hm u hu)
    · exact ⟨r, hr, hlt, hseen⟩
  · refine ⟨hd, fun u hu => ?_⟩
    have hne : u ≠ t := fun h => ht (h ▸ hu)
    simp only [PipeSys.afterRemove, PipeSys.setReading, Function.update_of_ne hne]
    exact I.readers u (hm u hu)

theorem insert (I : PipeInv p) {ws : Waiters (Tid × UInt8)} {w : Tid × UInt8} {res : Bool × BbqSys}
    (h : BbqSys.insert { p.bbq with itemRemoved := ws } w = .ok res)
    (hb : p'.bbq = res.2) (hr : p'.reading = p.reading) : PipeInv p' := by
  obtain ⟨d, b⟩ := res
  simp only at hb
  rcases BbqSys.insert_cases h with ⟨-, -, rfl⟩ | ⟨-, -, i, -, rfl⟩
  · refine I.frame ?_ (fun u hu => ?_) fun u _ => by rw [hr]
    · rw [hb]
      exact I.distinct
    · rw [hb] at hu
      exact hu
  · refine I.frame ?_ (fun u hu => ?_) fun u _ => by rw [hr]
    · rw [hb]
      exact I.distinct.signal
    · rw [hb] at hu
      exact Waiters.mem_signal.mp hu

theorem step (I : PipeInv p) (h : PipeStep p p') : PipeInv p' := by
  obtain ⟨op, hop, hrun⟩ := h
  have call : ∀ t r, p.bbq.Outside t → PipeInv (p.setReading t r) := by
    intro t r hout
    refine I.frame I.distinct (fun _ hu => hu) fun u hu => ?_
    have hne : u ≠ t := by
      rintro rfl
      exact hu.elim hout.1 hout.2.1
    exact Function.update_of_ne hne _ _
  cases op with
  | read t count =>
    cases hrun
    refine I.frame I.distinct (fun _ hu => hu) fun u hu => ?_
    have hne : u ≠ t := by
      rintro rfl
      obtain ⟨r, hr, -⟩ := I.readers u hu
      rw [hop.1] at hr
      cases hr
    exact Function.update_of_ne hne _ _
  | testEmpty t =>
    obtain ⟨hout, r, hr, -⟩ := hop
    simp only [PipeOp.exec, hr] at hrun
    split at hrun <;> cases hrun <;> exact call t _ hout
  | readByte t =>
    obtain ⟨hout, r, hr, hlt, hseen⟩ := hop
    simp only [PipeOp.exec, hr] at hrun
    obtain ⟨res, hres, rfl⟩ := map_ok hrun
    exact I.remove I.distinct (fun _ hu => hu) (fun hm => hm.elim hout.1 hout.2.1) hr hlt hseen hres
  | readResume t =>
    obtain ⟨r, hr, hlt, hseen⟩ := I.readers t (.inr hop)
    simp only [PipeOp.exec, hr] at hrun
    obtain ⟨res, hres, rfl⟩ := map_ok hrun
    have hmem : ∀ u, (p.bbq.itemAdded.resume t).Mem u ↔ p.bbq.itemAdded.Mem u ∧ u ≠ t :=
      fun u => I.distinct.mem_resume hop
    exact I.remove I.distinct.resume (fun u hu => ((hmem u).mp hu).1)
      (fun hm => ((hmem t).mp hm).2 rfl) hr hlt hseen hres
  | readReturn t =>
    cases hrun
    exact call t none hop.1
  | write t buffer =>
    rw [PipeOp.exec] at hrun
    split at hrun <;> cases hrun <;> exact ⟨I.distinct, I.readers⟩
  | writeByte t =>
    obtain ⟨-, w, hw, -⟩ := hop
    simp only [PipeOp.exec, hw] at hrun
    obtain ⟨res, hres, rfl⟩ := map_ok hrun
    exact I.insert hres rfl rfl
  | writeResume t b =>
    obtain ⟨res, hres, rfl⟩ := map_ok hrun
    exact I.insert hres rfl rfl
  | writeReturn t | closeRead | closeWrite =>
    cases hrun
    exact ⟨I.distinct, I.readers⟩

theorem reachable (h : p.Reachable) : PipeInv p := by
  refine Run.Reachable.invariant h (fun p h0 => ?_) fun _ _ _ I hstep => I.step hstep
  obtain ⟨⟨-, -, hadded, -⟩, -⟩ := h0
  refine ⟨hadded ▸ .empty, fun t ht => ?_⟩
  rw [hadded] at ht
  exact absurd ht Waiters.mem_empty

end PipeInv

end Steps

/-! ## One reader and one writer -/

/-- `a` reads, one byte at a time, and `b` writes.  An end is closed only while no call runs at the
other end. -/
def PipeOp.Careful (a b : Tid) (p : PipeSys) : PipeOp → Prop
  | read t count => t = a ∧ count ≤ 1
  | write t _ => t = b
  | closeRead => p.writing b = none
  | closeWrite => p.reading a = none
  | _ => True

/-- The states of all runs in which every step is careful. -/
def PipeSys.CarefulReachable (a b : Tid) (p : PipeSys) : Prop :=
  Run.Reachable PipeSys.Init (fun p p' => ∃ op : PipeOp, op.Careful a b p ∧
    op.Enabled p ∧ op.exec p = .ok p') p

section Careful

variable {a b : Tid} {p p' : PipeSys} {op : PipeOp}
    {ws : Waiters (Tid × UInt8)} {o : Option Writing}

theorem PipeSys.CarefulReachable.reachable (h : p.CarefulReachable a b) : p.Reachable :=
  Run.Reachable.map (f := id) h (fun _ h0 => h0) fun _ _ _ ⟨op, _, hop, hrun⟩ =>
    .inl ⟨op, hop, hrun⟩

/-- Nobody waits for a slot, or `b` does in its call. -/
def WaitsAlone (b : Tid) (ws : Waiters (Tid × UInt8)) (o : Option Writing) : Prop :=
  ws.asleep ++ ws.woken = [] ∨ o.isSome ∧ ∃ x, ws.asleep ++ ws.woken = [(b, x)]

theorem WaitsAlone.signal (h : WaitsAlone b ws o) : WaitsAlone b ws.signal o := by
  cases hw : ws.asleep with
  | nil => rwa [Waiters.signal_nil hw]
  | cons w rest =>
    rw [Waiters.signal_cons hw]
    rw [WaitsAlone, hw] at h
    obtain h | ⟨ho, x, h⟩ := h
    · cases h
    · rw [List.cons_append, List.cons.injEq, List.append_eq_nil_iff] at h
      obtain ⟨rfl, rfl, hwoken⟩ := h
      exact .inr ⟨ho, x, by rw [hwoken]; rfl⟩

theorem WaitsAlone.eq_nil (h : WaitsAlone b ws o) (hb : ∀ x, (b, x) ∉ ws.asleep ++ ws.woken) :
    ws.asleep ++ ws.woken = [] :=
  h.resolve_right fun ⟨_, x, hx⟩ => hb x (by rw [hx]; exact List.mem_singleton_self _)

theorem WaitsAlone.resume {t : Tid} {x : UInt8} (h : WaitsAlone b ws o) (hx : (t, x) ∈ ws.woken) :
    t = b ∧ o.isSome ∧ (ws.resume (t, x)).asleep ++ (ws.resume (t, x)).woken = [] := by
  obtain h | ⟨ho, y, h⟩ := h
  · rw [(List.append_eq_nil_iff.mp h).2] at hx
    cases hx
  · rcases List.append_eq_singleton_iff.mp h with ⟨hasleep, hwoken⟩ | ⟨-, hwoken⟩
    · rw [hwoken, List.mem_singleton] at hx
      cases hx
      exact ⟨rfl, ho, by simp [Waiters.resume, hasleep, hwoken]⟩
    · rw [hwoken] at hx
      cases hx

/-- What holds in such a run: the write end is open if the reader found it open, the buffer is not
empty if it has just found it so, and the read end is open while there is a write. -/
structure PipeCare (a b : Tid) (p : PipeSys) : Prop where
  reader : ∀ t r, p.reading t = some r → t = a
  call : ∀ r, p.reading a = some r → r.count ≤ 1 ∧ (r.closed = false → p.writeOpen = true) ∧
    (r.seen = true → p.bbq.removed.length < p.bbq.inserted.length)
  writer : ∀ t w, p.writing t = some w → t = b ∧ p.readOpen = true
  waits : WaitsAlone b p.bbq.itemRemoved (p.writing b)

namespace PipeCare

theorem setReading (I : PipeCare a b p) {q : BbqSys} {y : Option Reading}
    (hy : ∀ r, y = some r → r.count ≤ 1 ∧ (r.closed = false → p.writeOpen = true) ∧
      (r.seen = true → q.removed.length < q.inserted.length))
    (hq : WaitsAlone b q.itemRemoved (p.writing b)) :
    PipeCare a b ({ p with bbq := q }.setReading a y) := by
  refine { I with reader := fun t r h => ?_, call := fun r h => hy r ?_, waits := hq }
  · by_contra hne
    exact hne (I.reader t r ((Function.update_of_ne hne ..).symm.trans h))
  · exact (Function.update_self (β := fun _ => Option Reading) ..).symm.trans h

theorem setWriting (I : PipeCare a b p) (hopen : o.isSome → p.readOpen = true)
    (hwait : p.bbq.itemRemoved.asleep ++ p.bbq.itemRemoved.woken = [] ∨ o.isSome) :
    PipeCare a b (p.setWriting b o) := by
  refine { I with writer := fun t w h => ?_, waits := ?_ }
  · by_cases ht : t = b
    · subst ht
      have ho : o = some w := (Function.update_self (β := fun _ => Option Writing) ..).symm.trans h
      exact ⟨rfl, hopen (ho ▸ rfl)⟩
    · exact I.writer t w ((Function.update_of_ne ht ..).symm.trans h)
  · rw [PipeSys.setWriting]
    simp only [Function.update_self]
    obtain h | ⟨-, hx⟩ := I.waits
    · exact .inl h
    · exact hwait.imp id fun ho => ⟨ho, hx⟩

theorem remove (I : PipeCare a b p) {t : Tid} {rs : Waiters Tid} {r : Reading}
    {res : Option UInt8 × BbqSys} (hr : p.reading t = some r)
    (h : BbqSys.remove { p.bbq with itemAdded := rs } t = .ok res) :
    PipeCare a b (p.afterRemove t r res) := by
  obtain rfl := I.reader t r hr
  obtain ⟨x, q⟩ := res
  rcases BbqSys.remove_cases h with ⟨-, rfl, rfl⟩ | ⟨-, i, rfl, -, rfl⟩
  · exact { I with }
  · refine I.setReading (fun r' hr' => ?_) I.waits.signal
    cases hr'
    exact ⟨(I.call r hr).1, (I.call r hr).2.1, nofun⟩

theorem insert (I : PipeCare a b p) {x : UInt8} {res : Bool × BbqSys}
    (hnone : ws.asleep ++ ws.woken = []) (hw : (p.writing b).isSome)
    (h : BbqSys.insert { p.bbq with itemRemoved := ws } (b, x) = .ok res) :
    PipeCare a b { p with bbq := res.2 } := by
  obtain ⟨d, q⟩ := res
  rcases BbqSys.insert_cases h with ⟨-, -, rfl⟩ | ⟨-, -, i, -, rfl⟩
  · obtain ⟨hasleep, hwoken⟩ := List.append_eq_nil_iff.mp hnone
    exact { I with waits := .inr ⟨hw, x, by simp [Waiters.sleep, hasleep, hwoken]⟩ }
  · refine { I with call := fun r hr => ?_, waits := .inl hnone }
    obtain ⟨hcount, hclosed, hseen⟩ := I.call r hr
    exact ⟨hcount, hclosed, fun hs => (hseen hs).trans_le (by simp)⟩

theorem step (I : PipeCare a b p) (B : BbqInv p.bbq) (hcare : op.Careful a b p) (hop : op.Enabled p)
    (hrun : op.exec p = .ok p') : PipeCare a b p' := by
  have houtside : ∀ {t}, t = b → p.bbq.Outside t →
      p.bbq.itemRemoved.asleep ++ p.bbq.itemRemoved.woken = [] :=
    fun ht hout => I.waits.eq_nil fun x hx =>
      (List.mem_append.mp hx).elim (hout.2.2.1 _) (hout.2.2.2 _) ht.symm
  cases op with
  | read t count =>
    cases hrun
    obtain ⟨rfl, hcount⟩ := hcare
    refine I.setReading (fun r hr => ?_) I.waits
    cases hr
    exact ⟨hcount, by simp, fun h => by cases h⟩
  | testEmpty t =>
    obtain ⟨-, r, hr, -⟩ := hop
    obtain rfl := I.reader t r hr
    simp only [PipeOp.exec, hr] at hrun
    split at hrun
    · cases hrun
      exact I.setReading (fun _ h => by cases h) I.waits
    · rename_i hne
      cases hrun
      refine I.setReading (fun r' hr' => ?_) I.waits
      cases hr'
      refine ⟨(I.call r hr).1, (I.call r hr).2.1, fun _ => ?_⟩
      exact Nat.lt_of_le_of_ne B.le fun h => hne (B.isEmpty.mpr h.symm)
  | readByte t =>
    obtain ⟨-, r, hr, -⟩ := hop
    simp only [PipeOp.exec, hr] at hrun
    obtain ⟨res, hres, rfl⟩ := map_ok hrun
    exact I.remove hr hres
  | readResume t =>
    simp only [PipeOp.exec] at hrun
    split at hrun
    · cases hrun
      exact I
    · obtain ⟨res, hres, rfl⟩ := map_ok hrun
      exact I.remove ‹_› hres
  | readReturn t =>
    obtain ⟨-, r, hr, -⟩ := hop
    obtain rfl := I.reader t r hr
    cases hrun
    exact I.setReading (fun _ h => by cases h) I.waits
  | write t buffer =>
    obtain rfl : t = b := hcare
    rw [PipeOp.exec] at hrun
    split at hrun
    · cases hrun
      exact I.setWriting (fun _ => ‹_›) (.inr rfl)
    · cases hrun
      exact I
  | writeByte t =>
    obtain ⟨hout, w, hw, -⟩ := hop
    obtain ⟨rfl, hread⟩ := I.writer t w hw
    simp only [PipeOp.exec, hw] at hrun
    obtain ⟨res, hres, rfl⟩ := map_ok hrun
    exact (I.insert (houtside rfl hout) (by rw [hw]; rfl) hres).setWriting
      (fun _ => hread) (.inr rfl)
  | writeResume t x =>
    obtain ⟨res, hres, rfl⟩ := map_ok hrun
    obtain ⟨rfl, hw, hnone⟩ := I.waits.resume hop
    exact I.insert hnone hw hres
  | writeReturn t =>
    obtain ⟨hout, w, hw, -⟩ := hop
    obtain ⟨rfl, -⟩ := I.writer t w hw
    cases hrun
    exact I.setWriting (fun h => by cases h) (.inl (houtside rfl hout))
  | closeRead =>
    cases hrun
    refine { I with writer := fun t w hw => ?_ }
    obtain rfl := (I.writer t w hw).1
    cases hcare.symm.trans hw
  | closeWrite =>
    cases hrun
    refine { I with call := fun r hr => ?_ }
    cases hcare.symm.trans hr

theorem init (h : p.Init) : PipeCare a b p := by
  obtain ⟨⟨-, -, -, hremoved, -⟩, -, -, hr, hw⟩ := h
  refine ⟨fun t r h => ?_, fun r h => ?_, fun t w h => ?_, .inl (by rw [hremoved]; rfl)⟩
  · cases (congrFun hr t).symm.trans h
  · cases (congrFun hr a).symm.trans h
  · cases (congrFun hw t).symm.trans h

theorem reachable (h : p.CarefulReachable a b) : PipeCare a b p :=
  Run.Reachable.invariant h (fun _ => init) fun _ _ hp I ⟨_, hcare, hop, hrun⟩ =>
    I.step (BbqInv.reachable (PipeSys.CarefulReachable.reachable hp).bbq) hcare hop hrun

end PipeCare

end Careful

/-- A thread in `pipe_read` is asleep only if at most as many bytes are buffered as readers have
been signalled and not been resumed, it has bytes left to read, and it found the write end open when
the call began or the buffer not empty since.  A thread in `pipe_write` is asleep only if at most as
many slots are free as writers have been signalled and not been resumed.  With one reader, of one
byte at a time, and one writer, where an end is closed only while no call runs at the other, a
reader is asleep only if the buffer is empty, the write end is open and it has read nothing, and a
writer only if the buffer is full and the read end is open. -/
theorem pipe_asleep {p : PipeSys} (h : p.Reachable) :
    (∀ t ∈ p.bbq.itemAdded.asleep, p.bbq.q.count ≤ p.bbq.itemAdded.woken.length ∧
      ∃ r, p.reading t = some r ∧ r.bytesRead < r.count ∧ (r.closed = true → r.seen = true)) ∧
    (∀ w ∈ p.bbq.itemRemoved.asleep, maxBbqSize - p.bbq.q.count ≤ p.bbq.itemRemoved.woken.length) ∧
    ∀ a b, p.CarefulReachable a b → (∀ t ∈ p.bbq.itemAdded.asleep,
      p.bbq.q.isEmpty = true ∧ p.writeOpen = true ∧
        ∃ r, p.reading t = some r ∧ r.bytesRead = 0) ∧
      ∀ w ∈ p.bbq.itemRemoved.asleep, p.bbq.q.isFull = true ∧ p.readOpen = true := by
  have I := PipeInv.reachable h
  have B := BbqInv.reachable h.bbq
  have hle := B.le
  have hbound := B.bound
  have hread : ∀ t ∈ p.bbq.itemAdded.asleep, _ := fun t ht => B.readers (List.ne_nil_of_mem ht)
  have hwrite : ∀ w ∈ p.bbq.itemRemoved.asleep, _ := fun w hw => B.writers (List.ne_nil_of_mem hw)
  rw [B.count]
  refine ⟨fun t ht => ⟨?_, I.readers t (.inl ht)⟩, fun w hw => ?_,
    fun a b hcare => ⟨fun t ht => ?_, fun w hw => ?_⟩⟩
  · have := hread t ht
    omega
  · have := hwrite w hw
    omega
  · have C := PipeCare.reachable hcare
    have halone : ∀ u, p.bbq.itemAdded.Mem u → u = a := fun u hu => by
      obtain ⟨r, hr, -⟩ := I.readers u hu
      exact C.reader u r hr
    obtain rfl := halone t (.inl ht)
    obtain ⟨r, hr, hlt, hseen⟩ := I.readers t (.inl ht)
    obtain ⟨hone, hclosed, hbyte⟩ := C.call r hr
    have hcount := hread t ht
    rw [I.distinct.woken_eq_nil ht halone, List.length_nil] at hcount
    refine ⟨B.isEmpty.mpr (by omega), hclosed ?_, r, hr, by omega⟩
    by_contra hc
    have := hbyte (hseen (Bool.not_eq_false _ ▸ hc))
    omega
  · obtain h | ⟨hw', x, hx⟩ := (PipeCare.reachable hcare).waits
    · rw [(List.append_eq_nil_iff.mp h).1] at hw
      cases hw
    · have hcount := hwrite w hw
      have hlen := congrArg List.length hx
      have hpos := List.length_pos_of_mem hw
      rw [List.length_append, List.length_singleton] at hlen
      obtain ⟨v, hv⟩ := Option.isSome_iff_exists.mp hw'
      exact ⟨B.isFull.mpr (by omega), ((PipeCare.reachable hcare).writer b v hv).2⟩

/-- The pipe of `pipe_alloc`. -/
def newPipe : PipeSys := ⟨newBbq, true, true, fun _ => none, fun _ => none⟩

theorem newPipe_reachable : newPipe.Reachable :=
  .first ⟨newBbq_init, rfl, rfl, rfl, rfl⟩

/-- Thread 1 asks for two bytes, gets one and goes to sleep again.  Then the write end closes. -/
def partialRead : List PipeOp :=
  [.read 1 2, .readByte 1, .write 2 [7], .writeByte 2, .writeReturn 2, .readResume 1, .readByte 1,
    .closeWrite]

/-- Threads 1 and 3 ask for a byte each, and thread 2 writes one. -/
def twoReads : List PipeOp :=
  [.read 1 1, .readByte 1, .read 3 1, .readByte 3, .write 2 [7], .writeByte 2]

/-- A reader is asleep that has read a byte and whose pipe has no write end, and one is asleep with
a byte in the buffer, which another has been signalled for. -/
theorem asleep_after_close :
    (∃ p : PipeSys, p.Reachable ∧ 1 ∈ p.bbq.itemAdded.asleep ∧ p.writeOpen = false ∧
      p.reading 1 = some ⟨2, 1, false, false⟩) ∧
    ∃ p : PipeSys, p.Reachable ∧ 3 ∈ p.bbq.itemAdded.asleep ∧ p.bbq.q.count = 1 := by
  constructor
  · exact newPipe_reachable.performed partialRead (by decide +kernel)
  · exact newPipe_reachable.performed twoReads (by decide +kernel)

theorem carefulRead_reachable : ∃ p :
    PipeSys, p.CarefulReachable 1 2 ∧ p.bbq.itemAdded.asleep = [1] ∧ p.bbq.removed = [7] := by
  have h0 : newPipe.CarefulReachable 1 2 := .first ⟨newBbq_init, rfl, rfl, rfl, rfl⟩
  have h1 := h0.next ⟨.write 2 [7], rfl, by decide, rfl⟩
  have h2 := h1.next ⟨.writeByte 2, trivial, by decide, rfl⟩
  have h3 := h2.next ⟨.writeReturn 2, trivial, by decide, rfl⟩
  have h4 := h3.next ⟨.read 1 1, ⟨rfl, le_rfl⟩, by decide, rfl⟩
  have h5 := h4.next ⟨.readByte 1, trivial, by decide, rfl⟩
  have h6 := h5.next ⟨.readReturn 1, trivial, by decide, rfl⟩
  have h7 := h6.next ⟨.read 1 1, ⟨rfl, le_rfl⟩, by decide, rfl⟩
  have h8 := h7.next ⟨.readByte 1, trivial, by decide, rfl⟩
  exact ⟨_, h8, rfl, rfl⟩

/-- Thread 3 is asleep, with one byte in the buffer and one reader on its way.  In the careful run
thread 1 is asleep on an empty pipe whose write end is open. -/
theorem reads_asleep : (∃ p : PipeSys, 3 ∈ p.bbq.itemAdded.asleep ∧ p.bbq.q.count = 1 ∧
      p.bbq.q.count ≤ p.bbq.itemAdded.woken.length) ∧
    ∃ p : PipeSys, 1 ∈ p.bbq.itemAdded.asleep ∧ p.bbq.q.isEmpty = true ∧ p.writeOpen = true := by
  obtain ⟨p, h, hasleep, hcount⟩ := newPipe_reachable.performed
    (P := fun p => 3 ∈ p.bbq.itemAdded.asleep ∧ p.bbq.q.count = 1) twoReads (by decide +kernel)
  obtain ⟨q, hq, hq1, -⟩ := carefulRead_reachable
  have hmem : 1 ∈ q.bbq.itemAdded.asleep := by rw [hq1]; exact List.mem_singleton_self 1
  obtain ⟨hempty, hopen, -⟩ := ((pipe_asleep hq.reachable).2.2 1 2 hq).1 1 hmem
  exact ⟨⟨p, hasleep, hcount, ((pipe_asleep h).1 3 hasleep).1⟩, q, hmem, hempty, hopen⟩

end Osv
