import Osv.Base
import Osv.Lib.Run
import Osv.Lib.Waiters

/-!
# The bounded queue

The queue of `kernel/bbq.c`, which is the buffer of a pipe.  `front` and
`next_empty` count the bytes removed and inserted, in an `int` that wraps, and a
byte is kept at its count modulo the size.  A section between `spinlock_acquire` and
`condvar_wait` or `spinlock_release` is one step: it inserts or removes a byte and
signals the other side, or it goes to sleep.  A thread that is signalled runs its
section again when it is resumed.

The state has two histories beside the queue, the bytes inserted and the bytes
removed.  `BbqInv` ties the counters and the bytes in the buffer to the histories.
A counter that has wrapped is negative, and so is its index except at every 512th byte.
A step with a negative index traps, which ends the run.
-/

namespace Osv

open Waiters (empty)

/-- `MAX_BBQ_SIZE`. -/
def maxBbqSize : ℕ := 512

/-- The state variables of a queue. -/
structure Bbq where
  items : ℕ → UInt8
  front : Int
  nextEmpty : Int

namespace Bbq

/-- Bytes in the buffer, as the `int` difference of the counters. -/
def count (q : Bbq) : Int := wrapInt (q.nextEmpty - q.front)

/-- As `bbq_insert` tests it. -/
def isFull (q : Bbq) : Bool := q.count = maxBbqSize

/-- As `bbq_remove` tests it. -/
def isEmpty (q : Bbq) : Bool := q.front = q.nextEmpty

/-- The index of a counter, `%` of C.  A negative one is outside the array. -/
def index (c : Int) : Except Trap ℕ :=
  if 0 ≤ c.tmod maxBbqSize then .ok (c.tmod maxBbqSize).toNat else .error (.wild "q->items")

/-- Add an item. -/
def put (q : Bbq) (item : UInt8) : Except Trap Bbq := do
  let i ← index q.nextEmpty
  pure { q with items := Function.update q.items i item, nextEmpty := wrapInt (q.nextEmpty + 1) }

/-- Grab an item. -/
def take (q : Bbq) : Except Trap (UInt8 × Bbq) := do
  let i ← index q.front
  pure (q.items i, { q with front := wrapInt (q.front + 1) })

/-- The bytes in the buffer, first to last. -/
def buffered (q : Bbq) : List UInt8 :=
  (List.range q.count.toNat).map fun i => q.items ((q.front.toNat + i) % maxBbqSize)

end Bbq

/-- A queue with the threads in `bbq_insert` and `bbq_remove` that wait. -/
structure BbqSys where
  q : Bbq
  /-- Threads in `bbq_remove`. -/
  itemAdded : Waiters Tid
  /-- Threads in `bbq_insert`, each with its byte. -/
  itemRemoved : Waiters (Tid × UInt8)
  /-- The bytes inserted so far. -/
  inserted : List UInt8
  /-- The bytes removed so far. -/
  removed : List UInt8

namespace BbqSys

/-- The queue of `bbq_init`: empty counters, and any bytes. -/
def Init (s : BbqSys) : Prop :=
  s.q.front = 0 ∧ s.q.nextEmpty = 0 ∧ s.itemAdded = .empty ∧ s.itemRemoved = .empty ∧
    s.inserted = [] ∧ s.removed = []

/-- The section of `bbq_insert` for a thread and its byte.  Returns whether the thread is done. -/
def insert (s : BbqSys) (w : Tid × UInt8) : Except Trap (Bool × BbqSys) :=
  if s.q.isFull then .ok (false, { s with itemRemoved := s.itemRemoved.sleep w })
  else do
    let q ← s.q.put w.2
    pure (true, { s with q := q, itemAdded := s.itemAdded.signal, inserted := s.inserted ++ [w.2] })

/-- The section of `bbq_remove` for a thread.  Returns the byte, if the thread is done. -/
def remove (s : BbqSys) (t : Tid) : Except Trap (Option UInt8 × BbqSys) :=
  if s.q.isEmpty then .ok (none, { s with itemAdded := s.itemAdded.sleep t })
  else do
    let (item, q) ← s.q.take
    pure (some item,
      { s with q := q, itemRemoved := s.itemRemoved.signal, removed := s.removed ++ [item] })

/-- The thread is in neither call. -/
def Outside (s : BbqSys) (t : Tid) : Prop :=
  t ∉ s.itemAdded.asleep ∧ t ∉ s.itemAdded.woken ∧
    (∀ w ∈ s.itemRemoved.asleep, w.1 ≠ t) ∧ ∀ w ∈ s.itemRemoved.woken, w.1 ≠ t

instance (s : BbqSys) (t : Tid) : Decidable (s.Outside t) :=
  inferInstanceAs (Decidable (_ ∧ _ ∧ _ ∧ _))

end BbqSys

/-- A step of a thread. -/
inductive BbqOp where
  /-- A thread comes to its section in `bbq_insert`. -/
  | insert (w : Tid × UInt8)
  /-- A thread comes to its section in `bbq_remove`. -/
  | remove (t : Tid)
  /-- A signalled thread goes on in `bbq_insert`. -/
  | resumeInsert (w : Tid × UInt8)
  /-- A signalled thread goes on in `bbq_remove`. -/
  | resumeRemove (t : Tid)

namespace BbqOp

/-- When an operation can be made. -/
def Enabled (s : BbqSys) : BbqOp → Prop
  | insert w => s.Outside w.1
  | remove t => s.Outside t
  | resumeInsert w => w ∈ s.itemRemoved.woken
  | resumeRemove t => t ∈ s.itemAdded.woken

/-- What an operation does. -/
def exec (s : BbqSys) : BbqOp → Except Trap BbqSys
  | insert w => (s.insert w).map (·.2)
  | remove t => (s.remove t).map (·.2)
  | resumeInsert w =>
    (BbqSys.insert { s with itemRemoved := s.itemRemoved.resume w } w).map (·.2)
  | resumeRemove t =>
    (BbqSys.remove { s with itemAdded := s.itemAdded.resume t } t).map (·.2)

/-- The bytes that have gone the way of the section. -/
def passed (s : BbqSys) : BbqOp → ℕ
  | insert _ | resumeInsert _ => s.inserted.length
  | remove _ | resumeRemove _ => s.removed.length

/-- The counter of the section. -/
def counter (s : BbqSys) : BbqOp → Int
  | insert _ | resumeInsert _ => s.q.nextEmpty
  | remove _ | resumeRemove _ => s.q.front

/-- The section goes to sleep. -/
def sleeps (s : BbqSys) : BbqOp → Bool
  | insert _ | resumeInsert _ => s.q.isFull
  | remove _ | resumeRemove _ => s.q.isEmpty

end BbqOp

/-- One step of one thread. -/
def BbqStep (s s' : BbqSys) : Prop := ∃ op : BbqOp, op.Enabled s ∧ op.exec s = .ok s'

/-- The states of all runs of a queue. -/
def BbqSys.Reachable (s : BbqSys) : Prop := Run.Reachable BbqSys.Init BbqStep s

/-! ## Counters -/

theorem wrapInt_succ (x : Int) : wrapInt (wrapInt x + 1) = wrapInt (x + 1) := by
  rw [wrapInt, wrapInt, wrapInt, Int.bmod_add_bmod]

theorem wrapInt_sub (x y : Int) : wrapInt (wrapInt x - wrapInt y) = wrapInt (x - y) := by
  rw [wrapInt, wrapInt, wrapInt, wrapInt, Int.bmod_sub_bmod, Int.sub_bmod_bmod]

/-- What holds between the counters and the histories. -/
structure BbqInv (s : BbqSys) : Prop where
  front : s.q.front = wrapInt s.removed.length
  nextEmpty : s.q.nextEmpty = wrapInt s.inserted.length
  le : s.removed.length ≤ s.inserted.length
  bound : s.inserted.length ≤ s.removed.length + maxBbqSize
  /-- Until the counters wrap, the bytes removed came first and the others are in the buffer. -/
  fifo : s.inserted.length < 2 ^ 31 → s.removed <+: s.inserted ∧
    ∀ i, s.removed.length ≤ i → ∀ h : i < s.inserted.length,
      s.q.items (i % maxBbqSize) = s.inserted.get ⟨i, h⟩
  readers : s.itemAdded.Covers (s.inserted.length - s.removed.length)
  writers : s.itemRemoved.Covers (maxBbqSize - (s.inserted.length - s.removed.length))

namespace BbqInv

variable {s s' : BbqSys}

theorem count (I : BbqInv s) : s.q.count = s.inserted.length - s.removed.length := by
  have h1 := I.le
  have h2 := I.bound
  rw [Bbq.count, I.front, I.nextEmpty, wrapInt_sub, wrapInt_eq] <;> rw [maxBbqSize] at h2 <;> omega

theorem isFull (I : BbqInv s) :
    s.q.isFull = true ↔ s.inserted.length = s.removed.length + maxBbqSize := by
  have h1 := I.le
  rw [Bbq.isFull, I.count, decide_eq_true_eq]
  omega

theorem isEmpty (I : BbqInv s) : s.q.isEmpty = true ↔ s.inserted.length = s.removed.length := by
  have h1 := I.le
  have h2 := I.bound
  rw [Bbq.isEmpty, decide_eq_true_eq, eq_comm, ← sub_eq_zero]
  constructor
  · intro h
    have hc : s.q.count = 0 := by rw [Bbq.count, h]; rfl
    rw [I.count] at hc
    omega
  · intro h
    rw [I.front, I.nextEmpty, h, sub_self]

theorem init (h : s.Init) : BbqInv s := by
  obtain ⟨h1, h2, h3, h4, h5, h6⟩ := h
  refine ⟨?_, ?_, ?_, ?_, ?_, ?_, ?_⟩
  · rw [h1, h6]; rfl
  · rw [h2, h5]; rfl
  · rw [h5, h6]
  · simp [h5, h6]
  · intro _
    rw [h5, h6]
    exact ⟨List.nil_prefix, fun i _ h => absurd h (by simp)⟩
  · rw [h3]; exact .empty
  · rw [h4]; exact .empty

end BbqInv

/-! ## Sections -/

section Sections

variable {s s' : BbqSys}

theorem BbqSys.insert_cases {w : Tid × UInt8} {d : Bool} (h : s.insert w = .ok (d, s')) :
    (s.q.isFull = true ∧ d = false ∧ s' = { s with itemRemoved := s.itemRemoved.sleep w }) ∨
    (¬ s.q.isFull = true ∧ d = true ∧ ∃ i, Bbq.index s.q.nextEmpty = .ok i ∧
      s' = { s with
        q := { s.q with
          items := Function.update s.q.items i w.2
          nextEmpty := wrapInt (s.q.nextEmpty + 1) }
        itemAdded := s.itemAdded.signal
        inserted := s.inserted ++ [w.2] }) := by
  rw [BbqSys.insert] at h
  split at h
  · cases h
    exact .inl ⟨by assumption, rfl, rfl⟩
  · rename_i hfull
    rw [Bbq.put] at h
    cases hi : Bbq.index s.q.nextEmpty with
    | error e =>
      rw [hi] at h
      cases h
    | ok i =>
      rw [hi] at h
      cases h
      exact .inr ⟨hfull, rfl, i, rfl, rfl⟩

theorem BbqSys.remove_cases {t : Tid} {r : Option UInt8} (h : s.remove t = .ok (r, s')) :
    (s.q.isEmpty = true ∧ r = none ∧ s' = { s with itemAdded := s.itemAdded.sleep t }) ∨
    (¬ s.q.isEmpty = true ∧ ∃ i, r = some (s.q.items i) ∧ Bbq.index s.q.front = .ok i ∧
      s' = { s with
        q := { s.q with front := wrapInt (s.q.front + 1) }
        itemRemoved := s.itemRemoved.signal
        removed := s.removed ++ [s.q.items i] }) := by
  rw [BbqSys.remove] at h
  split at h
  · cases h
    exact .inl ⟨by assumption, rfl, rfl⟩
  · rename_i hempty
    rw [Bbq.take] at h
    cases hi : Bbq.index s.q.front with
    | error e =>
      rw [hi] at h
      cases h
    | ok i =>
      rw [hi] at h
      cases h
      exact .inr ⟨hempty, i, rfl, rfl, rfl⟩

theorem Bbq.index_ofNat {n : ℕ} (h : n < 2 ^ 31) :
    Bbq.index (wrapInt n) = .ok (n % maxBbqSize) := by
  rw [wrapInt_eq (by omega) (by omega), Bbq.index, ← Int.ofNat_tmod, if_pos (Int.natCast_nonneg _)]
  rfl

theorem made {α : Type} {m : Except Trap (α × BbqSys)} (h : m.map (·.2) = .ok s') :
    ∃ a, m = .ok (a, s') := by
  cases m with
  | error e => cases h
  | ok r => exact ⟨r.1, by rw [← Except.ok.inj h]⟩

theorem BbqOp.exec_made (op : BbqOp) (h : ∃ i, Bbq.index (op.counter s) = .ok i) :
    ∃ s', op.exec s = .ok s' := by
  obtain ⟨i, hi⟩ := h
  have hins : Bbq.index s.q.nextEmpty = .ok i → ∀ ws w, ∃ r, BbqSys.insert
      { s with itemRemoved := ws } w = .ok r := by
    intro hi ws w
    rw [BbqSys.insert]
    split
    · exact ⟨_, rfl⟩
    · simp only [Bbq.put, hi]
      exact ⟨_, rfl⟩
  have hrem : Bbq.index s.q.front = .ok i → ∀ rs t, ∃ r, BbqSys.remove
      { s with itemAdded := rs } t = .ok r := by
    intro hi rs t
    rw [BbqSys.remove]
    split
    · exact ⟨_, rfl⟩
    · simp only [Bbq.take, hi]
      exact ⟨_, rfl⟩
  cases op with
  | insert w =>
    obtain ⟨r, hr⟩ := hins hi s.itemRemoved w
    exact ⟨r.2, by rw [BbqOp.exec, hr]; rfl⟩
  | remove t =>
    obtain ⟨r, hr⟩ := hrem hi s.itemAdded t
    exact ⟨r.2, by rw [BbqOp.exec, hr]; rfl⟩
  | resumeInsert w =>
    obtain ⟨r, hr⟩ := hins hi (s.itemRemoved.resume w) w
    exact ⟨r.2, by rw [BbqOp.exec, hr]; rfl⟩
  | resumeRemove t =>
    obtain ⟨r, hr⟩ := hrem hi (s.itemAdded.resume t) t
    exact ⟨r.2, by rw [BbqOp.exec, hr]; rfl⟩

namespace BbqInv

/-- The section of `bbq_insert`, for a thread that comes or for one that is resumed.  In either case
one slot less needs a thread on its way. -/
theorem insert (I : BbqInv s) {ws : Waiters (Tid × UInt8)} {w : Tid × UInt8} {d : Bool}
    (hw : ws.Covers (maxBbqSize - (s.inserted.length - s.removed.length) - 1))
    (h : BbqSys.insert { s with itemRemoved := ws } w = .ok (d, s')) : BbqInv s' := by
  have hle := I.le
  have hbound := I.bound
  rcases BbqSys.insert_cases h with ⟨hfull, -, rfl⟩ | ⟨hfull, -, i, hi, rfl⟩
  · have hn := I.isFull.mp hfull
    refine ⟨I.front, I.nextEmpty, I.le, I.bound, I.fifo, I.readers, ?_⟩
    have h0 : maxBbqSize - (s.inserted.length - s.removed.length) = 0 := by omega
    dsimp only
    rw [h0]
    exact .none _
  · have hn : s.inserted.length < s.removed.length + maxBbqSize :=
      lt_of_le_of_ne hbound fun h => hfull (I.isFull.mpr h)
    refine ⟨I.front, ?_, ?_, ?_, ?_, ?_, ?_⟩ <;>
      simp only [List.length_append, List.length_singleton]
    · rw [I.nextEmpty, wrapInt_succ]
      rfl
    · omega
    · omega
    · intro hlt
      obtain ⟨hpre, hitems⟩ := I.fifo (by omega)
      simp only [I.nextEmpty, Bbq.index_ofNat (show s.inserted.length < 2 ^ 31 by omega)] at hi
      obtain rfl := Except.ok.inj hi
      refine ⟨hpre.trans (List.prefix_append _ _), fun j hj hjlt => ?_⟩
      by_cases hjn : j = s.inserted.length
      · subst hjn
        simp
      · have hjlt' : j < s.inserted.length := by omega
        have hne : j % maxBbqSize ≠ s.inserted.length % maxBbqSize := by
          rw [maxBbqSize] at hn ⊢
          omega
        rw [Function.update_of_ne hne, hitems j hj hjlt', List.get_eq_getElem, List.get_eq_getElem,
          List.getElem_append_left hjlt']
    · have hsucc : s.inserted.length + 1 - s.removed.length =
          s.inserted.length - s.removed.length + 1 := by omega
      rw [hsucc]
      exact I.readers.signal
    · have hpred : maxBbqSize - (s.inserted.length + 1 - s.removed.length) =
          maxBbqSize - (s.inserted.length - s.removed.length) - 1 := by omega
      rw [hpred]
      exact hw

theorem remove (I : BbqInv s) {rs : Waiters Tid} {t : Tid} {r : Option UInt8}
    (hr : rs.Covers (s.inserted.length - s.removed.length - 1))
    (h : BbqSys.remove { s with itemAdded := rs } t = .ok (r, s')) : BbqInv s' := by
  have hle := I.le
  have hbound := I.bound
  rcases BbqSys.remove_cases h with ⟨hempty, -, rfl⟩ | ⟨hempty, i, -, hi, rfl⟩
  · have hn := I.isEmpty.mp hempty
    refine ⟨I.front, I.nextEmpty, I.le, I.bound, I.fifo, ?_, I.writers⟩
    dsimp only
    rw [hn, Nat.sub_self]
    exact .none _
  · have hn : s.removed.length < s.inserted.length :=
      lt_of_le_of_ne hle fun h => hempty (I.isEmpty.mpr h.symm)
    refine ⟨?_, I.nextEmpty, ?_, ?_, ?_, ?_, ?_⟩ <;>
      simp only [List.length_append, List.length_singleton]
    · rw [I.front, wrapInt_succ]
      rfl
    · omega
    · omega
    · intro hlt
      obtain ⟨hpre, hitems⟩ := I.fifo hlt
      simp only [I.front, Bbq.index_ofNat (show s.removed.length < 2 ^ 31 by omega)] at hi
      obtain rfl := Except.ok.inj hi
      refine ⟨?_, fun j hj hjlt => hitems j (by omega) hjlt⟩
      obtain ⟨rest, hrest⟩ := hpre
      cases rest with
      | nil =>
        rw [← hrest, List.append_nil] at hn
        exact absurd hn (lt_irrefl _)
      | cons b rest =>
        have hb : s.q.items (s.removed.length % maxBbqSize) = b := by
          rw [hitems s.removed.length le_rfl hn]
          simp [← hrest]
        refine ⟨rest, ?_⟩
        rw [hb, List.append_assoc, List.singleton_append, hrest]
    · have hpred : s.inserted.length - (s.removed.length + 1) =
          s.inserted.length - s.removed.length - 1 := by omega
      rw [hpred]
      exact hr
    · have hsucc : maxBbqSize - (s.inserted.length - (s.removed.length + 1)) =
          maxBbqSize - (s.inserted.length - s.removed.length) + 1 := by omega
      rw [hsucc]
      exact I.writers.signal

/-- Every step keeps the invariant. -/
theorem step (I : BbqInv s) (h : BbqStep s s') : BbqInv s' := by
  obtain ⟨op, hop, hrun⟩ := h
  cases op with
  | insert w =>
    obtain ⟨d, hrun⟩ := made hrun
    exact I.insert (I.writers.mono (Nat.sub_le _ 1)) hrun
  | remove t =>
    obtain ⟨r, hrun⟩ := made hrun
    exact I.remove (I.readers.mono (Nat.sub_le _ 1)) hrun
  | resumeInsert w =>
    obtain ⟨d, hrun⟩ := made hrun
    exact I.insert (I.writers.resume hop) hrun
  | resumeRemove t =>
    obtain ⟨r, hrun⟩ := made hrun
    exact I.remove (I.readers.resume hop) hrun

theorem counter (I : BbqInv s) (op : BbqOp) : op.counter s = wrapInt (op.passed s) := by
  cases op <;> first | exact I.nextEmpty | exact I.front

theorem reachable (h : s.Reachable) : BbqInv s :=
  Run.Reachable.invariant h (fun _ => init) fun _ _ _ I hstep => I.step hstep

theorem buffered (I : BbqInv s) (hlt : s.inserted.length < 2 ^ 31) :
    s.inserted = s.removed ++ s.q.buffered := by
  have hle := I.le
  obtain ⟨⟨rest, hrest⟩, hitems⟩ := I.fifo hlt
  have hlen : s.inserted.length = s.removed.length + rest.length := by
    rw [← hrest, List.length_append]
  have hcount : s.q.count.toNat = rest.length := by
    rw [I.count]
    omega
  have hfront : s.q.front.toNat = s.removed.length := by
    rw [I.front, wrapInt_eq (by omega) (by omega)]
    rfl
  have hbuf : s.q.buffered = rest := by
    rw [Bbq.buffered, hcount, hfront]
    refine List.ext_getElem (by simp) fun i hi1 hi2 => ?_
    have hi : s.removed.length + i < s.inserted.length := by omega
    rw [List.getElem_map, List.getElem_range, hitems _ (Nat.le_add_right _ _) hi]
    simp [← hrest]
  rw [hbuf, hrest]

end BbqInv

end Sections

/-! ## First in, first out -/

/-- As long as fewer than `2 ^ 31` bytes have been inserted, the counters are at most the size
apart, the bytes removed and then those in the buffer are the bytes inserted, and every step of
every thread is made. -/
theorem bbq_fifo {s : BbqSys} (h : s.Reachable) (hlt : s.inserted.length < 2 ^ 31) :
    (0 ≤ s.q.nextEmpty - s.q.front ∧ s.q.nextEmpty - s.q.front ≤ maxBbqSize) ∧
      s.inserted = s.removed ++ s.q.buffered ∧ ∀ op :
        BbqOp, op.Enabled s → ∃ s', op.exec s = .ok s' := by
  have I := BbqInv.reachable h
  have hle := I.le
  have hbound := I.bound
  refine ⟨?_, I.buffered hlt, fun op _ => op.exec_made ?_⟩
  · rw [I.front, I.nextEmpty, wrapInt_eq (by omega) (by omega), wrapInt_eq (by omega) (by omega)]
    omega
  · have hle' : op.passed s ≤ s.inserted.length := by cases op <;> first | exact le_rfl | exact hle
    exact ⟨_, by rw [I.counter, Bbq.index_ofNat (by omega)]⟩

/-- The queue of `bbq_init`. -/
def newBbq : BbqSys := ⟨⟨fun _ => 0x2b, 0, 0⟩, .empty, .empty, [], []⟩

theorem newBbq_init : newBbq.Init := ⟨rfl, rfl, rfl, rfl, rfl, rfl⟩

/-- No thread waits at the queue. -/
def openBbq (items : ℕ → UInt8) (front nextEmpty : Int) (inserted removed : List UInt8) : BbqSys :=
  ⟨⟨items, front, nextEmpty⟩, .empty, .empty, inserted, removed⟩

theorem openBbq_outside {items : ℕ → UInt8} {front nextEmpty : Int} {inserted removed : List UInt8}
    (t : Tid) : (openBbq items front nextEmpty inserted removed).Outside t := by
  simp [BbqSys.Outside, openBbq, empty]

/-- Thread 1 has inserted two bytes, and thread 2 has removed one. -/
def oneLeft : BbqSys := openBbq (Function.update (Function.update (fun _ => 0x2b) 0 7) 1 8) 1 2
    [7, 8] [7]

theorem oneLeft_reachable : oneLeft.Reachable := by
  have h0 : (openBbq (fun _ => 0x2b) 0 0 [] []).Reachable := .first newBbq_init
  have h1 : (openBbq (Function.update (fun _ => 0x2b) 0 7) 0 1 [7] []).Reachable :=
    h0.next ⟨.insert (1, 7), openBbq_outside 1, rfl⟩
  have h2 : (openBbq oneLeft.q.items 0 2 [7, 8] []).Reachable :=
      h1.next ⟨.insert (1, 8), openBbq_outside 1, rfl⟩
  exact h2.next ⟨.remove 2, openBbq_outside 2, rfl⟩

/-- The other byte is in the buffer, and the next removal is made. -/
theorem oneLeft_fifo : oneLeft.q.buffered = [8] ∧ ∃ s', (BbqOp.remove 2).exec oneLeft = .ok s' := by
  obtain ⟨-, hbytes, hsteps⟩ := bbq_fifo oneLeft_reachable (by decide)
  have hrest : [8] = oneLeft.q.buffered := 
    List.append_cancel_left (show [7] ++ [8] = [7] ++ oneLeft.q.buffered from hbytes)
  exact ⟨hrest.symm, hsteps (.remove 2) (openBbq_outside 2)⟩

/-! ## No lost wakeups -/

/-- If a reader is asleep, at most as many bytes are buffered as readers have been signalled and not
been resumed, and if a writer is asleep, the same holds of the free slots and the writers. -/
theorem bbq_no_lost_wakeup {s : BbqSys} (h : s.Reachable) :
    (s.itemAdded.asleep ≠ [] → s.q.count ≤ s.itemAdded.woken.length) ∧
      (s.itemRemoved.asleep ≠ [] → maxBbqSize - s.q.count ≤ s.itemRemoved.woken.length) := by
  have I := BbqInv.reachable h
  have hle := I.le
  rw [I.count]
  constructor
  · intro hs
    have := I.readers hs
    omega
  · intro hs
    have := I.writers hs
    omega

/-- Threads 2 and 3 wait for a byte. -/
def twoReaders (asleep woken : List Tid) : BbqSys :=
  ⟨⟨fun _ => 0x2b, 0, 0⟩, ⟨asleep, woken⟩, .empty, [], []⟩

/-- Thread 1 has inserted one, and thread 2 has been signalled. -/
def oneSignalled : BbqSys :=
  ⟨⟨Function.update (fun _ => 0x2b) 0 7, 0, 1⟩, ⟨[3], [2]⟩, .empty, [7], []⟩

theorem oneSignalled_reachable : oneSignalled.Reachable := by
  have h0 : (twoReaders [] []).Reachable := Run.Reachable.first newBbq_init
  have h1 : (twoReaders [2] []).Reachable := h0.next ⟨.remove 2, by
    simp [BbqOp.Enabled, BbqSys.Outside, twoReaders, empty], rfl⟩
  have h2 : (twoReaders [2, 3] []).Reachable := h1.next ⟨.remove 3, by
    simp [BbqOp.Enabled, BbqSys.Outside, twoReaders, empty], rfl⟩
  exact h2.next ⟨.insert (1, 7), by
    simp [BbqOp.Enabled, BbqSys.Outside, twoReaders, empty], rfl⟩

/-- Thread 3 is asleep with a byte in the buffer, and thread 2 is on its way. -/
theorem oneSignalled_covered : oneSignalled.itemAdded.asleep = [3] ∧
    oneSignalled.q.count ≤ oneSignalled.itemAdded.woken.length :=
  ⟨rfl, (bbq_no_lost_wakeup oneSignalled_reachable).1 (by decide)⟩

/-! ## The index for ever -/

theorem wrapInt_tmod (n : ℕ) :
    0 ≤ (wrapInt n).tmod maxBbqSize ∧ (wrapInt n).tmod maxBbqSize < maxBbqSize ↔
    n % 2 ^ 32 < 2 ^ 31 ∨ n % maxBbqSize = 0 := by
  have hn : wrapInt n = if n % 2 ^ 32 < 2 ^ 31 then ((n % 2 ^ 32 : ℕ) : Int) else
      (n % 2 ^ 32 : ℕ) - 2 ^ 32 := by
    rw [wrapInt, Int.bmod]
    split <;> split <;> omega
  have hlt := Int.tmod_lt_of_pos (wrapInt n) (show (0 : Int) < maxBbqSize by decide)
  rw [and_iff_left hlt, hn]
  unfold maxBbqSize
  split
  · rw [← Int.ofNat_tmod]
    omega
  · rw [Int.tmod_eq_emod]
    split
    · omega
    · have habs : ((512 : ℕ) : Int).natAbs = 512 := rfl
      rw [habs]
      omega

/-- The index that a section uses is in the array as long as its counter has not become negative,
and at every 512th byte. -/
theorem bbq_index_iff {s : BbqSys} (h : s.Reachable) (op : BbqOp) :
    (op.sleeps s = false → 0 ≤ (op.counter s).tmod maxBbqSize ∧
    (op.counter s).tmod maxBbqSize < maxBbqSize) ↔
      op.sleeps s = true ∨ op.passed s % 2 ^ 32 < 2 ^ 31 ∨ op.passed s % maxBbqSize = 0 := by
  rw [(BbqInv.reachable h).counter, wrapInt_tmod]
  cases op.sleeps s <;> simp

/-- The index of the second byte, which is removed next. -/
theorem oneLeft_index : 0 ≤ ((BbqOp.remove 2).counter oneLeft).tmod maxBbqSize ∧
    ((BbqOp.remove 2).counter oneLeft).tmod maxBbqSize < maxBbqSize :=
  (bbq_index_iff oneLeft_reachable (.remove 2)).mpr (.inr (.inl (by decide))) (by decide)

/-- Nobody waits, and `k` bytes have gone in and out. -/
structure BbqSys.Idle (s : BbqSys) (k : ℕ) : Prop where
  reachable : s.Reachable
  added : s.itemAdded = .empty
  removed : s.itemRemoved = .empty
  inserted_length : s.inserted.length = k
  removed_length : s.removed.length = k

theorem BbqSys.Idle.pass {s : BbqSys} {k : ℕ} (h : s.Idle k)
    (hk : k % 2 ^ 32 < 2 ^ 31 ∨ k % maxBbqSize = 0) : ∃ s' : BbqSys, s'.Idle (k + 1) := by
  have I := BbqInv.reachable h.reachable
  have hidx : ∃ i, Bbq.index (wrapInt k) = .ok i := ⟨_, if_pos ((wrapInt_tmod k).mpr hk).1⟩
  obtain ⟨s1, hs1⟩ := (BbqOp.insert (1, 0)).exec_made (s := s)
      (by rwa [I.counter, BbqOp.passed, h.inserted_length])
  have h1 := h.reachable.next ⟨_, by simp [BbqOp.Enabled, BbqSys.Outside, h.added,
      h.removed, empty], hs1⟩
  have I1 := BbqInv.reachable h1
  obtain ⟨_, hs1⟩ := made hs1
  rcases BbqSys.insert_cases hs1 with ⟨hfull, -⟩ | ⟨-, -, i, hi, rfl⟩
  · have := I.isFull.mp hfull
    simp [h.inserted_length, h.removed_length, maxBbqSize] at this
  obtain ⟨s2, hs2⟩ := (BbqOp.remove 1).exec_made
      (by rwa [I1.counter, BbqOp.passed, h.removed_length])
  have h2 := h1.next ⟨_, by simp [BbqOp.Enabled, BbqSys.Outside, h.added, h.removed,
      empty, Waiters.signal], hs2⟩
  obtain ⟨_, hs2⟩ := made hs2
  rcases BbqSys.remove_cases hs2 with ⟨hempty, -⟩ | ⟨-, j, -, hj, rfl⟩
  · have := I1.isEmpty.mp hempty
    simp [h.inserted_length, h.removed_length] at this
  exact ⟨_, h2, by rw [h.added]; rfl, by rw [h.removed]; rfl, by simp [h.inserted_length],
    by simp [h.removed_length]⟩

/-- After `2 ^ 31 + 1` bytes the index of the next one is -511. -/
theorem bbq_index_negative : ∃ s : BbqSys, s.Reachable ∧ ∃ op :
    BbqOp, op.Enabled s ∧ op.sleeps s = false ∧
    (op.counter s).tmod maxBbqSize = -511 := by
  have hrun : ∀ k ≤ 2 ^ 31 + 1, ∃ s : BbqSys, s.Idle k := by
    intro k
    induction k with
    | zero => exact fun _ => ⟨newBbq, .first newBbq_init, rfl, rfl, rfl, rfl⟩
    | succ k ih =>
      intro hk
      obtain ⟨s, hs⟩ := ih (by omega)
      exact hs.pass (by unfold maxBbqSize; omega)
  obtain ⟨s, hs⟩ := hrun _ le_rfl
  have I := BbqInv.reachable hs.reachable
  refine ⟨s, hs.reachable, .insert (1, 0), ?_, ?_, ?_⟩
  · simp [BbqOp.Enabled, BbqSys.Outside, hs.added, hs.removed, Waiters.empty]
  · rw [BbqOp.sleeps, Bool.eq_false_iff]
    intro hfull
    have := I.isFull.mp hfull
    simp [hs.inserted_length, hs.removed_length, maxBbqSize] at this
  · rw [I.counter, BbqOp.passed, hs.inserted_length]
    decide

end Osv
