import Osv.Base
import Osv.Lib.Ring
import Osv.Lib.Run
import Osv.Lib.Waiters

/-!
# The console

The line discipline of `kernel/console.c`.  The input buffer is circular, with three 32-bit
counters that wrap: up to `r` the bytes have been read, from `r` to `w` they are
committed, and from `w` to `e` they can still be edited.  `console_storec` runs in an
interrupt with the lock held, and `console_read` holds the lock except while it
waits, so a step of the console is a character stored, or the part of a read up to
its end or its next wait.

`LineEditor` is what the buffer is for, without counters: the bytes read, the bytes
ready to be read and the line that is being edited.  `InputRep` says that a buffer
represents an editor, and every step of the console is a step of the editor with
the same label.
-/

namespace Osv

/-- `C(x)`: the character that control and a letter give. -/
def ctrl (x : Char) : UInt8 := x.toUInt8 - '@'.toUInt8

/-- Newline. -/
def newline : UInt8 := '\n'.toUInt8

/-- `BUF_LEN`. -/
def bufLen : UInt32 := 256

/-- The input buffer with its read, write and edit index. -/
structure Input where
  buf : ℕ → UInt8
  r : UInt32
  w : UInt32
  e : UInt32

/-- What `console_putc` is called with. -/
inductive Echo where
  | backspace
  | char (c : UInt8)
deriving DecidableEq, Repr

/-- A call of `console_read` between two sections: the bytes it has delivered, `size - n`, and how
many it may still deliver, `n`. -/
structure Reader where
  tid : Tid
  got : ℕ
  n : ℕ
deriving DecidableEq, Repr

/-- The console: its buffer, what it has echoed, and the readers that wait on `read_cv`. -/
structure Console where
  input : Input
  echoed : List Echo
  readCv : Waiters Reader

/-- The byte at a counter. -/
def Input.at (i : Input) (c : UInt32) : UInt8 := i.buf (c % bufLen).toNat

/-! ## Storing a character -/

/-- The loop of `C('U')` over at most `n` characters.  Returns how many it has taken back. -/
def killLoop : (n : ℕ) → Input → ℕ × Input
  | 0, i => (0, i)
  | n + 1, i =>
    if i.e ≠ i.w ∧ i.at (i.e - 1) ≠ newline then
      let (k, i) := killLoop n { i with e := i.e - 1 }
      (k + 1, i)
    else (0, i)

/-- Put a character at the edit index, and commit the line if that ends it or fills the buffer. -/
def Input.put (i : Input) (c : UInt8) : Input :=
  let i := { i with buf := Function.update i.buf (i.e % bufLen).toNat c, e := i.e + 1 }
  if c = newline ∨ c = ctrl 'D' ∨ i.e = i.r + bufLen then { i with w := i.e } else i

/-- `console_storec`: a character arrives. -/
def Console.storec (s : Console) (c : UInt8) : Console :=
  if c = ctrl 'U' then
    let (k, i) := killLoop (s.input.e - s.input.w).toNat s.input
    { s with input := i, echoed := s.echoed ++ List.replicate k .backspace }
  else if c = ctrl 'H' ∨ c = 0x7f then
    if s.input.e ≠ s.input.w then
      { s with input := { s.input with e := s.input.e - 1 }, echoed := s.echoed ++ [.backspace] }
    else s
  else if c ≠ 0 ∧ s.input.e - s.input.r < bufLen then
    let c := if c = '\r'.toUInt8 then newline else c
    { s with
      input := s.input.put c
      echoed := s.echoed ++ [.char c]
      readCv := s.readCv.signal }
  else s

/-! ## Reading -/

/-- How a section of `console_read` ends. -/
inductive ReadEnd where
  | waits
  | returns
deriving DecidableEq, Repr

/-- The loop of `console_read`, for a reader that has delivered `got` bytes and may deliver `n`
more. Returns the bytes it delivers and how it ends. -/
def consoleReadLoop : (got n : ℕ) → Input → List UInt8 × ReadEnd × Input
  | _, 0, i => ([], .returns, i)
  | got, n + 1, i =>
    if i.r = i.w then ([], .waits, i)
    else
      let c := i.at i.r
      let next := { i with r := i.r + 1 }
      if c = ctrl 'D' then
        -- `n < size`: saved for the next call, which then returns 0
        ([], .returns, if 0 < got then { next with r := next.r - 1 } else next)
      else if c = newline then ([c], .returns, next)
      else
        let (bs, fin, i) := consoleReadLoop (got + 1) n next
        (c :: bs, fin, i)

/-- What a step shows: a character stored, or a section of a read with the bytes it delivered. -/
inductive ConsoleEvent where
  | typed (c : UInt8)
  | read (got n : ℕ) (bytes : List UInt8) (fin : ReadEnd)
deriving DecidableEq, Repr

/-- A section of a read. -/
def Console.read (s : Console) (t : Reader) : ConsoleEvent × Console :=
  let (bs, fin, i) := consoleReadLoop t.got t.n s.input
  let s := { s with input := i }
  (.read t.got t.n bs fin, match fin with
    | .waits => { s with readCv := s.readCv.sleep ⟨t.tid, t.got + bs.length, t.n - bs.length⟩ }
    | .returns => s)

/-- The console at boot. -/
def Console.Init (s : Console) : Prop :=
  s.input.r = 0 ∧ s.input.w = 0 ∧ s.input.e = 0 ∧ s.readCv = .empty

/-- A step of the console. -/
inductive ConsoleOp where
  /-- A character comes in. -/
  | storec (c : UInt8)
  /-- A thread calls `console_read` for `size` bytes. -/
  | read (t : Tid) (size : ℕ)
  /-- A signalled reader goes on. -/
  | resume (t : Reader)

/-- A thread calls `console_read` when it is in no other call of it. -/
def ConsoleOp.Enabled (s : Console) : ConsoleOp → Prop
  | storec _ => True
  | read t _ => ∀ u ∈ s.readCv.asleep ++ s.readCv.woken, u.tid ≠ t
  | resume t => t ∈ s.readCv.woken

/-- What an operation does, and shows. -/
def ConsoleOp.exec (s : Console) : ConsoleOp → ConsoleEvent × Console
  | storec c => (.typed c, s.storec c)
  | read t size => s.read ⟨t, 0, size⟩
  | resume t => Console.read { s with readCv := s.readCv.resume t } t

/-- A step of the console. -/
def ConsoleStep (s : Console) (ev : ConsoleEvent) (s' : Console) : Prop :=
  ∃ op : ConsoleOp, op.Enabled s ∧ op.exec s = (ev, s')

/-- A run of the console that leaves the events. -/
def Console.Run (tr : List ConsoleEvent) (s : Console) : Prop :=
  Run.Traces Console.Init ConsoleStep tr s

/-! ## The line editor -/

/-- A line editor with a queue of committed bytes. -/
structure LineEditor where
  /-- Committed and read. -/
  done : List UInt8
  /-- Committed and not read yet. -/
  ready : List UInt8
  /-- Not committed yet. -/
  line : List UInt8
deriving DecidableEq, Repr

namespace LineEditor

/-- The most characters that are ready or in the line. -/
def room : ℕ := 256

/-- A character ends the line and commits it. -/
def commits (c : UInt8) : Prop := c = newline ∨ c = ctrl 'D'

instance (c : UInt8) : Decidable (commits c) := inferInstanceAs (Decidable (_ ∨ _))

/-- Add a character to the line, and commit the line if that ends it or nothing more fits. -/
def add (a : LineEditor) (c : UInt8) : LineEditor :=
  if commits c ∨ a.ready.length + a.line.length + 1 = room then
    { a with ready := a.ready ++ (a.line ++ [c]), line := [] }
  else { a with line := a.line ++ [c] }

/-- A key: kill the line, take the last character back, or add one. -/
def key (a : LineEditor) (c : UInt8) : LineEditor :=
  if c = ctrl 'U' then { a with line := [] }
  else if c = ctrl 'H' ∨ c = 0x7f then { a with line := a.line.dropLast }
  else if c ≠ 0 ∧ a.ready.length + a.line.length < room then
    a.add (if c = '\r'.toUInt8 then newline else c)
  else a

/-- A section of a read that has delivered `got` bytes and may deliver `n` more: what it delivers,
how it ends, and the editor after it. -/
inductive Section (got n : ℕ) (a : LineEditor) : List UInt8 → ReadEnd → LineEditor → Prop
  /-- All that was asked for. -/
  | full {bs rest : List UInt8} : a.ready = bs ++ rest → (∀ b ∈ bs, ¬ commits b) → bs.length = n →
      Section got n a bs .returns { a with done := a.done ++ bs, ready := rest }
  /-- Up to the end of a line. -/
  | line {bs rest : List UInt8} : a.ready = bs ++ newline :: rest → (∀ b ∈ bs, ¬ commits b) →
      bs.length < n → Section got n a (bs ++ [newline]) .returns
        { a with done := a.done ++ (bs ++ [newline]), ready := rest }
  /-- Control-D after some bytes: it ends the read and stays. -/
  | stop {bs rest : List UInt8} : a.ready = bs ++ ctrl 'D' :: rest → (∀ b ∈ bs, ¬ commits b) →
      bs.length < n → 0 < got + bs.length →
      Section got n a bs .returns { a with done := a.done ++ bs, ready := ctrl 'D' :: rest }
  /-- Control-D before any byte: the read returns 0 and takes it away. -/
  | eof {rest : List UInt8} : a.ready = ctrl 'D' :: rest → 0 < n → got = 0 →
      Section got n a [] .returns { a with done := a.done ++ [ctrl 'D'], ready := rest }
  /-- All that is ready, and more is asked for. -/
  | dry {bs : List UInt8} : a.ready = bs → (∀ b ∈ bs, ¬ commits b) → bs.length < n →
      Section got n a bs .waits { a with done := a.done ++ bs, ready := [] }

/-- A step of the editor. -/
def Step (a : LineEditor) : ConsoleEvent → LineEditor → Prop
  | .typed c, a' => a' = a.key c
  | .read got n bs fin, a' => Section got n a bs fin a'

/-- A run of the editor that leaves the events. -/
def Run (tr : List ConsoleEvent) (a : LineEditor) : Prop :=
  Run.Traces (fun a => a = ⟨[], [], []⟩) Step tr a

end LineEditor

open LineEditor (room)

/-! ## The buffer represents an editor -/

/-- A buffer holds the ready bytes from `r` to `w` and the line from `w` to `e`. -/
structure InputRep (i : Input) (a : LineEditor) : Prop where
  w : i.w.toNat = (i.r.toNat + a.ready.length) % 2 ^ 32
  e : i.e.toNat = (i.r.toNat + (a.ready.length + a.line.length)) % 2 ^ 32
  fits : a.ready.length + a.line.length ≤ LineEditor.room
  bytes : Ring.window i.buf LineEditor.room i.r.toNat (a.ready.length + a.line.length) =
    a.ready ++ a.line
  /-- A line that is being edited has no character that would have committed it. -/
  line : ∀ c ∈ a.line, ¬ LineEditor.commits c

theorem Input.at_eq (i : Input) (c : UInt32) : i.at c = i.buf (c.toNat % room) := by
  rw [Input.at, UInt32.toNat_mod]
  rfl

namespace InputRep

variable {i : Input} {a : LineEditor}

section

variable (I : InputRep i a)

include I

theorem lt_word : a.ready.length + a.line.length < 2 ^ 32 :=
  lt_of_le_of_lt I.fits (by decide)

theorem pending : (i.e - i.r).toNat = a.ready.length + a.line.length := by
  have h1 := I.lt_word
  have h2 := i.r.toNat_lt
  rw [UInt32.toNat_sub, I.e]
  omega

theorem committed : (i.w - i.r).toNat = a.ready.length := by
  have h1 := I.lt_word
  have h2 := i.r.toNat_lt
  rw [UInt32.toNat_sub, I.w]
  omega

theorem edited : (i.e - i.w).toNat = a.line.length := by
  have h1 := I.lt_word
  have h2 := i.r.toNat_lt
  rw [UInt32.toNat_sub, I.e, I.w]
  omega

theorem e_eq_w : i.e = i.w ↔ a.line = [] := by
  have h1 := I.lt_word
  have h2 := i.r.toNat_lt
  rw [← UInt32.toNat_inj, I.e, I.w, ← List.length_eq_zero_iff]
  omega

theorem r_eq_w : i.r = i.w ↔ a.ready = [] := by
  have h1 := I.lt_word
  have h2 := i.r.toNat_lt
  rw [← UInt32.toNat_inj, I.w, ← List.length_eq_zero_iff]
  omega

/-! ### Editing -/

/-- The character before the edit index is the last of the line, and moving the index back takes it
away. -/
theorem back {l : List UInt8} {c : UInt8} (hl : a.line = l ++ [c]) :
    i.at (i.e - 1) = c ∧ InputRep { i with e := i.e - 1 } { a with line := l } := by
  have hlen : a.line.length = l.length + 1 := by rw [hl, List.length_append, List.length_singleton]
  have hlt := I.lt_word
  have hr := i.r.toNat_lt
  have he : (i.e - 1).toNat = (i.r.toNat + (a.ready.length + l.length)) % 2 ^ 32 := by
    rw [UInt32.toNat_sub, I.e, UInt32.toNat_one]
    omega
  have hb := I.bytes
  rw [hlen, ← Nat.add_assoc, Ring.window_succ, hl, ← List.append_assoc] at hb
  obtain ⟨hwin, hlast⟩ := List.append_inj' hb rfl
  refine ⟨?_, I.w, he, ?_, hwin, ?_⟩
  · rw [Input.at_eq, he, ← List.singleton_inj.mp hlast]
    congr 1
    rw [room]
    omega
  · have := I.fits
    dsimp only
    omega
  · exact fun b hb => I.line b (by rw [hl]; exact List.mem_append_left _ hb)

theorem killLoop {n : ℕ} (hn : a.line.length = n) :
    InputRep (killLoop n i).2 { a with line := [] } := by
  induction n generalizing i a with
  | zero =>
    have hnil : a.line = [] := List.eq_nil_of_length_eq_zero hn
    rw [Osv.killLoop, ← hnil]
    exact I
  | succ n ih =>
    have hne : a.line ≠ [] := List.ne_nil_of_length_eq_add_one hn
    have hl : a.line = a.line.dropLast ++ [a.line.getLast hne] :=
      (List.dropLast_append_getLast hne).symm
    obtain ⟨hat, I'⟩ := I.back hl
    have hnl : i.at (i.e - 1) ≠ newline := by
      rw [hat]
      exact fun h => I.line _ (List.getLast_mem hne) (.inl h)
    rw [Osv.killLoop, if_pos ⟨mt I.e_eq_w.mp hne, hnl⟩]
    exact ih (a := { a with line := a.line.dropLast }) I' (by rw [List.length_dropLast, hn]; rfl)

theorem append (hroom : a.ready.length + a.line.length < room) (c : UInt8) :
    (i.e + 1).toNat = (i.r.toNat + (a.ready.length + a.line.length + 1)) % 2 ^ 32 ∧
      Ring.window (Function.update i.buf (i.e % bufLen).toNat c) room i.r.toNat
        (a.ready.length + a.line.length + 1) = a.ready ++ (a.line ++ [c]) := by
  have he := I.e
  constructor
  · rw [UInt32.toNat_add, he, UInt32.toNat_one]
    omega
  · have hidx : (i.e % bufLen).toNat =
        (i.r.toNat + (a.ready.length + a.line.length)) % room := by
      rw [UInt32.toNat_mod, he, room]
      exact Nat.mod_mod_of_dvd _ (by decide)
    rw [hidx, Ring.window_write hroom, I.bytes, List.append_assoc]

theorem put (hroom : a.ready.length + a.line.length < room) (c : UInt8) :
    InputRep (i.put c) (a.add c) := by
  obtain ⟨he, hbytes⟩ := I.append hroom c
  have hr := i.r.toNat_lt
  have hfull : i.e + 1 = i.r + bufLen ↔ a.ready.length + a.line.length + 1 = room := by
    rw [← UInt32.toNat_inj, he, UInt32.toNat_add]
    have h256 : bufLen.toNat = room := rfl
    rw [h256]
    rw [room] at hroom ⊢
    omega
  rw [Input.put, LineEditor.add]
  dsimp only
  by_cases hc : LineEditor.commits c ∨ a.ready.length + a.line.length + 1 = room
  · have hc' : c = newline ∨ c = ctrl 'D' ∨ i.e + 1 = i.r + bufLen := by
      rw [hfull, ← or_assoc]
      exact hc
    rw [if_pos hc, if_pos hc']
    have hlen : (a.ready ++ (a.line ++ [c])).length = a.ready.length + a.line.length + 1 := by
      simp only [List.length_append, List.length_singleton, Nat.add_assoc]
    refine ⟨?_, ?_, ?_, ?_, fun b hb => absurd hb (by simp)⟩ <;>
      simp only [hlen, List.length_nil, Nat.add_zero, List.append_nil]
    · exact he
    · exact he
    · exact hroom
    · exact hbytes
  · have hc' : ¬ (c = newline ∨ c = ctrl 'D' ∨ i.e + 1 = i.r + bufLen) := by
      rw [hfull, ← or_assoc]
      exact hc
    rw [if_neg hc, if_neg hc']
    refine ⟨I.w, ?_, ?_, ?_, ?_⟩ <;>
      simp only [List.length_append, List.length_singleton, ← Nat.add_assoc]
    · rw [he]
      simp only [Nat.add_assoc]
    · exact hroom
    · exact hbytes
    · intro b hb
      rcases List.mem_append.mp hb with hb | hb
      · exact I.line b hb
      · rw [List.mem_singleton.mp hb]
        exact fun h => hc (.inl h)

end

theorem storec {s : Console} (I : InputRep s.input a) (c : UInt8) :
    InputRep (s.storec c).input (a.key c) := by
  rw [Console.storec, LineEditor.key]
  split
  · exact I.killLoop I.edited.symm
  · split
    · split
      · rename_i hne
        have hline : a.line ≠ [] := mt I.e_eq_w.mpr hne
        exact (I.back (List.dropLast_append_getLast hline).symm).2
      · rename_i heq
        have hline : a.line = [] := I.e_eq_w.mp (not_not.mp heq)
        have hsame : a.line.dropLast = a.line := by rw [hline]; rfl
        rw [hsame]
        exact I
    · have hlt : s.input.e - s.input.r < bufLen ↔
          a.ready.length + a.line.length < room := by
        rw [UInt32.lt_iff_toNat_lt, I.pending]
        rfl
      by_cases hc : c ≠ 0 ∧ a.ready.length + a.line.length < room
      · rw [if_pos hc, if_pos ⟨hc.1, hlt.mpr hc.2⟩]
        exact I.put hc.2 _
      · rw [if_neg hc, if_neg fun h => hc ⟨h.1, hlt.mp h.2⟩]
        exact I

/-! ### Reading -/

/-- The byte at the read index is the first that is ready, and moving the index takes it away. -/
theorem take (I : InputRep i a) {c : UInt8} {rest : List UInt8} (hready : a.ready = c :: rest) :
    i.at i.r = c ∧ InputRep { i with r := i.r + 1 }
      { a with done := a.done ++ [c], ready := rest } := by
  have hlen : a.ready.length = rest.length + 1 := by rw [hready, List.length_cons]
  have hr := i.r.toNat_lt
  have hr1 : (i.r + 1).toNat = (i.r.toNat + 1) % 2 ^ 32 := by
    rw [UInt32.toNat_add, UInt32.toNat_one]
  have hb := I.bytes
  rw [hlen, Nat.add_right_comm, Ring.window_cons, hready, List.cons_append] at hb
  obtain ⟨hhead, htail⟩ := List.cons_eq_cons.mp hb
  have hmod : (i.r + 1).toNat % room = (i.r.toNat + 1) % room := by
    rw [hr1, room]
    exact Nat.mod_mod_of_dvd _ (by decide)
  refine ⟨by rw [Input.at_eq, hhead], ?_, ?_, ?_, ?_, I.line⟩ <;> dsimp only
  · rw [I.w, hr1, hlen]
    omega
  · rw [I.e, hr1, hlen]
    omega
  · have := I.fits
    omega
  · rw [Ring.window_congr hmod, htail]

end InputRep

theorem LineEditor.Section.cons {got n : ℕ} {a a' : LineEditor} {c : UInt8} {rest bs : List UInt8}
    {fin : ReadEnd} (hready : a.ready = c :: rest) (hc : ¬ commits c)
    (h : Section (got + 1) n { a with done := a.done ++ [c], ready := rest } bs fin a') :
    Section got (n + 1) a (c :: bs) fin a' := by
  have hmem : ∀ {cs : List UInt8}, (∀ b ∈ cs, ¬ commits b) → ∀ b ∈ c :: cs, ¬ commits b :=
    fun hcs b hb => (List.mem_cons.mp hb).elim (fun h => h ▸ hc) (hcs b)
  have hdone : ∀ cs : List UInt8, a.done ++ [c] ++ cs = a.done ++ (c :: cs) :=
    fun cs => by rw [List.append_assoc, List.singleton_append]
  cases h with
  | full hr hbs hlen =>
    dsimp only at hr ⊢
    rw [hdone]
    exact .full (by rw [hready, hr, List.cons_append]) (hmem hbs) (by rw [List.length_cons, hlen])
  | line hr hbs hlen =>
    dsimp only at hr ⊢
    rw [hdone]
    exact .line (by rw [hready, hr, List.cons_append]) (hmem hbs) (by rw [List.length_cons]; omega)
  | stop hr hbs hlen _ =>
    dsimp only at hr ⊢
    rw [hdone]
    exact .stop (by rw [hready, hr, List.cons_append]) (hmem hbs) (by rw [List.length_cons]; omega)
      (by rw [List.length_cons]; omega)
  | eof _ _ hgot => exact absurd hgot (Nat.succ_ne_zero got)
  | dry hr hbs hlen =>
    dsimp only at hr ⊢
    rw [hdone]
    exact .dry (by rw [hready, hr]) (hmem hbs) (by rw [List.length_cons]; omega)

variable {a : LineEditor}

theorem InputRep.read (got n : ℕ) {i : Input} (I : InputRep i a) :
    ∃ a', LineEditor.Section got n a (consoleReadLoop got n i).1 (consoleReadLoop got n i).2.1 a' ∧
      InputRep (consoleReadLoop got n i).2.2 a' := by
  induction n generalizing got i a with
  | zero =>
    refine ⟨{ a with done := a.done ++ [], ready := a.ready },
      .full rfl (fun _ hb => nomatch hb) rfl, ?_⟩
    exact ⟨I.w, I.e, I.fits, I.bytes, I.line⟩
  | succ n ih =>
    rw [consoleReadLoop]
    cases hready : a.ready with
    | nil =>
      rw [if_pos (I.r_eq_w.mpr hready)]
      refine ⟨_, .dry hready (fun _ hb => nomatch hb) (Nat.succ_pos n), ?_⟩
      dsimp only
      rw [List.append_nil, ← hready]
      exact I
    | cons c rest =>
      obtain ⟨hat, I'⟩ := I.take hready
      rw [if_neg (mt I.r_eq_w.mp (by rw [hready]; exact List.cons_ne_nil c rest))]
      simp only [hat]
      by_cases hD : c = ctrl 'D'
      · subst hD
        rw [if_pos rfl]
        by_cases hgot : 0 < got
        · rw [if_pos hgot]
          refine ⟨{ a with done := a.done ++ [], ready := ctrl 'D' :: rest },
            .stop hready (fun _ hb => nomatch hb) (Nat.succ_pos n) hgot, ?_⟩
          dsimp only
          rw [UInt32.add_sub_cancel, List.append_nil, ← hready]
          exact I
        · rw [if_neg hgot]
          exact ⟨_, .eof hready (Nat.succ_pos n) (by omega), I'⟩
      · rw [if_neg hD]
        by_cases hnl : c = newline
        · subst hnl
          rw [if_pos rfl]
          exact ⟨_, @LineEditor.Section.line got (n + 1) a [] rest hready (fun _ hb => nomatch hb)
            (Nat.succ_pos n), I'⟩
        · rw [if_neg hnl]
          obtain ⟨a', hsec, I''⟩ := ih (got + 1) I'
          exact ⟨a', hsec.cons hready (by rintro (h | h) <;> contradiction), I''⟩

/-! ## The line discipline -/

/-- Every step of the console is a step of the editor it represents. -/
theorem ConsoleStep.simulate {s s' : Console} {ev : ConsoleEvent} (I : InputRep s.input a)
    (h : ConsoleStep s ev s') : ∃ a', a.Step ev a' ∧ InputRep s'.input a' := by
  have hread : ∀ (u : Console) (t : Reader), u.input = s.input → u.read t = (ev, s') →
      ∃ a', a.Step ev a' ∧ InputRep s'.input a' := by
    intro u t hu hrun
    obtain ⟨a', hsec, I'⟩ := I.read t.got t.n
    rw [← hu] at hsec I'
    rw [Console.read] at hrun
    obtain ⟨rfl, rfl⟩ := Prod.mk.inj hrun
    refine ⟨a', hsec, ?_⟩
    split <;> exact I'
  obtain ⟨op, -, hrun⟩ := h
  cases op with
  | storec c =>
    obtain ⟨rfl, rfl⟩ := Prod.mk.inj hrun
    exact ⟨a.key c, rfl, I.storec c⟩
  | read t size => exact hread s _ rfl hrun
  | resume t => exact hread { s with readCv := s.readCv.resume t } t rfl hrun

/-- The bytes that an event delivers. -/
def ConsoleEvent.delivered : ConsoleEvent → List UInt8
  | .typed _ => []
  | .read _ _ bs _ => bs

theorem LineEditor.Section.delivers {got n : ℕ} {a a' : LineEditor} {bs : List UInt8}
    {fin : ReadEnd} (h : Section got n a bs fin a') :
    a'.done.filter (· ≠ ctrl 'D') = a.done.filter (· ≠ ctrl 'D') ++ bs := by
  have hkeep : ∀ {cs : List UInt8}, (∀ b ∈ cs, ¬ commits b) → cs.filter (· ≠ ctrl 'D') = cs :=
    fun hcs => List.filter_eq_self.mpr fun b hb =>
      decide_eq_true fun h : b = ctrl 'D' => hcs b hb (.inr h)
  cases h with
  | full _ hbs _ => rw [List.filter_append, hkeep hbs]
  | line _ hbs _ => rw [List.filter_append, List.filter_append, hkeep hbs]; rfl
  | stop _ hbs _ _ => rw [List.filter_append, hkeep hbs]
  | eof _ _ _ => rw [List.filter_append]; rfl
  | dry _ hbs _ => rw [List.filter_append, hkeep hbs]

theorem LineEditor.add_done (a : LineEditor) (c : UInt8) : (a.add c).done = a.done := by
  rw [add]
  split <;> rfl

theorem LineEditor.key_done (a : LineEditor) (c : UInt8) : (a.key c).done = a.done := by
  rw [key]
  split
  · rfl
  · split
    · rfl
    · split
      · exact add_done a _
      · rfl

theorem LineEditor.Run.delivered {tr : List ConsoleEvent} (h : Run tr a) :
    tr.flatMap ConsoleEvent.delivered = a.done.filter (· ≠ ctrl 'D') := by
  refine h.invariant (I := fun tr a =>
    tr.flatMap ConsoleEvent.delivered = a.done.filter (· ≠ ctrl 'D')) ?_ ?_
  · rintro a rfl
    rfl
  · intro tr a ev a' ih hstep
    rw [List.flatMap_append, ih, List.flatMap_singleton]
    cases ev with
    | typed c =>
      obtain rfl : a' = a.key c := hstep
      rw [key_done]
      exact List.append_nil _
    | read got n bs fin => exact (Section.delivers hstep).symm

/-- In every run the counters stay in order and at most a buffer apart, the buffer holds the ready
bytes and the line of a line editor that makes the same steps, and the bytes delivered are those
that have been committed and read, without control-D. -/
theorem console_line_discipline {tr : List ConsoleEvent} {s : Console} (h : Console.Run tr s) :
    (s.input.w - s.input.r ≤ s.input.e - s.input.r ∧ s.input.e - s.input.r ≤ bufLen) ∧
      ∃ a, LineEditor.Run tr a ∧
        Ring.window s.input.buf LineEditor.room s.input.r.toNat (s.input.w - s.input.r).toNat =
          a.ready ∧
        Ring.window s.input.buf LineEditor.room s.input.w.toNat (s.input.e - s.input.w).toNat =
          a.line ∧
        tr.flatMap ConsoleEvent.delivered = a.done.filter (· ≠ ctrl 'D') := by
  have hinit : ∀ s : Console, s.Init → ∃ a, a = (⟨[], [], []⟩ : LineEditor) ∧
      InputRep s.input a := by
    rintro s ⟨hr, hw, he, -⟩
    refine ⟨_, rfl, ?_, ?_, Nat.zero_le _, rfl, by simp⟩
    · rw [hr, hw]; rfl
    · rw [hr, he]; rfl
  obtain ⟨a, hrun, I⟩ := Run.Traces.simulate (R := fun (s : Console) a => InputRep s.input a)
      h hinit
    fun s ev s' a I hstep => hstep.simulate I
  refine ⟨⟨?_, ?_⟩, a, hrun, ?_, ?_, LineEditor.Run.delivered hrun⟩
  · rw [UInt32.le_iff_toNat_le, I.committed, I.pending]
    exact Nat.le_add_right _ _
  · rw [UInt32.le_iff_toNat_le, I.pending]
    exact I.fits
  · have hb := I.bytes
    rw [Ring.window_add] at hb
    rw [I.committed]
    exact (List.append_inj hb Ring.window_length).1
  · have hb := I.bytes
    have hmod : s.input.w.toNat % LineEditor.room =
        (s.input.r.toNat + a.ready.length) % LineEditor.room := by
      rw [I.w, LineEditor.room]
      exact Nat.mod_mod_of_dvd _ (by decide)
    rw [Ring.window_add] at hb
    rw [I.edited, Ring.window_congr hmod]
    exact (List.append_inj hb Ring.window_length).2

/-- An `h`, a newline and a control-D are typed, and a thread reads twice. -/
def typedLine : List ConsoleEvent :=
  [.typed 0x68, .typed newline, .typed (ctrl 'D'), .read 0 10 [0x68, newline] .returns,
    .read 0 10 [] .returns]

theorem typedLine_run : ∃ s, Console.Run typedLine s := by
  have h0 : Console.Run [] ⟨⟨fun _ => 0, 0, 0, 0⟩, [], .empty⟩ := .first ⟨rfl, rfl, rfl, rfl⟩
  have h1 := h0.next ⟨.storec 0x68, trivial, rfl⟩
  have h2 := h1.next ⟨.storec newline, trivial, rfl⟩
  have h3 := h2.next ⟨.storec (ctrl 'D'), trivial, rfl⟩
  have h4 := h3.next ⟨.read 1 10, (fun _ hu => nomatch hu), rfl⟩
  exact ⟨_, h4.next ⟨.read 1 10, (fun _ hu => nomatch hu), rfl⟩⟩

/-- The line is delivered, and the control-D is read without being delivered. -/
theorem typedLine_delivered : ∃ a, LineEditor.Run typedLine a ∧
    a.done.filter (· ≠ ctrl 'D') = [0x68, newline] := by
  obtain ⟨s, hs⟩ := typedLine_run
  obtain ⟨-, a, hrun, -, -, hdone⟩ := console_line_discipline hs
  exact ⟨a, hrun, hdone.symm⟩

end Osv
