import Mathlib.Algebra.Order.Ring.Nat
import Osv.Lib.Prog

/-!
# What every part of the kernel shares

How a kernel function stops without returning, the error codes of
`lib/errcode.h`, and the page arithmetic of `kernel/vm.h`.  Addresses are
natural numbers of bytes.
-/

namespace Osv

/-- How a run of the kernel stops without returning. -/
inductive Trap where
  /-- A `kassert` whose condition, quoted from the source, is false. -/
  | kassert (cond : String)
  /-- A `panic` with its message. -/
  | panic (msg : String)
  /-- An access the source gives no meaning to, such as unlinking a node that is on no list. -/
  | wild (what : String)
deriving DecidableEq, Repr

/-- Assert a condition on the current state. -/
def kassert {σ : Type} (cond : String) (p : σ → Bool) : Prog Trap σ Unit :=
  Prog.check p (.kassert cond)

variable {σ α : Type} {cond : String} {p : σ → Bool} {f : Unit → Prog Trap σ α}
    {s : σ} {E : Trap → Prop}

@[simp] theorem wp_kassert {Q : Unit → σ → Prop} :
    Prog.wp (kassert cond p) Q E s ↔ (p s = true → Q () s) ∧ (p s = false → E (.kassert cond)) :=
  Prog.wp_check

theorem kassert_run (h : p s = true) : kassert cond p s = .ok ((), s) := by
  rw [kassert, Prog.check_run, if_pos h]

theorem kassert_bind (h : p s = true) : (kassert cond p >>= f) s = f () s :=
  Prog.bind_of_ok (kassert_run h)

theorem wp_kassert_bind {Q : α → σ → Prop} (h : p s = true) :
    Prog.wp (kassert cond p >>= f) Q E s ↔ Prog.wp (f ()) Q E s := by
  rw [Prog.wp, kassert_bind h, Prog.wp]

theorem kassert_bind_ok {r : α × σ} : (kassert cond p >>= f)
    s = .ok r ↔ p s = true ∧ f () s = .ok r :=
  Prog.check_bind_ok

/-- Stop with a message. -/
def panic {σ α : Type} (msg : String) : Prog Trap σ α := Prog.trap (.panic msg)

/-- `err_t`: the codes of `lib/errcode.h`, with those of `vpmap.h` and `vm.h` that callers see. -/
inductive Err where
  | ok
  | nomem
  | nores
  | unalloc
  | exist
  | notExist
  | incomp
  | ftype
  | register
  | notEmpty
  | fin
  | init
  | fault
  | inval
  | child
  | vpmapMap
  | vpmapNotpresent
  | vmResourceUnavail
  | vmInvalid
  | vmBound
  | lockBusy
deriving DecidableEq, Repr

/-- A thread. -/
abbrev Tid := ℕ

/-- The value of a C `int` after arithmetic: the kernel is built with `-fwrapv`. -/
def wrapInt (x : Int) : Int := x.bmod (2 ^ 32)

theorem wrapInt_eq {x : Int} (h1 : -2 ^ 31 ≤ x) (h2 : x < 2 ^ 31) : wrapInt x = x := by
  rw [wrapInt, Int.bmod_eq_of_le] <;> omega

/-- `STATUS_ALIVE`, the exit status of a process that runs. -/
def statusAlive : Int := 0xbeefeeb

/-- `PROC_MAX_FILE`, the number of slots of a descriptor table. -/
def procMaxFile : ℕ := 128

/-! ## Pages -/

/-- Bytes of a page. -/
def pgSize : ℕ := 4096

/-- The least page boundary at or above an address. -/
def pgRoundUp (addr : ℕ) : ℕ := (addr + pgSize - 1) / pgSize * pgSize

/-- The greatest page boundary at or below an address. -/
def pgRoundDown (addr : ℕ) : ℕ := addr / pgSize * pgSize

/-- The offset of an address in its page. -/
def pgOfs (addr : ℕ) : ℕ := addr % pgSize

/-- Whether an address is a page boundary. -/
def pgAligned (addr : ℕ) : Bool := addr % pgSize = 0

@[simp] theorem pgSize_pos : 0 < pgSize := by decide

theorem mul_pgSize_div (g : ℕ) : g * pgSize / pgSize = g := Nat.mul_div_cancel _ pgSize_pos

theorem pgAligned_iff {addr : ℕ} : pgAligned addr = true ↔ pgSize ∣ addr := by
  simp [pgAligned, Nat.dvd_iff_mod_eq_zero]

end Osv
