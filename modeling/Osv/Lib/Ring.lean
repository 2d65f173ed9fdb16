import Mathlib.Data.List.Basic
import Mathlib.Data.Nat.ModEq
import Mathlib.Logic.Function.Basic

/-!
# Windows of a circular buffer

A circular buffer of `n` cells is read and written at counters that only ever grow,
taken modulo `n`.  `window buf n i len` is what the `len` cells from counter `i` on
hold.  A window is extended at its end by a write to the next cell, as long as it is
shorter than the buffer (`window_write`), and it is shortened at either end by moving a counter
(`window_succ`, `window_cons`).  It only depends on the counter modulo `n`, so the
counter may be kept in a machine word that wraps at a multiple of `n`
(`window_congr`).
-/

namespace Ring

variable {α : Type} {buf : ℕ → α} {n i j len : ℕ}

/-- The cells from counter `i` on. -/
def window (buf : ℕ → α) (n i len : ℕ) : List α := (List.range len).map fun k => buf ((i + k) % n)

@[simp] theorem window_length : (window buf n i len).length = len := by
  rw [window, List.length_map, List.length_range]

theorem window_succ : window buf n i (len + 1) = window buf n i len ++ [buf ((i + len) % n)] := by
  rw [window, window, List.range_succ, List.map_append]
  rfl

theorem window_cons : window buf n i (len + 1) = buf (i % n) :: window buf n (i + 1) len := by
  rw [window, window, List.range_succ_eq_map, List.map_cons, List.map_map]
  congr 1
  refine List.map_congr_left fun k _ => ?_
  rw [Function.comp_apply, Nat.succ_eq_add_one, Nat.add_right_comm i 1 k, Nat.add_assoc i k 1]

theorem window_add {m : ℕ} : window buf n i (len + m) =
    window buf n i len ++ window buf n (i + len) m := by
  rw [window, List.range_add, List.map_append, List.map_map]
  congr 1
  refine List.map_congr_left fun k _ => ?_
  rw [Function.comp_apply, Nat.add_assoc]

theorem window_congr (h : i % n = j % n) : window buf n i len = window buf n j len := by
  refine List.map_congr_left fun k _ => ?_
  rw [Nat.add_mod i k n, Nat.add_mod j k n, h]

/-- A write to the cell after a window that does not fill the buffer extends the window. -/
theorem window_write (h : len < n) (x : α) :
    window (Function.update buf ((i + len) % n) x) n i (len + 1) = window buf n i len ++ [x] := by
  rw [window_succ, Function.update_self]
  congr 1
  refine List.map_congr_left fun k hk => Function.update_of_ne ?_ _ _
  intro heq
  have hklt : k < len := List.mem_range.mp hk
  have hmod : Nat.ModEq n (i + k) (i + len) := heq
  have hkl : k % n = len % n := Nat.ModEq.add_left_cancel' i hmod
  rw [Nat.mod_eq_of_lt h, Nat.mod_eq_of_lt (by omega)] at hkl
  omega

end Ring
