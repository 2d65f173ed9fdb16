import Osv.Lib.Bytes
import Osv.Vm.Space

/-!
# Moving bytes

`memmove` copies byte by byte and in place, so a byte of the source may be
overwritten before it is read.  It goes down from the end if the destination
begins inside the source, and up, as `memcpy` does, if not.  Either way the
destination gets what the source was before (`memmove_eq`).

Pointers wrap around.  A range may end at the top of memory.
-/

namespace Osv

/-- `memcpy`: `while (n-- > 0) *d++ = *s++`. -/
def memcpy (m : Bytes) (d s : ℕ) : (n : ℕ) → Bytes
  | 0 => m
  | n + 1 => memcpy (m.put d [m s]) (addAddr d 1) (addAddr s 1) n

/-- The pointer before `p`. -/
def predAddr (p : ℕ) : ℕ := if p = 0 then 2 ^ 64 - 1 else p - 1

/-- `while (n-- > 0) *--d = *--s`. -/
def copyDown (m : Bytes) (d s : ℕ) : (n : ℕ) → Bytes
  | 0 => m
  | n + 1 => copyDown (m.put (predAddr d) [m (predAddr s)]) (predAddr d) (predAddr s) n

/-- `memmove`. -/
def memmove (m : Bytes) (dest src n : ℕ) : Bytes :=
  if src < dest ∧ dest < addAddr src n then copyDown m (addAddr dest n) (addAddr src n) n
  else memcpy m dest src n

section

variable {m : Bytes} {dest src n : ℕ}

/-- Going up is right unless the destination begins inside the source. -/
theorem memcpy_eq (h : dest ≤ src ∨ src + n ≤ dest) (hd : dest + n ≤ 2 ^ 64)
    (hs : src + n ≤ 2 ^ 64) : memcpy m dest src n = m.put dest (m.slice src n) := by
  induction n generalizing m dest src with
  | zero => exact Bytes.put_nil.symm
  | succ n ih =>
    have hrest : (m.put dest [m src]).slice (src + 1) n =
        (List.range n).map fun k => m (src + (k + 1)) :=
      List.map_congr_left fun k hk => by
        rw [Bytes.put_of_disjoint (by have := List.mem_range.mp hk; simp; omega),
          Nat.add_right_comm]; rfl
    rw [Bytes.slice, List.range_succ_eq_map, List.map_cons, List.map_map, ← List.singleton_append,
      Bytes.put_append, memcpy]
    rcases Nat.eq_zero_or_pos n with rfl | hn
    · exact Bytes.put_nil.symm
    · rw [addAddr, Nat.mod_eq_of_lt (by omega), addAddr, Nat.mod_eq_of_lt (by omega),
        ih (by omega) (by omega) (by omega), hrest]
      rfl

theorem copyDown_eq (h : src ≤ dest) (hd : dest + n ≤ 2 ^ 64) :
    copyDown m (addAddr dest n) (addAddr src n) n = m.put dest (m.slice src n) := by
  induction n generalizing m with
  | zero => exact Bytes.put_nil.symm
  | succ n ih =>
    have hprev : ∀ {p}, p ≤ dest → predAddr (addAddr p (n + 1)) = p + n ∧ addAddr p n = p + n := by
      intro p hp
      rw [predAddr, addAddr, addAddr]
      constructor
      · split <;> omega
      · omega
    have hih := @ih (m.put (dest + n) [m (src + n)]) (by omega)
    rw [(hprev le_rfl).2, (hprev h).2, Bytes.slice_congr fun k hk => Bytes.put_of_lt (by omega),
      Bytes.put_comm (.inr (by simp [Bytes.slice]))] at hih
    rw [copyDown, (hprev le_rfl).1, (hprev h).1, hih]
    conv_rhs => rw [Bytes.slice, List.range_succ, List.map_append, Bytes.put_append]
    simp [Bytes.slice]

end

/-- However the two ranges overlap, the destination gets the bytes that the source had, and no other
byte changes. -/
theorem memmove_eq (m : Bytes) {dest src n : ℕ} (hd : dest + n ≤ 2 ^ 64) (hs : src + n ≤ 2 ^ 64) :
    memmove m dest src n = m.put dest (m.slice src n) := by
  rw [memmove]
  split
  · rename_i h
    exact copyDown_eq h.1.le hd
  · rename_i h
    rw [addAddr] at h
    exact memcpy_eq (by omega) hd hs

/-- Three bytes move up by one. -/
theorem memmove_up : (2 : ℕ) + 3 ≤ 2 ^ 64 ∧
    memmove UInt8.ofNat 2 1 3 = Bytes.put UInt8.ofNat 2 [1, 2, 3] :=
  ⟨by decide, memmove_eq _ (by decide) (by decide)⟩

end Osv
