import Mathlib.Algebra.BigOperators.Intervals

/-!
# The checksum of the MP tables

`checksum` of `mp.c` counts bytes in a `uint8_t`, while the length is a `size_t`.  The counter never
comes to a length of 256 or more, and the loop does not end.  `_mp_search` passes 16,
`process_mpconfig` the length of a table as the firmware gives it, a number of 16 bits.
-/

namespace Osv

/-- The loop of `checksum`, for a number of rounds. -/
def checksumLoop (addr : ℕ → UInt8) (len : ℕ) : (rounds : ℕ) → (i sum : UInt8) → Option UInt8
  | 0, _, _ => none
  | rounds + 1, i, sum =>
    if i.toNat < len then checksumLoop addr len rounds (i + 1) (sum + addr i.toNat) else some sum

/-- What `checksum` returns, if it does so after at most `rounds` rounds. -/
def checksum (addr : ℕ → UInt8) (len rounds : ℕ) : Option UInt8 := checksumLoop addr len rounds 0 0

variable {addr : ℕ → UInt8} {len : ℕ}

/-- As long as the counter can reach the length, the bytes behind it are added. -/
theorem checksumLoop_returns {n : ℕ} {i : UInt8} (h : i.toNat + n = len) (hlen : len < 256)
    (sum : UInt8) : ∃ r, checksumLoop addr len (n + 1) i sum = some r ∧
      r.toNat = (sum.toNat + ∑ j ∈ Finset.Ico i.toNat len, (addr j).toNat) % 256 := by
  induction n generalizing i sum with
  | zero =>
    rw [checksumLoop, if_neg (by omega)]
    refine ⟨sum, rfl, ?_⟩
    rw [Finset.Ico_eq_empty (by omega), Finset.sum_empty, Nat.add_zero]
    exact (Nat.mod_eq_of_lt sum.toNat_lt).symm
  | succ n ih =>
    have hnext : (i + 1).toNat = i.toNat + 1 := by
      rw [UInt8.toNat_add]
      exact Nat.mod_eq_of_lt (show i.toNat + 1 < 256 by omega)
    rw [checksumLoop, if_pos (by omega)]
    obtain ⟨r, hr, hsum⟩ := ih (i := i + 1) (by omega) (sum + addr i.toNat)
    refine ⟨r, hr, ?_⟩
    rw [hsum, hnext, Finset.sum_eq_sum_Ico_succ_bot (show i.toNat < len by omega), UInt8.toNat_add]
    omega

theorem checksumLoop_endless (hlen : 256 ≤ len) (rounds : ℕ) (i sum : UInt8) :
    checksumLoop addr len rounds i sum = none := by
  induction rounds generalizing i sum with
  | zero => rfl
  | succ rounds ih =>
    rw [checksumLoop, if_pos (i.toNat_lt.trans_le hlen)]
    exact ih _ _

/-- `checksum` returns the sum of the bytes iff their number fits in the counter. -/
theorem checksum_iff (addr : ℕ → UInt8) (len : ℕ) :
    (∃ rounds r, checksum addr len rounds = some r ∧
      r.toNat = (∑ j ∈ Finset.range len, (addr j).toNat) % 256) ↔ len < 256 := by
  constructor
  · rintro ⟨rounds, r, hr, -⟩
    by_contra hlen
    rw [checksum, checksumLoop_endless (Nat.le_of_not_lt hlen)] at hr
    cases hr
  · intro hlen
    obtain ⟨r, hr, hsum⟩ := @checksumLoop_returns addr len len 0 (Nat.zero_add len) hlen 0
    refine ⟨len + 1, r, hr, ?_⟩
    rw [hsum, Finset.range_eq_Ico]
    exact congrArg (· % 256) (Nat.zero_add _)

/-- A table of 256 bytes. -/
theorem checksum_table_256 : 256 < 2 ^ 16 ∧ ¬ ∃ rounds r, checksum (fun _ => 0)
    256 rounds = some r := by
  refine ⟨by decide, ?_⟩
  rintro ⟨rounds, r, hr⟩
  rw [checksum, checksumLoop_endless le_rfl] at hr
  cases hr

end Osv
