import Osv.Lib.Bytes

/-!
# Bytes of words

A memory of 64-bit words read byte by byte, low byte first.  Replacing one base-256 digit of a word
replaces one byte and keeps the others (`digit_replace`).
-/

namespace Bytes

/-- The bytes of a memory of 64-bit words. -/
def ofWords (w : ℕ → ℕ) : Bytes := fun o => UInt8.ofNat (w (o / 8) / 2 ^ (8 * (o % 8)))

theorem digit_low {j k : ℕ} (h : j < k) (lo y : ℕ) : (lo + 256 ^ k * y)
    / 256 ^ j % 256 = lo / 256 ^ j % 256 := by
  obtain ⟨n, rfl⟩ := Nat.exists_eq_add_of_lt h
  have e : 256 ^ (j + n + 1) * y = 256 ^ j * (256 * (256 ^ n * y)) := by ring
  rw [e, Nat.add_mul_div_left _ _ (Nat.pow_pos (by decide)), Nat.add_mul_mod_self_left]

theorem digit_high {j k : ℕ} (h : k < j) {lo x : ℕ} (hlo : lo < 256 ^ k) (hx : x < 256) (hi : ℕ) :
    (lo + 256 ^ k * (x + 256 * hi)) / 256 ^ j = hi / 256 ^ (j - k - 1) := by
  obtain ⟨n, rfl⟩ := Nat.exists_eq_add_of_lt h
  have e : 256 ^ (k + n + 1) = 256 ^ k * (256 * 256 ^ n) := by ring
  have hn : k + n + 1 - k - 1 = n := by omega
  rw [hn, e, ← Nat.div_div_eq_div_mul, Nat.add_mul_div_left _ _ (Nat.pow_pos (by decide)),
    Nat.div_eq_of_lt hlo, Nat.zero_add, ← Nat.div_div_eq_div_mul, Nat.add_mul_div_left _ _
    (by decide), Nat.div_eq_of_lt hx, Nat.zero_add]

theorem digit_replace {b : ℕ} (hb : b < 256) (w j k : ℕ) :
    (w - w / 256 ^ k % 256 * 256 ^ k + b * 256 ^ k)
    / 256 ^ j % 256 = if j = k then b else w / 256 ^ j % 256 := by
  have hw : w = w % 256 ^ k + 256 ^ k * (w / 256 ^ k % 256 + 256 * (w / 256 ^ k / 256)) := by
    rw [Nat.mod_add_div, Nat.mod_add_div]
  have hlo : w % 256 ^ k < 256 ^ k := Nat.mod_lt _ (Nat.pow_pos (by decide))
  have hmid : w / 256 ^ k % 256 < 256 := Nat.mod_lt _ (by decide)
  generalize w % 256 ^ k = lo at *
  generalize w / 256 ^ k % 256 = mid at *
  generalize w / 256 ^ k / 256 = hi at *
  have hw' : w - mid * 256 ^ k + b * 256 ^ k = lo + 256 ^ k * (b + 256 * hi) := by
    have e : lo + 256 ^ k * (mid + 256 * hi) =
        mid * 256 ^ k + (lo + 256 ^ k * (256 * hi)) := by ring
    rw [hw, e, Nat.add_sub_cancel_left]
    ring
  rw [hw']
  rcases lt_trichotomy j k with h | rfl | h
  · rw [if_neg h.ne, hw, digit_low h, digit_low h]
  · rw [if_pos rfl, Nat.add_mul_div_left _ _ (Nat.pow_pos (by decide)), Nat.div_eq_of_lt hlo,
      Nat.zero_add, Nat.add_mul_mod_self_left, Nat.mod_eq_of_lt hb]
  · rw [if_neg h.ne', hw, digit_high h hlo hb, digit_high h hlo hmid]

theorem ofWords_replace {w w' : ℕ → ℕ} {o : ℕ} {b : UInt8}
    (hself : w' (o / 8) = w (o / 8) - w (o / 8) / 2 ^ (8 * (o % 8)) % 256 * 2 ^ (8 * (o % 8)) +
      b.toNat * 2 ^ (8 * (o % 8))) (hother : ∀ i, i ≠ o / 8 → w' i = w i) :
    ofWords w' = put (ofWords w) o [b] := by
  have hpow : ∀ k, 2 ^ (8 * k) = 256 ^ k := fun k => by
    rw [pow_mul, (by decide : 2 ^ 8 = 256)]
  have hnat : ∀ x, UInt8.ofNat x = UInt8.ofNat (x % 256) := fun x => by
    rw [← UInt8.toNat_inj, UInt8.toNat_ofNat', UInt8.toNat_ofNat', Nat.mod_mod_of_dvd _ (by decide)]
  funext p
  by_cases hp : p = o
  · subst hp
    have := put_add (m := ofWords w) (o := p) (k := 0) (l := [b]) (by simp)
    rw [Nat.add_zero] at this
    rw [this, ofWords, hself, hnat, hpow, digit_replace b.toNat_lt, if_pos rfl]
    simp
  · rw [put_of_disjoint (by simp; omega), ofWords, ofWords, hnat, hnat (w _ / _), hpow]
    by_cases hi : p / 8 = o / 8
    · rw [hi, hself, hpow, digit_replace b.toNat_lt, if_neg (by omega)]
    · rw [hother _ hi]

end Bytes
