import Mathlib.Data.List.GetD
import Mathlib.Logic.Function.Basic
import Mathlib.Tactic.Ring

/-!
# Bytes

Memory as a function from offsets to bytes.  All writes are `put`, of a list of
bytes at an offset.  `le` reads a little-endian number and `leBytes` are the bytes
of one, so a number that is put is read back (`le_put`), and what is put
elsewhere does not matter (`le_put_of_disjoint`).

Bits are counted from the low end of each byte: `bit m i` is bit `i % 8` of byte
`i / 8`.
-/

/-- Bytes by offset. -/
abbrev Bytes := ℕ → UInt8

namespace Bytes

/-- All zeros. -/
def zero : Bytes := fun _ => 0

/-- Write bytes from an offset on. -/
def put (m : Bytes) (o : ℕ) (l : List UInt8) : Bytes :=
  fun p => if o ≤ p then (l[p - o]?).getD (m p) else m p

/-- Read bytes from an offset on. -/
def slice (m : Bytes) (o n : ℕ) : List UInt8 := (List.range n).map fun k => m (o + k)

/-- The little-endian number of `n` bytes at an offset. -/
def le (m : Bytes) : (o n : ℕ) → ℕ
  | _, 0 => 0
  | o, n + 1 => (m o).toNat + 256 * le m (o + 1) n

/-- The `n` low bytes of a number, low byte first. -/
def leBytes : (n v : ℕ) → List UInt8
  | 0, _ => []
  | n + 1, v => UInt8.ofNat v :: leBytes n (v / 256)

variable {m m' : Bytes} {o o' n v p : ℕ} {l l' : List UInt8}

/-! ## Reading what was put -/

theorem put_of_lt (h : p < o) : put m o l p = m p := if_neg (Nat.not_le.mpr h)

theorem put_of_le (h : o + l.length ≤ p) : put m o l p = m p := by
  rw [put, if_pos (Nat.le_trans (Nat.le_add_right _ _) h), List.getElem?_eq_none (by omega)]
  rfl

theorem put_of_disjoint (h : p < o ∨ o + l.length ≤ p) : put m o l p = m p :=
  h.elim put_of_lt put_of_le

theorem put_add {k : ℕ} (h : k < l.length) : put m o l (o + k) = l[k] := by
  rw [put, if_pos (Nat.le_add_right _ _), Nat.add_sub_cancel_left, List.getElem?_eq_getElem h]
  rfl

@[simp] theorem put_nil : put m o [] = m := by
  funext p
  by_cases h : p < o
  · exact put_of_lt h
  · exact put_of_le (by simpa using h)

theorem put_append : put m o (l ++ l') = put (put m o l) (o + l.length) l' := by
  funext p
  by_cases h1 : p < o
  · rw [put_of_lt h1, put_of_lt (by omega), put_of_lt h1]
  by_cases h2 : p < o + l.length
  · obtain ⟨k, rfl⟩ := Nat.exists_eq_add_of_le (Nat.not_lt.mp h1)
    have hk : k < l.length := by omega
    rw [put_add (by rw [List.length_append]; omega), put_of_lt h2, put_add hk,
      List.getElem_append_left hk]
  · rw [put, if_pos (Nat.not_lt.mp h1), put, if_pos (Nat.not_lt.mp h2),
      List.getElem?_append_right (by omega), put_of_le (Nat.not_lt.mp h2)]
    congr 2
    omega

theorem put_comm (h : o + l.length ≤ o' ∨ o' + l'.length ≤ o) :
    put (put m o l) o' l' = put (put m o' l') o l := by
  funext p
  by_cases h1 : o ≤ p ∧ p < o + l.length
  · obtain ⟨k, rfl⟩ := Nat.exists_eq_add_of_le h1.1
    rw [put_of_disjoint (by omega), put_add (by omega), put_add (by omega)]
  · rw [put_of_disjoint (o := o) (m := put m o' l') (by omega)]
    by_cases h2 : o' ≤ p ∧ p < o' + l'.length
    · obtain ⟨k, rfl⟩ := Nat.exists_eq_add_of_le h2.1
      rw [put_add (by omega), put_add (by omega)]
    · rw [put_of_disjoint (by omega), put_of_disjoint (by omega), put_of_disjoint (by omega)]

theorem put_same (h : ∀ k (hk : k < l.length), m (o + k) = l[k]) : put m o l = m := by
  funext p
  by_cases hp : o ≤ p ∧ p < o + l.length
  · obtain ⟨k, rfl⟩ := Nat.exists_eq_add_of_le hp.1
    rw [put_add (by omega), h k (by omega)]
  · exact put_of_disjoint (by omega)

theorem put_put (h : l.length = l'.length) : put (put m o l) o l' = put m o l' := by
  funext p
  by_cases hp : o ≤ p ∧ p < o + l'.length
  · obtain ⟨k, rfl⟩ := Nat.exists_eq_add_of_le hp.1
    rw [put_add (by omega), put_add (by omega)]
  · rw [put_of_disjoint (by omega), put_of_disjoint (by omega), put_of_disjoint (by omega)]

theorem slice_congr (h : ∀ k < n, m (o + k) = m' (o' + k)) : slice m o n = slice m' o' n :=
  List.map_congr_left fun k hk => h k (List.mem_range.mp hk)

theorem slice_put : slice (put m o l) o l.length = l := by
  unfold slice
  refine List.ext_getElem (by simp) fun k _ hk => ?_
  rw [List.getElem_map, List.getElem_range, put_add hk]

/-! ## Numbers -/

@[simp] theorem length_leBytes : ∀ (n v : ℕ), (leBytes n v).length = n
  | 0, _ => rfl
  | n + 1, v => by rw [leBytes, List.length_cons, length_leBytes n]

theorem le_congr : ∀ {n o o' : ℕ}, (∀ k < n, m (o + k) = m' (o' + k)) → le m o n = le m' o' n
  | 0, _, _, _ => rfl
  | n + 1, o, o', h => by
    have h0 := h 0 (Nat.succ_pos n)
    have hrest : le m (o + 1) n = le m' (o' + 1) n := le_congr fun k hk => by
      have := h (k + 1) (by omega)
      rwa [Nat.add_comm k 1, ← Nat.add_assoc, ← Nat.add_assoc] at this
    rw [le, le, hrest]
    simp only [Nat.add_zero] at h0
    rw [h0]

theorem le_lt : ∀ {n o : ℕ}, le m o n < 256 ^ n
  | 0, _ => by simp [le]
  | n + 1, o => by
    have h1 := (m o).toNat_lt
    have h2 : le m (o + 1) n < 256 ^ n := le_lt
    rw [le, pow_succ]
    omega

theorem le_put_of_disjoint (h : o' + n ≤ o ∨ o + l.length ≤ o') : le (put m o l) o' n = le m o' n :=
  le_congr fun k hk => put_of_disjoint (by omega)

theorem le_put : ∀ {n o v : ℕ} {m : Bytes}, le (put m o (leBytes n v)) o n = v % 256 ^ n
  | 0, _, _, _ => by simp [le, Nat.mod_one]
  | n + 1, o, v, m => by
    have hfirst : put m o (leBytes (n + 1) v) o = UInt8.ofNat v := by
      have := put_add (m := m) (o := o) (l := leBytes (n + 1) v) (k := 0) (by simp)
      exact this
    have hrest : put m o (leBytes (n + 1) v) =
        put (put m o [UInt8.ofNat v]) (o + 1) (leBytes n (v / 256)) := by
      rw [leBytes, ← List.singleton_append, put_append, List.length_singleton]
    have hbyte : (UInt8.ofNat v).toNat = v % 256 := UInt8.toNat_ofNat'
    rw [le, hfirst, hrest, le_put, hbyte, Nat.pow_succ', Nat.mod_mul]

theorem le_put_of_lt (h : v < 256 ^ n) : le (put m o (leBytes n v)) o n = v := by
  rw [le_put, Nat.mod_eq_of_lt h]

@[simp] theorem le_zero : ∀ {n o : ℕ}, le zero o n = 0
  | 0, _ => rfl
  | n + 1, o => by
    rw [le, le_zero]
    rfl

/-! ## Bits -/

/-- Bit `i` of a bitmap. -/
def bit (m : Bytes) (i : ℕ) : Bool := (m (i / 8)).toBitVec.getLsbD (i % 8)

/-- Set bit `i` of a bitmap. -/
def setBit (m : Bytes) (i : ℕ) : Bytes :=
  Function.update m (i / 8) (m (i / 8) ||| UInt8.ofNat (2 ^ (i % 8)))

/-- Clear bit `i` of a bitmap. -/
def clearBit (m : Bytes) (i : ℕ) : Bytes :=
  Function.update m (i / 8) (m (i / 8) &&& ~~~ UInt8.ofNat (2 ^ (i % 8)))

theorem toBitVec_twoPow (i : ℕ) : (UInt8.ofNat (2 ^ i)).toBitVec = BitVec.twoPow 8 i := by
  apply BitVec.eq_of_toNat_eq
  rw [BitVec.toNat_twoPow]
  rfl

theorem getLsbD_or_twoPow (b : UInt8) {i j : ℕ} (hi : i < 8) :
    (b ||| UInt8.ofNat (2 ^ i)).toBitVec.getLsbD j = (b.toBitVec.getLsbD j || decide (j = i)) := by
  rw [UInt8.toBitVec_or, toBitVec_twoPow, BitVec.getLsbD_or, BitVec.getLsbD_twoPow]
  simp only [hi, decide_true, Bool.true_and, eq_comm]

theorem getLsbD_and_not_twoPow (b : UInt8) {i j : ℕ} (hi : i < 8) (hj : j < 8) :
    (b &&& ~~~ UInt8.ofNat (2 ^ i)).toBitVec.getLsbD j =
      (b.toBitVec.getLsbD j && decide (j ≠ i)) := by
  rw [UInt8.toBitVec_and, UInt8.toBitVec_not, toBitVec_twoPow, BitVec.getLsbD_and,
    BitVec.getLsbD_not, BitVec.getLsbD_twoPow]
  simp [hi, hj, eq_comm]

theorem bit_setBit (m : Bytes) (i j : ℕ) : bit (setBit m i) j = (bit m j || decide (j = i)) := by
  rw [bit, setBit, bit]
  by_cases h : j / 8 = i / 8
  · rw [h, Function.update_self, getLsbD_or_twoPow _ (Nat.mod_lt _ (by decide))]
    congr 1
    rw [decide_eq_decide]
    omega
  · rw [Function.update_of_ne h, decide_eq_false (by rintro rfl; exact h rfl), Bool.or_false]

theorem bit_clearBit (m : Bytes) (i j : ℕ) :
    bit (clearBit m i) j = (bit m j && decide (j ≠ i)) := by
  rw [bit, clearBit, bit]
  by_cases h : j / 8 = i / 8
  · rw [h, Function.update_self, getLsbD_and_not_twoPow _ (Nat.mod_lt _ (by decide))
      (Nat.mod_lt _ (by decide))]
    congr 1
    rw [decide_eq_decide]
    omega
  · rw [Function.update_of_ne h, decide_eq_true (by rintro rfl; exact h rfl), Bool.and_true]

theorem ext_bit (h : ∀ i, bit m i = bit m' i) : m = m' := by
  funext p
  apply UInt8.toBitVec_inj.mp
  apply BitVec.eq_of_getLsbD_eq
  intro j hj
  have := h (8 * p + j)
  rw [bit, bit] at this
  rwa [show (8 * p + j) / 8 = p by omega, show (8 * p + j) % 8 = j by omega] at this

/-- Clearing a bit that was set from clear gives the bitmap back. -/
theorem clearBit_setBit {i : ℕ} (h : bit m i = false) : clearBit (setBit m i) i = m := by
  refine ext_bit fun j => ?_
  rw [bit_clearBit, bit_setBit]
  by_cases hj : j = i
  · subst hj
    simp [h]
  · simp [hj]

end Bytes
