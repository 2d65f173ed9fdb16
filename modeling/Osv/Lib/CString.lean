import Mathlib.Data.List.TakeWhile
import Mathlib.Tactic.NthRewrite

/-!
# Strings in memory, and their words

`CStr mem p l`: from address `p` on, memory holds the bytes `l`, none of which is
0, and then a 0.  Writing outside of a string leaves it (`CStr.frame`).

The words of a list are its longest parts without separators, in order.  A loop
that skips separators, takes a word and goes on behind the next separator finds
them one by one (`words_step`).
-/

/-! ## Words -/

section Words

variable {α : Type} {p : α → Bool}

/-- The longest parts of a list without separators. -/
def words (p : α → Bool) (l : List α) : List (List α) := (l.splitOnP p).filter fun w => !w.isEmpty

@[simp] theorem words_nil : words p [] = [] := rfl

theorem words_append {l r : List α} {x : α} (hx : p x = true) :
    words p (l ++ x :: r) = words p l ++ words p r := by
  rw [words, List.splitOnP_append_cons _ _ hx, List.filter_append]
  rfl

theorem words_cons_sep {x : α} {l : List α} (hx : p x = true) : words p (x :: l) = words p l :=
  words_append (l := []) hx

theorem words_eq_single {w : List α} (hw : ∀ x ∈ w, ¬ p x = true) (hne : w ≠ []) :
    words p w = [w] := by
  rw [words, List.splitOnP_eq_singleton (by simpa using hw)]
  simp [hne]

theorem words_dropWhile (l : List α) : words p (l.dropWhile p) = words p l := by
  induction l with
  | nil => rfl
  | cons x l ih =>
    rw [List.dropWhile_cons]
    split
    · rename_i hx
      rw [ih, words_cons_sep hx]
    · rfl

theorem drop_length_takeWhile (p : α → Bool) (l : List α) :
    l.drop (l.takeWhile p).length = l.dropWhile p := by
  induction l with
  | nil => rfl
  | cons x l ih =>
    rw [List.takeWhile_cons, List.dropWhile_cons]
    split
    · rw [List.length_cons, List.drop_succ_cons, ih]
    · rfl

theorem take_length_takeWhile (p : α → Bool) (l : List α) :
    l.take (l.takeWhile p).length = l.takeWhile p :=
  (List.prefix_iff_eq_take.mp (List.takeWhile_prefix p)).symm

theorem takeWhile_dropWhile_ne {l : List α} (h : l.dropWhile p ≠ []) :
    (l.dropWhile p).takeWhile (fun x => !p x) ≠ [] := by
  have := List.head?_dropWhile_not p l
  cases hd : l.dropWhile p with
  | nil => exact absurd hd h
  | cons x r =>
    rw [hd, List.head?_cons] at this
    rw [List.takeWhile_cons]
    simpa using this

/-- The first word, and the words behind the separator that follows it. -/
theorem words_step {l : List α} (h : l.dropWhile p ≠ []) :
    words p l = (l.dropWhile p).takeWhile (fun x => !p x) ::
      words p (((l.dropWhile p).dropWhile fun x => !p x).drop 1) := by
  have hne := takeWhile_dropWhile_ne h
  rw [← words_dropWhile]
  generalize l.dropWhile p = r at hne
  have hword : ∀ x ∈ r.takeWhile (fun x => !p x), ¬ p x = true := fun x hx => by
    simpa using List.mem_takeWhile_imp hx
  nth_rewrite 1 [← List.takeWhile_append_dropWhile (p := fun x => !p x) (l := r)]
  cases hd : r.dropWhile (fun x => !p x) with
  | nil =>
    rw [List.append_nil, words_eq_single hword hne]
    rfl
  | cons y t =>
    have hy : p y = true := by
      have := List.head?_dropWhile_not (fun x => !p x) r
      rw [hd, List.head?_cons] at this
      simpa using this
    rw [words_append hy, words_eq_single hword hne]
    rfl

theorem two_mul_words_le (l : List α) : 2 * (words p l).length ≤ l.length + 1 := by
  induction hn : l.length using Nat.strong_induction_on generalizing l with
  | _ n ih =>
    subst hn
    by_cases h : l.dropWhile p = []
    · rw [← words_dropWhile, h]
      exact Nat.zero_le _
    · have hsplit := congrArg List.length
        (List.takeWhile_append_dropWhile (p := fun x => !p x) (l := l.dropWhile p))
      have hword := List.length_pos_iff.mpr (takeWhile_dropWhile_ne h)
      have hle := (List.dropWhile_sublist p (l := l)).length_le
      rw [List.length_append] at hsplit
      rw [words_step h, List.length_cons]
      by_cases hd : (l.dropWhile p).dropWhile (fun x => !p x) = []
      · rw [hd]
        simp only [List.drop_nil, words_nil, List.length_nil]
        omega
      · have hpos := List.length_pos_iff.mpr hd
        have := ih (((l.dropWhile p).dropWhile fun x => !p x).drop 1).length
          (by rw [List.length_drop]; omega) _ rfl
        rw [List.length_drop] at this
        omega

end Words

/-! ## Strings in memory -/

/-- The string at address `s` is `l`. -/
def CStr (mem : ℕ → UInt8) : (s : ℕ) → (l : List UInt8) → Prop
  | s, [] => mem s = 0
  | s, x :: l => x ≠ 0 ∧ mem s = x ∧ CStr mem (s + 1) l

namespace CStr

variable {mem mem' : ℕ → UInt8} {s k : ℕ} {l : List UInt8}

theorem drop (h : CStr mem s l) (hk : k ≤ l.length) : CStr mem (s + k) (l.drop k) := by
  induction l generalizing s k with
  | nil =>
    obtain rfl : k = 0 := Nat.le_zero.mp hk
    exact h
  | cons x l ih =>
    cases k with
    | zero => exact h
    | succ k =>
      rw [List.drop_succ_cons, Nat.add_comm k, ← Nat.add_assoc]
      exact ih h.2.2 (Nat.le_of_succ_le_succ hk)

theorem frame (h : CStr mem s l) (hsame : ∀ q, s ≤ q → q ≤ s + l.length → mem' q = mem q) :
    CStr mem' s l := by
  induction l generalizing s with
  | nil =>
    rw [CStr, hsame s le_rfl le_rfl]
    exact h
  | cons x l ih =>
    rw [List.length_cons] at hsame
    refine ⟨h.1, ?_, ih h.2.2 fun q h1 h2 => hsame q (by omega) (by omega)⟩
    rw [hsame s le_rfl (Nat.le_add_right _ _)]
    exact h.2.1

theorem take (h : CStr mem s l) (hk : k ≤ l.length)
    (hsame : ∀ q, s ≤ q → q < s + k → mem' q = mem q) (hzero : mem' (s + k) = 0) :
    CStr mem' s (l.take k) := by
  induction k generalizing s l with
  | zero =>
    rw [List.take_zero]
    exact hzero
  | succ k ih =>
    cases l with
    | nil => exact absurd hk (Nat.not_succ_le_zero k)
    | cons x l =>
      rw [List.take_succ_cons]
      refine ⟨h.1, ?_, ih h.2.2 (Nat.le_of_succ_le_succ hk)
        (fun q h1 h2 => hsame q (by omega) (by omega)) ?_⟩
      · rw [hsame s le_rfl (by omega)]
        exact h.2.1
      · rw [Nat.add_assoc, Nat.add_comm 1 k]
        exact hzero

/-- A word is cut off by a 0 over the byte that ends it. -/
theorem cut {p : UInt8 → Bool} (h : CStr mem s l) (hp : l.dropWhile p ≠ []) :
    CStr (Function.update mem (s + (l.takeWhile p).length) 0) s (l.takeWhile p) ∧
      CStr (Function.update mem (s + (l.takeWhile p).length) 0) (s + (l.takeWhile p).length + 1)
        ((l.dropWhile p).drop 1) ∧
        (l.takeWhile p).length + 1 + ((l.dropWhile p).drop 1).length = l.length := by
  have hlen := congrArg List.length (List.takeWhile_append_dropWhile (p := p) (l := l))
  have hpos := List.length_pos_iff.mpr hp
  rw [List.length_append] at hlen
  refine ⟨?_, ?_, by rw [List.length_drop]; omega⟩
  · have := h.take (k := (l.takeWhile p).length) (by omega)
      (fun q _ hq => Function.update_of_ne (Nat.ne_of_lt hq) 0 mem) (Function.update_self ..)
    rwa [take_length_takeWhile] at this
  · have := h.drop (k := (l.takeWhile p).length + 1) (by omega)
    rw [← List.drop_drop, drop_length_takeWhile, ← Nat.add_assoc] at this
    exact this.frame fun q hq _ => Function.update_of_ne (by omega) _ _

end CStr
