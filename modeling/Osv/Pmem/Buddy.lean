import Osv.Pmem.Rep

/-!
# Splitting and merging

What the functions of the buddy allocator do to the tiling that the page map
stands for.  `find_freeblock` takes a block off the lists, splitting larger
blocks on the way, and `merge_block` joins a block with its buddy for as long as
the buddy is free.  Both end with one block held, and neither touches a live or
a reserved block.  No assertion fails and no buddy is missing, from any
variables that stand for a tiling.
-/

namespace Osv

open Prog (bind_of_ok read_run update_run)

open Dyadic

variable {s : Pmem} {N : ℕ} {T : Tiling Tag N}

/-! ## Running the small functions -/

theorem freeblocksInsert_run {page : ℕ} (h : (s.pagemap page).order ≤ maxOrder) :
    freeblocksInsert page s = .ok ((), (s.setRefcnt page 0).push (s.pagemap page).order page) := by
  rw [freeblocksInsert, kassert_bind (by simpa using h), bind_of_ok (update_run _ _), update_run]
  simp only [Pmem.push, Pmem.setRefcnt_order]

variable {page k : ℕ}

theorem listRemove_run (hk : k ≤ maxOrder) (h : page ∈ s.freeblocks k) :
    listRemove page s = .ok ((), s.unlink page) := by
  have hany : ((List.range (maxOrder + 1)).any fun k => page ∈ s.freeblocks k) = true := by
    rw [List.any_eq_true]
    exact ⟨k, List.mem_range.mpr (Nat.lt_succ_of_le hk), by simpa using h⟩
  rw [listRemove, bind_of_ok (read_run s), if_pos hany]
  rfl

theorem freeblocksRemove_run (hr : (s.pagemap page).refcnt = 0)
    (ho : (s.pagemap page).order ≤ maxOrder) (hk : k ≤ maxOrder) (h : page ∈ s.freeblocks k) :
    freeblocksRemove page s = .ok ((), s.unlink page) := by
  rw [freeblocksRemove, kassert_bind (by simpa using hr), kassert_bind
    (by simpa using ho), listRemove_run hk h]

theorem findBuddy_run (ho : (s.pagemap page).order = k) (hk : k ≤ maxOrder) (hal : 2 ^ k ∣ page) :
    findBuddy page s = .ok (if s.nPages ≤ buddy k page then none else
      some (buddy k page), s) := by
  have hmod : page % 2 ^ k = 0 := Nat.mod_eq_zero_of_dvd hal
  rw [findBuddy, kassert_bind (by simpa [ho] using hk), kassert_bind (by simpa [ho] using hmod),
    Prog.reads_run]
  simp only [ho, buddy]
  rfl

/-! ## The small functions on tilings -/

variable {h k : ℕ}

namespace Rep

theorem freeblocksRemove (R : Rep s T) (hh : T.tile h = some (k, .free)) :
    Osv.freeblocksRemove h s = .ok ((), s.unlink h) := by
  have hk := R.order_le hh
  exact freeblocksRemove_run (R.refcnt_ok hh) (by rw [R.order_eq hh]; exact hk) hk (R.listed.mpr hh)

theorem freeblocksInsert (R : Rep s T) (hh : T.tile h = some (k, .held)) :
    Osv.freeblocksInsert h s = .ok ((), (s.setRefcnt h 0).push k h) ∧
      Rep ((s.setRefcnt h 0).push k h) (T.retag hh .free) := by
  have hk := R.order_le hh
  constructor
  · rw [freeblocksInsert_run (by rw [R.order_eq hh]; exact hk), R.order_eq hh]
  · have hself : ∀ a, ((s.setRefcnt h 0).pagemap a).refcnt = (s.pagemap a).refcnt := by
      intro a
      rw [Pmem.setRefcnt_refcnt]
      split
      · rename_i h1; rw [h1]; exact (R.refcnt_ok hh).symm
      · rfl
    have R' : Rep (s.setRefcnt h 0) T := by
      refine of_tiles (fun ha => ?_) R.listed R.nodup
      rw [Pmem.setRefcnt_order, hself]
      exact ⟨R.order_le ha, R.order_eq ha, R.refcnt_ok ha⟩
    exact R'.push hh

theorem splitBlock (R : Rep s T) (hN : s.nPages = N) (hh : T.tile h = some (k + 1, .held)) :
    ∃ s', Osv.splitBlock h (k + 1) s = .ok ((), s') ∧ s'.fixed = s.fixed ∧
      Rep s' (T.split hh .held .free) := by
  have hk : k ≤ maxOrder := Nat.le_of_succ_le (R.order_le hh)
  have hal := T.aligned hh
  have hin := T.inside hh
  have hpos := Nat.two_pow_pos k
  have hbud : buddy k h = h + 2 ^ k := buddy_of_aligned hal
  have hlt : ¬ s.nPages ≤ h + 2 ^ k := by
    rw [hN, pow_succ] at *
    omega
  have hfind : findBuddy h (s.setOrder h k) = .ok (some (h + 2 ^ k), s.setOrder h k) := by
    rw [findBuddy_run (k := k) (by simp) hk (dvd_of_le (Nat.le_succ k) hal), hbud]
    exact congrArg (fun x => Except.ok (x, s.setOrder h k)) (if_neg hlt)
  refine ⟨_, ?_, ?_, R.split hh⟩
  · rw [Osv.splitBlock, bind_of_ok (update_run _ _), Nat.add_sub_cancel, bind_of_ok hfind]
    simp only
    rw [bind_of_ok (update_run _ _), freeblocksInsert_run (by simpa using hk)]
    simp
  · rfl

end Rep

/-! ## Finding a free block -/

/-- `T'` comes from `T` by taking a block of order `k` at `p` in hand. -/
structure Taken (T T' : Tiling Tag N) (p k : ℕ) : Prop where
  held : T'.tile p = some (k, .held)
  only : OnlyHeld T' p
  same : SameFixed T T'
  apart : Apart T → Apart T'

theorem NoHeld.onlyHeld (hT : NoHeld T) {t : Tag} (hh : T.tile h = some (k, t)) :
    OnlyHeld (T.retag hh .held) h := by
  intro a j ha
  rw [Tiling.retag_tile] at ha
  split at ha
  · assumption
  · exact absurd ha (hT a j)

theorem OnlyHeld.noHeld {p k : ℕ} {t u : Tag} (hT : OnlyHeld T p) (hp : T.tile p = some (k, t))
    (hu : u ≠ .held) : NoHeld (T.retag hp u) := by
  intro h j hh
  rw [Tiling.retag_tile] at hh
  split at hh
  · cases hh; exact hu rfl
  · rename_i hne
    exact hne (hT h j hh)

theorem Taken.unlink (hT : NoHeld T) (hh : T.tile h = some (k, .free)) :
    Taken T (T.retag hh .held) h k where
  held := by rw [Tiling.retag_tile, if_pos rfl]
  only := hT.onlyHeld hh
  same := SameFixed.retag hh (.inl rfl) (.inr rfl)
  apart hA := hA.retag hh (by simp)

theorem Taken.split {T' : Tiling Tag N} {p k : ℕ} (h : Taken T T' p (k + 1)) :
    Taken T (T'.split h.held .held .free) p k where
  held := by
    have := Nat.two_pow_pos k
    rw [Tiling.split_tile, if_neg (by omega), if_pos rfl]
  only := by
    intro a j ha
    rw [Tiling.split_tile] at ha
    split at ha
    · cases ha
    · split at ha
      · assumption
      · exact h.only a j ha
  same := h.same.trans (SameFixed.split h.held)
  apart hA := (h.apart hA).split h.held

/-- What `find_freeblock` leaves: nothing changed and no block of the order or above is free, or a
block of the wanted order in hand. -/
def Found (s : Pmem) (T : Tiling Tag N) (order want : ℕ) : Option ℕ → Pmem → Prop
  | none, s' => s' = s ∧ ∀ k, order ≤ k → k ≤ maxOrder → s.freeblocks k = []
  | some p, s' => s'.fixed = s.fixed ∧ ∃ T', Taken T T' p want ∧ Rep s' T'

/-- The order of the block that `find_freeblock` returns. -/
def wanted (order : ℕ) (split : Bool) : ℕ := if split then order - 1 else order

theorem findFreeblockFrom_found (R : Rep s T) (hN : s.nPages = N) (hT : NoHeld T) :
    ∀ (rem order : ℕ) (split : Bool), rem + order = maxOrder + 1 → (split → 1 ≤ order) →
      ∃ r s', findFreeblockFrom rem order split s = .ok (r, s') ∧
        Found s T order (wanted order split) r s' := by
  intro rem
  -- on the orders left: a block found at a larger order comes back split
  induction rem with
  | zero =>
    intro order split hrem hs
    exact ⟨none, s, rfl, rfl, fun k h1 h2 => by omega⟩
  | succ rem ih =>
    intro order split hrem hs
    have finish : ∀ {p s1}, s1.fixed = s.fixed → (∃ T', Taken T T' p order ∧ Rep s1 T') →
        ∃ r s', (do
          (if split then splitBlock p order else pure ())
          pure (some p) : PmemM (Option ℕ)) s1 = .ok (r, s') ∧
          Found s T order (wanted order split) r s' := by
      intro p s1 hfix htaken
      obtain ⟨T', htk, R'⟩ := htaken
      cases split with
      | false => exact ⟨some p, s1, rfl, hfix, T', htk, R'⟩
      | true =>
        obtain ⟨k, rfl⟩ : ∃ k, order = k + 1 := ⟨order - 1, by have := hs rfl; omega⟩
        have hN' : s1.nPages = N := (Pmem.fixed_eq hfix).2.2.2.2.1.trans hN
        obtain ⟨s2, hrun, hfix2, R2⟩ := R'.splitBlock hN' htk.held
        refine ⟨some p, s2, ?_, hfix2.trans hfix, _, htk.split, R2⟩
        simp only [if_true]
        rw [bind_of_ok hrun]
        rfl
    rw [findFreeblockFrom, bind_of_ok (read_run s)]
    cases hl : s.freeblocks order with
    | cons p rest =>
      have hp : T.tile p = some (order, .free) := R.listed.mp (by rw [hl]; simp)
      have hrun : (do freeblocksRemove p; pure (some p) : PmemM (Option ℕ)) s =
          .ok (some p, s.unlink p) := by
        rw [bind_of_ok (R.freeblocksRemove hp)]
        rfl
      simp only
      rw [bind_of_ok hrun]
      exact finish rfl ⟨_, Taken.unlink hT hp, R.unlink hp⟩
    | nil =>
      obtain ⟨r, s1, hrun, hfound⟩ := ih (order + 1) true (by omega) (by simp)
      simp only
      rw [bind_of_ok hrun]
      cases r with
      | none =>
        obtain ⟨rfl, hempty⟩ := hfound
        refine ⟨none, s1, rfl, rfl, fun k h1 h2 => ?_⟩
        rcases Nat.eq_or_lt_of_le h1 with rfl | hlt
        · exact hl
        · exact hempty k hlt h2
      | some p =>
        obtain ⟨hfix, htaken⟩ := hfound
        exact finish hfix htaken

theorem findFreeblock_found (R : Rep s T) (hN : s.nPages = N) (hT : NoHeld T) {order : ℕ}
    (ho : order ≤ maxOrder) :
    ∃ r s', findFreeblock order false s = .ok (r, s') ∧ Found s T order order r s' :=
  findFreeblockFrom_found R hN hT _ order false (by omega) (by simp)

/-! ## Merging -/

/-- A free buddy of the held block at `p` is taken in hand too, and the two are joined. -/
theorem Taken.join {p k q : ℕ} (hk : k < maxOrder) (R : Rep s T) (hp : T.tile p = some (k, .held))
    (honly : OnlyHeld T p) (hb : T.tile (buddy k p) = some (k, .free))
    (hq : q = min p (buddy k p)) :
    ∃ T', Taken T T' q (k + 1) ∧ Rep ((s.unlink (buddy k p)).setOrder q (k + 1)) T' := by
  have hal := T.aligned hp
  have hne : p ≠ buddy k p := (buddy_ne hal).symm
  have R1 := R.unlink hb
  have hp1 : (T.retag hb .held).tile p = some (k, .held) := by
    rw [Tiling.retag_tile, if_neg hne]; exact hp
  have hb1 : (T.retag hb .held).tile (buddy k p) = some (k, .held) := by
    rw [Tiling.retag_tile, if_pos rfl]
  have honly1 : ∀ a j, (T.retag hb .held).tile a = some (j, .held) → a = p ∨ a = buddy k p := by
    intro a j ha
    rw [Tiling.retag_tile] at ha
    split at ha
    · exact .inr (by assumption)
    · exact .inl (honly a j ha)
  have hsame : SameFixed T (T.retag hb .held) := SameFixed.retag hb (.inl rfl) (.inr rfl)
  have hapart : Apart T → Apart (T.retag hb .held) := fun hA => hA.retag hb (by simp)
  have key : 2 ^ (k + 1) ∣ q ∧ (T.retag hb .held).tile q = some (k, .held) ∧
      (T.retag hb .held).tile (q + 2 ^ k) = some (k, .held) ∧
      (∀ a, a = p ∨ a = buddy k p → a = q ∨ a = q + 2 ^ k) := by
    rcases buddy_cases hal with ⟨h1, h2⟩ | ⟨h1, h2⟩
    · have : q = p := by omega
      subst this
      refine ⟨h1, hp1, h2 ▸ hb1, ?_⟩
      rintro a (rfl | rfl)
      · exact .inl rfl
      · exact .inr h2
    · have : q = buddy k p := by omega
      rw [this]
      refine ⟨h1, hb1, h2 ▸ hp1, ?_⟩
      rintro a (rfl | rfl)
      · exact .inr h2
      · exact .inl rfl
  obtain ⟨hqal, hlo, hhi, hor⟩ := key
  refine ⟨(T.retag hb .held).join hqal hlo hhi .held, ⟨?_, ?_, ?_, ?_⟩, R1.join hqal hk hlo hhi⟩
  · rw [Tiling.join_tile, if_pos rfl]
  · intro a j ha
    rw [Tiling.join_tile] at ha
    split at ha
    · assumption
    · split at ha
      · cases ha
      · rename_i h1 h2
        rcases hor a (honly1 a j ha) with h3 | h3
        · exact h3
        · exact absurd h3 h2
  · exact hsame.trans (SameFixed.join hqal hlo hhi)
  · exact fun hA => (hapart hA).join hqal hlo hhi

theorem Taken.trans {T1 T2 : Tiling Tag N} {p q j k : ℕ} (h1 : Taken T T1 p j)
    (h2 : Taken T1 T2 q k) : Taken T T2 q k where
  held := h2.held
  only := h2.only
  same := h1.same.trans h2.same
  apart hA := h2.apart (h1.apart hA)

/-- What `merge_block` leaves: a block in hand that has no free buddy of its order. -/
def Merged (s : Pmem) (T : Tiling Tag N) (p : ℕ) (s' : Pmem) : Prop :=
  s'.fixed = s.fixed ∧ ∃ (T' : Tiling Tag N) (k : ℕ), Taken T T' p k ∧ Rep s' T' ∧
    (k < maxOrder → T'.tile (buddy k p) ≠ some (k, .free))

theorem mergeBlockFrom_merged : ∀ (rem : ℕ) {s : Pmem} {T : Tiling Tag N} {p k : ℕ},
    Rep s T → s.nPages = N → T.tile p = some (k, .held) → OnlyHeld T p → maxOrder < rem + k →
      ∃ q s', mergeBlockFrom rem p s = .ok (q, s') ∧ Merged s T q s' := by
  intro rem
  -- every call raises the order by one, so `rem` calls reach the largest order
  induction rem with
  | zero =>
    intro s T p k R hN hp honly hrem
    have := R.order_le hp
    omega
  | succ rem ih =>
    intro s T p k R hN hp honly hrem
    have hk := R.order_le hp
    have ho := R.order_eq hp
    have hr : (s.pagemap p).refcnt = 0 := R.refcnt_ok hp
    have hal := T.aligned hp
    have self : Taken T T p k := ⟨hp, honly, SameFixed.refl T, id⟩
    rw [mergeBlockFrom, kassert_bind (by simpa using hr), kassert_bind (by simpa [ho] using hk),
      bind_of_ok (read_run s)]
    by_cases hmax : k = maxOrder
    · rw [if_pos (ho.trans hmax)]
      exact ⟨p, s, rfl, rfl, T, k, self, R, fun h => absurd hmax (by omega)⟩
    rw [if_neg (by rw [ho]; exact hmax), bind_of_ok (findBuddy_run ho hk hal)]
    by_cases hout : s.nPages ≤ buddy k p
    · rw [if_pos hout]
      refine ⟨p, s, rfl, rfl, T, k, self, R, fun _ hb => ?_⟩
      have := T.head_lt hb
      omega
    · rw [if_neg hout]
      simp only
      obtain ⟨j, u, hb, hj⟩ := T.buddy_head hp (by omega)
      by_cases hcond : (s.pagemap (buddy k p)).refcnt = 0 ∧
          (s.pagemap (buddy k p)).order = (s.pagemap p).order
      · rw [if_pos hcond]
        obtain ⟨hzero, hsame⟩ := hcond
        have hjk : j = k := by rw [← R.order_eq hb, hsame, ho]
        subst hjk
        have hbfree : T.tile (buddy j p) = some (j, .free) := by
          have hu := R.refcnt_ok hb
          cases u with
          | free => exact hb
          | held => exact absurd (honly _ j hb) (buddy_ne hal)
          | live | reserved => simp only [Tag.Refcnt] at hu; omega
        rw [bind_of_ok (R.freeblocksRemove hbfree)]
        have hklt : j < maxOrder := Nat.lt_of_le_of_ne hk hmax
        have continue_from : ∀ q, q = min p (buddy j p) →
            ((s.unlink (buddy j p)).pagemap q).order = j →
            ∃ q' s', (do
              Prog.update fun s => s.setOrder q ((s.pagemap q).order + 1)
              mergeBlockFrom rem q : PmemM ℕ) (s.unlink (buddy j p)) = .ok (q', s') ∧
              Merged s T q' s' := by
          intro q hq hqo
          obtain ⟨T1, htk, R1⟩ := Taken.join hklt R hp honly hbfree hq
          obtain ⟨q', s', hrun, hfix, T2, k2, htk2, R2, hlast⟩ :=
            ih R1 hN htk.held htk.only (by omega)
          refine ⟨q', s', ?_, hfix, T2, k2, htk.trans htk2, R2, hlast⟩
          rw [bind_of_ok (update_run _ _), hqo]
          exact hrun
        split
        · rename_i hlt
          exact continue_from p (by omega) ho
        · rename_i hge
          exact continue_from (buddy j p) (by omega) (R.order_eq hbfree)
      · rw [if_neg hcond]
        refine ⟨p, s, rfl, rfl, T, k, self, R, fun _ hb' => hcond ⟨?_, ?_⟩⟩
        · exact R.refcnt_ok hb'
        · rw [R.order_eq hb', ho]

end Osv
