import Osv.Lib.Run
import Osv.Pmem.Refs
import Osv.Vm.Fork
import Osv.Vm.Load
import Osv.Vm.Tables

/-!
# Destroying an address space

`vpmap_destroy` unmaps everything up to the end of the user stack with the nested loops of
`unmap_pages`, which here free the tables as well, and then frees the top-level table.  The end of
the stack has the last index on the three lower levels, so every loop goes over its whole table, and
index 510 on the top level, so the kernel's entry is left out.

The loops read the tables as they go, and clear and free what they have read.  In a
tree of tables this does not matter: a run is the list of calls that the tables before
it determine (`vpmapDestroy_eq`), and that list drops one reference for each present entry and frees
each table once (`vpmap_destroy_returns_all`).
-/

namespace Osv

open Prog (forEach bind_run)
open Nodes (extend length_snoc mem_extend nodup_extend)

/-- The page table is one of a process. -/
def vpmapDestroy (kpml4 pml4 : ℕ) : VmM Unit := do
  kassert "vpmap != kvpmap" fun _ => pml4 ≠ kpml4
  unmapPages pml4 0 ustackUpperbound true
  pmemCall (pmemFree (pml4 * pgSize))

/-! ## The loops as a list of acts -/

/-- A round of the innermost loop, or a table that is freed. -/
inductive DestroyAct where
  | entry (t i : ℕ)
  | free (f : ℕ)

/-- What an action does. -/
def DestroyAct.run : DestroyAct → VmM Unit
  | entry t i => clearPte (t, i)
  | free f => pmemCall (pmemFree (f * pgSize))

/-- The acts for the entries below `limit` of a table, from those for the tables below. -/
def actsOf (mem : ℕ → ℕ → ℕ) (below : ℕ → List DestroyAct) (limit t : ℕ) : List DestroyAct :=
  (List.range limit).flatMap fun i =>
    match tableChild mem t i with
    | none => []
    | some u => below u ++ [.free u]

/-- The acts for a table with `n` levels of tables below it. -/
def actsBelow (mem : ℕ → ℕ → ℕ) : ℕ → ℕ → List DestroyAct
  | 0 => fun t => (List.range nPtePerPg).map (.entry t)
  | n + 1 => actsOf mem (actsBelow mem n) nPtePerPg

/-- The acts of `unmap_pages`. -/
def destroyActs (mem : ℕ → ℕ → ℕ) (d : ℕ) : List DestroyAct :=
  actsOf mem (actsBelow mem 2) kernelIdx d

/-- The tables of a process are those of `mem`. -/
def SameOwn (mem : ℕ → ℕ → ℕ) (d : ℕ) (s : Vm) : Prop :=
  ∀ π, Under userEntries π → reach s.mem d π = reach mem d π

/-- The tables of a process are a tree. -/
def OwnTree (mem : ℕ → ℕ → ℕ) (d : ℕ) : Prop :=
  ∀ π ρ f, Under userEntries π → Under userEntries ρ → reach mem d π = some f →
    reach mem d ρ = some f →
    π = ρ

variable {s : Vm} {a : DestroyAct} {limit t : ℕ}

section Acts

variable {mem : ℕ → ℕ → ℕ} {d : ℕ}

theorem mem_actsOf {below : ℕ → List DestroyAct} : a ∈ actsOf mem below limit t ↔
      ∃ i < limit, ∃ u, tableChild mem t i = some u ∧ (a ∈ below u ∨ a = .free u) := by
  simp only [actsOf, List.mem_flatMap, List.mem_range]
  refine exists_congr fun i => and_congr_right fun _ => ?_
  cases tableChild mem t i <;> simp

variable {π : List ℕ}

theorem reach_snoc_of_child {i t u : ℕ} (ht : reach mem d π = some t) (hi : i < nPtePerPg)
    (hu : tableChild mem t i = some u) : reach mem d (π ++ [i]) = some u := by
  rw [reach, Nodes.follow_snoc, ← reach, ht]
  show slot mem t i = some u
  rw [slot, if_pos hi, hu]

theorem under_snoc {i : ℕ} (hπ : Under userEntries π) (hlen : π.length < 3)
    (hi : π = [] → i ≠ kernelIdx) : Under userEntries (π ++ [i]) := by
  refine ⟨by rw [length_snoc]; omega, fun j hj => ?_⟩
  cases π with
  | nil =>
    cases hj
    exact hi rfl
  | cons k π => exact hπ.2 j hj

theorem entry_mem_actsBelow {n t u j : ℕ} (hπ : Under userEntries π) (hlen : π.length + n = 3)
    (hne : π ≠ []) (ht : reach mem d π = some t) (h : .entry u j ∈ actsBelow mem n t) :
    ∃ ρ, Under userEntries ρ ∧ ρ.length = 3 ∧ reach mem d ρ = some u := by
  induction n generalizing t π with
  | zero =>
    simp only [actsBelow, List.mem_map] at h
    obtain ⟨i, -, h⟩ := h
    cases h
    exact ⟨π, hπ, hlen, ht⟩
  | succ n ih =>
    obtain ⟨i, hi, w, hw, h | h⟩ := mem_actsOf.mp h
    · exact ih (under_snoc hπ (by omega) fun h => absurd h hne)
        (by rw [length_snoc]; omega) (by simp) (reach_snoc_of_child ht hi hw) h
    · cases h

/-- Clearing an entry of a page table, or freeing a page, keeps the tables. -/
theorem SameOwn.run (hT : OwnTree mem d) {s s' : Vm} {u : Unit}
    (ha : ∀ t i, a = .entry t i → ∃ ρ, Under userEntries ρ ∧ ρ.length = 3 ∧ reach mem d ρ = some t)
    (hs : SameOwn mem d s) (h : a.run s = .ok (u, s')) : SameOwn mem d s' := by
  cases a with
  | free f =>
    have hcall : pmemCall (pmemFree (f * pgSize)) s = .ok (u, s') := h
    obtain ⟨pm, -, rfl⟩ := Prog.zoom_ok.mp hcall
    exact hs
  | entry t i =>
    obtain ⟨ρ, hρ, hlen, hρt⟩ := ha t i rfl
    intro π hπ
    rw [← hs π hπ]
    refine reach_under_congr (fun σ f j hσ hf => ?_) hπ
    have hmem : s'.mem = (s.setWord t i 0).mem := clearPte_mem h
    rw [hmem]
    refine if_neg ?_
    rintro ⟨rfl, -⟩
    rw [hs σ hσ.of_snoc.1] at hf
    have hσlen := hσ.of_snoc.2
    rw [hT σ ρ f hσ.of_snoc.1 hρ hf hρt] at hσlen
    omega

theorem SameOwn.child (hs : SameOwn mem d s) {i t : ℕ} (hπ : Under userEntries (π ++ [i]))
    (hi : i < nPtePerPg) (ht : reach mem d π = some t) :
    tableChild s.mem t i = tableChild mem t i := by
  have h := hs _ hπ
  rw [reach, reach, Nodes.follow_snoc, Nodes.follow_snoc, ← reach, ← reach, hs π hπ.of_snoc.1,
    ht] at h
  have h' : slot s.mem t i = slot mem t i := h
  rwa [slot, slot, if_pos hi, if_pos hi] at h'

/-- A loop over a table makes the acts of `below`. -/
def Makes (mem : ℕ → ℕ → ℕ) (d n : ℕ) (prog : ℕ → VmM Unit) (below : ℕ → List DestroyAct) : Prop :=
  ∀ π t s, Under userEntries π → π.length + n = 3 → π ≠ [] →
    reach mem d π = some t → SameOwn mem d s →
    prog t s = Prog.forEach (below t) DestroyAct.run s

theorem makes_clearTable : Makes mem d 0 (fun t => clearTable t 0 nPtePerPg) (actsBelow mem 0) := by
  intro π t s _ _ _ _ _
  show clearTable t 0 nPtePerPg s = _
  rw [clearTable, actsBelow, Prog.forEach_map, Nat.sub_zero, ← List.range_eq_range']
  rfl

/-- A loop over the first `limit` entries of a table of tables, one level up. -/
theorem unmapTable_acts (hT : OwnTree mem d) {n limit : ℕ}
    {child : (table first limit : ℕ) → VmM Unit}
    (hw : Makes mem d n (fun t => child t 0 nPtePerPg) (actsBelow mem n)) {t : ℕ}
    (hπ : Under userEntries π) (hlen : π.length + (n + 1) = 3) (hlim : limit ≤ nPtePerPg)
    (hk : π = [] → limit ≤ kernelIdx) (ht : reach mem d π = some t) (hs : SameOwn mem d s) :
    unmapTable true 0 511 child t 0 limit s =
      forEach (actsOf mem (actsBelow mem n) limit t) DestroyAct.run s := by
  rw [unmapTable, actsOf, Prog.forEach_flatMap, Nat.sub_zero, ← List.range_eq_range']
  have hchild : ∀ i < limit, Under userEntries (π ++ [i]) := fun i hi =>
    under_snoc hπ (by omega) fun h => by have := hk h; simp only [kernelIdx] at *; omega
  have hacts : ∀ i < limit, ∀ a ∈ (match tableChild mem t i with
      | none => []
      | some u => actsBelow mem n u ++ [.free u] : List DestroyAct), ∀ s u s', SameOwn mem d s →
      a.run s = .ok (u, s') → SameOwn mem d s' := by
    intro i hi a ha s u s' hs h
    refine hs.run hT (fun x j hx => ?_) h
    subst hx
    cases hc : tableChild mem t i with
    | none =>
      rw [hc] at ha
      cases ha
    | some w =>
      rw [hc] at ha
      rcases List.mem_append.mp ha with ha | ha
      · exact entry_mem_actsBelow (hchild i hi) (by rw [length_snoc]; omega) (by simp)
          (reach_snoc_of_child ht (by omega) hc) ha
      · cases List.mem_singleton.mp ha
  refine Prog.forEach_congr (P := SameOwn mem d) (fun i hi s hs => ?_)
    (fun i hi s u s' hs h => Prog.forEach_inv (fun a ha s u s' hs h =>
      hacts i (List.mem_range.mp hi) a ha s u s' hs h) hs h) hs
  have hi' : i < limit := List.mem_range.mp hi
  have hc := hs.child (hchild i hi') (by omega) ht
  have hnext : (if i = 0 then 0 else 0) = 0 := by split <;> rfl
  rw [Prog.read_bind]
  simp only [hnext]
  cases hm : tableChild mem t i with
  | none =>
    rw [hm, tableChild] at hc
    split at hc
    · cases hc
    · rename_i hp
      rw [if_neg hp]
      rfl
  | some u =>
    have hu : reach mem d (π ++ [i]) = some u := reach_snoc_of_child ht (by omega) hm
    rw [hm, tableChild] at hc
    split at hc
    · rename_i hp
      have hfr := Option.some.inj hc
      rw [if_pos hp, hfr]
      have hrun : child u 0 nPtePerPg s = forEach (actsBelow mem n u) DestroyAct.run s :=
        hw (π ++ [i]) u s (hchild i hi') (by rw [length_snoc]; omega) (by simp) hu hs
      have hlim : tableLimit 0 511 = nPtePerPg := rfl
      simp only [hlim]
      rw [Prog.forEach_append, bind_run, bind_run, hrun]
      cases hr : forEach (actsBelow mem n u) DestroyAct.run s with
      | error e => rfl
      | ok r =>
        have hs' : SameOwn mem d r.2 := Prog.forEach_inv (fun a ha s v s' hs h =>
          hacts i hi' a (by rw [hm]; exact List.mem_append_left _ ha) s v s' hs h) hs hr
        have hc' := hs'.child (hchild i hi') (by omega) ht
        rw [hm, tableChild] at hc'
        split at hc'
        · have hfr' := Option.some.inj hc'
          show pmemCall (pmemFree (entryAddr (r.2.mem t i))) r.2 =
            forEach [.free u] DestroyAct.run r.2
          rw [entryAddr, hfr', Prog.forEach_singleton]
          rfl
        · cases hc'
    · cases hc

theorem unmapPages_acts (hT : OwnTree mem d) (hs : SameOwn mem d s) :
    unmapPages d 0 ustackUpperbound true s = forEach (destroyActs mem d) DestroyAct.run s := by
  have w1 : Makes mem d 1 (fun t => unmapPd 0 ustackUpperbound true t 0 nPtePerPg)
      (actsBelow mem 1) :=
    fun π t s hπ hlen hne ht hs => unmapTable_acts hT makes_clearTable hπ hlen le_rfl
      (fun h => absurd h hne) ht hs
  have w2 : Makes mem d 2 (fun t => unmapPdpt 0 ustackUpperbound true t 0 nPtePerPg)
      (actsBelow mem 2) :=
    fun π t s hπ hlen hne ht hs => unmapTable_acts hT w1 hπ hlen le_rfl
      (fun h => absurd h hne) ht hs
  rw [unmapPages, kassert_bind (by decide)]
  exact unmapTable_acts hT w2 (π := []) .nil rfl (by decide) (fun _ => le_rfl) rfl hs

end Acts

/-! ## The acts as a list of calls -/

/-- A call of the allocator, or an entry that is set to 0. -/
inductive DestroyCall where
  | decRefcnt (f : ℕ)
  | clear (t i : ℕ)
  | free (f : ℕ)
deriving DecidableEq

namespace DestroyCall

/-- What a call does. -/
def run : DestroyCall → VmM Unit
  | decRefcnt f => pmemCall (pmemDecRefcnt (f * pgSize))
  | clear t i => Prog.update fun s => s.setWord t i 0
  | free f => pmemCall (pmemFree (f * pgSize))

/-- The page a call drops a reference of. -/
def dropped : DestroyCall → Option ℕ
  | decRefcnt f => some f
  | _ => none

/-- The page a call frees. -/
def freed : DestroyCall → Option ℕ
  | free f => some f
  | _ => none

end DestroyCall

namespace DestroyAct

/-- The calls of an act, where the entries are those of `mem`. -/
def calls (mem : ℕ → ℕ → ℕ) : DestroyAct → List DestroyCall
  | entry t i => ((tableChild mem t i).map .decRefcnt).toList ++ [.clear t i]
  | free f => [.free f]

/-- The entry of an act. -/
def entries : DestroyAct → List (ℕ × ℕ)
  | entry t i => [(t, i)]
  | free _ => []

end DestroyAct

/-- The calls of `vpmap_destroy`. -/
def destroyCalls (mem : ℕ → ℕ → ℕ) (d : ℕ) : List DestroyCall :=
  (destroyActs mem d).flatMap (DestroyAct.calls mem) ++ [.free d]

section Calls

variable {mem : ℕ → ℕ → ℕ} {d : ℕ}

theorem DestroyAct.run_calls (h : ∀ x ∈ a.entries, s.mem x.1 x.2 = mem x.1 x.2) :
    a.run s = forEach (a.calls mem) DestroyCall.run s := by
  cases a with
  | free f => exact (Prog.forEach_singleton ..).symm
  | entry t i =>
    have he : s.mem t i = mem t i := h (t, i) List.mem_cons_self
    rw [DestroyAct.run, clearPte, Prog.read_bind, calls, tableChild, ← he]
    split
    · simp only [Option.map_some, Option.toList_some, List.singleton_append]
      rw [Prog.forEach_cons, bind_run, bind_run]
      have hcall : (DestroyCall.decRefcnt (entryFrame (s.mem t i))).run =
          pmemCall (pmemDecRefcnt (entryAddr (s.mem t i))) := rfl
      rw [hcall]
      cases (pmemCall (pmemDecRefcnt (entryAddr (s.mem t i))) : VmM Unit) s with
      | error e | ok r => rfl
    · rfl

theorem forEach_calls {acts : List DestroyAct} (hn : (acts.flatMap DestroyAct.entries).Nodup)
    (h : ∀ x ∈ acts.flatMap DestroyAct.entries, s.mem x.1 x.2 = mem x.1 x.2) :
    forEach acts DestroyAct.run s =
      forEach (acts.flatMap (DestroyAct.calls mem)) DestroyCall.run s := by
  induction acts generalizing s with
  | nil => rfl
  | cons a acts ih =>
    rw [List.flatMap_cons] at hn h ⊢
    have ha := DestroyAct.run_calls (a := a) fun x hx => h x (List.mem_append_left _ hx)
    obtain ⟨-, hn', hdis⟩ := List.nodup_append.mp hn
    rw [Prog.forEach_cons, Prog.forEach_append, bind_run, bind_run, ← ha]
    cases hr : a.run s with
    | error e => rfl
    | ok r =>
      refine ih hn' fun x hx => ?_
      rw [← h x (List.mem_append_right _ hx)]
      cases a with
      | free f =>
        have hcall : pmemCall (pmemFree (f * pgSize)) s = .ok (r.1, r.2) := hr
        obtain ⟨pm, -, hs'⟩ := Prog.zoom_ok.mp hcall
        rw [hs']
      | entry t i =>
        have hmem : r.2.mem = (s.setWord t i 0).mem := clearPte_mem hr
        rw [hmem]
        refine if_neg ?_
        rintro ⟨h1, h2⟩
        exact hdis (t, i) List.mem_cons_self x hx (Prod.ext h1.symm h2.symm)

/-! ## The calls by the walks to their tables -/

variable {Q : List (List ℕ)}

/-- What is listed for the acts of a table is listed for the walks from it. -/
theorem flatMap_actsOf {β : Type} {G : DestroyAct → List β} {H : ℕ → List β}
    {below : ℕ → List DestroyAct} {E : List (List ℕ)} (hlim : limit ≤ nPtePerPg)
    (hbelow : ∀ u, (below u).flatMap G = Q.flatMap fun ρ => (reach mem u ρ).toList.flatMap H)
    (hfree : ∀ u, G (.free u) = E.flatMap fun ρ => (reach mem u ρ).toList.flatMap H) :
    (actsOf mem below limit t).flatMap G =
      (extend limit (Q ++ E)).flatMap fun ρ => (reach mem t ρ).toList.flatMap H := by
  rw [actsOf, List.flatMap_assoc, extend, List.flatMap_assoc]
  refine List.flatMap_congr fun i hi => ?_
  have hi' : i < nPtePerPg := (List.mem_range.mp hi).trans_le hlim
  have hstep : ∀ ρ, reach mem t (i :: ρ) = (tableChild mem t i).bind fun u => reach mem u ρ := by
    intro ρ
    rw [reach, Nodes.follow_cons, slot, if_pos hi']
    rfl
  rw [List.flatMap_map]
  cases hc : tableChild mem t i with
  | none => simp [hstep, hc]
  | some u =>
    simp only [hstep, hc, Option.bind_some]
    rw [List.flatMap_append, List.flatMap_append, hbelow u, List.flatMap_singleton, hfree u]

/-- The walks to the tables `n` levels down. -/
def leafWalks : ℕ → List (List ℕ)
  | 0 => [[]]
  | n + 1 => Nodes.extend nPtePerPg (leafWalks n)

/-- The walks to the tables up to `n` levels down. -/
def tableWalks : ℕ → List (List ℕ)
  | 0 => []
  | n + 1 => Nodes.extend nPtePerPg (tableWalks n ++ [[]])

theorem entries_actsBelow (n t : ℕ) : (actsBelow mem n t).flatMap DestroyAct.entries =
    (leafWalks n).flatMap fun ρ => (reach mem t ρ).toList.flatMap fun u =>
      (List.range nPtePerPg).map (Prod.mk u) := by
  induction n generalizing t with
  | zero =>
    simp only [actsBelow, leafWalks, reach, List.flatMap_map, DestroyAct.entries,
      List.flatMap_singleton, Nodes.follow_nil, Option.toList_some]
    exact List.map_eq_flatMap.symm
  | succ n ih =>
    rw [actsBelow, flatMap_actsOf le_rfl ih (E := []) fun _ => rfl, List.append_nil, leafWalks]

theorem dropped_actsBelow (n t : ℕ) : ((actsBelow mem n t).flatMap fun a =>
      (a.calls mem).filterMap DestroyCall.dropped) =
    (leafWalks (n + 1)).flatMap fun ρ => (reach mem t ρ).toList.flatMap fun u => [u] := by
  induction n generalizing t with
  | zero =>
    rw [actsBelow, leafWalks, leafWalks, extend, List.flatMap_map, List.flatMap_assoc]
    refine List.flatMap_congr fun i hi => ?_
    rw [List.map_singleton, List.flatMap_singleton, reach, Nodes.follow_cons, slot,
      if_pos (List.mem_range.mp hi), DestroyAct.calls]
    cases tableChild mem t i with
    | none | some u => rfl
  | succ n ih =>
    rw [actsBelow, flatMap_actsOf le_rfl ih (E := []) fun _ => rfl, List.append_nil]
    rfl

theorem freed_actsBelow (n t : ℕ) : ((actsBelow mem n t).flatMap fun a =>
      (a.calls mem).filterMap DestroyCall.freed) =
    (tableWalks n).flatMap fun ρ => (reach mem t ρ).toList.flatMap fun u => [u] := by
  induction n generalizing t with
  | zero =>
    rw [actsBelow, tableWalks, List.flatMap_map, List.flatMap_nil, List.flatMap_eq_nil_iff]
    intro i _
    rw [DestroyAct.calls]
    cases tableChild mem t i with
    | none | some u => rfl
  | succ n ih => rw [actsBelow, flatMap_actsOf le_rfl ih (E := [[]]) fun _ => rfl, tableWalks]

/-! ## Numbers of walks -/

theorem dirOf_cons (n x : ℕ) : dirOf (n + 1) x = x / nPtePerPg ^ n % nPtePerPg :: dirOf n x := by
  induction n generalizing x with
  | zero => simp [dirOf]
  | succ n ih =>
    rw [dirOf, ih, dirOf, Nat.div_div_eq_div_mul, pow_succ', List.cons_append]

theorem dirOf_mod (n x : ℕ) : dirOf n (x % nPtePerPg ^ n) = dirOf n x := by
  induction n generalizing x with
  | zero => rfl
  | succ n ih =>
    rw [dirOf, dirOf, pow_succ', Nat.mod_mul_right_div_self, ih, Nat.mod_mul_right_mod]

theorem leafWalks_eq (n : ℕ) : leafWalks n = (List.range (nPtePerPg ^ n)).map (dirOf n) := by
  induction n with
  | zero => rfl
  | succ n ih =>
    rw [leafWalks, ih, Nodes.extend_range (Nat.pow_pos (by decide)), pow_succ']
    refine List.map_congr_left fun x hx => ?_
    have hlt : x / nPtePerPg ^ n < nPtePerPg :=
      Nat.div_lt_of_lt_mul (by rw [Nat.mul_comm]; exact List.mem_range.mp hx)
    rw [dirOf_mod, dirOf_cons, Nat.mod_eq_of_lt hlt]

theorem pagePath_eq (p : ℕ) : pagePath p = dirOf 4 p := by
  rw [pagePath, pageDir_eq]
  rfl

theorem extend_leafWalks :
    extend kernelIdx (leafWalks 3) = (List.range (511 * 2 ^ 27)).map pagePath := by
  rw [leafWalks_eq, Nodes.extend_range (by decide)]
  have hN : kernelIdx * nPtePerPg ^ 3 = 511 * 2 ^ 27 := by decide
  rw [hN]
  refine List.map_congr_left fun x hx => ?_
  have hlt : x / nPtePerPg ^ 3 < nPtePerPg := by
    have := List.mem_range.mp hx
    simp only [nPtePerPg]
    omega
  rw [dirOf_mod, pagePath_eq, dirOf_cons 3, Nat.mod_eq_of_lt hlt]

theorem nodup_leafWalks (n : ℕ) : (leafWalks n).Nodup := by
  induction n with
  | zero => exact List.nodup_singleton _
  | succ n ih => exact nodup_extend ih

variable {ρ : List ℕ}

theorem mem_leafWalks {n : ℕ} (h : ρ ∈ leafWalks n) : ρ.length = n := by
  rw [leafWalks_eq] at h
  obtain ⟨x, -, rfl⟩ := List.mem_map.mp h
  exact dirOf_length n x

theorem nil_notMem_extend {limit : ℕ} : [] ∉ extend limit Q := by
  intro h
  obtain ⟨i, -, σ, -, h⟩ := mem_extend.mp h
  cases h

theorem nodup_snoc_nil (h : Q.Nodup) (hnil : [] ∉ Q) : (Q ++ [[]]).Nodup :=
  List.nodup_append.mpr ⟨h, List.nodup_singleton _, fun ρ hρ σ hσ heq => by
    rw [List.mem_singleton.mp hσ] at heq
    exact hnil (heq ▸ hρ)⟩

theorem nodup_tableWalks (n : ℕ) : (tableWalks n ++ [[]]).Nodup := by
  induction n with
  | zero => exact List.nodup_singleton _
  | succ n ih => exact nodup_snoc_nil (nodup_extend ih) nil_notMem_extend

theorem mem_tableWalks {n : ℕ} :
    ρ ∈ tableWalks n ++ [[]] ↔ ρ.length ≤ n ∧ ∀ i ∈ ρ, i < nPtePerPg := by
  rw [List.mem_append, List.mem_singleton]
  induction n generalizing ρ with
  | zero =>
    rw [tableWalks, Nat.le_zero, List.length_eq_zero_iff]
    constructor
    · rintro (h | rfl)
      · cases h
      · exact ⟨rfl, by simp⟩
    · exact fun h => .inr h.1
  | succ n ih =>
    rw [tableWalks, mem_extend]
    cases ρ with
    | nil => simp
    | cons i ρ =>
      simp only [List.mem_append, List.mem_singleton, List.cons.injEq, reduceCtorEq, or_false,
        List.length_cons, Nat.add_le_add_iff_right, List.forall_mem_cons]
      constructor
      · rintro ⟨j, hj, σ, hσ, rfl, rfl⟩
        have := ih.mp hσ
        exact ⟨this.1, hj, this.2⟩
      · rintro ⟨hlen, hi, hρ⟩
        exact ⟨i, hi, ρ, ih.mpr ⟨hlen, hρ⟩, rfl, rfl⟩

/-- The walks to all tables of a process. -/
def ownWalks : List (List ℕ) := Nodes.extend kernelIdx (tableWalks 2 ++ [[]]) ++ [[]]

theorem nodup_ownWalks : ownWalks.Nodup :=
  nodup_snoc_nil (nodup_extend (nodup_tableWalks 2)) nil_notMem_extend

theorem under_of_mem_extend {n : ℕ} (hQ : ∀ σ ∈ Q, σ.length ≤ n) (hn : n ≤ 2)
    (h : ρ ∈ extend kernelIdx Q) : Under userEntries ρ := by
  obtain ⟨i, hi, σ, hσ, rfl⟩ := mem_extend.mp h
  have := hQ σ hσ
  refine ⟨by rw [List.length_cons]; omega, fun j hj => ?_⟩
  cases hj
  exact hi.ne

theorem under_of_mem_ownWalks (h : ρ ∈ ownWalks) : Under userEntries ρ := by
  rcases List.mem_append.mp h with h | h
  · exact under_of_mem_extend (fun σ hσ => (mem_tableWalks.mp hσ).1) le_rfl h
  · rw [List.mem_singleton.mp h]
    exact .nil

theorem mem_ownWalks {f : ℕ} (hρ : Under userEntries ρ) (h : reach mem d ρ = some f) :
    ρ ∈ ownWalks := by
  have hlt := reach_lt h
  cases ρ with
  | nil => exact List.mem_append_right _ List.mem_cons_self
  | cons i ρ =>
    refine List.mem_append_left _ (mem_extend.mpr ⟨i, ?_, ρ, mem_tableWalks.mpr ⟨?_, ?_⟩, rfl⟩)
    · have h1 : i ≠ kernelIdx := hρ.2 i rfl
      have h2 := hlt i List.mem_cons_self
      simp only [kernelIdx, nPtePerPg] at *
      omega
    · have := hρ.1
      rw [List.length_cons] at this
      omega
    · exact fun j hj => hlt j (List.mem_cons_of_mem _ hj)

/-! ## What the calls are -/

theorem flatMap_toList (Q : List (List ℕ)) :
    (Q.flatMap fun ρ => (reach mem d ρ).toList.flatMap fun u => [u])
    = Q.filterMap (reach mem d) := by
  rw [List.filterMap_eq_flatMap_toList]
  refine List.flatMap_congr fun ρ _ => ?_
  cases reach mem d ρ with
  | none | some u => rfl

theorem destroyCalls_filterMap {β : Type} (g : DestroyCall → Option β) :
    (destroyCalls mem d).filterMap g =
      ((destroyActs mem d).flatMap fun a => (a.calls mem).filterMap g) ++ (g (.free d)).toList := by
  rw [destroyCalls, List.filterMap_append, List.filterMap_flatMap]
  congr 1

theorem destroyCalls_dropped : (destroyCalls mem d).filterMap DestroyCall.dropped =
    (List.range (511 * 2 ^ 27)).filterMap fun p => reach mem d (pagePath p) := by
  rw [destroyCalls_filterMap, destroyActs,
    flatMap_actsOf (by decide) (dropped_actsBelow 2) (E := []) fun _ => rfl, List.append_nil,
    extend_leafWalks, flatMap_toList, List.filterMap_map]
  exact List.append_nil _

theorem destroyCalls_freed :
    (destroyCalls mem d).filterMap DestroyCall.freed = ownWalks.filterMap (reach mem d) := by
  rw [destroyCalls_filterMap, destroyActs,
    flatMap_actsOf (by decide) (freed_actsBelow 2) (E := [[]]) fun _ => rfl, flatMap_toList,
    ownWalks, List.filterMap_append]
  rfl

theorem nodup_freed (hT : OwnTree mem d) :
    ((destroyCalls mem d).filterMap DestroyCall.freed).Nodup := by
  rw [destroyCalls_freed]
  refine List.Pairwise.filterMap _ (fun ρ σ h f hf g hg => h f g hf hg)
    (nodup_ownWalks.imp_of_mem (S := fun ρ σ => ∀ f g, reach mem d ρ = some f →
      reach mem d σ = some g →
      f ≠ g) fun {ρ σ} hρ hσ hne f g hf hg hfg => hne ?_)
  exact hT ρ σ f (under_of_mem_ownWalks hρ) (under_of_mem_ownWalks hσ) hf (hfg ▸ hg)

theorem mem_freed {f : ℕ} : f ∈ (destroyCalls mem d).filterMap DestroyCall.freed ↔
    ∃ π, Under userEntries π ∧ reach mem d π = some f := by
  rw [destroyCalls_freed, List.mem_filterMap]
  constructor
  · rintro ⟨ρ, hρ, h⟩
    exact ⟨ρ, under_of_mem_ownWalks hρ, h⟩
  · rintro ⟨ρ, hρ, h⟩
    exact ⟨ρ, mem_ownWalks hρ h, h⟩

theorem nodup_entries (hT : OwnTree mem d) :
    ((destroyActs mem d).flatMap DestroyAct.entries).Nodup := by
  rw [destroyActs, flatMap_actsOf (by decide) (entries_actsBelow 2) (E := [])
    fun _ => rfl, List.append_nil]
  have hpairs : ∀ u : ℕ, ((List.range nPtePerPg).map (Prod.mk u)).Nodup := fun u =>
    List.nodup_range.map fun _ _ h => (Prod.mk.inj h).2
  refine List.nodup_flatMap.mpr ⟨fun ρ _ => ?_, ?_⟩
  · cases reach mem d ρ with
    | none => exact List.nodup_nil
    | some u =>
      rw [Option.toList_some, List.flatMap_singleton]
      exact hpairs u
  · refine (nodup_extend (nodup_leafWalks 2)).imp_of_mem fun {ρ σ} hρ hσ hne x hx hy => hne ?_
    have hunder : ∀ {τ}, τ ∈ extend kernelIdx (leafWalks 2) → Under userEntries τ := fun hτ =>
      under_of_mem_extend (fun _ h => (mem_leafWalks h).le) le_rfl hτ
    simp only [List.mem_flatMap, Option.mem_toList, List.mem_map] at hx hy
    obtain ⟨u, hu, i, -, rfl⟩ := hx
    obtain ⟨w, hw, j, -, hy⟩ := hy
    obtain ⟨rfl, -⟩ := Prod.mk.inj hy
    exact hT ρ σ w (hunder hρ) (hunder hσ) hu hw

end Calls

theorem vpmapDestroy_eq {kpml4 d : ℕ} (hT : OwnTree s.mem d) (hk : d ≠ kpml4) :
    vpmapDestroy kpml4 d s = forEach (destroyCalls s.mem d) DestroyCall.run s := by
  rw [vpmapDestroy, kassert_bind (by simpa using hk), bind_run, unmapPages_acts hT fun _ _ => rfl,
    forEach_calls (nodup_entries hT) fun _ _ => rfl, destroyCalls, Prog.forEach_append, bind_run]
  cases forEach ((destroyActs s.mem d).flatMap (DestroyAct.calls s.mem)) DestroyCall.run s with
  | error e => rfl
  | ok r => exact (Prog.forEach_singleton (DestroyCall.free d) DestroyCall.run r.2).symm

/-! ## What the calls depend on, and that they return -/

section

variable {mem mem' : ℕ → ℕ → ℕ} {d : ℕ}

theorem actsOf_congr {below below' : ℕ → List DestroyAct} (hword : ∀ i < limit, mem' t i = mem t i)
    (hbelow : ∀ i < limit, ∀ u, tableChild mem t i = some u → below' u = below u) :
    actsOf mem' below' limit t = actsOf mem below limit t := by
  refine List.flatMap_congr fun i hi => ?_
  have hi' := List.mem_range.mp hi
  have hchild : tableChild mem' t i = tableChild mem t i := by
      rw [tableChild, tableChild, hword i hi']
  rw [hchild]
  cases hc : tableChild mem t i with
  | none => rfl
  | some u =>
    dsimp only
    rw [hbelow i hi' u hc]

theorem actsBelow_congr (hword : ∀ π f, Under userEntries π → π ≠ [] → reach mem d π = some f →
    mem' f = mem f) {n t : ℕ} {π : List ℕ} (hπ : Under userEntries π) (hlen : π.length + n = 3)
    (hne : π ≠ []) (ht : reach mem d π = some t) : actsBelow mem' n t = actsBelow mem n t := by
  induction n generalizing t π with
  | zero => rfl
  | succ n ih =>
    refine actsOf_congr (fun i _ => congrFun (hword π t hπ hne ht) i) fun i hi u hu => ?_
    exact ih (under_snoc hπ (by omega) fun h => absurd h hne) (by rw [length_snoc]; omega) (by simp)
      (reach_snoc_of_child ht hi hu)

/-- The calls depend on the tables of the process only, without the kernel's entry. -/
theorem destroyCalls_congr (hroot : ∀ i, i ≠ kernelIdx → mem' d i = mem d i)
    (hword : ∀ π f, Under userEntries π → π ≠ [] → reach mem d π = some f → mem' f = mem f) :
    destroyCalls mem' d = destroyCalls mem d := by
  have hchild : ∀ i < kernelIdx, Under userEntries [i] := fun i hi =>
    under_snoc .nil (by simp) fun _ => hi.ne
  have hacts : destroyActs mem' d = destroyActs mem d :=
    actsOf_congr (fun i hi => hroot i hi.ne) fun i hi u hu =>
      actsBelow_congr hword (hchild i hi) rfl (by simp)
        (reach_snoc_of_child (π := []) rfl (hi.trans (by decide)) hu)
  rw [destroyCalls, destroyCalls, hacts]
  refine congrArg (· ++ [DestroyCall.free d]) (List.flatMap_congr fun a ha => ?_)
  cases a with
  | free f => rfl
  | entry u j =>
    obtain ⟨i, hi, w, hw, h | h⟩ := mem_actsOf.mp ha
    · obtain ⟨ρ, hρ, hlen, hu⟩ := entry_mem_actsBelow (hchild i hi) rfl (by simp)
        (reach_snoc_of_child (π := []) rfl (hi.trans (by decide)) hw) h
      have hne : ρ ≠ [] := by
        rintro rfl
        cases hlen
      rw [DestroyAct.calls, DestroyAct.calls, tableChild, tableChild, hword ρ u hρ hne hu]
    · cases h

end

/-- Calls return that drop as many references as there are and free a page once, and not before a
reference to it is dropped. -/
theorem forEach_counted {calls : List DestroyCall}
    (hfree : ∀ f, .free f ∈ calls → calls.count (.free f) = 1 ∧ .decRefcnt f ∉ calls)
    (hc : s.pm.Counted fun f => calls.count (.decRefcnt f) + calls.count (.free f)) :
    ∃ s', forEach calls DestroyCall.run s = .ok ((), s') := by
  induction calls generalizing s with
  | nil => exact ⟨s, rfl⟩
  | cons c calls ih =>
    have hfree' : ∀ f, .free f ∈ calls → calls.count (.free f) = 1 ∧ .decRefcnt f ∉ calls := by
      intro f hf
      obtain ⟨h1, h2⟩ := hfree f (List.mem_cons_of_mem _ hf)
      have hpos := List.count_pos_iff.mpr hf
      rw [List.count_cons] at h1
      exact ⟨by omega, fun h => h2 (List.mem_cons_of_mem _ h)⟩
    have hstep : ∃ s1, c.run s = .ok ((), s1) ∧
        s1.pm.Counted fun f => calls.count (.decRefcnt f) + calls.count (.free f) := by
      cases c with
      | clear t i =>
        refine ⟨s.setWord t i 0, rfl, ?_⟩
        have heq : (fun f => (DestroyCall.clear t i :: calls).count (.decRefcnt f) +
            (DestroyCall.clear t i :: calls).count (.free f)) =
            fun f => calls.count (.decRefcnt f) + calls.count (.free f) := by
          funext f
          simp
        rw [heq] at hc
        exact hc
      | decRefcnt g =>
        obtain ⟨pm, hrun, hc'⟩ := hc.pmemDecRefcnt (g := g)
          (fun f => calls.count (.decRefcnt f) + calls.count (.free f))
          (by simp; omega) fun x hx => by simp [Ne.symm hx]
        have hcall : pmemCall (pmemDecRefcnt (g * pgSize)) s = .ok ((), { s with pm := pm }) :=
          Prog.zoom_of_ok hrun
        exact ⟨_, hcall, hc'⟩
      | free g =>
        obtain ⟨h1, h2⟩ := hfree g List.mem_cons_self
        have hzero : calls.count (.decRefcnt g) = 0 :=
          List.count_eq_zero.mpr fun h => h2 (List.mem_cons_of_mem _ h)
        rw [List.count_cons] at h1
        obtain ⟨pm, hrun, hc'⟩ := hc.pmemFree (g := g)
          (fun f => calls.count (.decRefcnt f) + calls.count (.free f))
          (by simp) (by simp at h1; simp; omega) fun x hx => by simp [Ne.symm hx]
        have hcall : pmemCall (pmemFree (g * pgSize)) s = .ok ((), { s with pm := pm }) :=
          Prog.zoom_of_ok hrun
        exact ⟨_, hcall, hc'⟩
    obtain ⟨s1, h1, hc1⟩ := hstep
    rw [Prog.forEach_cons, Prog.bind_of_ok h1]
    exact ih hfree' hc1

/-! ## Address spaces -/

/-- The rest of the kernel leaves the tables of the process alone, and does not free the pages `K`.
-/
structure Beside (d : ℕ) (K : Set ℕ) (s s' : Vm) : Prop where
  ready : s'.pm.Ready
  used : ∀ f ∈ tables userEntries s d, f ∉ freePages s'.pm
  same : ∀ f ∈ tables userEntries s d, s'.mem f = s.mem f
  kernel : ∀ f ∈ K, f ∉ freePages s'.pm

/-- Pages are mapped at user addresses, with any result, and the rest of the kernel works. -/
inductive Populate (d : ℕ) (K : Set ℕ) : Vm → Vm → Prop
  | map {s s' : Vm} {v paddr n : ℕ} {perm : MemPerm} {e : Err} : v < 2 ^ 64 → paddr < 2 ^ 64 →
      (∀ i < n, pml4x ((pgRoundDown v + i * pgSize) % 2 ^ 64) < kernelIdx) →
      vpmapMap d v paddr n perm s = .ok (e, s') → Populate d K s s'
  | other {s s' : Vm} : Beside d K s s' → Populate d K s s'

/-- What holds of an address space all the time: its tables are a tree, and not among the pages `K`.
-/
def OwnSpace (d : ℕ) (K : Set ℕ) (s : Vm) : Prop :=
  Solo userEntries s d ∧ ∀ f ∈ K, f ∉ freePages s.pm ∧ f ∉ tables userEntries s d

theorem user_pages_lt {v n : ℕ}
    (h : ∀ i < n, pml4x ((pgRoundDown v + i * pgSize) % 2 ^ 64) < kernelIdx) : n < 2 ^ 36 := by
  by_contra hn
  have := h ((2 ^ 36 + 511 * 2 ^ 27 - v / pgSize % 2 ^ 36) % 2 ^ 36) (by omega)
  simp only [pml4x, entryIdx, nPtePerPg, pgRoundDown, pgSize, kernelIdx] at this
  omega

theorem OwnSpace.step {d : ℕ} {K : Set ℕ} {s s' : Vm} (I : OwnSpace d K s) (h : Populate d K s s') :
    OwnSpace d K s' := by
  obtain ⟨S, hK⟩ := I
  cases h with
  | @map v paddr n perm e hv hpa huser hrun =>
    rcases Nat.eq_zero_or_pos n with rfl | hn
    · cases hrun
      exact ⟨S, hK⟩
    · have hlt := user_pages_lt huser
      have hround : ∀ x, x < 2 ^ 64 → x / pgSize * pgSize < 2 ^ 64 := fun x hx =>
        (Nat.div_mul_le_self x pgSize).trans_lt hx
      obtain ⟨e', t, k, hrun', B, -⟩ := S.mapLoop (n := n) (v := pgRoundDown v)
        (a := paddr / pgSize * pgSize) (mempermToPteperm perm) hlt.le (fun i hi => (huser i hi).ne)
        (hround v hv) (hround paddr hpa)
      rw [vpmapMap_eq hv hn (by omega), hrun'] at hrun
      cases hrun
      refine ⟨B.solo, fun f hf => ⟨fun h => (hK f hf).1 (B.sub h), fun h => ?_⟩⟩
      rcases B.tables h with h | h
      · exact (hK f hf).2 h
      · exact (hK f hf).1 h.1
  | other E =>
    have hreach : ∀ π, Under userEntries π → reach s'.mem d π = reach s.mem d π := fun π hπ =>
      reach_under_congr (fun σ f i hσ hf => by rw [E.same f ⟨σ, hσ.of_snoc.1, hf⟩]) hπ
    exact ⟨S.congr E.ready E.used hreach, fun f hf =>
      ⟨E.kernel f hf, (tables_congr hreach).symm ▸ (hK f hf).2⟩⟩

section

variable {mem : ℕ → ℕ → ℕ} {d : ℕ} (hzero : ∀ i, i ≠ kernelIdx → mem d i = 0)

include hzero

theorem reach_of_empty {π : List ℕ} {f : ℕ} (hπ : Under userEntries π)
    (hf : reach mem d π = some f) : π = [] ∧ f = d := by
  cases π with
  | nil => exact ⟨rfl, (Option.some.inj hf).symm⟩
  | cons i π =>
    rw [reach_cons_of_zero (hzero i (hπ.2 i rfl))] at hf
    cases hf

theorem ownTree_of_empty : OwnTree mem d :=
  fun _ _ _ hπ hρ h1 h2 => (reach_of_empty hzero hπ h1).1.trans (reach_of_empty hzero hρ h2).1.symm

theorem destroyCalls_of_empty : destroyCalls mem d = [.free d] := by
  have hacts : destroyActs mem d = [] := by
    refine List.flatMap_eq_nil_iff.mpr fun i hi => ?_
    have hchild : tableChild mem d i = none := by
      rw [tableChild, hzero i (List.mem_range.mp hi).ne]
      rfl
    rw [hchild]
  rw [destroyCalls, hacts, List.flatMap_nil, List.nil_append]

end

theorem OwnSpace.asInit {s0 s1 : Spaces} {a : ℕ} {cached : Bool} {K : Set ℕ} (hr : s0.vm.pm.Ready)
    (ha : a ≠ kas) (hkern : (s0.space kas).vpmap ∉ freePages s0.vm.pm)
    (hK : ∀ f ∈ K, f ∉ freePages s0.vm.pm) (h : Osv.asInit a cached s0 = .ok (.ok, s1)) :
    OwnSpace (s1.space a).vpmap K s1.vm ∧ (s1.space a).vpmap ≠ (s0.space kas).vpmap := by
  obtain ⟨g, hg, hout, hready, hsub, -, -, hspace, -, hzero, -⟩ := asInit_ok hr ha hkern h
  have hd : (s1.space a).vpmap = g := by rw [hspace, Function.update_self]
  rw [hd]
  have hnil : ∀ π f, Under userEntries π → reach s1.vm.mem g π = some f →
      π = [] ∧ f = g := fun _ _ =>
    reach_of_empty hzero
  refine ⟨⟨⟨hready, ?_, fun π ρ f hπ hρ h1 h2 => ?_⟩, fun f hf => ⟨fun h => hK f hf (hsub h), ?_⟩⟩,
    fun h => hkern (h ▸ hg)⟩
  · rintro f ⟨π, hπ, hf⟩
    rw [(hnil π f hπ hf).2]
    exact hout
  · rw [(hnil π f hπ h1).1, (hnil ρ f hρ h2).1]
  · rintro ⟨π, hπ, hf'⟩
    rw [(hnil π f hπ hf').2] at hf
    exact hK g hf hg

/-- The pages of the address space are allocated: there is a reference for each page that is mapped
and for each table, and no table is mapped. -/
structure Backed (s : Vm) (d : ℕ) : Prop where
  refs : s.pm.Counted fun f => (destroyCalls s.mem d).count (.decRefcnt f) +
    (destroyCalls s.mem d).count (.free f)
  apart : ∀ p < 511 * 2 ^ 27, ∀ f ∈ tables userEntries s d, reach s.mem d (pagePath p) ≠ some f

theorem count_free_eq (l : List DestroyCall) (f : ℕ) :
    l.count (.free f) = (l.filterMap DestroyCall.freed).count f := by
  induction l with
  | nil => rfl
  | cons c l ih =>
    cases c with
    | free g => simp [DestroyCall.freed, List.count_cons, ih]
    | decRefcnt g | clear t i =>
      rw [List.count_cons_of_ne (by simp), ih, List.filterMap_cons_none rfl]

/-- An address space that `as_init` has made and `vpmap_map` has filled is destroyed by a list of
calls that its tables determine: one `pmem_dec_refcnt` for each page that is mapped, in the order of
the pages, and one `pmem_free` for each table.  Nothing behind the kernel's entry is read or freed,
and the calls return if the pages are allocated. -/
theorem vpmap_destroy_returns_all {s0 s1 : Spaces} {a : ℕ} {cached : Bool} {K : Set ℕ} {s : Vm}
    (hr : s0.vm.pm.Ready) (ha : a ≠ kas) (hkern : (s0.space kas).vpmap ∉ freePages s0.vm.pm)
    (hK : ∀ f ∈ K, f ∉ freePages s0.vm.pm) (hinit : asInit a cached s0 = .ok (.ok, s1))
    (hrun : Relation.ReflTransGen (Populate (s1.space a).vpmap K) s1.vm s) :
    let d := (s1.space a).vpmap
    let calls := destroyCalls s.mem d
    vpmapDestroy (s0.space kas).vpmap d s = Prog.forEach calls DestroyCall.run s ∧
      calls.filterMap DestroyCall.dropped =
        (List.range (511 * 2 ^ 27)).filterMap (fun p => reach s.mem d (pagePath p)) ∧
      (∀ f, calls.count (.free f) = 1 ↔ f ∈ tables userEntries s d) ∧
      (∀ f, f ∉ tables userEntries s d → calls.count (.free f) = 0) ∧
      (∀ f ∈ K, f ∉ tables userEntries s d) ∧
      (∀ mem', (∀ f ∈ tables userEntries s d, ∀ i, (f = d → i ≠ kernelIdx) → mem' f i = s.mem f i) →
        destroyCalls mem' d = calls) ∧
      (Backed s d → ∃ s', vpmapDestroy (s0.space kas).vpmap d s = .ok ((), s')) := by
  obtain ⟨I0, hne⟩ := OwnSpace.asInit hr ha hkern hK hinit
  have I : OwnSpace (s1.space a).vpmap K s := by
    induction hrun with
    | refl => exact I0
    | tail _ hstep ih => exact ih.step hstep
  intro d calls
  have hT : OwnTree s.mem d := I.1.unique
  have heq := vpmapDestroy_eq hT hne
  have hnodup := nodup_freed hT
  have hcount : ∀ f, calls.count (.free f) = 1 ↔ f ∈ tables userEntries s d := by
    intro f
    rw [count_free_eq]
    constructor
    · exact fun h => mem_freed.mp (List.count_pos_iff.mp (by rw [h]; exact Nat.one_pos))
    · exact fun h => List.count_eq_one_of_mem hnodup (mem_freed.mpr h)
  refine ⟨heq, destroyCalls_dropped, hcount, fun f hf => ?_, fun f hf => (I.2 f hf).2,
    fun mem' h => ?_, fun hB => ?_⟩
  · rw [count_free_eq]
    exact List.count_eq_zero.mpr fun h => hf (mem_freed.mp h)
  · refine destroyCalls_congr (fun i hi => h d (mem_tables_root _ s d) i fun _ => hi)
      fun π f hπ hne hf => funext fun i => h f ⟨π, hπ, hf⟩ i fun hfd => ?_
    exact absurd (hT π [] f hπ .nil hf (by rw [hfd]; rfl)) hne
  · rw [heq]
    refine forEach_counted (fun f hf => ?_) hB.refs
    have hmem : f ∈ calls.filterMap DestroyCall.freed := List.mem_filterMap.mpr ⟨_, hf, rfl⟩
    have htab : f ∈ tables userEntries s d := mem_freed.mp hmem
    refine ⟨(hcount f).mpr htab, fun hdec => ?_⟩
    have hdrop : f ∈ calls.filterMap DestroyCall.dropped := List.mem_filterMap.mpr ⟨_, hdec, rfl⟩
    rw [destroyCalls_dropped] at hdrop
    obtain ⟨p, hp, hpf⟩ := List.mem_filterMap.mp hdrop
    exact hB.apart p (List.mem_range.mp hp) f htab hpf

/-- A new address space gets one page. -/
theorem destroy_one_page : ∃ s1 s, asInit 2 true forkParent = .ok (.ok, s1) ∧
    vpmapMap (s1.space 2).vpmap 0x400000 0x6000 1 .urw s1.vm = .ok (.ok, s) ∧
    vpmapDestroy (forkParent.space kas).vpmap (s1.space 2).vpmap s =
      Prog.forEach (destroyCalls s.mem (s1.space 2).vpmap) DestroyCall.run s ∧
    ∀ f, (destroyCalls s.mem (s1.space 2).vpmap).count (.free f) = 1 ↔
      f ∈ tables userEntries s (s1.space 2).vpmap := by
  have hinit : asInit 2 true forkParent = .ok (.ok, (asInit 2 true).final forkParent) :=
    Prog.run_of_result (by decide +kernel)
  set s1 := (asInit 2 true).final forkParent with hs1
  have hmap : vpmapMap (s1.space 2).vpmap 0x400000 0x6000 1 .urw s1.vm =
      .ok (.ok, (vpmapMap (s1.space 2).vpmap 0x400000 0x6000 1 .urw).final s1.vm) :=
    Prog.run_of_result (by rw [hs1]; decide +kernel)
  have huser : ∀ i < 1, pml4x ((pgRoundDown 0x400000 + i * pgSize) % 2 ^ 64) <
      kernelIdx := by decide
  have h := vpmap_destroy_returns_all (K := ∅) mediumWorld_reachable.ready (by decide)
    forkParent_source.kernel_used (by simp) hinit
    (.single (.map (by decide) (by decide) huser hmap))
  exact ⟨s1, _, hinit, hmap, h.1, h.2.2.1⟩

end Osv
