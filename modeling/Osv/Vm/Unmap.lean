import Mathlib.Data.List.Sort
import Osv.Pmem.Run
import Osv.Vm.PageTable

/-!
# Unmapping a range

`vpmap_unmap` walks the tables of a range instead of looking every page up.  Each
of its three loops starts at the index of the first address once and at 0
afterwards, and takes as its limit the whole table or the index of the end,
according to how its first index compares with the index of the end.

The walk clears the entries of a set of pages that its index arithmetic alone
determines (`swept`), in increasing order, as far as their tables are there
(`vpmapUnmap_eq`).  Unmapping page by page clears the pages of the range in the
same order (`unmapEach_eq`).  Clearing an empty entry changes nothing, so the two
agree exactly when no page with an entry is in one set and not in the other.
-/

namespace Osv

/-! ## The walk over the tables -/

/-- Where a loop over a table ends that starts at `first`. -/
def tableLimit (first endIdx : ℕ) : ℕ := if first < endIdx then nPtePerPg else endIdx + 1

/-- The loop over a page table. -/
def clearTable (pgtable first limit : ℕ) : VmM Unit :=
  Prog.forEach (List.range' first (limit - first)) fun i => clearPte (pgtable, i)

/-- The loop over a table of tables.  Below entry `first` the next loop starts at `start`, and below
the others at 0. -/
def unmapTable (freeImm : Bool) (start endIdx : ℕ) (child : (table first limit : ℕ) → VmM Unit)
    (table first limit : ℕ) : VmM Unit :=
  Prog.forEach (List.range' first (limit - first)) fun i => do
    let s ← Prog.read
    let next := if i = first then start else 0
    (if present (s.mem table i) then do
      child (entryFrame (s.mem table i)) next (tableLimit next endIdx)
      let s ← Prog.read
      (if freeImm then pmemCall (pmemFree (entryAddr (s.mem table i))) else pure ())
    else pure ())

/-- Unmap below a page directory. -/
def unmapPd (start fin : ℕ) (freeImm : Bool) (pd pdxStart pdxEnd : ℕ) : VmM Unit :=
  unmapTable freeImm (ptx start) (ptx fin) clearTable pd pdxStart pdxEnd

/-- Unmap below a pointer table. -/
def unmapPdpt (start fin : ℕ) (freeImm : Bool) (pdpt pdptxStart pdptxEnd : ℕ) : VmM Unit :=
  unmapTable freeImm (pdx start) (pdx fin) (unmapPd start fin freeImm) pdpt pdptxStart pdptxEnd

/-- The address below another, in 64 bits. -/
def before (v : ℕ) : ℕ := (v + 2 ^ 64 - 1) % 2 ^ 64

/-- Unmap the addresses from `start` up to `fin`. -/
def unmapPages (pml4 start fin : ℕ) (freeImm : Bool) : VmM Unit := do
  kassert "PML4X(start) <= PML4X(end-1)" fun _ => pml4x start ≤ pml4x (before fin)
  unmapTable freeImm (pdptx start) (pdptx fin) (unmapPdpt start fin freeImm) pml4 (pml4x start)
    (pml4x (before fin) + 1)

/-- Unmap `n` pages from `vaddr`. -/
def vpmapUnmap (pml4 vaddr n : ℕ) : VmM Unit :=
  if n = 0 then pure ()
  else do
    let start := pgRoundDown vaddr
    let fin := (start + n * pgSize) % 2 ^ 64
    kassert "PML4X(start) <= PML4X(end)" fun _ => pml4x start ≤ pml4x fin
    unmapPages pml4 start fin false

/-- Unmap `n` pages from `start` by looking up the entry of each. -/
def unmapEach (pml4 start n : ℕ) : VmM Unit :=
  Prog.forEach (List.range n) fun i => do
    match ← findPte pml4 (start + i * pgSize) false with
    | none => pure ()
    | some pte => clearPte pte

/-! ## Trees of tables -/

/-- The indices of the table with number `x` on level `n`. -/
def dirOf : ℕ → ℕ → List ℕ
  | 0, _ => []
  | n + 1, x => dirOf n (x / nPtePerPg) ++ [x % nPtePerPg]

theorem dirOf_length (n x : ℕ) : (dirOf n x).length = n := by
  induction n generalizing x with
  | zero => rfl
  | succ n ih => simp [dirOf, ih]

theorem dirOf_lt {n x i : ℕ} (h : i ∈ dirOf n x) : i < nPtePerPg := by
  induction n generalizing x with
  | zero => cases h
  | succ n ih =>
    simp only [dirOf, List.mem_append, List.mem_singleton] at h
    rcases h with h | rfl
    · exact ih h
    · exact Nat.mod_lt _ (by decide)

theorem dirOf_inj {n x y : ℕ} (hx : x < nPtePerPg ^ n) (hy : y < nPtePerPg ^ n)
    (h : dirOf n x = dirOf n y) : x = y := by
  induction n generalizing x y with
  | zero => simp only [pow_zero] at hx hy; omega
  | succ n ih =>
    rw [pow_succ] at hx hy
    obtain ⟨h1, h2⟩ := List.append_inj' h rfl
    have h3 := ih (Nat.div_lt_of_lt_mul (by rwa [Nat.mul_comm]))
      (Nat.div_lt_of_lt_mul (by rwa [Nat.mul_comm])) h1
    have h4 : x % nPtePerPg = y % nPtePerPg := List.singleton_inj.mp h2
    rw [← Nat.div_add_mod x nPtePerPg, ← Nat.div_add_mod y nPtePerPg, h3, h4]

variable {i : ℕ}

theorem child_div (x : ℕ) (hi : i < nPtePerPg) : (x * nPtePerPg + i) / nPtePerPg = x := by
  rw [Nat.add_comm, Nat.add_mul_div_right _ _ (by decide), Nat.div_eq_of_lt hi, Nat.zero_add]

theorem child_mod (x : ℕ) (hi : i < nPtePerPg) : (x * nPtePerPg + i) % nPtePerPg = i := by
  rw [Nat.add_comm, Nat.add_mul_mod_self_right, Nat.mod_eq_of_lt hi]

theorem dirOf_child (n x : ℕ) (hi : i < nPtePerPg) :
    dirOf (n + 1) (x * nPtePerPg + i) = dirOf n x ++ [i] := by
  rw [dirOf, child_div x hi, child_mod x hi]

theorem pageDir_eq (p : ℕ) : pageDir p = dirOf 3 (p / nPtePerPg) := by
  simp only [pageDir, dirOf, nPtePerPg, Nat.div_div_eq_div_mul]
  rfl

/-- The tables below `root` are at different pages. -/
def IsTree (mem : ℕ → ℕ → ℕ) (root : ℕ) : Prop :=
  ∀ π ρ f, π.length ≤ 3 → ρ.length ≤ 3 → (∀ i ∈ π, i < nPtePerPg) → (∀ i ∈ ρ, i < nPtePerPg) →
    tableAt mem root π = some f → tableAt mem root ρ = some f → π = ρ

/-- The same tables below `root`. -/
def SameTables (mem : ℕ → ℕ → ℕ) (root : ℕ) (s : Vm) : Prop :=
  ∀ π, π.length ≤ 3 → (∀ i ∈ π, i < nPtePerPg) → tableAt s.mem root π = tableAt mem root π

variable {mem : ℕ → ℕ → ℕ} {root : ℕ}

/-- The page table of a page, by its number. -/
def leafTable (mem : ℕ → ℕ → ℕ) (root p : ℕ) : Option ℕ := tableAt mem root (pageDir p)

/-- The entry of a page, which is 0 where tables are missing. -/
def leafEntry (mem : ℕ → ℕ → ℕ) (root : ℕ) (s : Vm) (p : ℕ) : ℕ :=
  match leafTable mem root p with
  | none => 0
  | some f => s.mem f (p % nPtePerPg)

/-- Clear the entry of a page in the tables of `mem`. -/
def clearAt (mem : ℕ → ℕ → ℕ) (root p : ℕ) : VmM Unit :=
  match leafTable mem root p with
  | none => pure ()
  | some f => clearPte (f, p % nPtePerPg)

/-! ## Clearing one entry -/

variable {s : Vm}

theorem clearPte_mem {f d : ℕ} {s' : Vm} {u : Unit} (h : clearPte (f, d) s = .ok (u, s')) :
    s'.mem = (s.setWord f d 0).mem := by
  rw [clearPte, Prog.read_bind] at h
  obtain ⟨_, s1, h1, h2⟩ := Prog.bind_ok.mp h
  have hmem : s1.mem = s.mem := by
    split at h1
    · obtain ⟨pm, -, rfl⟩ := Prog.zoom_ok.mp h1
      rfl
    · cases h1
      rfl
  cases h2
  simp only [Vm.setWord, hmem]

theorem clearPte_zero {f d : ℕ} (h : s.mem f d = 0) : clearPte (f, d) s = .ok ((), s) := by
  have hset : s.setWord f d 0 = s := by
    unfold Vm.setWord
    congr 1
    funext g j
    split
    · rename_i hgj; rw [hgj.1, hgj.2, h]
    · rfl
  rw [clearPte, Prog.read_bind, h, if_neg (by decide)]
  exact congrArg (fun x => Except.ok ((), x)) hset

theorem clearAt_some {p f : ℕ} (h : leafTable mem root p = some f) :
    clearAt mem root p = clearPte (f, p % nPtePerPg) := by
  rw [clearAt, h]

theorem clearAt_none {p : ℕ} (h : leafTable mem root p = none) : clearAt mem root p = pure () := by
  rw [clearAt, h]

theorem leafEntry_some {p f : ℕ} (h : leafTable mem root p = some f) :
    leafEntry mem root s p = s.mem f (p % nPtePerPg) := by
  rw [leafEntry, h]

theorem pageDir_length (p : ℕ) : (pageDir p).length = 3 := rfl

theorem pageDir_lt (p : ℕ) : ∀ i ∈ pageDir p, i < nPtePerPg := by
  intro i hi
  rw [pageDir_eq] at hi
  exact dirOf_lt hi

/-- Clearing an entry keeps the tables: the entry lies in a page table, and a walk to a table passes
entries of the tables above only. -/
theorem clearAt_tables (hT : IsTree mem root) {p : ℕ} {s' : Vm} {u : Unit}
    (hs : SameTables mem root s) (h : clearAt mem root p s = .ok (u, s')) :
    SameTables mem root s' := by
  cases hf : leafTable mem root p with
  | none => rw [clearAt_none hf] at h; cases h; exact hs
  | some f =>
    rw [clearAt_some hf] at h
    intro π hlen hlt
    rw [← hs π hlen hlt]
    refine tableAt_congr fun ρ i g hpre hg => ?_
    rw [clearPte_mem h]
    refine if_neg ?_
    rintro ⟨rfl, -⟩
    have hsub : ρ <+: π := (List.prefix_append ρ [i]).trans hpre
    have hρlen : ρ.length + 1 ≤ π.length := by
      have := hpre.length_le
      simpa using this
    have hρlt : ∀ j ∈ ρ, j < nPtePerPg := fun j hj => hlt j (hsub.subset hj)
    rw [hs ρ (by omega) hρlt] at hg
    have heq := hT ρ (pageDir p) g (by omega) (by rw [pageDir_length]) hρlt (pageDir_lt p) hg hf
    have := congrArg List.length heq
    rw [pageDir_length] at this
    omega

theorem clearAt_zero {p : ℕ} (h : leafEntry mem root s p = 0) :
    clearAt mem root p s = .ok ((), s) := by
  cases hf : leafTable mem root p with
  | none => rw [clearAt_none hf]; rfl
  | some f =>
    rw [clearAt_some hf]
    rw [leafEntry_some hf] at h
    exact clearPte_zero h

theorem leafTable_inj (hT : IsTree mem root) {p q f : ℕ} (hp : p < 2 ^ 36) (hq : q < 2 ^ 36)
    (hpf : leafTable mem root p = some f) (hqf : leafTable mem root q = some f)
    (hmod : p % nPtePerPg = q % nPtePerPg) : p = q := by
  have heq := hT (pageDir p) (pageDir q) f (by rw [pageDir_length]) (by rw [pageDir_length])
    (pageDir_lt p) (pageDir_lt q) hpf hqf
  rw [pageDir_eq, pageDir_eq] at heq
  have hdiv : p / nPtePerPg = q / nPtePerPg := by
    refine dirOf_inj ?_ ?_ heq
    · exact Nat.div_lt_of_lt_mul (by simpa [nPtePerPg] using hp)
    · exact Nat.div_lt_of_lt_mul (by simpa [nPtePerPg] using hq)
  rw [← Nat.div_add_mod p nPtePerPg, ← Nat.div_add_mod q nPtePerPg, hdiv, hmod]

/-- Clearing the entry of a page changes the entry of no other page. -/
theorem clearAt_entry (hT : IsTree mem root) {p q : ℕ} (hp : p < 2 ^ 36) (hq : q < 2 ^ 36) {s' : Vm}
    {u : Unit} (h : clearAt mem root p s = .ok (u, s')) :
    leafEntry mem root s' q = if q = p then 0 else leafEntry mem root s q := by
  cases hq' : leafTable mem root q with
  | none => simp [leafEntry, hq']
  | some g =>
    rw [leafEntry_some hq', leafEntry_some hq']
    cases hf : leafTable mem root p with
    | none =>
      rw [clearAt_none hf] at h
      cases h
      rw [if_neg]
      rintro rfl
      rw [hf] at hq'
      cases hq'
    | some f =>
      rw [clearAt_some hf] at h
      rw [clearPte_mem h]
      simp only [Vm.setWord]
      split
      · rename_i hgf
        obtain ⟨rfl, hmod⟩ := hgf
        rw [if_pos (leafTable_inj hT hq hp hq' hf hmod)]
      · rename_i hgf
        rw [if_neg]
        rintro rfl
        rw [hf] at hq'
        cases hq'
        exact hgf ⟨rfl, rfl⟩

/-! ## Clearing a list of pages -/

/-- Clear the entries of a list of pages. -/
def clearAll (mem : ℕ → ℕ → ℕ) (root : ℕ) (l : List ℕ) : VmM Unit :=
  Prog.forEach l (clearAt mem root)

theorem clearAll_filter (hT : IsTree mem root) :
    ∀ {l : List ℕ} {s : Vm}, l.Nodup → (∀ p ∈ l, p < 2 ^ 36) →
      clearAll mem root l s = clearAll mem root (l.filter fun p => leafEntry mem root s p ≠ 0) s
  | [], s, _, _ => rfl
  | p :: l, s, hnodup, hlt => by
    obtain ⟨hp, hnodup'⟩ := List.nodup_cons.mp hnodup
    have hlt' : ∀ q ∈ l, q < 2 ^ 36 := fun q hq => hlt q (List.mem_cons_of_mem _ hq)
    by_cases hz : leafEntry mem root s p = 0
    · rw [List.filter_cons_of_neg (by simpa using hz), ← clearAll_filter hT hnodup' hlt', clearAll,
        Prog.forEach_cons, Prog.bind_of_ok (clearAt_zero hz), clearAll]
    · rw [List.filter_cons_of_pos (by simpa using hz), clearAll, clearAll, Prog.forEach_cons,
        Prog.forEach_cons, Prog.bind_run, Prog.bind_run]
      cases hr : clearAt mem root p s with
      | error e => rfl
      | ok r =>
        have hsame : (l.filter fun q => leafEntry mem root r.2 q ≠ 0) =
            l.filter fun q => leafEntry mem root s q ≠ 0 := by
          refine List.filter_congr fun q hq => ?_
          rw [clearAt_entry hT (hlt p List.mem_cons_self) (hlt' q hq) hr, if_neg]
          rintro rfl
          exact hp hq
        have hrest := @clearAll_filter hT l r.2 hnodup' hlt'
        rw [hsame] at hrest
        exact hrest

theorem clearAll_entry (hT : IsTree mem root) {q : ℕ} (hq : q < 2 ^ 36) : ∀ {l : List ℕ} {s s' : Vm}
    {u : Unit}, (∀ p ∈ l, p < 2 ^ 36) → clearAll mem root l s = .ok (u, s') →
      leafEntry mem root s' q = if q ∈ l then 0 else leafEntry mem root s q
  | [], s, s', u, _, h => by
    cases h
    simp
  | p :: l, s, s', u, hlt, h => by
    rw [clearAll, Prog.forEach_cons] at h
    obtain ⟨v, s1, h1, h2⟩ := Prog.bind_ok.mp h
    rw [clearAll_entry hT hq (fun r hr => hlt r (List.mem_cons_of_mem _ hr)) h2,
      clearAt_entry hT (hlt p List.mem_cons_self) hq h1]
    by_cases hql : q ∈ l
    · simp [hql]
    · by_cases hqp : q = p <;> simp [hql, hqp]

/-- Two increasing lists of pages are cleared alike when every page with an entry is in both or in
neither. -/
theorem clearAll_eq (hT : IsTree mem root) {l l' : List ℕ} (hl : l.Pairwise (· < ·))
    (hl' : l'.Pairwise (· < ·)) (hlt : ∀ p ∈ l, p < 2 ^ 36) (hlt' : ∀ p ∈ l', p < 2 ^ 36)
    (h : ∀ p < 2 ^ 36, leafEntry mem root s p ≠ 0 → (p ∈ l ↔ p ∈ l')) :
    clearAll mem root l s = clearAll mem root l' s := by
  have hn : l.Nodup := hl.imp Nat.ne_of_lt
  have hn' : l'.Nodup := hl'.imp Nat.ne_of_lt
  rw [clearAll_filter hT hn hlt, clearAll_filter hT hn' hlt']
  congr 1
  refine List.Perm.eq_of_pairwise (fun a b _ _ h1 h2 => absurd h1 (by omega))
    (hl.filter _) (hl'.filter _) ?_
  rw [List.perm_ext_iff_of_nodup (hn.filter _) (hn'.filter _)]
  intro p
  simp only [List.mem_filter, decide_eq_true_eq]
  constructor
  · rintro ⟨h1, h2⟩
    exact ⟨(h p (hlt p h1) h2).mp h1, h2⟩
  · rintro ⟨h1, h2⟩
    exact ⟨(h p (hlt' p h1) h2).mpr h1, h2⟩

/-! ## The pages of the walk -/

/-- The pages of the page table with number `x` that are cleared. -/
def sweepTable (x first limit : ℕ) : List ℕ :=
  (List.range' first (limit - first)).map fun i => x * nPtePerPg + i

/-- The pages that are cleared below the table with number `x`, from those below its entries. -/
def sweepUp (start endIdx : ℕ) (sub : (x first limit : ℕ) → List ℕ) (x first limit : ℕ) : List ℕ :=
  (List.range' first (limit - first)).flatMap fun i =>
    let next := if i = first then start else 0
    sub (x * nPtePerPg + i) next (tableLimit next endIdx)

/-- Pages that `unmapPd` reaches. -/
def sweepPd (start fin : ℕ) : (x first limit : ℕ) → List ℕ :=
  sweepUp (ptx start) (ptx fin) sweepTable

/-- Pages that `unmapPdpt` reaches. -/
def sweepPdpt (start fin : ℕ) : (x first limit : ℕ) → List ℕ :=
  sweepUp (pdx start) (pdx fin) (sweepPd start fin)

/-- The pages that `unmap_pages` clears, as far as their tables are there. -/
def sweepPages (start fin : ℕ) : List ℕ :=
  sweepUp (pdptx start) (pdptx fin) (sweepPdpt start fin) 0 (pml4x start) (pml4x (before fin) + 1)

theorem ptx_lt (v : ℕ) : ptx v < nPtePerPg := Nat.mod_lt _ (by decide)

theorem pdx_lt (v : ℕ) : pdx v < nPtePerPg := Nat.mod_lt _ (by decide)

theorem pdptx_lt (v : ℕ) : pdptx v < nPtePerPg := Nat.mod_lt _ (by decide)

theorem pml4x_lt (v : ℕ) : pml4x v < nPtePerPg := Nat.mod_lt _ (by decide)

theorem tableLimit_le {first endIdx : ℕ} (h : endIdx < nPtePerPg) :
    tableLimit first endIdx ≤ nPtePerPg := by
  rw [tableLimit]
  split
  · exact le_refl _
  · exact h

theorem clearAll_none {l : List ℕ} (h : ∀ p ∈ l, leafTable mem root p = none) (s : Vm) :
    clearAll mem root l s = .ok ((), s) := by
  induction l with
  | nil => rfl
  | cons p l ih =>
    rw [clearAll, Prog.forEach_cons, clearAt_none (h p List.mem_cons_self)]
    exact ih fun q hq => h q (List.mem_cons_of_mem _ hq)

/-- A loop over the tables of level `n` clears the pages that `sub` lists. -/
structure Walks (mem : ℕ → ℕ → ℕ) (root n : ℕ) (prog : (table first limit : ℕ) → VmM Unit)
    (sub : (x first limit : ℕ) → List ℕ) : Prop where
  run : ∀ {x f first limit}, limit ≤ nPtePerPg → tableAt mem root (dirOf n x) = some f →
    ∀ {s}, SameTables mem root s → prog f first limit s = clearAll mem root (sub x first limit) s
  missing : ∀ {x first limit}, limit ≤ nPtePerPg → tableAt mem root (dirOf n x) = none →
    ∀ p ∈ sub x first limit, leafTable mem root p = none

theorem walks_clearTable : Walks mem root 3 clearTable sweepTable where
  run := by
    intro x f first limit hlim hf s _
    rw [clearTable, sweepTable, clearAll, Prog.forEach_map]
    refine Prog.forEach_congr (P := fun _ => True) (fun i hi s _ => ?_)
      (fun _ _ _ _ _ _ _ => trivial)
      trivial
    have hi' : i < nPtePerPg := by
      rw [List.mem_range'_1] at hi
      omega
    have hleaf : leafTable mem root (x * nPtePerPg + i) = some f := by
      rw [leafTable, pageDir_eq, child_div x hi', hf]
    rw [clearAt_some hleaf, child_mod x hi']
  missing := by
    intro x first limit hlim hf p hp
    obtain ⟨i, hi, rfl⟩ := List.mem_map.mp hp
    rw [List.mem_range'_1] at hi
    rw [leafTable, pageDir_eq, child_div x (by omega), hf]

variable {sub : (x first limit : ℕ) → List ℕ}

/-- One level up: the loop reads the entries of its table, which the clearing below keeps. -/
theorem Walks.up (hT : IsTree mem root) {n start endIdx : ℕ} (hn : n < 3)
    (hend : endIdx < nPtePerPg) {child : (table first limit : ℕ) → VmM Unit}
    (hw : Walks mem root (n + 1) child sub) :
    Walks mem root n (unmapTable false start endIdx child) (sweepUp start endIdx sub) where
  run := by
    intro x f first limit hlim hf s hs
    rw [unmapTable, sweepUp, clearAll, Prog.forEach_flatMap]
    refine Prog.forEach_congr (P := SameTables mem root) (fun i hi s hs => ?_)
      (fun i _ s u s' hs => Prog.forEach_inv (fun _ _ _ _ _ => clearAt_tables hT) hs) hs
    have hi' : i < nPtePerPg := by
      rw [List.mem_range'_1] at hi
      omega
    have hchild := dirOf_child n x hi'
    have htab : tableAt s.mem f [i] = tableAt mem root (dirOf (n + 1) (x * nPtePerPg + i)) := by
      have h1 : tableAt s.mem root (dirOf n x) = some f := by
        rw [hs _ (by rw [dirOf_length]; omega) (fun j hj => dirOf_lt hj), hf]
      have h2 := hs (dirOf (n + 1) (x * nPtePerPg + i)) (by rw [dirOf_length]; omega)
          (fun j hj => dirOf_lt hj)
      rw [← h2, hchild, tableAt_append, h1]
      rfl
    rw [Prog.read_bind, tableAt_cons] at *
    simp only
    split
    · rename_i hp
      rw [if_pos hp] at htab
      rw [Prog.bind_run, hw.run (tableLimit_le hend) htab.symm hs, clearAll]
      cases Prog.forEach (sub (x * nPtePerPg + i) (if i = first then start else 0)
          (tableLimit (if i = first then start else 0) endIdx)) (clearAt mem root) s with
      | error e | ok r => rfl
    · rename_i hp
      rw [if_neg hp] at htab
      exact (clearAll_none (hw.missing (tableLimit_le hend) htab.symm) s).symm
  missing := by
    intro x first limit hlim hf p hp
    simp only [sweepUp, List.mem_flatMap, List.mem_range'_1] at hp
    obtain ⟨i, hi, hp⟩ := hp
    refine hw.missing (tableLimit_le hend) ?_ p hp
    rw [dirOf_child n x (by omega), tableAt_append, hf]
    rfl

theorem unmapPages_eq (hT : IsTree mem root) (hs : SameTables mem root s) {start fin : ℕ}
    (h : pml4x start ≤ pml4x (before fin)) :
    unmapPages root start fin false s = clearAll mem root (sweepPages start fin) s := by
  have w2 : Walks mem root 2 (unmapPd start fin false) (sweepPd start fin) :=
    walks_clearTable.up hT (by omega) (ptx_lt fin)
  have w1 : Walks mem root 1 (unmapPdpt start fin false) (sweepPdpt start fin) :=
    w2.up hT (by omega) (pdx_lt fin)
  have w0 : Walks mem root 0 (unmapTable false (pdptx start) (pdptx fin)
      (unmapPdpt start fin false)) (sweepUp (pdptx start) (pdptx fin) (sweepPdpt start fin)) :=
    w1.up hT (by omega) (pdptx_lt fin)
  rw [unmapPages, kassert_bind (by simpa using h), sweepPages]
  exact w0.run (pml4x_lt (before fin)) rfl hs

/-! ## The order of the walk -/

/-- The lists of `sub` are increasing, and the list of a table lies in the `W` pages below it. -/
def Spread (W : ℕ) (sub : (x first limit : ℕ) → List ℕ) : Prop :=
  ∀ x first limit, limit ≤ nPtePerPg → (sub x first limit).Pairwise (· < ·) ∧
    ∀ p ∈ sub x first limit, p / W = x

theorem spread_sweepTable : Spread nPtePerPg sweepTable := by
  intro x first limit hlim
  constructor
  · rw [sweepTable, List.pairwise_map]
    exact (List.pairwise_lt_range' 1).imp fun h => Nat.add_lt_add_left h _
  · intro p hp
    obtain ⟨i, hi, rfl⟩ := List.mem_map.mp hp
    rw [List.mem_range'_1] at hi
    exact child_div x (by omega)

theorem Spread.up {W start endIdx : ℕ} (h : Spread W sub) (hend : endIdx < nPtePerPg) :
    Spread (W * nPtePerPg) (sweepUp start endIdx sub) := by
  intro x first limit hlim
  have hsub := fun y next => h y next (tableLimit next endIdx) (tableLimit_le hend)
  constructor
  · rw [sweepUp, List.pairwise_flatMap]
    refine ⟨fun i _ => (hsub _ _).1, ?_⟩
    refine (List.pairwise_lt_range' 1).imp fun {i j} hij p hp q hq => ?_
    have h1 := (hsub _ _).2 p hp
    have h2 := (hsub _ _).2 q hq
    refine Nat.lt_of_not_le fun hle => ?_
    have := Nat.div_le_div_right (c := W) hle
    omega
  · intro p hp
    simp only [sweepUp, List.mem_flatMap, List.mem_range'_1] at hp
    obtain ⟨i, hi, hp⟩ := hp
    rw [← Nat.div_div_eq_div_mul, (hsub _ _).2 p hp, child_div x (by omega)]

/-- Membership one level up: the index into the table is a digit of the page number. -/
theorem Spread.mem_sweepUp {W start endIdx : ℕ} (h : Spread W sub) (hend : endIdx < nPtePerPg)
    {x first limit p : ℕ} (hlim : limit ≤ nPtePerPg) : p ∈ sweepUp start endIdx sub x first limit ↔
      p / W / nPtePerPg = x ∧ (first ≤ p / W % nPtePerPg ∧ p / W % nPtePerPg < limit) ∧
        p ∈ sub (p / W) (if p / W % nPtePerPg = first then start else 0)
          (tableLimit (if p / W % nPtePerPg = first then start else 0) endIdx) := by
  simp only [sweepUp, List.mem_flatMap, List.mem_range'_1]
  constructor
  · rintro ⟨i, hi, hp⟩
    have hpW := (h _ _ _ (tableLimit_le hend)).2 p hp
    rw [hpW, child_mod x (by omega)]
    exact ⟨child_div x (by omega), ⟨hi.1, by omega⟩, hp⟩
  · rintro ⟨hdiv, hi, hp⟩
    refine ⟨p / W % nPtePerPg, ⟨hi.1, by omega⟩, ?_⟩
    have hback : x * nPtePerPg + p / W % nPtePerPg = p / W := by
      rw [← hdiv, Nat.mul_comm]
      exact Nat.div_add_mod _ _
    rw [hback]
    exact hp

theorem mem_sweepTable {x first limit p : ℕ} (hlim : limit ≤ nPtePerPg) :
    p ∈ sweepTable x first limit ↔
      p / nPtePerPg = x ∧ first ≤ p % nPtePerPg ∧ p % nPtePerPg < limit := by
  simp only [sweepTable, List.mem_map, List.mem_range'_1]
  constructor
  · rintro ⟨i, hi, rfl⟩
    rw [child_div x (by omega), child_mod x (by omega)]
    exact ⟨rfl, hi.1, by omega⟩
  · rintro ⟨hdiv, h1, h2⟩
    refine ⟨p % nPtePerPg, ⟨h1, by omega⟩, ?_⟩
    rw [← hdiv, Nat.mul_comm]
    exact Nat.div_add_mod _ _

/-- Whether `unmap_pages` from `start` to `fin` sweeps over a page, by the indices of the page on
the four levels. -/
def swept (start fin p : ℕ) : Prop :=
  let pml4Idx := p / 2 ^ 27 % nPtePerPg
  let pdptIdx := p / 2 ^ 18 % nPtePerPg
  let pdIdx := p / 2 ^ 9 % nPtePerPg
  let ptIdx := p % nPtePerPg
  let pdptFirst := if pml4Idx = pml4x start then pdptx start else 0
  let pdFirst := if pdptIdx = pdptFirst then pdx start else 0
  let ptFirst := if pdIdx = pdFirst then ptx start else 0
  (pml4x start ≤ pml4Idx ∧ pml4Idx ≤ pml4x (before fin)) ∧
    (pdptFirst ≤ pdptIdx ∧ pdptIdx < tableLimit pdptFirst (pdptx fin)) ∧
    (pdFirst ≤ pdIdx ∧ pdIdx < tableLimit pdFirst (pdx fin)) ∧
    (ptFirst ≤ ptIdx ∧ ptIdx < tableLimit ptFirst (ptx fin))

theorem spread_sweepPd (start fin : ℕ) : Spread (2 ^ 18) (sweepPd start fin) :=
  spread_sweepTable.up (ptx_lt fin)

theorem spread_sweepPdpt (start fin : ℕ) : Spread (2 ^ 27) (sweepPdpt start fin) :=
  (spread_sweepPd start fin).up (pdx_lt fin)

theorem mem_sweepPages {start fin p : ℕ} (hp : p < 2 ^ 36) :
    p ∈ sweepPages start fin ↔ swept start fin p := by
  have htop : p / 2 ^ 27 / nPtePerPg = 0 := by
    rw [Nat.div_div_eq_div_mul]
    exact Nat.div_eq_of_lt hp
  rw [sweepPages, (spread_sweepPdpt start fin).mem_sweepUp (pdptx_lt fin)
    (pml4x_lt (before fin)), sweepPdpt, (spread_sweepPd start fin).mem_sweepUp
    (pdx_lt fin) (tableLimit_le (pdptx_lt fin)), sweepPd, spread_sweepTable.mem_sweepUp (ptx_lt fin)
    (tableLimit_le (pdx_lt fin)), mem_sweepTable (tableLimit_le (ptx_lt fin))]
  have e1 : p / 2 ^ 18 / nPtePerPg = p / 2 ^ 27 := by rw [Nat.div_div_eq_div_mul]; rfl
  have e2 : p / 2 ^ 9 / nPtePerPg = p / 2 ^ 18 := by rw [Nat.div_div_eq_div_mul]; rfl
  have e3 : p / nPtePerPg = p / 2 ^ 9 := rfl
  simp only [htop, e1, e2, e3, true_and, Nat.lt_succ_iff, swept]

theorem sweepPages_sorted (start fin : ℕ) : (sweepPages start fin).Pairwise (· < ·) :=
  ((spread_sweepPdpt start fin).up (pdptx_lt fin) 0 _ _ (pml4x_lt (before fin))).1

theorem sweepPages_lt (start fin : ℕ) : ∀ p ∈ sweepPages start fin, p < 2 ^ 36 := by
  intro p hp
  have h := ((spread_sweepPdpt start fin).up (pdptx_lt fin) 0 _ _ (pml4x_lt (before fin))).2 p hp
  exact (Nat.div_eq_zero_iff_lt (by decide)).mp h

/-! ## Ranges of user pages -/

/-- `KMAP_BASE`, where the kernel's addresses start. -/
def kmapBase : ℕ := 0xFFFFFFFF80000000

/-- `n` pages from `start`, all of them in one half of the canonical addresses and below the
kernel. -/
structure UserRange (start n : ℕ) : Prop where
  aligned : pgSize ∣ start
  pos : 0 < n
  user : start + n * pgSize ≤ 2 ^ 47 ∨
    2 ^ 64 - 2 ^ 47 ≤ start ∧ start + n * pgSize ≤ kmapBase

/-- Number of the page of an address, as the page tables see it. -/
def pageOf (v : ℕ) : ℕ := v / pgSize % 2 ^ 36

namespace UserRange

variable {start n : ℕ}

theorem pageOf_add (h : UserRange start n) (hi : i ≤ n) :
    pageOf (start + i * pgSize) = pageOf start + i ∧ pageOf start + i < 2 ^ 36 := by
  obtain ⟨k, rfl⟩ := h.aligned
  have huser := h.user
  have h1 : (pgSize * k + i * pgSize) / pgSize = k + i := by
    rw [Nat.mul_comm, ← Nat.add_mul, mul_pgSize_div]
  have h2 : pgSize * k / pgSize = k := Nat.mul_div_cancel_left _ pgSize_pos
  simp only [pageOf, h1, h2]
  simp only [pgSize, kmapBase] at huser
  omega

theorem fin_lt (h : UserRange start n) : start + n * pgSize < 2 ^ 64 := by
  have huser := h.user
  simp only [kmapBase] at huser
  omega

end UserRange

theorem pageDir_pageOf (v : ℕ) : pageDir (v / pgSize) = pageDir (pageOf v) := by
  simp only [pageDir, pageOf, nPtePerPg]
  generalize v / pgSize = q
  refine List.cons_eq_cons.mpr ⟨by omega, List.cons_eq_cons.mpr ⟨by omega, ?_⟩⟩
  exact List.cons_eq_cons.mpr ⟨by omega, rfl⟩

theorem ptx_eq (v : ℕ) : ptx v = pageOf v % nPtePerPg := by
  simp only [ptx, entryIdx, pageOf, pgSize, nPtePerPg]
  omega

theorem pml4x_eq (v : ℕ) : pml4x v = pageOf v / 2 ^ 27 := by
  simp only [pml4x, entryIdx, pageOf, pgSize, nPtePerPg]
  omega

theorem UserRange.pageOf_before {start n : ℕ} (h : UserRange start n) :
    pageOf (before (start + n * pgSize)) = pageOf start + (n - 1) := by
  obtain ⟨k, hk⟩ := h.aligned
  have hpos := h.pos
  have hfin := h.fin_lt
  have hlast := (h.pageOf_add (Nat.sub_le n 1)).1
  rw [← hlast]
  obtain ⟨m, rfl⟩ : ∃ m, n = m + 1 := ⟨n - 1, by omega⟩
  simp only [pageOf, before, pgSize, Nat.add_sub_cancel] at *
  omega

/-! ## The two ways to unmap -/

/-- The pages of a range. -/
def rangePages (start n : ℕ) : List ℕ := (List.range n).map fun i => pageOf start + i

theorem mem_rangePages {start n p : ℕ} :
    p ∈ rangePages start n ↔ pageOf start ≤ p ∧ p < pageOf start + n := by
  simp only [rangePages, List.mem_map, List.mem_range]
  constructor
  · rintro ⟨i, hi, rfl⟩
    omega
  · rintro ⟨h1, h2⟩
    exact ⟨p - pageOf start, by omega, by omega⟩

theorem rangePages_sorted (start n : ℕ) : (rangePages start n).Pairwise (· < ·) := by
  rw [rangePages, List.pairwise_map]
  exact List.pairwise_lt_range.imp fun h => Nat.add_lt_add_left h _

variable {start n : ℕ}

theorem unmapEach_eq (hT : IsTree mem root) (hs : SameTables mem root s) (hr : UserRange start n) :
    unmapEach root start n s = clearAll mem root (rangePages start n) s := by
  rw [unmapEach, rangePages, clearAll, Prog.forEach_map]
  refine Prog.forEach_congr (P := SameTables mem root) (fun i hi s hs => ?_)
    (fun i _ s u s' hs h => clearAt_tables hT hs h) hs
  have hpage := (hr.pageOf_add (Nat.le_of_lt (List.mem_range.mp hi))).1
  have hleaf : tableAt s.mem root (pageDir ((start + i * pgSize) / pgSize)) =
      leafTable mem root (pageOf start + i) := by
    rw [pageDir_pageOf, hpage, hs _ (by rw [pageDir_length]) (pageDir_lt _), leafTable]
  rw [Prog.bind_of_ok (findPte_run root (start + i * pgSize) s), hleaf, ptx_eq, hpage, clearAt]
  cases leafTable mem root (pageOf start + i) with
  | none | some f => rfl

theorem vpmapUnmap_eq (hT : IsTree mem root) (hs : SameTables mem root s) (hr : UserRange start n) :
    vpmapUnmap root start n s = clearAll mem root (sweepPages start (start + n * pgSize)) s := by
  have hpos := hr.pos
  have hround : pgRoundDown start = start := by
    rw [pgRoundDown, Nat.div_mul_cancel hr.aligned]
  have hfin : (start + n * pgSize) % 2 ^ 64 = start + n * pgSize := Nat.mod_eq_of_lt hr.fin_lt
  have h1 : pml4x start ≤ pml4x (start + n * pgSize) := by
    rw [pml4x_eq, pml4x_eq, (hr.pageOf_add (le_refl n)).1]
    exact Nat.div_le_div_right (Nat.le_add_right _ _)
  have h2 : pml4x start ≤ pml4x (before (start + n * pgSize)) := by
    rw [pml4x_eq, pml4x_eq, hr.pageOf_before]
    exact Nat.div_le_div_right (Nat.le_add_right _ _)
  rw [vpmapUnmap, if_neg (by omega), hround, hfin, kassert_bind (by simpa using h1)]
  exact unmapPages_eq hT hs h2

/-- Every page with an entry is swept over exactly when it is in the range. -/
def SweepFits (s : Vm) (root start n : ℕ) : Prop :=
  ∀ p < 2 ^ 36, leafEntry s.mem root s p ≠ 0 →
    (swept start (start + n * pgSize) p ↔ pageOf start ≤ p ∧ p < pageOf start + n)

/-- `vpmap_unmap` does what unmapping page by page does if no page with an entry is swept over
outside the range or missed inside it, and, when unmapping page by page returns, only then. -/
theorem vpmapUnmap_iff (s : Vm) (root start n : ℕ) (hT : IsTree s.mem root)
    (hr : UserRange start n) :
    (SweepFits s root start n → vpmapUnmap root start n s = unmapEach root start n s) ∧
      ((∃ s', unmapEach root start n s = .ok ((), s')) →
        (vpmapUnmap root start n s = unmapEach root start n s ↔ SweepFits s root start n)) ∧
      ∀ s', unmapEach root start n s = .ok ((), s') → ∀ p < 2 ^ 36, leafEntry s.mem root s' p =
          if pageOf start ≤ p ∧ p < pageOf start + n then 0 else leafEntry s.mem root s p := by
  have hs : SameTables s.mem root s := fun _ _ _ => rfl
  have hlt : ∀ p ∈ rangePages start n, p < 2 ^ 36 := by
    intro p hp
    have h1 := (hr.pageOf_add (le_refl n)).2
    have h2 := mem_rangePages.mp hp
    omega
  have hsuff : SweepFits s root start n →
      vpmapUnmap root start n s = unmapEach root start n s := by
    intro hfit
    rw [vpmapUnmap_eq hT hs hr, unmapEach_eq hT hs hr]
    refine clearAll_eq hT (sweepPages_sorted _ _) (rangePages_sorted _ _) (sweepPages_lt _ _) hlt
      fun p hp hne => ?_
    rw [mem_sweepPages hp, mem_rangePages]
    exact hfit p hp hne
  refine ⟨hsuff, ?_, ?_⟩
  · rintro ⟨s', hrun⟩
    refine ⟨fun heq p hp hne => ?_, hsuff⟩
    rw [hrun, vpmapUnmap_eq hT hs hr] at heq
    rw [unmapEach_eq hT hs hr] at hrun
    have h1 := clearAll_entry hT hp (sweepPages_lt _ _) heq
    have h2 := clearAll_entry hT hp hlt hrun
    rw [h1] at h2
    rw [← mem_sweepPages hp, ← mem_rangePages]
    by_cases h3 : p ∈ sweepPages start (start + n * pgSize) <;>
      by_cases h4 : p ∈ rangePages start n <;> simp_all
  · intro s' hrun p hp
    rw [unmapEach_eq hT hs hr] at hrun
    rw [clearAll_entry hT hp hlt hrun]
    simp only [mem_rangePages]

/-! ## One mapped page -/

/-- Make a page table and map page 510 of the address space. -/
def mapOne : VmM ℕ := do
  match ← vpmapCreate true with
  | none => pure 0
  | some pml4 => do
    match ← pmemCall pmemAlloc with
    | none => pure 0
    | some paddr => do
      let _ ← vpmapMap pml4 (510 * pgSize) paddr 1 .urw
      pure pml4

/-- The small machine with one mapped page.  Its tables are the pages 1, 8, 4 and 5. -/
@[irreducible] def oneMapped : Vm := mapOne.final ⟨fun _ _ => 0, smallStart⟩

/-- The walks to its tables and to the page. -/
def oneMappedWalks : List (List ℕ × ℕ) :=
  [([], 1), ([0], 8), ([0, 0], 4), ([0, 0, 0], 5), ([0, 0, 0, 510], 3)]

theorem oneMapped_tables {π : List ℕ} {f : ℕ} (hlt : ∀ i ∈ π, i < nPtePerPg)
    (h : tableAt oneMapped.mem 1 π = some f) : (π, f) ∈ oneMappedWalks :=
  Nodes.follow_mem (by decide) (by decide +kernel) hlt h

theorem oneMapped_tree : IsTree oneMapped.mem 1 := by
  intro π ρ f _ _ hπ hρ h1 h2
  have hinj : ∀ x ∈ oneMappedWalks, ∀ y ∈ oneMappedWalks, x.2 = y.2 → x.1 = y.1 := by decide
  exact hinj _ (oneMapped_tables hπ h1) _ (oneMapped_tables hρ h2) rfl

/-- Unmapping page 509 alone unmaps page 510 as well. -/
theorem vpmapUnmap_beyond_range : ∃ s root start n s1 s2, IsTree s.mem root ∧ UserRange start n ∧
    unmapEach root start n s = .ok ((), s1) ∧ vpmapUnmap root start n s = .ok ((), s2) ∧
    ∃ p < 2 ^ 36, ¬ (pageOf start ≤ p ∧ p < pageOf start + n) ∧
      leafEntry s.mem root s1 p = leafEntry s.mem root s p ∧
      present (leafEntry s.mem root s p) ∧ leafEntry s.mem root s2 p = 0 := by
  refine ⟨oneMapped, 1, 509 * pgSize, 1, _, _, oneMapped_tree, ⟨by decide, by decide, by decide⟩,
    Prog.run_of_result (a := ()) (by decide +kernel),
    Prog.run_of_result (a := ()) (by decide +kernel), 510, by decide, by decide,
    by decide +kernel, by decide +kernel, by decide +kernel⟩

/-- Unmapping the page that is mapped does what it should. -/
theorem vpmapUnmap_mapped_page :
    vpmapUnmap 1 (510 * pgSize) 1 oneMapped = unmapEach 1 (510 * pgSize) 1 oneMapped := by
  have hr : UserRange (510 * pgSize) 1 := ⟨by decide, by decide, by decide⟩
  have hpage : ∀ p < 2 ^ 36, leafEntry oneMapped.mem 1 oneMapped p ≠ 0 → p = 510 := by
    intro p hp hne
    have hdir : ∀ i ∈ pageDir p, i < nPtePerPg := fun i hi => pageDir_lt p i hi
    cases h : leafTable oneMapped.mem 1 p with
    | none => rw [leafEntry, h] at hne; exact absurd rfl hne
    | some f =>
      have h1 := oneMapped_tables hdir h
      simp only [oneMappedWalks, pageDir, List.mem_cons, Prod.mk.injEq, List.not_mem_nil, or_false,
        List.cons.injEq, reduceCtorEq, false_and, and_false, false_or, and_true,
        nPtePerPg] at h1
      obtain ⟨⟨h2, h3, h4⟩, rfl⟩ := h1
      rw [leafEntry, h] at hne
      have hone : ∀ j < nPtePerPg, oneMapped.mem 5 j ≠ 0 → j = 510 := by decide +kernel
      have h5 := hone _ (Nat.mod_lt _ (by decide)) hne
      simp only [nPtePerPg] at h5
      omega
  refine (vpmapUnmap_iff oneMapped 1 (510 * pgSize) 1 oneMapped_tree hr).1 fun p hp hne => ?_
  obtain rfl := hpage p hp hne
  simp only [swept]
  decide

end Osv
