import Osv.Lib.Follow
import Osv.Pmem.Basic

/-!
# Page tables

The four-level page tables of `arch/x86_64/kernel/mm/vpmap.c`.  Physical memory
is 512 words for each page, and page tables and user data live in it side by
side.  All of it is mapped at `KMAP_BASE`, so the kernel reaches a page by its
number, and a pointer to an entry is the number of a page with an index into it.

The walk of `find_pte` is one step made three times.  `tableAt` follows present
entries along a list of indices, and `tableAt_congr` says which words of memory
a walk depends on: the entries it passes, and nothing else.
-/

namespace Osv

/-- Entries of a table. -/
def nPtePerPg : ℕ := 512

/-- Whether an entry has `PTE_P`. -/
def present (e : ℕ) : Bool := e % 2 = 1

/-- The page an entry points to, `ENTRY_ADDR(e)` as a page number: bits 12 to 50 of the entry. -/
def entryFrame (e : ℕ) : ℕ := e % 2 ^ 51 / 2 ^ 12

/-- `ENTRY_ADDR(e)`, which is also `PPN(e)`. -/
def entryAddr (e : ℕ) : ℕ := entryFrame e * pgSize

example : entryAddr 0xFFFFFFFFFFFFFFFF = 0x0007FFFFFFFFF000 := by decide

/-- `ENTRY_IDX(v, shift)`. -/
def entryIdx (v shift : ℕ) : ℕ := v / 2 ^ shift % nPtePerPg

/-- Index in the page table. -/
def ptx (v : ℕ) : ℕ := entryIdx v 12

/-- Index in the page directory. -/
def pdx (v : ℕ) : ℕ := entryIdx v 21

/-- Index in the pointer table. -/
def pdptx (v : ℕ) : ℕ := entryIdx v 30

/-- Index in the root. -/
def pml4x (v : ℕ) : ℕ := entryIdx v 39

/-- Physical memory and the allocator that hands it out. -/
structure Vm where
  /-- The words of each physical page. -/
  mem : ℕ → ℕ → ℕ
  pm : Pmem

/-- A function of `vpmap.c`. -/
abbrev VmM := Prog Trap Vm

/-- A call of the allocator. -/
def pmemCall {α : Type} (m : PmemM α) : VmM α := Prog.zoom Vm.pm (fun s pm => { s with pm := pm }) m

namespace Vm

/-- Write one word. -/
def setWord (s : Vm) (f i w : ℕ) : Vm :=
  { s with mem := fun g j => if g = f ∧ j = i then w else s.mem g j }

/-- Fill a page with zeros. -/
def zeroPage (s : Vm) (f : ℕ) : Vm :=
  { s with mem := fun g j => if g = f then 0 else s.mem g j }

/-- Copy page `f` to page `g`. -/
def copyPage (s : Vm) (g f : ℕ) : Vm :=
  { s with mem := fun h j => if h = g then s.mem f j else s.mem h j }

end Vm

/-! ## Finding an entry -/

/-- One level of `find_pte`: the table that entry `i` of `table` points to, made if it is missing
and `alloc` is set. -/
def walkLevel (table i : ℕ) (alloc : Bool) : VmM (Option ℕ) := do
  let s ← Prog.read
  if present (s.mem table i) then pure (some (entryFrame (s.mem table i)))
  else if !alloc then pure none
  else do
    match ← pmemCall pmemAlloc with
    | none => pure none
    | some paddr => do
      Prog.update fun s => s.zeroPage (paddr / pgSize)
      -- `paddr | PTE_P | PTE_W | PTE_U`
      Prog.update fun s => s.setWord table i (paddr ||| 7)
      pure (some (entryFrame (paddr ||| 7)))

/-- The page table entry of a virtual address, as a page and an index. -/
def findPte (pml4 vaddr : ℕ) (alloc : Bool) : VmM (Option (ℕ × ℕ)) := do
  match ← walkLevel pml4 (pml4x vaddr) alloc with
  | none => pure none
  | some pdpt =>
    match ← walkLevel pdpt (pdptx vaddr) alloc with
    | none => pure none
    | some pgdir =>
      match ← walkLevel pgdir (pdx vaddr) alloc with
      | none => pure none
      | some pgtab => pure (some (pgtab, ptx vaddr))

/-- Clear an entry, and drop the reference to the page it maps. -/
def clearPte (pte : ℕ × ℕ) : VmM Unit := do
  let s ← Prog.read
  (if present (s.mem pte.1 pte.2) then pmemCall (pmemDecRefcnt (entryAddr (s.mem pte.1 pte.2)))
    else pure ())
  Prog.update fun s => s.setWord pte.1 pte.2 0

/-! ## Mapping -/

/-- Memory permissions, `memperm_t`. -/
inductive MemPerm where
  | r
  | rw
  | ur
  | urw
deriving DecidableEq, Repr

/-- The bits `PTE_W` and `PTE_U` of a permission. -/
def mempermToPteperm : MemPerm → ℕ
  | .r => 0
  | .rw => 2
  | .ur => 4
  | .urw => 6

/-- The entry `PPN(paddr) | PTE_P | perm`. -/
def mkPte (paddr perm : ℕ) : ℕ := entryAddr paddr ||| 1 ||| perm

/-- The loop of `map_pages` over `n` pages. -/
def mapLoop (pml4 perm : ℕ) : (n v paddr : ℕ) → VmM Err
  | 0, _, _ => pure .ok
  | n + 1, v, paddr => do
    match ← findPte pml4 v true with
    | none => pure .vpmapMap
    | some pte => do
      Prog.update fun s => s.setWord pte.1 pte.2 (mkPte paddr perm)
      mapLoop pml4 perm n ((v + pgSize) % 2 ^ 64) ((paddr + pgSize) % 2 ^ 64)

/-- Map a range of virtual addresses. -/
def mapPages (pml4 vaddr paddr size perm : ℕ) : VmM Err :=
  let v := pgRoundDown vaddr
  let vend := pgRoundDown ((vaddr + size) % 2 ^ 64)
  -- the loop runs until `v` is `vend`, in 64 bits
  mapLoop pml4 perm ((vend + 2 ^ 64 - v) % 2 ^ 64 / pgSize) v (pgRoundDown paddr)

/-- Map a range, page by page. -/
def vpmapMap (pml4 vaddr paddr n : ℕ) (memperm : MemPerm) : VmM Err :=
  if n = 0 then pure .ok
  else mapPages pml4 (pgRoundDown vaddr) (pgRoundDown paddr) (n * pgSize % 2 ^ 64)
    (mempermToPteperm memperm)

/-- Make a page table without entries, if the cache of `vpmap` structures has one left. -/
def vpmapCreate (cached : Bool) : VmM (Option ℕ) :=
  if !cached then pure none
  else do
    match ← pmemCall pmemAlloc with
    | none => pure none
    | some paddr => do
      Prog.update fun s => s.zeroPage (paddr / pgSize)
      pure (some (paddr / pgSize))

/-- The index of `KMAP_BASE` in the top-level table, the last one. -/
def kernelIdx : ℕ := 511

/-- Copy the kernel's part of the top-level table. -/
def vpmapCopyKernelMapping (kpml4 dst : ℕ) : VmM Unit := do
  let s ← Prog.read
  (if present (s.mem kpml4 kernelIdx) then
    Prog.update fun s => s.setWord dst kernelIdx (s.mem kpml4 kernelIdx)
  else pure ())

/-- The loop of `vpmap_copy` over `n` pages. -/
def copyLoop (src dst perm : ℕ) : (n srcaddr dstaddr : ℕ) → VmM Err
  | 0, _, _ => pure .ok
  | n + 1, srcaddr, dstaddr => do
    let next := copyLoop src dst perm n ((srcaddr + pgSize) % 2 ^ 64)
      ((dstaddr + pgSize) % 2 ^ 64)
    match ← findPte src srcaddr false with
    | none => next
    | some srcPte => do
      let s ← Prog.read
      if entryAddr (s.mem srcPte.1 srcPte.2) = 0 then next
      else do
        match ← findPte dst dstaddr true with
        | none => pure .vpmapMap
        | some dstPte => do
          let s ← Prog.read
          if entryAddr (s.mem dstPte.1 dstPte.2) ≠ 0 then pure .vpmapMap
          else do
            match ← pmemCall pmemAlloc with
            | none => pure .nomem
            | some paddr => do
              Prog.update fun s =>
                s.copyPage (paddr / pgSize) (entryFrame (s.mem srcPte.1 srcPte.2))
              Prog.update fun s => s.setWord dstPte.1 dstPte.2 (mkPte paddr perm)
              next

/-- Copy the mapped ones of `n` pages to new pages. -/
def vpmapCopy (src dst srcaddr dstaddr n : ℕ) (memperm : MemPerm) : VmM Err :=
  copyLoop src dst (mempermToPteperm memperm) n (pgRoundDown srcaddr) (pgRoundDown dstaddr)

/-! ## Walks -/

/-- The table a present entry points to. -/
def tableChild (mem : ℕ → ℕ → ℕ) (t i : ℕ) : Option ℕ :=
  if present (mem t i) then some (entryFrame (mem t i)) else none

/-- The table reached from `t` by following present entries. -/
def tableAt (mem : ℕ → ℕ → ℕ) (t : ℕ) (π : List ℕ) : Option ℕ := Nodes.follow (tableChild mem) t π

variable {mem mem' : ℕ → ℕ → ℕ}

theorem tableAt_cons (t i : ℕ) (rest : List ℕ) : tableAt mem t (i :: rest) =
    if present (mem t i) then tableAt mem (entryFrame (mem t i)) rest else none := by
  rw [tableAt, Nodes.follow_cons, tableChild]
  split
  · rfl
  · rfl

theorem tableAt_append (t : ℕ) (π ρ : List ℕ) :
    tableAt mem t (π ++ ρ) = (tableAt mem t π).bind fun f => tableAt mem f ρ :=
  Nodes.follow_append t π ρ

theorem tableAt_congr {π : List ℕ} {t : ℕ}
    (h : ∀ ρ i f, ρ ++ [i] <+: π → tableAt mem t ρ = some f → mem' f i = mem f i) :
    tableAt mem' t π = tableAt mem t π :=
  Nodes.follow_congr fun ρ i f hρ hf => by rw [tableChild, tableChild, h ρ i f hρ hf]

/-- The indices of a page above its index in the page table. -/
def pageDir (p : ℕ) : List ℕ :=
  [p / 2 ^ 27 % nPtePerPg, p / 2 ^ 18 % nPtePerPg, p / 2 ^ 9 % nPtePerPg]

theorem pageDir_vaddr (v : ℕ) : pageDir (v / pgSize) = [pml4x v, pdptx v, pdx v] := by
  simp only [pageDir, pml4x, pdptx, pdx, entryIdx, pgSize, Nat.div_div_eq_div_mul]
  rfl

theorem walkLevel_run (table i : ℕ) (s : Vm) :
    walkLevel table i false s = .ok (tableAt s.mem table [i], s) := by
  rw [walkLevel, Prog.read_bind, tableAt_cons]
  split
  · rfl
  · rfl

theorem findPte_run (pml4 v : ℕ) (s : Vm) : findPte pml4 v false s =
      .ok ((tableAt s.mem pml4 (pageDir (v / pgSize))).map fun f => (f, ptx v), s) := by
  have step : ∀ t i ρ, tableAt s.mem t (i :: ρ) =
      (tableAt s.mem t [i]).bind fun f => tableAt s.mem f ρ :=
    fun t i ρ => tableAt_append t [i] ρ
  rw [findPte, pageDir_vaddr, Prog.bind_of_ok (walkLevel_run _ _ _),
    step pml4 (pml4x v) [pdptx v, pdx v]]
  cases h1 : tableAt s.mem pml4 [pml4x v] with
  | none => rfl
  | some pdpt =>
    simp only [Option.bind_some]
    rw [Prog.bind_of_ok (walkLevel_run _ _ _), step pdpt (pdptx v) [pdx v]]
    cases h2 : tableAt s.mem pdpt [pdptx v] with
    | none => rfl
    | some pgdir =>
      simp only [Option.bind_some]
      rw [Prog.bind_of_ok (walkLevel_run _ _ _)]
      cases h3 : tableAt s.mem pgdir [pdx v] with
      | none | some pgtab => rfl

theorem walkLevel_present {s : Vm} {t i u : ℕ} {alloc : Bool} (h : tableAt s.mem t [i] = some u) :
    walkLevel t i alloc s = .ok (some u, s) := by
  rw [tableAt_cons] at h
  rw [walkLevel, Prog.read_bind]
  split at h
  · rename_i hp
    rw [if_pos hp, ← h]
    rfl
  · cases h

theorem findPte_present {s : Vm} {pml4 v t : ℕ} {alloc : Bool}
    (h : tableAt s.mem pml4 (pageDir (v / pgSize)) = some t) :
    findPte pml4 v alloc s = .ok (some (t, ptx v), s) := by
  rw [pageDir_vaddr] at h
  have h3 : tableAt s.mem pml4 ([pml4x v, pdptx v] ++ [pdx v]) = some t := h
  obtain ⟨pgdir, h2, hpd⟩ := Option.bind_eq_some_iff.mp (tableAt_append pml4 _ _ ▸ h3)
  have h2' : tableAt s.mem pml4 ([pml4x v] ++ [pdptx v]) = some pgdir := h2
  obtain ⟨pdpt, h1, hpdpt⟩ := Option.bind_eq_some_iff.mp (tableAt_append pml4 _ _ ▸ h2')
  rw [findPte, Prog.bind_of_ok (walkLevel_present h1)]
  simp only
  rw [Prog.bind_of_ok (walkLevel_present hpdpt)]
  simp only
  rw [Prog.bind_of_ok (walkLevel_present hpd)]
  rfl

end Osv
