import Osv.Lib.Run
import Osv.Vm.Tables

/-!
# A page table is a map from pages to frames

`vpmap_lookup_vaddr` and `vpmap_set_perm`, and what the functions on a page table come to.  A page
table is made by `vpmap_create`, mapped and changed by any calls at canonical addresses, and looked
up.  Between the calls the rest of the kernel works: it takes and frees pages, so that an allocation
of a table may fail at any point, and writes any memory except the tables.

`PageMap` is what this is for: a partial function from virtual pages to frames with their
permissions.  Every run of calls is one that the map could have made, with the same results, and
the entries of the tables are those of the map (`vpmap_refines_map`).
-/

namespace Osv

/-! ## The functions -/

/-- The physical address of a virtual one, or `PADDR_NONE`. -/
def vpmapLookupVaddr (pml4 vaddr : ℕ) : VmM (Err × Option ℕ) := do
  match ← findPte pml4 vaddr false with
  | none => pure (.vpmapNotpresent, none)
  | some pte => do
    let s ← Prog.read
    if present (s.mem pte.1 pte.2) then
      pure (.ok, some (entryAddr (s.mem pte.1 pte.2) + (vaddr - pgRoundDown vaddr)))
    else pure (.vpmapNotpresent, none)

/-- `PPN(e) | (PTE_FLAGS(e) & PTE_P) | perm`. -/
def withPerm (e perm : ℕ) : ℕ := entryAddr e ||| e % 2 ||| perm

/-- One round of `vpmap_set_perm`. -/
def setPermPage (pml4 vaddr perm : ℕ) : VmM Unit := do
  match ← findPte pml4 vaddr false with
  | none => pure ()
  | some pte => Prog.update fun s => s.setWord pte.1 pte.2 (withPerm (s.mem pte.1 pte.2) perm)

/-- Set the permission of pages that are mapped. -/
def vpmapSetPerm (pml4 vaddr n : ℕ) (memperm : MemPerm) : VmM Unit :=
  Prog.forEach (List.range n) fun i =>
    setPermPage pml4 ((pgRoundDown vaddr + i * pgSize) % 2 ^ 64) (mempermToPteperm memperm)

/-! ## The calls on one page table -/

/-- A 48-bit address, sign extended. -/
def Canonical (v : ℕ) : Prop := v < 2 ^ 47 ∨ 2 ^ 64 - 2 ^ 47 ≤ v ∧ v < 2 ^ 64

instance (v : ℕ) : Decidable (Canonical v) := inferInstanceAs (Decidable (_ ∨ _))

/-- The number of a page of canonical addresses. -/
def CanonicalPage (p : ℕ) : Prop := p < 2 ^ 35 ∨ 2 ^ 52 - 2 ^ 35 ≤ p ∧ p < 2 ^ 52

/-- All `n` pages from `v` are canonical.  A range may go on at 0 behind the last address. -/
def CanonicalRange (v n : ℕ) : Prop :=
  v < 2 ^ 64 ∧ ∀ i < n, Canonical ((pgRoundDown v + i * pgSize) % 2 ^ 64)

/-- A call with its result. -/
inductive VpmapEvent where
  | map (v paddr n : ℕ) (perm : MemPerm) (e : Err)
  | setPerm (v n : ℕ) (perm : MemPerm)
  | lookup (v : ℕ) (r : Err × Option ℕ)
  | other

/-- The rest of the kernel leaves the tables alone. -/
structure Elsewhere (d : ℕ) (s s' : Vm) : Prop where
  ready : s'.pm.Ready
  used : ∀ f ∈ tables Set.univ s d, f ∉ freePages s'.pm
  same : ∀ f ∈ tables Set.univ s d, s'.mem f = s.mem f

/-- A call on a range of canonical addresses. -/
inductive VpmapStep (d : ℕ) : Vm → VpmapEvent → Vm → Prop
  | map {s s' : Vm} {v paddr n : ℕ} {perm : MemPerm} {e : Err} :
      CanonicalRange v n → paddr / pgSize * pgSize + n * pgSize ≤ 2 ^ 51 →
      vpmapMap d v paddr n perm s = .ok (e, s') → VpmapStep d s (.map v paddr n perm e) s'
  | setPerm {s s' : Vm} {v n : ℕ} {perm : MemPerm} :
      CanonicalRange v n → vpmapSetPerm d v n perm s = .ok ((), s') →
      VpmapStep d s (.setPerm v n perm) s'
  | lookup {s s' : Vm} {v : ℕ} {r : Err × Option ℕ} :
      Canonical v → vpmapLookupVaddr d v s = .ok (r, s') → VpmapStep d s (.lookup v r) s'
  | other {s s' : Vm} : Elsewhere d s s' → VpmapStep d s .other s'

/-- The page table is new. -/
def VpmapInit (d : ℕ) (s : Vm) : Prop :=
  ∃ s0 : Vm, s0.pm.Ready ∧ vpmapCreate true s0 = .ok (some d, s)

/-! ## The map -/

/-- The frame of each mapped page, with the permissions. -/
abbrev PageMap := ℕ → Option (ℕ × MemPerm)

namespace PageMap

/-- The distance of page `p` behind page `q`, where page 0 follows the last one. -/
def dist (q p : ℕ) : ℕ := (p + (2 ^ 52 - q)) % 2 ^ 52

/-- Map `n` pages from `q` to the frames from `g`. -/
def put (m : PageMap) (q g n : ℕ) (perm : MemPerm) : PageMap := fun p =>
  if dist q p < n then some (g + dist q p, perm) else m p

/-- Change the permissions of those of `n` pages from `q` that are mapped. -/
def setPerm (m : PageMap) (q n : ℕ) (perm : MemPerm) : PageMap := fun p =>
  if dist q p < n then (m p).map fun x => (x.1, perm) else m p

/-- The result of a lookup. -/
def lookup (m : PageMap) (v : ℕ) : Err × Option ℕ :=
  match m (v / pgSize) with
  | none => (.vpmapNotpresent, none)
  | some (f, _) => (.ok, some (f * pgSize + v % pgSize))

/-- What a call does to the map. -/
inductive Step : PageMap → VpmapEvent → PageMap → Prop
  | mapped {m : PageMap} {v paddr n : ℕ} {perm : MemPerm} :
      Step m (.map v paddr n perm .ok) (m.put (v / pgSize) (paddr / pgSize) n perm)
  /-- There was no memory for the tables of a page, and the pages before it are mapped. -/
  | failed {m : PageMap} {v paddr n k : ℕ} {perm : MemPerm} : k < n →
      Step m (.map v paddr n perm .vpmapMap) (m.put (v / pgSize) (paddr / pgSize) k perm)
  | setPerm {m : PageMap} {v n : ℕ} {perm : MemPerm} :
      Step m (.setPerm v n perm) (m.setPerm (v / pgSize) n perm)
  | lookup {m : PageMap} {v : ℕ} : Step m (.lookup v (m.lookup v)) m
  | other {m : PageMap} : Step m .other m

/-- No page is mapped. -/
def empty : PageMap := fun _ => none

/-- An entry holds what the map says of its page. -/
def EntryOf (e : ℕ) : Option (ℕ × MemPerm) → Prop
  | none => present e = false
  | some (f, perm) => f < 2 ^ 39 ∧ e = mkPte (f * pgSize) (mempermToPteperm perm)

/-- The entries of the tables are those of the map. -/
def Of (m : PageMap) (s : Vm) (d : ℕ) : Prop :=
  ∀ p, CanonicalPage p → EntryOf (entryOf s.mem d p) (m p)

end PageMap

/-! ## Pages and their entries -/

theorem entryOf_mod (mem : ℕ → ℕ → ℕ) (d p : ℕ) : entryOf mem d p = entryOf mem d (p % 2 ^ 36) := by
  have h1 : pageDir (p % 2 ^ 36) = pageDir p := by
    simp only [pageDir, nPtePerPg]
    refine List.cons_eq_cons.mpr ⟨by omega, List.cons_eq_cons.mpr ⟨by omega, ?_⟩⟩
    exact List.cons_eq_cons.mpr ⟨by omega, rfl⟩
  have h2 : p % 2 ^ 36 % nPtePerPg = p % nPtePerPg := by
    simp only [nPtePerPg]
    omega
  rw [entryOf, entryOf, h1, h2]

theorem Canonical.page {v : ℕ} (h : Canonical v) : CanonicalPage (v / pgSize) := by
  simp only [Canonical, CanonicalPage, pgSize] at *
  omega

theorem mem_univ_under (p : ℕ) : Under Set.univ (pageDir p) := under_pageDir.mpr trivial

theorem CanonicalRange.pages {v n : ℕ} (h : CanonicalRange v n) :
    (∀ i < n, CanonicalPage ((v / pgSize + i) % 2 ^ 52)) ∧ n ≤ 2 ^ 36 := by
  obtain ⟨hv, hall⟩ := h
  have hpage : ∀ i < n, CanonicalPage ((v / pgSize + i) % 2 ^ 52) := by
    intro i hi
    have hc := (hall i hi).page
    have heq : (pgRoundDown v + i * pgSize) % 2 ^ 64 / pgSize = (v / pgSize + i) % 2 ^ 52 := by
      simp only [pgRoundDown, pgSize]
      omega
    rwa [heq] at hc
  refine ⟨hpage, ?_⟩
  by_contra hn
  simp only [CanonicalPage] at hpage
  have hq := hpage 0 (by omega)
  have hgap := hpage ((2 ^ 52 + 2 ^ 35 - v / pgSize) % 2 ^ 52) (by simp only [pgSize] at *; omega)
  simp only [pgSize] at *
  omega

/-- Among canonical pages, the distance behind the first page of a range is what the indices show.
-/
theorem PageMap.dist_eq {v n p : ℕ} (h : CanonicalRange v n) (hn : 0 < n) (hp : CanonicalPage p)
    {k : ℕ} (hk : k ≤ n) :
    (dist (v / pgSize) p < k ↔
    (p % 2 ^ 36 + (2 ^ 36 - v / pgSize % 2 ^ 36)) % 2 ^ 36 < k) ∧ (dist (v / pgSize) p < k →
        (p % 2 ^ 36 + (2 ^ 36 - v / pgSize % 2 ^ 36)) % 2 ^ 36 = dist (v / pgSize) p) := by
  obtain ⟨hpages, hn36⟩ := h.pages
  have hv : v / pgSize < 2 ^ 52 := by
    have := h.1
    simp only [pgSize]
    omega
  generalize v / pgSize = q at *
  have hq := hpages 0 hn
  have hmod : (p % 2 ^ 36 + (2 ^ 36 - q % 2 ^ 36)) % 2 ^ 36 = dist q p % 2 ^ 36 := by
    simp only [dist]
    omega
  have hsmall : dist q p < k → dist q p < 2 ^ 36 := fun h => by omega
  refine ⟨⟨fun h => ?_, fun h => ?_⟩, fun h => ?_⟩
  · rw [hmod, Nat.mod_eq_of_lt (hsmall h)]
    exact h
  · rw [hmod] at h
    have hi := hpages (dist q p % 2 ^ 36) (by omega)
    simp only [CanonicalPage, dist] at *
    omega
  · rw [hmod, Nat.mod_eq_of_lt (hsmall h)]

theorem Solo.elsewhere {s s' : Vm} {d : ℕ} (S : Solo Set.univ s d) (E : Elsewhere d s s') :
    Solo Set.univ s' d ∧ tables Set.univ s' d = tables Set.univ s d ∧
      ∀ p, entryOf s'.mem d p = entryOf s.mem d p := by
  have hreach : ∀ π, Under Set.univ π → reach s'.mem d π = reach s.mem d π := fun π hπ =>
    reach_under_congr (fun σ f i hσ hf => by rw [E.same f ⟨σ, hσ.of_snoc.1, hf⟩]) hπ
  exact ⟨S.congr E.ready E.used hreach, tables_congr hreach, fun p =>
    entryOf_reach_congr (hreach _ (mem_univ_under p)) fun t ht => by
      rw [E.same t ⟨_, mem_univ_under p, ht⟩]⟩

/-! ## Each call is one of the map -/

namespace PageMap

variable {m : PageMap} {s s' : Vm} {d : ℕ}

theorem EntryOf.present_iff {e : ℕ} {x : Option (ℕ × MemPerm)} (h : EntryOf e x) :
    present e = x.isSome := by
  cases x with
  | none => exact h
  | some x =>
    obtain ⟨hlt, rfl⟩ := h
    exact present_mkPte hlt (mempermToPteperm_lt _)

/-- The permission bits leave the frame and the presence of an entry. -/
theorem EntryOf.withPerm {e : ℕ} {x : Option (ℕ × MemPerm)} (h : EntryOf e x) (perm : MemPerm) :
    EntryOf (withPerm e (mempermToPteperm perm)) (x.map fun y => (y.1, perm)) := by
  cases x with
  | none =>
    have he : present e = false := h
    show present _ = false
    simp only [present, decide_eq_false_iff_not] at he ⊢
    have hmod : e % 2 = 0 := by omega
    have haddr : entryAddr e % 2 = 0 := by
      rw [entryAddr, pgSize]
      omega
    have hperm : mempermToPteperm perm % 2 = 0 := by cases perm <;> rfl
    rw [Osv.withPerm, hmod, Nat.or_zero, Nat.or_mod_two_eq_one, haddr, hperm]
    decide
  | some y =>
    obtain ⟨hlt, rfl⟩ := h
    refine ⟨hlt, ?_⟩
    have hp := present_mkPte hlt (mempermToPteperm_lt y.2)
    simp only [present, decide_eq_true_eq] at hp
    rw [Osv.withPerm, hp, entryAddr, entryFrame_mkPte hlt (mempermToPteperm_lt y.2), mkPte_eq hlt,
      Nat.or_assoc]

theorem Of.lookup (h : m.Of s d) {v : ℕ} (hv : Canonical v) :
    vpmapLookupVaddr d v s = .ok (m.lookup v, s) := by
  have hent := h _ hv.page
  rw [vpmapLookupVaddr, Prog.bind_of_ok (findPte_run d v s), PageMap.lookup]
  rw [entryOf] at hent
  have hoff : v - pgRoundDown v = v % pgSize := by
    rw [pgRoundDown, pgSize]
    omega
  have hidx : ptx v = v / pgSize % nPtePerPg := rfl
  cases ht : tableAt s.mem d (pageDir (v / pgSize)) with
  | none =>
    rw [ht] at hent
    cases hm : m (v / pgSize) with
    | none => rfl
    | some x =>
      rw [hm] at hent
      have := hent.present_iff
      cases this
  | some t =>
    rw [ht] at hent
    dsimp only at hent
    simp only [Option.map_some]
    rw [Prog.read_bind, hidx, hent.present_iff]
    cases hm : m (v / pgSize) with
    | none => rfl
    | some x =>
      rw [hm] at hent
      obtain ⟨hlt, he⟩ := hent
      rw [he, hoff]
      simp only [Option.isSome_some, if_true]
      rw [entryAddr, entryFrame_mkPte hlt (mempermToPteperm_lt _)]
      rfl

theorem Of.put (S : Solo Set.univ s d) (h : m.Of s d) {v paddr n : ℕ} (perm : MemPerm)
    (hv : CanonicalRange v n) (hf : paddr / pgSize * pgSize + n * pgSize ≤ 2 ^ 51) :
    ∃ e s' k, vpmapMap d v paddr n perm s = .ok (e, s') ∧ Solo Set.univ s' d ∧
      (m.put (v / pgSize) (paddr / pgSize) k perm).Of s' d ∧
      (e = .ok ∧ k = n ∨ e = .vpmapMap ∧ k < n) := by
  obtain ⟨hpages, hn36⟩ := hv.pages
  have hframes : paddr / pgSize + n ≤ 2 ^ 39 := by
    simp only [pgSize] at hf ⊢
    omega
  rcases Nat.eq_zero_or_pos n with rfl | hn
  · have hput : m.put (v / pgSize) (paddr / pgSize) 0 perm = m := funext fun p =>
        if_neg (Nat.not_lt_zero _)
    exact ⟨.ok, s, 0, rfl, S, hput.symm ▸ h, .inl ⟨rfl, rfl⟩⟩
  · obtain ⟨e, s', k, hrun, B, hres, hent⟩ := S.mapLoop (n := n) (v := pgRoundDown v)
      (a := paddr / pgSize * pgSize) (mempermToPteperm perm) hn36 (fun _ _ => trivial)
      (by have := hv.1; simp only [pgRoundDown, pgSize]; omega)
      (by simp only [pgSize] at hf ⊢; omega)
    refine ⟨e, s', k, ?_, B.solo, fun p hp => ?_, hres⟩
    · rw [vpmapMap_eq hv.1 hn (by omega)]
      exact hrun
    · have hk : k ≤ n := by rcases hres with ⟨-, h⟩ | ⟨-, h⟩ <;> omega
      have hq : pgRoundDown v / pgSize = v / pgSize := mul_pgSize_div _
      obtain ⟨hiff, heq⟩ := dist_eq hv hn hp hk
      rw [entryOf_mod, hent _ (Nat.mod_lt _ (by decide)) (mem_univ_under _), hq, putEntries,
        PageMap.put]
      by_cases hd : dist (v / pgSize) p < k
      · rw [if_pos (hiff.mp hd), if_pos hd, heq hd]
        have hlt : (paddr / pgSize + dist (v / pgSize) p) * pgSize < 2 ^ 64 := by
          simp only [pgSize] at *
          omega
        rw [← Nat.add_mul, Nat.mod_eq_of_lt hlt]
        exact ⟨by omega, rfl⟩
      · rw [if_neg fun h => hd (hiff.mpr h), if_neg hd, ← entryOf_mod]
        exact h p hp

theorem Of.setPerm_round (S : Solo Set.univ s d) {v n i : ℕ} {perm : MemPerm}
    (hv : CanonicalRange v n) (hi : i < n) (h : (m.setPerm (v / pgSize) i perm).Of s d) :
    ∃ s', setPermPage d ((pgRoundDown v + i * pgSize) % 2 ^ 64) (mempermToPteperm perm) s =
      .ok ((), s') ∧ Solo Set.univ s' d ∧ (m.setPerm (v / pgSize) (i + 1) perm).Of s' d := by
  obtain ⟨hpages, hn36⟩ := hv.pages
  set w := (pgRoundDown v + i * pgSize) % 2 ^ 64 with hw
  set q := w / pgSize with hq
  have hvlt := hv.1
  have hqi : q = (v / pgSize + i) % 2 ^ 52 := by
    simp only [hq, hw, pgRoundDown, pgSize]
    omega
  have hqc : CanonicalPage q := hqi ▸ hpages i hi
  have hdist : ∀ p, CanonicalPage p →
      (dist (v / pgSize) p < i + 1 ↔ dist (v / pgSize) p < i ∨ p = q) := by
    intro p hp
    simp only [CanonicalPage, dist, hqi, pgSize] at *
    omega
  have hdq : dist (v / pgSize) q = i := by
    simp only [CanonicalPage, dist, hqi, pgSize] at *
    omega
  have hnew : ∀ {t : Vm}, (∀ p, CanonicalPage p → p ≠ q → entryOf t.mem d p = entryOf s.mem d p) →
      EntryOf (entryOf t.mem d q) ((m q).map fun x => (x.1, perm)) →
      (m.setPerm (v / pgSize) (i + 1) perm).Of t d := by
    intro t hother hthis p hp
    by_cases hpq : p = q
    · rw [hpq, PageMap.setPerm, if_pos (by omega)]
      exact hthis
    · rw [hother p hp hpq]
      have := h p hp
      rw [PageMap.setPerm] at this ⊢
      rwa [if_congr ((hdist p hp).trans (or_iff_left hpq)) rfl rfl]
  have hold : EntryOf (entryOf s.mem d q) (m q) := by
    have := h q hqc
    rwa [PageMap.setPerm, if_neg (by omega)] at this
  rw [setPermPage, Prog.bind_of_ok (findPte_run d w s)]
  cases ht : tableAt s.mem d (pageDir q) with
  | none =>
    have hzero : entryOf s.mem d q = 0 := by rw [entryOf, ht]
    refine ⟨s, rfl, S, hnew (fun _ _ _ => rfl) ?_⟩
    rw [hzero] at hold ⊢
    cases hm : m q with
    | none => exact rfl
    | some x =>
      rw [hm] at hold
      have := hold.present_iff
      cases this
  | some t =>
    have hword : entryOf s.mem d q = s.mem t (ptx w) := by rw [entryOf, ht]; rfl
    have hr : reach s.mem d (pageDir (pageOf w)) = some t := by
      rw [← pageDir_pageOf, reach_pageDir, ht]
    obtain ⟨B, hset⟩ := S.setEntry (pageOf_lt w) (mem_univ_under _) hr
      (Osv.withPerm (s.mem t (ptx w)) (mempermToPteperm perm))
    rw [← ptx_eq] at B hset
    have hent : ∀ p, CanonicalPage p → entryOf (s.setWord t (ptx w)
        (Osv.withPerm (s.mem t (ptx w)) (mempermToPteperm perm))).mem d p = if p = q then
          Osv.withPerm (s.mem t (ptx w)) (mempermToPteperm perm) else entryOf s.mem d p := by
      intro p hp
      rw [entryOf_mod, hset _ (Nat.mod_lt _ (by decide)) (mem_univ_under _), ← entryOf_mod]
      have hiff : p % 2 ^ 36 = pageOf w ↔ p = q := by
        simp only [CanonicalPage, pageOf] at *
        omega
      exact if_congr hiff rfl rfl
    refine ⟨_, rfl, B.solo, hnew (fun p hp hpq => ?_) ?_⟩
    · rw [hent p hp, if_neg hpq]
    · rw [hent q hqc, if_pos rfl, ← hword]
      exact hold.withPerm perm

theorem Of.setPerm (S : Solo Set.univ s d) (h : m.Of s d) {v n : ℕ} (perm : MemPerm)
    (hv : CanonicalRange v n) :
    ∃ s', vpmapSetPerm d v n perm s = .ok ((), s') ∧ Solo Set.univ s' d ∧
      (m.setPerm (v / pgSize) n perm).Of s' d := by
  have h0 : m.setPerm (v / pgSize) 0 perm = m := funext fun p => if_neg (Nat.not_lt_zero _)
  exact Prog.forEach_range (P := fun i s => Solo Set.univ s d ∧
    (m.setPerm (v / pgSize) i perm).Of s d)
    (fun i hi s hs => Of.setPerm_round hs.1 hv hi hs.2) ⟨S, h0.symm ▸ h⟩

theorem Of.other (S : Solo Set.univ s d) (h : m.Of s d) (E : Elsewhere d s s') :
    Solo Set.univ s' d ∧ m.Of s' d := by
  obtain ⟨S', -, hent⟩ := S.elsewhere E
  refine ⟨S', fun p hp => ?_⟩
  rw [hent]
  exact h p hp

theorem of_init (h : VpmapInit d s) : Solo Set.univ s d ∧ empty.Of s d := by
  obtain ⟨s0, hr, hrun⟩ := h
  rw [vpmapCreate, if_neg (by decide)] at hrun
  obtain ⟨r, s1, hall, hrun⟩ := Prog.bind_ok.mp hrun
  cases r with
  | none => cases hrun
  | some paddr =>
    obtain ⟨g, rfl, -, -, hout, hready, -, -⟩ := pmemCall_alloc hr hall
    obtain ⟨t, ht, hrun⟩ := Prog.update_bind_ok.mp hrun
    rw [mul_pgSize_div] at ht hrun
    cases hrun
    have hslot : ∀ i, slot s.mem d i = none := fun i => by
      have hz : s.mem d i = 0 := by
        rw [ht]
        exact if_pos rfl
      rw [slot, tableChild, hz]
      split <;> rfl
    have hnil : ∀ π f, reach s.mem d π = some f → π = [] ∧ f = d := by
      intro π f hf
      cases π with
      | nil => exact ⟨rfl, (Option.some.inj hf).symm⟩
      | cons i π =>
        rw [reach, Nodes.follow_cons, hslot] at hf
        cases hf
    refine ⟨⟨ht ▸ hready, ?_, fun π ρ f _ _ h1 h2 => ?_⟩, fun p _ => ?_⟩
    · rintro f ⟨π, -, hf⟩
      rw [(hnil π f hf).2, ht]
      exact hout
    · rw [(hnil π f h1).1, (hnil ρ f h2).1]
    · have hnone : tableAt s.mem d (pageDir p) = none := by
        rw [← reach_pageDir]
        cases hx : reach s.mem d (pageDir p) with
        | none => rfl
        | some f => cases (hnil _ f hx).1
      show present (entryOf s.mem d p) = false
      rw [entryOf, hnone]
      rfl

end PageMap

theorem VpmapStep.simulate {d : ℕ} {s s' : Vm} {a : VpmapEvent} {m : PageMap}
    (h : Solo Set.univ s d ∧ m.Of s d) (hstep : VpmapStep d s a s') :
    ∃ m', PageMap.Step m a m' ∧ Solo Set.univ s' d ∧ m'.Of s' d := by
  obtain ⟨S, hm⟩ := h
  cases hstep with
  | @map _ v paddr n perm e hv hf hrun =>
    obtain ⟨e', t, k, hrun', S', hm', hres⟩ := hm.put S perm hv hf
    rw [hrun] at hrun'
    cases hrun'
    rcases hres with ⟨rfl, rfl⟩ | ⟨rfl, hk⟩
    · exact ⟨_, .mapped, S', hm'⟩
    · exact ⟨_, .failed hk, S', hm'⟩
  | @setPerm _ v n perm hv hrun =>
    obtain ⟨t, hrun', S', hm'⟩ := hm.setPerm S perm hv
    rw [hrun] at hrun'
    cases hrun'
    exact ⟨_, .setPerm, S', hm'⟩
  | lookup hv hrun =>
    rw [hm.lookup hv] at hrun
    cases hrun
    exact ⟨m, .lookup, S, hm⟩
  | other E => exact ⟨m, .other, hm.other S E⟩

/-- A page table refines a map from pages to frames.  The calls of a run are calls of the map with
the same results, at the end the entries are those of the map, and every call returns. -/
theorem vpmap_refines_map {d : ℕ} {tr : List VpmapEvent} {s : Vm}
    (h : Run.Traces (VpmapInit d) (VpmapStep d) tr s) :
    (∃ m, Run.Traces (· = PageMap.empty) PageMap.Step tr m ∧ m.Of s d) ∧
      (∀ v paddr n perm, CanonicalRange v n → paddr / pgSize * pgSize + n * pgSize ≤ 2 ^ 51 →
        ∃ e s', vpmapMap d v paddr n perm s = .ok (e, s')) ∧
      (∀ v n perm, CanonicalRange v n → ∃ s', vpmapSetPerm d v n perm s = .ok ((), s')) ∧
      ∀ v, Canonical v → ∃ r, vpmapLookupVaddr d v s = .ok (r, s) := by
  have h0 : ∀ s, VpmapInit d s → ∃ m, m = PageMap.empty ∧ Solo Set.univ s d ∧ m.Of s d :=
    fun s hs => ⟨PageMap.empty, rfl, PageMap.of_init hs⟩
  obtain ⟨m, htr, S, hm⟩ := h.simulate (R := fun s m => Solo Set.univ s d ∧ PageMap.Of m s d) h0
    (fun _ _ _ _ hR hstep => VpmapStep.simulate hR hstep)
  refine ⟨⟨m, htr, hm⟩, fun v paddr n perm hv hf => ?_, fun v n perm hv => ?_, fun v hv => ?_⟩
  · obtain ⟨e, s', -, hrun, -⟩ := hm.put S perm hv hf
    exact ⟨e, s', hrun⟩
  · obtain ⟨s', hrun, -⟩ := hm.setPerm S perm hv
    exact ⟨s', hrun⟩
  · exact ⟨_, hm.lookup hv⟩

/-! ## Two pages -/

/-- Zeroed memory of a small machine. -/
def blankVm : Vm := ⟨fun _ _ => 0, smallStart⟩

/-- Two pages mapped in a new page table. -/
def twoPages : Vm := (vpmapMap 1 0x400000 0x5000 2 .urw).final ((vpmapCreate true).final blankVm)

/-- An address in the second page is looked up. -/
theorem twoPages_map : ∃ s, Run.Traces (VpmapInit 1) (VpmapStep 1)
    [.map 0x400000 0x5000 2 .urw .ok, .lookup 0x401123 (.ok, some 0x6123)] s ∧
    ∃ m, Run.Traces (· = PageMap.empty) PageMap.Step
      [.map 0x400000 0x5000 2 .urw .ok, .lookup 0x401123 (.ok, some 0x6123)] m ∧ m.Of s 1 := by
  have hready : smallStart.Ready :=
    World.Reachable.ready (w := World.start smallStart) ⟨smallStart, smallStart_started, .refl⟩
  have hinit : VpmapInit 1 ((vpmapCreate true).final blankVm) :=
    ⟨blankVm, hready, Prog.run_of_result (by decide +kernel)⟩
  have hrange : CanonicalRange 0x400000 2 := by
    refine ⟨by decide, fun i hi => ?_⟩
    simp only [Canonical, pgRoundDown, pgSize]
    omega
  have hmap : VpmapStep 1 _ (.map 0x400000 0x5000 2 .urw .ok) twoPages :=
    .map hrange (by decide) (Prog.run_of_result (by decide +kernel))
  have hlookup : VpmapStep 1 twoPages (.lookup 0x401123 (.ok, some 0x6123)) _ :=
    .lookup (Or.inl (by decide)) (Prog.run_of_result (by decide +kernel))
  have htr := ((Run.Traces.first hinit).next hmap).next hlookup
  exact ⟨_, htr, (vpmap_refines_map htr).1⟩

end Osv
