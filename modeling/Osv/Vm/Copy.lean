import Osv.Vm.Unmap

/-!
# Copying mapped pages

`vpmap_copy` walks the source's tables page by page and, for each mapped page,
makes the tables of the destination on the way, allocates a page, copies the
bytes and enters it.  The two address spaces share the tables below the
kernel's top-level entry, and those map all of physical memory, so neither
address space is a tree of its own.

What holds throughout the copy is `Grown`: memory has changed only in the
destination's top-level table and in pages that were free, every table and page
the destination reaches through a user entry is one of those, in one way only,
and holds a copy of a source page.  One step of the copy attaches a free page to an empty
entry (`Grown.attach`); a table is attached empty, a user page at the end of a
walk.
-/

namespace Osv

/-! ## Entries -/

theorem or_flags {g b : ℕ} (hb : b < 2 ^ 12) : g * pgSize ||| b = g * pgSize + b := by
  rw [Nat.mul_comm]
  exact (Nat.two_pow_add_eq_or_of_lt hb g).symm

theorem entryFrame_flags {g b : ℕ} (hg : g < 2 ^ 39) (hb : b < 2 ^ 12) :
    entryFrame (g * pgSize ||| b) = g := by
  rw [or_flags hb, entryFrame, pgSize]
  omega

theorem present_flags {g b : ℕ} (hb : b < 2 ^ 12) (h1 : b % 2 = 1) :
    present (g * pgSize ||| b) = true := by
  rw [or_flags hb, present, pgSize]
  simp only [decide_eq_true_eq]
  omega

theorem mempermToPteperm_lt (m : MemPerm) : mempermToPteperm m < 8 := by cases m <;> decide

variable {g perm : ℕ}

theorem mkPte_eq (hg : g < 2 ^ 39) : mkPte (g * pgSize) perm = g * pgSize ||| (1 ||| perm) := by
  have h : entryAddr (g * pgSize) = g * pgSize := by
    rw [entryAddr, entryFrame, pgSize]
    omega
  rw [mkPte, h, Nat.or_assoc]

theorem flags_lt {perm : ℕ} (h : perm < 8) : 1 ||| perm < 2 ^ 12 ∧ (1 ||| perm) % 2 = 1 := by
  have h1 : 1 ||| perm < 2 ^ 3 := Nat.or_lt_two_pow (by decide) h
  refine ⟨by omega, ?_⟩
  rw [Nat.or_mod_two_eq_one]
  exact .inl rfl

theorem entryFrame_mkPte (hg : g < 2 ^ 39) (h : perm < 8) :
    entryFrame (mkPte (g * pgSize) perm) = g := by
  rw [mkPte_eq hg, entryFrame_flags hg (flags_lt h).1]

theorem present_mkPte (hg : g < 2 ^ 39) (h : perm < 8) :
    present (mkPte (g * pgSize) perm) = true := by
  rw [mkPte_eq hg, present_flags (flags_lt h).1 (flags_lt h).2]

/-! ## What an address space reaches -/

/-- The page that one of the 512 entries of a table points to. -/
def slot (mem : ℕ → ℕ → ℕ) (t i : ℕ) : Option ℕ :=
  if i < nPtePerPg then tableChild mem t i else none

/-- The page reached from `r`: a table after up to three entries, a mapped page after four. -/
def reach (mem : ℕ → ℕ → ℕ) (r : ℕ) (π : List ℕ) : Option ℕ := Nodes.follow (slot mem) r π

/-- The four indices of a page. -/
def pagePath (p : ℕ) : List ℕ := pageDir p ++ [p % nPtePerPg]

/-- A walk that starts with an entry other than the kernel's. -/
def UserPath : List ℕ → Prop
  | [] => False
  | i :: _ => i ≠ kernelIdx

/-- The entry of a page, which is 0 where tables are missing. -/
def entryOf (mem : ℕ → ℕ → ℕ) (r p : ℕ) : ℕ :=
  match tableAt mem r (pageDir p) with
  | none => 0
  | some t => mem t (p % nPtePerPg)

variable {mem mem' : ℕ → ℕ → ℕ} {π ρ : List ℕ}

theorem slot_eq_some {t i f : ℕ} (hi : i < nPtePerPg) :
    slot mem t i = some f ↔ present (mem t i) = true ∧ entryFrame (mem t i) = f := by
  rw [slot, if_pos hi, tableChild]
  split <;> simp_all

theorem slot_eq_none {t i : ℕ} (hi : i < nPtePerPg) :
    slot mem t i = none ↔ ¬ present (mem t i) := by
  rw [slot, if_pos hi, tableChild]
  split <;> simp_all

theorem slot_congr {t i : ℕ} (h : mem' t i = mem t i) : slot mem' t i = slot mem t i := by
  rw [slot, slot, tableChild, tableChild, h]

theorem reach_eq_tableAt (h : ∀ i ∈ π, i < nPtePerPg) (r : ℕ) :
    reach mem r π = tableAt mem r π := by
  refine Nodes.follow_congr fun ρ i u hpre _ => ?_
  have hi : i < nPtePerPg := h i (hpre.subset (by simp))
  rw [slot, if_pos hi]

theorem reach_pageDir (r p : ℕ) : reach mem r (pageDir p) = tableAt mem r (pageDir p) :=
  reach_eq_tableAt (pageDir_lt p) r

theorem reach_lt {r f : ℕ} (h : reach mem r π = some f) : ∀ i ∈ π, i < nPtePerPg := by
  induction π generalizing r with
  | nil => simp
  | cons i π ih =>
    rw [reach, Nodes.follow_cons] at h
    obtain ⟨u, hu, h⟩ := Option.bind_eq_some_iff.mp h
    rw [List.forall_mem_cons]
    refine ⟨?_, ih h⟩
    by_contra hi
    rw [slot, if_neg hi] at hu
    cases hu

theorem reach_mem {r f : ℕ} {R : List (List ℕ × ℕ)} (h : reach mem r π = some f) (hr : ([], r) ∈ R)
    (hR : ∀ x ∈ R, ∀ i < nPtePerPg, ∀ g ∈ tableChild mem x.2 i, (x.1 ++ [i], g) ∈ R) : (π, f) ∈ R :=
  Nodes.follow_mem hr hR (reach_lt h) ((reach_eq_tableAt (reach_lt h) r).symm.trans h)

theorem reach_congr {d n : ℕ} (h : ∀ ρ f, ρ.length < n → reach mem d ρ = some f → mem' f = mem f)
    (hρ : ρ.length ≤ n) : reach mem' d ρ = reach mem d ρ := by
  refine Nodes.follow_congr fun σ i f hpre hf => slot_congr ?_
  have hlen := hpre.length_le
  rw [Nodes.length_snoc] at hlen
  rw [h σ f (by omega) hf]

theorem reach_cons_of_zero {d i : ℕ} (h : mem d i = 0) : reach mem d (i :: π) = none := by
  rw [reach, Nodes.follow_cons, slot, tableChild, h]
  split <;> rfl

theorem entryOf_reach_congr {d d' p : ℕ} (hreach :
    reach mem' d' (pageDir p) = reach mem d (pageDir p))
    (hword : ∀ t, reach mem d (pageDir p) = some t →
    mem' t (p % nPtePerPg) = mem t (p % nPtePerPg)) : entryOf mem' d' p = entryOf mem d p := by
  rw [reach_pageDir, reach_pageDir] at hreach
  rw [entryOf, entryOf, hreach]
  cases ht : tableAt mem d (pageDir p) with
  | none => rfl
  | some t => exact hword t (by rw [reach_pageDir, ht])

theorem entryOf_congr {d : ℕ} (h : ∀ (ρ : List ℕ) f, ρ.length ≤ 3 →
    reach mem d ρ = some f → mem' f = mem f) (p : ℕ) : entryOf mem' d p = entryOf mem d p := by
  refine entryOf_reach_congr ?_ fun t ht => ?_
  · exact reach_congr (fun σ f hσ hf => h σ f hσ.le hf) (pageDir_length p).le
  · rw [h _ t (pageDir_length p).le ht]

theorem pagePath_inj {p q : ℕ} (hp : p < 2 ^ 36) (hq : q < 2 ^ 36) (h : pagePath p = pagePath q) :
    p = q := by
  have hdir : ∀ x, pagePath x = dirOf 4 x := fun x => by rw [pagePath, pageDir_eq]; rfl
  rw [hdir, hdir] at h
  exact dirOf_inj hp hq h

theorem pageOf_lt (v : ℕ) : pageOf v < 2 ^ 36 := Nat.mod_lt _ (by decide)

theorem pagePath_length (p : ℕ) : (pagePath p).length = 4 := rfl

theorem reach_pagePath (r p : ℕ) : reach mem r (pagePath p) =
    if present (entryOf mem r p) then some (entryFrame (entryOf mem r p)) else none := by
  rw [pagePath, reach, Nodes.follow_snoc]
  have h := @reach_pageDir mem r p
  rw [reach] at h
  rw [h, entryOf]
  cases tableAt mem r (pageDir p) with
  | none => rfl
  | some t => exact if_pos (Nat.mod_lt p (by decide))

theorem reach_eq_some {r p f : ℕ} : reach mem r (pagePath p) = some f ↔
    present (entryOf mem r p) = true ∧ entryFrame (entryOf mem r p) = f := by
  rw [reach_pagePath]
  split <;> simp_all

/-! ## The state of a copy -/

/-- What `s0` has to satisfy for a copy from the tables at `src` to the top-level table `d`: nothing
the source's walks reach is free or is `d`, except the pages the kernel's entry maps, and the
kernel's entry is the same in both. -/
structure Source (s0 : Vm) (src d : ℕ) : Prop where
  ready : s0.pm.Ready
  dst_used : d ∉ freePages s0.pm
  tables : ∀ π f, π.length ≤ 3 → reach s0.mem src π = some f → f ∉ freePages s0.pm ∧ f ≠ d
  pages : ∀ p f, UserPath (pagePath p) → reach s0.mem src (pagePath p) = some f →
    f ∉ freePages s0.pm ∧ f ≠ d
  kernel : s0.mem d kernelIdx = s0.mem src kernelIdx

/-- The pages allocated between two states. -/
def taken (s0 s : Vm) : Set ℕ := freePages s0.pm \ freePages s.pm

/-- A state `s` of a copy that began in `s0`. -/
structure Grown (s0 : Vm) (src d : ℕ) (s : Vm) : Prop where
  ready : s.pm.Ready
  sub : freePages s.pm ⊆ freePages s0.pm
  same : ∀ f, f ≠ d → f ∉ taken s0 s → s.mem f = s0.mem f
  kernel : s.mem d kernelIdx = s0.mem d kernelIdx
  owned : ∀ π f, UserPath π → π.length ≤ 4 → reach s.mem d π = some f → f ∈ taken s0 s
  inj : ∀ π ρ f, UserPath π → UserPath ρ → π.length ≤ 4 → ρ.length ≤ 4 →
    reach s.mem d π = some f → reach s.mem d ρ = some f → π = ρ
  copies : ∀ p f, UserPath (pagePath p) → reach s.mem d (pagePath p) = some f →
    ∃ g, reach s0.mem src (pagePath p) = some g ∧ s.mem f = s0.mem g

namespace Grown

variable {s0 s s' : Vm} {src d : ℕ}

theorem taken_mono (h : freePages s'.pm ⊆ freePages s.pm) : taken s0 s ⊆ taken s0 s' :=
  fun _ hf => ⟨hf.1, fun h' => hf.2 (h h')⟩

theorem same_used (G : Grown s0 src d s) {f : ℕ} (h : f ∉ freePages s0.pm ∧ f ≠ d) :
    s.mem f = s0.mem f :=
  G.same f h.2 fun ht => h.1 ht.1

section

variable (H : Source s0 src d) (G : Grown s0 src d s)

include H G

theorem reach_src (h : π.length ≤ 4) : reach s.mem src π = reach s0.mem src π := by
  refine Nodes.follow_congr fun ρ i f hpre hf => slot_congr ?_
  have hlen : ρ.length ≤ 3 := by
    have := hpre.length_le
    rw [Nodes.length_snoc] at this
    omega
  rw [G.same_used (H.tables ρ f hlen hf)]

theorem reach_kernel (h : ρ.length ≤ 3) :
    reach s.mem d (kernelIdx :: ρ) = reach s0.mem src (kernelIdx :: ρ) := by
  have hslot : slot s.mem d kernelIdx = slot s0.mem src kernelIdx := by
    rw [slot, slot, tableChild, tableChild, G.kernel, H.kernel]
  rw [← G.reach_src H (by rw [List.length_cons]; omega), reach, reach, Nodes.follow_cons,
    Nodes.follow_cons, hslot]
  have hsrc : slot s.mem src kernelIdx = slot s0.mem src kernelIdx :=
    slot_congr (by rw [G.same_used (H.tables [] src (by simp) rfl)])
  rw [hsrc]

/-- Where a walk from the destination arrives: at its top-level table, at an allocated table, or at
a table of the kernel. -/
theorem reach_cases {f : ℕ} (h : ρ.length ≤ 3) (hf : reach s.mem d ρ = some f) : (ρ = [] ∧ f = d)
    ∨ (UserPath ρ ∧ f ∈ taken s0 s) ∨ (f ∉ freePages s0.pm ∧ f ≠ d) := by
  cases ρ with
  | nil => exact .inl ⟨rfl, (Option.some.inj hf).symm⟩
  | cons i ρ =>
    by_cases hi : i = kernelIdx
    · subst hi
      rw [List.length_cons] at h
      rw [G.reach_kernel H (by omega)] at hf
      exact .inr (.inr (H.tables _ f (by rw [List.length_cons]; omega) hf))
    · exact .inr (.inl ⟨hi, G.owned (i :: ρ) f hi (by omega) hf⟩)

theorem unique {t : ℕ} (hπ : π = [] ∨ UserPath π) (h1 : π.length ≤ 3) (h2 : ρ.length ≤ 3)
    (hπt : reach s.mem d π = some t) (hρt : reach s.mem d ρ = some t) : ρ = π := by
  have hown : t = d ∧ π = [] ∨ t ∈ taken s0 s ∧ UserPath π := by
    rcases hπ with rfl | hπ
    · exact .inl ⟨(Option.some.inj hπt).symm, rfl⟩
    · exact .inr ⟨G.owned π t hπ (by omega) hπt, hπ⟩
  rcases G.reach_cases H h2 hρt with ⟨rfl, rfl⟩ | ⟨hu, ht⟩ | ⟨hf, hd⟩
  · rcases hown with ⟨-, rfl⟩ | ⟨ht, -⟩
    · rfl
    · exact absurd ht.1 H.dst_used
  · rcases hown with ⟨rfl, -⟩ | ⟨-, hπ⟩
    · exact absurd ht.1 H.dst_used
    · exact G.inj ρ π t hu hπ (by omega) (by omega) hρt hπt
  · rcases hown with ⟨rfl, -⟩ | ⟨ht, -⟩
    · exact absurd rfl hd
    · exact absurd ht.1 hf

theorem not_reached {g : ℕ} (hg : g ∈ freePages s.pm) (h : ρ.length ≤ 3) :
    reach s.mem d ρ ≠ some g := by
  intro hr
  rcases G.reach_cases H h hr with ⟨rfl, rfl⟩ | ⟨-, ht⟩ | ⟨hf, -⟩
  · exact H.dst_used (G.sub hg)
  · exact ht.2 hg
  · exact hf (G.sub hg)

end

theorem shrink (G : Grown s0 src d s) (hmem : s'.mem = s.mem) (hr : s'.pm.Ready)
    (hsub : freePages s'.pm ⊆ freePages s.pm) : Grown s0 src d s' := by
  have hmono : taken s0 s ⊆ taken s0 s' := taken_mono hsub
  refine ⟨hr, hsub.trans G.sub, ?_, ?_, ?_, ?_, ?_⟩ <;> rw [hmem]
  · exact fun f hd hf => G.same f hd fun h => hf (hmono h)
  · exact G.kernel
  · exact fun π f hu hl h => hmono (G.owned π f hu hl h)
  · exact G.inj
  · exact G.copies

end Grown

/-- A free page `g` is attached to entry `i` of the table at the end of `π`. -/
structure Attached (s0 : Vm) (src d : ℕ) (s s' : Vm) (π : List ℕ) (i t g : ℕ) : Prop where
  short : π.length ≤ 3
  user : UserPath (π ++ [i])
  idx : i < nPtePerPg
  table : reach s.mem d π = some t
  empty : slot s.mem t i = none
  free : g ∈ freePages s.pm
  ready : s'.pm.Ready
  sub : freePages s'.pm ⊆ freePages s.pm
  used : g ∉ freePages s'.pm
  link : slot s'.mem t i = some g
  frame : ∀ f j, f ≠ g → (f ≠ t ∨ j ≠ i) → s'.mem f j = s.mem f j
  /-- A table is empty, and a user page is a copy. -/
  content : (π.length < 3 ∧ ∀ j, s'.mem g j = 0) ∨
    ∃ p f, π ++ [i] = pagePath p ∧ reach s0.mem src (pagePath p) = some f ∧ s'.mem g = s0.mem f

namespace Attached

variable {s0 s s' : Vm} {src d : ℕ} {π : List ℕ} {i t g : ℕ}

theorem prefix_user (A : Attached s0 src d s s' π i t g) : π = [] ∨ UserPath π := by
  cases π with
  | nil => exact .inl rfl
  | cons j π => exact .inr A.user

theorem end_or_empty (A : Attached s0 src d s s' π i t g) :
    4 = π.length + 1 ∨ ∀ j, slot s'.mem g j = none := by
  rcases A.content with ⟨-, hzero⟩ | ⟨p, f, hp, -⟩
  · refine .inr fun j => ?_
    rw [slot, tableChild, hzero j]
    split <;> rfl
  · have := congrArg List.length hp
    rw [Nodes.length_snoc, pagePath_length] at this
    omega

theorem reach_eq (H : Source s0 src d) (G : Grown s0 src d s) (A : Attached s0 src d s s' π i t g)
    (hρ : ρ.length ≤ 4) : reach s'.mem d ρ = if ρ = π ++ [i] then some g else reach s.mem d ρ := by
  refine Nodes.follow_attach A.table (fun σ hσ hσt => ?_) (fun σ hσ => ?_)
    A.empty A.link ?_ A.end_or_empty hρ
  · exact G.unique H A.prefix_user A.short (by omega) A.table hσt
  · exact G.not_reached H A.free (by omega)
  · exact fun f j hf hj => slot_congr (A.frame f j hf hj)

theorem mem_taken (G : Grown s0 src d s) (A : Attached s0 src d s s' π i t g) :
    g ∈ taken s0 s' := ⟨G.sub A.free, A.used⟩

theorem table_own (G : Grown s0 src d s) (A : Attached s0 src d s s' π i t g) : (π = [] ∧ t = d)
    ∨ (UserPath π ∧ t ∈ taken s0 s) := by
  rcases A.prefix_user with rfl | hu
  · exact .inl ⟨rfl, (Option.some.inj A.table).symm⟩
  · have := A.short
    exact .inr ⟨hu, G.owned π t hu (by omega) A.table⟩

section

variable (H : Source s0 src d) (G : Grown s0 src d s) (A : Attached s0 src d s s' π i t g)

include H G A

theorem page_ne_table {p f : ℕ} (hp : UserPath (pagePath p))
    (hf : reach s.mem d (pagePath p) = some f) : f ≠ t := by
  rintro rfl
  have hlen := A.short
  have htaken := G.owned _ _ hp (pagePath_length p).le hf
  rcases A.table_own G with ⟨-, rfl⟩ | ⟨hu, -⟩
  · exact H.dst_used htaken.1
  · have := G.inj _ _ _ hp hu (pagePath_length p).le (by omega) hf A.table
    rw [← this, pagePath_length] at hlen
    omega

theorem grown : Grown s0 src d s' := by
  have hmono : taken s0 s ⊆ taken s0 s' := Grown.taken_mono A.sub
  have hold : ∀ ρ f, UserPath ρ → ρ.length ≤ 4 → reach s.mem d ρ = some f → f ≠ g := by
    rintro ρ f hu hl hr rfl
    exact (G.owned ρ f hu hl hr).2 A.free
  refine ⟨A.ready, A.sub.trans G.sub, ?_, ?_, ?_, ?_, ?_⟩
  · intro f hd hf
    have hg : f ≠ g := fun h => hf (h ▸ A.mem_taken G)
    have ht : f ≠ t := by
      rintro rfl
      rcases A.table_own G with ⟨-, h⟩ | ⟨-, h⟩
      · exact hd h
      · exact hf (hmono h)
    rw [← G.same f hd fun h => hf (hmono h)]
    exact funext fun j => A.frame f j hg (.inl ht)
  · have hg : d ≠ g := fun h => H.dst_used (h ▸ G.sub A.free)
    rw [A.frame d kernelIdx hg, G.kernel]
    rcases A.table_own G with ⟨rfl, -⟩ | ⟨-, h⟩
    · exact .inr fun h => A.user h.symm
    · exact .inl fun hd => H.dst_used (hd ▸ h.1)
  · intro ρ f hu hl hr
    rw [A.reach_eq H G hl] at hr
    split at hr
    · exact Option.some.inj hr ▸ A.mem_taken G
    · exact hmono (G.owned ρ f hu hl hr)
  · intro ρ σ f hρ hσ hlρ hlσ h1 h2
    rw [A.reach_eq H G hlρ] at h1
    rw [A.reach_eq H G hlσ] at h2
    split at h1 <;> split at h2
    · rename_i e1 e2
      rw [e1, e2]
    · exact absurd (Option.some.inj h1).symm (hold σ f hσ hlσ h2)
    · exact absurd (Option.some.inj h2).symm (hold ρ f hρ hlρ h1)
    · exact G.inj ρ σ f hρ hσ hlρ hlσ h1 h2
  · intro p f hp hr
    rw [A.reach_eq H G (pagePath_length p).le] at hr
    split at hr
    · rename_i hpath
      obtain rfl := Option.some.inj hr
      rcases A.content with ⟨hlen, -⟩ | ⟨q, f, hq, hsrc, hmem⟩
      · have := congrArg List.length hpath
        rw [Nodes.length_snoc, pagePath_length] at this
        omega
      · rw [hpath, hq]
        exact ⟨f, hsrc, hmem⟩
    · obtain ⟨g0, hg0, hmem⟩ := G.copies p f hp hr
      refine ⟨g0, hg0, hmem ▸ funext fun j => A.frame f j ?_ (.inl ?_)⟩
      · exact hold _ f hp (pagePath_length p).le hr
      · exact A.page_ne_table H G hp hr

theorem entryOf_eq {p : ℕ} (hp : pagePath p ≠ π ++ [i]) :
    entryOf s'.mem d p = entryOf s.mem d p := by
  have hdir := A.reach_eq H G (ρ := pageDir p) (by rw [pageDir_length]; omega)
  rw [reach_pageDir, reach_pageDir] at hdir
  rw [entryOf, entryOf, hdir]
  split
  · rename_i e
    split at e
    · cases e
    · rw [e]
  · rename_i u e
    split at e
    · rename_i hπ
      obtain rfl := Option.some.inj e
      have hnone : tableAt s.mem d (pageDir p) = none := by
        rw [← reach_pageDir, hπ, reach, Nodes.follow_snoc, ← reach, A.table]
        exact A.empty
      rw [hnone]
      rcases A.content with ⟨-, hzero⟩ | ⟨q, f, hq, -⟩
      · exact hzero _
      · have := congrArg List.length (hπ.trans hq)
        rw [pageDir_length, pagePath_length] at this
        omega
    · rw [e]
      have hu : reach s.mem d (pageDir p) = some u := by rw [reach_pageDir, e]
      refine A.frame u _ ?_ ?_
      · exact fun h => G.not_reached H A.free (pageDir_length p).le (h ▸ hu)
      · by_contra hcon
        obtain ⟨rfl, hi⟩ := not_or.mp hcon |>.imp not_not.mp not_not.mp
        refine hp ?_
        rw [pagePath, hi, G.unique H A.prefix_user A.short (pageDir_length p).le A.table hu]

end

end Attached

/-! ## Finding an entry with allocation -/

variable {s s' : Vm}

theorem pmemCall_alloc_none (hr : s.pm.Ready) (h : pmemCall pmemAlloc s = .ok (none, s')) :
    s' = s := by
  obtain ⟨pm', hpm, rfl⟩ := Prog.zoom_ok.mp h
  obtain ⟨r, s1, hrun, -, -, hnone, -⟩ := hr.pmemNalloc (n := 1) le_rfl (by decide)
  rw [pmemAlloc, hrun] at hpm
  cases hpm
  rw [hnone rfl]

theorem pmemCall_alloc {paddr : ℕ} (hr : s.pm.Ready)
    (h : pmemCall pmemAlloc s = .ok (some paddr, s')) :
    ∃ g, paddr = g * pgSize ∧ g < 2 ^ 39 ∧ g ∈ freePages s.pm ∧ g ∉ freePages s'.pm ∧
      s'.pm.Ready ∧ freePages s'.pm ⊆ freePages s.pm ∧ s'.mem = s.mem := by
  obtain ⟨pm', hpm, rfl⟩ := Prog.zoom_ok.mp h
  obtain ⟨r, s1, hrun, hready, hsub, -, hsome⟩ := hr.pmemNalloc (n := 1) le_rfl (by decide)
  rw [pmemAlloc, hrun] at hpm
  cases hpm
  obtain ⟨g, hg, hlt, -, hin, hout⟩ := hsome paddr rfl
  exact ⟨g, hg, by omega, hin, hout, hready, hsub, rfl⟩

theorem walkLevel_alloc {t i u : ℕ} (h : walkLevel t i true s = .ok (some u, s')) :
    (present (s.mem t i) = true ∧ u = entryFrame (s.mem t i) ∧ s' = s) ∨
      (¬ present (s.mem t i) ∧ ∃ paddr s1, pmemCall pmemAlloc s = .ok (some paddr, s1) ∧
        s' = (s1.zeroPage (paddr / pgSize)).setWord t i (paddr ||| 7) ∧
          u = entryFrame (paddr ||| 7)) := by
  rw [walkLevel, Prog.read_bind] at h
  split at h
  · rename_i hp
    cases h
    exact .inl ⟨hp, rfl, rfl⟩
  · rename_i hp
    rw [if_neg (by simp)] at h
    obtain ⟨r, s1, hall, hrest⟩ := Prog.bind_ok.mp h
    cases r with
    | none => cases hrest
    | some paddr =>
      simp only at hrest
      rw [Prog.update_bind, Prog.update_bind] at hrest
      cases hrest
      exact .inr ⟨hp, paddr, s1, hall, rfl, rfl⟩

section Grow

variable {s0 s s' : Vm} {src d : ℕ}

theorem Grown.walkLevel (H : Source s0 src d) (G : Grown s0 src d s) {i t u : ℕ}
    (hlen : π.length < 3) (huser : UserPath (π ++ [i])) (hi : i < nPtePerPg)
    (ht : reach s.mem d π = some t) (h : Osv.walkLevel t i true s = .ok (some u, s')) :
    Grown s0 src d s' ∧ reach s'.mem d (π ++ [i]) = some u ∧
      ∀ p, entryOf s'.mem d p = entryOf s.mem d p := by
  rcases walkLevel_alloc h with ⟨hp, rfl, rfl⟩ | ⟨hp, paddr, s1, hall, hs', hu⟩
  · refine ⟨G, ?_, fun _ => rfl⟩
    rw [reach, Nodes.follow_snoc, ← reach, ht]
    exact (slot_eq_some hi).mpr ⟨hp, rfl⟩
  · obtain ⟨g, rfl, hlt, hin, hout, hready, hsub, hmem⟩ := pmemCall_alloc G.ready hall
    have hgt : t ≠ g := fun h => G.not_reached H hin (by omega) (h ▸ ht)
    have hfr : entryFrame (g * pgSize ||| 7) = g := entryFrame_flags hlt (by decide)
    have hpg := mul_pgSize_div g
    rw [hpg] at hs'
    have A : Attached s0 src d s s' π i t g :=
      { short := by omega
        user := huser
        idx := hi
        table := ht
        empty := (slot_eq_none hi).mpr hp
        free := hin
        ready := hs' ▸ hready
        sub := hs' ▸ hsub
        used := hs' ▸ hout
        link := by
          rw [slot_eq_some hi, hs']
          simp only [Vm.setWord, and_self, if_true]
          exact ⟨present_flags (by decide) rfl, hfr⟩
        frame := by
          intro f j hfg hft
          rw [hs']
          simp only [Vm.setWord, Vm.zeroPage]
          rw [if_neg (by tauto), if_neg hfg, hmem]
        content := by
          refine .inl ⟨hlen, fun j => ?_⟩
          rw [hs']
          simp only [Vm.setWord, Vm.zeroPage]
          rw [if_neg (fun h => hgt h.1.symm), if_pos trivial] }
    refine ⟨A.grown H G, ?_, fun p => A.entryOf_eq H G fun hcon => ?_⟩
    · rw [A.reach_eq H G (by rw [Nodes.length_snoc]; omega), if_pos rfl, hu, hfr]
    · have := congrArg List.length hcon
      rw [Nodes.length_snoc, pagePath_length] at this
      omega

theorem Grown.findPte (H : Source s0 src d) (G : Grown s0 src d s) {v : ℕ} {pte : ℕ × ℕ}
    (hv : pml4x v ≠ kernelIdx) (h : Osv.findPte d v true s = .ok (some pte, s')) :
    Grown s0 src d s' ∧ reach s'.mem d (pageDir (v / pgSize)) = some pte.1 ∧ pte.2 = ptx v ∧
      ∀ p, entryOf s'.mem d p = entryOf s.mem d p := by
  rw [Osv.findPte] at h
  obtain ⟨r1, s1, h1, h⟩ := Prog.bind_ok.mp h
  cases r1 with
  | none => cases h
  | some pdpt =>
    obtain ⟨r2, s2, h2, h⟩ := Prog.bind_ok.mp h
    cases r2 with
    | none => cases h
    | some pgdir =>
      obtain ⟨r3, s3, h3, h⟩ := Prog.bind_ok.mp h
      cases r3 with
      | none => cases h
      | some pgtab =>
        cases h
        obtain ⟨G1, e1, k1⟩ := G.walkLevel H (π := []) (by simp) hv (pml4x_lt v) rfl h1
        obtain ⟨G2, e2, k2⟩ := G1.walkLevel H (π := [pml4x v]) (by simp) hv (pdptx_lt v) e1 h2
        obtain ⟨G3, e3, k3⟩ :=
          G2.walkLevel H (π := [pml4x v, pdptx v]) (by simp) hv (pdx_lt v) e2 h3
        refine ⟨G3, ?_, rfl, fun p => ((k3 p).trans (k2 p)).trans (k1 p)⟩
        rw [pageDir_vaddr]
        exact e3

end Grow

/-! ## The loop -/

theorem entryOf_of_table {r v t : ℕ} (h : tableAt mem r (pageDir (v / pgSize)) = some t) :
    mem t (ptx v) = entryOf mem r (pageOf v) := by
  rw [entryOf, ← pageDir_pageOf, h, ptx_eq]

/-- One round of a loop that returns `ERR_OK`: the page is not mapped and nothing happens, or it is
copied. -/
theorem copyLoop_step {src d perm n v : ℕ} (h : copyLoop src d perm (n + 1) v v s = .ok (.ok, s')) :
    ∃ s1, copyLoop src d perm n ((v + pgSize) % 2 ^ 64) ((v + pgSize) % 2 ^ 64) s1 = .ok (.ok, s') ∧
      ((entryAddr (entryOf s.mem src (pageOf v)) = 0 ∧ s1 = s) ∨
        (entryAddr (entryOf s.mem src (pageOf v)) ≠ 0 ∧ ∃ t pte s2 s3 paddr,
          tableAt s.mem src (pageDir (v / pgSize)) = some t ∧
          findPte d v true s = .ok (some pte, s2) ∧ entryAddr (s2.mem pte.1 pte.2) = 0 ∧
          pmemCall pmemAlloc s2 = .ok (some paddr, s3) ∧
          s1 = (s3.copyPage (paddr / pgSize) (entryFrame (s3.mem t (ptx v)))).setWord pte.1 pte.2
            (mkPte paddr perm))) := by
  rw [copyLoop, Prog.bind_of_ok (findPte_run src v s)] at h
  cases ht : tableAt s.mem src (pageDir (v / pgSize)) with
  | none =>
    rw [ht] at h
    refine ⟨s, h, .inl ⟨?_, rfl⟩⟩
    rw [entryOf, ← pageDir_pageOf, ht]
    exact (by decide : entryAddr 0 = 0)
  | some t =>
    rw [ht] at h
    simp only [Option.map_some] at h
    rw [Prog.read_bind, entryOf_of_table ht] at h
    split at h
    · exact ⟨s, h, .inl ⟨by assumption, rfl⟩⟩
    · rename_i hne
      obtain ⟨r, s2, hfind, h⟩ := Prog.bind_ok.mp h
      cases r with
      | none => cases h
      | some pte =>
        simp only at h
        rw [Prog.read_bind] at h
        split at h
        · cases h
        · rename_i hzero
          obtain ⟨r, s3, hall, h⟩ := Prog.bind_ok.mp h
          cases r with
          | none => cases h
          | some paddr =>
            simp only at h
            rw [Prog.update_bind, Prog.update_bind] at h
            exact ⟨_, h, .inr ⟨hne, t, pte, s2, s3, paddr, rfl, hfind, not_not.mp hzero, hall,
              rfl⟩⟩

theorem Pmem.Ready.zero_not_free {s : Pmem} (R : s.Ready) : 0 ∉ freePages s := by
  obtain ⟨-, live, N, T, B⟩ := R
  exact B.not_free (B.reserved.mpr ⟨B.start_pos, rfl⟩) (Dyadic.head_mem 0 0) (by simp)

theorem userPath_pagePath {v : ℕ} : UserPath (pagePath (pageOf v)) ↔ pml4x v ≠ kernelIdx := by
  have h : pagePath (pageOf v) = [pml4x v, pdptx v, pdx v] ++ [pageOf v % nPtePerPg] := by
    rw [pagePath, ← pageDir_pageOf, pageDir_vaddr]
  rw [h]
  exact Iff.rfl

section Loop

variable {s0 s s' : Vm} {src d perm : ℕ}

theorem Grown.entryOf_src (H : Source s0 src d) (G : Grown s0 src d s) (p : ℕ) :
    entryOf s.mem src p = entryOf s0.mem src p := by
  refine entryOf_reach_congr (G.reach_src H (by rw [pageDir_length]; omega)) fun t ht => ?_
  exact congrFun (G.same_used (H.tables _ t (pageDir_length p).le ht)) _

theorem Grown.not_present (G : Grown s0 src d s) (H : Source s0 src d) {p : ℕ}
    (hp : UserPath (pagePath p)) (h : entryAddr (entryOf s.mem d p) = 0) :
    ¬ present (entryOf s.mem d p) := by
  intro hpres
  have hr := G.owned _ _ hp (pagePath_length p).le (reach_eq_some.mpr ⟨hpres, rfl⟩)
  have h0 : entryFrame (entryOf s.mem d p) = 0 :=
    (Nat.mul_eq_zero.mp h).resolve_right (by decide)
  rw [h0] at hr
  exact H.ready.zero_not_free hr.1

theorem Grown.copyPage (H : Source s0 src d) (G : Grown s0 src d s) (hperm : perm < 8)
    {v t paddr : ℕ} {pte : ℕ × ℕ} {s2 s3 : Vm} (hv : pml4x v ≠ kernelIdx)
    (hpres : present (entryOf s0.mem src (pageOf v)) = true)
    (ht : tableAt s.mem src (pageDir (v / pgSize)) = some t)
    (hfind : Osv.findPte d v true s = .ok (some pte, s2))
    (hzero : entryAddr (s2.mem pte.1 pte.2) = 0)
    (hall : pmemCall pmemAlloc s2 = .ok (some paddr, s3))
    (hs' : s' = (s3.copyPage (paddr / pgSize) (entryFrame (s3.mem t (ptx v)))).setWord pte.1 pte.2
      (mkPte paddr perm)) :
    Grown s0 src d s' ∧ (∃ f < 2 ^ 39, entryOf s'.mem d (pageOf v) = mkPte (f * pgSize) perm) ∧
      ¬ present (entryOf s.mem d (pageOf v)) ∧
      ∀ p, p ≠ pageOf v → p < 2 ^ 36 → entryOf s'.mem d p = entryOf s.mem d p := by
  obtain ⟨G2, hr2, hidx, hkeep⟩ := G.findPte H hv hfind
  obtain ⟨u, i⟩ := pte
  obtain rfl : i = ptx v := hidx
  have hu : UserPath (pagePath (pageOf v)) := userPath_pagePath.mpr hv
  obtain ⟨g, rfl, hlt, hin, hout, hready, hsub, hmem⟩ := pmemCall_alloc G2.ready hall
  rw [mul_pgSize_div, hmem] at hs'
  have htab : tableAt s2.mem d (pageDir (v / pgSize)) = some u := by
    rw [pageDir_pageOf, ← reach_pageDir, ← pageDir_pageOf, hr2]
  have hnp : ¬ present (s2.mem u (ptx v)) := by
    have h := G2.not_present H hu (p := pageOf v)
    rw [← entryOf_of_table htab] at h
    exact h hzero
  have hsrc : s2.mem t (ptx v) = entryOf s0.mem src (pageOf v) := by
    have ht2 : tableAt s2.mem src (pageDir (v / pgSize)) = some t := by
      rw [← ht, pageDir_pageOf, ← reach_pageDir, ← reach_pageDir,
        G2.reach_src H (by rw [pageDir_length]; omega), G.reach_src H
        (by rw [pageDir_length]; omega)]
    rw [entryOf_of_table ht2, G2.entryOf_src H]
  have hreach : reach s0.mem src (pagePath (pageOf v)) =
      some (entryFrame (entryOf s0.mem src (pageOf v))) := reach_eq_some.mpr ⟨hpres, rfl⟩
  have hgu : u ≠ g := fun h => G2.not_reached H hin (pageDir_length _).le (h ▸ hr2)
  have hpath : pagePath (pageOf v) = pageDir (v / pgSize) ++ [ptx v] := by
    rw [pagePath, pageDir_pageOf, ptx_eq]
  have A : Attached s0 src d s2 s' (pageDir (v / pgSize)) (ptx v) u g :=
    { short := (pageDir_length _).le
      user := hpath ▸ hu
      idx := ptx_lt v
      table := hr2
      empty := (slot_eq_none (ptx_lt v)).mpr hnp
      free := hin
      ready := hs' ▸ hready
      sub := hs' ▸ hsub
      used := hs' ▸ hout
      link := by
        rw [slot_eq_some (ptx_lt v), hs']
        simp only [Vm.setWord, and_self, if_true]
        exact ⟨present_mkPte hlt hperm, entryFrame_mkPte hlt hperm⟩
      frame := by
        intro f j hfg hft
        rw [hs']
        simp only [Vm.setWord, Vm.copyPage]
        rw [if_neg (by tauto), if_neg hfg, hmem]
      content := by
        refine .inr ⟨pageOf v, _, hpath.symm, hreach, funext fun j => ?_⟩
        rw [hs']
        simp only [Vm.setWord, Vm.copyPage]
        rw [if_neg (fun h => hgu h.1.symm), if_pos trivial, hmem, hsrc, G2.same_used
          (H.pages _ _ hu hreach)] }
  refine ⟨A.grown H G2, ⟨g, hlt, ?_⟩, ?_, fun p hp hlt36 => ?_⟩
  · have htab' : tableAt s'.mem d (pageDir (v / pgSize)) = some u := by
      rw [pageDir_pageOf, ← reach_pageDir, ← pageDir_pageOf, A.reach_eq H G2
        (by rw [pageDir_length]; omega), if_neg (by simp), hr2]
    rw [← entryOf_of_table htab', hs']
    simp only [Vm.setWord, and_self, if_true]
  · rw [← hkeep, ← entryOf_of_table htab]
    exact hnp
  · rw [A.entryOf_eq H G2, hkeep]
    rw [← hpath]
    exact fun h => hp (pagePath_inj hlt36 (pageOf_lt v) h)

theorem Grown.findPte_kernel (H : Source s0 src d) (G : Grown s0 src d s) {v t : ℕ}
    (hv : pml4x v = kernelIdx) (ht : tableAt s.mem src (pageDir (v / pgSize)) = some t) :
    tableAt s.mem d (pageDir (v / pgSize)) = some t := by
  rw [pageDir_pageOf, ← reach_pageDir, G.reach_src H
    (by rw [pageDir_length]; omega), ← pageDir_pageOf, pageDir_vaddr, hv] at ht
  rw [pageDir_pageOf, ← reach_pageDir, ← pageDir_pageOf, pageDir_vaddr, hv,
    G.reach_kernel H (by simp), ht]

/-- What a copy of `n` pages from `v` to the same addresses leaves, when it returns `ERR_OK`: it
keeps what is mapped, and maps every page that is mapped in the source. -/
structure Copied (s0 : Vm) (src d perm n v : ℕ) (s s' : Vm) : Prop where
  grown : Grown s0 src d s'
  keeps : ∀ p < 2 ^ 36, UserPath (pagePath p) → present (entryOf s.mem d p) = true →
    entryOf s'.mem d p = entryOf s.mem d p
  maps : ∀ i < n, present (entryOf s0.mem src (pageOf ((v + i * pgSize) % 2 ^ 64))) = true →
    UserPath (pagePath (pageOf ((v + i * pgSize) % 2 ^ 64))) ∧
      ∃ f < 2 ^ 39, entryOf s'.mem d (pageOf ((v + i * pgSize) % 2 ^ 64)) = mkPte (f * pgSize) perm

/-- Which entries of the source the copy takes for mapped: those with an address. -/
def EntriesOk (s0 : Vm) (src n v : ℕ) : Prop :=
  ∀ i < n, present (entryOf s0.mem src (pageOf ((v + i * pgSize) % 2 ^ 64))) = true ↔
    entryAddr (entryOf s0.mem src (pageOf ((v + i * pgSize) % 2 ^ 64))) ≠ 0

theorem pageOf_mod (v : ℕ) : pageOf (v % 2 ^ 64) = pageOf v := by
  simp only [pageOf, pgSize]
  omega

theorem addr_succ (v i : ℕ) : ((v + pgSize) % 2 ^ 64 + i * pgSize)
    % 2 ^ 64 = (v + (i + 1) * pgSize) % 2 ^ 64 := by
  rw [Nat.mod_add_mod, Nat.succ_mul, Nat.add_assoc, Nat.add_comm pgSize]

/-- The entries that change are present afterwards. -/
def Refilled (d : ℕ) (s s' : Vm) : Prop :=
  ∀ p < 2 ^ 36, present (entryOf s'.mem d p) = true ∨ entryOf s'.mem d p = entryOf s.mem d p

theorem Refilled.trans {s1 : Vm} (h : Refilled d s s1) (h' : Refilled d s1 s') :
    Refilled d s s' := by
  intro p hp
  rcases h' p hp with h2 | h2
  · exact .inl h2
  · rw [h2]
    exact h p hp

theorem copyLoop_ok (H : Source s0 src d) (hperm : perm < 8) {n v : ℕ} (hent : EntriesOk s0 src n v)
    (G : Grown s0 src d s) (h : copyLoop src d perm n v v s = .ok (.ok, s')) :
    Copied s0 src d perm n v s s' ∧ Refilled d s s' := by
  induction n generalizing v s with
  | zero =>
    cases h
    exact ⟨⟨G, fun _ _ _ _ => rfl, fun i hi => absurd hi (Nat.not_lt_zero i)⟩, fun _ _ => .inr rfl⟩
  | succ n ih =>
    obtain ⟨s1, hrest, hstep⟩ := copyLoop_step h
    have hent' : EntriesOk s0 src n ((v + pgSize) % 2 ^ 64) := by
      intro i hi
      rw [addr_succ]
      exact hent (i + 1) (by omega)
    have h0 : pageOf ((v + 0 * pgSize) % 2 ^ 64) = pageOf v := by
      rw [Nat.zero_mul, Nat.add_zero, pageOf_mod]
    have hent0 := hent 0 (Nat.succ_pos n)
    rw [h0] at hent0
    rw [G.entryOf_src H] at hstep
    rcases hstep with ⟨hzero, rfl⟩ | ⟨hne, t, pte, s2, s3, paddr, ht, hfind, hz, hall, hs1⟩
    · obtain ⟨C, hfill⟩ := ih hent' G hrest
      refine ⟨⟨C.grown, C.keeps, fun i hi hpres => ?_⟩, hfill⟩
      cases i with
      | zero =>
        rw [h0] at hpres
        exact absurd hzero (hent0.mp hpres)
      | succ i =>
        have := C.maps i (by omega)
        rw [addr_succ] at this
        exact this hpres
    · by_cases hv : pml4x v = kernelIdx
      · have hd := G.findPte_kernel H hv ht
        rw [findPte_present hd] at hfind
        cases hfind
        rw [entryOf_of_table ht, G.entryOf_src H] at hz
        exact absurd hz hne
      · obtain ⟨G1, ⟨f, hf, hnew⟩, hold, hkeep⟩ :=
          G.copyPage H hperm hv (hent0.mpr hne) ht hfind hz hall hs1
        obtain ⟨C, hfill⟩ := ih hent' G1 hrest
        have hu := userPath_pagePath.mpr hv
        refine ⟨⟨C.grown, fun p hp hup hpres => ?_, fun i hi hpres => ?_⟩,
          Refilled.trans (fun p hp => ?_) hfill⟩
        · have hpv : p ≠ pageOf v := fun h => hold (h ▸ hpres)
          rw [C.keeps p hp hup (by rw [hkeep p hpv hp]; exact hpres), hkeep p hpv hp]
        · cases i with
          | zero =>
            rw [h0]
            refine ⟨hu, f, hf, ?_⟩
            rw [C.keeps _ (pageOf_lt v) hu (by rw [hnew]; exact present_mkPte hf hperm), hnew]
          | succ i =>
            have := C.maps i (by omega)
            rw [addr_succ] at this
            exact this hpres
        · by_cases hpv : p = pageOf v
          · rw [hpv, hnew]
            exact .inl (present_mkPte hf hperm)
          · exact .inr (hkeep p hpv hp)

end Loop

end Osv
