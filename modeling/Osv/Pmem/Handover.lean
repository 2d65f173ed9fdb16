import Osv.Lib.Run
import Osv.Pmem.Run

/-!
# What the boot allocator gave out stays given out

As long as nothing is freed at boot, the set bits of the bitmap are the ones below
`bitmap_contig_start` (`BootFront`), so first fit always takes the next pages and
every call returns (`BootFront.pmemNalloc_eq`).  `pmem_init` takes the pages of the
page map the same way, clears the bits of the bitmap's own pages and walks over the
result.

`HandedOver calls s` is what the walk leaves when the calls `calls` were made at
boot: the free lists tile the pages that no call gave out, every other page is
counted once, and no later allocation returns a page of one of the calls.
-/

namespace Osv

open Prog (bind_of_ok bind_ok preserves_bind preserves_pure preserves_update
  read_bind run_of_result)

open Dyadic

/-! ## First fit behind a full front -/

/-- The bits of the bitmap lie inside the pages reserved for it. -/
def BitmapFits (c : PmemConfig) : Prop :=
  (c.pmemEnd - c.pmemStart) / pgSize ≤ 8 * (pgSize * bitmapNPages c)

/-- The boot allocator when nothing was freed. -/
structure BootFront (s : Pmem) : Prop where
  ready : BootReady s
  fits : BitmapFits s.config
  /-- The pages handed out are the first ones. -/
  front : ∀ i < s.bitmapEnd, (s.bitmap i = true ↔ i < s.bitmapContigStart)
  /-- The bitmap's own pages are among them. -/
  own_le : bitmapNPages s.config ≤ s.bitmapContigStart

section Find

variable {bits : ℕ → Bool} {n c e : ℕ}

theorem bitmapFindLoop_past (hbits : ∀ i < e, (bits i = true ↔ i < c)) :
    ∀ {rem i : ℕ}, i + rem = e → c ≤ i → i - c < n →
      bitmapFindLoop bits n rem i c (i - c) = if c + n ≤ e then some c else none
  | 0, i, hi, hc, hn => by
    rw [bitmapFindLoop, if_neg (by omega)]
  | rem + 1, i, hi, hc, hn => by
    have hclear : ¬ bits i = true := fun h => Nat.not_lt.mpr hc ((hbits i (by omega)).mp h)
    rw [bitmapFindLoop, if_neg hclear]
    split
    · rw [if_pos (by omega)]
    · have h1 : i - c + 1 = i + 1 - c := by omega
      rw [h1]
      exact bitmapFindLoop_past hbits (by omega) (by omega) (by omega)

theorem bitmapFindLoop_front (hbits : ∀ i < e, (bits i = true ↔ i < c)) (hn : 0 < n) (hce : c ≤ e) :
    ∀ {rem i : ℕ}, i + rem = e → i ≤ c →
      bitmapFindLoop bits n rem i i 0 = if c + n ≤ e then some c else none
  | 0, i, hi, hc => by
    rw [bitmapFindLoop, if_neg (by omega)]
  | rem + 1, i, hi, hc => by
    rcases Nat.eq_or_lt_of_le hc with rfl | hlt
    · have h := bitmapFindLoop_past (n := n) hbits hi (le_refl i) (by omega)
      rw [Nat.sub_self] at h
      exact h
    · rw [bitmapFindLoop, if_pos ((hbits i (by omega)).mpr hlt)]
      exact bitmapFindLoop_front hbits hn hce (by omega) hlt

end Find

/-- The next `n` pages behind the front are taken. -/
def Pmem.take (s : Pmem) (n : ℕ) : Pmem :=
  { s with
    bitmap := fun j =>
      if s.bitmapContigStart ≤ j ∧ j < s.bitmapContigStart + n then true else s.bitmap j
    bitmapContigStart := s.bitmapContigStart + n }

section

variable {s : Pmem} {n : ℕ}

theorem Pmem.take_config : (s.take n).config = s.config := rfl

theorem Pmem.take_startPage : (s.take n).startPage = s.startPage := rfl

theorem Pmem.take_end : (s.take n).bitmapEnd = s.bitmapEnd := rfl

theorem Pmem.take_contig : (s.take n).bitmapContigStart = s.bitmapContigStart + n := rfl

end

namespace BootFront

variable {s : Pmem} {n : ℕ}

/-- A call of the boot allocator takes the next pages, if there are enough. -/
theorem pmemNalloc_eq (F : BootFront s) (hn : 0 < n) : pmemNalloc n s =
      if s.bitmapContigStart + n ≤ s.bitmapEnd then
        .ok (some (bitmapItop s.config s.bitmapContigStart), s.take n) else .ok (none, s) := by
  have hfind := bitmapFindLoop_front F.front hn F.ready.contig_le (Nat.zero_add _) (Nat.zero_le _)
  rw [pmemNalloc, pmemNallocInternal_boot F.ready.off hn, hfind]
  split
  · rename_i hroom
    have hclear : ∀ j, s.bitmapContigStart ≤ j → j < s.bitmapContigStart + n →
        s.bitmap j = false := by
      intro j h1 h2
      rw [← Bool.not_eq_true]
      intro h
      exact Nat.not_lt.mpr h1 ((F.front j (by omega)).mp h)
    have halloc : bitmapAlloc s.bitmapContigStart n s = .ok ((), s.take n) := by
      rw [bitmapAlloc_run hroom hclear, Pmem.take, Nat.max_eq_right
        (Nat.le_add_right s.bitmapContigStart n)]
    exact bind_of_ok halloc
  · rfl

theorem take (F : BootFront s) (hn : 0 < n) (hroom : s.bitmapContigStart + n ≤ s.bitmapEnd) :
    BootFront (s.take n) where
  ready :=
    { F.ready with
      contig_le := hroom
      contig_set := by
        right
        simp only [Pmem.take]
        rw [if_pos (by omega)] }
  fits := F.fits
  front := by
    intro i hi
    have h := F.front i hi
    simp only [Pmem.take]
    split
    · rename_i h1
      simpa using h1.2
    · rename_i h1
      rw [h]
      omega
  own_le := Nat.le_trans F.own_le (Nat.le_add_right _ _)

end BootFront

variable {s s' : Pmem}

theorem bootFront_of_pmemBootInit {u : Unit} (h : pmemBootInit s = .ok (u, s'))
    (hfits : BitmapFits s'.config) :
    BootFront s' ∧ s'.bitmapContigStart = bitmapNPages s'.config := by
  have hready := bootReady_of_pmemBootInit h
  obtain ⟨_, s1, h1, h2⟩ := bind_ok.mp h
  obtain ⟨-, -, rfl⟩ := bitmapInit_ok h1
  cases h2
  refine ⟨⟨hready, hfits, fun i hi => ?_, le_rfl⟩, rfl⟩
  dsimp only
  split
  · rename_i h
    exact iff_of_true rfl h
  · rename_i h
    rw [if_pos (Nat.lt_of_lt_of_le hi hfits)]
    exact iff_of_false Bool.false_ne_true h

/-- The boot allocator gives the bitmap's own pages back, if they are still taken. -/
theorem bitmapPages_free {t : Pmem} (hoff : t.pagemapInitialized = false)
    (hpos : 0 < bitmapNPages t.config) (hset : ∀ j < bitmapNPages t.config, t.bitmap j = true)
    (hle : bitmapNPages t.config ≤ t.bitmapContigStart) (hend : t.bitmapContigStart ≤ t.bitmapEnd) :
    pmemNfreeInternal t.config.pmemStart (bitmapNPages t.config) t = .ok ((), { t with
      bitmap := fun j => if j < bitmapNPages t.config then false else t.bitmap j
      bitmapContigStart :=
        if bitmapNPages t.config = t.bitmapContigStart then 0 else t.bitmapContigStart }) := by
  have hptoi : bitmapPtoi t.config t.config.pmemStart = 0 := by
    rw [bitmapPtoi, Nat.sub_self, Nat.zero_div]
  rw [pmemNfreeInternal_boot hoff hpos, hptoi, bitmapFree,
    kassert_bind (by simp only [decide_eq_true_eq]; omega),
    kassert_bind (by simp only [decide_eq_true_eq]; omega),
    bind_of_ok (bitmapFreeLoop_iff.mpr ⟨fun j _ hj => hset j (by omega), rfl⟩), Prog.update_run]
  simp only [Nat.zero_le, true_and, Nat.zero_add]
  split <;> rfl

/-- The bitmap has a bit for every page if and only if rounding an eighth of the pages down loses
nothing: `bitmap_n_pages` is rounded up only after that. -/
theorem bitmapFits_iff (c : PmemConfig) :
    BitmapFits c ↔ (c.pmemEnd - c.pmemStart) / pgSize % 8 = 0 ∨ (c.pmemEnd - c.pmemStart)
    / pgSize / 8 % pgSize ≠ 0 := by
  rw [BitmapFits, bitmapNPages, pgRoundUp]
  generalize (c.pmemEnd - c.pmemStart) / pgSize = n
  simp only [pgSize]
  omega

/-- After `bitmap_init` the bits below `bitmap_end` are in the bytes of the pages that it cleared
and marked, and `freeblocks_init` begins by freeing exactly these pages if they are still taken, if
and only if the bitmap fits. -/
theorem bitmap_inside_iff {s0 s : Pmem} (h : bitmapInit s0 = .ok ((), s)) :
    ((∀ i < s.bitmapEnd, i / 8 < pgSize * bitmapNPages s.config ∧
    (s.bitmap i = true ↔ i < bitmapNPages s.config)) ∧
      ∀ t : Pmem, t.config = s.config → t.pagemapInitialized = false →
        (∀ j < bitmapNPages t.config, t.bitmap j = true) →
        bitmapNPages t.config ≤ t.bitmapContigStart →
        t.bitmapContigStart ≤ t.bitmapEnd →
        ∃ t', pmemNfreeInternal t.config.pmemStart (bitmapNPages t.config) t = .ok ((), t') ∧
          t'.bitmap = fun j => if j < bitmapNPages t.config then false else t.bitmap j) ↔
    (s0.config.pmemEnd - s0.config.pmemStart) / pgSize % 8 = 0 ∨
      (s0.config.pmemEnd - s0.config.pmemStart) / pgSize / 8 % pgSize ≠ 0 := by
  obtain ⟨-, hpages, rfl⟩ := bitmapInit_ok h
  rw [← bitmapFits_iff, BitmapFits]
  constructor
  · rintro ⟨hin, -⟩
    by_contra hgt
    have := (hin (8 * (pgSize * bitmapNPages s0.config)) (Nat.not_le.mp hgt)).1
    rw [Nat.mul_div_cancel_left _ (by decide)] at this
    exact Nat.lt_irrefl _ this
  · intro hfits
    refine ⟨fun i hi => ⟨?_, ?_⟩, fun t hc hoff hset hle hend =>
      ⟨_, bitmapPages_free hoff ?_ hset hle hend, rfl⟩⟩
    · exact Nat.div_lt_of_lt_mul (Nat.lt_of_lt_of_le hi hfits)
    · dsimp only
      rw [if_pos (Nat.lt_of_lt_of_le hi hfits)]
      simp
    · rw [hc]
      by_contra h0
      simp only [Nat.eq_zero_of_not_pos h0, Nat.mul_zero] at hfits hpages
      omega

/-- The small machine has eight pages, and a page for their bits. -/
theorem smallBlank_inside : ∃ s, bitmapInit smallBlank = .ok ((), s) ∧
    ∀ i < s.bitmapEnd, i / 8 < pgSize * bitmapNPages s.config :=
  have h : bitmapInit smallBlank = .ok ((), bitmapInit.final smallBlank) :=
      run_of_result (by decide +kernel)
  ⟨_, h, fun i hi => (((bitmap_inside_iff h).mpr (by decide +kernel)).1 i hi).1⟩

/-- 128 MiB and a page, in memory that is not clear. -/
def oddBlank : Pmem :=
  { smallBlank with
    config := ⟨4096, 4096 * 32770, smallConfig.start_pos, by decide⟩
    bitmap := fun _ => true }

/-- `bitmap_init` reserves one page for 32769 bits.  The last bit lies in the page behind it, which
is not cleared. -/
theorem oddBlank_outside : ∃ s, bitmapInit oddBlank = .ok ((), s) ∧ 32768 < s.bitmapEnd ∧
    ¬ 32768 / 8 < pgSize * bitmapNPages s.config ∧ s.bitmap 32768 = true :=
  ⟨bitmapInit.final oddBlank, run_of_result
    (by decide +kernel), by decide +kernel, by decide +kernel,
    by decide +kernel⟩

/-! ## The calls at boot -/

/-- A boot allocator that has just been set up, with a bitmap that fits its pages. -/
def BootInit (s : Pmem) : Prop := (∃ s0, pmemBootInit s0 = .ok ((), s)) ∧ BitmapFits s.config

/-- A call of `pmem_nalloc`, with the size and what it returned. -/
def NallocCall (s : Pmem) (call : ℕ × Option ℕ) (s' : Pmem) : Prop :=
  pmemNalloc call.1 s = .ok (call.2, s')

/-- The page lies in what the call returned. -/
def Gave (call : ℕ × Option ℕ) (x : ℕ) : Prop :=
  ∃ paddr, call.2 = some paddr ∧ paddr ≤ x * pgSize ∧ x * pgSize < paddr + call.1 * pgSize

/-- One of the calls gave the page out. -/
def GivenOut (calls : List (ℕ × Option ℕ)) (x : ℕ) : Prop := ∃ call ∈ calls, Gave call x

variable {calls : List (ℕ × Option ℕ)}

theorem givenOut_snoc {call : ℕ × Option ℕ} {x : ℕ} :
    GivenOut (calls ++ [call]) x ↔ GivenOut calls x ∨ Gave call x := by
  simp [GivenOut, or_and_right, exists_or]

theorem not_gave_none {n x : ℕ} : ¬ Gave (n, none) x := by
  rintro ⟨_, h, -⟩
  cases h

variable {s : Pmem}

theorem pmemNalloc_pos {n : ℕ} {r : Option ℕ × Pmem} (h : pmemNalloc n s = .ok r) : 0 < n := by
  rw [pmemNalloc, pmemNallocInternal, kassert_bind_ok] at h
  simpa using h.1

/-- The boot allocator after the calls. -/
structure BootCalls (calls : List (ℕ × Option ℕ)) (s : Pmem) : Prop where
  front : BootFront s
  given : ∀ x, GivenOut calls x ↔
    s.startPage + bitmapNPages s.config ≤ x ∧ x < s.startPage + s.bitmapContigStart

namespace BootCalls

variable {s s' : Pmem} {calls : List (ℕ × Option ℕ)}

theorem init (h : BootInit s) : BootCalls [] s := by
  obtain ⟨⟨s0, h0⟩, hfits⟩ := h
  obtain ⟨hF, hcontig⟩ := bootFront_of_pmemBootInit h0 hfits
  refine ⟨hF, fun x => ?_⟩
  rw [hcontig]
  simp only [GivenOut, List.not_mem_nil, false_and, exists_false, false_iff]
  omega

theorem take (C : BootCalls calls s) {n : ℕ} (hn : 0 < n)
    (hroom : s.bitmapContigStart + n ≤ s.bitmapEnd) :
    BootCalls (calls ++ [(n, some (bitmapItop s.config s.bitmapContigStart))]) (s.take n) := by
  refine ⟨C.front.take hn hroom, fun x => ?_⟩
  have hstart : s.config.pmemStart = s.startPage * pgSize :=
    (Nat.div_mul_cancel C.front.ready.start_aligned).symm
  have hgave : Gave (n, some (bitmapItop s.config s.bitmapContigStart)) x ↔
      s.startPage + s.bitmapContigStart ≤ x ∧ x < s.startPage + s.bitmapContigStart + n := by
    have hitop : bitmapItop s.config s.bitmapContigStart =
        (s.startPage + s.bitmapContigStart) * pgSize := by
      rw [bitmapItop, hstart, Nat.add_mul, Nat.add_comm]
    constructor
    · rintro ⟨paddr, heq, h1, h2⟩
      obtain rfl := Option.some.inj heq
      rw [hitop, ← Nat.add_mul] at h2
      rw [hitop] at h1
      exact ⟨Nat.le_of_mul_le_mul_right h1 pgSize_pos, Nat.lt_of_mul_lt_mul_right h2⟩
    · rintro ⟨h1, h2⟩
      refine ⟨_, rfl, ?_, ?_⟩
      · rw [hitop]
        exact Nat.mul_le_mul_right _ h1
      · rw [hitop, ← Nat.add_mul]
        exact Nat.mul_lt_mul_of_pos_right h2 pgSize_pos
  rw [givenOut_snoc, C.given, hgave]
  have hown := C.front.own_le
  simp only [Pmem.take_startPage, Pmem.take_contig, Pmem.take_config]
  omega

theorem step (C : BootCalls calls s) {call : ℕ × Option ℕ} (h : NallocCall s call s') :
    BootCalls (calls ++ [call]) s' := by
  obtain ⟨n, r⟩ := call
  have heq : pmemNalloc n s = .ok (r, s') := h
  have hn := pmemNalloc_pos heq
  rw [C.front.pmemNalloc_eq hn] at heq
  split at heq
  · rename_i hroom
    cases heq
    exact C.take hn hroom
  · cases heq
    refine ⟨C.front, fun x => ?_⟩
    rw [givenOut_snoc, C.given]
    simp [not_gave_none]

theorem of_run (h : Run.Traces BootInit NallocCall calls s) : BootCalls calls s :=
  h.invariant (fun _ => init) fun _ _ _ _ C h => C.step h

end BootCalls

/-! ## Every page is counted once -/

/-- No page struct counts more than one reference. -/
def AtMostOne (s : Pmem) : Prop := ∀ x, (s.pagemap x).refcnt ≤ 1

theorem AtMostOne.setOrder (h : AtMostOne s) (i k : ℕ) : AtMostOne (s.setOrder i k) := by
  intro x
  rw [Pmem.setOrder_refcnt]
  exact h x

theorem AtMostOne.setRefcnt (h : AtMostOne s) (i : ℕ) {r : Int} (hr : r ≤ 1) :
    AtMostOne (s.setRefcnt i r) := by
  intro x
  rw [Pmem.setRefcnt_refcnt]
  split
  · exact hr
  · exact h x

theorem AtMostOne.markAllocated (h : AtMostOne s) (i : ℕ) :
    AtMostOne (Osv.markAllocated s i) := (h.setRefcnt i (le_refl 1)).setOrder i 0

theorem markUnavailable_atMostOne : ∀ n page, Prog.Preserves AtMostOne (markUnavailable n page)
  | 0, _ => preserves_pure ()
  | n + 1, page =>
    preserves_bind (preserves_update fun _ hs => hs.markAllocated page)
      fun _ => markUnavailable_atMostOne n (page + 1)

theorem freeblocksInsert_atMostOne (page : ℕ) : Prog.Preserves AtMostOne (freeblocksInsert page) :=
  preserves_bind (Prog.preserves_check _ _) fun _ =>
    preserves_bind (preserves_update fun _ hs => hs.setRefcnt page (by decide)) fun _ =>
      preserves_update fun _ hs => hs

theorem freeblocksInsertRangeFrom_atMostOne :
    ∀ rem start fin, Prog.Preserves AtMostOne (freeblocksInsertRangeFrom rem start fin)
  | 0, _, _ => preserves_pure ()
  | rem + 1, start, fin => by
    rw [freeblocksInsertRangeFrom]
    refine Prog.preserves_ite ?_ (preserves_pure ())
    refine preserves_bind
      (preserves_bind (Prog.preserves_check _ _) fun _ => preserves_pure _) fun k => ?_
    exact preserves_bind (preserves_update fun _ hs => hs.setOrder _ _) fun _ =>
      preserves_bind (freeblocksInsert_atMostOne _) fun _ =>
        freeblocksInsertRangeFrom_atMostOne rem _ _

theorem freeblocksScan_atMostOne : ∀ rem index, Prog.Preserves AtMostOne (freeblocksScan rem index)
  | 0, _ => preserves_pure ()
  | rem + 1, index => by
    rw [freeblocksScan]
    refine preserves_bind Prog.preserves_read fun s => ?_
    refine Prog.preserves_ite (Prog.preserves_ite ?_ ?_) (preserves_pure ())
    · exact preserves_bind (preserves_update fun _ hs => hs.markAllocated _) fun _ =>
        freeblocksScan_atMostOne rem _
    · exact preserves_bind (freeblocksInsertRangeFrom_atMostOne _ _ _) fun _ =>
        freeblocksScan_atMostOne rem _

/-! ## The hand-over -/

/-- Pages of the page map. -/
def pagemapNPages (c : PmemConfig) : ℕ := pgRoundUp (c.pmemEnd / pgSize * sizeofPage) / pgSize

/-- What `pmem_init` leaves, when the calls were made at boot. -/
structure HandedOver (calls : List (ℕ × Option ℕ)) (s : Pmem) : Prop where
  /-- The free blocks cover the managed pages that were not given out. -/
  tiles : ∀ x, x ∈ freePages s ↔
    s.config.pmemStart ≤ x * pgSize ∧ x * pgSize < s.config.pmemEnd ∧ ¬ GivenOut calls x
  /-- They do not meet, and no block is listed twice. -/
  disjoint : ∀ k h j a x, h ∈ s.freeblocks k → a ∈ s.freeblocks j → x ∈ block k h → x ∈ block j a →
    k = j ∧ h = a
  once : ∀ k, (s.freeblocks k).Nodup
  /-- A block is aligned to its order and lies in one run of pages that were not given out. -/
  aligned : ∀ k h, h ∈ s.freeblocks k → 2 ^ k ∣ h ∧ ∀ x, h ≤ x → x < h + 2 ^ k →
    s.config.pmemStart ≤ x * pgSize ∧ x * pgSize < s.config.pmemEnd ∧ ¬ GivenOut calls x
  /-- Every other page below `pmem_end` is counted once. -/
  refcnt : ∀ x, x * pgSize < s.config.pmemEnd → x ∉ freePages s → (s.pagemap x).refcnt = 1
  /-- The pages given out are the ones that a run of the buddy allocator starts with. -/
  boot : ∀ x, x ∈ (World.start s).boot ↔ GivenOut calls x
  /-- As long as such a page is not given back, no block that is returned has it. -/
  kept : ∀ w, Relation.ReflTransGen World.Step (World.start s) w → ∀ x ∈ w.boot,
    ∀ n paddr s', pmemNalloc n w.pm = .ok (some paddr, s') →
      x ∉ block (s'.pagemap (paddr / pgSize)).order (paddr / pgSize) ∧ ¬ Gave (n, some paddr) x

/-- The state in which the walk of `freeblocks_init` starts. -/
def walkStart (s : Pmem) : Pmem :=
  { s.take (pagemapNPages s.config) with
    bitmap := fun j => if j < bitmapNPages s.config then false
      else (s.take (pagemapNPages s.config)).bitmap j
    pagemap := fun _ => ⟨0, 0⟩
    nPages := s.config.pmemEnd / pgSize
    freeblocks := fun _ => [] }

namespace BootFront

variable {s : Pmem}

section

variable (F : BootFront s)

include F

theorem end_pos : 0 < s.bitmapEnd := by
  rw [F.ready.end_eq]
  obtain ⟨a, ha⟩ := F.ready.start_aligned
  obtain ⟨b, hb⟩ := F.ready.end_aligned
  have hlt := F.ready.start_lt
  rw [ha, hb] at hlt
  rw [ha, hb, ← Nat.mul_sub, Nat.mul_div_cancel_left _ pgSize_pos]
  exact Nat.sub_pos_of_lt (Nat.lt_of_mul_lt_mul_left hlt)

theorem own_pos : 0 < bitmapNPages s.config := by
  have h1 := F.end_pos
  have h2 := F.fits
  rw [F.ready.end_eq] at h1
  rw [BitmapFits] at h2
  by_contra h0
  rw [Nat.eq_zero_of_not_pos h0] at h2
  omega

theorem pagemapNPages_pos : 0 < pagemapNPages s.config := by
  obtain ⟨b, hb⟩ := F.ready.end_aligned
  have hpages : 0 < s.config.pmemEnd / pgSize := by
    have hlt := F.ready.start_lt
    rw [hb, Nat.mul_div_cancel_left _ pgSize_pos]
    rw [hb] at hlt
    exact Nat.pos_of_mul_pos_left (Nat.lt_of_le_of_lt (Nat.zero_le _) hlt)
  rw [pagemapNPages, pgRoundUp, mul_pgSize_div]
  refine Nat.div_pos ?_ pgSize_pos
  have : 0 < s.config.pmemEnd / pgSize * sizeofPage := Nat.mul_pos hpages (by decide)
  omega

theorem pagemapInit_run (hroom : s.bitmapContigStart + pagemapNPages s.config ≤ s.bitmapEnd) :
    pagemapInit s = .ok ((), { s.take (pagemapNPages s.config) with
      pagemap := fun _ => ⟨0, 0⟩, nPages := s.config.pmemEnd / pgSize }) := by
  have halloc := F.pmemNalloc_eq F.pagemapNPages_pos
  rw [if_pos hroom] at halloc
  rw [pagemapInit, read_bind]
  exact bind_of_ok halloc

theorem own_free (hne : bitmapNPages s.config ≠ s.bitmapContigStart) :
    pmemNfreeInternal s.config.pmemStart (bitmapNPages s.config) s = .ok ((), { s with
      bitmap := fun j => if j < bitmapNPages s.config then false else s.bitmap j }) := by
  have hle := F.own_le
  have hend := F.ready.contig_le
  rw [bitmapPages_free F.ready.off F.own_pos (fun j hj => (F.front j (by omega)).mpr (by omega))
    hle hend, if_neg hne]

theorem pmemInit_run (hroom : s.bitmapContigStart + pagemapNPages s.config ≤ s.bitmapEnd) :
    ∃ s', pmemInit s = .ok ((), s') ∧ AtMostOne s' ∧ s'.config = s.config ∧
      s'.bitmap = (walkStart s).bitmap ∧
      s'.bitmapContigStart = s.bitmapContigStart + pagemapNPages s.config := by
  have hpos := F.pagemapNPages_pos
  have hown := F.own_le
  have F' := F.take hpos hroom
  have F1 : BootFront { s.take (pagemapNPages s.config) with
      pagemap := fun _ => ⟨0, 0⟩, nPages := s.config.pmemEnd / pgSize } :=
    ⟨{ F'.ready with }, F'.fits, F'.front, F'.own_le⟩
  have hfree := F1.own_free (by simp only [Pmem.take]; omega)
  obtain ⟨B2, -, -⟩ := F1.ready.pmemNfreeInternal hfree
  have B3 : BootReady (walkStart s) := { B2 with }
  obtain ⟨s', T, hwalk, hfix, -⟩ := B3.walk rfl
  obtain ⟨c1, c2, c3, -⟩ := Pmem.fixed_eq hfix
  have hone : AtMostOne s' := by
    refine preserves_bind (markUnavailable_atMostOne _ _) (fun _ => ?_) _ _ _
      (fun _ => (by decide : (0 : Int) ≤ 1)) hwalk
    exact preserves_bind Prog.preserves_read fun _ =>
      preserves_bind (freeblocksScan_atMostOne _ _) fun _ =>
        preserves_bind Prog.preserves_read fun _ => freeblocksInsertRangeFrom_atMostOne _ _ _
  refine ⟨{ s' with pagemapInitialized := true }, ?_, hone, c1, c2, c3⟩
  have hinit : freeblocksInit { s.take (pagemapNPages s.config) with
      pagemap := fun _ => ⟨0, 0⟩, nPages := s.config.pmemEnd / pgSize } = .ok ((), s') := by
    rw [freeblocksInit, read_bind, bind_of_ok hfree, Prog.update_bind]
    exact hwalk
  rw [pmemInit, bind_of_ok (F.pagemapInit_run hroom), bind_of_ok hinit]
  rfl

theorem pmemInit_panics (hroom : ¬ s.bitmapContigStart + pagemapNPages s.config ≤ s.bitmapEnd) :
    pmemInit s = .error (.panic "Failed to allocate memory for pagemap") := by
  have halloc := F.pmemNalloc_eq F.pagemapNPages_pos
  rw [if_neg hroom] at halloc
  have hpm : pagemapInit s = .error (.panic "Failed to allocate memory for pagemap") := by
    rw [pagemapInit, read_bind]
    exact (bind_of_ok halloc).trans rfl
  rw [pmemInit, Prog.bind_run, hpm]

end

end BootFront

theorem getMinPageOrder_le {n k : ℕ} (h : getMinPageOrder n s = .ok (k, s')) : n ≤ 1024 := by
  rw [getMinPageOrder] at h
  cases hfind : (List.range (maxOrder + 1)).find? fun order => n ≤ 2 ^ order with
  | none =>
    rw [hfind] at h
    cases h
  | some order =>
    have h1 := List.find?_some hfind
    have h2 := List.mem_range.mp (List.mem_of_find?_eq_some hfind)
    have h3 : 2 ^ order ≤ 2 ^ maxOrder :=
      Nat.pow_le_pow_right (by decide) (Nat.le_of_lt_succ h2)
    exact (of_decide_eq_true h1).trans h3

/-- No call of a run of the buddy allocator returns a page that was given out at boot and was not
given back. -/
theorem World.Inv.not_returned {w : World} {N : ℕ} {T : Tiling Tag N} (I : Inv s w T)
    {x n paddr : ℕ} (hx : x ∈ w.boot) (h : pmemNalloc n w.pm = .ok (some paddr, s')) :
    x ∉ block (s'.pagemap (paddr / pgSize)).order (paddr / pgSize) ∧ ¬ Gave (n, some paddr) x := by
  have hcall : pmemNallocInternal n w.pm = .ok (some paddr, s') := h
  rw [pmemNallocInternal, kassert_bind_ok, read_bind, I.buddy.on, Bool.not_true,
    if_neg (by decide)] at hcall
  obtain ⟨hn, hcall⟩ := hcall
  have hle : n ≤ 1024 := by
    obtain ⟨k, s1, h1, -⟩ := bind_ok.mp hcall
    exact getMinPageOrder_le h1
  obtain ⟨r, s1, hrun, hall⟩ := I.buddy.pmemNalloc (of_decide_eq_true hn) hle
  have hrun' : pmemNalloc n w.pm = .ok (r, s1) := hrun
  rw [h] at hrun'
  cases hrun'
  obtain ⟨-, T', p, k, rfl, hk, -, hnl, hp, B', hexc⟩ := hall
  have hne : x ≠ p := fun heq => hnl (World.mem_live.mpr (.inl (heq ▸ hx)))
  have hxt := (hexc x 0 hne).mpr (I.boot_tile x hx)
  have hnot : x ∉ block k p := fun hm => hne (T'.disjoint hxt hp (head_mem 0 x) hm)
  rw [mul_pgSize_div, B'.rep.order_eq hp]
  refine ⟨hnot, ?_⟩
  rintro ⟨paddr, heq, h1, h2⟩
  obtain rfl := Option.some.inj heq
  rw [← Nat.add_mul] at h2
  have h3 := Nat.le_of_mul_le_mul_right h1 pgSize_pos
  have h4 := Nat.lt_of_mul_lt_mul_right h2
  exact hnot (mem_block.mpr ⟨h3, by simp only at h4; omega⟩)

theorem started_of_calls (h : Run.Traces BootInit NallocCall calls s)
    (hinit : pmemInit s = .ok ((), s')) : Started s' := by
  have hrun : ∃ s0 s1, pmemBootInit s0 = .ok ((), s1) ∧ Relation.ReflTransGen BootStep s1 s := by
    clear hinit
    induction h with
    | first h0 =>
      obtain ⟨⟨s0, h0⟩, -⟩ := h0
      exact ⟨s0, _, h0, .refl⟩
    | @next _ _ _ call _ hstep ih =>
      obtain ⟨s0, s1, h0, hrun⟩ := ih
      exact ⟨s0, s1, h0, hrun.tail (.nalloc call.1 call.2 hstep)⟩
  obtain ⟨s0, s1, h0, hrun⟩ := hrun
  exact ⟨s0, s1, s, h0, hrun, hinit⟩

theorem BootCalls.mem_bootLive (C : BootCalls calls s)
    (hroom : s.bitmapContigStart + pagemapNPages s.config ≤ s.bitmapEnd)
    (hcfg : s'.config = s.config) (hbits : s'.bitmap = (walkStart s).bitmap)
    (hcontig : s'.bitmapContigStart = s.bitmapContigStart + pagemapNPages s.config) (x : ℕ) :
    x ∈ bootLive s' ↔ GivenOut
      (calls ++ [(pagemapNPages s.config, some (bitmapItop s.config s.bitmapContigStart))]) x := by
  have C' := C.take C.front.pagemapNPages_pos hroom
  have hown := C'.front.own_le
  have hgiven := C'.given x
  have hfront := C'.front.front (x - s.startPage)
  simp only [Pmem.take_startPage, Pmem.take_config, Pmem.take_end,
    Pmem.take_contig] at hown hgiven hfront
  rw [Osv.mem_bootLive, hgiven, HandedOut, startPage_eq hcfg, hcontig, hbits]
  simp only [walkStart]
  constructor
  · rintro ⟨h1, h2, h3⟩
    split at h3
    · cases h3
    · omega
  · rintro ⟨h1, h2⟩
    refine ⟨by omega, h2, ?_⟩
    rw [if_neg (by omega)]
    exact (hfront (by omega)).mpr (by omega)

theorem handedOver_of_started {s' : Pmem} (hs : Started s')
    (halign : pgSize ∣ s'.config.pmemStart ∧ pgSize ∣ s'.config.pmemEnd) (hone : AtMostOne s')
    (hlive : ∀ x, x ∈ bootLive s' ↔ GivenOut calls x) : HandedOver calls s' := by
  obtain ⟨hn, N, T, B, h0⟩ := hs.buddy
  have hN : N = s'.config.pmemEnd / pgSize := B.nPages.symm.trans hn
  have hlo : ∀ x, s'.startPage ≤ x ↔ s'.config.pmemStart ≤ x * pgSize := by
    intro x
    rw [Pmem.startPage, ← Nat.mul_le_mul_right_iff pgSize_pos, Nat.div_mul_cancel halign.1]
  have hhi : ∀ x, x < N ↔ x * pgSize < s'.config.pmemEnd := by
    intro x
    rw [hN, ← Nat.mul_lt_mul_right pgSize_pos, Nat.div_mul_cancel halign.2]
  have hfree : ∀ x, x ∈ freePages s' ↔
      s'.config.pmemStart ≤ x * pgSize ∧ x * pgSize < s'.config.pmemEnd ∧ ¬ GivenOut calls x := by
    intro x
    rw [B.mem_freePages h0, hlo, hhi, hlive, and_assoc]
  exact
    { tiles := hfree
      disjoint := fun k h j a x hh ha hx hx' => B.coalesced.disjoint hh ha hx hx'
      once := B.rep.nodup
      aligned := fun k h hh => ⟨T.aligned (B.rep.listed.mp hh), fun x h1 h2 =>
        (hfree x).mp ⟨k, h, hh, mem_block.mpr ⟨h1, h2⟩⟩⟩
      refcnt := by
        intro x hx hnot
        have hge : 1 ≤ (s'.pagemap x).refcnt := by
          rcases Nat.lt_or_ge x s'.startPage with hlt | hge
          · exact B.rep.refcnt_ok (B.reserved.mpr ⟨hlt, rfl⟩)
          · have hx' : x ∈ bootLive s' := by
              by_contra hno
              exact hnot ((B.mem_freePages h0).mpr ⟨⟨hge, (hhi x).mpr hx⟩, hno⟩)
            obtain ⟨k, hk⟩ := B.live.mp hx'
            exact (B.rep.refcnt_ok hk).1
        exact le_antisymm (hone x) hge
      boot := hlive
      kept := by
        intro w hw x hx n paddr s2 hcall
        obtain ⟨_, _, I⟩ := World.Inv.run hs hw
        exact I.not_returned hx hcall }

/-- Whatever is allocated at boot, `pmem_init` hands every other managed page to the buddy allocator
and keeps the rest from it.  Every call at boot returns, and `pmem_init` itself stops only when the
page map does not fit. -/
theorem pmem_init_hands_over {calls : List (ℕ × Option ℕ)} {s : Pmem}
    (h : Run.Traces BootInit NallocCall calls s) :
    (∀ n, 0 < n → ∃ r s', pmemNalloc n s = .ok (r, s')) ∧
      ((∃ paddr s1 s', pmemNalloc (pagemapNPages s.config) s = .ok (some paddr, s1) ∧
          pmemInit s = .ok ((), s') ∧ HandedOver (calls ++ [(pagemapNPages s.config, some paddr)])
            s') ∨
        (pmemNalloc (pagemapNPages s.config) s = .ok (none, s) ∧
          pmemInit s = .error (.panic "Failed to allocate memory for pagemap"))) := by
  have C := BootCalls.of_run h
  have hmap := C.front.pmemNalloc_eq C.front.pagemapNPages_pos
  refine ⟨?_, ?_⟩
  · intro n hn
    have hcall := C.front.pmemNalloc_eq hn
    split at hcall
    · exact ⟨_, _, hcall⟩
    · exact ⟨_, _, hcall⟩
  · by_cases hroom : s.bitmapContigStart + pagemapNPages s.config ≤ s.bitmapEnd
    · rw [if_pos hroom] at hmap
      obtain ⟨s', hrun, hone, hcfg, hbits, hcontig⟩ := C.front.pmemInit_run hroom
      refine Or.inl ⟨_, _, s', hmap, hrun, ?_⟩
      refine handedOver_of_started (started_of_calls h hrun) ?_ hone
        (C.mem_bootLive hroom hcfg hbits hcontig)
      rw [hcfg]
      exact ⟨C.front.ready.start_aligned, C.front.ready.end_aligned⟩
    · rw [if_neg hroom] at hmap
      exact Or.inr ⟨hmap, C.front.pmemInit_panics hroom⟩

/-- The small machine after `pmem_boot_init` and a call for two pages. -/
@[irreducible] def smallBooted : Pmem := (pmemNalloc 2).final (pmemBootInit.final smallBlank)

/-- On the small machine two pages are taken at boot, and the page map is the page behind them. -/
theorem small_hands_over : ∃ s', Run.Traces BootInit NallocCall [(2, some 8192)] smallBooted ∧
    pmemInit smallBooted = .ok ((), s') ∧ HandedOver [(2, some 8192), (1, some 16384)] s' := by
  have hboot : BootInit (pmemBootInit.final smallBlank) :=
    ⟨⟨smallBlank, run_of_result (by decide +kernel)⟩, by rw [BitmapFits]; decide +kernel⟩
  have hcall : NallocCall (pmemBootInit.final smallBlank) (2, some 8192) smallBooted := by
    rw [smallBooted]
    exact run_of_result (by decide +kernel)
  have hrun : Run.Traces BootInit NallocCall [(2, some 8192)] smallBooted :=
    .next (.first hboot) hcall
  have hpages : pagemapNPages smallBooted.config = 1 := by decide +kernel
  have hmap : (pmemNalloc 1).result smallBooted = some (some 16384) := by decide +kernel
  rcases (pmem_init_hands_over hrun).2 with ⟨paddr, s1, s', h1, h2, h3⟩ | ⟨h1, -⟩
  · rw [hpages, run_of_result hmap] at h1
    cases h1
    rw [hpages] at h3
    exact ⟨s', hrun, h2, h3⟩
  · rw [hpages, run_of_result hmap] at h1
    cases h1

end Osv
