import Mathlib.Data.List.TakeWhile
import Mathlib.Data.Set.Lattice
import Mathlib.Order.CompletePartialOrder
import Osv.Fs.Basic
import Osv.Lib.Run

/-!
# Block headers

A page of the block cache has a list of headers, one for each of its blocks. `init_blk_headers`
makes them one by one when the list is empty.  Out of memory after the first one, it leaves those
that it has made.  The list is then taken for complete, and a call for a block that has none panics
(`bdevGetBlkUnlocked_half`).  A list is empty or complete as long as a call that gets one header
gets all (`headers_all_or_nothing`).

A call is one step.  The offset of a block is computed in 32 bits.
-/

namespace Osv

open Function (update update_self update_of_ne)
open Prog (bind_of_ok keeps_bind keeps_ite keeps_pure read_bind update_bind)

/-- `struct blk_header`, with the dirty bit of `state`. -/
structure BlkHeader where
  blk : Blk
  ref : ℕ
  dirty : Bool
deriving DecidableEq, Repr

/-- The pages of the block device that are cached, and for each its `blk_headers` and its dirty bit.
-/
structure Headers where
  cached : ℕ → Bool
  list : ℕ → List BlkHeader
  dirty : ℕ → Bool

/-- A function of `bdev.c`. -/
abbrev HeadersM := Prog Trap Headers

/-- `FIRST_BLK_IN_PAGE`. -/
def firstBlkInPage (blk : Blk) : Blk := blk / nBlksPerPage * nBlksPerPage

/-- The page that `pgcache_get_page` looks for. -/
def cachePage (blk : Blk) : ℕ := blk * bdevBlkSize % 2 ^ 32 / pgSize

namespace Headers

/-- The headers of a page are replaced. -/
def setList (s : Headers) (q : ℕ) (l : List BlkHeader) : Headers :=
  { s with list := update s.list q l }

/-- `mem` is whether a page that is not cached can be allocated, filled and inserted. -/
def pgcacheGetPage (q : ℕ) (mem : Bool) : HeadersM Bool := do
  let s ← Prog.read
  if s.cached q then pure true
  else if mem then do
    Prog.update fun s => { s with cached := update s.cached q true }
    pure true
  else pure false

/-- The loop of `init_blk_headers`.  `mem` is whether the header of an index can be allocated. -/
def initLoop (q : ℕ) (first : Blk) (mem : ℕ → Bool) : List ℕ → HeadersM Err
  | [] => pure .ok
  | index :: rest =>
    if mem index then do
      Prog.update fun s => s.setList q (s.list q ++ [⟨first + index, 0, false⟩])
      initLoop q first mem rest
    else pure .nomem

/-- Make the headers of a page that has none. -/
def initBlkHeaders (q : ℕ) (first : Blk) (mem : ℕ → Bool) : HeadersM Err := do
  let s ← Prog.read
  if s.list q = [] then initLoop q first mem (List.range nBlksPerPage) else pure .ok

/-- The counter of the first header of a block changes. -/
def setRef (blk : Blk) (f : ℕ → ℕ) : List BlkHeader → Option (List BlkHeader)
  | [] => none
  | h :: rest => if h.blk = blk then some ({ h with ref := f h.ref } ::
    rest) else (setRef blk f rest).map (h :: ·)

/-- The search of `bdev_get_blk_unlocked`. -/
def findBlk (blk : Blk) : HeadersM (Option Blk) := do
  let s ← Prog.read
  match setRef blk (fun r => (r + 1) % 2 ^ 32) (s.list (cachePage blk)) with
  | some l => do
    Prog.update fun s => s.setList (cachePage blk) l
    pure (some blk)
  | none => panic "bdev block not found in page"

/-- Page, headers and search, in this order. -/
def bdevGetBlkUnlocked (blk : Blk) (page : Bool) (mem : ℕ → Bool) : HeadersM (Option Blk) := do
  if ← pgcacheGetPage (cachePage blk) page then
    if (← initBlkHeaders (cachePage blk) (firstBlkInPage blk) mem) ≠ .ok then
      pure none else findBlk blk
  else pure none

/-- Free the headers of a page that is not dirty. -/
def freeBlkHeaders (q : ℕ) : HeadersM Unit := do
  let s ← Prog.read
  if s.dirty q then pure ()
  else do
    kassert "!bdev_is_blk_dirty(bh)" fun s => (s.list q).all (!·.dirty)
    Prog.update fun s => s.setList q []

/-- The header is the one that a call for the block has returned. -/
def bdevReleaseBlkUnlocked (blk : Blk) : HeadersM Unit := do
  let s ← Prog.read
  kassert "bh->ref > 0" fun s => (s.list (cachePage blk)).any fun h => h.blk = blk ∧ 0 < h.ref
  match setRef blk (· - 1) (s.list (cachePage blk)) with
  | some l => do
    Prog.update fun s => s.setList (cachePage blk) l
    -- the counter of the header is one of them
    if l.all (·.ref = 0) then freeBlkHeaders (cachePage blk) else pure ()
  | none => Prog.trap (.wild "bh")

end Headers

/-- A call, with what there is memory for. -/
inductive HeaderCall where
  | get (blk : Blk) (page : Bool) (mem : ℕ → Bool)
  | release (blk : Blk)

namespace Headers

/-- What a call does. -/
def exec : HeaderCall → HeadersM Unit
  | .get blk page mem => do
    let _ ← bdevGetBlkUnlocked blk page mem
    pure ()
  | .release blk => bdevReleaseBlkUnlocked blk

/-- Nothing is cached. -/
def Init (s : Headers) : Prop := ∀ q, s.cached q = false ∧ s.list q = []

/-- The headers of a page are none or those of its blocks. -/
def AllOrNothing (s : Headers) : Prop :=
  ∀ q, s.list q = [] ∨ (s.list q).map (·.blk) = List.range' (nBlksPerPage * q) nBlksPerPage

/-- With memory for the first header of a page there is memory for all. -/
def Enough (s : Headers) (blk : Blk) (page : Bool) (mem : ℕ → Bool) : Prop :=
  s.cached (cachePage blk) = true ∨ page = true → s.list (cachePage blk) = [] → mem 0 = true →
    ∀ index < nBlksPerPage, mem index = true

/-- The block's offset does not wrap, and there is enough memory. -/
def Meets (s : Headers) : HeaderCall → Prop
  | .get blk page mem => blk < 2 ^ 23 ∧ s.Enough blk page mem
  | .release _ => True

/-- A call that meets the condition. -/
def Step (s s' : Headers) : Prop := ∃ c, s.Meets c ∧ exec c s = .ok ((), s')

variable {s s' : Headers} {q blk : ℕ} {mem : ℕ → Bool} {page : Bool}

theorem initLoop_run (first : Blk) (l : List ℕ) : ∀ s : Headers, initLoop q first mem l s =
    .ok (if l.all mem then .ok else .nomem,
      s.setList q (s.list q ++ (l.takeWhile mem).map fun index => ⟨first + index, 0, false⟩)) := by
  induction l with
  | nil => intro s; simp [initLoop, setList]
  | cons index rest ih =>
    intro s
    cases h : mem index with
    | false => simp [initLoop, h, setList]
    | true =>
      rw [initLoop, if_pos h, update_bind, ih]
      simp [h, setList]

variable {l : List BlkHeader}

theorem setRef_map {f : ℕ → ℕ} : ((∃ l', setRef blk f l = some l') ↔ blk ∈ l.map (·.blk)) ∧
      ∀ l', setRef blk f l = some l' → l'.map (·.blk) = l.map (·.blk) := by
  induction l with
  | nil => simp [setRef]
  | cons h rest ih =>
    rw [setRef]
    split
    · rename_i heq
      exact ⟨⟨fun _ => by simp [heq], fun _ => ⟨_, rfl⟩⟩, by rintro _ ⟨⟩; rfl⟩
    · rename_i hne
      refine ⟨?_, fun l' hl' => ?_⟩
      · rw [List.map_cons, List.mem_cons, or_iff_right (Ne.symm hne), ← ih.1]
        simp [Option.map_eq_some_iff]
      · obtain ⟨l0, h0, rfl⟩ := Option.map_eq_some_iff.mp hl'
        exact congrArg (h.blk :: ·) (ih.2 l0 h0)

theorem AllOrNothing.setList (hs : s.AllOrNothing) (l : List BlkHeader) :
    (s.setList q l).AllOrNothing ↔
    (l = [] ∨ l.map (·.blk) = List.range' (nBlksPerPage * q) nBlksPerPage) := by
  refine ⟨fun h => by simpa [Headers.setList] using h q, fun h q' => ?_⟩
  by_cases hq : q' = q
  · simpa [Headers.setList, hq] using h
  · simpa [Headers.setList, hq] using hs q'

theorem findBlk_run (hs : s.AllOrNothing) (hblk : blk < 2 ^ 23)
    (hall : (s.list (cachePage blk)).map (·.blk) = List.range' (nBlksPerPage * cachePage blk)
    nBlksPerPage) : ∃ s', findBlk blk s = .ok (some blk, s') ∧ s'.AllOrNothing := by
  have hmem : blk ∈ (s.list (cachePage blk)).map (·.blk) := by
    rw [hall, List.mem_range'_1]
    unfold cachePage nBlksPerPage pgSize bdevBlkSize
    omega
  obtain ⟨l, hl⟩ := setRef_map.1.mpr hmem
  rw [findBlk, read_bind, hl]
  exact ⟨_, rfl, (hs.setList l).mpr (.inr ((setRef_map.2 l hl).trans hall))⟩

/-- A call returns, and with enough memory it leaves all or nothing. -/
theorem bdevGetBlkUnlocked_run (hs : s.AllOrNothing) (hblk : blk < 2 ^ 23) (page : Bool)
    (mem : ℕ → Bool) : ∃ r s', bdevGetBlkUnlocked blk page mem s = .ok (r, s') ∧
      (s.Enough blk page mem → s'.AllOrNothing) := by
  have hget : ∃ t, pgcacheGetPage (cachePage blk) page s =
      .ok (s.cached (cachePage blk) || page, t) ∧
      t.list = s.list := by
    rw [pgcacheGetPage, read_bind]
    cases hc : s.cached (cachePage blk) <;> cases hp : page <;> exact ⟨_, rfl, rfl⟩
  obtain ⟨t, ht, hlist⟩ := hget
  have hst : t.AllOrNothing := fun q => hlist ▸ hs q
  rw [bdevGetBlkUnlocked, bind_of_ok ht]
  cases hpage : s.cached (cachePage blk) || page with
  | false => exact ⟨none, t, rfl, fun _ => hst⟩
  | true =>
    rw [if_pos rfl]
    by_cases hl : s.list (cachePage blk) = []
    · have hinit : initBlkHeaders (cachePage blk) (firstBlkInPage blk) mem t =
          initLoop (cachePage blk) (firstBlkInPage blk) mem (List.range nBlksPerPage) t := by
        rw [initBlkHeaders, read_bind, hlist, if_pos hl]
      rw [bind_of_ok (hinit.trans (initLoop_run ..)), hlist, hl, List.nil_append]
      by_cases hall : (List.range nBlksPerPage).all mem = true
      · have hmap : (((List.range nBlksPerPage).takeWhile mem).map fun index =>
            (⟨firstBlkInPage blk + index, 0, false⟩ : BlkHeader)).map (·.blk) =
              List.range' (nBlksPerPage * cachePage blk) nBlksPerPage := by
          have hfirst : firstBlkInPage blk = nBlksPerPage * cachePage blk := by
            show blk / 8 * 8 = 8 * (blk * 512 % 2 ^ 32 / 4096)
            omega
          rw [List.takeWhile_eq_self_iff.mpr (by simpa using hall), List.map_map,
            List.range'_eq_map_range, hfirst]
          rfl
        obtain ⟨s', hs', h⟩ := findBlk_run ((hst.setList _).mpr (.inr hmap)) hblk
          (by simpa [Headers.setList] using hmap)
        rw [if_pos hall, if_neg (by simp)]
        exact ⟨_, s', hs', fun _ => h⟩
      · rw [if_neg hall, if_pos (by simp)]
        refine ⟨none, _, rfl, fun henough => (hst.setList _).mpr (.inl ?_)⟩
        have h0 : mem 0 = false := by
          by_contra h0
          exact hall (by simpa using henough (by simpa using hpage) hl (by simpa using h0))
        simp [nBlksPerPage, pgSize, bdevBlkSize, List.range_succ_eq_map, h0]
    · have hinit : initBlkHeaders (cachePage blk) (firstBlkInPage blk) mem t = .ok (.ok, t) := by
        rw [initBlkHeaders, read_bind, hlist, if_neg hl]
        rfl
      obtain ⟨s', hs', h⟩ := findBlk_run hst hblk (hlist ▸ (hs _).resolve_left hl)
      exact ⟨_, s', (bind_of_ok hinit).trans hs', fun _ => h⟩

theorem bdevReleaseBlkUnlocked_ok (h : bdevReleaseBlkUnlocked blk s = .ok ((), s')) :
    ∃ l, setRef blk (· - 1) (s.list (cachePage blk)) = some l ∧
      (s' = s.setList (cachePage blk) l ∨ s' = (s.setList (cachePage blk) l).setList
      (cachePage blk) []) := by
  rw [bdevReleaseBlkUnlocked, read_bind] at h
  obtain ⟨-, h⟩ := kassert_bind_ok.mp h
  cases hl : setRef blk (· - 1) (s.list (cachePage blk)) with
  | none => rw [hl] at h; cases h
  | some l =>
    simp only [hl] at h
    obtain ⟨t, rfl, h⟩ := Prog.update_bind_ok.mp h
    refine ⟨l, rfl, ?_⟩
    split at h
    · rw [freeBlkHeaders, read_bind] at h
      split at h
      · cases h
        exact .inl rfl
      · obtain ⟨-, h⟩ := kassert_bind_ok.mp h
        cases h
        exact .inr rfl
    · cases h
      exact .inl rfl

theorem AllOrNothing.release (hs : s.AllOrNothing)
    (h : bdevReleaseBlkUnlocked blk s = .ok ((), s')) : s'.AllOrNothing := by
  obtain ⟨l, hl, hs'⟩ := bdevReleaseBlkUnlocked_ok h
  have hset : (s.setList (cachePage blk) l).AllOrNothing := by
    refine (hs.setList l).mpr ((hs _).imp (fun hnil => ?_) (setRef_map.2 l hl).trans)
    rw [hnil] at hl
    cases hl
  obtain rfl | rfl := hs'
  · exact hset
  · exact (hset.setList []).mpr (.inl rfl)

/-- In a run of calls that each have enough memory, for blocks whose offset does not wrap, a page
has all its headers or none, and the next call does not panic, whatever there is memory for. -/
theorem headers_all_or_nothing {s : Headers} (h : Run.Reachable Init Step s) :
    s.AllOrNothing ∧ ∀ blk < 2 ^ 23, ∀ page mem, ∃ r s',
      bdevGetBlkUnlocked blk page mem s = .ok (r, s') := by
  have hs : s.AllOrNothing := by
    refine h.invariant (fun s h q => .inl (h q).2) ?_
    rintro s s' - hs ⟨c, hc, hrun⟩
    cases c with
    | get blk page mem =>
      obtain ⟨r, t, ht, hkeep⟩ := bdevGetBlkUnlocked_run hs hc.1 page mem
      rw [exec, bind_of_ok ht] at hrun
      cases hrun
      exact hkeep hc.2
    | release blk => exact hs.release hrun
  refine ⟨hs, fun blk hblk page mem => ?_⟩
  obtain ⟨r, s', hrun, -⟩ := bdevGetBlkUnlocked_run hs hblk page mem
  exact ⟨r, s', hrun⟩

/-- A first state. -/
def empty : Headers := ⟨fun _ => false, fun _ => [], fun _ => false⟩

/-- Block 0 has been got. -/
def gotBlk : Headers := (exec (.get 0 true fun _ => true)).final empty

theorem headers_gotBlk : gotBlk.list 0 ≠ [] ∧ gotBlk.AllOrNothing :=
  ⟨by decide, (headers_all_or_nothing ((Run.Reachable.first fun _ => ⟨rfl, rfl⟩).next
    ⟨.get 0 true fun _ => true, ⟨by decide, fun _ _ _ _ _ => rfl⟩, Prog.run_of_result
      (s := empty) rfl⟩)).1⟩

/-- The second header cannot be allocated, and the next call, which has all the memory it needs,
panics. -/
theorem bdevGetBlkUnlocked_half : ∃ s, bdevGetBlkUnlocked 0 true (· = 0) empty = .ok (none, s) ∧
    ¬ s.AllOrNothing ∧
    bdevGetBlkUnlocked 1 true (fun _ => true) s =
      .error (.panic "bdev block not found in page") := by
  refine ⟨_, Prog.run_of_result (by decide), fun h => ?_, by rfl⟩
  have := h 0
  revert this
  decide

/-! ## Where the data of a block is -/

/-- The first block that `fillpage` reads into the page. -/
def fillBlk (blk : Blk) : Blk := blk * bdevBlkSize % 2 ^ 32 / pgSize * pgSize / bdevBlkSize

/-- The offset in the page of the data of a header: the header that was made for an index has the
bytes of this index, and it is at this index of the list. -/
def dataOfs (s : Headers) (blk : Blk) : ℕ :=
  bdevBlkSize * ((s.list (cachePage blk)).map (·.blk)).idxOf blk

/-- The bytes of the cached pages that a block should have. -/
def blkBytes (blk : Blk) : Set ℕ :=
  {x | ∃ i < bdevBlkSize, x = cachePage blk * pgSize + bdevBlkSize * (blk % nBlksPerPage) + i}

/-- A call for the block gets its page of the device and returns its header. -/
structure Placed (s : Headers) (blk : Blk) : Prop where
  page : cachePage blk * pgSize = bdevBlkSize * nBlksPerPage * (blk / nBlksPerPage)
  filled : fillBlk blk = firstBlkInPage blk
  header : ∀ page mem r s', bdevGetBlkUnlocked blk page mem s = .ok (some r, s') →
    r = blk ∧ s'.dataOfs blk = bdevBlkSize * (blk % nBlksPerPage)

/-- The header at an index is that of a block with this index in its page. -/
def Aligned (s : Headers) : Prop :=
  ∀ q k b, ((s.list q).map (·.blk))[k]? = some b → b % nBlksPerPage = k

theorem Aligned.setList (hs : s.Aligned) (hl : ∀ k b : ℕ,
    (l.map (·.blk))[k]? = some b → b % nBlksPerPage = k) : (s.setList q l).Aligned := by
  intro q' k b hb
  by_cases hq : q' = q
  · exact hl k b (by simpa [Headers.setList, hq] using hb)
  · exact hs q' k b (by simpa [Headers.setList, hq] using hb)

theorem Aligned.setRef (hs : s.Aligned) {f : ℕ → ℕ} (hl : setRef blk f (s.list q) = some l) :
    (s.setList q l).Aligned :=
  hs.setList fun k b hb => hs q k b (by rwa [setRef_map.2 l hl] at hb)

theorem Aligned.get (hs : s.Aligned) {r : Option Blk}
    (h : bdevGetBlkUnlocked blk page mem s = .ok (r, s')) :
    s'.Aligned ∧ ∀ b, r = some b → b = blk ∧ blk ∈ (s'.list (cachePage blk)).map (·.blk) := by
  obtain ⟨ok, t, ht, h1⟩ := Prog.bind_ok.mp h
  have hkeep : Prog.Keeps Headers.list (pgcacheGetPage (cachePage blk) page) :=
    keeps_bind Prog.keeps_read fun _ => keeps_ite (keeps_pure _)
      (keeps_ite (keeps_bind (Prog.keeps_update fun _ => rfl) fun _ => keeps_pure _) (keeps_pure _))
  have hst : t.Aligned := fun q => hkeep s ok t ht ▸ hs q
  cases ok with
  | false =>
    cases h1
    exact ⟨hst, nofun⟩
  | true =>
    obtain ⟨e, u, hu, h2⟩ := Prog.bind_ok.mp h1
    have hsu : u.Aligned := by
      rw [initBlkHeaders, read_bind] at hu
      split at hu
      · rename_i hnil
        rw [initLoop_run, hnil] at hu
        cases hu
        refine hst.setList fun k b hb => ?_
        -- the headers that were made are the first of the page
        obtain ⟨i, hi, rfl⟩ : ∃ i, ((List.range nBlksPerPage).takeWhile mem)[k]? = some i ∧
            firstBlkInPage blk + i = b := by simpa [Option.map_eq_some_iff] using hb
        have hlt : k < ((List.range nBlksPerPage).takeWhile mem).length :=
            (List.getElem?_eq_some_iff.mp hi).1
        obtain ⟨rest, hrest⟩ := List.takeWhile_prefix (l := List.range nBlksPerPage) mem
        rw [← @List.getElem?_append_left _ _ rest k hlt, hrest] at hi
        obtain ⟨h8, hik⟩ := List.getElem?_eq_some_iff.mp hi
        rw [List.getElem_range] at hik
        rw [List.length_range] at h8
        rw [← hik, firstBlkInPage, Nat.mul_add_mod', Nat.mod_eq_of_lt h8]
      · cases hu
        exact hst
    split at h2
    · cases h2
      exact ⟨hsu, nofun⟩
    · rw [findBlk, read_bind] at h2
      cases hl : Headers.setRef blk (fun r => (r + 1) % 2 ^ 32) (u.list (cachePage blk)) with
      | none => rw [hl] at h2; cases h2
      | some l =>
        simp only [hl] at h2
        obtain ⟨_, rfl, h3⟩ := Prog.update_bind_ok.mp h2
        cases h3
        refine ⟨hsu.setRef hl, ?_⟩
        rintro b ⟨⟩
        refine ⟨rfl, ?_⟩
        simp only [Headers.setList, update_self, setRef_map.2 l hl]
        exact setRef_map.1.mp ⟨l, hl⟩

theorem Aligned.exec (hs : s.Aligned) {c : HeaderCall} (h : exec c s = .ok ((), s')) :
    s'.Aligned := by
  cases c with
  | get blk page mem =>
    obtain ⟨r, t, ht, h1⟩ := Prog.bind_ok.mp h
    cases h1
    exact (hs.get ht).1
  | release blk =>
    obtain ⟨l, hl, rfl | rfl⟩ := bdevReleaseBlkUnlocked_ok h
    · exact hs.setRef hl
    · exact (hs.setRef hl).setList (by simp)

/-- In any run two blocks are where they should be, apart from each other, iff their numbers are
below `2 ^ 23`. -/
theorem placed_iff {s : Headers}
    (h : Run.Reachable Init (fun s s' => ∃ c, exec c s = .ok ((), s')) s) {a b : ℕ}
    (ha : a < 2 ^ 32) (hb : b < 2 ^ 32) (hne : a ≠ b) :
    s.Placed a ∧ s.Placed b ∧ Disjoint (blkBytes a) (blkBytes b) ↔ a < 2 ^ 23 ∧ b < 2 ^ 23 := by
  have hs : s.Aligned := by
    refine h.invariant (fun s h q k b hb => ?_) ?_
    · simp [(h q).2] at hb
    · rintro s s' - hs ⟨c, hc⟩
      exact hs.exec hc
  have hpage : ∀ b : ℕ, b < 2 ^ 32 → (s.Placed b ↔ b < 2 ^ 23) := by
    intro b hb
    refine ⟨fun P => ?_, fun hlt => ⟨?_, ?_, fun page mem r s' hrun => ?_⟩⟩
    · have := P.page
      simp only [cachePage, nBlksPerPage, pgSize, bdevBlkSize] at this
      omega
    · simp only [cachePage, nBlksPerPage, pgSize, bdevBlkSize]
      omega
    · show b * 512 % 2 ^ 32 / 4096 * 4096 / 512 = b / 8 * 8
      omega
    · obtain ⟨hs', hr⟩ := hs.get hrun
      obtain ⟨rfl, hmem⟩ := hr r rfl
      refine ⟨rfl, ?_⟩
      have hidx := List.idxOf_lt_length_iff.mpr hmem
      rw [dataOfs, hs' _ _ _ ((List.getElem?_eq_getElem hidx).trans
        (congrArg some (List.getElem_idxOf hidx)))]
  rw [hpage a ha, hpage b hb, ← and_assoc, and_iff_left_iff_imp]
  rintro ⟨ha, hb⟩
  refine Set.disjoint_left.mpr ?_
  rintro x ⟨i, hi, rfl⟩ ⟨j, hj, hx⟩
  simp only [cachePage, nBlksPerPage, pgSize, bdevBlkSize] at hi hj hx
  omega

/-- Blocks 0 and 9 have been taken, and the headers of their pages made. -/
def twoPages : Headers :=
  (exec (.get 9 true fun _ => true)).final ((exec (.get 0 true fun _ => true)).final empty)

/-- They are the first of the one page and the second of the other. -/
theorem twoPages_placed : (twoPages.list 0).length = 8 ∧ (twoPages.list 1).length = 8 ∧
    twoPages.Placed 0 ∧ twoPages.Placed 9 ∧ Disjoint (blkBytes 0) (blkBytes 9) := by
  have hreach : Run.Reachable Init (fun s s' => ∃ c, exec c s = .ok ((), s')) twoPages :=
    (Run.Reachable.next (.first fun _ => ⟨rfl, rfl⟩)
      ⟨_, Prog.run_of_result (by decide +kernel)⟩).next
      ⟨_, Prog.run_of_result (by decide +kernel)⟩
  exact ⟨by decide +kernel, by decide +kernel,
    (placed_iff hreach (by decide) (by decide) (by decide)).mpr ⟨by decide, by decide⟩⟩

/-- Block `2 ^ 23` is looked for in the first page of the device, and has the bytes of block 0 then.
-/
theorem empty_wraps : ∃ s,
    bdevGetBlkUnlocked (2 ^ 23) true (fun _ => true) empty = .ok (some (2 ^ 23), s) ∧
    cachePage (2 ^ 23) = 0 ∧ fillBlk (2 ^ 23) = 0 ∧ blkBytes (2 ^ 23) = blkBytes 0 ∧
      ¬ empty.Placed (2 ^ 23) ∧
    bdevGetBlkUnlocked 0 true (fun _ => true) s = .error (.panic "bdev block not found in page") :=
  ⟨_, Prog.run_of_result (by decide +kernel), by decide, by decide, rfl, fun P =>
    absurd P.page (by decide), rfl⟩

end Headers

end Osv
