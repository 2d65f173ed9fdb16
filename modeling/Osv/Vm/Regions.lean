import Osv.Vm.Process

/-!
# The list of regions and the ends of regions

`find_free_vaddr` goes through the regions of an address space from the lowest to the highest, so
the list should be in order of their start addresses.  `memregion_map_internal` links a new region
with `list_append_ordered` before it fills it in: what is compared is the filling of the cache.  The
place in the list does not depend on the address.  A region goes behind all regions that start below
`0x2b2b2b2b2b2b2b2b` and in front of all others, and the list stays in order exactly if the address
is in place there (`Spaces.InPlace`).

`memregion_extend` adds a signed size to the end of a region modulo `2 ^ 64` and compares
afterwards. It does what it says as long as the sum does not wrap, or wraps to an address below the
region (`extend_contract_iff`).  `sys_sbrk` does not look at the error it returns, and so reports
failure to grow as success (`sbrk_contract_iff`).
-/

namespace Osv

open Function (update update_self update_of_ne)
open Prog (bind_ok run_of_result update_bind zoom_ok)

/-! ## Order -/

/-- The regions of `a` are listed in order of their start addresses. -/
def Spaces.Sorted (s : Spaces) (a : ℕ) : Prop :=
  (s.space a).regions.Pairwise fun x y => (s.region x).start ≤ (s.region y).start

/-- A region at `addr` belongs where the list puts a new region of `a`: behind the regions that
start below the end of a stale region, and in front of the others. -/
def Spaces.InPlace (s : Spaces) (a addr : ℕ) : Prop :=
  ∀ n ∈ (s.space a).regions,
    ((s.region n).start < stale.fin → (s.region n).start ≤ addr) ∧
      (stale.fin ≤ (s.region n).start → addr ≤ (s.region n).start)

instance (s : Spaces) (a : ℕ) : Decidable (s.Sorted a) :=
  inferInstanceAs (Decidable (List.Pairwise _ _))

instance (s : Spaces) (a addr : ℕ) : Decidable (s.InPlace a addr) :=
  inferInstanceAs (Decidable (∀ n ∈ _, _ ∧ _))

theorem mem_listAppendOrdered {greater : ℕ → Bool} {x n : ℕ} {l : List ℕ} :
    n ∈ listAppendOrdered greater x l ↔ n = x ∨ n ∈ l := by
  rw [(listAppendOrdered_perm greater x l).mem_iff, List.mem_cons]

theorem listAppendOrdered_congr {g g' : ℕ → Bool} {x : ℕ} {l : List ℕ} (h : ∀ n ∈ l, g n = g' n) :
    listAppendOrdered g x l = listAppendOrdered g' x l := by
  induction l with
  | nil => rfl
  | cons n rest ih =>
    rw [listAppendOrdered, listAppendOrdered, h n List.mem_cons_self,
      ih fun m hm => h m (List.mem_cons_of_mem n hm)]

/-- A node put in front of the first one with a key from `b` on is in order with the others exactly
if its key is between those below `b` and those from `b` on. -/
theorem listAppendOrdered_pairwise {key : ℕ → ℕ} {b x : ℕ} {l : List ℕ}
    (hl : l.Pairwise fun m n => key m ≤ key n) :
    ((listAppendOrdered (fun n => b ≤ key n) x l).Pairwise fun m n => key m ≤ key n) ↔
      ∀ n ∈ l, (key n < b → key n ≤ key x) ∧ (b ≤ key n → key x ≤ key n) := by
  induction l with
  | nil => simp [listAppendOrdered]
  | cons n rest ih =>
    have hn := List.pairwise_cons.mp hl
    rw [listAppendOrdered]
    by_cases hb : b ≤ key n
    · rw [if_pos (decide_eq_true hb), List.pairwise_cons]
      have hall : ∀ m ∈ n :: rest, b ≤ key m := by
        intro m hm
        rcases List.mem_cons.mp hm with rfl | hm
        · exact hb
        · exact hb.trans (hn.1 m hm)
      constructor
      · rintro ⟨hx, -⟩ m hm
        exact ⟨fun hlt => absurd (hall m hm) (Nat.not_le.mpr hlt), fun _ => hx m hm⟩
      · intro h
        exact ⟨fun m hm => (h m hm).2 (hall m hm), hl⟩
    · rw [if_neg (by simpa using hb), List.pairwise_cons, ih hn.2]
      constructor
      · rintro ⟨hx, hrest⟩ m hm
        rcases List.mem_cons.mp hm with rfl | hm
        · exact ⟨fun _ => hx x (mem_listAppendOrdered.mpr (.inl rfl)), fun h => absurd h hb⟩
        · exact hrest m hm
      · intro h
        refine ⟨fun m hm => ?_, fun m hm => h m (List.mem_cons_of_mem n hm)⟩
        rcases mem_listAppendOrdered.mp hm with rfl | hm
        · exact (h n List.mem_cons_self).1 (Nat.not_le.mp hb)
        · exact hn.1 m hm

/-- The list of regions of `a` is one of regions of `a`, whose slots are in use. -/
structure Listed (a : ℕ) (s : Spaces) : Prop where
  cache : s.cache.Ok
  nodup : (s.space a).regions.Nodup
  inUse : ∀ r ∈ (s.space a).regions, s.InUse r
  as : ∀ r ∈ (s.space a).regions, (s.region r).as = a

/-- A new region of `a` with its place in the list. -/
structure Linked (s : Spaces) (a r : ℕ) (mr : MemRegion) (s' : Spaces) : Prop where
  new : ¬ s.InUse r
  inUse : ∀ x, s'.InUse x ↔ s.InUse x ∨ x = r
  ok : s'.cache.Ok
  region : s'.region = update s.region r mr
  regions : (s'.space a).regions =
    listAppendOrdered (fun n => stale.fin ≤ (s.region n).start) r (s.space a).regions

section Calls

variable {a r addr size store ofs : ℕ} {perm : MemPerm} {shared : Int} {s s' : Spaces}

theorem memregionMapAt_linked {x : Option ℕ} (L : Listed a s)
    (h : memregionMapAt a addr size perm store ofs shared s = .ok (x, s')) :
    (x = none ∧ ∃ vm, s' = { s with vm := vm }) ∨
      ∃ r, x = some r ∧ Linked s a r ⟨a, addr, addAddr addr size, perm, shared, store, ofs⟩ s' := by
  rw [memregionMapAt] at h
  obtain ⟨-, h⟩ := kassert_bind_ok.mp h
  obtain ⟨-, h⟩ := kassert_bind_ok.mp h
  split at h
  · cases h
    exact .inl ⟨rfl, s.vm, rfl⟩
  · obtain ⟨found, s0, hfind, h⟩ := bind_ok.mp h
    rw [memregionFindInternal, Prog.reads_run, Except.ok.injEq, Prod.mk.injEq] at hfind
    obtain ⟨-, rfl⟩ := hfind
    cases found with
    | some n =>
      cases h
      exact .inl ⟨rfl, s.vm, rfl⟩
    | none =>
      obtain ⟨x, s1, hall, h⟩ := bind_ok.mp h
      cases x with
      | none =>
        cases h
        exact .inl ⟨rfl, (regionAlloc_fails hall).imp fun _ h => h.2⟩
      | some r =>
        simp only at h
        rw [update_bind, update_bind] at h
        cases h
        have T := regionAlloc_taken L.cache hall
        refine .inr ⟨r, rfl, T.new, T.inUse, T.ok, ?_, ?_⟩
        · simp [Spaces.setRegion, Spaces.setRegions, T.region]
        · simp only [Spaces.setRegion, Spaces.setRegions, update_self, T.space]
          refine listAppendOrdered_congr fun n hn => ?_
          have hne : n ≠ r := fun e => T.new (e ▸ L.inUse n hn)
          rw [memregionComparator, T.region, update_self, update_of_ne hne]

theorem asMapMemregion_linked {x : Option ℕ} (L : Listed a s)
    (h : asMapMemregion a addr size perm store ofs shared s = .ok (x, s')) :
    (x = none ∧ ∃ vm, s' = { s with vm := vm }) ∨
      ∃ r v, x = some r ∧ s.mapAddr a addr size = some v ∧
        Linked s a r ⟨a, v, addAddr v size, perm, shared, store, ofs⟩ s' := by
  obtain ⟨-, rfl, rfl⟩ | ⟨v, hv, hat⟩ := asMapMemregion_settled h
  · exact .inl ⟨rfl, _, rfl⟩
  · obtain hx | ⟨r, hx, K⟩ := memregionMapAt_linked L hat
    · exact .inl hx
    · exact .inr ⟨r, v, hx, hv, K⟩

namespace Listed

theorem of_vm (L : Listed a s) (vm : Vm) : Listed a { s with vm := vm } :=
  ⟨L.cache, L.nodup, L.inUse, L.as⟩

theorem linked (L : Listed a s) {mr : MemRegion} (K : Linked s a r mr s') (has : mr.as = a) :
    Listed a s' := by
  have hperm := listAppendOrdered_perm (fun n => decide (stale.fin ≤ (s.region n).start))
      r (s.space a).regions
  refine ⟨K.ok, ?_, ?_, ?_⟩ <;> rw [K.regions]
  · rw [hperm.nodup_iff, List.nodup_cons]
    exact ⟨fun h => K.new (L.inUse r h), L.nodup⟩
  · intro x hx
    rw [K.inUse]
    exact (mem_listAppendOrdered.mp hx).symm.imp_left (L.inUse x)
  · intro x hx
    rw [K.region]
    rcases mem_listAppendOrdered.mp hx with rfl | hx
    · rw [update_self, has]
    · have hne : x ≠ r := fun e => K.new (e ▸ L.inUse x hx)
      rw [update_of_ne hne]
      exact L.as x hx

/-- The list is in order after a new region exactly if its address is in place. -/
theorem sorted_linked (L : Listed a s) {mr : MemRegion} (K : Linked s a r mr s') (S : s.Sorted a) :
    s'.Sorted a ↔ s.InPlace a mr.start := by
  have hold : ∀ n ∈ (s.space a).regions, s'.region n = s.region n := fun n hn => by
    have hne : n ≠ r := fun e => K.new (e ▸ L.inUse n hn)
    rw [K.region, update_of_ne hne]
  have hnew : s'.region r = mr := by rw [K.region, update_self]
  have hsort : (s.space a).regions.Pairwise fun m n => (s'.region m).start ≤ (s'.region n).start :=
    S.imp_of_mem fun hm hn h => by rwa [hold _ hm, hold _ hn]
  have hcongr : ∀ n ∈ (s.space a).regions,
      decide (stale.fin ≤ (s.region n).start) = decide (stale.fin ≤ (s'.region n).start) :=
    fun n hn => by rw [hold n hn]
  rw [Spaces.Sorted, K.regions, listAppendOrdered_congr hcongr, listAppendOrdered_pairwise hsort,
    hnew]
  exact forall₂_congr fun n hn => by rw [hold n hn]

theorem unmap (L : Listed a s) (hr : r ∈ (s.space a).regions)
    (h : memregionUnmapInternal r s = .ok ((), s')) :
    Listed a s' ∧ (s'.space a).regions = (s.space a).regions.erase r ∧
      ∀ n, n ≠ r → s'.region n = s.region n := by
  rw [memregionUnmapInternal, Prog.read_bind] at h
  obtain ⟨_, s1, hcall, h⟩ := bind_ok.mp h
  obtain ⟨vm, -, rfl⟩ := zoom_ok.mp hcall
  rw [update_bind, regionFree] at h
  cases h
  have hregs : ∀ n ∈ (s.space a).regions.erase r, n ≠ r ∧ n ∈ (s.space a).regions := fun n hn =>
    (L.nodup.mem_erase_iff).mp hn
  have hother : ∀ n, n ≠ r → update s.region r stale n = s.region n := fun n hn =>
    update_of_ne hn _ _
  obtain ⟨hlt, hfree⟩ := L.inUse r hr
  simp only [Spaces.setRegion, Spaces.setRegions, L.as r hr, update_self]
  refine ⟨⟨⟨?_, ?_⟩, ?_, ?_, ?_⟩, trivial, hother⟩
  · intro x hx
    rcases List.mem_cons.mp hx with rfl | hx
    · exact hlt
    · exact L.cache.lt x hx
  · exact List.nodup_cons.mpr ⟨hfree, L.cache.nodup⟩
  · simp only [update_self]
    exact L.nodup.erase r
  · simp only [update_self]
    intro x hx
    obtain ⟨hne, hmem⟩ := hregs x hx
    have hu := L.inUse x hmem
    exact ⟨hu.1, fun h => (List.mem_cons.mp h).elim hne hu.2⟩
  · simp only [update_self]
    intro x hx
    obtain ⟨hne, hmem⟩ := hregs x hx
    rw [hother x hne]
    exact L.as x hmem

end Listed

end Calls

/-- A call that changes the list of regions of `a`.  A region is added only where its address is in
place. -/
inductive RegionCall (a : ℕ) : Spaces → Spaces → Prop
  | map {s s' : Spaces} {addr size store ofs r : ℕ} {perm : MemPerm} {shared : Int}
      (hplace : ∀ v, s.mapAddr a addr size = some v → s.InPlace a v)
      (hrun : asMapMemregion a addr size perm store ofs shared s = .ok (some r, s')) :
      RegionCall a s s'
  | refuse {s s' : Spaces} {addr size store ofs : ℕ} {perm : MemPerm} {shared : Int}
      (hrun : asMapMemregion a addr size perm store ofs shared s = .ok (none, s')) :
      RegionCall a s s'
  | unmap {s s' : Spaces} {r : ℕ} (hr : r ∈ (s.space a).regions)
      (hrun : memregionUnmapInternal r s = .ok ((), s')) : RegionCall a s s'

theorem RegionCall.keeps {a : ℕ} {s s' : Spaces} (h : RegionCall a s s') (L : Listed a s)
    (S : s.Sorted a) : Listed a s' ∧ s'.Sorted a := by
  cases h with
  | map hplace hrun =>
    obtain ⟨hx, -⟩ | ⟨r, v, hx, hv, K⟩ := asMapMemregion_linked L hrun
    · cases hx
    · exact ⟨L.linked K rfl, (L.sorted_linked K S).mpr (hplace v hv)⟩
  | refuse hrun =>
    obtain ⟨-, vm, rfl⟩ | ⟨r, v, hx, -, -⟩ := asMapMemregion_linked L hrun
    · exact ⟨L.of_vm vm, S⟩
    · cases hx
  | unmap hr hrun =>
    obtain ⟨L', hregs, hother⟩ := L.unmap hr hrun
    refine ⟨L', ?_⟩
    rw [Spaces.Sorted, hregs]
    refine (S.sublist List.erase_sublist).imp_of_mem fun hm hn h => ?_
    rw [hother _ ((L.nodup.mem_erase_iff).mp hm).1, hother _ ((L.nodup.mem_erase_iff).mp hn).1]
    exact h

theorem asInit_listed {a : ℕ} {cached : Bool} {e : Err} {s s' : Spaces} (hc : s.cache.Ok)
    (h : asInit a cached s = .ok (e, s')) : Listed a s' ∧ (s'.space a).regions = [] := by
  suffices key : s'.cache = s.cache ∧ (s'.space a).regions = [] by
    refine ⟨⟨key.1 ▸ hc, ?_, ?_, ?_⟩, key.2⟩ <;> simp [key.2]
  obtain ⟨-, vm, rfl, -⟩ | ⟨-, -, paddr, vm, -, rfl⟩ := asInit_inv h <;> simp [Spaces.setRegions]

/-- From `as_init` on, the list of regions stays in order as long as each new region is in place,
and it is out of order as soon as one is not. -/
theorem regions_sorted_iff {a : ℕ} {cached : Bool} {e : Err} {s0 s1 s : Spaces} (hc : s0.cache.Ok)
    (hinit : asInit a cached s0 = .ok (e, s1)) (hrun : Relation.ReflTransGen (RegionCall a) s1 s) :
    s.Sorted a ∧ ∀ (addr size store ofs r v : ℕ) (perm : MemPerm) (shared : Int) (s' : Spaces),
        asMapMemregion a addr size perm store ofs shared s = .ok (some r, s') →
        s.mapAddr a addr size = some v → (s'.Sorted a ↔ s.InPlace a v) := by
  have key : Listed a s ∧ s.Sorted a := by
    induction hrun with
    | refl =>
      obtain ⟨L, hnil⟩ := asInit_listed hc hinit
      exact ⟨L, by simp [Spaces.Sorted, hnil]⟩
    | tail _ hstep ih => exact hstep.keeps ih.1 ih.2
  refine ⟨key.2, fun addr size store ofs r v perm shared s' hmap hv => ?_⟩
  obtain ⟨hx, -⟩ | ⟨r', v', -, hv', K⟩ := asMapMemregion_linked key.1 hmap
  · cases hx
  · cases hv.symm.trans hv'
    exact key.1.sorted_linked K key.2

/-- A page of the new address space is mapped at an address. -/
def pageMapped (v : ℕ) (s : Spaces) : Spaces := (asMapMemregion 1 v pgSize .urw 0 0 0).final s

theorem lowSpace_run : asInit 1 true kernelOnly = .ok (.ok, lowSpace) :=
  run_of_result (by decide +kernel)

/-- Two pages mapped from the lower to the higher. -/
theorem ascending_sorted : (pageMapped 0x2000 (pageMapped 0x1000 lowSpace)).Sorted 1 := by
  have h1 : asMapMemregion 1 0x1000 pgSize .urw 0 0 0 lowSpace =
      .ok (some 0, pageMapped 0x1000 lowSpace) := run_of_result (by decide +kernel)
  have h2 : asMapMemregion 1 0x2000 pgSize .urw 0 0 0 (pageMapped 0x1000 lowSpace) =
      .ok (some 1, pageMapped 0x2000 (pageMapped 0x1000 lowSpace)) :=
    run_of_result (by decide +kernel)
  have p1 : ∀ v, lowSpace.mapAddr 1 0x1000 pgSize = some v → lowSpace.InPlace 1 v := by
    rintro v ⟨⟩
    decide +kernel
  have p2 : ∀ v, (pageMapped 0x1000 lowSpace).mapAddr 1 0x2000 pgSize = some v →
      (pageMapped 0x1000 lowSpace).InPlace 1 v := by
    rintro v ⟨⟩
    decide +kernel
  exact (regions_sorted_iff ⟨by decide, by decide⟩ lowSpace_run
    (.tail (.single (.map p1 h1)) (.map p2 h2))).1

/-- Two disjoint pages mapped from the higher to the lower stay in that order. -/
theorem descending_not_sorted :
    ∃ s1 s2 s3, kernelOnly.cache.Ok ∧ asInit 1 true kernelOnly = .ok (.ok, s1) ∧
    asMapMemregion 1 0x2000 pgSize .urw 0 0 0 s1 = .ok (some 0, s2) ∧
    asMapMemregion 1 0x1000 pgSize .urw 0 0 0 s2 = .ok (some 1, s3) ∧
    s3.RegionsDisjoint 1 ∧ ¬ s3.Sorted 1 := by
  refine ⟨lowSpace, pageMapped 0x2000 lowSpace, pageMapped 0x1000 (pageMapped 0x2000 lowSpace),
    ⟨by decide, by decide⟩, lowSpace_run, run_of_result (by decide +kernel),
    run_of_result (by decide +kernel), ?_, by decide +kernel⟩
  have hregs : ((pageMapped 0x1000 (pageMapped 0x2000 lowSpace)).space 1).regions = [0, 1] := by
    decide +kernel
  have h0 : (pageMapped 0x1000 (pageMapped 0x2000 lowSpace)).region 0 =
      ⟨1, 0x2000, 0x3000, .urw, 0, 0, 0⟩ := by decide +kernel
  have h1 : (pageMapped 0x1000 (pageMapped 0x2000 lowSpace)).region 1 =
      ⟨1, 0x1000, 0x2000, .urw, 0, 0, 0⟩ := by decide +kernel
  rw [Spaces.RegionsDisjoint, hregs, List.pairwise_pair, h0, h1]
  rintro ⟨v, ⟨hv, -⟩, -, hv'⟩
  exact absurd (hv.trans_lt hv') (by decide)

/-! ## The end of a region -/

section Extend

variable {s : Spaces} {a r e : ℕ} {size : Int}

/-- What `memregion_extend` promises for the region `r` of `a`. -/
def ExtendContract (s : Spaces) (a r : ℕ) (size : Int) : Prop :=
  ∃ e old s', memregionExtend a r size s = .ok ((e, old), s') ∧
    ((s.region r).fin + size < (s.region r).start → e = .vmInvalid) ∧
    ((s.region r).start ≤ (s.region r).fin + size →
      (2 ^ 64 ≤ (s.region r).fin + size ∨ ∃ n ∈ (s.space a).regions, n ≠ r ∧
        (s.region n).Meets (s.region r).start ((s.region r).fin + size).toNat) → e ≠ .ok) ∧
    ((s.region r).start ≤ (s.region r).fin + size → (s.region r).fin + size < 2 ^ 64 →
      (∀ n ∈ (s.space a).regions, n ≠ r →
        ¬ (s.region n).Meets (s.region r).start ((s.region r).fin + size).toNat) →
      e = .ok ∧ old = some (s.region r).fin ∧
        s'.region r = { s.region r with fin := ((s.region r).fin + size).toNat }) ∧
    (e ≠ .ok → s' = s) ∧ (e = .ok → s'.RegionsDisjoint a)

theorem extendOverlaps_iff {r mr : MemRegion} (hne : mr.start < mr.fin)
    (h : r.start < e ∨ ¬ (mr.start ≤ r.start ∧ r.start < mr.fin)) :
    extendOverlaps r mr e = true ↔ mr.Meets r.start e := by
  simp only [extendOverlaps, Bool.or_eq_true, Bool.and_eq_true, decide_eq_true_eq]
  constructor
  · rintro (⟨h1, h2⟩ | ⟨h1, h2⟩)
    · exact ⟨mr.start, ⟨le_rfl, hne⟩, h2, h1⟩
    · exact ⟨r.start, ⟨h2, h1⟩, le_rfl, h.resolve_right fun hn => hn ⟨h2, h1⟩⟩
  · rintro ⟨v, ⟨h1, h2⟩, h3, h4⟩
    rcases le_total r.start mr.start with hle | hle
    · exact .inl ⟨h1.trans_lt h4, hle⟩
    · exact .inr ⟨h3.trans_lt h2, hle⟩

theorem Spaces.RegionsDisjoint.apart (hd : s.RegionsDisjoint a) {x y : ℕ}
    (hx : x ∈ (s.space a).regions) (hy : y ∈ (s.space a).regions) (hne : x ≠ y) :
    ¬ (s.region x).Meets (s.region y).start (s.region y).fin := by
  have : Std.Symm fun r r' => ¬ (s.region r).Meets (s.region r').start (s.region r').fin :=
    ⟨fun _ _ h h' => h h'.symm⟩
  exact hd.forall hx hy hne

theorem Spaces.extends_iff (hr : r ∈ (s.space a).regions) (hd : s.RegionsDisjoint a)
    (hne : ∀ n ∈ (s.space a).regions, n ≠ r → (s.region n).start < (s.region n).fin)
    (h : (s.region r).start < e ∨ (s.region r).start < (s.region r).fin) :
    s.Extends a r e ↔ (s.region r).start ≤ e ∧
      ∀ n ∈ (s.space a).regions, n ≠ r → ¬ (s.region n).Meets (s.region r).start e := by
  refine and_congr_right fun _ => forall₃_congr fun n hn hnr => ?_
  rw [← Bool.not_eq_true, extendOverlaps_iff (hne n hn hnr)]
  refine h.imp_right fun hlt hin => hd.apart hn hr hnr ⟨_, hin, le_rfl, hlt⟩

theorem Spaces.RegionsDisjoint.extend (hd : s.RegionsDisjoint a) (hnd : (s.space a).regions.Nodup)
    (h : ∀ n ∈ (s.space a).regions, n ≠ r → ¬ (s.region n).Meets (s.region r).start e) :
    (s.setRegion r { s.region r with fin := e }).RegionsDisjoint a := by
  refine hnd.pairwise_of_forall_ne fun x hx y hy hne => ?_
  by_cases hxr : x = r
  · subst hxr
    rw [Spaces.setRegion_self, Spaces.setRegion_of_ne hne.symm]
    exact fun hm => h y hy hne.symm hm.symm
  · by_cases hyr : y = r
    · subst hyr
      rw [Spaces.setRegion_self, Spaces.setRegion_of_ne hxr]
      exact h x hx hxr
    · rw [Spaces.setRegion_of_ne hxr, Spaces.setRegion_of_ne hyr]
      exact hd.apart hx hy hne

theorem extendAddr_eq {x : ℕ} (h0 : 0 ≤ x + size) (h1 : x + size < 2 ^ 64) :
    extendAddr x size = (x + size).toNat := by
  rw [extendAddr, Int.emod_eq_of_lt h0 h1]

theorem extendAddr_below {x : ℕ} (h0 : x + size < 0) (h1 : -2 ^ 63 ≤ size) :
    extendAddr x size = (x + size + 2 ^ 64).toNat := by
  rw [extendAddr]
  omega

theorem extendAddr_above {x : ℕ} (h0 : 2 ^ 64 ≤ x + size) (h1 : x < 2 ^ 64) (h2 : size < 2 ^ 63) :
    extendAddr x size = (x + size - 2 ^ 64).toNat := by
  rw [extendAddr]
  omega

/-- `memregion_extend` keeps its contract exactly if the new end is not below 0, and is either an
address or so much too large that it wraps to an address below the region. -/
theorem extend_contract_iff (hnd : (s.space a).regions.Nodup) (hr : r ∈ (s.space a).regions)
    (hd : s.RegionsDisjoint a)
    (hne : ∀ n ∈ (s.space a).regions, n ≠ r → (s.region n).start < (s.region n).fin)
    (hle : (s.region r).start ≤ (s.region r).fin) (hlt : (s.region r).fin < 2 ^ 64)
    (hmin : -2 ^ 63 ≤ size) (hmax : size < 2 ^ 63) :
    ExtendContract s a r size ↔ 0 ≤ (s.region r).fin + size ∧
      ((s.region r).fin + size < 2 ^ 64 ∨
      (s.region r).fin + size - 2 ^ 64 < (s.region r).start) := by
  have hapart : ∀ e ≤ (s.region r).fin, ∀ n ∈ (s.space a).regions, n ≠ r →
      ¬ (s.region n).Meets (s.region r).start e := fun e he n hn hnr hm => by
    obtain ⟨v, h1, h2, h3⟩ := hm
    exact hd.apart hn hr hnr ⟨v, h1, h2, h3.trans_le he⟩
  constructor
  · rintro ⟨e, old, s', hrun, hinval, hbad, -, -, -⟩
    refine ⟨?_, ?_⟩
    · by_contra hneg
      have haddr := extendAddr_below (Int.not_le.mp hneg) hmin
      rcases memregionExtend_cases a r size s with ⟨h0, e'⟩ | ⟨-, hlow, e'⟩ | ⟨-, -,
        -, e'⟩ | ⟨-, -, e'⟩ <;>
        rw [e'] at hrun <;> cases hrun
      · omega
      · omega
      · cases hinval (by omega)
      · cases hinval (by omega)
    · by_contra hbig
      obtain ⟨h1, h2⟩ := not_or.mp hbig
      have haddr := extendAddr_above (Int.not_lt.mp h1) hlt hmax
      have hbelow : extendAddr (s.region r).fin size < (s.region r).fin := by omega
      have E : s.Extends a r (extendAddr (s.region r).fin size) :=
        (Spaces.extends_iff hr hd hne (Or.inr (by omega))).mpr ⟨by omega, hapart _ hbelow.le⟩
      rcases memregionExtend_cases a r size s with ⟨h0, e'⟩ | ⟨-, hlow, e'⟩ | ⟨-, -,
        hE, e'⟩ | ⟨-, -, e'⟩ <;>
        rw [e'] at hrun <;> cases hrun
      · omega
      · omega
      · exact hE E
      · exact hbad (by omega) (Or.inl (by omega)) rfl
  · rintro ⟨h0, h1⟩
    by_cases hfit : (s.region r).fin + size < 2 ^ 64
    · have haddr := extendAddr_eq h0 hfit
      have hin : size ≠ 0 → (s.region r).start ≤ extendAddr (s.region r).fin size →
          (s.region r).start < extendAddr (s.region r).fin size ∨
            (s.region r).start < (s.region r).fin := by omega
      rcases memregionExtend_cases a r size s with ⟨hz, e'⟩ | ⟨-, hlow, e'⟩ | ⟨hz, hge,
        hE, e'⟩ | ⟨hz, hE, e'⟩
      · refine ⟨_, _, _, e', fun h => by omega, fun _ hm _ => ?_, fun _ _ _ => ⟨rfl, rfl, ?_⟩,
          fun h => absurd rfl h, fun _ => hd⟩
        · rcases hm with hm | ⟨n, hn, hnr, hm⟩
          · omega
          · exact hapart _ (by omega) n hn hnr hm
        · rw [hz, Int.add_zero, Int.toNat_natCast]
      · have hlow' : (s.region r).fin + size < (s.region r).start := by omega
        exact ⟨_, _, _, e', fun _ => rfl, fun h => absurd hlow' (Int.not_lt.mpr h),
          fun h => absurd hlow' (Int.not_lt.mpr h), fun _ => rfl, fun h => nomatch h⟩
      · rw [Spaces.extends_iff hr hd hne (hin hz hge)] at hE
        refine ⟨_, _, _, e', fun h => by omega, fun _ _ h => (nomatch h),
          fun _ _ hno => ?_, fun _ => rfl,
          fun h => nomatch h⟩
        exact absurd ⟨hge, haddr ▸ hno⟩ hE
      · rw [Spaces.extends_iff hr hd hne (hin hz hE.1)] at hE
        refine ⟨_, _, _, e', fun h => by omega, fun _ hm _ => ?_, fun _ _ _ => ⟨rfl, rfl, ?_⟩,
          fun h => absurd rfl h, fun _ => hd.extend hnd hE.2⟩
        · rcases hm with hm | ⟨n, hn, hnr, hm⟩
          · omega
          · exact hE.2 n hn hnr (haddr ▸ hm)
        · rw [← haddr]
          exact update_self ..
    · have haddr := extendAddr_above (Int.not_lt.mp hfit) hlt hmax
      rcases memregionExtend_cases a r size s with ⟨hz, e'⟩ | ⟨-, hlow, e'⟩ | ⟨hz,
        hge, -, -⟩ | ⟨hz, hE, -⟩
      · omega
      · exact ⟨_, _, _, e', fun _ => rfl, fun _ _ h => (nomatch h), fun _ h =>
          absurd h hfit, fun _ => rfl,
          fun h => nomatch h⟩
      · omega
      · have := hE.1
        omega

end Extend

theorem pageMapped_region :
    (pageMapped 0x1000 lowSpace).region 0 = ⟨1, 0x1000, 0x2000, .urw, 0, 0, 0⟩ ∧
    ((pageMapped 0x1000 lowSpace).space 1).regions = [0] := by decide +kernel

/-- The page is extended by another one. -/
theorem pageMapped_extends : ExtendContract (pageMapped 0x1000 lowSpace) 1 0 4096 := by
  refine (extend_contract_iff ?_ ?_ ?_ ?_ ?_ ?_ (by decide) (by decide)).mpr ?_
  · decide +kernel
  · decide +kernel
  · simp [Spaces.RegionsDisjoint, pageMapped_region.2]
  all_goals decide +kernel

/-- An end below 0 is accepted: the only region of the address space, with the addresses from
`0x1000` to `0x2000`, then ends at the last address there is. -/
theorem pageMapped_wraps :
    (pageMapped 0x1000 lowSpace).region 0 = ⟨1, 0x1000, 0x2000, .urw, 0, 0, 0⟩ ∧
    ((pageMapped 0x1000 lowSpace).space 1).regions = [0] ∧
    (memregionExtend 1 0 (-0x2001) (pageMapped 0x1000 lowSpace) = .ok ((.ok, some 0x2000),
      (memregionExtend 1 0 (-0x2001)).final (pageMapped 0x1000 lowSpace))) ∧
    (((memregionExtend 1 0 (-0x2001)).final (pageMapped 0x1000 lowSpace)).region 0).fin =
    2 ^ 64 - 1 ∧
    ¬ ExtendContract (pageMapped 0x1000 lowSpace) 1 0 (-0x2001) := by
  obtain ⟨hreg, hregs⟩ := pageMapped_region
  refine ⟨hreg, hregs, (and_iff_left_of_imp fun hrun => ⟨by decide +kernel, ?_⟩).mpr
    (run_of_result (by decide +kernel))⟩
  rintro ⟨e, old, s', e', hinval, -⟩
  rw [hrun] at e'
  cases e'
  rw [hreg] at hinval
  cases hinval (by decide)

/-! ## The break -/

/-- `ERR_NOMEM` as an address. -/
def nomemAddr : ℕ := 2 ^ 64 - 1

/-- What `sbrk` promises a process with the heap `h`. -/
def SbrkContract (s : Spaces) (a h : ℕ) (increment : Int) : Prop :=
  ∃ x s', sysSbrk a increment s = .ok (x, s') ∧
    ((x = (s.region h).fin ∧ ((s'.region h).fin : Int) = (s.region h).fin + increment) ∨
      (s'.region h).fin = (s.region h).fin ∧ (0 < increment → x = nomemAddr) ∧
        (increment < 0 → x = (s.region h).fin))

/-- `sbrk` keeps its promise exactly if it can grow the heap when it is asked to, and a break below
address 0 does not wrap to one that it accepts. -/
theorem sbrk_contract_iff {s : Spaces} {a h st : ℕ} {increment : Int}
    (hh : (s.space a).heap = some h)
    (hbelow : (s.region h).fin ≤ (s.region st).start)
    (hst : (s.region st).start < (s.region st).fin)
    (hlt : (s.region st).fin < 2 ^ 64) (hmin : -2 ^ 63 ≤ increment) (hmax : increment < 2 ^ 63) :
    SbrkContract s a h increment ↔ (0 < increment → (s.region h).fin + increment < 2 ^ 64 ∧
        s.Extends a h ((s.region h).fin + increment).toNat) ∧
      (increment < 0 → 0 ≤ (s.region h).fin + increment ∨
        ¬ s.Extends a h ((s.region h).fin + increment + 2 ^ 64).toNat) := by
  obtain ⟨s1, hrun, hcases⟩ := sysSbrk_run increment hh
  have hiff : SbrkContract s a h increment ↔
      ((s1.region h).fin : Int) = (s.region h).fin + increment ∨
      (s1.region h).fin = (s.region h).fin ∧ ¬ 0 < increment := by
    constructor
    · rintro ⟨x, s', e, hx⟩
      rw [hrun] at e
      cases e
      refine hx.imp And.right fun hx => ⟨hx.1, fun hpos => ?_⟩
      have := hx.2.1 hpos
      rw [nomemAddr] at this
      omega
    · intro hx
      exact ⟨_, _, hrun, hx.imp (⟨rfl, ·⟩) fun hx => ⟨hx.1, fun h => absurd h hx.2, fun _ => rfl⟩⟩
  rw [hiff]
  have hself : ∀ e, ((s.setRegion h { s.region h with fin := e }).region h).fin = e := fun e => by
    rw [Spaces.setRegion_self]
  rcases lt_trichotomy increment 0 with hneg | rfl | hpos
  · by_cases h0 : 0 ≤ (s.region h).fin + increment
    · have haddr := extendAddr_eq h0 (by omega)
      rcases hcases with ⟨rfl, -⟩ | ⟨-, rfl⟩
      · exact ⟨fun _ => ⟨fun h => by omega, fun _ => Or.inl h0⟩, fun _ => Or.inr ⟨rfl, by omega⟩⟩
      · rw [hself]
        exact ⟨fun _ => ⟨fun h => by omega, fun _ => Or.inl h0⟩, fun _ => Or.inl (by omega)⟩
    · have haddr := extendAddr_below (Int.not_le.mp h0) hmin
      rw [← haddr]
      rcases hcases with ⟨rfl, hE⟩ | ⟨hE, rfl⟩
      · exact ⟨fun _ => ⟨fun h => by omega, fun _ => Or.inr (hE.resolve_left (by omega))⟩,
          fun _ => Or.inr ⟨rfl, by omega⟩⟩
      · rw [hself]
        constructor
        · rintro (h | h) <;> omega
        · intro h
          exact absurd hE ((h.2 hneg).resolve_left h0)
  · rcases hcases with ⟨rfl, -⟩ | ⟨-, rfl⟩
    · simp
    · have haddr : extendAddr (s.region h).fin 0 = (((s.region h).fin : ℤ) + 0).toNat :=
        extendAddr_eq (by omega) (by omega)
      rw [hself, haddr]
      simp
  · by_cases h1 : (s.region h).fin + increment < 2 ^ 64
    · have haddr := extendAddr_eq (by omega) h1
      rw [← haddr]
      rcases hcases with ⟨rfl, hE⟩ | ⟨hE, rfl⟩
      · constructor
        · rintro (h | h) <;> omega
        · intro h
          exact absurd (h.1 hpos).2 (hE.resolve_left (by omega))
      · rw [hself]
        exact ⟨fun _ => ⟨fun _ => ⟨h1, hE⟩, fun h => by omega⟩, fun _ => Or.inl (by omega)⟩
    · have haddr := extendAddr_above (Int.not_lt.mp h1) (by omega) hmax
      have hmoved : ((s1.region h).fin : Int) ≠ (s.region h).fin + increment := by
        rcases hcases with ⟨rfl, -⟩ | ⟨-, rfl⟩
        · omega
        · rw [hself]
          omega
      exact ⟨fun h => h.elim (absurd · hmoved) (absurd hpos ·.2), fun h => absurd (h.1 hpos).1 h1⟩

/-- The process grows its heap by a page. -/
theorem lowProc_grows : SbrkContract lowProc 1 1 4096 := by
  refine (@sbrk_contract_iff lowProc 1 1 2 4096 ?_ ?_ ?_ ?_ (by decide) (by decide)).mpr
    ⟨fun _ => ⟨?_, ?_, ?_⟩, fun h => absurd h (by decide)⟩
  all_goals decide +kernel

/-- The heap has grown over half of the address space. -/
def halfGrown : Spaces := (sysSbrk 1 (2 ^ 63 - 1)).final lowProc

/-- It cannot grow as much again, but `sbrk` returns the old break as if it had.  And a break below
address 0 is accepted: it wraps to the upper half. -/
theorem lowProc_sbrk_lies : ProcState Care.any 1 halfGrown ∧
    (sysSbrk 1 (2 ^ 63 - 2 ^ 39) halfGrown =
      .ok (2 ^ 63 + 0x1fff, (sysSbrk 1 (2 ^ 63 - 2 ^ 39)).final halfGrown)) ∧
    (((sysSbrk 1 (2 ^ 63 - 2 ^ 39)).final halfGrown).region 1).fin = 2 ^ 63 + 0x1fff ∧
    ¬ SbrkContract halfGrown 1 1 (2 ^ 63 - 2 ^ 39) ∧ ¬ SbrkContract lowProc 1 1 (-2 ^ 63) := by
  have hrun : sysSbrk 1 (2 ^ 63 - 2 ^ 39) halfGrown =
      .ok (2 ^ 63 + 0x1fff, (sysSbrk 1 (2 ^ 63 - 2 ^ 39)).final halfGrown) :=
    run_of_result (by decide +kernel)
  have hsame : (((sysSbrk 1 (2 ^ 63 - 2 ^ 39)).final halfGrown).region 1).fin =
      2 ^ 63 + 0x1fff := by
    decide +kernel
  have hold : (halfGrown.region 1).fin = 2 ^ 63 + 0x1fff := by decide +kernel
  have hneg : sysSbrk 1 (-2 ^ 63) lowProc = .ok (0x2000, (sysSbrk 1 (-2 ^ 63)).final lowProc) :=
    run_of_result (by decide +kernel)
  have hup : (((sysSbrk 1 (-2 ^ 63)).final lowProc).region 1).fin =
      2 ^ 63 + 0x2000 := by decide +kernel
  have hlow : (lowProc.region 1).fin = 0x2000 := by decide +kernel
  refine ⟨(lowProc_state Care.any trivial).step trivial
    (.sbrk (x := 0x2000) (run_of_result (by decide +kernel))), hrun, hsame, ?_, ?_⟩
  · rintro ⟨x, s', e, h⟩
    rw [hrun] at e
    cases e
    rw [hsame, hold] at h
    revert h
    decide
  · rintro ⟨x, s', e, h⟩
    rw [hneg] at e
    cases e
    rw [hup, hlow] at h
    revert h
    decide

end Osv
