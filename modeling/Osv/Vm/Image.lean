import Osv.Lib.Words
import Osv.Vm.Loader
import Osv.Vm.Regions

/-!
# The image of an executable file

What `proc_load` puts into a new address space.  Every page of a segment is a page of its own, with
the bytes of the file where the segment has them and zeros elsewhere, mapped with the permission of
the segment. A page that has been loaded stays as it is: pages that are loaded later are other
pages, and the tables that are made for them were free (`PageHas.loadPage`).

Page tables look at 48 bits of an address, and `proc_load` asks of a segment only that it lies below
`KMAP_BASE`.  So the image is right exactly if the addresses of all segments are canonical
(`procLoad_image_iff`).
-/

namespace Osv

/-! ## Bytes of pages -/

/-- The bytes of a physical page. -/
def Vm.pageBytes (s : Vm) (g : ℕ) : Bytes := Bytes.ofWords (s.mem g)

/-- The byte a user program finds at an address. -/
def userByte (s : Vm) (d v : ℕ) : Option UInt8 :=
  if Canonical v then (reach s.mem d (pagePath (pageOf v))).map fun g => s.pageBytes g (v % pgSize)
  else none

/-- The permission that an entry gives to user programs. -/
def userPerm (e : ℕ) : Option MemPerm :=
  if present e ∧ e / 4 % 2 = 1 then some (if e / 2 % 2 = 1 then .urw else .ur) else none

theorem Vm.pageBytes_setByte (s : Vm) (g o : ℕ) (b : UInt8) :
    (s.setByte g o b).pageBytes g = Bytes.put (s.pageBytes g) o [b] :=
  Bytes.ofWords_replace (if_pos ⟨rfl, rfl⟩) fun _ hi => if_neg fun h => hi h.2

theorem Vm.pageBytes_setBytes (s : Vm) (g o : ℕ) (l : List UInt8) :
    (s.setBytes g o l).pageBytes g = Bytes.put (s.pageBytes g) o l := by
  induction l generalizing s o with
  | nil => exact Bytes.put_nil.symm
  | cons b l ih =>
    rw [Vm.setBytes, ih, Vm.pageBytes_setByte]
    exact (Bytes.put_append (l := [b])).symm

theorem Vm.pageBytes_zeroPage (s : Vm) (g : ℕ) : (s.zeroPage g).pageBytes g = Bytes.zero := by
  funext o
  have hz : (s.zeroPage g).mem g (o / 8) = 0 := if_pos rfl
  rw [Vm.pageBytes, Bytes.ofWords, hz, Nat.zero_div]
  rfl

/-! ## Pages that have been loaded -/

/-- Page `p` of the tables at `d` is mapped with the permission, to a page with the bytes. -/
def PageHas (d : ℕ) (s : Vm) (p : ℕ) (bytes : Bytes) (perm : MemPerm) : Prop :=
  ∃ g < 2 ^ 39, entryOf s.mem d p = mkPte (g * pgSize) (mempermToPteperm perm) ∧
    g ∉ freePages s.pm ∧ g ∉ tables Set.univ s d ∧ s.pageBytes g = bytes

section Page

variable {d p g : ℕ} {s s' : Vm} {bytes : Bytes} {perm : MemPerm}

theorem PageHas.elsewhere (h : PageHas d s p bytes perm) (S : Solo Set.univ s d) (hr : s'.pm.Ready)
    (hsub : freePages s'.pm ⊆ freePages s.pm)
    (hmem : ∀ f, f ∉ freePages s.pm → s'.mem f = s.mem f) : PageHas d s' p bytes perm := by
  have E : Elsewhere d s s' :=
    ⟨hr, fun f hf h => S.used f hf (hsub h), fun f hf => hmem f (S.used f hf)⟩
  obtain ⟨-, htab, hent⟩ := S.elsewhere E
  obtain ⟨g, hlt, he, hfree, htable, hbytes⟩ := h
  refine ⟨g, hlt, by rw [hent, he], fun h => hfree (hsub h), htab ▸ htable, ?_⟩
  rw [Vm.pageBytes, hmem g hfree]
  exact hbytes

theorem PageHas.built (h : PageHas d s p bytes perm) (B : Built Set.univ d s s')
    (hent : entryOf s'.mem d p = entryOf s.mem d p) : PageHas d s' p bytes perm := by
  obtain ⟨g, hlt, he, hfree, htable, hbytes⟩ := h
  refine ⟨g, hlt, by rw [hent, he], fun h => hfree (B.sub h), fun h => ?_, ?_⟩
  · exact (B.tables h).elim htable fun h => hfree h.1
  · rw [Vm.pageBytes, B.frame g hfree htable]
    exact hbytes

end Page

variable {mr : MemRegion}

section Load

variable {f : ExecFile} {a d : ℕ} {s s' : Spaces}

/-- A page of the file is loaded into a page that was free, and pages that have been loaded stay. -/
theorem loadPage_has {v off pofs avail : ℕ} {perm : MemPerm} (S : Solo Set.univ s.vm d)
    (hd : (s.space a).vpmap = d) (hv : v < 2 ^ 64)
    (h : loadPage f a v perm off pofs avail s = .ok (.ok, s')) :
    (f.readPage off avail).length = avail ∧ ∃ vm, s' = { s with vm := vm } ∧ Solo Set.univ vm d ∧
      PageHas d vm (pageOf v) (Bytes.put Bytes.zero pofs (f.readPage off avail)) perm ∧
      ∀ p < 2 ^ 36, p ≠ pageOf v → ∀ b q, PageHas d s.vm p b q → PageHas d vm p b q := by
  rw [loadPage] at h
  obtain ⟨x, s1, hall, h⟩ := Prog.bind_ok.mp h
  obtain ⟨vm1, hvm, rfl⟩ := Prog.zoom_ok.mp hall
  cases x with
  | none => cases h
  | some paddr =>
    obtain ⟨g, rfl, hlt, hin, hout, hready, hsub, hsame⟩ := pmemCall_alloc S.ready hvm
    have hpg := mul_pgSize_div g
    simp only at h
    rw [loadFill, hpg] at h
    obtain ⟨t1, ht1, h⟩ := Prog.update_bind_ok.mp h
    obtain ⟨t2, ht2, h⟩ := Prog.update_bind_ok.mp h
    set vm2 := (vm1.zeroPage g).setBytes g pofs (f.readPage off avail) with hvm2
    have ht : t2 = { s with vm := vm2 } := by rw [ht2, ht1]
    have hmem : ∀ f, f ≠ g → vm2.mem f = s.vm.mem f := fun f hf => by
      rw [hvm2, (Vm.setBytes_frame ..).2 f hf, ← hsame]
      exact funext fun i => if_neg hf
    have hpm : vm2.pm = vm1.pm := by rw [hvm2, (Vm.setBytes_frame ..).1]; rfl
    have hbytes : vm2.pageBytes g = Bytes.put Bytes.zero pofs (f.readPage off avail) := by
      rw [hvm2, Vm.pageBytes_setBytes, Vm.pageBytes_zeroPage]
    have hnot : g ∉ tables Set.univ s.vm d := fun h => S.used g h hin
    have hsub2 : freePages vm2.pm ⊆ freePages s.vm.pm := hpm ▸ hsub
    have hready2 : vm2.pm.Ready := hpm ▸ hready
    have hold : ∀ f, f ∉ freePages s.vm.pm → vm2.mem f = s.vm.mem f := fun f hf =>
      hmem f fun h => hf (h ▸ hin)
    obtain ⟨S2, htab2, -⟩ : Solo Set.univ vm2 d ∧ _ ∧ _ := S.elsewhere
      ⟨hready2, fun f hf h => S.used f hf (hsub2 h), fun f hf => hold f (S.used f hf)⟩
    split at h
    · cases h
    rename_i hlen
    rw [Prog.read_bind, ht] at h
    obtain ⟨vm, hmap, rfl⟩ := Prog.zoom_ok.mp h
    rw [hd, vpmapMap_eq hv one_pos (by decide), hpg] at hmap
    have hdown : pgRoundDown v < 2 ^ 64 := by
      rw [pgRoundDown, pgSize]
      omega
    have hpaddr : g * pgSize < 2 ^ 64 := by
      rw [pgSize]
      omega
    obtain ⟨e, vm', k, hrun, B, hres, hent⟩ := S2.mapLoop (n := 1)
        (v := pgRoundDown v) (a := g * pgSize)
      (mempermToPteperm perm) (by decide) (fun _ _ => trivial) hdown hpaddr
    rw [hrun] at hmap
    cases hmap
    obtain rfl : k = 1 := by
      rcases hres with ⟨-, hk⟩ | ⟨he, -⟩
      · exact hk
      · cases he
    have hq : pgRoundDown v / pgSize = v / pgSize := mul_pgSize_div _
    have hentry : ∀ p < 2 ^ 36,
        entryOf vm.mem d p = if p = pageOf v then mkPte (g * pgSize) (mempermToPteperm perm) else
        entryOf vm2.mem d p := by
      intro p hp
      have hpage : pageOf v = v / pgSize % 2 ^ 36 := rfl
      rw [hent p hp (mem_univ_under p), hq, putEntries]
      generalize v / pgSize = q at hpage
      by_cases hpv : p = pageOf v
      · have h0 : (p + (2 ^ 36 - q % 2 ^ 36)) % 2 ^ 36 = 0 := by omega
        rw [h0, if_pos one_pos, if_pos hpv, Nat.zero_mul, Nat.add_zero, Nat.mod_eq_of_lt hpaddr]
      · rw [if_neg (by omega), if_neg hpv]
    have hout2 : g ∉ freePages vm2.pm := hpm ▸ hout
    refine ⟨not_not.mp hlen, vm, rfl, B.solo,
      ⟨g, hlt, ?_, fun h => hout2 (B.sub h), fun h => ?_, ?_⟩, fun p hp hpv b q hpage => ?_⟩
    · rw [hentry _ (pageOf_lt v), if_pos rfl]
    · exact (B.tables h).elim (fun h => hnot (htab2 ▸ h)) fun h => hout2 h.1
    · rw [Vm.pageBytes, B.frame g hout2 (htab2 ▸ hnot)]
      exact hbytes
    · refine (hpage.elsewhere S hready2 hsub2 hold).built B ?_
      rw [hentry p hp, if_neg hpv]

/-! ## The pages of a segment -/

/-- What the file holds.  A call of `fs_read_file` returns the bytes at the offset, or fewer of
them. -/
structure ExecFile.HasBytes (f : ExecFile) (content : List UInt8) : Prop where
  lt : content.length < 2 ^ 64
  read : ∀ ofs count, f.read ofs count <+: (content.drop ofs).take count

/-- The byte of the image of a segment at an address of its pages. -/
def ProgHdr.byteAt (ph : ProgHdr) (content : List UInt8) (v : ℕ) : UInt8 :=
  if ph.vaddr ≤ v ∧ v < ph.vaddr + ph.filesz then content.getD (ph.off + (v - ph.vaddr)) 0 else 0

/-- The first address of a page of the segment. -/
def ProgHdr.pageAddr (ph : ProgHdr) (i : ℕ) : ℕ := pgRoundDown ph.vaddr + i * pgSize

/-- Page `i` of the segment has been loaded. -/
def SegPage (d : ℕ) (s : Vm) (content : List UInt8) (ph : ProgHdr) (i : ℕ) : Prop :=
  ∃ bytes, PageHas d s (pageOf (ph.pageAddr i)) bytes ph.perm ∧
    ∀ o < pgSize, bytes o = ph.byteAt content (ph.pageAddr i + o)

/-- How many bytes of the file have been read before page `i`. -/
def ProgHdr.consumed (ph : ProgHdr) (i : ℕ) : ℕ := min ph.filesz (i * pgSize - pgOfs ph.vaddr)

variable {content : List UInt8} {ph : ProgHdr}

theorem ExecFile.HasBytes.read_eq (hb : f.HasBytes content) {off avail : ℕ}
    (h : (f.readPage off avail).length = avail) :
    (∀ j < avail, (f.readPage off avail)[j]? = some (content.getD (off + j) 0)) ∧
      (0 < avail → off + avail ≤ content.length) := by
  by_cases h0 : avail = 0
  · subst h0
    exact ⟨fun j hj => absurd hj (Nat.not_lt_zero j), fun h => absurd h (Nat.lt_irrefl 0)⟩
  · rw [ExecFile.readPage, if_neg h0] at h ⊢
    have hpre := hb.read off avail
    have hlen : avail ≤ ((content.drop off).take avail).length := by
      have := hpre.length_le
      omega
    have hle : off + avail ≤ content.length := by
      rw [List.length_take, List.length_drop] at hlen
      omega
    refine ⟨fun j hj => ?_, fun _ => hle⟩
    have heq := hpre.eq_of_length (by
      rw [h, List.length_take, List.length_drop]
      omega)
    rw [heq, List.getElem?_take_of_lt hj, List.getElem?_drop, List.getD_eq_getElem?_getD,
      List.getElem?_eq_getElem (by omega)]
    rfl

theorem ProgHdr.page_bytes {count avail pofs off o : ℕ} {bytes : List UInt8}
    (hpofs : pofs = if count = 0 then pgOfs ph.vaddr else 0)
    (havail : avail = min (ph.filesz - ph.consumed count) (pgSize - pofs))
    (hoff : off = ph.off + ph.consumed count) (hlen : bytes.length = avail)
    (hbytes : ∀ j < avail, bytes[j]? = some (content.getD (off + j) 0)) (ho : o < pgSize) :
    Bytes.put Bytes.zero pofs bytes o = ph.byteAt content (ph.pageAddr count + o) := by
  have hofs : pgOfs ph.vaddr < pgSize := Nat.mod_lt _ pgSize_pos
  have hdown : pgRoundDown ph.vaddr + pgOfs ph.vaddr = ph.vaddr := by
    rw [pgRoundDown, pgOfs, Nat.mul_comm]
    exact Nat.div_add_mod _ _
  have hcons : ph.consumed count = min ph.filesz (count * pgSize - pgOfs ph.vaddr) := rfl
  have haddr : ph.pageAddr count = pgRoundDown ph.vaddr + count * pgSize := rfl
  generalize pgRoundDown ph.vaddr = base at *
  generalize pgOfs ph.vaddr = ofs at *
  have key : (pofs ≤ o ∧ o < pofs + avail ↔
        ph.vaddr ≤ ph.pageAddr count + o ∧ ph.pageAddr count + o < ph.vaddr + ph.filesz) ∧
      (pofs ≤ o ∧ o < pofs + avail → off + (o - pofs) =
        ph.off + (ph.pageAddr count + o - ph.vaddr)) := by
    rw [pgSize] at *
    by_cases hcount : count = 0
    · rw [if_pos hcount] at hpofs
      omega
    · rw [if_neg hcount] at hpofs
      omega
  by_cases hin : pofs ≤ o ∧ o < pofs + avail
  · have hget := hbytes (o - pofs) (by omega)
    rw [List.getElem?_eq_getElem (by omega)] at hget
    have hput := Bytes.put_add (m := Bytes.zero) (o := pofs) (k := o - pofs) (l := bytes) (by omega)
    rw [Nat.add_sub_cancel' hin.1] at hput
    rw [hput, Option.some.inj hget, ProgHdr.byteAt, if_pos (key.1.mp hin), key.2 hin]
  · rw [Bytes.put_of_disjoint (by omega), ProgHdr.byteAt, if_neg fun h => hin (key.1.mpr h)]
    rfl

theorem ProgHdr.consumed_succ (ph : ProgHdr) (count : ℕ) :
    ph.consumed (count + 1) = ph.consumed count +
    min (ph.filesz - ph.consumed count) (pgSize - if count = 0 then pgOfs ph.vaddr else 0) := by
  have hofs : pgOfs ph.vaddr < pgSize := Nat.mod_lt _ pgSize_pos
  rw [ProgHdr.consumed, ProgHdr.consumed]
  generalize pgOfs ph.vaddr = ofs at *
  rw [pgSize] at *
  by_cases hcount : count = 0
  · rw [if_pos hcount]
    omega
  · rw [if_neg hcount]
    omega

/-- The loop over the pages of a segment whose pages have different indices. -/
theorem loadPages_has {n count off left : ℕ} (hb : f.HasBytes content) (S : Solo Set.univ s.vm d)
    (hd : (s.space a).vpmap = d) (hfit : ph.pageAddr (count + n) < 2 ^ 64)
    (hdist : ∀ i j, i < j → j < count + n → pageOf (ph.pageAddr i) ≠ pageOf (ph.pageAddr j))
    (hoff : off = ph.off + ph.consumed count) (hlt : off < 2 ^ 64)
    (hleft : left = ph.filesz - ph.consumed count)
    (h : loadPages f a ph n count off left s = .ok (.ok, s')) :
    ∃ vm, s' = { s with vm := vm } ∧ Solo Set.univ vm d ∧
      (∀ i, count ≤ i → i < count + n → SegPage d vm content ph i) ∧
      ∀ p < 2 ^ 36, (∀ i, count ≤ i → i < count + n → p ≠ pageOf (ph.pageAddr i)) →
        ∀ b q, PageHas d s.vm p b q → PageHas d vm p b q := by
  induction n generalizing count off left s with
  | zero =>
    cases h
    exact ⟨s'.vm, rfl, S, fun i h1 h2 => by omega, fun _ _ _ _ _ h => h⟩
  | succ n ih =>
    rw [loadPages] at h
    obtain ⟨e, s1, hpage, h⟩ := Prog.bind_ok.mp h
    split at h
    · rename_i he
      cases h
      exact absurd rfl he
    rename_i he
    rw [not_not.mp he] at hpage
    set pofs := if count = 0 then pgOfs ph.vaddr else 0 with hpofs
    set avail := min left (pgSize - pofs) with havail
    have hdown : pgRoundDown ph.vaddr + pgOfs ph.vaddr = ph.vaddr := by
      rw [pgRoundDown, pgOfs, Nat.mul_comm]
      exact Nat.div_add_mod _ _
    have hofs : pgOfs ph.vaddr < pgSize := Nat.mod_lt _ pgSize_pos
    have hv : addAddr ph.vaddr (count * pgSize) < 2 ^ 64 := Nat.mod_lt _ (by decide)
    have hpv : pageOf (addAddr ph.vaddr (count * pgSize)) = pageOf (ph.pageAddr count) := by
      simp only [ProgHdr.pageAddr, addAddr, pageOf, pgRoundDown, pgOfs, pgSize] at *
      omega
    obtain ⟨hlen, vm1, rfl, S1, hnew, hkeep⟩ := loadPage_has S hd hv hpage
    obtain ⟨hread, hle⟩ := hb.read_eq hlen
    rw [hpv] at hnew hkeep
    have hcons := ph.consumed_succ count
    rw [← hpofs, ← hleft, ← havail] at hcons
    have hnext : off + avail < 2 ^ 64 := by
      have := hb.lt
      rcases Nat.eq_zero_or_pos avail with h0 | h0
      · omega
      · have := hle h0
        omega
    have hoff' : addAddr off avail = ph.off + ph.consumed (count + 1) := by
      rw [addAddr, Nat.mod_eq_of_lt hnext]
      omega
    have hleft' : left - avail = ph.filesz - ph.consumed (count + 1) := by omega
    obtain ⟨vm, rfl, S', hpages, hrest⟩ := ih (s := { s with vm := vm1 }) S1 hd
      (by rwa [Nat.add_right_comm, Nat.add_assoc]) (fun i j hij hj => hdist i j hij (by omega))
      hoff' (Nat.mod_lt _ (by decide)) hleft' h
    refine ⟨vm, rfl, S', fun i h1 h2 => ?_, fun p hp hnot b q hpage => ?_⟩
    · rcases Nat.eq_or_lt_of_le h1 with rfl | h1
      · refine ⟨_, hrest _ (pageOf_lt _) (fun i hi1 hi2 => hdist count i hi1 (by omega)) _ _ hnew,
          ?_⟩
        intro o ho
        exact ProgHdr.page_bytes hpofs (by rw [havail, hleft]) hoff hlen hread ho
      · exact hpages i h1 (by omega)
    · exact hrest p hp (fun i h1 h2 => hnot i (by omega) (by omega)) b q
        (hkeep p hp (hnot count le_rfl (by omega)) b q hpage)

/-! ## Segments -/

/-- An address of the pages of the segment. -/
def ProgHdr.Has (ph : ProgHdr) (v : ℕ) : Prop :=
  pgRoundDown ph.vaddr ≤ v ∧ v < pgRoundUp (ph.vaddr + ph.memsz)

/-- All addresses of the pages of the segment are canonical. -/
def ProgHdr.IsCanonical (ph : ProgHdr) : Prop := ∀ v, ph.Has v → Canonical v

/-- The segments have no page in common. -/
def ProgHdr.Apart (ph ph' : ProgHdr) : Prop := ∀ v, ¬ (ph.Has v ∧ ph'.Has v)

/-- The region of the pages of the segment. -/
def ProgHdr.region (ph : ProgHdr) (a : ℕ) : MemRegion :=
  ⟨a, pgRoundDown ph.vaddr, pgRoundUp (ph.vaddr + ph.memsz), ph.perm, 0, 0, ph.off⟩

/-- The loadable segments among the `n` headers from `ofs` on. -/
def ExecFile.segments (f : ExecFile) : (n ofs : ℕ) → List ProgHdr
  | 0, _ => []
  | n + 1, ofs =>
    if (f.progHdr ofs).type = ptLoad then f.progHdr ofs :: f.segments n (addAddr ofs sizeofProgHdr)
    else f.segments n (addAddr ofs sizeofProgHdr)

theorem ProgHdr.IsCanonical.size_eq (hc : ph.IsCanonical) (hv : ph.vaddr < 2 ^ 64)
    (hm : ph.memsz < 2 ^ 64) {fin : ℕ} (h : loadSegment f a ph s = .ok (.ok fin, s')) :
    pgRoundUp (ph.vaddr + ph.memsz) < 2 ^ 64 ∧
      pgRoundDown ph.vaddr + ph.size = pgRoundUp (ph.vaddr + ph.memsz) := by
  have hcheck : ¬ (ph.memsz < ph.filesz ∨ addAddr ph.vaddr ph.memsz < ph.vaddr) := by
    intro hbad
    rw [loadSegment, if_pos hbad] at h
    cases h
  have htop : ¬ ph.Tops := by
    intro htop
    rw [loadSegment_asserts hv hm htop] at h
    cases h
  have hgap := hc (2 ^ 47)
  simp only [ProgHdr.Has, Canonical, ProgHdr.Tops, ProgHdr.size, pgRoundUpAddr, pgRoundUp, addAddr,
    pgRoundDown, pgOfs, pgSize] at *
  omega

theorem ProgHdr.pageAddr_inj {ph' : ProgHdr} (hc : ph.IsCanonical) (hc' : ph'.IsCanonical) {i j : ℕ}
    (hi : ph.Has (ph.pageAddr i)) (hj : ph'.Has (ph'.pageAddr j))
    (h : pageOf (ph.pageAddr i) = pageOf (ph'.pageAddr j)) : ph.pageAddr i = ph'.pageAddr j := by
  have h1 := (hc _ hi).page.eq_of_mod (hc' _ hj) h
  simp only [ProgHdr.pageAddr, pgRoundDown, pgSize] at *
  omega

/-- The segments in the list have been loaded. -/
structure SegsLoaded (d a : ℕ) (content : List UInt8) (done : List ProgHdr) (s : Spaces) :
    Prop where
  ne : a ≠ kas
  solo : Solo Set.univ s.vm d
  vpmap : (s.space a).vpmap = d
  listed : Listed a s
  pages : ∀ ph ∈ done, ∀ v, ph.Has v → ∃ i, SegPage d s.vm content ph i ∧
    ph.pageAddr i ≤ v ∧ v < ph.pageAddr i + pgSize
  regions : ((s.space a).regions.map s.region).Perm (done.map (·.region a))

theorem Listed.mapped {r : ℕ} (L : Listed a s) (M : Mapped s a r mr s') (has : mr.as = a) :
    Listed a s' := by
  have hold : ∀ x ∈ (s.space a).regions, s'.region x = s.region x :=
    fun x hx => M.others x fun h => M.new (h ▸ L.inUse x hx)
  refine ⟨M.ok, ?_, fun x hx => ?_, fun x hx => ?_⟩
  · exact M.regions.nodup_iff.mpr (List.nodup_cons.mpr ⟨fun h => M.new (L.inUse r h), L.nodup⟩)
  · exact (M.inUse x).mpr ((List.mem_cons.mp (M.regions.mem_iff.mp hx)).symm.imp_left (L.inUse x))
  · rcases List.mem_cons.mp (M.regions.mem_iff.mp hx) with rfl | hx
    · rw [M.region, has]
    · rw [hold x hx, L.as x hx]

theorem Listed.mapped_regions {r : ℕ} (L : Listed a s) (M : Mapped s a r mr s') :
    ((s'.space a).regions.map s'.region).Perm (mr :: (s.space a).regions.map s.region) := by
  refine (M.regions.map s'.region).trans ?_
  rw [List.map_cons, M.region, List.map_congr_left fun x hx =>
    M.others x fun h => M.new (h ▸ L.inUse x hx)]

namespace SegsLoaded

variable {done : List ProgHdr}

theorem mapped (I : SegsLoaded d a content done s) {r : ℕ} (M : Mapped s a r mr s')
    (has : mr.as = a) : Solo Set.univ s'.vm d ∧ (s'.space a).vpmap = d ∧ Listed a s' ∧
      ((s'.space a).regions.map s'.region).Perm (mr :: done.map (·.region a)) ∧
      ∀ p b q, PageHas d s.vm p b q → PageHas d s'.vm p b q := by
  have hmem : ∀ f, f ∉ freePages s.vm.pm → s'.vm.mem f = s.vm.mem f := fun f _ => by rw [M.mem]
  obtain ⟨S, -, -⟩ : Solo Set.univ s'.vm d ∧ _ ∧ _ := I.solo.elsewhere
    ⟨M.ready, fun f hf h => I.solo.used f hf (M.sub h), fun f hf => hmem f (I.solo.used f hf)⟩
  exact ⟨S, M.vpmap.trans I.vpmap, I.listed.mapped M has,
    (I.listed.mapped_regions M).trans (I.regions.cons mr),
    fun p b q h => h.elsewhere I.solo M.ready M.sub hmem⟩

theorem loadSegment (I : SegsLoaded d a content done s) (hb : f.HasBytes content)
    (hv : ph.vaddr < 2 ^ 64) (hm : ph.memsz < 2 ^ 64) (hoff : ph.off < 2 ^ 64) (hc : ph.IsCanonical)
    (hdone : ∀ q ∈ done, q.IsCanonical ∧ q.Apart ph) {fin : ℕ}
    (h : Osv.loadSegment f a ph s = .ok (.ok fin, s')) :
    SegsLoaded d a content (done ++ [ph]) s' ∧ fin = pgRoundUp (ph.vaddr + ph.memsz) := by
  obtain ⟨hlt, hsize⟩ := hc.size_eq hv hm h
  have hfin : fin = pgRoundUp (ph.vaddr + ph.memsz) := by
    rw [loadSegment_end h, addAddr, hsize, Nat.mod_eq_of_lt hlt]
  refine ⟨?_, hfin⟩
  obtain ⟨n, hn⟩ := ph.size_dvd
  have hdiv : ph.size / pgSize = n := by rw [hn, Nat.mul_div_cancel_left _ pgSize_pos]
  have hend : ph.pageAddr n = pgRoundUp (ph.vaddr + ph.memsz) := by
    rw [ProgHdr.pageAddr, Nat.mul_comm, ← hn, hsize]
  have hpage : ∀ i < n, ph.Has (ph.pageAddr i) := by
    intro i hi
    rw [ProgHdr.Has, ← hend]
    simp only [ProgHdr.pageAddr, pgSize]
    omega
  obtain ⟨r, s1, hmap, hload, -⟩ := loadSegment_ok h
  have hdown : pgRoundDown ph.vaddr < 2 ^ 64 := by
    rw [pgRoundDown, pgSize]
    omega
  obtain ⟨M, -, -⟩ := asMapMemregion_user I.listed.cache I.solo.ready I.ne hdown
      (Nat.dvd_mul_left _ _)
    ph.size_dvd ph.size_lt hmap
  rw [hsize] at M
  obtain ⟨S1, hd1, L1, hregs, hkeep⟩ := I.mapped M rfl
  rw [hdiv] at hload
  obtain ⟨vm, rfl, S2, hpages, hrest⟩ := loadPages_has hb S1 hd1
      (by rw [Nat.zero_add, hend]; exact hlt)
    (fun i j hij hj heq => by
      have := ProgHdr.pageAddr_inj hc hc (hpage i (by omega)) (hpage j (by omega)) heq
      simp only [ProgHdr.pageAddr, pgSize] at this
      omega)
    (by simp [ProgHdr.consumed]) hoff (by simp [ProgHdr.consumed]) hload
  refine ⟨I.ne, S2, hd1, L1.of_vm vm, fun q hq v hqv => ?_, ?_⟩
  · rcases List.mem_append.mp hq with hq | hq
    · obtain ⟨i, ⟨bytes, hpg, hbytes⟩, h1, h2⟩ := I.pages q hq v hqv
      refine ⟨i, ⟨bytes, ?_, hbytes⟩, h1, h2⟩
      refine hrest _ (pageOf_lt _) (fun j _ hj heq => ?_) _ _ (hkeep _ _ _ hpg)
      have hq' : q.Has (q.pageAddr i) := ⟨Nat.le_add_right _ _, h1.trans_lt hqv.2⟩
      have := ProgHdr.pageAddr_inj (hdone q hq).1 hc hq' (hpage j (by omega)) heq
      refine (hdone q hq).2 _ ⟨hq', ?_⟩
      rw [this]
      exact hpage j (by omega)
    · obtain rfl := List.mem_singleton.mp hq
      obtain ⟨h1, h2⟩ := hqv
      rw [← hend] at h2
      have hi : (v - pgRoundDown q.vaddr) / pgSize < n ∧
          q.pageAddr ((v - pgRoundDown q.vaddr) / pgSize) ≤ v ∧
          v < q.pageAddr ((v - pgRoundDown q.vaddr) / pgSize) + pgSize := by
        simp only [ProgHdr.pageAddr, pgSize] at *
        omega
      exact ⟨_, hpages _ (Nat.zero_le _) (by omega), hi.2⟩
  · refine hregs.trans ?_
    rw [List.map_append]
    exact @List.perm_append_comm _ [ph.region a] _

theorem loadSegments {n ofs fin fin' : ℕ} (I : SegsLoaded d a content done s)
    (hb : f.HasBytes content) (hcan : ∀ q ∈ done ++ f.segments n ofs, q.IsCanonical)
    (happ : (done ++ f.segments n ofs).Pairwise ProgHdr.Apart)
    (h : Osv.loadSegments f a n ofs fin s = .ok (.ok fin', s')) :
    SegsLoaded d a content (done ++ f.segments n ofs) s' ∧
      fin' = (f.segments n ofs).getLast?.elim fin fun ph => pgRoundUp (ph.vaddr + ph.memsz) := by
  induction n generalizing ofs fin s done with
  | zero =>
    cases h
    rw [ExecFile.segments, List.append_nil]
    exact ⟨I, rfl⟩
  | succ n ih =>
    rw [Osv.loadSegments] at h
    split at h
    · cases h
    split at h
    · rename_i htype
      have hsegs : f.segments (n + 1) ofs = f.segments n (addAddr ofs sizeofProgHdr) := if_neg htype
      rw [hsegs] at hcan happ ⊢
      exact ih I hcan happ h
    · rename_i htype
      have hsegs : f.segments (n + 1) ofs = f.progHdr ofs ::
          f.segments n (addAddr ofs sizeofProgHdr) :=
        if_pos (not_not.mp htype)
      have hcons : done ++ f.segments (n + 1) ofs =
          (done ++ [f.progHdr ofs]) ++ f.segments n (addAddr ofs sizeofProgHdr) := by
        rw [hsegs, List.append_assoc]
        rfl
      obtain ⟨x, s1, hseg, h⟩ := Prog.bind_ok.mp h
      cases x with
      | error e => cases h
      | ok fin1 =>
        rw [hcons] at hcan happ ⊢
        have hcan1 : (f.progHdr ofs).IsCanonical := hcan _ (by simp)
        have hdone : ∀ q ∈ done, q.IsCanonical ∧ q.Apart (f.progHdr ofs) := fun q hq =>
          ⟨hcan q (by simp [hq]),
            (List.pairwise_append.mp (List.pairwise_append.mp happ).1).2.2 q hq _ (by simp)⟩
        obtain ⟨I1, rfl⟩ := I.loadSegment hb (leNat_lt _ 16 8) (leNat_lt _ 40 8) (leNat_lt _ 8 8)
          hcan1 hdone hseg
        obtain ⟨I2, hfin⟩ := ih I1 hcan happ h
        refine ⟨I2, ?_⟩
        rw [hfin, hsegs]
        cases hlast : f.segments n (addAddr ofs sizeofProgHdr) with
        | nil => rfl
        | cons q qs => rw [List.getLast?_cons_cons]; rfl

end SegsLoaded

end Load

/-! ## The new address space -/

/-- A new address space has no tables but its top-level table and the kernel's. -/
theorem asInit_solo {a : ℕ} {cached : Bool} {s0 s : Spaces}
    (K : Solo Set.univ s0.vm (s0.space kas).vpmap) (ha : a ≠ kas)
    (h : asInit a cached s0 = .ok (.ok, s)) : Solo Set.univ s.vm (s.space a).vpmap := by
  obtain ⟨g, hin, hout, hready, hsub, -, -, hspace, hother, hzero, hkern⟩ :=
    asInit_ok K.ready ha (K.used _ (mem_tables_root _ _ _)) h
  have hd : (s.space a).vpmap = g := by rw [hspace, Function.update_self]
  have hk : ∀ {π f}, π.length ≤ 3 → reach s0.vm.mem (s0.space kas).vpmap π = some f →
      f ∉ freePages s0.vm.pm := fun hπ hf => K.used _ ⟨_, ⟨hπ, fun _ _ => trivial⟩, hf⟩
  have hcases := fun ρ f => reach_withKernel (ρ := ρ) (f := f) hkern hzero fun π f hπ hf =>
    hother f fun e => hk hπ hf (e ▸ hin)
  rw [hd]
  refine ⟨hready, ?_, fun π ρ f hπ hρ h1 h2 => ?_⟩
  · rintro f ⟨π, hπ, hf⟩
    rcases hcases π f hπ.1 hf with ⟨-, rfl⟩ | ⟨-, hf⟩
    · exact hout
    · exact fun h => hk hπ.1 hf (hsub h)
  · rcases hcases π f hπ.1 h1 with ⟨rfl, rfl⟩ | ⟨-, hk1⟩
    · rcases hcases ρ f hρ.1 h2 with ⟨rfl, -⟩ | ⟨-, hk2⟩
      · rfl
      · exact absurd hin (hk hρ.1 hk2)
    · rcases hcases ρ f hρ.1 h2 with ⟨-, rfl⟩ | ⟨-, hk2⟩
      · exact absurd hin (hk hπ.1 hk1)
      · exact K.unique _ _ f hπ hρ hk1 hk2

/-! ## The image -/

/-- The loadable segments of the file. -/
def ExecFile.loadable (f : ExecFile) : List ProgHdr := f.segments f.header.phnum f.header.phoff

/-- The address space `a` holds the image of the file, and `entry` is its entry point. -/
structure IsImage (f : ExecFile) (content : List UInt8) (a entry : ℕ) (s : Spaces) : Prop where
  bytes : ∀ ph ∈ f.loadable, ∀ v, ph.Has v →
    userByte s.vm (s.space a).vpmap v = some (ph.byteAt content v)
  perm : ∀ ph ∈ f.loadable, ∀ v, ph.Has v →
    userPerm (entryOf s.vm.mem (s.space a).vpmap (v / pgSize)) = some ph.perm
  /-- One region has the pages of the segment, and no other has any of them. -/
  region : ∀ ph ∈ f.loadable, ∃ r ∈ (s.space a).regions, (s.region r).start = pgRoundDown ph.vaddr ∧
    (s.region r).fin = pgRoundUp (ph.vaddr + ph.memsz) ∧ ∀ r' ∈ (s.space a).regions, r' ≠ r →
      ∀ v, ph.Has v → ¬ ((s.region r').start ≤ v ∧ v < (s.region r').fin)
  entry : entry = f.header.entry
  /-- The heap is empty, and starts at the end of the last segment. -/
  heap : ∃ h ∈ (s.space a).regions, (s.space a).heap = some h ∧
    (s.region h).fin = (s.region h).start ∧
    ∀ ph ∈ f.loadable.getLast?, (s.region h).start = pgRoundUp (ph.vaddr + ph.memsz)

theorem userPerm_or {g w : ℕ} (hw : w < 8) : userPerm (g * pgSize ||| w) = userPerm w := by
  have h1 : (g * pgSize + w) % 2 = w % 2 := by rw [pgSize]; omega
  have h2 : (g * pgSize + w) / 2 % 2 = w / 2 % 2 := by rw [pgSize]; omega
  have h4 : (g * pgSize + w) / 4 % 2 = w / 4 % 2 := by rw [pgSize]; omega
  rw [or_flags (by omega)]
  simp only [userPerm, present, decide_eq_true_eq]
  rw [h1, h2, h4]

theorem userPerm_mkPte {g : ℕ} (hg : g < 2 ^ 39) (ph : ProgHdr) :
    userPerm (mkPte (g * pgSize) (mempermToPteperm ph.perm)) = some ph.perm := by
  rw [mkPte_eq hg, ProgHdr.perm]
  split <;> exact userPerm_or (by decide)

section Loaded

variable {f : ExecFile} {content : List UInt8} {a d : ℕ} {s s' : Spaces} {done : List ProgHdr}

theorem segPages_user {ph : ProgHdr} (h : ∀ v, ph.Has v → ∃ i, SegPage d s.vm content ph i ∧
      ph.pageAddr i ≤ v ∧ v < ph.pageAddr i + pgSize) (hc : ph.IsCanonical) {v : ℕ}
    (hv : ph.Has v) : userByte s.vm d v = some (ph.byteAt content v) ∧
      userPerm (entryOf s.vm.mem d (v / pgSize)) = some ph.perm := by
  obtain ⟨i, ⟨bytes, ⟨g, hlt, hent, -, -, hbytes⟩, hbyte⟩, h1, h2⟩ := h v hv
  have hpg : pageOf v = pageOf (ph.pageAddr i) ∧ v % pgSize = v - ph.pageAddr i := by
    simp only [ProgHdr.pageAddr, pageOf, pgRoundDown, pgSize] at *
    omega
  have hperm := mempermToPteperm_lt ph.perm
  constructor
  · have hreach : reach s.vm.mem d (pagePath (pageOf v)) = some g := by
      rw [hpg.1, reach_eq_some, hent]
      exact ⟨present_mkPte hlt hperm, entryFrame_mkPte hlt hperm⟩
    rw [userByte, if_pos (hc v hv), hreach, Option.map_some, hbytes, hpg.2, hbyte _ (by omega),
      Nat.add_sub_cancel' h1]
  · have hmod : v / pgSize % 2 ^ 36 = pageOf (ph.pageAddr i) := hpg.1
    rw [entryOf_mod, hmod, hent, userPerm_mkPte hlt]

/-- The region of a segment has its pages to itself when the only other region of the address space,
the heap, is empty. -/
theorem region_alone (hempty : mr.fin = mr.start) (happ : done.Pairwise ProgHdr.Apart)
    (hregs : ((s.space a).regions.map s.region).Perm (mr :: done.map (·.region a))) {ph : ProgHdr}
    (hph : ph ∈ done) : ∃ r ∈ (s.space a).regions, (s.region r).start = pgRoundDown ph.vaddr ∧
      (s.region r).fin = pgRoundUp (ph.vaddr + ph.memsz) ∧ ∀ r' ∈ (s.space a).regions, r' ≠ r →
        ∀ v, ph.Has v → ¬ ((s.region r').start ≤ v ∧ v < (s.region r').fin) := by
  let Off (m m' : MemRegion) : Prop := ∀ v,
    ¬ ((m.start ≤ v ∧ v < m.fin) ∧ (m'.start ≤ v ∧ v < m'.fin))
  have hsymm : ∀ {m m'}, Off m m' → Off m' m := fun h v hv => h v ⟨hv.2, hv.1⟩
  have hpair : ((s.space a).regions.map s.region).Pairwise Off := by
    refine (hregs.pairwise_iff hsymm).mpr (List.pairwise_cons.mpr ⟨fun m _ v hv => ?_, ?_⟩)
    · omega
    · exact List.pairwise_map.mpr (happ.imp fun h v hv => h v hv)
  obtain ⟨r, hr, hreg⟩ := List.mem_map.mp (hregs.mem_iff.mpr
    (List.mem_cons_of_mem _ (List.mem_map_of_mem hph)))
  refine ⟨r, hr, by rw [hreg]; rfl, by rw [hreg]; rfl, fun r' hr' hne v hv hin => ?_⟩
  have : Std.Symm fun x y => Off (s.region x) (s.region y) := ⟨fun _ _ => hsymm⟩
  refine (List.pairwise_map.mp hpair).forall hr' hr hne v ⟨hin, ?_⟩
  rw [hreg]
  exact hv

theorem SegsLoaded.loadHeap (I : SegsLoaded d a content done s) {fin entry x : ℕ}
    (hfin : pgSize ∣ fin ∧ fin < 2 ^ 64) (h : Osv.loadHeap a fin entry s = .ok (.ok x, s')) :
    x = entry ∧ (s'.space a).vpmap = d ∧ (∃ r ∈ (s'.space a).regions, (s'.space a).heap = some r ∧
      (s'.region r).start = fin ∧ (s'.region r).fin = fin) ∧
      ((s'.space a).regions.map s'.region).Perm
        (⟨a, fin, fin, .urw, 0, 0, 0⟩ :: done.map (·.region a)) ∧
      ∀ p b q, PageHas d s.vm p b q → PageHas d s'.vm p b q := by
  rw [Osv.loadHeap] at h
  obtain ⟨heap, s1, hmap, h⟩ := Prog.bind_ok.mp h
  obtain ⟨t, ht, h⟩ := Prog.update_bind_ok.mp h
  cases heap with
  | none => cases h
  | some r =>
    rw [if_neg (by simp)] at h
    cases h
    obtain ⟨M, -, -⟩ := asMapMemregion_user I.listed.cache I.solo.ready I.ne hfin.2 hfin.1
      (Nat.dvd_zero _) (by decide) hmap
    rw [Nat.add_zero] at M
    obtain ⟨-, hd, -, hregs, hkeep⟩ := I.mapped M rfl
    rw [Spaces.setHeap] at ht
    subst ht
    simp only [Function.update_self]
    refine ⟨trivial, hd, ⟨r, M.regions.mem_iff.mpr List.mem_cons_self, rfl, ?_, ?_⟩, hregs,
      hkeep⟩ <;>
      rw [M.region]

/-- A file whose segments are apart and canonical is loaded as it says. -/
theorem SegsLoaded.procLoad {x : ℕ} (I : SegsLoaded d a content [] s) (hb : f.HasBytes content)
    (happ : f.loadable.Pairwise ProgHdr.Apart) (hcan : ∀ ph ∈ f.loadable, ph.IsCanonical)
    (h : Osv.procLoad f a s = .ok (.ok x, s')) : IsImage f content a x s' := by
  rw [Osv.procLoad] at h
  split at h
  · cases h
  split at h
  · cases h
  obtain ⟨y, s1, hseg, h⟩ := Prog.bind_ok.mp h
  cases y with
  | error e => cases h
  | ok fin =>
    obtain ⟨I1, hfin⟩ := I.loadSegments hb hcan happ hseg
    obtain ⟨hx, hd, ⟨r, hr, hheap, hstart, hend⟩, hregs, hkeep⟩ :=
      I1.loadHeap (loadSegments_end ⟨Nat.dvd_zero _, by decide⟩ hseg) h
    have huser : ∀ ph ∈ f.loadable, ∀ v, ph.Has v → ∃ i, SegPage d s'.vm content ph i ∧
        ph.pageAddr i ≤ v ∧ v < ph.pageAddr i + pgSize := by
      intro ph hph v hv
      obtain ⟨i, ⟨bytes, hpg, hbytes⟩, hi⟩ := I1.pages ph hph v hv
      exact ⟨i, ⟨bytes, hkeep _ _ _ hpg, hbytes⟩, hi⟩
    refine ⟨fun ph hph v hv => ?_, fun ph hph v hv => ?_, fun ph hph => ?_, hx, r, hr, hheap, ?_,
      ?_⟩
    · rw [hd]
      exact (segPages_user (huser ph hph) (hcan ph hph) hv).1
    · rw [hd]
      exact (segPages_user (huser ph hph) (hcan ph hph) hv).2
    · exact region_alone rfl happ hregs hph
    · rw [hstart, hend]
    · intro ph hph
      rw [hstart, hfin]
      exact congrArg (fun o : Option ProgHdr => o.elim 0 fun ph => pgRoundUp (ph.vaddr + ph.memsz))
        (Option.mem_def.mp hph)

end Loaded

/-- Loading a file into a new address space builds the image that the file describes iff all its
segments are at canonical addresses. -/
theorem procLoad_image_iff {f : ExecFile} {content : List UInt8} {a x : ℕ} {cached : Bool}
    {s0 s s' : Spaces} (K : Solo Set.univ s0.vm (s0.space kas).vpmap)
    (hc : s0.cache.Ok) (ha : a ≠ kas)
    (hinit : asInit a cached s0 = .ok (.ok, s)) (hb : f.HasBytes content)
    (happ : f.loadable.Pairwise ProgHdr.Apart) (h : procLoad f a s = .ok (.ok x, s')) :
    IsImage f content a x s' ↔ ∀ ph ∈ f.loadable, ph.IsCanonical := by
  constructor
  · intro I ph hph v hv
    by_contra hnot
    have := I.bytes ph hph v hv
    rw [userByte, if_neg hnot] at this
    cases this
  · intro hcan
    obtain ⟨L, hregs⟩ := asInit_listed hc hinit
    have I : SegsLoaded (s.space a).vpmap a content [] s := by
      refine ⟨ha, asInit_solo K ha hinit, rfl, L, by simp, ?_⟩
      rw [hregs]
      exact .nil
    exact I.procLoad hb happ hcan h

/-! ## Two segments -/

/-- A header of a segment with one byte of the file and one page of memory. -/
def pageHdrBytes (off : UInt8) (vaddr : List UInt8) : List UInt8 :=
  [1, 0, 0, 0, 2, 0, 0, 0] ++ off :: List.replicate 7 0 ++ vaddr ++ List.replicate 8 0 ++
    1 :: List.replicate 7 0 ++ [0, 0x10, 0, 0, 0, 0, 0, 0] ++ List.replicate 8 0

/-- A segment at `0x1000` with the byte 1 and another with the byte 2. -/
def twoSegmentBytes (vaddr : List UInt8) : List UInt8 :=
  [0x7f, 0x45, 0x4c, 0x46] ++ List.replicate 28 0 ++ [64] ++ List.replicate 23 0 ++ [2] ++
    List.replicate 7 0 ++ pageHdrBytes 176 [0, 0x10, 0, 0, 0, 0, 0, 0] ++
    pageHdrBytes 177 vaddr ++ [1, 2]

/-- A file with two segments. -/
def twoSegments (vaddr : List UInt8) : ExecFile where
  openErr := .ok
  read ofs count := ((twoSegmentBytes vaddr).drop ofs).take count
  read_le _ count := List.length_take_le count _

theorem twoSegments_bytes {vaddr : List UInt8} (h : vaddr.length = 8) :
    (twoSegments vaddr).HasBytes (twoSegmentBytes vaddr) := by
  refine ⟨?_, fun _ _ => List.prefix_rfl⟩
  simp only [twoSegmentBytes, pageHdrBytes, List.length_append, List.length_replicate,
    List.length_cons, List.length_nil, h]
  decide

/-- The segment that a header of `pageHdrBytes` describes. -/
def pageSegment (off vaddr : ℕ) : ProgHdr := ⟨ptLoad, 2, off, vaddr, 1, pgSize⟩

theorem pageSegment_has {off vaddr v : ℕ} (h : pgSize ∣ vaddr) :
    (pageSegment off vaddr).Has v ↔ vaddr ≤ v ∧ v < vaddr + pgSize := by
  rw [pgSize] at h
  simp only [pageSegment, ProgHdr.Has, pgRoundDown, pgRoundUp, pgSize]
  omega

theorem pageSegment_apart {off off' v w : ℕ} (hv : pgSize ∣ v) (hw : pgSize ∣ w)
    (h : v + pgSize ≤ w) : [pageSegment off v, pageSegment off' w].Pairwise ProgHdr.Apart := by
  refine List.pairwise_pair.mpr fun x hx => ?_
  rw [pageSegment_has hv, pageSegment_has hw] at hx
  omega

/-- The second segment is at `0x3000`. -/
def nearSegments : ExecFile := twoSegments [0, 0x30, 0, 0, 0, 0, 0, 0]

theorem nearSegments_loadable :
    nearSegments.loadable = [pageSegment 176 0x1000, pageSegment 177 0x3000] := by
  decide +kernel

/-- The second segment is at `0x1000000001000`, which is the page of the first in the next 2^48
bytes. -/
def aliasSegments : ExecFile := twoSegments [0, 0x10, 0, 0, 0, 0, 1, 0]

theorem aliasSegments_loadable :
    aliasSegments.loadable = [pageSegment 176 0x1000, pageSegment 177 0x1000000001000] := by
  decide +kernel

theorem kernelOnly_solo : Solo Set.univ kernelOnly.vm (kernelOnly.space kas).vpmap := by
  refine ⟨kernelOnly_separate.ready, ?_, fun π ρ f _ _ h1 h2 => kernelMem_unique h1 h2⟩
  rintro f ⟨π, -, hf⟩
  exact kernelMem_used hf

/-- The file with segments at `0x1000` and `0x3000`. -/
theorem nearSegments_image : ∃ s', procLoad nearSegments 1 lowSpace = .ok (.ok 0, s') ∧
    IsImage nearSegments (twoSegmentBytes [0, 0x30, 0, 0, 0, 0, 0, 0]) 1 0 s' := by
  have hload : procLoad nearSegments 1 lowSpace =
      .ok (.ok 0, (procLoad nearSegments 1).final lowSpace) :=
    Prog.run_of_result (by decide +kernel)
  have hb : nearSegments.HasBytes (twoSegmentBytes [0, 0x30, 0, 0, 0, 0, 0, 0]) :=
      twoSegments_bytes rfl
  have happ : nearSegments.loadable.Pairwise ProgHdr.Apart := by
    rw [nearSegments_loadable]
    exact pageSegment_apart (by decide) (by decide) (by decide)
  refine ⟨_, hload, (procLoad_image_iff kernelOnly_solo ⟨by decide, by decide⟩
    (by decide : (1 : ℕ) ≠ kas) lowSpace_ready.1 hb happ hload).mpr ?_⟩
  rw [nearSegments_loadable]
  have hcan : ∀ off vaddr, pgSize ∣ vaddr → vaddr + pgSize ≤ 2 ^ 47 →
      (pageSegment off vaddr).IsCanonical :=
    fun off vaddr hd hle v hv => Or.inl (((pageSegment_has hd).mp hv).2.trans_le hle)
  exact List.forall_mem_cons.mpr ⟨hcan _ _ (by decide) (by decide), List.forall_mem_singleton.mpr
    (hcan _ _ (by decide) (by decide))⟩

/-- The segments at `0x1000` and `0x1000000001000` have no page in common.  They are loaded without
an error, and the first byte of the first segment is that of the second. -/
theorem aliasSegments_no_image : asInit 1 true kernelOnly = .ok (.ok, lowSpace) ∧
    aliasSegments.HasBytes (twoSegmentBytes [0, 0x10, 0, 0, 0, 0, 1, 0]) ∧
    aliasSegments.loadable.Pairwise ProgHdr.Apart ∧ ∃ s',
      procLoad aliasSegments 1 lowSpace = .ok (.ok 0, s') ∧
      userByte s'.vm (s'.space 1).vpmap 0x1000 = some 2 ∧
      ¬ IsImage aliasSegments (twoSegmentBytes [0, 0x10, 0, 0, 0, 0, 1, 0]) 1 0 s' := by
  have hbyte : userByte ((procLoad aliasSegments 1).final lowSpace).vm
      (((procLoad aliasSegments 1).final lowSpace).space 1).vpmap 0x1000 =
      some 2 := by decide +kernel
  refine ⟨lowSpace_ready.1, twoSegments_bytes rfl, ?_, _,
    Prog.run_of_result (by decide +kernel), hbyte, fun I => ?_⟩
  · rw [aliasSegments_loadable]
    exact pageSegment_apart (by decide) (by decide) (by decide)
  · have := I.bytes (pageSegment 176 0x1000)
        (by rw [aliasSegments_loadable]; exact List.mem_cons_self)
      0x1000 ((pageSegment_has (by decide)).mpr (by decide))
    rw [hbyte] at this
    revert this
    decide +kernel

end Osv
