import Osv.Fs.GetBlock

/-!
# Loops over a directory

`wp_dirScan` is what the four loops over a directory have in common: the loop ends at
the first entry that answers the test, or after the last one, or when a block cannot
be had, and the view of the file system is the same up to there.
-/

namespace Osv

open Prog (wp wp_bind)

/-- Entry `m` of a directory. -/
def File.dirent (f : File) (m : ℕ) : Dirent := direntAt f.data (sizeofDirent * m)

variable {sb : SbInfo} {w : View} {A : ℕ → Bool} {p : Blk → ℕ} {L : ℕ}
variable {d d₀ : Data} {c : Ctl} {v : Dev} {E : Trap → Prop} {i : Inum} {alloc : Bool}

theorem direntAt_congr {m m' : Bytes} {o o' : ℕ} (h : ∀ k < sizeofDirent, m (o + k) = m' (o' + k)) :
    direntAt m o = direntAt m' o' := by
  rw [direntAt, direntAt, Dirent.mk.injEq]
  refine ⟨Bytes.le_congr fun k hk => h k (by unfold sizeofDirent; omega), ?_⟩
  refine List.map_congr_left fun k hk => ?_
  rw [List.mem_range] at hk
  have := h (4 + k) (by unfold sfsDirentNamelen at hk; unfold sizeofDirent; omega)
  rwa [← Nat.add_assoc, ← Nat.add_assoc] at this

theorem dirent_div (m : ℕ) : sizeofDirent * m / bdevBlkSize = m / 16 := by
  unfold sizeofDirent bdevBlkSize
  omega

theorem dirent_mod (m : ℕ) : sizeofDirent * m % bdevBlkSize = sizeofDirent * (m % 16) := by
  unfold sizeofDirent bdevBlkSize
  omega

theorem FsRep.data_eq (hr : FsRep sb w d) (hu : w.used i) {k o : ℕ} (hb : (d.vol sb).ptr i k ≠ 0)
    (ho : o < bdevBlkSize) :
    (w.file i).data (k * bdevBlkSize + o) = d.buf ((d.vol sb).ptr i k) o := by
  have hdiv : (k * bdevBlkSize + o) / bdevBlkSize = k := by
    rw [Nat.mul_comm, Nat.mul_add_div (by decide), Nat.div_eq_of_lt ho, Nat.add_zero]
  have hmod : (k * bdevBlkSize + o) % bdevBlkSize = o := by
    rw [Nat.mul_comm, Nat.mul_add_mod, Nat.mod_eq_of_lt ho]
  rw [← hr.file i hu]
  show (d.vol sb).data i _ = _
  rw [Vol.data, hdiv, hmod, if_neg hb]
  rfl

variable {m : ℕ}

theorem FsRep.dirent_eq (hr : FsRep sb w d) (hu : w.used i) (hb : (d.vol sb).ptr i (m / 16) ≠ 0) :
    direntAt (d.buf ((d.vol sb).ptr i (m / 16))) (sizeofDirent * m % bdevBlkSize) =
      (w.file i).dirent m := by
  refine direntAt_congr fun k hk => ?_
  have ho : sizeofDirent * m % bdevBlkSize + k < bdevBlkSize := by
    rw [dirent_mod]
    unfold sizeofDirent bdevBlkSize at *
    omega
  rw [← hr.data_eq hu hb ho]
  congr 1
  rw [dirent_mod]
  unfold sizeofDirent bdevBlkSize
  omega

theorem FsRep.size_le (hr : FsRep sb w d) (hu : w.used i) (hf : w.filled i) :
    (w.file i).size ≤ sfsMaxFileSize := by
  by_contra hgt
  have := hr.filled i hf hu sfsMaxBlks (.inl (Nat.not_le.mp hgt))
  exact this (if_neg (Nat.lt_irrefl _))

/-! ## The loop -/

/-- The state during a loop: the view is the same.  Nothing changed at all if no block is to be
allocated, or if the directory has its blocks and the loop has not gone past them (`g`).  At most 6
blocks are logged then. -/
structure Scanned (sb : SbInfo) (w : View) (A : ℕ → Bool) (p : Blk → ℕ) (L : ℕ)
    (E : Trap → Prop) (i : Inum)
    (alloc g : Bool) (d₀ : Data) (h : List Blk) (d : Data) (c : Ctl) : Prop where
  rep : FsRep sb w d
  same : alloc = false ∨ (w.filled i ∧ g = false) → d = d₀
  ctl : ∃ L', c.At E A p h L' ∧ (E journalFull ∨ L' ≤ L + if g then 6 else 0) ∧
    (alloc = false → L' ≤ L)

variable {h : List Blk}

theorem Scanned.release {g : Bool} {b : Blk} {Q : Unit → Fs → Prop}
    (hs : Scanned sb w A p L E i alloc g d₀ (b :: h) d c)
    (hQ : ∀ c', Scanned sb w A p L E i alloc g d₀ h d c' → Q () ⟨d, c', v⟩) :
    wp (bdevReleaseBlk b) Q E ⟨d, c, v⟩ := by
  obtain ⟨L', hc, hL⟩ := hs.ctl
  exact wp_release_head hc fun c' hc' => hQ c' ⟨hs.rep, hs.same, L', hc', hL⟩

theorem Scanned.room {g : Bool} (hs : Scanned sb w A p L E i alloc g d₀ h d c) :
    ∃ L', c.At E A p h L' ∧ (E journalFull ∨ L' ≤ L + 6) := by
  obtain ⟨L', hc, hL, _⟩ := hs.ctl
  refine ⟨L', hc, hL.imp_right fun h => h.trans ?_⟩
  cases g <;> simp

theorem Scanned.got {g : Bool} {d' : Data} {c' : Ctl} {L' : ℕ}
    (hs : Scanned sb w A p L E i alloc false d₀ [] d c) (hi : w.used i)
    (hL' : E journalFull ∨ L' ≤ L) (ha' : alloc = false → L' ≤ L)
    (hg : BlkGot E sb w A p L' i (m / 16) alloc d h d' c')
    (hfill : alloc = true → E journalFull ∨ w.filled i)
    (hgrow : g = false → sizeofDirent * m < (w.file i).size) :
    Scanned sb w A p L E i alloc g d₀ h d' c' := by
  have hptr : w.filled i → g = false → (d.vol sb).ptr i (m / 16) ≠ 0 := fun hf hg0 =>
    hs.rep.filled i hf hi _ <| .inl (by
      have := hgrow hg0
      unfold sizeofDirent bdevBlkSize at *
      omega)
  refine ⟨hg.rep, fun hsame => ?_, ?_⟩
  · rcases hsame with ha | ⟨hf, hg0⟩
    · exact (hg.same (.inl ha)).1.trans (hs.same (.inl ha))
    · exact (hg.same (.inr (hptr hf hg0))).1.trans (hs.same (.inr ⟨hf, rfl⟩))
  · by_cases ha : alloc = false
    · exact ⟨L', (hg.same (.inl ha)).2, .inr ((ha' ha).trans (Nat.le_add_right ..)), fun _ =>
        ha' ha⟩
    rcases hfill (Bool.eq_true_of_not_eq_false ha) with hE | hfill
    · exact ⟨L' + 6, hg.ctl, .inl hE, fun h => absurd h ha⟩
    rcases hL' with hE | hL'
    · exact ⟨L' + 6, hg.ctl, .inl hE, fun h => absurd h ha⟩
    cases g with
    | false => exact ⟨L', (hg.same (.inr (hptr hfill rfl))).2, .inr hL', fun h => absurd h ha⟩
    | true => exact ⟨L' + 6, hg.ctl, .inr (Nat.add_le_add_right hL' 6), fun h => absurd h ha⟩

/-- Why a loop over a directory ends early. -/
def ScanFails (sb : SbInfo) (w : View) (A : ℕ → Bool) (i : Inum) (alloc : Bool)
    (d : Data) (e : Err) : Prop :=
  NoBlk sb A alloc d e ∨ (e = .notExist ∧ alloc = false ∧ ¬ w.filled i)

section scan

variable {α : Type} {scan : DirScan α} {Q : α → Fs → Prop}
variable (hi : 0 < w.ref i) (hmax : scan.limit (w.file i).size ≤ sfsMaxFileSize)
variable (hcont : ∀ ofs de, ofs < scan.limit (w.file i).size →
    scan.test (w.file i).size ofs de = false →
  ofs < (w.file i).size)
variable (hsize : scan.alloc = false → scan.limit (w.file i).size ≤ (w.file i).size)
variable (hroom : scan.alloc = true → E journalFull ∨ (w.filled i ∧ L + 8 ≤ journalSize))
    (hdbl : Fails A → E lockNotHeld)
variable (hhit : ∀ m b g d' c', Scanned sb w A p L E i scan.alloc g d₀ [b] d' c' →
  (sizeofDirent * m < (w.file i).size ∨ m % 16 ≠ 0 → g = false) →
  sizeofDirent * m < scan.limit (w.file i).size →
  scan.test (w.file i).size (sizeofDirent * m) ((w.file i).dirent m) = true →
  (∀ j < m, scan.test (w.file i).size (sizeofDirent * j) ((w.file i).dirent j) = false) →
  (d'.vol sb).ptr i (m / 16) = b → b ≠ 0 →
  wp (scan.hit b (sizeofDirent * m) ((w.file i).dirent m)) Q E ⟨d', c', v⟩)
variable (hfail : ∀ e g d' c', Scanned sb w A p L E i scan.alloc g d₀ [] d' c' →
  ScanFails sb w A i scan.alloc d' e → wp (scan.fail e) Q E ⟨d', c', v⟩)
variable (hdone : ∀ d' c', Scanned sb w A p L E i scan.alloc false d₀ [] d' c' →
  (∀ j, sizeofDirent * j < scan.limit (w.file i).size →
    scan.test (w.file i).size (sizeofDirent * j) ((w.file i).dirent j) = false) →
  wp scan.done Q E ⟨d', c', v⟩)

/-- The buffer that the loop has, before entry `m`. -/
def Cursor (sb : SbInfo) (i : Inum) (m : ℕ) (d : Data) : Option Blk → Prop
  | none => m = 0
  | some b => 0 < m ∧ (d.vol sb).ptr i ((m - 1) / 16) = b ∧ b ≠ 0

include hi hroom hdbl in
theorem wp_dirBlock {bh : Option Blk} {R : Except Err Blk → Fs → Prop}
    (hm : sizeofDirent * m < sfsMaxFileSize)
    (hsize : scan.alloc = false → sizeofDirent * m < (w.file i).size) (hcur : Cursor sb i m d bh)
    (hs : Scanned sb w A p L E i scan.alloc false d₀ bh.toList d c)
    (hok : ∀ b g d' c', Scanned sb w A p L E i scan.alloc g d₀ [b] d' c' →
      (sizeofDirent * m < (w.file i).size ∨ m % 16 ≠ 0 → g = false) →
      (d'.vol sb).ptr i (m / 16) = b → b ≠ 0 → R (.ok b) ⟨d', c', v⟩)
    (herr : ∀ e g d' c', Scanned sb w A p L E i scan.alloc g d₀ [] d' c' →
      ScanFails sb w A i scan.alloc d' e → R (.error e) ⟨d', c', v⟩) :
    wp (dirBlock sb i scan.alloc (sizeofDirent * m) bh) R E ⟨d, c, v⟩ := by
  unfold dirBlock
  by_cases h16 : sizeofDirent * m % bdevBlkSize = 0
  · rw [if_pos h16]
    have hget : ∀ c', Scanned sb w A p L E i scan.alloc false d₀ [] d c' →
        wp (getDataBlock sb i (sizeofDirent * m) scan.alloc) R E ⟨d, c', v⟩ := fun c' hs' => by
      obtain ⟨L', hc', hL', ha'⟩ := hs'.ctl
      replace hL' : E journalFull ∨ L' ≤ L := hL'
      have hu := hs'.rep.used_of_ref hi
      have hfill : scan.alloc = true → E journalFull ∨ w.filled i := fun ha =>
          (hroom ha).imp_right And.left
      have hroom' : scan.alloc = true → Room (L' + 6) E := fun ha => by
        rcases hroom ha with hE | ⟨_, hL⟩
        · exact .inr hE
        · rcases hL' with hE | hL'
          · exact .inr hE
          · exact .inl (by omega)
      refine wp_getDataBlock hs'.rep hi hm hc' (fun ha _ => hroom' ha) hdbl
        (fun b d' c1 hg hp hb => ?_) (fun e d' c1 hg he => ?_)
      · rw [dirent_div] at hg hp
        by_cases hlt : sizeofDirent * m < (w.file i).size
        · exact hok b false d' c1 (hs'.got hu hL' ha' hg hfill fun _ => hlt) (fun _ => rfl) hp hb
        · have hm16 : m % 16 = 0 := by
            unfold sizeofDirent bdevBlkSize at h16
            omega
          exact hok b true d' c1 (hs'.got hu hL' ha' hg hfill fun h => by cases h)
            (fun h => absurd hm16 (h.resolve_left hlt)) hp hb
      · rw [dirent_div] at hg he
        refine herr e true d' c1 (hs'.got hu hL' ha' hg hfill fun h => by cases h) ?_
        rcases he with he | ⟨rfl, ha, hp0⟩
        · exact .inl he.noBlk
        · refine .inr ⟨rfl, ha, fun hf => ?_⟩
          have hlt := hsize ha
          exact hs'.rep.filled i hf hu (m / 16) (.inl (by
            unfold sizeofDirent bdevBlkSize at *
            omega)) hp0
    cases bh with
    | none => exact hget c hs
    | some b =>
      show wp (bdevReleaseBlk b >>= _) R E _
      rw [wp_bind]
      exact hs.release hget
  · rw [if_neg h16]
    cases bh with
    | none =>
      have h0 : m = 0 := hcur
      rw [h0] at h16
      exact absurd rfl h16
    | some b =>
      obtain ⟨hpos, hp, hb⟩ := hcur
      have hsame : (m - 1) / 16 = m / 16 := by
        unfold sizeofDirent bdevBlkSize at h16
        omega
      exact hok b false d c hs (fun _ => rfl) (hsame ▸ hp) hb

include hi hmax hcont hsize hroom hdbl hhit hfail hdone in
theorem wp_dirLoop : ∀ {r m : ℕ} {q : Option Blk} {d : Data} {c : Ctl},
    r + m = sfsMaxFileSize / sizeofDirent + 1 → m ≤ sfsMaxFileSize / sizeofDirent →
    Cursor sb i m d q → Scanned sb w A p L E i scan.alloc false d₀ q.toList d c →
    (∀ j < m, scan.test (w.file i).size (sizeofDirent * j) ((w.file i).dirent j) = false) →
    wp (dirLoop sb i scan r (sizeofDirent * m) q) Q E ⟨d, c, v⟩
  | 0, m, q, d, c, hr, hm, _, _, _ => by omega
  | r + 1, m, q, d, c, hr, hm, hcur, hs, hbefore => by
    obtain ⟨n, hn, hcached⟩ := hs.rep.cached_of_ref hi
    have hsz : n.size = (w.file i).size := (hs.rep.file_size hn).symm
    rw [dirLoop, wp_bind]
    refine wp_inode hn ?_
    rw [hsz]
    by_cases hlim : sizeofDirent * m < scan.limit (w.file i).size
    · rw [if_pos hlim, wp_bind]
      refine wp_dirBlock hi hroom hdbl (hlim.trans_le hmax) (fun ha => hlim.trans_le (hsize ha))
        hcur hs
        (fun b g d' c' hs' hg hp hb => ?_) (fun e g d' c' hs' he => hfail e g d' c' hs' he)
      show wp (Prog.read >>= _) Q E _
      rw [wp_bind, Prog.wp_read]
      have hde : direntAt (d'.buf b) (sizeofDirent * m % bdevBlkSize) = (w.file i).dirent m := by
        subst hp
        exact hs'.rep.dirent_eq hcached.used hb
      simp only [hde]
      cases htest : scan.test (w.file i).size (sizeofDirent * m) ((w.file i).dirent m) with
      | true =>
        rw [if_pos rfl]
        exact hhit m b g d' c' hs' hg hlim htest hbefore hp hb
      | false =>
        rw [if_neg (by decide)]
        have hlt : sizeofDirent * m < (w.file i).size := hcont _ _ hlim htest
        have hm1 : m + 1 ≤ sfsMaxFileSize / sizeofDirent := by
          have := hlim.trans_le hmax
          have hmax' : sfsMaxFileSize = 137216 := rfl
          unfold sizeofDirent at *
          omega
        have hnext := wp_dirLoop (r := r) (m := m + 1) (q := some b) (d := d')
            (c := c') (by omega) hm1
          ⟨Nat.succ_pos m, by simpa using hp, hb⟩ (hg (.inl hlt) ▸ hs') (fun j hj => by
            rcases Nat.lt_succ_iff_lt_or_eq.mp hj with hj | rfl
            · exact hbefore j hj
            · exact htest)
        exact hnext
    · rw [if_neg hlim]
      have hall : ∀ j, sizeofDirent * j < scan.limit (w.file i).size →
          scan.test (w.file i).size (sizeofDirent * j) ((w.file i).dirent j) =
          false := fun j hj => by
        refine hbefore j ?_
        unfold sizeofDirent at *
        omega
      cases q with
      | none => exact hdone d c hs hall
      | some b =>
        show wp (bdevReleaseBlk b >>= _) Q E _
        rw [wp_bind]
        exact hs.release fun c' hs' => hdone d c' hs' hall

include hi hmax hcont hsize hroom hdbl hhit hfail hdone in
theorem wp_dirScan (hr : FsRep sb w d₀) (hc : c.At E A p [] L) :
    wp (dirScan sb i scan) Q E ⟨d₀, c, v⟩ := by
  have hstart : Scanned sb w A p L E i scan.alloc false d₀ (none : Option Blk).toList d₀ c :=
    ⟨hr, fun _ => rfl, L, hc, .inr le_rfl, fun _ => le_rfl⟩
  exact wp_dirLoop hi hmax hcont hsize hroom hdbl hhit hfail hdone (m := 0)
    (q := none) rfl (Nat.zero_le _)
    rfl hstart fun j hj => absurd hj (Nat.not_lt_zero j)

end scan

/-! ## The loops that only look -/

/-- Entry `m` is the first one of a name. -/
structure File.Finds (f : File) (name : List UInt8) (m : ℕ) : Prop where
  lt : sizeofDirent * m < f.size
  isName : (f.dirent m).isName name = true
  first : ∀ j < m, (f.dirent j).isName name = false

theorem File.Finds.inum_pos {f : File} {name : List UInt8} (h : f.Finds name m) :
    0 < (f.dirent m).inum :=
  (of_decide_eq_true h.isName).1

/-- No entry has the name. -/
def File.Lacks (f : File) (name : List UInt8) : Prop :=
  ∀ j, sizeofDirent * j < f.size → (f.dirent j).isName name = false

section look

variable {name : List UInt8} (hr : FsRep sb w d) (hi : 0 < w.ref i)
variable (hmax : (w.file i).size ≤ sfsMaxFileSize) (hdbl : Fails A → E lockNotHeld)
    (hc : c.At E A p [] L)

include hr hi hmax hdbl hc in
theorem wp_searchDir {Q : Inum → Fs → Prop}
    (hfound : ∀ m c', (w.file i).Finds name m → c'.At E A p [] L →
    Q ((w.file i).dirent m).inum ⟨d, c', v⟩)
    (hnone : ∀ c', (w.file i).Lacks name → c'.At E A p [] L → Q 0 ⟨d, c', v⟩)
    (hfail : ∀ c', Fails A ∨ ¬ w.filled i → c'.At E A p [] L → Q 0 ⟨d, c', v⟩) :
    wp (searchDir sb i name) Q E ⟨d, c, v⟩ := by
  refine wp_dirScan hi hmax (fun _ _ h _ => h) (fun _ => le_rfl) (fun ha => by cases ha) hdbl
    (fun m b g d' c' hs _ hm htest hbefore _ _ => ?_) (fun e g d' c' hs he => ?_)
    (fun d' c' hs hall => ?_) hr hc
  · obtain rfl := hs.same (.inl rfl)
    obtain ⟨L', hc', _, hL⟩ := hs.ctl
    show wp (bdevReleaseBlk b >>= _) Q E _
    rw [wp_bind]
    exact wp_release_head (hc'.mono (hL rfl)) fun c1 h1 => hfound m c1 ⟨hm, htest, hbefore⟩ h1
  · obtain rfl := hs.same (.inl rfl)
    obtain ⟨L', hc', _, hL⟩ := hs.ctl
    refine hfail c' ?_ (hc'.mono (hL rfl))
    rcases he with (⟨_, hA⟩ | ⟨_, ha, _⟩) | ⟨_, _, hf⟩
    · exact .inl hA
    · cases ha
    · exact .inr hf
  · obtain rfl := hs.same (.inl rfl)
    obtain ⟨L', hc', _, hL⟩ := hs.ctl
    exact hnone c' hall (hc'.mono (hL rfl))

end look

end Osv
