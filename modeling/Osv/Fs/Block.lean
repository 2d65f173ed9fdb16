import Mathlib.Data.Finset.Card
import Mathlib.Data.List.Count
import Osv.Fs.Sfs

/-!
# What the calls for buffers do

`Ctl.At E A p h L c` is what a thread knows of references and locks while it works on the file
system: it holds the locks `h`, each reference to a buffer is one of `p`, one of a lock or one of
the journal, and at most `L` blocks are logged.  `A` says which allocations of memory succeed, and
`E` how the run may stop: no page has only some of its headers, nor will have, or the run may stop
at one that has.  The rules here say for each call what becomes of `p`, `h` and `L`, so that the
proofs about the functions of the file system never look at `Ctl` itself.

Each rule is about `wp`, with the state given by its parts.  What the rest of the
run needs is asked for each outcome of the call.
-/

namespace Osv

open Function (update update_self update_of_ne)
open Prog (keeps_bind keeps_ite keeps_pure keeps_read wp wp_bind wp_read)

/-- The panic of `bdev_get_blk_unlocked`. -/
def blkNotFound : Trap := .panic "bdev block not found in page"

/-- Every page has all of its headers or none. -/
def Ctl.Unbroken (c : Ctl) : Prop := ∀ q, c.headers q = 0 ∨ c.headers q = nBlksPerPage

/-- Every page has all of its headers or none, and a call that fails has made none. -/
def Ctl.Untorn (A : ℕ → Bool) (c : Ctl) : Prop := c.Unbroken ∧ ∀ n, A n = false → c.made n = 0

/-- What a thread knows of references and locks. -/
structure Ctl.At (E : Trap → Prop) (A : ℕ → Bool) (p : Blk → ℕ) (h : List Blk) (L : ℕ) (c : Ctl) :
    Prop where
  avail : c.avail = A
  held : c.held = h
  busy : c.busy = true
  refs : ∀ b, c.ref b = p b + h.count b + c.logged.count b
  logged : c.logged.length ≤ L
  pages : c.Untorn A ∨ E blkNotFound

/-- Some allocation of memory fails. -/
def Fails (A : ℕ → Bool) : Prop := ∃ n, A n = false

/-- One more reference to a block. -/
def pin (p : Blk → ℕ) (b : Blk) : Blk → ℕ := update p b (p b + 1)

/-- The panic of `jbd_write_blk`. -/
def journalFull : Trap := .panic "JBD: journal is filled up"

/-- The journal has room for `n` blocks, or the run may end with the journal full. -/
def Room (n : ℕ) (E : Trap → Prop) : Prop := n ≤ journalSize ∨ E journalFull

theorem pin_self (p : Blk → ℕ) (b : Blk) : pin p b b = p b + 1 := update_self ..

theorem pin_of_ne (p : Blk → ℕ) {b b' : Blk} (h : b' ≠ b) : pin p b b' = p b' :=
  update_of_ne h ..

theorem pin_pos (p : Blk → ℕ) (b : Blk) : 0 < pin p b b := by
  rw [pin_self]
  exact Nat.succ_pos _

theorem Room.mono {m n : ℕ} {E : Trap → Prop} (h : Room n E) (hmn : m ≤ n) : Room m E :=
  h.imp_left hmn.trans

variable {A : ℕ → Bool} {p : Blk → ℕ} {h : List Blk} {L : ℕ} {d : Data} {c : Ctl} {v : Dev}
variable {E : Trap → Prop} {b : Blk}

theorem Ctl.Unbroken.untorn (hc : c.Unbroken) (hno : ¬ Fails A) : c.Untorn A :=
  ⟨hc, fun n hn => absurd ⟨n, hn⟩ hno⟩

theorem Ctl.At.weaken {E' : Trap → Prop} (hc : c.At E A p h L)
    (hE : E blkNotFound → E' blkNotFound) : c.At E' A p h L :=
  { hc with pages := hc.pages.imp_right hE }

theorem Ctl.At.mono {L' : ℕ} (hc : c.At E A p h L) (hL : L ≤ L') : c.At E A p h L' :=
  { hc with logged := hc.logged.trans hL }

variable {Q : Unit → Fs → Prop}

@[simp] theorem wp_modifyData {f : Data → Data} :
    wp (modifyData f) Q E ⟨d, c, v⟩ ↔ Q () ⟨f d, c, v⟩ := Iff.rfl

@[simp] theorem wp_modifyCtl {f : Ctl → Ctl} : wp (modifyCtl f) Q E ⟨d, c, v⟩ ↔ Q () ⟨d, f c, v⟩ :=
  Iff.rfl

/-! ## References and locks -/

theorem wp_memAlloc {Q : Bool → Fs → Prop} (hc : c.At E A p h L)
    (ht : ∀ c', c'.At E A p h L → Q true ⟨d, c', v⟩)
    (hf : Fails A → ∀ c', c'.At E A p h L → Q false ⟨d, c', v⟩) : wp memAlloc Q E ⟨d, c, v⟩ := by
  have hc' : Ctl.At E A p h L { c with tick := c.tick + 1 } := { hc with }
  show Q (c.avail c.tick) ⟨d, { c with tick := c.tick + 1 }, v⟩
  cases ha : c.avail c.tick with
  | true => exact ht _ hc'
  | false => exact hf ⟨c.tick, hc.avail ▸ ha⟩ _ hc'

theorem Ctl.At.setHeaders {n : ℕ} (hc : c.At E A p h L) (q : ℕ)
    (hn : c.Untorn A → n = 0 ∨ n = nBlksPerPage) :
    Ctl.At E A p h L { c with headers := update c.headers q n } where
  __ := hc
  pages := by
    refine hc.pages.imp_left fun hu => ⟨fun q' => ?_, hu.2⟩
    by_cases hq : q' = q
    · subst hq
      simpa using hn hu
    · simpa [hq] using hu.1 q'

/-- Only headers are freed, and those of a page together. -/
theorem Ctl.freeBlkHeaders_cases (c : Ctl) (q : ℕ) :
    c.freeBlkHeaders q = c ∨ c.freeBlkHeaders q = { c with headers := update c.headers q 0 } := by
  unfold Ctl.freeBlkHeaders
  split
  · exact .inl rfl
  · exact .inr rfl

theorem Ctl.At.freeBlkHeaders (hc : c.At E A p h L) (q : ℕ) :
    (c.freeBlkHeaders q).At E A p h L := by
  rcases c.freeBlkHeaders_cases q with he | he <;> rw [he]
  · exact hc
  · exact hc.setHeaders q fun _ => .inl rfl

theorem Ctl.At.pin (hc : c.At E A p h L) (b : Blk) :
    Ctl.At E A (pin p b) h L { c with ref := update c.ref b (c.ref b + 1) } :=
  { hc with
    refs := fun b' => by
      have := hc.refs b'
      by_cases hb : b' = b
      · subst hb
        simp only [update_self, pin_self]
        omega
      · simp only [update_of_ne hb, pin_of_ne p hb]
        exact this }

theorem wp_bdevGetBlkUnlocked {Q : Bool → Fs → Prop} (hc : c.At E A p h L)
    (ht : ∀ c', c'.At E A (pin p b) h L → Q true ⟨d, c', v⟩)
    (hf : p b = 0 → Fails A → ∀ c', c'.At E A p h L → Q false ⟨d, c', v⟩) :
    wp (bdevGetBlkUnlocked b) Q E ⟨d, c, v⟩ := by
  rw [bdevGetBlkUnlocked, wp_bind, wp_read]
  by_cases hr : c.HasHeader b
  · rw [if_pos hr]
    exact ht _ (hc.pin b)
  rw [if_neg hr]
  obtain ⟨href, hno⟩ := not_or.mp hr
  by_cases h0 : c.headers (b / nBlksPerPage) ≠ 0
  · rw [if_pos h0]
    refine hc.pages.elim (fun hu => absurd ?_ hno) id
    rw [(hu.1 _).resolve_left h0]
    exact Nat.mod_lt _ (by decide)
  · rw [if_neg h0, wp_bind]
    have hp : p b = 0 := by
      have := hc.refs b
      omega
    have hc' : Ctl.At E A p h L { c with tick := c.tick + 1 } := { hc with }
    show wp (if c.avail c.tick then _ else _) Q E ⟨d, { c with tick := c.tick + 1 }, v⟩
    cases ha : c.avail c.tick with
    | true => exact ht _ ((hc'.setHeaders _ fun _ => .inr rfl).pin b)
    | false =>
      refine hf hp ⟨c.tick, hc.avail ▸ ha⟩ _ (hc'.setHeaders _ fun hu => .inl ?_)
      show min (c.made c.tick) _ = 0
      rw [hu.2 c.tick (hc.avail ▸ ha), Nat.zero_min]

theorem wp_bdevReleaseBlkUnlocked (hc : c.At E A (pin p b) h L)
    (hQ : ∀ c', c'.At E A p h L → Q () ⟨d, c', v⟩) :
    wp (bdevReleaseBlkUnlocked b) Q E ⟨d, c, v⟩ := by
  have hr := hc.refs b
  rw [pin_self] at hr
  rw [bdevReleaseBlkUnlocked, wp_bind, wp_kassert]
  refine ⟨fun _ => hQ _ (Ctl.At.freeBlkHeaders ?_ _), fun hn => ?_⟩
  · exact
      { hc with
        refs := fun b' => by
          by_cases hb : b' = b
          · subst hb
            simp only [update_self]
            omega
          · have := hc.refs b'
            rw [pin_of_ne p hb] at this
            simp only [update_of_ne hb]
            exact this }
  · have hpos : 0 < c.ref b := by omega
    simp [hpos] at hn

theorem wp_blkLock (hb : b ∉ h) (hc : c.At E A (pin p b) h L)
    (hQ : ∀ c', c'.At E A p (b :: h) L → Q () ⟨d, c', v⟩) : wp (blkLock b) Q E ⟨d, c, v⟩ := by
  rw [blkLock, wp_bind, wp_read, if_neg (hc.held ▸ hb), wp_modifyCtl]
  refine hQ _ { hc with held := by rw [hc.held], refs := fun b' => ?_ }
  have := hc.refs b'
  by_cases hbb : b' = b
  · subst hbb
    rw [pin_self] at this
    rw [List.count_cons_self]
    show c.ref b' = _ + List.count b' c.logged
    omega
  · rw [pin_of_ne p hbb] at this
    rw [List.count_cons_of_ne (Ne.symm hbb)]
    exact this

theorem wp_bdevGetBlk {Q : Bool → Fs → Prop} (hb : b ∉ h) (hc : c.At E A p h L)
    (ht : ∀ c', c'.At E A p (b :: h) L → Q true ⟨d, c', v⟩)
    (hf : p b = 0 → Fails A → ∀ c', c'.At E A p h L → Q false ⟨d, c', v⟩) :
    wp (bdevGetBlk b) Q E ⟨d, c, v⟩ := by
  rw [bdevGetBlk, wp_bind]
  refine wp_bdevGetBlkUnlocked hc (fun c' hc' => ?_) (fun hp hA c' hc' => hf hp hA c' hc')
  rw [if_pos rfl, wp_bind]
  exact wp_blkLock hb hc' ht

theorem wp_bdevReleaseBlk (hb : b ∈ h) (hc : c.At E A p h L)
    (hQ : ∀ c', c'.At E A p (h.erase b) L → Q () ⟨d, c', v⟩) :
    wp (bdevReleaseBlk b) Q E ⟨d, c, v⟩ := by
  rw [bdevReleaseBlk, blkUnlock, wp_bind, wp_kassert_bind (by simp [hc.held, hb]), wp_modifyCtl]
  have hc' : Ctl.At E A (pin p b) (h.erase b) L { c with held := c.held.erase b } :=
    { hc with
      held := by rw [hc.held]
      refs := fun b' => by
        have := hc.refs b'
        by_cases hbb : b' = b
        · subst hbb
          have hcount : 0 < h.count b' := List.count_pos_iff.mpr hb
          rw [pin_self, List.count_erase_self]
          show c.ref b' = _ + List.count b' c.logged
          omega
        · rw [pin_of_ne p hbb, List.count_erase_of_ne hbb]
          exact this }
  exact wp_bdevReleaseBlkUnlocked hc' hQ

theorem wp_release_head (hc : c.At E A p (b :: h) L)
    (hQ : ∀ c', c'.At E A p h L → Q () ⟨d, c', v⟩) : wp (bdevReleaseBlk b) Q E ⟨d, c, v⟩ := by
  refine wp_bdevReleaseBlk (List.mem_cons_self ..) hc fun c' hc' => hQ c' ?_
  rwa [List.erase_cons_head] at hc'

/-! ## The journal -/

theorem Ctl.At.log {L' : ℕ} (hc : c.At E A p h L) (b : Blk) (hL : c.logged.length + 1 ≤ L') :
    Ctl.At E A p h L' { c with ref := update c.ref b (c.ref b + 1), logged := c.logged ++ [b] }
      where
  __ := hc
  refs b' := by
    have := hc.refs b'
    show update c.ref b (c.ref b + 1) b' = _ + List.count b' (c.logged ++ [b])
    rw [List.count_append]
    by_cases hbb : b' = b
    · subst hbb
      rw [update_self, List.count_singleton_self]
      omega
    · rw [update_of_ne hbb, List.count_singleton, beq_false_of_ne (Ne.symm hbb)]
      exact this
  logged := by
    rw [List.length_append]
    exact hL

theorem wp_jbdWriteBlk (hc : c.At E A p h L) (hE : Room (L + 1) E)
    (hQ : ∀ c', c'.At E A p h (L + 1) → Q () ⟨d, c', v⟩) : wp (jbdWriteBlk b) Q E ⟨d, c, v⟩ := by
  rw [jbdWriteBlk, wp_kassert_bind (by simp [hc.busy]), wp_bind, wp_read]
  by_cases hb : b ∈ c.logged
  · rw [if_pos hb]
    exact hQ c (hc.mono (Nat.le_succ L))
  · rw [if_neg hb, jbdLog, wp_bind, wp_read]
    by_cases hfull : journalSize ≤ c.logged.length
    · rw [if_pos hfull]
      rcases hE with hroom | hE
      · have := hc.logged
        omega
      · exact hE
    · rw [if_neg hfull]
      exact hQ _ (hc.log b (Nat.succ_le_succ hc.logged))

theorem wp_logBlk (hc : c.At E A p h L) (hE : Room (L + 1) E)
    (hQ : ∀ c', c'.At E A p h (L + 1) → Q () ⟨d, c', v⟩) : wp (logBlk b) Q E ⟨d, c, v⟩ := by
  have hc' : Ctl.At E A p h L { c with pageDirty := update c.pageDirty (b / nBlksPerPage) true } :=
      { hc with }
  rw [logBlk, wp_bind]
  exact wp_jbdWriteBlk hc' hE hQ

theorem wp_logWrite {f : Bytes → Bytes} (hc : c.At E A p h L) (hE : Room (L + 1) E)
    (hQ : ∀ c', c'.At E A p h (L + 1) → Q () ⟨d.setBuf b (f (d.buf b)), c', v⟩) :
    wp (logWrite b f) Q E ⟨d, c, v⟩ := by
  rw [logWrite, wp_bind]
  exact wp_logBlk hc hE hQ

/-! ## Bitmaps -/

theorem firstClear_some {m : Bytes} {n i : ℕ} (hi : firstClear m n = some i) :
    i < n ∧ m.bit i = false := by
  have hbit := List.find?_some hi
  have hmem := List.mem_of_find?_eq_some hi
  exact ⟨List.mem_range.mp hmem, by simpa using hbit⟩

theorem firstClear_none {m : Bytes} {n i : ℕ} (hn : firstClear m n = none) (hi : i < n) :
    m.bit i = true := by
  have := List.find?_eq_none.mp hn i (List.mem_range.mpr hi)
  simpa using this

theorem wp_bmapAllocElement {size : ℕ} {Q : Option ℕ → Fs → Prop} (hc : c.At E A p h L)
    (hE : Room (L + 1) E)
    (hsome : ∀ i < 8 * size, (d.buf b).bit i = false → ∀ c', c'.At E A p h (L + 1) →
      Q (some i) ⟨d.setBuf b ((d.buf b).setBit i), c', v⟩)
    (hnone : (∀ i < 8 * size, (d.buf b).bit i = true) → Q none ⟨d, c, v⟩) :
    wp (bmapAllocElement b size) Q E ⟨d, c, v⟩ := by
  rw [bmapAllocElement, wp_bind, wp_read]
  cases hf : firstClear (d.buf b) (8 * size) with
  | none => exact hnone fun i hi => firstClear_none hf hi
  | some i =>
    obtain ⟨hi, hbit⟩ := firstClear_some hf
    show wp (logWrite b _ >>= _) Q E _
    rw [wp_bind]
    exact wp_logWrite hc hE fun c' hc' => hsome i hi hbit c' hc'

theorem setBuf_setBuf (m m' : Bytes) : (d.setBuf b m).setBuf b m' = d.setBuf b m' := by
  simp [Data.setBuf]

theorem setBuf_buf_self (m : Bytes) : (d.setBuf b m).buf b = m := update_self ..

theorem setBuf_buf_of_ne {b' : Blk} (m : Bytes) (hb : b' ≠ b) : (d.setBuf b m).buf b' = d.buf b' :=
  update_of_ne hb ..

theorem setBuf_same : d.setBuf b (d.buf b) = d := by
  simp [Data.setBuf]

theorem wp_bmapFreeElement_set {i : ℕ} (hbit : (d.buf b).bit i = false) (hc : c.At E A p h L)
    (hE : Room (L + 1) E) (hQ : ∀ c', c'.At E A p h (L + 1) → Q () ⟨d, c', v⟩) :
    wp (bmapFreeElement b i) Q E ⟨d.setBuf b ((d.buf b).setBit i), c, v⟩ := by
  refine wp_logWrite hc hE fun c' hc' => ?_
  rw [setBuf_buf_self, setBuf_setBuf, Bytes.clearBit_setBit hbit, setBuf_same]
  exact hQ c' hc'

/-! ## Transactions on known blocks -/

/-- What a thread knows in a transaction whose blocks are among `S`, when those of `B` are logged
already. -/
structure Ctl.Txn (E : Trap → Prop) (A : ℕ → Bool) (p : Blk → ℕ) (h : List Blk) (B S : Finset Blk)
    (c : Ctl) : Prop extends
    Ctl.At E A p h S.card c where
  base : ∀ b ∈ B, b ∈ c.logged
  sub : ∀ b ∈ c.logged, b ∈ S
  nodup : c.logged.Nodup

variable {B S : Finset Blk}

theorem Ctl.Txn.start (hbusy : c.busy = true) (hheld : c.held = []) (hlog : c.logged = [])
    (hpages : c.Untorn c.avail ∨ E blkNotFound) : c.Txn E c.avail c.ref [] ∅ S where
  avail := rfl
  held := hheld
  busy := hbusy
  refs b := by simp [hlog]
  logged := by simp [hlog]
  pages := hpages
  base b hb := absurd hb (Finset.notMem_empty b)
  sub b hb := by simp [hlog] at hb
  nodup := by simp [hlog]

theorem Ctl.Txn.of_at {c' : Ctl} {p' : Blk → ℕ} {h' : List Blk} (hc : c.Txn E A p h B S)
    (hat : c'.At E A p' h' S.card) (hlog : c'.logged = c.logged) : c'.Txn E A p' h' B S where
  toAt := hat
  base b hb := hlog ▸ hc.base b hb
  sub b hb := hc.sub b (hlog ▸ hb)
  nodup := hlog ▸ hc.nodup

/-- What the calls for buffers and memory leave alone. -/
def Fs.rest (s : Fs) : Data × Dev × List Blk := (s.data, s.dev, s.ctl.logged)

theorem keeps_modifyCtl {f : Ctl → Ctl} (h : ∀ c, (f c).logged = c.logged) :
    Prog.Keeps Fs.rest (modifyCtl f) :=
  Prog.keeps_update fun s => by simp [Fs.rest, h]

theorem keeps_memAlloc : Prog.Keeps Fs.rest memAlloc :=
  keeps_bind keeps_read fun _ => keeps_bind (keeps_modifyCtl fun _ => rfl) fun _ => keeps_pure _

theorem keeps_bdevGetBlkUnlocked {τ : Type} {π : Fs → τ} (ha : Prog.Keeps π memAlloc)
    (hr : Prog.Keeps π (blkRef b)) (hh : ∀ n, Prog.Keeps π (setHeaders b n)) :
    Prog.Keeps π (bdevGetBlkUnlocked b) :=
  keeps_bind keeps_read fun _ => keeps_ite (keeps_bind hr fun _ => keeps_pure _) <|
    keeps_ite (Prog.keeps_trap _) <| keeps_bind ha fun _ => keeps_ite
      (keeps_bind (hh _) fun _ => keeps_bind hr fun _ => keeps_pure _)
      (keeps_bind (hh _) fun _ => keeps_pure _)

theorem keeps_blkLock (b : Blk) : Prog.Keeps Fs.rest (blkLock b) :=
  keeps_bind keeps_read fun _ =>
    keeps_ite (Prog.keeps_trap _) (keeps_modifyCtl fun _ => rfl)

theorem keeps_blkUnlock (b : Blk) : Prog.Keeps Fs.rest (blkUnlock b) :=
  keeps_bind (Prog.keeps_check _ _) fun _ => keeps_modifyCtl fun _ => rfl

theorem keeps_bdevGetBlk (b : Blk) : Prog.Keeps Fs.rest (bdevGetBlk b) :=
  keeps_bind (keeps_bdevGetBlkUnlocked keeps_memAlloc (keeps_modifyCtl fun _ => rfl)
    fun _ => keeps_modifyCtl fun _ => rfl) fun _ => keeps_ite
    (keeps_bind (keeps_blkLock b) fun _ => keeps_pure _) (keeps_pure _)

theorem keeps_bdevReleaseBlk (b : Blk) : Prog.Keeps Fs.rest (bdevReleaseBlk b) :=
  keeps_bind (keeps_blkUnlock b) fun _ =>
    keeps_bind (Prog.keeps_check _ _) fun _ => keeps_modifyCtl fun c => by
      rcases Ctl.freeBlkHeaders_cases { c with ref := update c.ref b (c.ref b - 1) }
        (b / nBlksPerPage) with he | he <;>
        rw [he]

theorem wp_bdevGetBlk_of_ref {Q : Bool → Fs → Prop} (hb : b ∉ h) (hc : c.At E A p h L)
    (hr : 0 < c.ref b) (ht : ∀ c', c'.At E A p (b :: h) L → Q true ⟨d, c', v⟩) :
    wp (bdevGetBlk b) Q E ⟨d, c, v⟩ := by
  rw [bdevGetBlk, wp_bind, bdevGetBlkUnlocked, wp_bind, wp_read, if_pos (.inl hr)]
  show wp (blkLock b >>= _) Q E _
  rw [wp_bind]
  exact wp_blkLock hb (hc.pin b) ht

theorem Ctl.Txn.wp_getBlk {Q : Bool → Fs → Prop} (hc : c.Txn E A p h B S) (hb : b ∉ h)
    (ht : ∀ c', c'.Txn E A p (b :: h) B S → Q true ⟨d, c', v⟩)
    (hf : p b = 0 → b ∉ B → Fails A → ∀ c', c'.Txn E A p h B S → Q false ⟨d, c', v⟩) :
    wp (bdevGetBlk b) Q E ⟨d, c, v⟩ := by
  refine ((keeps_bdevGetBlk b).map (·.2.2)).wp_intro ?_
  by_cases hr : 0 < c.ref b
  · exact wp_bdevGetBlk_of_ref hb hc.toAt hr fun c' h' hlog => ht c' (hc.of_at h' hlog)
  · refine wp_bdevGetBlk hb hc.toAt (fun c' h' hlog => ht c' (hc.of_at h' hlog))
      fun hp hA c' h' hlog => hf hp (fun hmem => hr ?_) hA c' (hc.of_at h' hlog)
    have hpos : 0 < c.logged.count b := List.count_pos_iff.mpr (hc.base b hmem)
    rw [hc.refs b]
    omega

theorem Ctl.Txn.wp_release (hc : c.Txn E A p (b :: h) B S)
    (hQ : ∀ c', c'.Txn E A p h B S → Q () ⟨d, c', v⟩) : wp (bdevReleaseBlk b) Q E ⟨d, c, v⟩ :=
  ((keeps_bdevReleaseBlk b).map (·.2.2)).wp_intro (wp_release_head hc.toAt fun c' h' hlog =>
    hQ c' (hc.of_at h' hlog))

theorem Ctl.Txn.wp_jbdWriteBlk (hc : c.Txn E A p h B S) (hb : b ∈ S) (hS : S.card ≤ journalSize)
    (hQ : ∀ c', c'.Txn E A p h B S → Q () ⟨d, c', v⟩) : wp (jbdWriteBlk b) Q E ⟨d, c, v⟩ := by
  rw [jbdWriteBlk, wp_kassert_bind (by simp [hc.busy]), wp_bind, wp_read]
  by_cases hmem : b ∈ c.logged
  · rw [if_pos hmem]
    exact hQ c hc
  · have hnodup : (b :: c.logged).Nodup := List.nodup_cons.mpr ⟨hmem, hc.nodup⟩
    have hlen : c.logged.length + 1 ≤ S.card := by
      rw [← List.length_cons (a := b), ← List.toFinset_card_of_nodup hnodup]
      refine Finset.card_le_card fun x hx => ?_
      rcases List.mem_cons.mp (List.mem_toFinset.mp hx) with rfl | hx
      · exact hb
      · exact hc.sub x hx
    have hroom : ¬ journalSize ≤ c.logged.length := by omega
    rw [if_neg hmem, jbdLog, wp_bind, wp_read, if_neg hroom]
    refine hQ _ ⟨hc.toAt.log b hlen, fun x hx => List.mem_append_left _ (hc.base x hx), fun x hx =>
      ?_, ?_⟩
    · rcases List.mem_append.mp hx with hx | hx
      · exact hc.sub x hx
      · rw [List.mem_singleton.mp hx]
        exact hb
    · exact (@List.nodup_append_comm _ [b] _).mp hnodup

theorem Ctl.Txn.wp_logBlk (hc : c.Txn E A p h B S) (hb : b ∈ S) (hS : S.card ≤ journalSize)
    (hQ : ∀ c', c'.Txn E A p h B S → Q () ⟨d, c', v⟩) : wp (logBlk b) Q E ⟨d, c, v⟩ := by
  have hc' : Ctl.Txn E A p h B S
      { c with pageDirty := update c.pageDirty (b / nBlksPerPage) true } :=
    { hc with }
  rw [logBlk, wp_bind]
  exact hc'.wp_jbdWriteBlk hb hS hQ

theorem Ctl.Txn.wp_logWrite {f : Bytes → Bytes} (hc : c.Txn E A p h B S) (hb : b ∈ S)
    (hS : S.card ≤ journalSize)
    (hQ : ∀ c', c'.Txn E A p h B S → Q () ⟨d.setBuf b (f (d.buf b)), c', v⟩) :
    wp (logWrite b f) Q E ⟨d, c, v⟩ := by
  rw [logWrite, wp_bind]
  exact hc.wp_logBlk hb hS hQ

end Osv
