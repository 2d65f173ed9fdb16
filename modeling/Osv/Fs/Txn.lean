import Osv.Fs.Jbd
import Osv.Fs.Rep

/-!
# The end of a transaction

`jbd_end_txn` commits until the commit succeeds.  A commit that fails in
`bdev_write_blk` returns with a lock that it never releases, and every later commit
asks for the same lock, so the thread waits for itself (`Stuck`).  A commit that fails
in `bdev_get_blk` can be made again.  So a call of `jbd_end_txn` that returns has left
no lock behind and nothing logged (`jbdEndTxn_ok`).

A commit writes to blocks of the journal only, and no file has any of these, so the
view of the file system is the same after it (`FsRep.home`).
-/

namespace Osv

open Prog (bind_ok keeps_bind keeps_ite keeps_pure keeps_read keeps_update preserves_bind
  preserves_ite preserves_pure
  preserves_update read_bind)

variable {sb : SbInfo} {s s' : Fs}

/-! ## Locks -/

/-- The same list of logged blocks, and more locks. -/
structure Fs.Locked (s s' : Fs) (bs : List Blk) : Prop where
  held : s'.ctl.held = bs ++ s.ctl.held
  logged : s'.ctl.logged = s.ctl.logged

theorem Fs.Locked.refl (s : Fs) : s.Locked s [] := ⟨rfl, rfl⟩

variable {bs bs' : List Blk}

theorem Fs.Locked.trans {s s' s'' : Fs} (h : s.Locked s' bs) (h' : s'.Locked s'' bs') :
    s.Locked s'' (bs' ++ bs) :=
  ⟨by rw [h'.held, h.held, List.append_assoc], h'.logged.trans h.logged⟩

/-- Locks and logged blocks. -/
def Fs.locks (s : Fs) : List Blk × List Blk := (s.ctl.held, s.ctl.logged)

theorem locked_of_keeps {α : Type} {m : FsM α} {a : α} (hk : Prog.Keeps Fs.locks m)
    (h : m s = .ok (a, s')) : s.Locked s' [] := by
  have := hk s a s' h
  simp only [Fs.locks, Prod.mk.injEq] at this
  exact ⟨this.1, this.2⟩

theorem keeps_locks_memAlloc : Prog.Keeps Fs.locks memAlloc :=
  keeps_bind keeps_read fun _ =>
    keeps_bind (keeps_update fun _ => rfl) fun _ => keeps_pure _

theorem keeps_locks_bdevReleaseBlkUnlocked (b : Blk) :
    Prog.Keeps Fs.locks (bdevReleaseBlkUnlocked b) :=
  keeps_bind (Prog.keeps_check _ _) fun _ => keeps_update fun s => by
    dsimp only [Fs.locks, Ctl.freeBlkHeaders]
    split <;> rfl

theorem keeps_locks_bdevWriteBlk (b : Blk) : Prog.Keeps Fs.locks (bdevWriteBlk b) :=
  keeps_bind keeps_locks_memAlloc fun _ => keeps_ite
    (keeps_bind (keeps_update fun _ => rfl) fun _ => keeps_pure _) (keeps_pure _)

variable {b : Blk} {u : Unit}

theorem blkLock_ok (h : blkLock b s = .ok (u, s')) : b ∉ s.ctl.held ∧ s.Locked s' [b] := by
  rw [blkLock, read_bind] at h
  split_ifs at h with hb
  · cases h
  · cases h
    exact ⟨hb, rfl, rfl⟩

theorem bdevGetBlk_ok {r : Bool} (h : bdevGetBlk b s = .ok (r, s')) :
    (r = true ∧ b ∉ s.ctl.held ∧ s.Locked s' [b]) ∨ (r = false ∧ s.Locked s' []) := by
  obtain ⟨r', s1, h1, h2⟩ := bind_ok.mp h
  have hl1 := locked_of_keeps (keeps_bdevGetBlkUnlocked keeps_locks_memAlloc
      (keeps_update fun _ => rfl)
    fun _ => keeps_update fun _ => rfl) h1
  cases r' with
  | false =>
    cases h2
    exact .inr ⟨rfl, hl1⟩
  | true =>
    obtain ⟨_, s2, h3, h4⟩ := bind_ok.mp h2
    cases h4
    obtain ⟨hb, hl2⟩ := blkLock_ok h3
    rw [hl1.held] at hb
    exact .inl ⟨rfl, hb, hl1.trans hl2⟩

variable {bs : List Blk} {s s1 s' : Fs}

theorem bdevReleaseBlk_ok (hl : s.Locked s1 (b :: bs)) (h : bdevReleaseBlk b s1 = .ok (u, s')) :
    s.Locked s' bs := by
  obtain ⟨_, s2, h1, h2⟩ := bind_ok.mp h
  have hl2 := locked_of_keeps (keeps_locks_bdevReleaseBlkUnlocked b) h2
  obtain ⟨_, h3⟩ := kassert_bind_ok.mp h1
  cases h3
  refine ⟨?_, hl2.logged.trans hl.logged⟩
  rw [hl2.held]
  show s1.ctl.held.erase b = _
  rw [hl.held, List.cons_append, List.erase_cons_head]

theorem blkUnlock_ok (hl : s.Locked s1 (b :: bs)) (h : blkUnlock b s1 = .ok (u, s')) :
    s.Locked s' bs := by
  obtain ⟨_, h3⟩ := kassert_bind_ok.mp h
  cases h3
  refine ⟨?_, hl.logged⟩
  show s1.ctl.held.erase b = _
  rw [hl.held, List.cons_append, List.erase_cons_head]

theorem loggedContent_locked {f : Bytes → Bytes} (h : loggedContent b s = .ok (f, s')) :
    b ∉ s.ctl.held ∧ s.Locked s' [] := by
  obtain ⟨_, s1, h1, h2⟩ := bind_ok.mp h
  obtain ⟨hb, hl1⟩ := blkLock_ok h1
  rw [read_bind] at h2
  obtain ⟨_, s2, h3, h4⟩ := bind_ok.mp h2
  cases h4
  exact ⟨hb, blkUnlock_ok hl1 h3⟩

variable {err : Err}

/-- A call asks for some locks, one after the other.  It gets each and releases it, or it fails and
may keep one. -/
def Fs.Tried (s s' : Fs) (bs : List Blk) (err : Err) : Prop :=
  (err = .ok ∧ s.Locked s' [] ∧ ∀ b ∈ bs, b ∉ s.ctl.held) ∨
    (err ≠ .ok ∧ (s.Locked s' [] ∨ ∃ b ∈ bs, s.Locked s' [b]))

theorem Fs.Tried.refl (s : Fs) : s.Tried s [] .ok := .inl ⟨rfl, .refl s, by simp⟩

theorem Fs.Tried.trans (h : s.Tried s1 bs .ok) (h' : s1.Tried s' bs' err) :
    s.Tried s' (bs ++ bs') err := by
  rcases h with ⟨-, hl, hb⟩ | ⟨he, -⟩
  · rcases h' with ⟨he, hl', hb'⟩ | ⟨he, hl'⟩
    · rw [hl.held] at hb'
      exact .inl ⟨he, hl.trans hl', fun b hmem => (List.mem_append.mp hmem).elim (hb b) (hb' b)⟩
    · refine .inr ⟨he, hl'.imp hl.trans ?_⟩
      rintro ⟨b, hb', hl'⟩
      exact ⟨b, List.mem_append_right bs hb', hl.trans hl'⟩
  · exact absurd rfl he

theorem Fs.Tried.bind {m k : FsM Err}
    (h : (do let e ← m; if e = Err.ok then k else pure e) s = .ok (err, s'))
    (hm : ∀ e s1, m s = .ok (e, s1) → s.Tried s1 bs e)
    (hk : ∀ s1, k s1 = .ok (err, s') → s1.Tried s' bs' err) : s.Tried s' (bs ++ bs') err := by
  obtain ⟨e, s1, h1, h2⟩ := bind_ok.mp h
  have ht := hm e s1 h1
  split_ifs at h2 with he
  · subst he
    exact ht.trans (hk s1 h2)
  · cases h2
    refine .inr ⟨he, (ht.resolve_left fun h => he h.1).2.imp_right ?_⟩
    rintro ⟨b, hb, hl⟩
    exact ⟨b, List.mem_append_left bs' hb, hl⟩

/-- A call that writes one block leaves a lock behind only if it fails, and takes it otherwise. -/
theorem writeJblk_tried {lb : ℕ} {content : FsM (Bytes → Bytes)}
    (hcontent : ∀ s f s', content s = .ok (f, s') → (∀ b ∈ bs, b ∉ s.ctl.held) ∧ s.Locked s' [])
    (h : writeJblk sb lb content s = .ok (err, s')) :
    s.Tried s' (sfsJournalBmap sb lb :: bs) err := by
  obtain ⟨r, s1, h1, h2⟩ := bind_ok.mp h
  rcases bdevGetBlk_ok h1 with ⟨rfl, hb, hl1⟩ | ⟨rfl, hl1⟩
  · rw [if_pos rfl] at h2
    obtain ⟨f, s2, hf, h3⟩ := bind_ok.mp h2
    obtain ⟨hbs, hl2⟩ := hcontent s1 f s2 hf
    obtain ⟨s3, hs3, h4⟩ := Prog.update_bind_ok.mp h3
    obtain ⟨r', s4, h5, h6⟩ := bind_ok.mp h4
    have hl3 : s2.Locked s3 [] := ⟨by rw [hs3]; rfl, by rw [hs3]⟩
    have hl4 := ((hl1.trans hl2).trans hl3).trans (locked_of_keeps (keeps_locks_bdevWriteBlk _) h5)
    cases r' with
    | false =>
      cases h6
      exact .inr ⟨by decide, .inr ⟨_, List.mem_cons_self, hl4⟩⟩
    | true =>
      obtain ⟨_, s5, h7, h8⟩ := bind_ok.mp h6
      cases h8
      rw [hl1.held] at hbs
      refine .inl ⟨rfl, bdevReleaseBlk_ok hl4 h7, List.forall_mem_cons.mpr
        ⟨hb, fun b hmem hheld => ?_⟩⟩
      exact hbs b hmem (List.mem_append_right _ hheld)
  · cases h2
    exact .inr ⟨by decide, .inl hl1⟩

theorem writeJblk_pure_tried {lb : ℕ} {f : Bytes → Bytes}
    (h : writeJblk sb lb (pure f) s = .ok (err, s')) : s.Tried s' [sfsJournalBmap sb lb] err :=
  writeJblk_tried (fun s f s' hf => by
    cases hf
    exact ⟨by simp, .refl s⟩) h

/-- The locks that a commit of some blocks asks for, up to its writes to the places of the blocks.
-/
def commitLocks (sb : SbInfo) (i : ℕ) : List Blk → List Blk
  | [] => []
  | b :: rest => sfsJournalBmap sb (jdataStartBlk + i) :: b :: commitLocks sb (i + 1) rest

theorem writeJdata_tried : ∀ {bs : List Blk} {i : ℕ} {s s' : Fs} {err : Err},
    writeJdata sb i bs s = .ok (err, s') → s.Tried s' (commitLocks sb i bs) err
  | [], i, s, s', err, h => by
    cases h
    exact .refl s
  | b :: rest, i, s, s', err, h => by
    show s.Tried s' ([_, b] ++ commitLocks sb (i + 1) rest) err
    refine Fs.Tried.bind h (fun e s1 h1 => ?_) fun s1 h2 => writeJdata_tried h2
    refine writeJblk_tried (fun s f s' hf => ?_) h1
    obtain ⟨hb, hl⟩ := loggedContent_locked hf
    exact ⟨List.forall_mem_singleton.mpr hb, hl⟩

theorem mem_commitLocks : ∀ {bs : List Blk} {i : ℕ}, b ∈ bs → b ∈ commitLocks sb i bs
  | b' :: rest, i, h => by
    rcases List.mem_cons.mp h with rfl | h
    · exact List.mem_cons_of_mem _ List.mem_cons_self
    · exact List.mem_cons_of_mem _ (List.mem_cons_of_mem _ (mem_commitLocks h))

theorem applyBlks_tried : ∀ {bs : List Blk} {s s' : Fs} {err : Err},
    applyBlks bs s = .ok (err, s') → s.Tried s' bs err
  | [], s, s', err, h => by
    cases h
    exact .refl s
  | b :: rest, s, s', err, h => by
    obtain ⟨_, s1, h1, h2⟩ := bind_ok.mp h
    obtain ⟨hb, hl1⟩ := blkLock_ok h1
    obtain ⟨r, s2, h3, h4⟩ := bind_ok.mp h2
    have hl2 := hl1.trans (locked_of_keeps (keeps_locks_bdevWriteBlk b) h3)
    cases r with
    | false =>
      cases h4
      exact .inr ⟨by decide, .inr ⟨b, List.mem_cons_self, hl2⟩⟩
    | true =>
      obtain ⟨_, s3, h5, h6⟩ := bind_ok.mp h4
      have ht : s.Tried s3 [b] .ok :=
          .inl ⟨rfl, bdevReleaseBlk_ok hl2 h5, List.forall_mem_singleton.mpr hb⟩
      exact ht.trans (applyBlks_tried h6)

/-! ## A commit that fails -/

/-- The thread has a lock that a commit asks for. -/
def Stuck (sb : SbInfo) (s : Fs) : Prop :=
  sfsJournalBmap sb headerBlk ∈ s.ctl.held ∨
    (s.ctl.logged ≠ [] ∧ sfsJournalBmap sb bmapStartBlk ∈ s.ctl.held) ∨
    ∃ b ∈ commitLocks sb 0 s.ctl.logged, b ∈ s.ctl.held

/-- The locks that a commit asks for. -/
def askedLocks (sb : SbInfo) (bs : List Blk) : List Blk :=
  commitLocks sb 0 bs ++ (if bs = [] then [] else [sfsJournalBmap sb bmapStartBlk]) ++
    [sfsJournalBmap sb headerBlk]

theorem stuck_iff {s : Fs} : Stuck sb s ↔ ∃ b ∈ askedLocks sb s.ctl.logged, b ∈ s.ctl.held := by
  unfold Stuck askedLocks
  by_cases hnil : s.ctl.logged = []
  · simp [hnil, commitLocks]
  · simp only [hnil, ne_eq, not_false_iff, true_and, if_false, List.mem_append, List.mem_singleton,
      or_and_right, exists_or, exists_eq_left, or_assoc]
    exact or_comm.trans ((or_congr_left or_comm).trans or_assoc)

theorem writeJournalBlks_tried (h : writeJournalBlks sb s = .ok (err, s')) :
    s.Tried s' (commitLocks sb 0 s.ctl.logged ++
      if s.ctl.logged = [] then [] else [sfsJournalBmap sb bmapStartBlk]) err := by
  obtain ⟨_, h1⟩ := kassert_bind_ok.mp h
  rw [read_bind] at h1
  refine Fs.Tried.bind h1 (fun _ _ h2 => writeJdata_tried h2) fun s1 h2 => ?_
  split_ifs at h2 ⊢
  · cases h2
    exact .refl s'
  · exact writeJblk_pure_tried h2

theorem writeJournalHeader_tried (h : writeJournalHeader sb s = .ok (err, s')) :
    s.Tried s' [sfsJournalBmap sb headerBlk] err := by
  rw [writeJournalHeader, read_bind] at h
  exact writeJblk_pure_tried h

theorem Fs.Tried.stuck (h : s.Tried s' bs err) (he : err ≠ .ok)
    (hbs : ∀ b ∈ bs, b ∈ askedLocks sb s.ctl.logged) :
    (s'.ctl.held = s.ctl.held ∨ Stuck sb s') ∧ (Stuck sb s → Stuck sb s') := by
  rw [stuck_iff, stuck_iff]
  rcases (h.resolve_left fun h => he h.1).2 with hl | ⟨b, hb, hl⟩ <;> rw [hl.held, hl.logged]
  · exact ⟨.inl rfl, id⟩
  · exact ⟨.inr ⟨b, hbs b hb, List.mem_cons_self⟩, fun _ => ⟨b, hbs b hb, List.mem_cons_self⟩⟩

/-- A commit that succeeds took all the locks it asked for and released them. -/
theorem commitJournal_locked (h : commitJournal sb s = .ok (err, s')) :
    (err = .ok ∧ s'.ctl.held = s.ctl.held ∧ s'.ctl.logged = [] ∧ ¬ Stuck sb s) ∨
    (err ≠ .ok ∧ (s'.ctl.held = s.ctl.held ∨ Stuck sb s') ∧ (Stuck sb s → Stuck sb s')) := by
  obtain ⟨err1, s1, h1, h2⟩ := bind_ok.mp h
  have ht1 := writeJournalBlks_tried h1
  split_ifs at h2 with he
  · cases h2
    exact .inr ⟨he, ht1.stuck he fun b hb => List.mem_append_left _ hb⟩
  obtain rfl := not_not.mp he
  obtain ⟨err2, s2, h3, h4⟩ := bind_ok.mp h2
  have ht2 := ht1.trans (writeJournalHeader_tried h3)
  split_ifs at h4 with he
  · cases h4
    exact .inr ⟨he, ht2.stuck he fun b hb => hb⟩
  obtain rfl := not_not.mp he
  obtain ⟨-, hl2, hfree⟩ := ht2.resolve_right fun h => h.1 rfl
  have hnot : ¬ Stuck sb s := fun hs => by
    obtain ⟨b, hb, hheld⟩ := stuck_iff.mp hs
    exact hfree b hb hheld
  obtain ⟨err3, s3, h5, h6⟩ := bind_ok.mp h4
  rw [applyJournal, read_bind, hl2.logged] at h5
  have ht3 := ht2.trans (applyBlks_tried h5)
  split_ifs at h6 with he
  · cases h6
    refine .inr ⟨he, ht3.stuck he fun b hb => (List.mem_append.mp hb).elim id fun hb => ?_⟩
    exact List.mem_append_left _ (List.mem_append_left _ (mem_commitLocks hb))
  obtain rfl := not_not.mp he
  obtain ⟨-, hl3, -⟩ := ht3.resolve_right fun h => h.1 rfl
  obtain ⟨s4, hs4, h7⟩ := Prog.update_bind_ok.mp h6
  have hheld : s4.ctl.held = s.ctl.held := by
    rw [hs4]
    exact hl3.held
  have ht4 := writeJournalHeader_tried h7
  by_cases he : err = .ok
  · obtain ⟨-, hl4, -⟩ := ht4.resolve_right fun h => h.1 he
    refine .inl ⟨he, hl4.held.trans hheld, ?_, hnot⟩
    rw [hl4.logged, hs4]
  · have := (ht4.stuck he fun b hb => List.mem_append_right _ hb).1
    exact .inr ⟨he, hheld ▸ this, fun hs => absurd hs hnot⟩

theorem commitLoop_locked : ∀ {n : ℕ} {s s' : Fs} {u : Unit}, (s.ctl.held = [] ∨ Stuck sb s) →
    commitLoop sb n s = .ok (u, s') → s'.ctl.held = [] ∧ s'.ctl.logged = []
  | 0, _, _, _, _, h => by cases h
  | n + 1, s, s', u, hs, h => by
    obtain ⟨err, s1, h1, h2⟩ := bind_ok.mp h
    rcases commitJournal_locked h1 with ⟨rfl, hheld, hlog, hnot⟩ | ⟨he, hheld, hstuck⟩
    · cases h2
      exact ⟨hheld.trans (hs.resolve_right hnot), hlog⟩
    · rw [if_neg he] at h2
      refine commitLoop_locked ?_ h2
      rcases hs with hs | hs
      · exact hheld.imp_left fun h => h.trans hs
      · exact .inr (hstuck hs)

/-! ## What a commit leaves alone -/

/-- Inodes in memory, and the contents of the blocks outside the journal. -/
def Fs.home (sb : SbInfo) (s : Fs) : Data :=
  { s.data with
    buf := fun b => if sb.journalStart ≤ b ∧ b < sb.dataStart then Bytes.zero else s.data.buf b }

theorem home_setBuf (hb : sb.JournalBlk b) (s : Fs) (m : Bytes) :
    Fs.home sb { s with data := s.data.setBuf b m } = Fs.home sb s := by
  show Data.mk _ _ _ _ = Data.mk _ _ _ _
  rw [Data.mk.injEq]
  refine ⟨?_, rfl, rfl, rfl⟩
  funext x
  split_ifs with hx
  · rfl
  · have hne : x ≠ b := fun he => hx (he ▸ hb)
    exact Function.update_of_ne hne ..

theorem keeps_home_of_rest {α : Type} {m : FsM α} (h : Prog.Keeps Fs.rest m) :
    Prog.Keeps (Fs.home sb) m :=
  h.map fun r => { r.1 with
    buf := fun b => if sb.journalStart ≤ b ∧ b < sb.dataStart then Bytes.zero else r.1.buf b }

theorem keeps_home_bdevWriteBlk (b : Blk) : Prog.Keeps (Fs.home sb) (bdevWriteBlk b) :=
  keeps_bind (keeps_home_of_rest keeps_memAlloc) fun _ => keeps_ite
    (keeps_bind (keeps_update fun _ => rfl) fun _ => keeps_pure _) (keeps_pure _)

/-- The memory outside the journal is as it was, and every write since is to the journal. -/
structure JournalOnly (sb : SbInfo) (s s' : Fs) : Prop where
  home : s'.home sb = s.home sb
  writes : ∃ ws, s.wrote s' ws ∧ ∀ w ∈ ws, sb.JournalBlk w.1

section JournalOnly

variable {s₀ : Fs}

theorem JournalOnly.refl (s : Fs) : JournalOnly sb s s := ⟨rfl, [], by simp [Fs.wrote], by simp⟩

theorem journalOnly_of_rest {α : Type} {m : FsM α} (h : Prog.Keeps Fs.rest m) :
    Prog.Preserves (JournalOnly sb s₀) m := by
  intro s a s' hs hm
  have := h s a s' hm
  simp only [Fs.rest, Prod.mk.injEq] at this
  refine ⟨(keeps_home_of_rest h s a s' hm).trans hs.home, ?_⟩
  unfold Fs.wrote
  rw [this.2.1]
  exact hs.writes

theorem journalOnly_writeJblk {lb : ℕ} (hlb : lb < 2 + journalSize) {content : FsM (Bytes → Bytes)}
    (hc : Prog.Keeps Fs.rest content) :
    Prog.Preserves (JournalOnly sb s₀) (writeJblk sb lb content) := by
  have hblk := @journalBlk_bmap sb _ hlb
  have hbuf : ∀ f, Prog.Preserves (JournalOnly sb s₀) (blkWrite (sfsJournalBmap sb lb) f) :=
      fun f =>
    preserves_update fun s hs => ⟨(home_setBuf hblk s _).trans hs.home, hs.writes⟩
  have hwrite : Prog.Preserves (JournalOnly sb s₀) (bdevWriteBlk (sfsJournalBmap sb lb)) := by
    refine preserves_bind (journalOnly_of_rest keeps_memAlloc) fun _ =>
      preserves_ite ?_ (preserves_pure _)
    refine preserves_bind (preserves_update fun s hs => ⟨hs.home, ?_⟩) fun _ => preserves_pure _
    obtain ⟨ws, hw, hin⟩ := hs.writes
    refine ⟨ws ++ [(_, s.data.buf (sfsJournalBmap sb lb))], hw.trans rfl, fun w hmem => ?_⟩
    rcases List.mem_append.mp hmem with hmem | hmem
    · exact hin w hmem
    · exact List.mem_singleton.mp hmem ▸ hblk
  refine preserves_bind (journalOnly_of_rest (keeps_bdevGetBlk _)) fun _ =>
    preserves_ite ?_ (preserves_pure _)
  refine preserves_bind (journalOnly_of_rest hc) fun f => preserves_bind (hbuf f) fun _ =>
    preserves_bind hwrite fun _ => preserves_ite ?_ (preserves_pure _)
  exact preserves_bind (journalOnly_of_rest (keeps_bdevReleaseBlk _)) fun _ => preserves_pure _

theorem journalOnly_writeJdata : ∀ {bs : List Blk} {i : ℕ}, i + bs.length ≤ journalSize →
    Prog.Preserves (JournalOnly sb s₀) (writeJdata sb i bs)
  | [], _, _ => preserves_pure _
  | b :: bs, i, h => by
    rw [List.length_cons] at h
    have hlb : jdataStartBlk + i < 2 + journalSize := by
      unfold jdataStartBlk bmapStartBlk headerBlk
      omega
    exact preserves_bind (journalOnly_writeJblk hlb (keeps_loggedContent b)) fun _ =>
      preserves_ite (journalOnly_writeJdata (by omega)) (preserves_pure _)

theorem writeJournalBlks_journalOnly (h : writeJournalBlks sb s = .ok (err, s')) :
    JournalOnly sb s s' := by
  obtain ⟨hlen, h1⟩ := kassert_bind_ok.mp h
  rw [read_bind] at h1
  have hlen' : 0 + s.ctl.logged.length ≤ journalSize := by
    have : s.ctl.logged.length < journalSize := by simpa using hlen
    omega
  exact preserves_bind (journalOnly_writeJdata hlen')
    (fun _ => preserves_ite (preserves_ite (preserves_pure _)
    (journalOnly_writeJblk (by decide) (keeps_pure _))) (preserves_pure _)) s err s' (.refl s) h1

theorem keeps_home_writeJournalHeader : Prog.Keeps (Fs.home sb) (writeJournalHeader sb) :=
  keeps_bind keeps_read fun _ s a s' h =>
    (journalOnly_writeJblk (by decide) (keeps_pure _) s a s' (.refl s) h).home

end JournalOnly

theorem keeps_home_applyBlks : ∀ bs : List Blk, Prog.Keeps (Fs.home sb) (applyBlks bs)
  | [] => keeps_pure _
  | b :: rest =>
    keeps_bind (keeps_home_of_rest (keeps_blkLock b)) fun _ =>
      keeps_bind (keeps_home_bdevWriteBlk b) fun _ => keeps_ite
        (keeps_bind (keeps_home_of_rest (keeps_bdevReleaseBlk b)) fun _ =>
        keeps_home_applyBlks rest)
        (keeps_pure _)

theorem keeps_home_commitJournal : Prog.Keeps (Fs.home sb) (commitJournal sb) :=
  keeps_bind (fun _ _ _ h => (writeJournalBlks_journalOnly h).home) fun _ =>
    keeps_ite (keeps_pure _) <|
    keeps_bind keeps_home_writeJournalHeader fun _ => keeps_ite (keeps_pure _) <|
      keeps_bind (keeps_bind keeps_read fun _ => keeps_home_applyBlks _) fun _ =>
        keeps_ite (keeps_pure _) <|
          keeps_bind (keeps_update fun _ => rfl) fun _ => keeps_home_writeJournalHeader

theorem keeps_home_commitLoop : ∀ n : ℕ, Prog.Keeps (Fs.home sb) (commitLoop sb n)
  | 0 => Prog.keeps_trap _
  | n + 1 => keeps_bind keeps_home_commitJournal fun _ =>
    keeps_ite (keeps_pure _) (keeps_home_commitLoop n)

theorem jbdEndTxn_ok {n : ℕ} (hheld : s.ctl.held = []) (h : jbdEndTxn sb n s = .ok (u, s')) :
    s'.ctl.held = [] ∧ s'.ctl.logged = [] ∧ s'.ctl.busy = false ∧ s'.home sb = s.home sb := by
  obtain ⟨_, h1⟩ := kassert_bind_ok.mp h
  rw [read_bind] at h1
  split_ifs at h1 with hlog
  · obtain ⟨_, s1, h2, h3⟩ := bind_ok.mp h1
    obtain ⟨hheld1, hlog1⟩ := commitLoop_locked (.inl hheld) h2
    have hhome := keeps_home_commitLoop n s _ s1 h2
    cases h3
    exact ⟨hheld1, hlog1, rfl, hhome⟩
  · have hnil : s.ctl.logged = [] := List.eq_nil_of_length_eq_zero (by omega)
    cases h1
    exact ⟨hheld, hnil, rfl, rfl⟩

/-! ## What can be committed -/

theorem forEach_jbdWriteBlk_ok : ∀ {bs : List Blk} {s s' : Fs} {u : Unit},
    Prog.forEach bs jbdWriteBlk s = .ok (u, s') → s.ctl.logged.Nodup →
      s'.ctl.logged.Nodup ∧ ∀ b, b ∈ s'.ctl.logged ↔ b ∈ s.ctl.logged ∨ b ∈ bs
  | [], s, s', u, h, hnd => by
    cases h
    exact ⟨hnd, fun b => by simp⟩
  | b :: bs, s, s', u, h, hnd => by
    obtain ⟨_, s1, h1, h2⟩ := bind_ok.mp h
    obtain ⟨-, -, hl⟩ := jbdWriteBlk_ok h1
    have hnd1 : s1.ctl.logged.Nodup := by
      rw [hl]
      split_ifs with hb
      · exact hnd
      · exact List.concat_eq_append ▸ hnd.concat hb
    obtain ⟨hnd', hmem⟩ := forEach_jbdWriteBlk_ok h2 hnd1
    refine ⟨hnd', fun x => ?_⟩
    rw [hmem, hl, List.mem_cons]
    split_ifs with hb
    · exact ⟨Or.imp_right .inr, fun h => by rcases h with h | rfl | h <;> simp [*]⟩
    · simp [or_assoc]

/-- What should hold when a transaction that logged `bs` is committed: the list has each block once,
the assertion of `write_journal_blks` holds, and this writes to the journal only and puts the list
into the block map. -/
structure Committable (sb : SbInfo) (bs : List Blk) (s : Fs) : Prop where
  nodup : s.ctl.logged.Nodup
  covers : ∀ b ∈ bs, b ∈ s.ctl.logged
  room : s.ctl.logged.length < journalSize
  within : ∀ err s', writeJournalBlks sb s = .ok (err, s') → ∃ ws, s.wrote s' ws ∧
    ∀ w ∈ ws, sb.JournalBlk w.1
  mapped : ∀ s', writeJournalBlks sb s = .ok (.ok, s') → ∀ k (hk : k < s.ctl.logged.length),
    journalBmapEntry sb s'.dev.disk k = s.ctl.logged[k]

/-- After calls of `jbd_write_blk` in a new transaction all that should hold at its commit does, if
and only if they are for fewer different blocks than the journal has. -/
theorem committable_iff {s s' t : Fs} {bs : List Blk} {u : Unit} (hnew : s.ctl.logged = [])
    (h32 : ∀ b ∈ bs, b < 2 ^ 32) (h : Prog.forEach bs jbdWriteBlk s = .ok (u, s'))
    (ht : t.ctl.logged = s'.ctl.logged) : Committable sb bs t ↔ bs.toFinset.card < journalSize := by
  obtain ⟨hnd, hmem⟩ := forEach_jbdWriteBlk_ok h (hnew ▸ List.nodup_nil)
  simp only [hnew, List.not_mem_nil, false_or] at hmem
  rw [← ht] at hnd hmem
  have hcard : t.ctl.logged.length = bs.toFinset.card := by
    rw [← List.toFinset_card_of_nodup hnd]
    congr 1
    ext b
    rw [List.mem_toFinset, List.mem_toFinset, hmem]
  refine ⟨fun hc => hcard ▸ hc.room, fun hlt => ⟨hnd, fun b hb => (hmem b).mpr hb, hcard ▸ hlt,
    fun _ _ hrun => (writeJournalBlks_journalOnly hrun).writes, fun t' hrun k hk => ?_⟩⟩
  obtain ⟨-, h1⟩ := kassert_bind_ok.mp hrun
  rw [read_bind] at h1
  obtain ⟨err, t1, -, h2⟩ := bind_ok.mp h1
  split_ifs at h2 with herr hnil
  · rw [hnil] at hk
    exact absurd hk (Nat.not_lt_zero k)
  · obtain ⟨-, -, hw⟩ := writeJblk_pure_ok h2
    rw [Dev.disk, hw, Dev.after_append, Dev.after_cons]
    exact journalBmapEntry_update (fun b hb => h32 b ((hmem b).mp hb)) hk _
  · cases h2
    exact absurd rfl herr

/-- A transaction that has logged nothing. -/
def begunFs : Fs := { twoLogged with ctl := .idle true fun _ => true }

/-- Three calls for two blocks. -/
theorem begunFs_committable :
    Committable mkfsSb [2, 7, 2] (Prog.final (Prog.forEach [2, 7, 2] jbdWriteBlk) begunFs) :=
  (committable_iff (u := ()) (s := begunFs) rfl (by decide) (Prog.run_of_result (by decide +kernel))
    rfl).mpr
    (by decide)

/-- The journal takes 128 blocks, and then the assertion of `write_journal_blks` fails. -/
theorem begunFs_full : ∃ s', Prog.forEach (List.range 128) jbdWriteBlk begunFs = .ok ((), s') ∧
    writeJournalBlks mkfsSb s' = .error (.kassert "journal->next_index < JOURNAL_SIZE") ∧
    ¬ Committable mkfsSb (List.range 128) s' :=
  ⟨_, Prog.run_of_result (by decide +kernel), Prog.run_of_trapOf (by decide +kernel),
    fun h => absurd h.room (by decide +kernel)⟩

/-! ## The view after a commit -/

section home

variable {w : View} {b : Blk} {i : Inum}

theorem not_journalBlk_of_data (hb : sb.DataBlk b) : ¬ sb.JournalBlk b := fun hj =>
  absurd hb.1 (Nat.not_le.mpr hj.2)

theorem not_journalBlk_of_lt (hb : b < sb.journalStart) : ¬ sb.JournalBlk b := fun hj =>
  absurd hj.1 (Nat.not_le.mpr hb)

theorem not_journalBlk_inumToBlk (hi : sb.IsInum i) : ¬ sb.JournalBlk (inumToBlk i) :=
  not_journalBlk_of_lt ((inumToBlk_lt hi).trans_le sb.bmap_le)

theorem not_journalBlk_inodeBmap : ¬ sb.JournalBlk sfsInodeBmapBlk := by
  have h1 := table_le_bmap sb
  have h2 : sfsInodeTableBlk ≤ sb.journalStart := h1.trans sb.bmap_le
  exact not_journalBlk_of_lt (Nat.lt_of_lt_of_le (by decide) h2)

section

variable (h : s'.home sb = s.home sb)

include h

theorem buf_of_home (hb : ¬ sb.JournalBlk b) : s'.data.buf b = s.data.buf b := by
  have hif : ∀ s : Fs, (s.home sb).buf b = s.data.buf b := fun s => if_neg hb
  rw [← hif s', h, hif s]

theorem icache_of_home : s'.data.icache = s.data.icache := by
  show (s'.home sb).icache = (s.home sb).icache
  rw [h]

theorem diskIno_of_home (hi : sb.IsInum i) : s'.data.diskIno i = s.data.diskIno i := by
  rw [Data.diskIno, Data.diskIno, buf_of_home h (not_journalBlk_inumToBlk hi)]

theorem vol_ino_of_home : (s'.data.vol sb).ino = (s.data.vol sb).ino := by
  funext i
  show (if _ then _ else _) = if _ then _ else _
  split
  · rename_i hi
    rw [Data.ino, Data.ino, icache_of_home h, diskIno_of_home h hi]
  · rfl

theorem used_of_home : sb.Used s'.data.buf i ↔ sb.Used s.data.buf i := by
  rw [SbInfo.Used, SbInfo.Used, buf_of_home h not_journalBlk_inodeBmap]

theorem inUse_of_home : sb.InUse s'.data.buf b ↔ sb.InUse s.data.buf b := by
  refine and_congr_right fun hb => ?_
  rw [buf_of_home h (not_journalBlk_of_lt hb.bmapBlk_lt)]

end

theorem FsRep.slot_of_home (hr : FsRep sb w s.data) (h : s'.home sb = s.home sb) :
    ∀ σ, Slot.Of (sb.Used s.data.buf) σ → (s'.data.vol sb).slot σ = (s.data.vol sb).slot σ := by
  have hino := vol_ino_of_home h
  intro σ hσ
  cases σ with
  | addr i j => rw [Vol.slot, Vol.slot, hino]
  | entry i k =>
    refine Vol.slot_entry_congr (by rw [hino]) fun hne => ?_
    have hd : sb.DataBlk (((s.data.vol sb).ino i).addrs (indirIndex k)) :=
      (hr.sound.live (.addr i (indirIndex k)) (Vol.indir_of hσ.1 hσ.2.2) hne).1
    show Bytes.le (s'.data.buf _) _ _ = Bytes.le (s.data.buf _) _ _
    rw [buf_of_home h (not_journalBlk_of_data hd)]

theorem FsRep.home (hr : FsRep sb w s.data) (h : s'.home sb = s.home sb) : FsRep sb w s'.data := by
  have hino := vol_ino_of_home h
  have hslot := hr.slot_of_home h
  have hptr : ∀ i, w.used i → ∀ k, (s'.data.vol sb).ptr i k = (s.data.vol sb).ptr i k := fun i hi =>
    Vol.ptr_congr fun k hk => hslot _ (Vol.blkSlot_of (hr.used_buf hi) hk)
  refine ⟨?_, fun i => (hr.used i).trans (used_of_home h).symm, fun i hi => ?_, fun i => ?_,
    fun i n hn => ?_, fun i hf hi k hk => ?_⟩
  · refine (Owned.congr hr.sound hslot fun _ _ => (inUse_of_home h).mpr).extend fun σ hσ => .inr ?_
    exact hσ.mono ((used_of_home h).mp hσ.used)
  · rw [← hr.file i hi]
    refine Vol.file_congr (congrFun hino i)
      (fun k hk => hslot _ (Vol.blkSlot_of (hr.used_buf hi) hk)) fun k h0 => ?_
    have hd := (Vol.ptr_dataBlk hr.sound (hr.used_buf hi) h0).1
    exact buf_of_home h (not_journalBlk_of_data hd)
  · rw [hr.ref, Data.refs, Data.refs, icache_of_home h]
  · have hc := hr.cached i n (icache_of_home h ▸ hn)
    exact { hc with
      synced := fun hd => (diskIno_of_home h (hr.isInum hc.used)).trans (hc.synced hd) }
  · rw [hptr i hi]
    exact hr.filled i hf hi k hk

end home

end Osv
