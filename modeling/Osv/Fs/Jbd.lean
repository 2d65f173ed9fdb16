import Osv.Fs.Block

/-!
# Committing a transaction

`commit_journal` of `kernel/fs/jbd.c` writes the logged blocks to the journal, then
the block map, then the header with their number, then the blocks to their places,
and then the header with 0.  A crash leaves the device with a prefix of these
writes.  `commit_crash` says what every prefix leaves there: the old contents and no
transaction in the journal, or a whole transaction in the journal, or the new contents
and none.

A call of `bdev_write_blk` that fails leaves a lock behind, and `jbd_end_txn`
tries again until the commit succeeds, so it waits for itself then.
-/

namespace Osv

open Function (update update_self update_of_ne)
open Dev (after)
open Prog (bind_ok keeps_bind keeps_ite keeps_pure keeps_read)

open Prog (wp wp_bind)

variable (sb : SbInfo)

/-- `sfs_journal_bmap`. -/
def sfsJournalBmap (lb : ℕ) : Blk := sb.journalStart + lb

/-- `HEADER_BLK`. -/
def headerBlk : ℕ := 0

/-- `BMAP_START_BLK`.  The block map of 128 block numbers is one block. -/
def bmapStartBlk : ℕ := headerBlk + 1

/-- `JDATA_START_BLK`. -/
def jdataStartBlk : ℕ := bmapStartBlk + 1

/-- Returns whether the request could be made. -/
def bdevWriteBlk (b : Blk) : FsM Bool := do
  if ← memAlloc then do
    Prog.update fun s =>
      { s with dev := { s.dev with writes := s.dev.writes ++ [(b, s.data.buf b)] } }
    pure true
  else pure false

/-- Write a block of the journal with new content. -/
def writeJblk (lb : ℕ) (content : FsM (Bytes → Bytes)) : FsM Err := do
  if ← bdevGetBlk (sfsJournalBmap sb lb) then do
    let f ← content
    blkWrite (sfsJournalBmap sb lb) f
    if ← bdevWriteBlk (sfsJournalBmap sb lb) then do
      bdevReleaseBlk (sfsJournalBmap sb lb)
      pure .ok
    else pure .nomem
  else pure .nomem

/-- The content of a logged block, read with its lock. -/
def loggedContent (b : Blk) : FsM (Bytes → Bytes) := do
  blkLock b
  let s ← Prog.read
  blkUnlock b
  pure fun _ => s.data.buf b

/-- The first loop of `write_journal_blks`, from the `i`-th block on. -/
def writeJdata : (i : ℕ) → List Blk → FsM Err
  | _, [] => pure .ok
  | i, b :: rest => do
    let err ← writeJblk sb (jdataStartBlk + i) (loggedContent b)
    if err = .ok then writeJdata (i + 1) rest else pure err

/-- The bytes of the block map. -/
def bmapBytes (bs : List Blk) : List UInt8 := bs.flatMap (Bytes.leBytes 4)

/-- Write the logged blocks and the block map. -/
def writeJournalBlks : FsM Err := do
  kassert "journal->next_index < JOURNAL_SIZE" fun s => s.ctl.logged.length < journalSize
  let s ← Prog.read
  let err ← writeJdata sb 0 s.ctl.logged
  if err = .ok then
    if s.ctl.logged = [] then pure .ok
    else writeJblk sb bmapStartBlk (pure fun m => m.put 0 (bmapBytes s.ctl.logged))
  else pure err

/-- Write the number of blocks to the header. -/
def writeJournalHeader : FsM Err := do
  let s ← Prog.read
  writeJblk sb headerBlk (pure fun m => m.put 0 (Bytes.leBytes 4 s.ctl.logged.length))

/-- The loop of `apply_journal`. -/
def applyBlks : List Blk → FsM Err
  | [] => pure .ok
  | b :: rest => do
    blkLock b
    if ← bdevWriteBlk b then do
      bdevReleaseBlk b
      applyBlks rest
    else pure .nomem

/-- Write the logged blocks home. -/
def applyJournal : FsM Err := do
  let s ← Prog.read
  applyBlks s.ctl.logged

/-- Empty the list and the header. -/
def eraseJournal : FsM Err := do
  modifyCtl fun c => { c with logged := [] }
  writeJournalHeader sb

/-- The four phases of a commit. -/
def commitJournal : FsM Err := do
  let err ← writeJournalBlks sb
  if err ≠ .ok then pure err
  else do
    let err ← writeJournalHeader sb
    if err ≠ .ok then pure err
    else do
      let err ← applyJournal
      if err ≠ .ok then pure err
      else eraseJournal sb

/-- The loop of `jbd_end_txn`, with `n` tries at most. -/
def commitLoop : ℕ → FsM Unit
  | 0 => Prog.trap (.wild "commit")
  | n + 1 => do
    let err ← commitJournal sb
    if err = .ok then pure () else commitLoop n

/-- `jbd_begin_txn`.  A thread waits while a transaction is going on. -/
def jbdBeginTxn : FsM Unit := do
  let s ← Prog.read
  if s.ctl.busy then Prog.trap (.wild "wait")
  else modifyCtl fun c => { c with busy := true }

/-- `jbd_end_txn`, with `n` tries at most. -/
def jbdEndTxn (n : ℕ) : FsM Unit := do
  kassert "journal->state == BUSY" fun s => s.ctl.busy
  let s ← Prog.read
  if 0 < s.ctl.logged.length then do
    commitLoop sb n
    modifyCtl fun c => { c with busy := false }
  else modifyCtl fun c => { c with busy := false }

/-! ## What is left alone -/

variable {sb} {s s' : Fs}

theorem keeps_loggedContent (b : Blk) : Prog.Keeps Fs.rest (loggedContent b) :=
  keeps_bind (keeps_blkLock b) fun _ => keeps_bind keeps_read fun _ =>
    keeps_bind (keeps_blkUnlock b) fun _ => keeps_pure _

/-! ## What a commit writes -/

/-- A block that is written to the device. -/
def Fs.wrote (s s' : Fs) (ws : List (Blk × Bytes)) : Prop :=
  s'.dev = { s.dev with writes := s.dev.writes ++ ws }

theorem Fs.wrote.trans {s s' s'' : Fs} {ws ws' : List (Blk × Bytes)} (h : s.wrote s' ws)
    (h' : s'.wrote s'' ws') : s.wrote s'' (ws ++ ws') := by
  unfold Fs.wrote at *
  rw [h', h, List.append_assoc]

theorem bdevWriteBlk_ok {b : Blk} (h : bdevWriteBlk b s = .ok (true, s')) :
    s'.data = s.data ∧ s'.ctl.logged = s.ctl.logged ∧ s.wrote s' [(b, s.data.buf b)] := by
  obtain ⟨r, s1, h1, h2⟩ := bind_ok.mp h
  have hk := keeps_memAlloc s r s1 h1
  simp only [Fs.rest, Prod.mk.injEq] at hk
  cases r with
  | false => cases h2
  | true =>
    obtain ⟨t, rfl, h3⟩ := Prog.update_bind_ok.mp h2
    cases h3
    refine ⟨hk.1, hk.2.2, ?_⟩
    show Dev.mk _ _ = _
    rw [hk.1, hk.2.1]

variable {lb : ℕ}

theorem writeJblk_ok {content : FsM (Bytes → Bytes)} (hk : Prog.Keeps Fs.rest content)
    (h : writeJblk sb lb content s = .ok (.ok, s')) :
    ∃ f s1 s2, content s1 = .ok (f, s2) ∧ s1.data = s.data ∧
      s'.data = s.data.setBuf (sfsJournalBmap sb lb) (f (s.data.buf (sfsJournalBmap sb lb))) ∧
      s'.ctl.logged = s.ctl.logged ∧
      s.wrote s' [(sfsJournalBmap sb lb, f (s.data.buf (sfsJournalBmap sb lb)))] := by
  obtain ⟨r, s1, h1, h2⟩ := bind_ok.mp h
  have hk1 := keeps_bdevGetBlk _ s r s1 h1
  simp only [Fs.rest, Prod.mk.injEq] at hk1
  cases r with
  | false => cases h2
  | true =>
    obtain ⟨f, s2, hf, h3⟩ := bind_ok.mp h2
    have hk2 := hk s1 f s2 hf
    simp only [Fs.rest, Prod.mk.injEq] at hk2
    obtain ⟨s3, hs3, h4⟩ := Prog.update_bind_ok.mp h3
    obtain ⟨r', s4, h5, h6⟩ := bind_ok.mp h4
    cases r' with
    | false => cases h6
    | true =>
      obtain ⟨hd4, hl4, hw4⟩ := bdevWriteBlk_ok h5
      obtain ⟨_, s5, h7, h8⟩ := bind_ok.mp h6
      have hk5 := keeps_bdevReleaseBlk _ s4 _ s5 h7
      simp only [Fs.rest, Prod.mk.injEq] at hk5
      cases h8
      have hd2 : s2.data = s.data := hk2.1.trans hk1.1
      have hd3 : s3.data = s.data.setBuf (sfsJournalBmap sb lb)
          (f (s.data.buf (sfsJournalBmap sb lb))) := by
        rw [hs3]
        show s2.data.setBuf _ _ = _
        rw [hd2]
      refine ⟨f, s1, s2, hf, hk1.1, ?_, ?_, ?_⟩
      · rw [hk5.1, hd4, hd3]
      · rw [hk5.2.2, hl4, hs3]
        exact hk2.2.2.trans hk1.2.2
      · have hdev3 : s3.dev = s.dev := by
          rw [hs3]
          exact hk2.2.1.trans hk1.2.1
        unfold Fs.wrote at hw4 ⊢
        rw [hk5.2.1, hw4, hdev3, hd3, setBuf_buf_self]

theorem writeJblk_pure_ok {f : Bytes → Bytes} (h : writeJblk sb lb (pure f) s = .ok (.ok, s')) :
    s'.data = s.data.setBuf (sfsJournalBmap sb lb) (f (s.data.buf (sfsJournalBmap sb lb))) ∧
      s'.ctl.logged = s.ctl.logged ∧
      s.wrote s' [(sfsJournalBmap sb lb, f (s.data.buf (sfsJournalBmap sb lb)))] := by
  obtain ⟨f', s1, s2, hf, _, h1⟩ := writeJblk_ok (keeps_pure f) h
  cases hf
  exact h1

theorem writeJblk_logged_ok {b : Blk} (h : writeJblk sb lb (loggedContent b) s = .ok (.ok, s')) :
    s'.data = s.data.setBuf (sfsJournalBmap sb lb) (s.data.buf b) ∧
      s'.ctl.logged = s.ctl.logged ∧ s.wrote s' [(sfsJournalBmap sb lb, s.data.buf b)] := by
  obtain ⟨f, s1, s2, hf, hd, h1⟩ := writeJblk_ok (keeps_loggedContent b) h
  obtain ⟨_, s3, h3, h4⟩ := bind_ok.mp hf
  have hk3 := keeps_blkLock b s1 _ s3 h3
  simp only [Fs.rest, Prod.mk.injEq] at hk3
  obtain ⟨_, s4, h5, h6⟩ := bind_ok.mp h4
  cases h5
  obtain ⟨_, s5, _, h7⟩ := bind_ok.mp h6
  cases h7
  rw [hk3.1, hd] at h1
  exact h1

/-- A block of the journal. -/
def SbInfo.JournalBlk (sb : SbInfo) (b : ℕ) : Prop := sb.journalStart ≤ b ∧ b < sb.dataStart

theorem journalBlk_bmap (h : lb < 2 + journalSize) : sb.JournalBlk (sfsJournalBmap sb lb) := by
  have := sb.journal_le
  unfold sfsJournalBmap
  constructor <;> show (_ : ℕ) ≤ _ <;> omega

/-- The writes of the blocks to the journal. -/
def jdataWrites (sb : SbInfo) (buf : Blk → Bytes) : ℕ → List Blk → List (Blk × Bytes)
  | _, [] => []
  | i, b :: rest =>
    (sfsJournalBmap sb (jdataStartBlk + i), buf b) :: jdataWrites sb buf (i + 1) rest

variable {buf : Blk → Bytes}

theorem jdataWrites_congr {buf' : Blk → Bytes} :
    ∀ {i : ℕ} {bs : List Blk}, (∀ b ∈ bs, buf' b = buf b)
    → jdataWrites sb buf' i bs = jdataWrites sb buf i bs
  | _, [], _ => rfl
  | i, b :: rest, h => by
    rw [jdataWrites, jdataWrites, h b List.mem_cons_self,
      jdataWrites_congr fun b' hb' => h b' (List.mem_cons_of_mem b hb')]

theorem writeJdata_ok : ∀ {bs : List Blk} {i : ℕ} {s s' : Fs}, i + bs.length ≤ journalSize →
    (∀ b ∈ bs, ¬ sb.JournalBlk b) → writeJdata sb i bs s = .ok (.ok, s') →
    (∀ x, ¬ sb.JournalBlk x → s'.data.buf x = s.data.buf x) ∧ s'.ctl.logged = s.ctl.logged ∧
      s.wrote s' (jdataWrites sb s.data.buf i bs)
  | [], i, s, s', _, _, h => by
    cases h
    refine ⟨fun _ _ => rfl, rfl, ?_⟩
    show s.dev = _
    rw [jdataWrites, List.append_nil]
  | b :: rest, i, s, s', hlen, hbs, h => by
    rw [List.length_cons] at hlen
    obtain ⟨err, s1, h1, h2⟩ := bind_ok.mp h
    by_cases herr : err = .ok
    · subst herr
      rw [if_pos rfl] at h2
      obtain ⟨hd, hl, hw⟩ := writeJblk_logged_ok h1
      have hj : sb.JournalBlk (sfsJournalBmap sb (jdataStartBlk + i)) := journalBlk_bmap (by
        unfold jdataStartBlk bmapStartBlk headerBlk
        omega)
      have hbuf : ∀ x, ¬ sb.JournalBlk x → s1.data.buf x = s.data.buf x := fun x hx => by
        have hne : x ≠ sfsJournalBmap sb (jdataStartBlk + i) := fun he => hx (he ▸ hj)
        rw [hd, setBuf_buf_of_ne _ hne]
      obtain ⟨hbuf', hl', hw'⟩ := writeJdata_ok (by omega)
        (fun b' hb' => hbs b' (List.mem_cons_of_mem b hb')) h2
      refine ⟨fun x hx => (hbuf' x hx).trans (hbuf x hx), hl'.trans hl, ?_⟩
      rw [jdataWrites_congr fun b' hb' => hbuf b' (hbs b' (List.mem_cons_of_mem b hb'))] at hw'
      exact hw.trans hw'
    · rw [if_neg herr] at h2
      cases h2
      exact absurd rfl herr

theorem applyBlks_ok : ∀ {bs : List Blk} {s s' : Fs}, applyBlks bs s = .ok (.ok, s') →
    s'.data = s.data ∧ s.wrote s' (bs.map fun b => (b, s.data.buf b))
  | [], s, s', h => by
    cases h
    refine ⟨rfl, ?_⟩
    show s.dev = _
    rw [List.map_nil, List.append_nil]
  | b :: rest, s, s', h => by
    obtain ⟨_, s1, h1, h2⟩ := bind_ok.mp h
    have hk1 := keeps_blkLock b s _ s1 h1
    simp only [Fs.rest, Prod.mk.injEq] at hk1
    obtain ⟨r, s2, h3, h4⟩ := bind_ok.mp h2
    cases r with
    | false => cases h4
    | true =>
      obtain ⟨hd, _, hw⟩ := bdevWriteBlk_ok h3
      obtain ⟨_, s3, h5, h6⟩ := bind_ok.mp h4
      have hk3 := keeps_bdevReleaseBlk b s2 _ s3 h5
      simp only [Fs.rest, Prod.mk.injEq] at hk3
      obtain ⟨hd', hw'⟩ := applyBlks_ok h6
      have hd3 : s3.data = s.data := by rw [hk3.1, hd, hk1.1]
      refine ⟨hd'.trans hd3, ?_⟩
      unfold Fs.wrote at *
      rw [hw', hk3.2.1, hw, hk1.2.1, hd3, hk1.1, List.map_cons, List.append_assoc]
      rfl

/-- The write of the block map, if there is something to map. -/
def bmapWrites (sb : SbInfo) (bs : List Blk) (old : Bytes) : List (Blk × Bytes) :=
  if bs = [] then [] else [(sfsJournalBmap sb bmapStartBlk, old.put 0 (bmapBytes bs))]

/-- The write of the header with a number of blocks. -/
def headerWrite (sb : SbInfo) (n : ℕ) (old : Bytes) : Blk × Bytes :=
  (sfsJournalBmap sb headerBlk, old.put 0 (Bytes.leBytes 4 n))

theorem journalBlk_header : sb.JournalBlk (sfsJournalBmap sb headerBlk) :=
  journalBlk_bmap (by decide)

theorem journalBlk_bmapStart : sb.JournalBlk (sfsJournalBmap sb bmapStartBlk) :=
  journalBlk_bmap (by decide)

theorem writeJournalBlks_ok (hbs : ∀ b ∈ s.ctl.logged, ¬ sb.JournalBlk b)
    (h : writeJournalBlks sb s = .ok (.ok, s')) :
    (∀ x, ¬ sb.JournalBlk x → s'.data.buf x = s.data.buf x) ∧ s'.ctl.logged = s.ctl.logged ∧
      ∃ old, s.wrote s' (jdataWrites sb s.data.buf 0 s.ctl.logged ++
        bmapWrites sb s.ctl.logged old) := by
  obtain ⟨hlen, h1⟩ := kassert_bind_ok.mp h
  rw [Prog.read_bind] at h1
  obtain ⟨err, s1, h2, h3⟩ := bind_ok.mp h1
  by_cases herr : err = .ok
  · subst herr
    rw [if_pos rfl] at h3
    have hlen' : s.ctl.logged.length < journalSize := by simpa using hlen
    obtain ⟨hbuf, hl, hw⟩ := writeJdata_ok (by omega) hbs h2
    by_cases hnil : s.ctl.logged = []
    · rw [if_pos hnil] at h3
      cases h3
      refine ⟨hbuf, hl, Bytes.zero, ?_⟩
      rw [bmapWrites, if_pos hnil, List.append_nil]
      exact hw
    · rw [if_neg hnil] at h3
      obtain ⟨hd', hl', hw'⟩ := writeJblk_pure_ok h3
      refine ⟨fun x hx => ?_, hl'.trans hl, s1.data.buf (sfsJournalBmap sb bmapStartBlk), ?_⟩
      · have hne : x ≠ sfsJournalBmap sb bmapStartBlk := fun he => hx (he ▸ journalBlk_bmapStart)
        rw [hd', setBuf_buf_of_ne _ hne]
        exact hbuf x hx
      · rw [bmapWrites, if_neg hnil]
        exact hw.trans hw'
  · rw [if_neg herr] at h3
    cases h3
    exact absurd rfl herr

theorem writeJournalHeader_ok (h : writeJournalHeader sb s = .ok (.ok, s')) :
    (∀ x, ¬ sb.JournalBlk x → s'.data.buf x = s.data.buf x) ∧ s'.ctl.logged = s.ctl.logged ∧
      ∃ old, s.wrote s' [headerWrite sb s.ctl.logged.length old] := by
  rw [writeJournalHeader, Prog.read_bind] at h
  obtain ⟨hd, hl, hw⟩ := writeJblk_pure_ok h
  refine ⟨fun x hx => ?_, hl, _, hw⟩
  have hne : x ≠ sfsJournalBmap sb headerBlk := fun he => hx (he ▸ journalBlk_header)
  rw [hd, setBuf_buf_of_ne _ hne]

theorem unless_error_ok {m k : FsM Err}
    (h : (m >>= fun err => if err ≠ Err.ok then pure err else k) s = .ok (.ok, s')) :
    ∃ s1, m s = .ok (.ok, s1) ∧ k s1 = .ok (.ok, s') := by
  obtain ⟨err, s1, h1, h2⟩ := bind_ok.mp h
  split_ifs at h2 with herr
  · cases h2
    exact absurd rfl herr
  · obtain rfl : err = .ok := not_not.mp herr
    exact ⟨s1, h1, h2⟩

/-- The writes of a commit: the blocks to the journal, the block map, the header, the blocks to
their places and the header with 0. -/
theorem commitJournal_ok (hbs : ∀ b ∈ s.ctl.logged, ¬ sb.JournalBlk b)
    (h : commitJournal sb s = .ok (.ok, s')) :
    (∀ x, ¬ sb.JournalBlk x → s'.data.buf x = s.data.buf x) ∧ s'.ctl.logged = [] ∧
      ∃ m hdr hdr0, s.wrote s' ((jdataWrites sb s.data.buf 0 s.ctl.logged ++
        bmapWrites sb s.ctl.logged m) ++ (headerWrite sb s.ctl.logged.length hdr ::
        ((s.ctl.logged.map fun b => (b, s.data.buf b)) ++ [headerWrite sb 0 hdr0]))) := by
  obtain ⟨s1, h1, h2⟩ := unless_error_ok h
  obtain ⟨s2, h3, h4⟩ := unless_error_ok h2
  obtain ⟨s3, h5, h6⟩ := unless_error_ok h4
  obtain ⟨hb1, hl1, m, hw1⟩ := writeJournalBlks_ok hbs h1
  obtain ⟨hb2, hl2, hdr, hw2⟩ := writeJournalHeader_ok h3
  rw [applyJournal, Prog.read_bind] at h5
  obtain ⟨hd3, hw3⟩ := applyBlks_ok h5
  obtain ⟨s4, hs4, h7⟩ := Prog.update_bind_ok.mp h6
  obtain ⟨hb4, hl4, hdr0, hw4⟩ := writeJournalHeader_ok h7
  have hs4d : s4.data = s3.data := by rw [hs4]
  have hs4l : s4.ctl.logged = [] := by rw [hs4]
  have hs4v : s4.dev = s3.dev := by rw [hs4]
  have hhome : ∀ b ∈ s.ctl.logged, s2.data.buf b = s.data.buf b := fun b hb =>
    (hb2 b (hbs b hb)).trans (hb1 b (hbs b hb))
  refine ⟨fun x hx => ?_, hl4.trans hs4l, m, hdr, hdr0, ?_⟩
  · rw [hb4 x hx, hs4d, hd3, hb2 x hx, hb1 x hx]
  · have hw4' : s3.wrote s' [headerWrite sb 0 hdr0] := by
      unfold Fs.wrote at hw4 ⊢
      rw [hw4, hs4v, hs4l]
      rfl
    rw [hl2, hl1] at hw3
    rw [hl1] at hw2
    have hmap : (s.ctl.logged.map fun b => (b, s2.data.buf b)) =
        s.ctl.logged.map fun b => (b, s.data.buf b) :=
      List.map_congr_left fun b hb => by rw [hhome b hb]
    rw [hmap] at hw3
    exact hw1.trans (hw2.trans (hw3.trans hw4'))

theorem jbdWriteBlk_ok {b : Blk} {u : Unit} (h : jbdWriteBlk b s = .ok (u, s')) :
    s.ctl.busy = true ∧ s'.ctl.busy = s.ctl.busy ∧
      s'.ctl.logged = if b ∈ s.ctl.logged then s.ctl.logged else s.ctl.logged ++ [b] := by
  obtain ⟨hb, h1⟩ := kassert_bind_ok.mp h
  rw [Prog.read_bind] at h1
  split_ifs at h1 ⊢ with hm
  · cases h1
    exact ⟨hb, rfl, rfl⟩
  · rw [jbdLog, Prog.read_bind] at h1
    split_ifs at h1 with hfull <;> cases h1
    exact ⟨hb, rfl, rfl⟩

/-! ## The device after some of the writes -/

theorem Dev.after_append (D : Blk → Bytes) (ws ws' : List (Blk × Bytes)) :
    after D (ws ++ ws') = after (after D ws) ws' := List.foldl_append ..

theorem Dev.after_cons (D : Blk → Bytes) (w : Blk × Bytes) (ws : List (Blk × Bytes)) :
    after D (w :: ws) = after (update D w.1 w.2) ws := rfl

variable {x : Blk}

theorem Dev.after_other : ∀ {ws : List (Blk × Bytes)} {D : Blk → Bytes}, (∀ w ∈ ws, w.1 ≠ x)
    → after D ws x = D x
  | [], _, _ => rfl
  | w :: ws, D, h => by
    rw [Dev.after_cons, Dev.after_other fun w' hw' => h w' (List.mem_cons_of_mem w hw'),
      update_of_ne (h w List.mem_cons_self).symm]

theorem Dev.after_map : ∀ {bs : List Blk} {D : Blk → Bytes}, (x ∈ bs ∨ D x = buf x)
    → after D (bs.map fun b => (b, buf b)) x = buf x
  | [], _, h => h.resolve_left List.not_mem_nil
  | b :: bs, D, h => by
    rw [List.map_cons, Dev.after_cons]
    refine Dev.after_map ?_
    by_cases hb : x = b
    · subst hb
      exact .inr (update_self ..)
    · rw [update_of_ne hb]
      exact h.imp_left fun hx => (List.mem_cons.mp hx).resolve_left hb

theorem mem_jdataWrites {w : Blk × Bytes} : ∀ {i : ℕ} {bs : List Blk},
    w ∈ jdataWrites sb buf i bs → ∃ k < bs.length, w.1 = sfsJournalBmap sb (jdataStartBlk + (i + k))
  | _, [], h => absurd h List.not_mem_nil
  | i, b :: bs, h => by
    rcases List.mem_cons.mp h with rfl | h
    · exact ⟨0, Nat.succ_pos _, rfl⟩
    · obtain ⟨k, hk, hw⟩ := mem_jdataWrites h
      refine ⟨k + 1, Nat.succ_lt_succ hk, ?_⟩
      rw [hw]
      congr 2
      omega

theorem after_jdataWrites : ∀ {bs : List Blk} {i : ℕ} {D : Blk → Bytes} {k : ℕ}
    (hk : k < bs.length), after D (jdataWrites sb buf i bs)
    (sfsJournalBmap sb (jdataStartBlk + (i + k))) = buf (bs[k])
  | b :: bs, i, D, 0, _ => by
    rw [jdataWrites, Dev.after_cons, Dev.after_other]
    · exact update_self ..
    · intro w hw
      obtain ⟨k, _, hw⟩ := mem_jdataWrites hw
      rw [hw]
      show (_ : ℕ) ≠ _
      unfold sfsJournalBmap
      omega
  | b :: bs, i, D, k + 1, hk => by
    rw [jdataWrites, Dev.after_cons, show i + (k + 1) = i + 1 + k by omega]
    exact after_jdataWrites (Nat.lt_of_succ_lt_succ hk)

theorem le_bmapBytes : ∀ {bs : List Blk} {m : Bytes} {o k : ℕ} (hk : k < bs.length),
    (∀ b ∈ bs, b < 2 ^ 32) → (m.put o (bmapBytes bs)).le (o + 4 * k) 4 = bs[k]
  | b :: bs, m, o, 0, _, h => by
    rw [bmapBytes, List.flatMap_cons, Bytes.put_append, Bytes.le_put_of_disjoint (by simp),
      Nat.mul_zero, Nat.add_zero, Bytes.le_put_of_lt (h b List.mem_cons_self)]
    rfl
  | b :: bs, m, o, k + 1, hk, h => by
    rw [bmapBytes, List.flatMap_cons, Bytes.put_append, Bytes.length_leBytes,
      show o + 4 * (k + 1) = o + 4 + 4 * k by omega]
    exact le_bmapBytes (Nat.lt_of_succ_lt_succ hk) fun b' hb' => h b' (List.mem_cons_of_mem b hb')

/-- The number of blocks that the header of the journal on a device says. -/
def journalHeader (sb : SbInfo) (D : Blk → Bytes) : ℕ := (D (sfsJournalBmap sb headerBlk)).le 0 4

/-- An entry of the block map of the journal on a device. -/
def journalBmapEntry (sb : SbInfo) (D : Blk → Bytes) (i : ℕ) : ℕ :=
  (D (sfsJournalBmap sb bmapStartBlk)).le (4 * i) 4

/-- A data block of the journal on a device. -/
def journalData (sb : SbInfo) (D : Blk → Bytes) (i : ℕ) : Bytes :=
  D (sfsJournalBmap sb (jdataStartBlk + i))

section Crash

variable {bs : List Blk} {buf D : Blk → Bytes} {m hdr hdr0 : Bytes} {pre : List (Blk × Bytes)}

/-- Before the header is written the journal says 0 blocks and no block is at its place. -/
theorem after_uncommitted (hlen : bs.length < journalSize)
    (hpre : pre <+: jdataWrites sb buf 0 bs ++ bmapWrites sb bs m)
    (hx : ¬ sb.JournalBlk x ∨ x = sfsJournalBmap sb headerBlk) : after D pre x = D x := by
  refine Dev.after_other fun w hw => ?_
  have hblk : ∃ k < journalSize + 1, w.1 = sfsJournalBmap sb (bmapStartBlk + k) := by
    rcases List.mem_append.mp (hpre.subset hw) with hw | hw
    · obtain ⟨k, hk, hw⟩ := mem_jdataWrites hw
      refine ⟨1 + k, by omega, ?_⟩
      rw [hw, jdataStartBlk]
      congr 1
      omega
    · unfold bmapWrites at hw
      split_ifs at hw
      · cases hw
      · rw [List.mem_singleton.mp hw]
        exact ⟨0, Nat.succ_pos _, rfl⟩
  obtain ⟨k, hk, hw1⟩ := hblk
  rw [hw1]
  rcases hx with hx | rfl
  · rintro rfl
    exact hx (journalBlk_bmap (by unfold bmapStartBlk headerBlk; omega))
  · unfold sfsJournalBmap bmapStartBlk
    show (_ : ℕ) ≠ _
    omega

theorem journalBmapEntry_update (h32 : ∀ b ∈ bs, b < 2 ^ 32) {k : ℕ} (hk : k < bs.length)
    (D : Blk → Bytes) :
    journalBmapEntry sb (update D (sfsJournalBmap sb bmapStartBlk) (m.put 0 (bmapBytes bs))) k =
      bs[k] := by
  rw [journalBmapEntry, update_self, ← Nat.zero_add (4 * k)]
  exact le_bmapBytes hk h32

theorem after_committed (h32 : ∀ b ∈ bs, b < 2 ^ 32) {k : ℕ} (hk : k < bs.length) :
    let D' := after D (jdataWrites sb buf 0 bs ++ bmapWrites sb bs m)
    journalBmapEntry sb D' k = bs[k] ∧ journalData sb D' k = buf bs[k] := by
  have hnil : bs ≠ [] := List.ne_nil_of_length_pos (by omega)
  rw [bmapWrites, if_neg hnil, Dev.after_append, Dev.after_cons]
  constructor
  · exact journalBmapEntry_update h32 hk _
  · have hne : sfsJournalBmap sb (jdataStartBlk + k) ≠ sfsJournalBmap sb bmapStartBlk := by
      unfold sfsJournalBmap jdataStartBlk
      show (_ : ℕ) ≠ _
      omega
    refine (update_of_ne hne _ _).trans ?_
    have hdata := @after_jdataWrites sb buf bs 0 D k hk
    rwa [Nat.zero_add] at hdata

theorem after_home (hbs : ∀ b ∈ bs, ¬ sb.JournalBlk b) (hpre : pre <+: bs.map fun b => (b, buf b))
    (hx : sb.JournalBlk x) : after D pre x = D x := by
  refine Dev.after_other fun w hw => ?_
  obtain ⟨b, hb, rfl⟩ := List.mem_map.mp (hpre.subset hw)
  rintro rfl
  exact hbs b hb hx

theorem journalHeader_update {n : ℕ} (hn : n < 2 ^ 32) :
    journalHeader sb (update D (headerWrite sb n hdr).1 (headerWrite sb n hdr).2) = n := by
  rw [journalHeader, headerWrite, update_self, Bytes.le_put_of_lt hn]

/-- With the header written the whole transaction is in the journal, wherever the writes to the
places of its blocks stop. -/
theorem after_header (hbs : ∀ b ∈ bs, ¬ sb.JournalBlk b ∧ b < 2 ^ 32)
    (hlen : bs.length < journalSize) (hpre : pre <+: bs.map fun b => (b, buf b)) :
    let D' := after D ((jdataWrites sb buf 0 bs ++ bmapWrites sb bs m) ++
      headerWrite sb bs.length hdr :: pre)
    journalHeader sb D' = bs.length ∧ ∀ i (hi : i < bs.length),
      journalBmapEntry sb D' i = bs[i] ∧ journalData sb D' i = buf bs[i] := by
  rw [Dev.after_append, Dev.after_cons]
  have hkeep : ∀ lb, 0 < lb → lb < 2 + journalSize → ∀ D : Blk → Bytes,
      after (update D (headerWrite sb bs.length hdr).1 (headerWrite sb bs.length hdr).2) pre
        (sfsJournalBmap sb lb) = D (sfsJournalBmap sb lb) := fun lb hpos hlb D => by
    rw [after_home (fun b hb => (hbs b hb).1) hpre (journalBlk_bmap hlb)]
    refine update_of_ne ?_ _ _
    show sb.journalStart + lb ≠ sb.journalStart + 0
    omega
  refine ⟨?_, fun i hi => ?_⟩
  · rw [journalHeader, after_home (fun b hb => (hbs b hb).1) hpre journalBlk_header]
    exact journalHeader_update (hlen.trans (by decide))
  · have hin := @after_committed sb bs buf D m (fun b hb => (hbs b hb).2) i hi
    constructor
    · rw [journalBmapEntry, hkeep _ (by decide) (by decide)]
      exact hin.1
    · rw [journalData, hkeep _ (by unfold jdataStartBlk; omega)
        (by unfold jdataStartBlk bmapStartBlk headerBlk; omega)]
      exact hin.2

theorem after_erased (hbs : ∀ b ∈ bs, ¬ sb.JournalBlk b) {ws : List (Blk × Bytes)} :
    let D' := after D (ws ++ ((bs.map fun b => (b, buf b)) ++ [headerWrite sb 0 hdr0]))
    journalHeader sb D' = 0 ∧ ∀ b ∈ bs, D' b = buf b := by
  rw [Dev.after_append, Dev.after_append, Dev.after_cons]
  refine ⟨journalHeader_update (by decide), fun b hb => ?_⟩
  have hne : b ≠ sfsJournalBmap sb headerBlk := fun he => hbs b hb (he ▸ journalBlk_header)
  exact (update_of_ne hne _ _).trans (Dev.after_map (.inl hb))

end Crash

theorem prefix_append_cases {α : Type} {l l₁ l₂ : List α} (h : l <+: l₁ ++ l₂) :
    l <+: l₁ ∨ ∃ t, l = l₁ ++ t ∧ t <+: l₂ := by
  rcases List.prefix_or_prefix_of_prefix h (List.prefix_append l₁ l₂) with h1 | ⟨t, rfl⟩
  · exact .inl h1
  · exact .inr ⟨t, rfl, (List.prefix_append_right_inj l₁).mp h⟩

theorem prefix_marked_cases {α : Type} {l l₁ l₂ : List α} {x y : α}
    (h : l <+: l₁ ++ x :: (l₂ ++ [y])) :
    l <+: l₁ ∨ (∃ t, l = l₁ ++ x :: t ∧ t <+: l₂) ∨ l = (l₁ ++ [x]) ++ (l₂ ++ [y]) := by
  rcases prefix_append_cases h with h | ⟨t, rfl, ht⟩
  · exact .inl h
  rcases List.prefix_cons_iff.mp ht with rfl | ⟨u, rfl, hu⟩
  · rw [List.append_nil]
    exact .inl List.prefix_rfl
  rcases prefix_append_cases hu with hu | ⟨v, rfl, hv⟩
  · exact .inr (.inl ⟨u, rfl, hu⟩)
  rcases List.prefix_cons_iff.mp hv with rfl | ⟨w, rfl, hw⟩
  · rw [List.append_nil]
    exact .inr (.inl ⟨l₂, rfl, List.prefix_rfl⟩)
  · obtain rfl := List.prefix_nil.mp hw
    exact .inr (.inr (by simp))

/-- Wherever the writes of a commit stop, the device has the old contents and no transaction in the
journal, or the whole transaction in the journal, or the new contents and no transaction. -/
theorem commit_crash {s s' : Fs} (hbs : ∀ b ∈ s.ctl.logged, ¬ sb.JournalBlk b ∧ b < 2 ^ 32)
    (hlen : s.ctl.logged.length < journalSize) (hdev : journalHeader sb s.dev.disk = 0)
    (h : commitJournal sb s = .ok (.ok, s')) :
    ∃ ws, s'.dev = { s.dev with writes := s.dev.writes ++ ws } ∧ ∀ pre, pre <+: ws →
      let D := Dev.after s.dev.disk pre
      (journalHeader sb D = 0 ∧ ∀ b ∈ s.ctl.logged, D b = s.dev.disk b) ∨
      (journalHeader sb D = s.ctl.logged.length ∧ ∀ i (hi : i < s.ctl.logged.length),
        journalBmapEntry sb D i = s.ctl.logged[i] ∧
        journalData sb D i = s.data.buf s.ctl.logged[i]) ∨
      (journalHeader sb D = 0 ∧ ∀ b ∈ s.ctl.logged, D b = s.data.buf b) := by
  have hhome : ∀ b ∈ s.ctl.logged, ¬ sb.JournalBlk b := fun b hb => (hbs b hb).1
  obtain ⟨_, _, m, hdr, hdr0, hw⟩ := commitJournal_ok hhome h
  refine ⟨_, hw, fun pre hpre => ?_⟩
  rcases prefix_marked_cases hpre with hpre | ⟨t, rfl, ht⟩ | rfl
  · refine .inl ⟨?_, fun b hb => after_uncommitted hlen hpre (.inl (hhome b hb))⟩
    rw [journalHeader, after_uncommitted hlen hpre (.inr rfl)]
    exact hdev
  · exact .inr (.inl (after_header hbs hlen ht))
  · exact .inr (.inr (after_erased hhome))

/-- A transaction with the inode bitmap and an inode block, on an empty device. -/
def twoLogged : Fs where
  data := ⟨fun b => if b = sfsInodeBmapBlk then Bytes.zero.setBit 0 else Bytes.zero, fun _ =>
    none, [], fun _ => none⟩
  ctl := { Ctl.idle true fun _ => true with
    ref := fun b => if b = sfsInodeBmapBlk ∨ b = sfsInodeTableBlk then 1 else 0
    logged := [sfsInodeBmapBlk, sfsInodeTableBlk]
    headers := fun q => if q = 0 then nBlksPerPage else 0 }
  dev := ⟨fun _ => Bytes.zero, []⟩

theorem commit_crash_two : ∃ ws, (Prog.final (commitJournal mkfsSb) twoLogged).dev.writes = ws ∧
    ∀ pre, pre <+: ws → journalHeader mkfsSb (Dev.after (fun _ => Bytes.zero) pre) = 2 →
      journalBmapEntry mkfsSb (Dev.after (fun _ => Bytes.zero) pre) 1 = sfsInodeTableBlk := by
  have hrun : commitJournal mkfsSb twoLogged =
      .ok (.ok, Prog.final (commitJournal mkfsSb) twoLogged) :=
    Prog.run_of_result (by decide +kernel)
  obtain ⟨ws, hw, hpre⟩ := commit_crash (s := twoLogged) (by
    intro b hb
    have : b = sfsInodeBmapBlk ∨ b = sfsInodeTableBlk := by simpa [twoLogged] using hb
    rcases this with rfl | rfl <;> exact ⟨fun h => absurd h.1 (by decide), by decide⟩)
    (by decide) (by decide) hrun
  refine ⟨ws, by rw [hw]; rfl, fun pre hp h2 => ?_⟩
  rcases hpre pre hp with ⟨h0, _⟩ | ⟨_, h⟩ | ⟨h0, _⟩
  · exact absurd (h0.symm.trans h2) (by decide)
  · exact (h 1 (by decide)).1
  · exact absurd (h0.symm.trans h2) (by decide)

end Osv
