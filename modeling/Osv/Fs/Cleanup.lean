import Osv.Fs.Names
import Osv.Fs.Txn
import Osv.Fs.Vfs

/-!
# A round of the cleanup thread

`fs_release_inode` hands an inode whose last reference is given up to
`fs_inode_cleanup_thread` if the inode is dirty or has no links.  The thread writes or
deletes it in a transaction of its own and then gives the reference up again.

`sfs_delete_inode` sets the number of the inode to 0, and `fs_release_inode` asserts
that the number is not 0 and removes the inode from the cache under this number.  So a
round for an inode without links never ends, and a round for a dirty inode ends with
the inode out of the cache (`cleanup_completes_iff`).
-/

namespace Osv

open Prog (bind_of_ok bind_ok bind_run read_bind wp_of_ok wp_read)

open Prog (wp wp_bind wp_pure)

variable (sb : SbInfo)

/-- Call until the call succeeds, with `n` tries at most. -/
def untilOk (call : FsM Err) : ℕ → FsM Unit
  | 0 => Prog.trap (.wild "retry")
  | n + 1 => do
    let err ← call
    if err = .ok then pure () else untilOk call n

/-- The body of the loop of `fs_inode_cleanup_thread`, whose inner loops make `n` tries at most.
The thread waits for an inode. -/
def cleanupRound (n : ℕ) : FsM Unit := do
  let s ← Prog.read
  match s.data.cleanup with
  | [] => Prog.trap (.wild "wait")
  | i :: rest => do
    modifyData fun d => { d with cleanup := rest }
    jbdBeginTxn
    let ino ← inode i
    if ino.nlink = 0 then do
      untilOk (sfsDeleteInode sb i) n
      jbdEndTxn sb n
      -- `sfs_delete_inode` has set `i_inum`
      fsReleaseInodeAs i 0
    else do
      kassert "fs_is_inode_dirty(inode)" fun _ => ino.dirty
      untilOk (sfsWriteInode i) n
      jbdEndTxn sb n
      fsReleaseInode i

theorem exec_retry (u : Caller) (m : VfsM Err) (n : ℕ) :
    (VfsM.retry m n).exec (VfsCall.alone sb u) = untilOk (m.exec (VfsCall.alone sb u)) n := by
  induction n with
  | zero => rfl
  | succ n ih =>
    rw [VfsM.retry, untilOk, Calls.exec_bind]
    refine congrArg _ (funext fun err => ?_)
    split
    · rfl
    · exact ih

theorem exec_fsInodeCleanup (u : Caller) :
    (fsInodeCleanup u.tries).exec (VfsCall.alone sb u) = cleanupRound sb u.tries := by
  funext s
  rw [cleanupRound, read_bind, fsInodeCleanup, Calls.exec_bind, VfsM.nextInode, VfsM.make,
    Calls.exec_perform]
  cases hl : s.data.cleanup with
  | nil =>
    have hnext : VfsCall.alone sb u .nextInode s = .error (.wild "wait") := by
      simp only [VfsCall.alone, read_bind, hl]
      rfl
    rw [bind_run, hnext]
    rfl
  | cons i rest =>
    have hnext : VfsCall.alone sb u .nextInode s =
        .ok (i, { s with data := { s.data with cleanup := rest } }) := by
      simp only [VfsCall.alone, read_bind, hl]
      rfl
    rw [bind_of_ok hnext]
    refine congrFun (congrArg (jbdBeginTxn >>= ·) (funext fun _ =>
      congrArg (inode i >>= ·) (funext fun ino => ?_))) _
    show Calls.exec _ (if ino.nlink = 0 then _ else _) = _
    by_cases hlinks : ino.nlink = 0
    · rw [if_pos hlinks, if_pos hlinks, Calls.exec_bind, exec_retry, VfsM.deleteInode, VfsM.make,
        Calls.exec_perform]
      rfl
    · rw [if_neg hlinks, if_neg hlinks, VfsM.assert]
      cases hd : ino.dirty with
      | false => rfl
      | true =>
        show (VfsM.retry (VfsM.writeInode i) u.tries >>= fun _ => _).exec _ = _
        rw [Calls.exec_bind, exec_retry, VfsM.writeInode, VfsM.make, Calls.exec_perform]
        refine congrArg (_ >>= ·) (funext fun _ => ?_)
        rw [Calls.exec_bind, VfsM.endTxn, VfsM.make, Calls.exec_perform]
        exact congrArg (_ >>= ·) (funext fun _ => Calls.exec_perform _)

/-! ## Inodes without links -/

theorem fsReleaseInodeAs_zero (i : Inum) (s : Fs) :
    fsReleaseInodeAs i 0 s = .error (.kassert "inode->i_inum > 0") := rfl

/-! ## Commits with enough memory -/

section commit

variable {sb} {A : ℕ → Bool} {p : Blk → ℕ} {h : List Blk} {L : ℕ} {d : Data} {c : Ctl} {v : Dev}
variable {E : Trap → Prop} {b : Blk} {S : Finset Blk} {bs : List Blk}

theorem wp_bdevWriteBlk {Q : Bool → Fs → Prop} (hA : ¬ Fails A) (hc : c.At E A p h L)
    (hQ : ∀ c' v', c'.At E A p h L → c'.logged = c.logged → Q true ⟨d, c', v'⟩) :
    wp (bdevWriteBlk b) Q E ⟨d, c, v⟩ := by
  rw [bdevWriteBlk, wp_bind]
  exact (keeps_memAlloc.map (·.2.2)).wp_intro (wp_memAlloc hc (fun c' h' hl => hQ c' _ h' hl)
    fun hf => absurd hf hA)

variable {Q : Err → Fs → Prop}

theorem wp_writeJblk {lb : ℕ} {content : FsM (Bytes → Bytes)} (hA : ¬ Fails A)
    (hc : c.At E A p [] L) (hcontent : ∀ c', c'.At E A p [sfsJournalBmap sb lb] L → ∃ f,
    content ⟨d, c', v⟩ = .ok (f, ⟨d, c', v⟩))
    (hQ : ∀ d' c' v', c'.At E A p [] L → c'.logged = c.logged → Q .ok ⟨d', c', v'⟩) :
    wp (writeJblk sb lb content) Q E ⟨d, c, v⟩ := by
  rw [writeJblk, wp_bind]
  refine ((keeps_bdevGetBlk _).map (·.2.2)).wp_intro
    (wp_bdevGetBlk List.not_mem_nil hc (fun c1 h1 hl1 => ?_) fun _ hf => absurd hf hA)
  obtain ⟨f, hf⟩ := hcontent c1 h1
  rw [if_pos rfl, wp_bind]
  refine wp_of_ok hf ?_
  rw [wp_bind, blkWrite, wp_modifyData, wp_bind]
  refine wp_bdevWriteBlk hA h1 fun c2 v2 h2 hl2 => ?_
  rw [if_pos rfl, wp_bind]
  exact ((keeps_bdevReleaseBlk _).map (·.2.2)).wp_intro
    (wp_release_head h2 fun c3 h3 hl3 => hQ _ c3 v2 h3 (hl3.trans (hl2.trans hl1)))

theorem loggedContent_run (hb : b ∉ c.held) :
    ∃ f, loggedContent b ⟨d, c, v⟩ = .ok (f, ⟨d, c, v⟩) := by
  have hlock : blkLock b ⟨d, c, v⟩ = .ok ((), ⟨d, { c with held := b :: c.held }, v⟩) := by
    rw [blkLock, read_bind, if_neg hb]
    rfl
  have hunlock : blkUnlock b ⟨d, { c with held := b :: c.held }, v⟩ = .ok ((), ⟨d, c, v⟩) := by
    rw [blkUnlock, kassert_bind (by simp)]
    show Except.ok ((), Fs.mk d { c with held := (b :: c.held).erase b } v) = _
    rw [List.erase_cons_head]
  refine ⟨fun _ => d.buf b, ?_⟩
  rw [loggedContent, bind_of_ok hlock, read_bind, bind_of_ok hunlock]
  rfl

theorem wp_writeJdata (hA : ¬ Fails A) : ∀ {bs : List Blk} {k : ℕ} {d : Data} {c : Ctl}
    {v : Dev}, (∀ b ∈ bs, ¬ sb.JournalBlk b) → k + bs.length ≤ journalSize → c.At E A p [] L →
    (∀ d' c' v', c'.At E A p [] L → c'.logged = c.logged → Q .ok ⟨d', c', v'⟩) →
    wp (writeJdata sb k bs) Q E ⟨d, c, v⟩
  | [], k, d, c, v, _, _, hc, hQ => hQ d c v hc rfl
  | b :: rest, k, d, c, v, hbs, hk, hc, hQ => by
    rw [List.length_cons] at hk
    have hj : sb.JournalBlk (sfsJournalBmap sb (jdataStartBlk + k)) := journalBlk_bmap (by
      unfold jdataStartBlk bmapStartBlk headerBlk
      omega)
    rw [writeJdata, wp_bind]
    refine wp_writeJblk hA hc (fun c1 h1 => loggedContent_run ?_) fun d1 c1 v1 h1 hl1 => ?_
    · rw [h1.held]
      exact fun hmem => hbs b List.mem_cons_self (List.mem_singleton.mp hmem ▸ hj)
    · rw [if_pos rfl]
      exact wp_writeJdata hA (fun b' hb' => hbs b' (List.mem_cons_of_mem b hb')) (by omega) h1
        fun d2 c2 v2 h2 hl2 => hQ d2 c2 v2 h2 (hl2.trans hl1)

theorem wp_writeJournalHeader (hA : ¬ Fails A) (hc : c.At E A p [] L)
    (hQ : ∀ d' c' v', c'.At E A p [] L → c'.logged = c.logged → Q .ok ⟨d', c', v'⟩) :
    wp (writeJournalHeader sb) Q E ⟨d, c, v⟩ := by
  rw [writeJournalHeader, wp_bind, wp_read]
  exact wp_writeJblk hA hc (fun c' _ => ⟨_, rfl⟩) hQ

theorem memAlloc_run (ha : ∀ t, c.avail t = true) :
    memAlloc ⟨d, c, v⟩ = .ok (true, ⟨d, { c with tick := c.tick + 1 }, v⟩) := by
  rw [memAlloc, read_bind]
  show Except.ok (c.avail c.tick, _) = _
  rw [ha]

theorem bdevWriteBlk_run (ha : ∀ t, c.avail t = true) :
    bdevWriteBlk b ⟨d, c, v⟩ = .ok (true, ⟨d, { c with tick := c.tick + 1 },
      { v with writes := v.writes ++ [(b, d.buf b)] }⟩) := by
  rw [bdevWriteBlk, bind_of_ok (memAlloc_run ha)]
  rfl

/-- The references of the list are given up one by one, and the list is emptied after that. -/
theorem wp_applyBlks (hA : ∀ t, A t = true) : ∀ {bs : List Blk} {c : Ctl} {v : Dev},
    Ctl.At E A (fun b => p b + bs.count b) [] 0 { c with logged := [] } →
    (∀ c' v', Ctl.At E A p [] 0 { c' with logged := [] } → Q .ok ⟨d, c', v'⟩) →
    wp (applyBlks bs) Q E ⟨d, c, v⟩
  | [], c, v, hc, hQ => hQ c v (by simpa using hc)
  | b :: rest, c, v, hc, hQ => by
    have ha : c.avail = A := hc.avail
    have hh : c.held = [] := hc.held
    have hr : ∀ b', c.ref b' = p b' + (b :: rest).count b' := fun b' => by simpa using hc.refs b'
    have hlock : blkLock b ⟨d, c, v⟩ = .ok ((), ⟨d, { c with held := [b] }, v⟩) := by
      rw [blkLock, read_bind, if_neg (by simp [hh]), ← hh]
      rfl
    have hpos : 0 < c.ref b := by
      rw [hr b, List.count_cons_self]
      omega
    rw [applyBlks, wp_bind]
    refine wp_of_ok hlock ?_
    rw [wp_bind]
    refine wp_of_ok (bdevWriteBlk_run (ha ▸ hA)) ?_
    rw [if_pos rfl, wp_bind, bdevReleaseBlk, wp_bind, blkUnlock, wp_kassert_bind
      (by simp), wp_modifyCtl, bdevReleaseBlkUnlocked, wp_kassert_bind (by simp [hpos]),
      wp_modifyCtl]
    have hc' : Ctl.At E A (fun b => p b + rest.count b) [] 0
        { c with
          logged := []
          tick := c.tick + 1
          held := [b].erase b
          ref := Function.update c.ref b (c.ref b - 1) } :=
      { hc with
        held := by simp
        refs := fun b' => by
          have := hr b'
          by_cases hb : b' = b
          · subst hb
            rw [List.count_cons_self] at this
            simp only [Function.update_self, List.count_nil, Nat.add_zero]
            omega
          · rw [List.count_cons_of_ne (Ne.symm hb)] at this
            simpa [Function.update_of_ne hb] using this }
    refine wp_applyBlks hA ?_ hQ
    rcases Ctl.freeBlkHeaders_cases
      { c with
        tick := c.tick + 1, held := [b].erase b, ref := Function.update c.ref b (c.ref b - 1) }
      (b / nBlksPerPage) with he | he <;> rw [he]
    · exact hc'
    · exact hc'.setHeaders _ fun _ => .inl rfl

section

variable (hA : ∀ t, A t = true) (hc : c.At E A p [] L) (hroom : c.logged.length < journalSize)
variable (hj : ∀ b ∈ c.logged, ¬ sb.JournalBlk b)

include hA hc hroom hj

theorem wp_commitJournal (hQ : ∀ d' c' v', c'.At E A p [] 0 → Q .ok ⟨d', c', v'⟩) :
    wp (commitJournal sb) Q E ⟨d, c, v⟩ := by
  have hA' : ¬ Fails A := fun ⟨t, ht⟩ => by rw [hA] at ht; cases ht
  rw [commitJournal, wp_bind, writeJournalBlks, wp_bind, wp_kassert]
  refine ⟨fun _ => ?_, fun hn => by simp [hroom] at hn⟩
  rw [wp_bind, wp_read, wp_bind]
  have hdata : 0 + c.logged.length ≤ journalSize := by omega
  refine wp_writeJdata hA' hj hdata hc fun d1 c1 v1 h1 hl1 => ?_
  rw [if_pos rfl]
  have hmap : ∀ {R : Err → Fs → Prop},
      (∀ d' c' v', c'.At E A p [] L → c'.logged = c.logged → R .ok ⟨d', c', v'⟩) →
      wp (if c.logged = [] then pure .ok
        else writeJblk sb bmapStartBlk (pure fun m => m.put 0 (bmapBytes c.logged)))
        R E ⟨d1, c1, v1⟩ := by
    intro R hR
    split
    · exact hR d1 c1 v1 h1 hl1
    · exact wp_writeJblk hA' h1 (fun c' _ => ⟨_, rfl⟩) fun d' c' v' h' hl' =>
        hR d' c' v' h' (hl'.trans hl1)
  refine hmap fun d2 c2 v2 h2 hl2 => ?_
  rw [if_neg (by decide), wp_bind]
  refine wp_writeJournalHeader hA' h2 fun d3 c3 v3 h3 hl3 => ?_
  rw [if_neg (by decide), wp_bind, applyJournal, wp_bind, wp_read]
  have h3' : Ctl.At E A (fun b => p b + c3.logged.count b) [] 0 { c3 with logged := [] } :=
    { h3 with refs := fun b => by simpa using h3.refs b, logged := Nat.le_refl 0 }
  refine wp_applyBlks hA h3' fun c4 v4 h4 => ?_
  rw [if_neg (by decide), eraseJournal, wp_bind, wp_modifyCtl]
  exact wp_writeJournalHeader hA' h4 fun d5 c5 v5 h5 _ => hQ d5 c5 v5 h5

theorem wp_jbdEndTxn {Q : Unit → Fs → Prop} {n : ℕ}
    (hQ : ∀ d' c' v', c'.avail = A → (c'.Untorn A ∨ E blkNotFound) → c'.held = [] → c'.logged = [] →
      Fs.home sb ⟨d', c', v'⟩ = Fs.home sb ⟨d, c, v⟩ → Q () ⟨d', c', v'⟩) :
    wp (jbdEndTxn sb (n + 1)) Q E ⟨d, c, v⟩ := by
  have hreturns : wp (jbdEndTxn sb (n + 1))
      (fun _ s => s.ctl.avail = A ∧ (s.ctl.Untorn A ∨ E blkNotFound)) E
      ⟨d, c, v⟩ := by
    rw [jbdEndTxn, wp_kassert_bind (by simp [hc.busy]), wp_bind, wp_read]
    split
    · rw [wp_bind, commitLoop, wp_bind]
      refine wp_commitJournal hA hc hroom hj fun d' c' v' h' => ?_
      rw [if_pos rfl, wp_pure, wp_modifyCtl]
      exact ⟨h'.avail, h'.pages⟩
    · exact ⟨hc.avail, hc.pages⟩
  refine Prog.wp_of_runs (fun a s' hm => ?_) fun e hm => ?_
  · obtain ⟨hheld, hlog, -, hhome⟩ := jbdEndTxn_ok hc.held hm
    obtain ⟨ha, hp⟩ := Prog.wp_ok (Q := fun _ s => s.ctl.avail = A ∧
        (s.ctl.Untorn A ∨ E blkNotFound)) hreturns hm
    exact hQ s'.data s'.ctl s'.dev ha hp hheld hlog hhome
  · unfold wp at hreturns
    rw [hm] at hreturns
    exact hreturns

end

end commit

/-! ## Dirty inodes -/

section round

variable {sb} {i : Inum} {n : Inode} {d : Data} {c : Ctl} {v : Dev} {E : Trap → Prop}

/-- The cleanup thread is about to take the inode, and memory can be had. -/
structure CleanupDue (sb : SbInfo) (s : Fs) (i : Inum) (n : Inode) : Prop where
  first : ∃ rest, s.data.cleanup = i :: rest
  inum : sb.IsInum i
  cached : s.data.icache i = some n
  ref : n.ref = 1
  valid : n.valid = true
  due : n.nlink = 0 ∨ n.dirty = true
  avail : ∀ t, s.ctl.avail t = true
  idle : s.ctl.busy = false ∧ s.ctl.held = [] ∧ s.ctl.logged = []
  pages : s.ctl.Unbroken

theorem wp_sfsWriteInode {Q : Err → Fs → Prop} {A : ℕ → Bool} {p : Blk → ℕ} (hA : ¬ Fails A)
    (hi : i ≠ 0) (hn : d.icache i = some n) (hc : c.Txn E A p [] ∅ {inumToBlk i})
    (hQ : ∀ c', c'.Txn E A p [] ∅ {inumToBlk i} →
    Q .ok ⟨d.storeIno i { n with dirty := false }, c', v⟩) :
    wp (sfsWriteInode i) Q E ⟨d, c, v⟩ := by
  have hmem : inumToBlk i ∈ ({inumToBlk i} : Finset Blk) := Finset.mem_singleton_self _
  have hcard : ({inumToBlk i} : Finset Blk).card ≤ journalSize := by
    rw [Finset.card_singleton]
    decide
  rw [sfsWriteInode, wp_bind]
  refine wp_inode hn ?_
  rw [wp_kassert_bind (by simp [hi]), wp_bind]
  refine hc.wp_getBlk List.not_mem_nil (fun c1 h1 => ?_) fun _ _ hf => absurd hf hA
  rw [if_pos rfl, wp_bind]
  refine h1.wp_logWrite hmem hcard fun c2 h2 => ?_
  rw [wp_bind, Osv.setInode, wp_modifyData, wp_bind]
  exact h2.wp_release fun c3 h3 => hQ c3 h3

/-- A round for a dirty inode that has links takes the inode out of the cache. -/
theorem CleanupDue.returns {s : Fs} (h : CleanupDue sb s i n) (hl : n.nlink ≠ 0) (k : ℕ) :
    ∃ s', cleanupRound sb (k + 1) s = .ok ((), s') ∧ s'.data.icache i = none ∧ s'.ctl.held = [] ∧
      s'.ctl.logged = [] ∧ ¬ Fails s'.ctl.avail ∧ s'.ctl.Unbroken ∧
        s'.data.diskIno i = n.trunc := by
  obtain ⟨d, c, v⟩ := s
  obtain ⟨rest, hfirst⟩ := h.first
  obtain ⟨hbusy, hheld, hlog⟩ := h.idle
  have hi : i ≠ 0 := Nat.pos_iff_ne_zero.mp h.inum.1
  have hdirty : n.dirty = true := h.due.resolve_left hl
  have hA : ¬ Fails c.avail := fun ⟨t, ht⟩ => by
    have := h.avail t
    rw [show c.avail t = false from ht] at this
    cases this
  have hj : ∀ b ∈ ({inumToBlk i} : Finset Blk), ¬ sb.JournalBlk b := fun b hb =>
    Finset.mem_singleton.mp hb ▸ not_journalBlk_inumToBlk h.inum
  have hcard : ({inumToBlk i} : Finset Blk).card < journalSize := by
    rw [Finset.card_singleton]
    decide
  have hstart : Ctl.Txn (fun _ => False) c.avail c.ref [] ∅ {inumToBlk i} { c with busy := true } :=
    Ctl.Txn.start (c := { c with busy := true }) rfl hheld hlog (.inl (h.pages.untorn hA))
  have hwp : wp (cleanupRound sb (k + 1)) (fun _ s' => s'.data.icache i = none ∧ s'.ctl.held = [] ∧
      s'.ctl.logged = [] ∧ ¬ Fails s'.ctl.avail ∧ s'.ctl.Unbroken ∧
      s'.data.diskIno i = n.trunc) (fun _ => False)
      ⟨d, c, v⟩ := by
    rw [cleanupRound, wp_bind, wp_read]
    simp only at hfirst
    simp only [hfirst]
    rw [wp_bind, wp_modifyData, wp_bind, jbdBeginTxn, wp_bind, wp_read]
    simp only at hbusy
    simp only [hbusy, Bool.false_eq_true, if_false]
    rw [wp_modifyCtl, wp_bind]
    refine wp_inode (n := n) h.cached ?_
    rw [if_neg hl, wp_kassert_bind (by simp [hdirty]), wp_bind, untilOk, wp_bind]
    refine wp_sfsWriteInode hA hi h.cached hstart fun c1 h1 => ?_
    rw [if_pos rfl, wp_pure, wp_bind]
    refine wp_jbdEndTxn h.avail h1.toAt (h1.logged.trans_lt hcard) (fun b hb => hj b (h1.sub b hb))
      fun d2 c2 v2 ha hp hh hlog2 hhome => ?_
    have hcached : d2.icache i = some { n with dirty := false } :=
      (congrFun (icache_of_home hhome) i).trans Data.setInode_icache_self
    have hdisk : d2.diskIno i = n.trunc :=
      (diskIno_of_home hhome h.inum).trans (Data.diskIno_putIno_self ..)
    rw [fsReleaseInode, fsReleaseInodeAs, wp_kassert_bind (by simp [Nat.pos_iff_ne_zero, hi]),
      wp_bind]
    refine wp_inode hcached ?_
    rw [wp_kassert_bind (by simp [h.ref]), if_pos (by rw [h.ref]), if_neg (by simp [hl]), wp_bind,
      wp_kassert]
    refine ⟨fun _ => ?_, fun hn => by simp at hn⟩
    exact ⟨Data.setInode_icache_self, hh, hlog2, fun hf => hA (ha ▸ hf), (hp.resolve_right id).1,
      hdisk⟩
  obtain ⟨_, s', hrun, hs'⟩ := Prog.wp_returns hwp
  exact ⟨s', hrun, hs'⟩

theorem CleanupDue.stuck {s s' : Fs} (h : CleanupDue sb s i n) (hl : n.nlink = 0) (k : ℕ) :
    cleanupRound sb k s ≠ .ok ((), s') := by
  intro hrun
  obtain ⟨rest, hfirst⟩ := h.first
  rw [cleanupRound, read_bind] at hrun
  simp only [hfirst] at hrun
  obtain ⟨s1, hs1, h1⟩ := Prog.update_bind_ok.mp hrun
  obtain ⟨_, s2, h2, h3⟩ := bind_ok.mp h1
  have hs2 : s2.data = s1.data := by
    rw [jbdBeginTxn, read_bind] at h2
    split at h2
    · cases h2
    · cases h2
      rfl
  have hcached : s2.data.icache i = some n := by
    rw [hs2, hs1]
    exact h.cached
  obtain ⟨n', s3, h4, h5⟩ := bind_ok.mp h3
  have hn' : n' = n := by
    rw [inode, read_bind, hcached] at h4
    cases h4
    rfl
  rw [hn', if_pos hl] at h5
  obtain ⟨_, s4, -, h6⟩ := bind_ok.mp h5
  obtain ⟨_, s5, -, h7⟩ := bind_ok.mp h6
  rw [fsReleaseInodeAs_zero] at h7
  cases h7

/-! ## Reading the inode again -/

/-- With enough memory an inode that is not in the cache is read from the device. -/
theorem fsGetInode_fresh {s : Fs} (hi : sb.IsInum i) (hn : s.data.icache i = none)
    (hA : ¬ Fails s.ctl.avail) (hh : s.ctl.held = []) (hl : s.ctl.logged = [])
    (hp : s.ctl.Unbroken) : ∃ s', fsGetInode i s = .ok (.ok (), s') ∧
      s'.data.icache i = some ⟨s.data.diskIno i, 1, true, false⟩ := by
  have hopen : (s.setBusy true).ctl.Open s.ctl.avail s.ctl.ref :=
    ⟨_, (Ctl.Txn.start (c := (s.setBusy true).ctl) (S := ∅) rfl hh hl
      (.inl (Ctl.Unbroken.untorn hp hA))).toAt⟩
  have hwp : wp (fsGetInode i) (fun r s' => r = .ok () ∧
      s'.data.icache i = some ⟨s.data.diskIno i, 1, true, false⟩) (fun _ => False) s := by
    have hnone : (s.setBusy true).data.icache i = none := hn
    refine (quiet_fsGetInode i).wp_of_busy ?_
    rw [fsGetInode, wp_bind, wp_read]
    simp only [hnone]
    rw [wp_bind]
    refine wp_newInode hopen (fun hf => absurd hf hA) (fun c1 h1 => ?_) fun hf => absurd hf hA
    exact wp_validInode_new hi hn h1 (fun c2 _ => ⟨rfl, Data.setInode_icache_self⟩)
      fun hf => absurd hf hA
  obtain ⟨_, s', hrun, rfl, hs'⟩ := Prog.wp_returns hwp
  exact ⟨s', hrun, hs'⟩

end round

/-- An empty file with its inode on the list of the cleanup thread. -/
def dueFs (nlink : ℕ) : Fs where
  data := ⟨fun _ => Bytes.zero,
    fun i => if i = 2 then some ⟨⟨ftypeFile, 0, nlink, 0, fun _ => 0⟩, 1, true, true⟩ else
    none, [2], fun _ => none⟩
  ctl := .idle false fun _ => true
  dev := ⟨fun _ => Bytes.zero, []⟩

theorem dueFs_due (nlink : ℕ) :
    CleanupDue mkfsSb (dueFs nlink) 2 ⟨⟨ftypeFile, 0, nlink, 0, fun _ => 0⟩, 1, true, true⟩ where
  first := ⟨[], rfl⟩
  inum := ⟨by decide, by decide⟩
  cached := rfl
  ref := rfl
  valid := rfl
  due := .inr rfl
  avail _ := rfl
  idle := ⟨rfl, rfl, rfl⟩
  pages _ := .inl rfl

end Osv
