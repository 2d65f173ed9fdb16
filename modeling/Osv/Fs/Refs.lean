import Osv.Fs.Lookup
import Osv.Fs.Txn

/-!
# References to inodes

`iref` counts the references to the inodes in memory.  The functions that read the
file system move it in one way each: `fs_get_inode` adds a reference or fails and
adds none, a lookup adds one to the inode that it finds, and `fs_release_inode` takes
one, unless it is the last and goes to the cleanup thread with the inode.

From these the calls of `fs_open_file` are followed to each of its exits.  The
references of an inode that has one already are as they were where it fails, with one
exception: a path of slashes.  The directory and the file are the same inode then,
with one reference, and the exit for want of a `struct file` releases both.
-/

namespace Osv

open Function (update update_self update_of_ne update_idem update_eq_self)
open Prog (bind_ok keeps_bind keeps_check keeps_ite keeps_pure keeps_read keeps_trap read_bind)

variable {sb : SbInfo}

/-- `i_ref` of an inode.  An inode that is not in memory has no references. -/
def Fs.iref (s : Fs) (i : Inum) : ℕ := (s.data.icache i).elim 0 Inode.ref

/-- The inodes in memory. -/
def Fs.inodes (s : Fs) : Inum → Option Inode := s.data.icache

theorem Fs.iref_congr {s s' : Fs} (h : s'.inodes = s.inodes) : s'.iref = s.iref := by
  funext i
  have hi : s'.data.icache i = s.data.icache i := congrFun h i
  rw [Fs.iref, Fs.iref, hi]

variable {i : Inum}

theorem Fs.iref_cached {s : Fs} {n : Inode} (h : s.data.icache i = some n) : s.iref i = n.ref := by
  rw [Fs.iref, h]
  rfl

theorem Fs.iref_setInode {s s' : Fs} {o : Option Inode}
    (h : s'.data.icache = (s.data.setInode i o).icache) :
    s'.iref = update s.iref i (o.elim 0 Inode.ref) := by
  funext j
  rcases eq_or_ne j i with rfl | hne
  · rw [Fs.iref, h, Data.setInode_icache_self, update_self]
  · rw [Fs.iref, h, Data.setInode_icache_of_ne hne, update_of_ne hne, Fs.iref]

theorem Fs.iref_put (s : Fs) (i : Inum) (o : Option Inode) :
    Fs.iref { s with data := s.data.setInode i o } = update s.iref i (o.elim 0 Inode.ref) :=
  Fs.iref_setInode (s := s) rfl

/-! ## Functions that leave the inodes alone -/

section keeps

variable {α : Type}

theorem keeps_inodes_of_rest {m : FsM α} (h : Prog.Keeps Fs.rest m) : Prog.Keeps Fs.inodes m :=
  h.map (·.1.icache)

theorem keeps_inodes_of_home {m : FsM α} (h : Prog.Keeps (Fs.home sb) m) : Prog.Keeps Fs.inodes m :=
  fun s a s' hm => icache_of_home (h s a s' hm)

theorem inodes_byParts : ByParts fun {_} m => Prog.Keeps Fs.inodes m where
  bind := keeps_bind
  read_bind hf _ := keeps_bind keeps_read hf
  kassert _ := keeps_check _ _
  pure := keeps_pure
  trap := keeps_trap
  get b := keeps_inodes_of_rest (keeps_bdevGetBlk b)
  getUnlocked _ := keeps_bdevGetBlkUnlocked (keeps_inodes_of_rest keeps_memAlloc)
    (Prog.keeps_update fun _ => rfl) fun _ => Prog.keeps_update fun _ => rfl
  release b := keeps_inodes_of_rest (keeps_bdevReleaseBlk b)
  releaseUnlocked _ :=
    keeps_bind (keeps_check _ _) fun _ => Prog.keeps_update fun _ => rfl

theorem keeps_inodes_jbdBeginTxn : Prog.Keeps Fs.inodes jbdBeginTxn :=
  keeps_bind keeps_read fun _ =>
    keeps_ite (keeps_trap _) (Prog.keeps_update fun _ => rfl)

theorem keeps_inodes_jbdEndTxn (n : ℕ) : Prog.Keeps Fs.inodes (jbdEndTxn sb n) :=
  keeps_bind (keeps_check _ _) fun _ => keeps_bind keeps_read fun _ => keeps_ite
    (keeps_bind (keeps_inodes_of_home (keeps_home_commitLoop n)) fun _ =>
      Prog.keeps_update fun _ => rfl)
    (Prog.keeps_update fun _ => rfl)

end keeps

/-! ## Taking and releasing a reference -/

variable {α : Type}

section counts

variable {s s' : Fs} {i : Inum} {n : Inode} {e : Err}

theorem inode_bind_ok {f : Inode → FsM α} {r : α × Fs} : (inode i >>= f)
    s = .ok r ↔ ∃ n, s.data.icache i = some n ∧ f n s = .ok r := by
  rw [inode, Prog.bind_run, read_bind]
  cases s.data.icache i with
  | none => simp [Prog.trap]
  | some n => simp

/-- Reading an inode leaves its references, and makes it valid if it can. -/
theorem sfsReadInode_ok (hn : s.data.icache i = some n) (h : sfsReadInode i s = .ok (e, s')) :
    (e = .ok ∧ ∃ n', n'.ref = n.ref ∧ n'.valid = true ∧
    s'.inodes = (s.data.setInode i (some n')).icache) ∨ (e = .nomem ∧ s'.inodes = s.inodes) := by
  obtain ⟨m, hm, h⟩ := inode_bind_ok.mp h
  rw [hn] at hm
  cases hm
  obtain ⟨-, h⟩ := kassert_bind_ok.mp h
  obtain ⟨-, h⟩ := kassert_bind_ok.mp h
  obtain ⟨r, s2, hget, h⟩ := bind_ok.mp h
  have hk := keeps_inodes_of_rest (keeps_bdevGetBlk _) _ _ _ hget
  cases r with
  | false =>
    cases h
    exact .inr ⟨rfl, hk⟩
  | true =>
    rw [if_pos rfl, read_bind] at h
    obtain ⟨s3, rfl, h⟩ := Prog.update_bind_ok.mp h
    obtain ⟨_, s4, hrel, h⟩ := bind_ok.mp h
    cases h
    refine .inl ⟨rfl, { n with
      toDInode := DInode.decode (s2.data.buf (inumToBlk i)) (inumToOfs i)
      valid := true }, rfl, rfl, ?_⟩
    rw [keeps_inodes_of_rest (keeps_bdevReleaseBlk _) _ _ _ hrel]
    show update s2.data.icache i _ = update s.data.icache i _
    rw [show s2.data.icache = s.data.icache from hk]

/-- What `fs_release_inode` does: it takes a reference, or hands the last one to the cleanup thread.
-/
theorem fsReleaseInode_ok (h : fsReleaseInode i s = .ok ((), s')) :
    ∃ n, s.data.icache i = some n ∧ 0 < n.ref ∧
      ((n.ref = 1 ∧ n.valid = true ∧ (n.nlink = 0 ∨ n.dirty = true) ∧ s'.iref = s.iref) ∨
        ((n.ref = 1 → n.valid = true → n.nlink ≠ 0 ∧ n.dirty = false) ∧
          s'.iref = update s.iref i (n.ref - 1))) := by
  obtain ⟨-, h⟩ := kassert_bind_ok.mp h
  obtain ⟨n, hn, h⟩ := inode_bind_ok.mp h
  obtain ⟨hpos, h⟩ := kassert_bind_ok.mp h
  have hpos : 0 < n.ref := by simpa using hpos
  refine ⟨n, hn, hpos, ?_⟩
  split at h
  · rename_i hlast
    have hone : n.ref = 1 := by omega
    split at h
    · rename_i hclean
      cases h
      refine .inl ⟨hone, hclean.1, ?_, rfl⟩
      simpa using hclean.2
    · rename_i hclean
      cases (kassert_bind_ok.mp h).2
      refine .inr ⟨fun _ hv => ?_, ?_⟩
      · rw [not_and, not_or] at hclean
        simpa using hclean hv
      · rw [hone]
        exact Fs.iref_put s i none
  · cases h
    exact .inr ⟨fun h1 => by omega, Fs.iref_put s i (some { n with ref := n.ref - 1 })⟩

theorem fsReleaseInode_many (hn : s.data.icache i = some n) (hmany : 1 < n.ref)
    (h : fsReleaseInode i s = .ok ((), s')) :
    s' = { s with data := s.data.setInode i (some { n with ref := n.ref - 1 }) } := by
  obtain ⟨-, h⟩ := kassert_bind_ok.mp h
  obtain ⟨m, hm, h⟩ := inode_bind_ok.mp h
  rw [hn] at hm
  cases hm
  obtain ⟨-, h⟩ := kassert_bind_ok.mp h
  rw [if_neg (by omega)] at h
  cases h
  rfl

/-- `fs_get_inode` from where the inode is in the cache, with the new reference. -/
theorem validInode_ok {r : Except Err Unit} (hn : s.data.icache i = some n)
    (h : validInode i s = .ok (r, s')) :
    (r = .ok () ∧ s'.iref = s.iref ∧ ∃ n', s'.data.icache i = some n' ∧ n'.valid = true) ∨
      ((∃ e, r = .error e) ∧ s'.iref = update s.iref i (n.ref - 1)) := by
  obtain ⟨m, hm, h⟩ := inode_bind_ok.mp h
  rw [hn] at hm
  cases hm
  split at h
  · rename_i hv
    cases h
    exact .inl ⟨rfl, rfl, n, hn, hv⟩
  · rename_i hv
    obtain ⟨err, s2, hread, h⟩ := bind_ok.mp h
    rcases sfsReadInode_ok hn hread with ⟨rfl, n', href, hv', hs2⟩ | ⟨rfl, hs2⟩
    · rw [if_pos rfl] at h
      cases h
      refine .inl ⟨rfl, ?_, n', ?_, hv'⟩
      · rw [Fs.iref_setInode (s := s) hs2, Option.elim_some, href, ← Fs.iref_cached hn,
          update_eq_self]
      · have := congrFun hs2 i
        rwa [Data.setInode_icache_self] at this
    · rw [if_neg (by decide)] at h
      obtain ⟨_, s3, hrel, h⟩ := bind_ok.mp h
      cases h
      obtain ⟨n', hn', -, hcase⟩ := fsReleaseInode_ok hrel
      have hsame : s2.data.icache i = some n := (congrFun hs2 i).trans hn
      rw [hsame] at hn'
      cases hn'
      rcases hcase with ⟨-, hvalid, -⟩ | ⟨-, hiref⟩
      · exact absurd hvalid hv
      · exact .inr ⟨⟨_, rfl⟩, by rw [hiref, Fs.iref_congr hs2]⟩

/-- `fs_get_inode` adds a reference to the inode, which is in memory then, or it fails and adds
none. -/
theorem fsGetInode_ok {r : Except Err Unit} (h : fsGetInode i s = .ok (r, s')) :
    (r = .ok () ∧ s'.iref = update s.iref i (s.iref i + 1) ∧
        ∃ n, s'.data.icache i = some n ∧ n.valid = true) ∨
          ((∃ e, r = .error e) ∧ s'.iref = s.iref) := by
  rw [fsGetInode, read_bind] at h
  cases hn : s.data.icache i with
  | some n =>
    simp only [hn] at h
    obtain ⟨s1, rfl, h⟩ := Prog.update_bind_ok.mp h
    have hiref : Fs.iref { s with data := s.data.setInode i (some { n with ref := n.ref + 1 }) } =
        update s.iref i (s.iref i + 1) := by
      rw [Fs.iref_cached hn]
      exact Fs.iref_put s i _
    rcases validInode_ok Data.setInode_icache_self h with ⟨rfl, h1, h2⟩ | ⟨he, h1⟩
    · exact .inl ⟨rfl, h1.trans hiref, h2⟩
    · refine .inr ⟨he, ?_⟩
      rw [h1, hiref, update_idem]
      show update s.iref i (n.ref + 1 - 1) = s.iref
      rw [Nat.add_sub_cancel, ← Fs.iref_cached hn, update_eq_self]
  | none =>
    have hzero : s.iref i = 0 := by rw [Fs.iref, hn]; rfl
    simp only [hn] at h
    obtain ⟨r1, s1, hnew, h⟩ := bind_ok.mp h
    obtain ⟨b, s2, hmem, hnew⟩ := bind_ok.mp hnew
    have hs2 := keeps_inodes_of_rest keeps_memAlloc _ _ _ hmem
    cases b with
    | false =>
      cases hnew
      cases h
      exact .inr ⟨⟨_, rfl⟩, Fs.iref_congr hs2⟩
    | true =>
      rw [if_pos rfl] at hnew
      obtain ⟨b, s3, hmem, hnew⟩ := bind_ok.mp hnew
      have hs3 := keeps_inodes_of_rest keeps_memAlloc _ _ _ hmem
      cases b with
      | false => cases hnew
      | true =>
        rw [if_pos rfl] at hnew
        obtain ⟨b, s4, hmem, hnew⟩ := bind_ok.mp hnew
        have hs4 := keeps_inodes_of_rest keeps_memAlloc _ _ _ hmem
        cases b with
        | false => cases hnew
        | true =>
          rw [if_pos rfl] at hnew
          obtain ⟨s5, rfl, hnew⟩ := Prog.update_bind_ok.mp hnew
          cases hnew
          have hs : s4.iref = s.iref := Fs.iref_congr (hs4.trans (hs3.trans hs2))
          set blank : Inode := ⟨⟨0, 0, 0, 0, fun _ => 0⟩, 1, false, false⟩ with hblank
          have hiref : Fs.iref { s4 with data := s4.data.setInode i (some blank) } =
              update s.iref i 1 := by
            rw [← hs]
            exact Fs.iref_put s4 i _
          rcases validInode_ok Data.setInode_icache_self h with ⟨rfl, h1, h2⟩ | ⟨he, h1⟩
          · refine .inl ⟨rfl, ?_, h2⟩
            rw [h1, hzero]
            exact hiref
          · refine .inr ⟨he, ?_⟩
            rw [h1, hiref, update_idem]
            show update s.iref i 0 = s.iref
            rw [← hzero, update_eq_self]

theorem sfsLookup_ok {dir : Inum} {name : List UInt8} {r : Except Err Inum}
    (h : sfsLookup sb dir name s = .ok (r, s')) :
    (∃ j, r = .ok j ∧ s'.iref = update s.iref j (s.iref j + 1)) ∨
    ((∃ e, r = .error e) ∧ s'.iref = s.iref) := by
  obtain ⟨j, s1, hsearch, h⟩ := bind_ok.mp h
  have hs1 := Fs.iref_congr (inodes_byParts.searchDir dir name _ _ _ hsearch)
  split at h
  · cases h
    exact .inr ⟨⟨_, rfl⟩, hs1⟩
  · obtain ⟨r1, s2, hget, h⟩ := bind_ok.mp h
    rcases fsGetInode_ok hget with ⟨rfl, h1, -⟩ | ⟨⟨e, rfl⟩, h1⟩
    · cases h
      exact .inl ⟨j, rfl, by rw [h1, hs1]⟩
    · cases h
      exact .inr ⟨⟨_, rfl⟩, h1.trans hs1⟩

end counts

/-! ## Opening a file -/

section opens

open Calls (exec_bind_ok)

variable {u : Caller} {s s' : Fs} {r : Inum} {c : ℕ}

/-- The code of a function of `fs.c`, run by a thread that runs alone. -/
abbrev VfsM.alone {α : Type} (sb : SbInfo) (u : Caller) (code : VfsM α) : FsM α :=
  code.exec (VfsCall.alone sb u)

theorem alone_call_ok {a : α} {op : VfsCall} {f : op.Ret → VfsM α} :
    VfsM.alone sb u (VfsM.make op >>= f) s = .ok (a, s') ↔
      ∃ x t, op.alone sb u s = .ok (x, t) ∧ VfsM.alone sb u (f x) t = .ok (a, s') := bind_ok

theorem alone_fields_ok {a : α} {f : Inode → VfsM α} :
    VfsM.alone sb u (VfsM.fields i >>= f) s = .ok (a, s') ↔
      ∃ n, s.data.icache i = some n ∧ VfsM.alone sb u (f n) s = .ok (a, s') := inode_bind_ok

theorem alone_assert_ok {a : α} {cond : String} {p : Bool} {f : Unit → VfsM α}
    (h : VfsM.alone sb u (VfsM.assert cond p >>= f) s = .ok (a, s')) :
    VfsM.alone sb u (f ()) s = .ok (a, s') := by
  cases p with
  | false => cases h
  | true => exact h

theorem fsReleaseInode_other (hc : s.iref r = c + if i = r then 1 else 0) (hpos : 0 < c)
    (h : fsReleaseInode i s = .ok ((), s')) : s'.iref r = c := by
  obtain ⟨n, hn, -, ⟨hone, -, -, hiref⟩ | ⟨-, hiref⟩⟩ := fsReleaseInode_ok h
  · have hne : i ≠ r := by
      rintro rfl
      rw [if_pos rfl, Fs.iref_cached hn] at hc
      omega
    rw [hiref, hc, if_neg hne, Nat.add_zero]
  · rw [hiref]
    rcases eq_or_ne r i with rfl | hne
    · rw [if_pos rfl, Fs.iref_cached hn] at hc
      rw [update_self]
      omega
    · rw [update_of_ne hne, hc, if_neg hne.symm, Nat.add_zero]

theorem update_add_one (f : Inum → ℕ) (i : Inum) (r : Inum) :
    update f i (f i + 1) r = f r + if i = r then 1 else 0 := by
  rcases eq_or_ne r i with rfl | hne
  · rw [update_self, if_pos rfl]
  · rw [update_of_ne hne, if_neg hne.symm, Nat.add_zero]

variable {path : List UInt8}

theorem pathNextElement_ne_nil (h : ∃ c ∈ path, c ≠ slash) : (pathNextElement path).1 ≠ [] := by
  have hne : path.dropWhile (· = slash) ≠ [] := by
    rw [Ne, List.dropWhile_eq_nil_iff]
    simpa using h
  obtain ⟨x, rest, hx⟩ := List.exists_cons_of_ne_nil hne
  have hhead := List.head_dropWhile_not (fun c => decide (c = slash)) hne
  have hxs : x ≠ slash := by
    simpa [hx] using hhead
  rw [pathNextElement]
  simp only [hx]
  rw [List.takeWhile_cons_of_pos (by simpa using hxs)]
  simp [maxFilenameLen]

theorem pathNextElement_rest (h : (pathNextElement path).2 ≠ []) :
    ∃ c ∈ (pathNextElement path).2, c ≠ slash := by
  have hhead := List.head_dropWhile_not (fun c => decide (c = slash)) h
  exact ⟨_, List.head_mem h, of_decide_eq_false hhead⟩

theorem pathNextElement_slashes (h : ∀ c ∈ path, c = slash) : pathNextElement path = ([], []) := by
  have hnil : path.dropWhile (· = slash) = [] := by
    rw [List.dropWhile_eq_nil_iff]
    simpa using h
  rw [pathNextElement]
  simp only [hnil]
  rfl

variable {res : Except Err (Inum × List UInt8)}

/-- The loop of `fs_find_parent_inode` has a reference to one directory all the time. -/
theorem findParentLoop_iref {n : ℕ} {curr : Inum} (hc : s.iref r = c + if curr = r then 1 else 0)
    (hpos : 0 < c) (h : VfsM.alone sb u (findParentLoop n path curr) s = .ok (res, s')) :
    ((∃ e, res = .error e) ∧ s'.iref r = c) ∨ ∃ parent name, res = .ok (parent, name) ∧
      s'.iref r = c + (if parent = r then 1 else 0) ∧ ((∃ c ∈ path, c ≠ slash) → name ≠ []) := by
  induction n generalizing path curr s with
  | zero => cases h
  | succ n ih =>
    rw [findParentLoop] at h
    obtain ⟨ino, hino, h⟩ := alone_fields_ok.mp h
    have hfail : ∀ {t : Fs} {e : Err}, t.iref r = c + (if curr = r then 1 else 0) →
        VfsM.alone sb u (do
          VfsM.releaseInode curr
          pure (.error e) : VfsM (Except Err (Inum × List UInt8))) t = .ok (res, s') →
        (∃ e, res = .error e) ∧ s'.iref r = c := by
      intro t e ht hrun
      obtain ⟨_, t1, hrel, hrun⟩ := alone_call_ok.mp hrun
      cases hrun
      exact ⟨⟨_, rfl⟩, fsReleaseInode_other ht hpos hrel⟩
    split at h
    · exact .inl (hfail hc h)
    · have hname : (∃ c ∈ path, c ≠ slash) → (pathNextElement path).1 ≠ [] := pathNextElement_ne_nil
      have hmore : (pathNextElement path).2 ≠ [] → ∃ c ∈ (pathNextElement path).2, c ≠ slash :=
        pathNextElement_rest
      rcases pathNextElement path with ⟨name, rest⟩
      dsimp only at h hname hmore
      split at h
      · cases h
        exact .inr ⟨_, _, rfl, hc, hname⟩
      · rename_i hrest
        obtain ⟨found, t, hlook, h⟩ := alone_call_ok.mp h
        rcases sfsLookup_ok hlook with ⟨next, rfl, ht⟩ | ⟨⟨e, rfl⟩, ht⟩
        · obtain ⟨_, t1, hrel, h⟩ := alone_call_ok.mp h
          have ht' : t.iref r = c + (if next = r then 1 else 0) + if curr = r then 1 else 0 := by
            rw [ht, update_add_one, hc]
            omega
          have h1 := fsReleaseInode_other ht' (by omega) hrel
          rcases ih h1 h with hfail' | ⟨parent, name, hres, hiref, hlast⟩
          · exact .inl hfail'
          · exact .inr ⟨parent, name, hres, hiref, fun _ => hlast (hmore hrest)⟩
        · exact .inl (hfail (by rw [ht, hc]) h)

/-- Where a path starts. -/
def Caller.start (u : Caller) (path : List UInt8) : Inum :=
  if path.head? = some slash then sfsRootInum else u.cwd.getD sfsRootInum

theorem fsFindParentInode_ok (h : VfsM.alone sb u (fsFindParentInode path) s = .ok (res, s')) :
    (∃ e, fsGetInode (u.start path) s = .ok (.error e, s') ∧ res = .error e) ∨
      ∃ t, fsGetInode (u.start path) s = .ok (.ok (), t) ∧
        VfsM.alone sb u (findParentLoop (path.length + 1) path (u.start path))
          t = .ok (res, s') := by
  rw [fsFindParentInode] at h
  obtain ⟨cwd, t, hcwd, h⟩ := alone_call_ok.mp h
  cases hcwd
  replace h := alone_assert_ok h
  obtain ⟨got, t1, hget, h⟩ := alone_call_ok.mp h
  cases got with
  | error e =>
    cases h
    exact .inl ⟨e, hget, rfl⟩
  | ok _ => exact .inr ⟨t1, hget, h⟩

theorem fsFindParentInode_iref (hpos : 0 < s.iref r)
    (h : VfsM.alone sb u (fsFindParentInode path) s = .ok (res, s')) :
    ((∃ e, res = .error e) ∧ s'.iref r = s.iref r) ∨ ∃ parent name, res = .ok (parent, name) ∧
      s'.iref r = s.iref r + (if parent = r then 1 else 0) ∧
        ((∃ c ∈ path, c ≠ slash) → name ≠ []) := by
  rcases fsFindParentInode_ok h with ⟨e, hget, rfl⟩ | ⟨t, hget, h⟩
  · rcases fsGetInode_ok hget with ⟨hok, -⟩ | ⟨-, hiref⟩
    · cases hok
    · exact .inl ⟨⟨e, rfl⟩, by rw [hiref]⟩
  · rcases fsGetInode_ok hget with ⟨-, hiref, -⟩ | ⟨⟨e, herr⟩, -⟩
    · exact findParentLoop_iref (by rw [hiref, update_add_one]) hpos h
    · cases herr

variable {e : Err}

theorem openFail_iref {parent : Inum} {err : Err} (hc : s.iref r = c + if parent = r then 1 else 0)
    (hpos : 0 < c) (h : VfsM.alone sb u (openFail parent err) s = .ok (.error e, s')) :
    s'.iref r = c := by
  rw [openFail] at h
  obtain ⟨_, t, hend, h⟩ := alone_call_ok.mp h
  obtain ⟨_, t1, hrel, h⟩ := alone_call_ok.mp h
  cases h
  exact fsReleaseInode_other (by rw [Fs.iref_congr (keeps_inodes_jbdEndTxn _ _ _ _ hend), hc])
    hpos hrel

theorem openInode_ok {flags : BitVec 32} {parent fi : Inum} {res : Except Err OpenFile}
    (h : VfsM.alone sb u (openInode flags parent fi) s = .ok (res, s')) :
    (s.ctl.avail s.ctl.tick = true ∧ ∃ file, res = .ok file) ∨ (s.ctl.avail s.ctl.tick = false ∧
      res = .error .nomem ∧ ∃ t t1, t.inodes = s.inodes ∧ fsReleaseInode fi t = .ok ((), t1) ∧
        fsReleaseInode parent t1 = .ok ((), s')) := by
  rw [openInode] at h
  obtain ⟨b, t, hmem, h⟩ := alone_call_ok.mp h
  have ht := keeps_inodes_of_rest keeps_memAlloc _ _ _ hmem
  have hb : b = s.ctl.avail s.ctl.tick := by
    cases hmem
    rfl
  cases b with
  | true =>
    rw [if_pos rfl] at h
    obtain ⟨_, t1, -, h⟩ := alone_call_ok.mp h
    obtain ⟨_, t2, -, h⟩ := alone_call_ok.mp h
    cases h
    exact .inl ⟨hb.symm, _, rfl⟩
  | false =>
    rw [if_neg (by decide)] at h
    obtain ⟨_, t1, hend, h⟩ := alone_call_ok.mp h
    obtain ⟨_, t2, hfi, h⟩ := alone_call_ok.mp h
    obtain ⟨_, t3, hparent, h⟩ := alone_call_ok.mp h
    cases h
    exact .inr ⟨hb.symm, rfl, t1, t2, (keeps_inodes_jbdEndTxn _ _ _ _ hend).trans ht, hfi, hparent⟩

theorem openInode_iref {flags : BitVec 32} {parent fi : Inum}
    (hc : s.iref r = c + (if parent = r then 1 else 0) + if fi = r then 1 else 0) (hpos : 0 < c)
    (h : VfsM.alone sb u (openInode flags parent fi) s = .ok (.error e, s')) : s'.iref r = c := by
  rcases openInode_ok h with ⟨-, file, hok⟩ | ⟨-, -, t, t1, ht, hfi, hparent⟩
  · cases hok
  · have h2 := fsReleaseInode_other (c := c + if parent = r then 1 else 0)
        (by rw [Fs.iref_congr ht, hc])
      (by omega) hfi
    exact fsReleaseInode_other h2 hpos hparent

/-- A call of `fs_open_file` that fails leaves the references of an inode that has one, unless its
path has no name in it. -/
theorem fsOpenFile_named (hpath : ∃ c ∈ path, c ≠ slash) (hpos : 0 < s.iref r)
    (h : VfsM.alone sb u (fsOpenFile path fsRdonly 0) s = .ok (.error e, s')) :
    s'.iref r = s.iref r := by
  rw [fsOpenFile, if_pos (by decide)] at h
  obtain ⟨res, t, hfind, h⟩ := exec_bind_ok.mp h
  rcases fsFindParentInode_iref hpos hfind with ⟨⟨e', rfl⟩, ht⟩ | ⟨parent, name, rfl, ht, hname⟩
  · cases h
    exact ht
  · obtain ⟨_, t1, hbegin, h⟩ := alone_call_ok.mp h
    have ht1 := Fs.iref_congr (keeps_inodes_jbdBeginTxn _ _ _ hbegin)
    rw [if_neg (hname hpath)] at h
    obtain ⟨found, t2, hlook, h⟩ := alone_call_ok.mp h
    rcases sfsLookup_ok hlook with ⟨fi, rfl, ht2⟩ | ⟨⟨e', rfl⟩, ht2⟩
    · exact openInode_iref (by rw [ht2, update_add_one, ht1, ht]) hpos h
    · have hiref : t2.iref r = s.iref r + if parent = r then 1 else 0 := by rw [ht2, ht1, ht]
      dsimp only at h
      split at h
      · exact openFail_iref hiref hpos h
      · rw [if_pos (by decide)] at h
        exact openFail_iref hiref hpos h

/-! ### A path of slashes -/

theorem findParentLoop_slashes {curr : Inum} {n : ℕ} (hpath : ∀ c ∈ path, c = slash)
    (h : VfsM.alone sb u (findParentLoop (n + 1) path curr) s = .ok (res, s')) :
    ∃ ino, s.data.icache curr = some ino ∧
      ((ino.ftype ≠ ftypeDir ∧ (∃ e, res = .error e) ∧ fsReleaseInode curr s = .ok ((), s')) ∨
        (ino.ftype = ftypeDir ∧ res = .ok (curr, []) ∧ s' = s)) := by
  rw [findParentLoop] at h
  obtain ⟨ino, hino, h⟩ := alone_fields_ok.mp h
  refine ⟨ino, hino, ?_⟩
  split at h
  · rename_i hdir
    obtain ⟨_, t, hrel, h⟩ := alone_call_ok.mp h
    cases h
    exact .inl ⟨hdir, ⟨_, rfl⟩, hrel⟩
  · rename_i hdir
    rw [pathNextElement_slashes hpath] at h
    cases h
    exact .inr ⟨not_not.mp hdir, rfl, rfl⟩

/-- A call of `fs_open_file` for the directory where the path starts. -/
theorem fsOpenFile_slashes {res : Except Err OpenFile} (hpath : ∀ c ∈ path, c = slash)
    (h : VfsM.alone sb u (fsOpenFile path fsRdonly 0) s = .ok (res, s')) :
    (∃ e, res = .error e ∧ fsGetInode (u.start path) s = .ok (.error e, s')) ∨
      ∃ t ino, fsGetInode (u.start path) s = .ok (.ok (), t) ∧
        t.data.icache (u.start path) = some ino ∧
        ((ino.ftype ≠ ftypeDir ∧ (∃ e, res = .error e) ∧
        fsReleaseInode (u.start path) t = .ok ((), s')) ∨
          (ino.ftype = ftypeDir ∧ ∃ t1, jbdBeginTxn t = .ok ((), t1) ∧
            VfsM.alone sb u (openInode fsRdonly (u.start path) (u.start path))
              t1 = .ok (res, s'))) := by
  rw [fsOpenFile, if_pos (by decide)] at h
  obtain ⟨found, t, hfind, h⟩ := exec_bind_ok.mp h
  rcases fsFindParentInode_ok hfind with ⟨e', hget, rfl⟩ | ⟨t0, hget, hloop⟩
  · cases h
    exact .inl ⟨e', rfl, hget⟩
  · obtain ⟨ino, hino, ⟨hdir, ⟨e', rfl⟩, hrel⟩ | ⟨hdir, rfl, rfl⟩⟩ :=
        findParentLoop_slashes hpath hloop
    · cases h
      exact .inr ⟨t0, ino, hget, hino, .inl ⟨hdir, ⟨e', rfl⟩, hrel⟩⟩
    · obtain ⟨_, t1, hbegin, h⟩ := alone_call_ok.mp h
      rw [if_pos rfl] at h
      exact .inr ⟨t, ino, hget, hino, .inr ⟨hdir, t1, hbegin, h⟩⟩

/-- Other inodes than the one where the path starts have the references that they had. -/
theorem fsOpenFile_slashes_other (hpath : ∀ c ∈ path, c = slash) (hne : u.start path ≠ r)
    (hpos : 0 < s.iref r)
    (h : VfsM.alone sb u (fsOpenFile path fsRdonly 0) s = .ok (.error e, s')) :
    s'.iref r = s.iref r := by
  rcases fsOpenFile_slashes hpath h with ⟨_, -, hget⟩ | ⟨t, ino, hget, hino, hcase⟩
  · rcases fsGetInode_ok hget with ⟨hok, -⟩ | ⟨-, hiref⟩
    · cases hok
    · rw [hiref]
  · rcases fsGetInode_ok hget with ⟨-, hiref, -⟩ | ⟨⟨e, herr⟩, -⟩
    · have ht : t.iref r = s.iref r := by rw [hiref, update_add_one, if_neg hne, Nat.add_zero]
      rcases hcase with ⟨-, -, hrel⟩ | ⟨-, t1, hbegin, hopen⟩
      · exact fsReleaseInode_other (by rw [if_neg hne, ht, Nat.add_zero]) hpos hrel
      · refine openInode_iref ?_ hpos hopen
        rw [if_neg hne, Fs.iref_congr (keeps_inodes_jbdBeginTxn _ _ _ hbegin), ht, Nat.add_zero]
    · cases herr

theorem fsGetInode_cached {n : Inode} (hn : s.data.icache i = some n) (hv : n.valid = true) :
    fsGetInode i s = .ok (.ok (),
      { s with data := s.data.setInode i (some { n with ref := n.ref + 1 }) }) := by
  rw [fsGetInode, read_bind]
  simp only [hn]
  have hset : setInode i { n with ref := n.ref + 1 } s =
      .ok ((), { s with data := s.data.setInode i (some { n with ref := n.ref + 1 }) }) := rfl
  rw [Prog.bind_of_ok hset]
  exact inode_bind_ok.mpr ⟨_,
    Data.setInode_icache_self, by rw [if_pos (show _ = true from hv)]; rfl⟩

section self

variable {path : List UInt8} {i : Inum} {n : Inode} {t : Fs}

section

variable (hpath : ∀ c ∈ path, c = slash) (hstart : u.start path = i) (hn : s.data.icache i = some n)
variable (hv : n.valid = true)

include hpath hstart hn hv

/-- The directory where the path starts is in memory.  Its call of `fs_open_file` asks for memory
once. -/
theorem fsOpenFile_slashes_cached {res : Except Err OpenFile}
    (h : VfsM.alone sb u (fsOpenFile path fsRdonly 0) s = .ok (res, s')) :
    (n.ftype ≠ ftypeDir ∧ (∃ e, res = .error e) ∧
        fsReleaseInode i { s with data := s.data.setInode i (some { n with ref := n.ref + 1 }) } =
          .ok ((), s')) ∨
      (n.ftype = ftypeDir ∧ ∃ t, t.ctl.avail t.ctl.tick = s.ctl.avail s.ctl.tick ∧
        t.inodes = (s.data.setInode i (some { n with ref := n.ref + 1 })).icache ∧
        VfsM.alone sb u (openInode fsRdonly i i) t = .ok (res, s')) := by
  subst hstart
  have hgot := fsGetInode_cached hn hv
  rcases fsOpenFile_slashes hpath h with ⟨e, -, hget⟩ | ⟨t, ino, hget, hino, hcase⟩
  · rw [hgot] at hget
    cases hget
  rw [hgot] at hget
  cases hget
  rw [Data.setInode_icache_self] at hino
  cases hino
  rcases hcase with hrel | ⟨hdir, t1, hbegin, hopen⟩
  · exact .inl hrel
  · refine .inr ⟨hdir, t1, ?_, keeps_inodes_jbdBeginTxn _ _ _ hbegin, hopen⟩
    rw [jbdBeginTxn, read_bind] at hbegin
    split at hbegin
    · cases hbegin
    · cases hbegin
      rfl

theorem fsOpenFile_slashes_ok {file : OpenFile}
    (h : VfsM.alone sb u (fsOpenFile path fsRdonly 0) s = .ok (.ok file, s')) :
    s.ctl.avail s.ctl.tick = true := by
  rcases fsOpenFile_slashes_cached hpath hstart hn hv h with ⟨-, ⟨e, he⟩, -⟩ | ⟨-, t, havail, -,
    hopen⟩
  · cases he
  · rw [← havail]
    exact (openInode_ok hopen).elim And.left fun h => by cases h.2.1

end

theorem openInode_self (hn : s.data.icache i = some n) (hv : n.valid = true) (hpos : 0 < n.ref)
    (ht : t.inodes = (s.data.setInode i (some { n with ref := n.ref + 1 })).icache)
    (h : VfsM.alone sb u (openInode fsRdonly i i) t = .ok (.error e, s')) :
    t.ctl.avail t.ctl.tick = false ∧
      ((n.ref = 1 ∧ (n.nlink = 0 ∨ n.dirty = true) ∧ s'.iref i = n.ref) ∨
        ((n.ref = 1 → n.nlink ≠ 0 ∧ n.dirty = false) ∧ s'.iref = update s.iref i (n.ref - 1))) := by
  rcases openInode_ok h with ⟨-, file, hok⟩ | ⟨havail, -, t3, t4, ht3, hrel1, hrel2⟩
  · cases hok
  rw [ht] at ht3
  have hn3 : t3.data.icache i = some { n with ref := n.ref + 1 } :=
    (congrFun ht3 i).trans Data.setInode_icache_self
  refine ⟨havail, ?_⟩
  rw [fsReleaseInode_many hn3 (by dsimp only; omega) hrel1] at hrel2
  obtain ⟨n', hn', -, hlast⟩ := fsReleaseInode_ok hrel2
  rw [Data.setInode_icache_self] at hn'
  cases hn'
  have h4 : Fs.iref { t3 with data := t3.data.setInode i (some { n with ref := n.ref + 1 - 1 }) } =
      s.iref := by
    rw [Fs.iref_put, Fs.iref_setInode ht3, update_idem]
    show update s.iref i (n.ref + 1 - 1) = s.iref
    rw [Nat.add_sub_cancel, ← Fs.iref_cached hn, update_eq_self]
  rw [h4] at hlast
  rcases hlast with ⟨hone, -, hclean, hs'⟩ | ⟨hclean, hs'⟩
  · exact .inl ⟨hone, hclean, by rw [hs', Fs.iref_cached hn]⟩
  · exact .inr ⟨fun hone => hclean hone hv, hs'⟩

/-- The inode where the path starts loses a reference, if there is no memory for a `struct file`. -/
theorem fsOpenFile_slashes_self (hpath : ∀ c ∈ path, c = slash) (hstart : u.start path = i)
    (hn : s.data.icache i = some n) (hv : n.valid = true) (hpos : 0 < n.ref)
    (h : VfsM.alone sb u (fsOpenFile path fsRdonly 0) s = .ok (.error e, s')) :
    (n.ftype ≠ ftypeDir ∧ s'.iref i = n.ref) ∨
    (n.ftype = ftypeDir ∧ s.ctl.avail s.ctl.tick = false ∧
        ((n.ref = 1 ∧ (n.nlink = 0 ∨ n.dirty = true) ∧ s'.iref i = n.ref) ∨
          ((n.ref = 1 → n.nlink ≠ 0 ∧ n.dirty = false) ∧
          s'.iref = update s.iref i (n.ref - 1)))) := by
  rcases fsOpenFile_slashes_cached hpath hstart hn hv h with ⟨hdir, -,
    hrel⟩ | ⟨hdir, t, havail, ht, hopen⟩
  · refine .inl ⟨hdir, fsReleaseInode_other ?_ hpos hrel⟩
    rw [Fs.iref_put, update_self, if_pos rfl]
    rfl
  · rw [← havail]
    exact .inr ⟨hdir, openInode_self hn hv hpos ht hopen⟩

end self

end opens

end Osv
