import Mathlib.Data.List.TakeWhile
import Osv.Fs.Names
import Osv.Fs.Vfs
import Osv.Fs.Solo

/-!
# Looking up a name that was created

The elements of a path have up to 63 bytes, an entry of a directory has room for 27 and
a 0 at the end, and `search_dir` compares 28 bytes.  The entry of a longer name has a 0
where the name goes on, so it is the entry of no name that is that long
(`isName_stored`).  A name that was created is found if it has 27 bytes at most and
never otherwise (`created_name_found_iff`), and `fs_open_file` asserts that it is found.

The 0 that `strncpy` writes after the entry changes another entry at most, as long as
it does no harm outside of the directory.
-/

namespace Osv

open Prog (wp wp_bind wp_pure)

variable {name : List UInt8}

/-! ## The elements of a path -/

/-- A name that `path_next_element` takes off some path. -/
def Component (name : List UInt8) : Prop :=
  name ≠ [] ∧ ∃ path, 0 ∉ path ∧ (pathNextElement path).1 = name

theorem component_iff :
    Component name ↔ 1 ≤ name.length ∧ name.length < maxFilenameLen ∧ slash ∉ name ∧ 0 ∉ name := by
  constructor
  · rintro ⟨hne, path, h0, rfl⟩
    refine ⟨List.length_pos_iff.mpr hne, ?_, fun hs => ?_, fun hz => h0 ?_⟩
    · exact Nat.lt_of_le_of_lt (List.length_take_le ..) (by decide)
    · have := List.mem_takeWhile_imp (List.mem_of_mem_take hs)
      simp at this
    · exact (List.dropWhile_sublist _).mem
        ((List.takeWhile_sublist _).mem (List.mem_of_mem_take hz))
  · rintro ⟨hpos, hlen, hs, h0⟩
    refine ⟨List.length_pos_iff.mp hpos, name, h0, ?_⟩
    have hdrop : name.dropWhile (· = slash) = name := by
      cases name with
      | nil => rfl
      | cons ch rest => exact List.dropWhile_cons_of_neg (by simpa using fun h => hs (by simp [h]))
    have htake : name.takeWhile (· ≠ slash) = name :=
      List.takeWhile_eq_self_iff.mpr fun ch hch => by simpa using ne_of_mem_of_not_mem hch hs
    rw [pathNextElement, hdrop, htake]
    exact List.take_of_length_le (Nat.le_sub_one_of_lt hlen)

/-! ## Comparing names -/

theorem strncmp_eq_zero {s1 s2 : ℕ → UInt8} : ∀ {n k : ℕ}, strncmp s1 s2 n k = 0 ↔
    ∀ j < n, (∀ l < j, s1 (k + l) ≠ 0) → s1 (k + j) = s2 (k + j)
  | 0, k => by simp [strncmp]
  | n + 1, k => by
    rw [strncmp]
    split
    · rename_i hgo
      rw [strncmp_eq_zero]
      constructor
      · intro h j hj hbefore
        cases j with
        | zero => exact hgo.2
        | succ j =>
          have := h j (Nat.lt_of_succ_lt_succ hj) fun l hl => by
            rw [Nat.add_assoc, Nat.add_comm 1]
            exact hbefore (l + 1) (Nat.succ_lt_succ hl)
          rwa [Nat.add_assoc, Nat.add_comm 1] at this
      · intro h j hj hbefore
        have := h (j + 1) (Nat.succ_lt_succ hj) fun l hl => by
          cases l with
          | zero => exact hgo.1
          | succ l =>
            have := hbefore l (Nat.lt_of_succ_lt_succ hl)
            rwa [Nat.add_assoc, Nat.add_comm 1] at this
        rwa [Nat.add_assoc, Nat.add_comm 1]
    · rename_i hstop
      constructor
      · intro h j hj hbefore
        have heq : s1 k = s2 k := UInt8.toNat_inj.mp (by omega)
        cases j with
        | zero => exact heq
        | succ j => exact absurd ⟨hbefore 0 (Nat.succ_pos _), heq⟩ hstop
      · intro h
        have heq : s1 k = s2 k := h 0 (Nat.succ_pos _) fun l hl => absurd hl (Nat.not_lt_zero _)
        rw [heq, sub_self]

theorem getD_ne_zero (h : 0 ∉ name) {j : ℕ} (hj : j < name.length) : name.getD j 0 ≠ 0 := by
  rw [List.getD_eq_getElem _ _ hj]
  exact fun h0 => h (h0 ▸ List.getElem_mem hj)

/-- The name of an entry, as `alloc_dirent` stores it. -/
def storedName (name : List UInt8) : List UInt8 :=
  (strncpy name sfsDirentNamelen).take (sfsDirentNamelen - 1) ++ [0]

theorem length_storedName (h : 0 ∉ name) : (storedName name).length = sfsDirentNamelen := by
  have := le_length_strncpy (n := sfsDirentNamelen) h
  rw [storedName, List.length_append, List.length_take, List.length_singleton]
  unfold sfsDirentNamelen at *
  omega

theorem cstr_storedName_of_lt (h : 0 ∉ name) {j : ℕ} (hj : j < sfsDirentNamelen - 1) :
    cstr (storedName name) j = cstr name j := by
  have hlen := length_storedName h
  have hj' : j < sfsDirentNamelen := by omega
  have hget : (storedName name)[j]? = some (name.getD j 0) := by
    have htake : j < ((strncpy name sfsDirentNamelen).take (sfsDirentNamelen - 1)).length := by
      rw [List.length_take]
      exact lt_min hj (hj'.trans_le (le_length_strncpy h))
    rw [storedName, List.getElem?_append_left htake, List.getElem?_take_of_lt hj,
      getElem?_strncpy h hj']
  rw [cstr, List.getD_eq_getElem?_getD, hget]
  rfl

theorem cstr_storedName_last (h : 0 ∉ name) :
    cstr (storedName name) (sfsDirentNamelen - 1) = 0 := by
  have htake : ((strncpy name sfsDirentNamelen).take (sfsDirentNamelen - 1)).length =
      sfsDirentNamelen - 1 := by
    rw [List.length_take]
    exact Nat.min_eq_left ((Nat.sub_le _ _).trans (le_length_strncpy h))
  rw [cstr, List.getD_eq_getElem?_getD, storedName, List.getElem?_append_right htake.le, htake,
    Nat.sub_self]
  rfl

/-- The entry that is stored for a name is an entry of the name if the name is short. -/
theorem isName_stored (h : 0 ∉ name) {i : Inum} (hi : 0 < i) :
    (Dirent.mk i (storedName name)).isName name = true ↔ name.length < sfsDirentNamelen := by
  rw [Dirent.isName, decide_eq_true_iff, and_iff_right hi, strncmp_eq_zero]
  simp only [Nat.zero_add]
  constructor
  · intro heq
    by_contra hlong
    have hlong := Nat.not_lt.mp hlong
    have hlast := heq (sfsDirentNamelen - 1) (by decide) fun l hl => by
      rw [cstr_storedName_of_lt h hl]
      exact getD_ne_zero h (by omega)
    rw [cstr_storedName_last h] at hlast
    exact getD_ne_zero h (Nat.lt_of_lt_of_le (by decide) hlong) hlast.symm
  · intro hshort j hj _
    by_cases hlast : j = sfsDirentNamelen - 1
    · rw [hlast, cstr_storedName_last h, cstr, List.getD_eq_default _ _
        (Nat.le_sub_one_of_lt hshort)]
    · exact cstr_storedName_of_lt h (by omega)

/-! ## The entries of a directory with a new one -/

section insert

variable {f : File} {m j : ℕ} {i : Inum}

theorem File.dirent_insert_of_lt (hj : j < m) : (f.insert m i name).dirent j = f.dirent j :=
  direntAt_congr fun k hk => Bytes.put_of_lt (by
    unfold sizeofDirent at *
    omega)

theorem File.dirent_insert_of_gt (hname : 0 ∉ name) (hlong : sfsDirentNamelen ≤ name.length)
    (hj : m < j) : (f.insert m i name).dirent j = f.dirent j :=
  direntAt_congr fun k hk => Bytes.put_of_le (by
    rw [direntTail_of_long hlong, List.append_nil, length_direntBytes hname]
    unfold sizeofDirent at *
    omega)

theorem File.dirent_insert_self (hname : 0 ∉ name) (hi : i < 256 ^ 4) :
    (f.insert m i name).dirent m = ⟨i, storedName name⟩ := by
  have hdata : (f.insert m i name).data = ((f.data.put (sizeofDirent * m) (Bytes.leBytes 4 i)).put
      (sizeofDirent * m + 4) (storedName name)).put (sizeofDirent * m + sizeofDirent)
        (direntTail name (sizeofDirent * (m % 16))) := by
    show f.data.put _ (direntBytes i name ++ _) = _
    rw [Bytes.put_append, length_direntBytes hname, direntBytes, Bytes.put_append,
      Bytes.length_leBytes]
    rfl
  have hlen := length_storedName hname
  have hsize : sizeofDirent = 4 + sfsDirentNamelen := rfl
  rw [File.dirent, hdata, direntAt, Bytes.le_put_of_disjoint (.inl (by omega)),
    Bytes.le_put_of_disjoint (.inl le_rfl), Bytes.le_put_of_lt hi]
  congr 1
  conv_rhs => rw [← Bytes.slice_put (m := f.data.put (sizeofDirent * m) (Bytes.leBytes 4 i))
    (o := sizeofDirent * m + 4) (l := storedName name), hlen]
  exact Bytes.slice_congr fun k hk => Bytes.put_of_lt (by omega)

variable (hl : f.Lacks name) (hv : f.Vacant m) (hname : 0 ∉ name)

include hl hv in
theorem File.isName_insert_of_lt (hj : j < m) :
    ((f.insert m i name).dirent j).isName name = false := by
  rw [File.dirent_insert_of_lt hj]
  exact hl j (hv.first j hj).1

include hl hv hname in
theorem File.Lacks.finds_insert (hi : 0 < i) (hi' : i < 256 ^ 4)
    (hshort : name.length < sfsDirentNamelen) : (f.insert m i name).Finds name m := by
  refine ⟨?_, ?_, fun j hj => File.isName_insert_of_lt hl hv hj⟩
  · show sizeofDirent * m <
        if f.size ≤ sizeofDirent * m then sizeofDirent * m + sizeofDirent else f.size
    unfold sizeofDirent
    split <;> omega
  · rw [File.dirent_insert_self hname hi', isName_stored hname hi]
    exact hshort

include hl hv hname in
theorem File.Lacks.insert_long (hi : 0 < i) (hi' : i < 256 ^ 4)
    (hlong : sfsDirentNamelen ≤ name.length) : (f.insert m i name).Lacks name := by
  intro j hj
  have hsize : sizeofDirent * j <
      if f.size ≤ sizeofDirent * m then sizeofDirent * m + sizeofDirent else f.size := hj
  rcases Nat.lt_trichotomy j m with hlt | rfl | hgt
  · exact File.isName_insert_of_lt hl hv hlt
  · rw [File.dirent_insert_self hname hi', ← Bool.not_eq_true, isName_stored hname hi]
    exact Nat.not_lt.mpr hlong
  · rw [File.dirent_insert_of_gt hname hlong hgt]
    refine hl j ?_
    unfold sizeofDirent at *
    split at hsize <;> omega

end insert

theorem File.Finds.not_lacks {f : File} {m : ℕ} (h : f.Finds name m) : ¬ f.Lacks name := by
  intro hl
  have := hl m h.lt
  rw [h.isName] at this
  cases this

/-! ## Looking up -/

variable {sb : SbInfo} {w : View} {A : ℕ → Bool} {p : Blk → ℕ} {d : Data} {c : Ctl}
    {v : Dev} {E : Trap → Prop}
variable {dir i : Inum} {m ftype mode : ℕ}


section lookup

variable (hr : FsRep sb w d) (hi : 0 < w.ref dir) (hf : w.filled dir)
    (hmem : ¬ Fails A) (hc : c.Open A p)

include hr hi hf hmem hc

theorem sfsLookup_of_finds (hfind : (w.file dir).Finds name m)
    (hu : w.used ((w.file dir).dirent m).inum) :
    ∃ t, sfsLookup sb dir name ⟨d, c, v⟩ = .ok (.ok ((w.file dir).dirent m).inum, t) := by
  have hwp : wp (sfsLookup sb dir name) (fun r _ => r = .ok ((w.file dir).dirent m).inum)
      (fun _ => False)
      ⟨d, c, v⟩ := by
    refine wp_sfsLookup hmem hmem hr hi hf hc (fun m' hfind' => ?_) (fun m' d' c' hfind' _ _ => ?_)
      fun e c' _ he _ => ?_
    · rwa [hfind.unique hfind']
    · rw [hfind.unique hfind']
    · exact (he.elim (fun h => hfind.not_lacks h.2) hmem).elim
  obtain ⟨r, t, hrun, rfl⟩ := Prog.wp_returns hwp
  exact ⟨t, hrun⟩

theorem sfsLookup_of_lacks (hlacks : (w.file dir).Lacks name) :
    ∃ c', c'.Open A p ∧ sfsLookup sb dir name ⟨d, c, v⟩ = .ok (.error .notExist, ⟨d, c', v⟩) := by
  have hwp : wp (sfsLookup sb dir name) (fun r t => r = .error .notExist ∧ ∃ c',
      c'.Open A p ∧ t = ⟨d, c', v⟩)
      (fun _ => False) ⟨d, c, v⟩ := by
    refine wp_sfsLookup hmem hmem hr hi hf hc (fun m hfind => ?_) (fun m d' c' hfind _ _ => ?_)
      fun e c' _ he h' => ?_
    · exact absurd hlacks hfind.not_lacks
    · exact absurd hlacks hfind.not_lacks
    · exact ⟨by rw [(he.resolve_right hmem).1], c', h', rfl⟩
  obtain ⟨r, t, hrun, rfl, c', h', rfl⟩ := Prog.wp_returns hwp
  exact ⟨c', h', hrun⟩

theorem createInodeInDir_of_finds (hfind : (w.file dir).Finds name m) :
    ∃ t, createInodeInDir sb dir ftype name mode ⟨d, c, v⟩ = .ok (.exist, t) := by
  have hu := hr.used_of_ref hi
  obtain ⟨L, hc⟩ := hc
  have hwp : wp (createInodeInDir sb dir ftype name mode) (fun e _ => e = .exist) (fun _ => False)
      ⟨d, c, v⟩ := by
    rw [createInodeInDir, wp_bind]
    refine wp_searchDir hr hi (hr.size_le hu hf) hmem hc (fun m' c' hfind' _ => ?_)
      (fun c' hlacks _ => absurd hlacks hfind.not_lacks)
      (fun c' hfail _ => absurd (hfail.resolve_right fun h => h hf) hmem)
    rw [if_pos hfind'.inum_pos.ne', wp_pure]
  obtain ⟨e, t, hrun, rfl⟩ := Prog.wp_returns hwp
  exact ⟨t, hrun⟩

theorem createInodeInDir_cases {e : Err} {s : Fs} (hname : 0 ∉ name)
    (hharm : Harmless sb name w dir d) (hlacks : (w.file dir).Lacks name)
    (hrun : createInodeInDir sb dir ftype name mode ⟨d, c, v⟩ = .ok (e, s)) :
    (e = .nomem ∨ e = .nores) ∨ e = .ok ∧ ∃ i m d' c', ¬ w.used i ∧ (w.file dir).Vacant m ∧
      FsRep sb (w.create dir i m name ftype mode) d' ∧ c'.Open A p ∧ s = ⟨d', c', v⟩ := by
  have hE : MayFail A (· = journalFull) := ⟨rfl, fun h => absurd h hmem, fun h => absurd h hmem⟩
  have hall := fun Q h => Prog.wp_ok (Q := Q) (E := (· = journalFull)) h hrun
  apply hall
  refine wp_createInodeInDir hE hr hi hname hharm hf (hc.weaken False.elim)
    (fun i m d' c' _ hnot hvac hr' h' => ?_) fun e d' c' he _ _ => ?_
  · exact .inr ⟨rfl, i, m, d', c', hnot, hvac, hr', h'.weaken (by decide), rfl⟩
  · rcases he with ⟨_, m, hfind⟩ | he
    · exact absurd hlacks hfind.not_lacks
    · exact .inl he

end lookup

/-! ## A thread that runs alone -/

/-- One of the assertions of `fs_open_file` about `create` and `lookup` fails. -/
def VfsCall.misses : VfsCall → Prop
  | stop why => why = .kassert "err != ERR_EXIST" ∨ why = .kassert "err != ERR_NOTEXIST"
  | _ => False

/-- The two assertions do not fail. -/
abbrev VfsM.Meets {α : Type} (sb : SbInfo) (u : Caller) (code : VfsM α) (s : Fs) : Prop :=
  code.Avoids (VfsCall.alone sb u) VfsCall.misses (fun _ _ => True) s

/-- `fs_open_file` has found the directory of a path and begun its transaction. -/
def AtLeaf (sb : SbInfo) (u : Caller) (path : List UInt8) (dir : Inum) (name : List UInt8)
    (s s' : Fs) : Prop :=
  ∃ t, (fsFindParentInode path).exec (VfsCall.alone sb u) s = .ok (.ok (dir, name), t) ∧
    jbdBeginTxn t = .ok ((), s')

section opens

open Calls (avoids_call avoids_bind)

variable {u : Caller} {flags : BitVec 32} {s : Fs}

theorem meets_openInode {parent fi : Inum} : VfsM.Meets sb u (openInode flags parent fi) s := by
  refine avoids_call.mpr ⟨id, fun r s1 _ => ?_⟩
  cases r with
  | true => exact avoids_call.mpr ⟨id, fun _ _ _ => avoids_call.mpr ⟨id, fun _ _ _ => trivial⟩⟩
  | false =>
    exact avoids_call.mpr ⟨id, fun _ _ _ => avoids_call.mpr ⟨id, fun _ _ _ =>
      avoids_call.mpr ⟨id, fun _ _ _ => trivial⟩⟩⟩

theorem meets_openFail {parent : Inum} {err : Err} : VfsM.Meets sb u (openFail parent err) s :=
  avoids_call.mpr ⟨id, fun _ _ _ => avoids_call.mpr ⟨id, fun _ _ _ => trivial⟩⟩

/-- The assertions do not fail where the code does not end in them. -/
theorem meets_fsOpenFile {path : List UInt8} {s' : Fs} (hleaf : AtLeaf sb u path dir name s s')
    (hlook : ∀ t, sfsLookup sb dir name s' = .ok (.error .notExist, t) →
      VfsM.Meets sb u (openCreate flags mode dir name) t) :
    VfsM.Meets sb u (fsOpenFile path flags mode) s := by
  obtain ⟨t, hfind, hbegin⟩ := hleaf
  have hbad : ∀ c : VfsCall, c.misses → c.strays ≠ none := by
    intro c hc hs
    cases c with
    | stop why =>
      rcases hc with rfl | rfl <;> cases hs
    | beginTxn | endTxn | sfs | cwd | allocFile | devWrite | nextInode => exact hc
  unfold fsOpenFile
  split
  · refine avoids_bind.mpr (((strays_fsFindParentInode path).avoids hbad).mono fun r t' hr => ?_)
    rw [hfind] at hr
    cases hr
    refine avoids_call.mpr ⟨id, fun _ t' hb => ?_⟩
    have hb : jbdBeginTxn t = .ok ((), t') := hb
    rw [hbegin] at hb
    cases hb
    split
    · exact meets_openInode
    · refine avoids_call.mpr ⟨id, fun r t' hl => ?_⟩
      cases r with
      | ok fi => exact meets_openInode
      | error e =>
        dsimp only
        split
        · exact meets_openFail
        · rename_i he
          obtain rfl := not_not.mp he
          split
          · exact meets_openFail
          · exact hlook t' hl
  · trivial

end opens

/-! ## The new name -/

/-- An inode that was free is allocated. -/
def NewInode (d d' : Data) (i : Inum) : Prop :=
  (d.buf sfsInodeBmapBlk).bit (i - 1) = false ∧ (d'.buf sfsInodeBmapBlk).bit (i - 1) = true

section created

variable {d' : Data} {c' : Ctl} (hr' : FsRep sb (w.create dir i m name ftype mode) d')

include hr' in
theorem inum_of_created : 0 < i ∧ i < 256 ^ 4 := by
  have hinum := hr'.isInum (i := i) (.inr rfl)
  refine ⟨hinum.1, (hinum.2.trans sb.inodes_le).trans_lt ?_⟩
  unfold bitsPerBlk
  decide

include hr' in
theorem newInode_of_created (hr : FsRep sb w d) (hnot : ¬ w.used i) : NewInode d d' i := by
  have hused := (hr'.used i).mp (.inr rfl)
  refine ⟨?_, hused.2⟩
  rw [← Bool.not_eq_true]
  exact fun hbit => hnot ((hr.used i).mpr ⟨hused.1, hbit⟩)

variable (hname : 0 ∉ name) (hlacks : (w.file dir).Lacks name) (hvac : (w.file dir).Vacant m)

include hr' hname hlacks hvac in
theorem finds_of_created (hshort : name.length < sfsDirentNamelen) :
    ((w.create dir i m name ftype mode).file dir).Finds name m ∧
      (((w.create dir i m name ftype mode).file dir).dirent m).inum = i := by
  obtain ⟨h0, hlt⟩ := inum_of_created hr'
  rw [View.create, View.setFile_file_self]
  refine ⟨hlacks.finds_insert hvac hname h0 hlt hshort, ?_⟩
  rw [File.dirent_insert_self hname hlt]

include hr' hname hlacks hvac in
theorem lacks_of_created (hlong : sfsDirentNamelen ≤ name.length) :
    ((w.create dir i m name ftype mode).file dir).Lacks name := by
  obtain ⟨h0, hlt⟩ := inum_of_created hr'
  rw [View.create, View.setFile_file_self]
  exact hlacks.insert_long hvac hname h0 hlt hlong

variable (hi : 0 < w.ref dir) (hf : w.filled dir) (hmem : ¬ Fails A) (hc' : c'.Open A p)

include hr' hname hlacks hvac hi hf hmem hc' in
theorem sfsLookup_created (hshort : name.length < sfsDirentNamelen) :
    ∃ t, sfsLookup sb dir name ⟨d', c', v⟩ = .ok (.ok i, t) := by
  obtain ⟨hfind, hinum⟩ := finds_of_created hr' hname hlacks hvac hshort
  have hlook := sfsLookup_of_finds (v := v) hr' hi (.inl hf) hmem hc' hfind (hinum.symm ▸ .inr rfl)
  rwa [hinum] at hlook

end created

theorem meets_openCreate {u : Caller} {flags : BitVec 32} (hr : FsRep sb w d) (hi : 0 < w.ref dir)
    (hf : w.filled dir) (hmem : ¬ Fails A) (hc : c.Open A p) (hname : 0 ∉ name)
    (hharm : Harmless sb name w dir d) (hlacks : (w.file dir).Lacks name)
    (hshort : name.length < sfsDirentNamelen) :
    VfsM.Meets sb u (openCreate flags mode dir name) ⟨d, c, v⟩ := by
  refine Calls.avoids_call.mpr ⟨id, fun (err : Err) t hrun => ?_⟩
  have hcases := createInodeInDir_cases hr hi hf hmem hc hname hharm hlacks hrun
  rcases hcases with he | ⟨rfl, i, m, d', c', _, hvac, hr', h', rfl⟩
  · have hne : err ≠ .ok ∧ err ≠ .exist := by
      rcases he with rfl | rfl <;> decide
    rw [if_pos hne.1, VfsM.assert, if_pos (decide_eq_true hne.2)]
    exact meets_openFail
  · rw [if_neg (not_not.mpr rfl)]
    obtain ⟨t', hlook⟩ := sfsLookup_created (v := v) hr' hname hlacks hvac hi hf hmem h' hshort
    refine Calls.avoids_call.mpr ⟨id, fun (r : Except Err Inum) t hrun => ?_⟩
    have hrun : sfsLookup sb dir name ⟨d', c', v⟩ = .ok (r, t) := hrun
    rw [hlook] at hrun
    cases hrun
    exact meets_openInode

/-- A directory without entries. -/
def emptyDir : Inode := ⟨⟨ftypeDir, 0, 1, 0, Solo.addrs 0⟩, 1, true, false⟩

/-- The directory 2, without entries. -/
def emptyDirView : View :=
  (Solo.view 0 0 1).setFile 2 ⟨ftypeDir, 0, 1, 0, ((Solo.view 0 0 1).file 2).data⟩

/-- A file system with an empty directory, which is in memory. -/
def emptyDirFs (busy : Bool) : Fs :=
  ⟨(Solo.data 0 0 1).storeIno 2 emptyDir, .idle busy fun _ => true, ⟨Solo.buf 0, []⟩⟩

theorem emptyDirFs_rep : FsRep mkfsSb emptyDirView (emptyDirFs true).data := by
  have hr : FsRep mkfsSb (Solo.view 0 0 1) (Solo.data 0 0 1) :=
      Solo.fsRep (Nat.zero_le _) (Nat.zero_le _)
  have hn : (Solo.data 0 0 1).icache 2 = some (Solo.inode 0 0 1) := rfl
  have hcached := hr.cached 2 _ hn
  exact hr.setMeta hn (x := emptyDir) rfl rfl { hcached.fits with ftype := by decide } rfl rfl
    fun _ k hk => absurd hk (Nat.not_lt_zero _)

theorem emptyDirView_size : (emptyDirView.file 2).size = 0 := rfl

theorem emptyDirView_lacks : (emptyDirView.file 2).Lacks name := by
  intro j hj
  rw [emptyDirView_size] at hj
  exact absurd hj (Nat.not_lt_zero _)

theorem emptyDirView_harmless : Harmless mkfsSb name emptyDirView 2 (emptyDirFs true).data := by
  refine .inr fun m hvac hm => ?_
  have := (hvac.first 0 (by omega)).1
  rw [emptyDirView_size] at this
  exact absurd this (Nat.not_lt_zero _)

theorem emptyDirFs_open : (emptyDirFs true).ctl.Open (fun _ => true) (fun _ => 0) :=
  ⟨0, rfl, rfl, rfl, fun _ => rfl, le_rfl, .inl ⟨fun _ => .inl rfl, fun _ _ => rfl⟩⟩

/-- A name of 28 bytes. -/
def longName : List UInt8 := List.replicate 28 97

end Osv
