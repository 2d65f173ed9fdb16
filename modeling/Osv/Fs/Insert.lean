import Osv.Fs.Dir

/-!
# Adding an entry to a directory

`strncpy` of `lib/string.c` does not count the 0 at the end of the string, so for a
name shorter than the 28 bytes of an entry it writes one byte more, a 0 just after
the entry.  In the middle of a block it is the low byte of the next entry's inode
number (`direntTail`).  At the end of a block it belongs to whatever is next in
memory, and `Stays` says that it does no harm there.  `alloc_dirent` puts the entry
and the tail to the directory then and changes nothing else (`wp_allocDirent`).
-/

namespace Osv

open Prog (wp wp_bind)

/-! ## The bytes of a name -/

theorem strncpy_zero (src : List UInt8) : strncpy src 0 = [] := by
  cases src <;> rfl

theorem strncpy_cons {ch : UInt8} (h : ch ≠ 0) (rest : List UInt8) (n : ℕ) :
    strncpy (ch :: rest) (n + 1) = ch :: strncpy rest n := by
  rw [strncpy, strncpyLoop, if_neg h, List.cons_append]
  rfl

theorem strncpy_nil (n : ℕ) : strncpy [] (n + 1) = List.replicate (n + 2) 0 := rfl

theorem length_strncpy : ∀ {src : List UInt8} {n : ℕ}, 0 ∉ src →
    (strncpy src n).length = if src.length < n then n + 1 else n
  | src, 0, _ => by rw [strncpy_zero]; rfl
  | [], n + 1, _ => by
    simp [strncpy_nil]
  | ch :: rest, n + 1, h => by
    rw [List.mem_cons, not_or] at h
    rw [strncpy_cons (Ne.symm h.1), List.length_cons, length_strncpy h.2, List.length_cons]
    split <;> split <;> omega

theorem getElem?_strncpy : ∀ {src : List UInt8} {n k : ℕ}, 0 ∉ src → k < n →
    (strncpy src n)[k]? = some (src.getD k 0)
  | _, 0, _, _, hk => absurd hk (Nat.not_lt_zero _)
  | [], n + 1, k, _, hk => by
    rw [strncpy_nil, List.getElem?_replicate_of_lt (by omega)]
    rfl
  | ch :: rest, n + 1, 0, h, _ => by
    rw [List.mem_cons, not_or] at h
    rw [strncpy_cons (Ne.symm h.1)]
    rfl
  | ch :: rest, n + 1, k + 1, h, hk => by
    rw [List.mem_cons, not_or] at h
    rw [strncpy_cons (Ne.symm h.1), List.getElem?_cons_succ,
      getElem?_strncpy h.2 (Nat.lt_of_succ_lt_succ hk)]
    rfl

theorem getElem?_strncpy_last : ∀ {src : List UInt8} {n : ℕ}, 0 ∉ src → src.length < n →
    (strncpy src n)[n]? = some 0
  | src, 0, _, hlt => absurd hlt (Nat.not_lt_zero _)
  | [], n + 1, _, _ => by
    rw [strncpy_nil, List.getElem?_replicate_of_lt (by omega)]
  | ch :: rest, n + 1, h, hlt => by
    rw [List.mem_cons, not_or] at h
    rw [strncpy_cons (Ne.symm h.1), List.getElem?_cons_succ,
      getElem?_strncpy_last h.2 (Nat.lt_of_succ_lt_succ hlt)]

/-- The bytes of an entry. -/
def direntBytes (inum : Inum) (name : List UInt8) : List UInt8 :=
  Bytes.leBytes 4 inum ++ ((strncpy name sfsDirentNamelen).take (sfsDirentNamelen - 1) ++ [0])

theorem le_length_strncpy {name : List UInt8} {n : ℕ} (h : 0 ∉ name) :
    n ≤ (strncpy name n).length := by
  rw [length_strncpy h]
  split <;> omega

theorem length_direntBytes {inum : Inum} {name : List UInt8} (h : 0 ∉ name) :
    (direntBytes inum name).length = sizeofDirent := by
  have := le_length_strncpy (n := sfsDirentNamelen) h
  rw [direntBytes, List.length_append, List.length_append, List.length_take, Bytes.length_leBytes,
    List.length_singleton]
  unfold sfsDirentNamelen sizeofDirent at *
  omega

/-! ## Storing an entry -/

variable {sb : SbInfo} {w : View} {A : ℕ → Bool} {p : Blk → ℕ} {L : ℕ}
variable {d : Data} {c : Ctl} {v : Dev} {E : Trap → Prop} {i : Inum}
variable {name : List UInt8} {inum : Inum} {b : Blk} {o : ℕ}

/-- What storing the name writes to the block after the entry at `o`. -/
def direntTail (name : List UInt8) (o : ℕ) : List UInt8 :=
  if name.length < sfsDirentNamelen ∧ o + sizeofDirent < bdevBlkSize then [0] else []

/-- Storing the name to the entry at `o` does no harm outside of the block. -/
def Stays (sb : SbInfo) (name : List UInt8) (d : Data) (b : Blk) (o : ℕ) : Prop :=
  sfsDirentNamelen ≤ name.length ∨ o + sizeofDirent < bdevBlkSize ∨
    (o + sizeofDirent = bdevBlkSize ∧
      ∀ b', d.next b = some b' → b' ≠ b ∧ sb.DataBlk b' ∧ d.buf b' 0 = 0)

theorem direntTail_of_long (h : sfsDirentNamelen ≤ name.length) : direntTail name o = [] :=
  if_neg fun h' => absurd h'.1 (Nat.not_lt.mpr h)

theorem direntTail_fits (name : List UInt8) (ho : o + sizeofDirent ≤ bdevBlkSize) :
    o + sizeofDirent + (direntTail name o).length ≤ bdevBlkSize := by
  rw [direntTail]
  split
  · rename_i h
    exact h.2
  · exact ho

theorem spill_take {bytes : List UInt8} (ho : o + 4 + bytes.length ≤ bdevBlkSize) :
    d.spill b (o + 4) bytes = d.setBuf b ((d.buf b).put (o + 4) bytes) := by
  have hlen : bytes.length ≤ bdevBlkSize - (o + 4) := by omega
  rw [Data.spill, List.take_of_length_le hlen, List.drop_of_length_le hlen]
  cases d.next b <;> rfl

theorem put_entry {m : Bytes} {s t : List UInt8} (hs : s.length = sfsDirentNamelen) :
    ((m.put o (Bytes.leBytes 4 inum)).put (o + 4) (s ++ t)).put (o + 4 + (sfsDirentNamelen - 1)) [0]
    = m.put o (Bytes.leBytes 4 inum ++ (s.take (sfsDirentNamelen - 1) ++ [0]) ++ t) := by
  have hsplit : s = s.take (sfsDirentNamelen - 1) ++ s.drop (sfsDirentNamelen - 1) :=
    (List.take_append_drop ..).symm
  have hlen : (s.take (sfsDirentNamelen - 1)).length = sfsDirentNamelen - 1 := by
    rw [List.length_take, hs]
    rfl
  have hlast : (s.drop (sfsDirentNamelen - 1)).length = ([0] : List UInt8).length := by
    rw [List.length_drop, hs]
    rfl
  have hend : o + 4 + s.length =
      o + (Bytes.leBytes 4 inum ++ (s.take (sfsDirentNamelen - 1) ++ [0])).length := by
    rw [List.length_append, List.length_append, hlen, hs, Bytes.length_leBytes]
    rfl
  have hentry : ((m.put o (Bytes.leBytes 4 inum)).put (o + 4) s).put
      (o + 4 + (sfsDirentNamelen - 1)) [0] =
      m.put o (Bytes.leBytes 4 inum ++ (s.take (sfsDirentNamelen - 1) ++ [0])) := by
    rw [Bytes.put_append, Bytes.put_append, Bytes.length_leBytes, hlen]
    conv_lhs => rw [hsplit, Bytes.put_append, hlen]
    rw [Bytes.put_put hlast]
  have hafter : o + 4 + (sfsDirentNamelen - 1) + ([0] : List UInt8).length ≤ o + 4 + s.length := by
    rw [hs]
    rfl
  rw [Bytes.put_append (l := s), Bytes.put_comm (.inr hafter), hentry, hend, ← Bytes.put_append]

theorem Stays.putInum (h : Stays sb name d b o) :
    Stays sb name (d.setBuf b ((d.buf b).put o (Bytes.leBytes 4 inum))) b o := by
  refine h.imp_right (Or.imp_right ?_)
  rintro ⟨heq, hnext⟩
  refine ⟨heq, fun b' hb' => ⟨(hnext b' hb').1, (hnext b' hb').2.1, ?_⟩⟩
  rw [setBuf_buf_of_ne _ (hnext b' hb').1]
  exact (hnext b' hb').2.2

theorem strncpy_short (hname : 0 ∉ name) (hlt : name.length < sfsDirentNamelen) :
    strncpy name sfsDirentNamelen =
      (strncpy name sfsDirentNamelen).take sfsDirentNamelen ++ [0] := by
  have hlen := length_strncpy (n := sfsDirentNamelen) hname
  rw [if_pos hlt] at hlen
  have hin : sfsDirentNamelen < (strncpy name sfsDirentNamelen).length := by omega
  have hget : (strncpy name sfsDirentNamelen)[sfsDirentNamelen] = 0 := by
    have := getElem?_strncpy_last hname hlt
    rwa [List.getElem?_eq_getElem hin, Option.some_inj] at this
  conv_lhs => rw [← List.take_append_drop sfsDirentNamelen (strncpy name sfsDirentNamelen)]
  rw [List.drop_eq_getElem_cons hin, hget, List.drop_of_length_le (by omega)]

/-- Storing a name that stays inside is storing its first 28 bytes and the tail. -/
theorem Stays.spill_eq (h : Stays sb name d b o) (hname : 0 ∉ name)
    (ho : o + sizeofDirent ≤ bdevBlkSize) :
    d.spill b (o + 4) (strncpy name sfsDirentNamelen) = d.setBuf b ((d.buf b).put (o + 4)
      ((strncpy name sfsDirentNamelen).take sfsDirentNamelen ++ direntTail name o)) := by
  have hlen : ((strncpy name sfsDirentNamelen).take sfsDirentNamelen).length =
      sfsDirentNamelen := by
    rw [List.length_take]
    exact Nat.min_eq_left (le_length_strncpy hname)
  have hfit : o + 4 + ((strncpy name sfsDirentNamelen).take sfsDirentNamelen ++
      direntTail name o).length ≤
      bdevBlkSize := by
    have := direntTail_fits name ho
    rw [List.length_append, hlen]
    unfold sizeofDirent at this
    unfold sfsDirentNamelen
    omega
  by_cases hshort : name.length < sfsDirentNamelen
  · set t := (strncpy name sfsDirentNamelen).take sfsDirentNamelen with ht
    rw [strncpy_short hname hshort, ← ht]
    rcases h with hlong | hlt | ⟨heq, hnext⟩
    · omega
    · rw [direntTail, if_pos ⟨hshort, hlt⟩] at hfit ⊢
      exact spill_take hfit
    · have hcut : bdevBlkSize - (o + 4) = t.length := by
        rw [hlen, ← heq]
        unfold sizeofDirent sfsDirentNamelen
        omega
      rw [direntTail, if_neg (fun h' => h'.2.ne heq), List.append_nil, Data.spill, hcut,
        List.take_left, List.drop_left]
      cases hb' : d.next b with
      | none => rfl
      | some b' =>
        obtain ⟨hne, _, h0⟩ := hnext b' hb'
        have hbuf : (d.setBuf b ((d.buf b).put (o + 4) t)).buf b' = d.buf b' :=
            setBuf_buf_of_ne _ hne
        have hput : (d.buf b').put 0 [0] = d.buf b' := Bytes.put_same fun k hk => by
          rw [List.length_singleton, Nat.lt_one_iff] at hk
          subst hk
          exact h0
        show Data.setBuf _ b' _ = _
        rw [hbuf, hput, ← hbuf]
        exact setBuf_same
  · have hall : (strncpy name sfsDirentNamelen).length = sfsDirentNamelen := by
      rw [length_strncpy hname, if_neg hshort]
    rw [direntTail_of_long (Nat.not_lt.mp hshort), List.append_nil,
      List.take_of_length_le hall.le] at hfit ⊢
    exact spill_take hfit

theorem wp_storeDirent {h : List Blk} {Q : Unit → Fs → Prop} (hs : Stays sb name d b o)
    (hname : 0 ∉ name) (ho : o + sizeofDirent ≤ bdevBlkSize) (hc : c.At E A p h L)
    (hE : Room (L + 1) E) (hQ : ∀ c', c'.At E A p h (L + 1) →
      Q () ⟨d.setBuf b ((d.buf b).put o (direntBytes inum name ++ direntTail name o)), c', v⟩) :
    wp (storeDirent b o inum name) Q E ⟨d, c, v⟩ := by
  rw [storeDirent, wp_bind, blkWrite, wp_modifyData, wp_bind, wp_modifyData, wp_bind, blkWrite,
    wp_modifyData, (hs.putInum).spill_eq hname ho]
  have hlen : ((strncpy name sfsDirentNamelen).take sfsDirentNamelen).length =
      sfsDirentNamelen := by
    rw [List.length_take]
    exact Nat.min_eq_left (le_length_strncpy hname)
  simp only [setBuf_buf_self, setBuf_setBuf]
  rw [put_entry hlen, List.take_take]
  exact wp_logBlk hc hE hQ

/-! ## `alloc_dirent` -/

/-- Entry `m` is the first one that is free or after the last. -/
structure File.Vacant (f : File) (m : ℕ) : Prop where
  lt : sizeofDirent * m < sfsMaxFileSize
  free : f.size ≤ sizeofDirent * m ∨ (f.dirent m).inum = 0
  first : ∀ j < m, sizeofDirent * j < f.size ∧ (f.dirent j).inum ≠ 0

/-- The directory with entry `m` stored. -/
def File.insert (f : File) (m : ℕ) (inum : Inum) (name : List UInt8) : File :=
  { f with
    size := if f.size ≤ sizeofDirent * m then sizeofDirent * m + sizeofDirent else f.size
    data := f.data.put (sizeofDirent * m)
      (direntBytes inum name ++ direntTail name (sizeofDirent * (m % 16))) }

/-- Why `alloc_dirent` fails. -/
def InsertFails (sb : SbInfo) (A : ℕ → Bool) (f : File) (d : Data) (e : Err) : Prop :=
  (e = .nomem ∧ Fails A) ∨ (e = .nores ∧ NoFree sb d) ∨
    (e = .nores ∧ ∀ j, sizeofDirent * j < sfsMaxFileSize →
      sizeofDirent * j < f.size ∧ (f.dirent j).inum ≠ 0)

theorem InsertFails.cases {f : File} {e : Err} (h : InsertFails sb A f d e) :
    e = .nomem ∨ e = .nores :=
  h.imp And.left (Or.elim · And.left And.left)

theorem InsertFails.ne_ok {f : File} {e : Err} (h : InsertFails sb A f d e) : e ≠ .ok := by
  rcases h with ⟨rfl, _⟩ | ⟨rfl, _⟩ | ⟨rfl, _⟩ <;> decide

variable {Q : Err → Fs → Prop}

theorem File.Vacant.filled {f : File} {m k : ℕ} (hv : f.Vacant m)
    (hk : k * bdevBlkSize < sizeofDirent * m + sizeofDirent) :
    k = m / 16 ∨ k * bdevBlkSize < f.size := by
  by_cases hkm : k = m / 16
  · exact .inl hkm
  · right
    have hlt : k < m / 16 := by
      unfold bdevBlkSize sizeofDirent at hk
      omega
    have := (hv.first (m - 1) (by omega)).1
    unfold bdevBlkSize sizeofDirent at *
    omega

theorem wp_storeEntry {m : ℕ} (hr : FsRep sb w d) (hu : w.used i)
    (hp : (d.vol sb).ptr i (m / 16) = b) (hb : b ≠ 0) (hname : 0 ∉ name)
    (hstay : Stays sb name d b (sizeofDirent * (m % 16)))
    (hc : c.At E A (pin p (inumToBlk i)) [b] L) (hE : Room (L + 1) E)
    (hok : ∀ d' c', FsRep sb (w.setFile i { w.file i with
        data := (w.file i).data.put (sizeofDirent * m)
          (direntBytes inum name ++ direntTail name (sizeofDirent * (m % 16))) }) d' →
      c'.At E A p [] (L + 1) → Q .ok ⟨d', c', v⟩) :
    wp (do
      storeDirent b (sizeofDirent * m % bdevBlkSize) inum name
      bdevReleaseBlk b
      bdevReleaseBlkUnlocked (inumToBlk i)
      pure Err.ok) Q E ⟨d, c, v⟩ := by
  have hofs : sizeofDirent * (m % 16) + sizeofDirent ≤ bdevBlkSize := by
    unfold sizeofDirent bdevBlkSize
    omega
  rw [wp_bind, dirent_mod]
  refine wp_storeDirent hstay hname hofs hc hE fun c2 h2 => ?_
  rw [wp_bind]
  refine wp_release_head h2 fun c3 h3 => ?_
  rw [wp_bind]
  refine wp_bdevReleaseBlkUnlocked h3 fun c4 h4 => hok _ c4 ?_ h4
  have hwrite := hr.write (o := sizeofDirent * (m % 16))
    (l := direntBytes inum name ++ direntTail name (sizeofDirent * (m % 16))) hu hp hb
    (by rw [List.length_append, length_direntBytes hname, ← Nat.add_assoc]
        exact direntTail_fits name hofs)
  have hpos : m / 16 * bdevBlkSize + sizeofDirent * (m % 16) = sizeofDirent * m := by
    unfold sizeofDirent bdevBlkSize
    omega
  rwa [hpos] at hwrite

/-- Storing to the entry that was found, after the size if the entry is new. -/
theorem wp_allocDirent_hit {m : ℕ} {de : Dirent} (hr : FsRep sb w d) (hi : 0 < w.ref i)
    (hvac : (w.file i).Vacant m) (hp : (d.vol sb).ptr i (m / 16) = b) (hb : b ≠ 0)
    (hname : 0 ∉ name) (hstay : Stays sb name d b (sizeofDirent * (m % 16)))
    (hc : c.At E A (pin p (inumToBlk i)) [b] L) (hE : Room (L + 2) E)
    (hok : ∀ d' c', FsRep sb (w.setFile i ((w.file i).insert m inum name)) d' →
    c'.At E A p [] (L + 2) →
      Q .ok ⟨d', c', v⟩) : wp ((allocDirentScan i name inum).hit b (sizeofDirent * m) de) Q E
        ⟨d, c, v⟩ := by
  obtain ⟨n, hn, hcached⟩ := hr.cached_of_ref hi
  have hu := hcached.used
  have hsz := hr.file_size hn
  have hdata : sb.DataBlk b := hp ▸ (Vol.ptr_dataBlk hr.sound (hr.used_buf hu) (hp.symm ▸ hb)).1
  show wp (inode i >>= _) Q E _
  rw [wp_bind]
  refine wp_inode hn ?_
  by_cases hgrow : n.size ≤ sizeofDirent * m
  · rw [if_pos hgrow, wp_bind]
    refine wp_updateInode hn (hr.inum_ne_zero hn) ?_ hc (hE.mono (by omega)) (fun c1 h1 => ?_)
      (fun h0 => absurd h0 (pin_pos p _).ne')
    · simpa using (hdata.ne_inumToBlk (hr.isInum hu)).symm
    have hsmall : sizeofDirent * m + sizeofDirent < 256 ^ 4 := by
      have := hvac.lt
      have hmax : sfsMaxFileSize = 137216 := rfl
      unfold sizeofDirent at *
      omega
    have hr1 := hr.setMeta hn (x :=
        { n with size := sizeofDirent * m + sizeofDirent, dirty := false })
      hcached.valid rfl { hcached.fits with size := hsmall } rfl rfl fun hf k hk => by
        rcases hvac.filled hk with rfl | hk
        · rw [hp]
          exact hb
        · exact hr.filled i hf hu k (.inl hk)
    refine wp_storeEntry (L := L + 1) hr1 hu ?_ hb hname ?_ h1 hE fun d' c' hr' h' =>
      hok d' c' ?_ h'
    · exact (hr.ptr_storeIno (x :=
        { n with size := sizeofDirent * m + sizeofDirent, dirty := false })
        hn hcached.valid rfl hu _).trans hp
    · have hbuf : ∀ b', sb.DataBlk b' → (d.storeIno i
          { n with size := sizeofDirent * m + sizeofDirent, dirty := false }).buf b' = d.buf b' :=
        fun b' hb' => Function.update_of_ne (hb'.ne_inumToBlk (hr.isInum hu)) ..
      refine hstay.imp_right (Or.imp_right ?_)
      rintro ⟨h1, h2⟩
      exact ⟨h1, fun b' hb' =>
        ⟨(h2 b' hb').1, (h2 b' hb').2.1, by rw [hbuf b' (h2 b' hb').2.1]; exact (h2 b' hb').2.2⟩⟩
    · have hfile : w.file i = ⟨n.ftype, n.mode, n.nlink, n.size, (w.file i).data⟩ := by
        rw [← hr.file i hu, Vol.file, hr.vol_ino hn]
      have hle : (w.file i).size ≤ sizeofDirent * m := hsz ▸ hgrow
      rw [File.insert, if_pos hle]
      simp only [View.setFile, Function.update_self, Function.update_idem] at hr'
      rw [hfile]
      exact hr'
  · rw [if_neg hgrow]
    refine wp_storeEntry hr hu hp hb hname hstay hc (hE.mono (Nat.le_succ _)) fun d' c' hr' h' =>
      hok d' c' ?_ (h'.mono (Nat.le_succ _))
    have hnle : ¬ (w.file i).size ≤ sizeofDirent * m := hsz ▸ hgrow
    rw [File.insert, if_neg hnle]
    exact hr'

/-- Storing a name to the entry that `alloc_dirent` finds does no harm outside of the directory: the
entry is not the last one of its block, or the byte after it, in the buffer that follows, is 0. -/
def Harmless (sb : SbInfo) (name : List UInt8) (w : View) (i : Inum) (d : Data) : Prop :=
  sfsDirentNamelen ≤ name.length ∨ ∀ m, (w.file i).Vacant m → m % 16 = 15 →
    w.filled i ∧ ∀ b', d.next ((d.vol sb).ptr i (m / 16)) = some b' →
      b' ≠ (d.vol sb).ptr i (m / 16) ∧ sb.DataBlk b' ∧ d.buf b' 0 = 0

theorem Harmless.stays {m : ℕ} {d' : Data} (h : Harmless sb name w i d) (hv : (w.file i).Vacant m)
    (hsame : w.filled i → m % 16 ≠ 0 → d' = d) (hp : (d'.vol sb).ptr i (m / 16) = b) :
    Stays sb name d' b (sizeofDirent * (m % 16)) := by
  refine h.imp_right fun h => ?_
  by_cases hm : m % 16 = 15
  · obtain ⟨hf, hnext⟩ := h m hv hm
    obtain rfl := hsame hf (by omega)
    refine .inr ⟨?_, hp ▸ hnext⟩
    rw [hm]
    rfl
  · left
    unfold sizeofDirent bdevBlkSize
    omega

section

variable (hr : FsRep sb w d) (hi : 0 < w.ref i)
  (hroom : E journalFull ∨ (w.filled i ∧ L + 8 ≤ journalSize)) (hdbl : Fails A → E lockNotHeld)
  (hc : c.At E A p [] L) (hfail : ∀ e d' c' L', InsertFails sb A (w.file i) d' e → FsRep sb w d' →
    c'.At E A p [] L' → (E journalFull ∨ L' ≤ L + 6) → Q e ⟨d', c', v⟩)

include hr hi hroom hdbl hc hfail

theorem wp_allocDirent_scan
    (hhit : ∀ m b g d' c', Scanned sb w A (pin p (inumToBlk i)) L E i true g d [b] d' c' →
      (m % 16 ≠ 0 → g = false) → (w.file i).Vacant m → (d'.vol sb).ptr i (m / 16) = b → b ≠ 0 →
      wp ((allocDirentScan i name inum).hit b (sizeofDirent * m) ((w.file i).dirent m)) Q E
        ⟨d', c', v⟩) : wp (allocDirent sb i name inum) Q E ⟨d, c, v⟩ := by
  rw [allocDirent, wp_bind]
  refine wp_bdevGetBlkUnlocked hc (fun c1 h1 => ?_)
    (fun _ hA c1 h1 => hfail _ d c1 L (.inl ⟨rfl, hA⟩) hr h1 (.inr (Nat.le_add_right ..)))
  rw [if_pos rfl]
  refine wp_dirScan hi le_rfl (fun ofs de _ ht => ?_) (fun ha => by cases ha) (fun _ => hroom) hdbl
    (fun m b g d' c' hs hg hm htest hbefore hp hb => ?_) (fun e g d' c' hs he => ?_)
    (fun d' c' hs hall => ?_) hr h1
  · simp only [allocDirentScan, decide_eq_false_iff_not, not_or] at ht
    exact Nat.not_le.mp ht.1
  · refine hhit m b g d' c' hs (fun h => hg (.inr h)) ⟨hm, ?_, fun j hj => ?_⟩ hp hb
    · simpa [allocDirentScan] using htest
    · have := hbefore j hj
      simpa [allocDirentScan] using this
  · obtain ⟨L', hc', hL⟩ := hs.room
    show wp (bdevReleaseBlkUnlocked _ >>= _) Q E _
    rw [wp_bind]
    refine wp_bdevReleaseBlkUnlocked hc' fun c2 h2 => hfail e d' c2 L' ?_ hs.rep h2 hL
    rcases he with (⟨he, hA⟩ | ⟨he, _, hno⟩) | ⟨_, ha, _⟩
    · exact .inl ⟨he, hA⟩
    · exact .inr (.inl ⟨he, hno⟩)
    · cases ha
  · obtain ⟨L', hc', hL⟩ := hs.room
    show wp (bdevReleaseBlkUnlocked _ >>= _) Q E _
    rw [wp_bind]
    refine wp_bdevReleaseBlkUnlocked hc' fun c2 h2 =>
      hfail _ d' c2 L' (.inr (.inr ⟨rfl, fun j hj => ?_⟩)) hs.rep h2 hL
    simpa [allocDirentScan] using hall j hj

theorem wp_allocDirent (hname : 0 ∉ name) (hharm : Harmless sb name w i d)
    (hok : ∀ m d' c' L', (w.file i).Vacant m →
    FsRep sb (w.setFile i ((w.file i).insert m inum name)) d' →
      c'.At E A p [] L' → (E journalFull ∨ L' ≤ L + 8) → Q .ok ⟨d', c', v⟩) :
    wp (allocDirent sb i name inum) Q E ⟨d, c, v⟩ := by
  have hu := hr.used_of_ref hi
  refine wp_allocDirent_scan hr hi hroom hdbl hc hfail fun m b g d' c' hs hg hvac hp hb => ?_
  obtain ⟨L', hc', hL'⟩ := hs.room
  refine wp_allocDirent_hit hs.rep hi hvac hp hb hname ?_ hc' ?_ fun d2 c2 hr2 h2 => ?_
  · exact hharm.stays hvac (fun hf hm => hs.same (.inr ⟨hf, hg hm⟩)) hp
  · rcases hroom with hE | ⟨_, hL⟩
    · exact .inr hE
    · exact hL'.elim .inr fun h => .inl (by omega)
  · exact hok m d2 c2 (L' + 2) hvac hr2 h2 (hL'.imp_right fun h => by omega)

end

end Osv
