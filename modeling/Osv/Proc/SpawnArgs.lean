import Osv.Base
import Osv.Lib.CString

/-!
# The arguments of `spawn`

`sys_spawn` copies the user's string, allocates an array for the arguments and cuts
the copy into words with `strtok_r`, which puts a 0 behind each word.  The number of
entries is half the length of the string, which is enough for any string, but no
more than `PROC_MAX_ARG`; the loop does not look at it.  The arguments are right and
all stores are in the array iff the string has at most `PROC_MAX_ARG` words
(`spawnArgs_iff`).

A store outside of the array and a read behind the copy are traps.
-/

namespace Osv

open Function (update update_self update_of_ne)
open Prog (bind_of_ok read_bind)

/-! ## The allocator -/

/-- The sizes of `kmalloc_allocators`. -/
def kmallocAllocators : List ℕ := [32, 64, 128, 256, 512, 1024, 2048, 4096]

/-- The size of the object that `kmalloc` allocates, if it has one that is large enough. -/
def kmallocSize (size : ℕ) : Option ℕ :=
  if size = 0 then none
  else if size > 4096 then none
  else kmallocAllocators.find? (· ≥ size)

/-! ## `strtok_r` -/

/-- What `sys_spawn` works on: the copy of the string with its size and the pointer into it, and the
array with its number of entries. -/
structure ArgState where
  mem : ℕ → UInt8
  size : ℕ
  buf : ℕ
  argv : ℕ → Option ℕ
  slots : ℕ

/-- A function on the strings of a process. -/
abbrev ArgM := Prog Trap ArgState

/-- The position of a byte in a string, where the 0 at the end counts. -/
def strchr : List UInt8 → UInt8 → Option ℕ
  | [], c => if c = 0 then some 0 else none
  | x :: s, c => if x = c then some 0 else (strchr s c).map (· + 1)

/-- Skip delimiters, with `left` bytes of the copy from `s` on.  The result is an error at the end
of the string. -/
def skipDelims (delims : List UInt8) : (left s : ℕ) → ArgM (Except ℕ ℕ)
  | 0, _ => Prog.trap (.wild "*s")
  | left + 1, s => do
    let st ← Prog.read
    if (strchr delims (st.mem s)).isSome then
      if st.mem s = 0 then pure (.error s) else skipDelims delims left (s + 1)
    else pure (.ok s)

/-- Skip bytes that are no delimiters. -/
def skipToken (delims : List UInt8) : (left s : ℕ) → ArgM ℕ
  | 0, _ => Prog.trap (.wild "*s")
  | left + 1, s => do
    let st ← Prog.read
    if (strchr delims (st.mem s)).isNone then skipToken delims left (s + 1) else pure s

/-- `strtok_r(NULL, delims, &buf)`. -/
def strtokR (delims : List UInt8) : ArgM (Option ℕ) := do
  let st ← Prog.read
  match ← skipDelims delims (st.size - st.buf) st.buf with
  | .error s => do
    Prog.update fun st => { st with buf := s }
    pure none
  | .ok token => do
    let s ← skipToken delims (st.size - token) token
    if st.mem s ≠ 0 then do
      Prog.update fun st => { st with mem := update st.mem s 0 }
      Prog.update fun st => { st with buf := s + 1 }
      pure (some token)
    else do
      Prog.update fun st => { st with buf := s }
      pure (some token)

/-! ## The loop of `sys_spawn` -/

/-- The separator. -/
def space : UInt8 := 32

/-- Store into the array. -/
def storeArg (argc : ℕ) (token : Option ℕ) : ArgM Unit := do
  let st ← Prog.read
  if argc < st.slots then Prog.update fun st => { st with argv := update st.argv argc token }
  else Prog.trap (.wild "argv[argc]")

/-- The loop that cuts the copy into arguments.  Each pass but the last leaves fewer bytes. -/
def parseArgs : (passes argc : ℕ) → ArgM ℕ
  | 0, _ => Prog.trap (.wild "argv[argc]")
  | passes + 1, argc => do
    match ← strtokR [space] with
    | none => pure argc
    | some token => do
      storeArg argc (some token)
      parseArgs passes (argc + 1)

/-- `PROC_MAX_ARG`. -/
def procMaxArg : ℕ := 128

/-- `sys_spawn` from the length of the user's string on up to the call of `proc_spawn`.  `bufMem`
and `argvMem` say whether there is memory for the two objects.  The result is `argc`. -/
def spawnArgs (args : List UInt8) (bufMem argvMem : Bool) : ArgM (Except Err ℕ) :=
  let len := args.length + 1
  if (kmallocSize len).isNone ∨ bufMem = false then pure (.error .nomem)
  else do
    Prog.update fun st => { st with mem := fun i => args.getD i 0, size := len, buf := 0 }
    let len := if len / 2 < procMaxArg then len / 2 else procMaxArg
    if (kmallocSize ((len + 1) * 8)).isNone ∨ argvMem = false then pure (.error .nomem)
    else do
      Prog.update fun st => { st with slots := len + 1 }
      let st ← Prog.read
      let argc ← parseArgs st.size 0
      storeArg argc none
      pure (.ok argc)

/-! ## Cutting off a word -/

/-- Whether a byte separates words. -/
def isSpace (c : UInt8) : Bool := c = space

theorem strchr_space {c : UInt8} (h : c ≠ 0) : (strchr [space] c).isSome = isSpace c := by
  by_cases hc : c = space
  · subst hc
    rfl
  · simp [strchr, isSpace, hc, h, Ne.symm hc]

section Strtok

variable {st : ArgState} {s left : ℕ} {l : List UInt8}

theorem skipDelims_run (h : CStr st.mem s l) (hleft : l.length < left) :
    skipDelims [space] left s st = .ok (if l.dropWhile isSpace = [] then .error (s + l.length)
      else .ok (s + (l.takeWhile isSpace).length), st) := by
  induction l generalizing s left with
  | nil =>
    obtain ⟨left, rfl⟩ := Nat.exists_eq_add_of_lt hleft
    have h0 : st.mem s = 0 := h
    rw [skipDelims, read_bind, if_pos (by rw [h0]; rfl), if_pos h0]
    rfl
  | cons x l ih =>
    obtain ⟨left, rfl⟩ := Nat.exists_eq_add_of_lt hleft
    obtain ⟨hx, hmem, h⟩ := h
    rw [skipDelims, read_bind, hmem, strchr_space hx]
    cases hsp : isSpace x with
    | true =>
      rw [if_pos rfl, if_neg hx, ih h (Nat.lt_of_succ_lt_succ hleft),
        List.takeWhile_cons_of_pos hsp, List.dropWhile_cons_of_pos hsp, List.length_cons,
        List.length_cons, Nat.add_assoc, Nat.add_comm 1, Nat.add_assoc, Nat.add_comm 1]
    | false =>
      rw [if_neg (by simp)]
      simp [hsp]

theorem skipToken_run (h : CStr st.mem s l) (hleft : l.length < left) :
    skipToken [space] left s st = .ok (s + (l.takeWhile fun c => !isSpace c).length, st) := by
  induction l generalizing s left with
  | nil =>
    obtain ⟨left, rfl⟩ := Nat.exists_eq_add_of_lt hleft
    have h0 : st.mem s = 0 := h
    rw [skipToken, read_bind, h0, if_neg (by decide)]
    rfl
  | cons x l ih =>
    obtain ⟨left, rfl⟩ := Nat.exists_eq_add_of_lt hleft
    obtain ⟨hx, hmem, h⟩ := h
    rw [skipToken, read_bind, hmem, ← Option.not_isSome, strchr_space hx]
    cases hsp : isSpace x with
    | true =>
      rw [if_neg (by simp)]
      simp [hsp]
    | false =>
      rw [if_pos (by simp), ih h (Nat.lt_of_succ_lt_succ hleft),
        List.takeWhile_cons_of_pos (by simp [hsp]), List.length_cons, Nat.add_assoc, Nat.add_comm 1]

theorem strtokR_none (h : CStr st.mem st.buf l) (hfit : st.buf + l.length < st.size)
    (hl : l.dropWhile isSpace = []) :
    strtokR [space] st = .ok (none, { st with buf := st.buf + l.length }) := by
  rw [strtokR, read_bind, bind_of_ok (skipDelims_run h (by omega)), if_pos hl]
  rfl

theorem strtokR_some (h : CStr st.mem st.buf l) (hfit : st.buf + l.length < st.size)
    (hl : l.dropWhile isSpace ≠ []) :
    ∃ token st' w rest, strtokR [space] st = .ok (some token, st') ∧
      words isSpace l = w :: words isSpace rest ∧ rest.length < l.length ∧
      CStr st'.mem st'.buf rest ∧ st'.buf + rest.length = st.buf + l.length ∧
      CStr st'.mem token w ∧ token + w.length ≤ st'.buf ∧ (∀ q ≤ st.buf, st'.mem q = st.mem q) ∧
      st.buf ≤ st'.buf ∧ st'.argv = st.argv ∧ st'.slots = st.slots ∧ st'.size = st.size := by
  have hlen := congrArg List.length (List.takeWhile_append_dropWhile (p := isSpace) (l := l))
  rw [List.length_append] at hlen
  have htoken : CStr st.mem (st.buf + (l.takeWhile isSpace).length) (l.dropWhile isSpace) :=
    drop_length_takeWhile isSpace l ▸ h.drop (by omega)
  have hword := List.length_pos_iff.mpr (takeWhile_dropWhile_ne hl)
  have hstep := words_step hl
  rw [strtokR, read_bind, bind_of_ok (skipDelims_run h (by omega)), if_neg hl]
  generalize htok : st.buf + (l.takeWhile isSpace).length = token at htoken
  generalize l.dropWhile isSpace = r at htoken hword hstep hlen
  have hr := congrArg List.length
      (List.takeWhile_append_dropWhile (p := fun c => !isSpace c) (l := r))
  have htake := take_length_takeWhile (fun c => !isSpace c) r
  have hrest := drop_length_takeWhile (fun c => !isSpace c) r
  have hcut := htoken.cut (p := fun c => !isSpace c)
  rw [List.length_append] at hr
  dsimp only
  rw [bind_of_ok (skipToken_run htoken (by omega))]
  generalize hw : (r.takeWhile fun c => !isSpace c) = w at *
  generalize hd : (r.dropWhile fun c => !isSpace c) = d at *
  have hend : CStr st.mem (token + w.length) d := hrest ▸ htoken.drop (by omega)
  cases d with
  | nil =>
    have h0 : st.mem (token + w.length) = 0 := hend
    rw [List.length_nil] at hr
    rw [if_neg (not_not.mpr h0)]
    refine ⟨token, _, w, [], rfl, by simpa using hstep, by rw [List.length_nil]; omega, hend,
      by dsimp only; rw [List.length_nil]; omega, ?_, le_rfl, fun _ _ => rfl,
      by dsimp only; omega, rfl, rfl, rfl⟩
    have := htoken.take (by omega) (fun _ _ _ => rfl) h0
    rwa [htake] at this
  | cons x d =>
    obtain ⟨hx, hmem, -⟩ := hend
    obtain ⟨hword, hnext, -⟩ := hcut (List.cons_ne_nil x d)
    rw [List.length_cons] at hr
    rw [if_pos (by rw [hmem]; exact hx)]
    refine ⟨token, _, w, d, rfl, by simpa using hstep, by omega, hnext, by dsimp only; omega, hword,
      by dsimp only; omega, fun q hq => ?_, by dsimp only; omega, rfl, rfl, rfl⟩
    exact update_of_ne (by omega) _ _

end Strtok

/-! ## All words -/

/-- The number of arguments that `sys_spawn` allocates entries for. -/
def argSlots (args : List UInt8) : ℕ :=
  if (args.length + 1) / 2 < procMaxArg then (args.length + 1) / 2 else procMaxArg

/-- The words in `done` have been cut off, and `rest` is left of the copy. -/
structure CutUp (args : List UInt8) (done : List (List UInt8)) (rest : List UInt8) (st : ArgState) :
    Prop where
  str : CStr st.mem st.buf rest
  fit : st.buf + rest.length < st.size
  all : words isSpace args = done ++ words isSpace rest
  argv : ∀ i w, done[i]? = some w → ∃ q, st.argv i = some q ∧ CStr st.mem q w ∧
    q + w.length ≤ st.buf

/-- All arguments are in the array, in order, with a `NULL` behind the last. -/
structure ArgsParsed (args : List UInt8) (argc : ℕ) (st : ArgState) : Prop where
  count : (words isSpace args).length = argc
  argv : ∀ i w, (words isSpace args)[i]? = some w → ∃ q, st.argv i = some q ∧ CStr st.mem q w
  last : st.argv argc = none
  fits : argc ≤ argSlots args

theorem storeArg_run {st : ArgState} {argc : ℕ} (token : Option ℕ) (h : argc < st.slots) :
    storeArg argc token st = .ok ((), { st with argv := update st.argv argc token }) := by
  rw [storeArg, read_bind, if_pos h]
  rfl

/-- One more word, and its pointer behind those of the words before. -/
theorem argv_snoc {argv : ℕ → Option ℕ} {mem mem' : ℕ → UInt8} {done : List (List UInt8)}
    {w : List UInt8} {e d token : ℕ} (h : ∀ i w, done[i]? = some w → ∃ q, argv i = some q ∧
    CStr mem q w ∧ q + w.length < e) (hframe : ∀ q < e, mem' q = mem q) (hmono : e ≤ d)
    (htok : CStr mem' token w) (hlt : token + w.length < d) : ∀ i w', (done ++ [w])[i]? = some w' →
      ∃ q, update argv done.length (some token) i = some q ∧ CStr mem' q w' ∧
        q + w'.length < d := by
  intro i w' hi
  rcases Nat.lt_trichotomy i done.length with hlt | rfl | hgt
  · rw [List.getElem?_append_left hlt] at hi
    obtain ⟨q, hq, hqs, hqe⟩ := h i w' hi
    refine ⟨q, (update_of_ne hlt.ne _ _).trans hq, ?_, hqe.trans_le hmono⟩
    exact hqs.frame fun x _ hx => hframe x (hx.trans_lt hqe)
  · rw [List.getElem?_append_right le_rfl, Nat.sub_self] at hi
    cases hi
    exact ⟨token, update_self .., htok, hlt⟩
  · rw [List.getElem?_eq_none (by rw [List.length_append, List.length_singleton]; omega)] at hi
    cases hi

theorem CutUp.parseArgs {args rest : List UInt8} {done : List (List UInt8)} {st : ArgState}
    (h : CutUp args done rest st) (passes : ℕ) (hpasses : rest.length < passes)
    (hslots : (words isSpace args).length ≤ st.slots) :
    ∃ st' rest', Osv.parseArgs passes done.length st = .ok ((words isSpace args).length, st') ∧
      CutUp args (words isSpace args) rest' st' ∧ st'.slots = st.slots := by
  induction passes generalizing done rest st with
  | zero => omega
  | succ passes ih =>
    rw [Osv.parseArgs]
    by_cases hl : rest.dropWhile isSpace = []
    · have hnil : words isSpace rest = [] := by rw [← words_dropWhile, hl]; rfl
      have hall : words isSpace args = done := by rw [h.all, hnil, List.append_nil]
      rw [bind_of_ok (strtokR_none h.str h.fit hl), hall]
      have hend := h.str.drop (le_refl rest.length)
      rw [List.drop_length] at hend
      refine ⟨_, [], rfl, ⟨hend, h.fit, by rw [hall]; simp, fun i w hi => ?_⟩, rfl⟩
      obtain ⟨q, hq, hstr, hle⟩ := h.argv i w hi
      exact ⟨q, hq, hstr, hle.trans (Nat.le_add_right _ _)⟩
    · obtain ⟨token, st1, w, rest1, hrun, hwords, hlt, hstr, hbuf, htok, hle, hframe, hmono, hargv,
          hs, hsize⟩ :=
        strtokR_some h.str h.fit hl
      have hcount := congrArg List.length h.all
      rw [hwords, List.length_append, List.length_cons] at hcount
      rw [bind_of_ok hrun]
      dsimp only
      rw [bind_of_ok (storeArg_run (some token) (by omega))]
      have hnext : CutUp args (done ++ [w]) rest1
          { st1 with argv := update st1.argv done.length (some token) } := by
        have hnew := argv_snoc (e := st.buf + 1) (d := st1.buf + 1)
            (by simpa only [Nat.lt_succ_iff] using h.argv)
          (fun q hq => hframe q (Nat.le_of_lt_succ hq)) (Nat.succ_le_succ hmono) htok
          (Nat.lt_succ_of_le hle)
        refine ⟨hstr, ?_, ?_, by simpa only [Nat.lt_succ_iff, hargv] using hnew⟩
        · dsimp only
          rw [hbuf, hsize]
          exact h.fit
        · rw [h.all, hwords, List.append_assoc]
          rfl
      obtain ⟨st', rest', hrun', hcut, hs'⟩ := ih hnext (by omega) (by rw [hs]; exact hslots)
      rw [List.length_append, List.length_singleton] at hrun'
      exact ⟨st', rest', hrun', hcut, hs'.trans hs⟩

theorem cstr_getD {args : List UInt8} (h0 : 0 ∉ args) : CStr (fun i => args.getD i 0) 0 args := by
  have hfrom : ∀ (l pre : List UInt8), 0 ∉ l →
      CStr (fun i => (pre ++ l).getD i 0) pre.length l := by
    intro l
    induction l with
    | nil =>
      intro pre _
      simp [CStr]
    | cons x l ih =>
      intro pre h
      refine ⟨fun hx => h (hx ▸ List.mem_cons_self), by simp, ?_⟩
      have := ih (pre ++ [x]) fun hm => h (List.mem_cons_of_mem x hm)
      rwa [List.append_assoc, List.length_append, List.length_singleton] at this
  exact hfrom args [] h0

/-- For every string of at most 4095 bytes, the arguments are right and all stores are in the array
iff the string has at most 128 words. -/
theorem spawnArgs_iff {args : List UInt8} (h0 : 0 ∉ args)
    (hlen : args.length ≤ 4095) (st : ArgState) :
    (∃ argc st', spawnArgs args true true st = .ok (.ok argc, st') ∧ ArgsParsed args argc st') ↔
      (words isSpace args).length ≤ procMaxArg := by
  constructor
  · rintro ⟨argc, st', -, h⟩
    rw [h.count]
    have := h.fits
    rw [argSlots] at this
    split at this
    · rename_i hlt
      omega
    · exact this
  · intro hmax
    have htwo := two_mul_words_le (p := isSpace) args
    have hfits : (words isSpace args).length ≤ argSlots args := by
      rw [argSlots]
      split
      · omega
      · exact hmax
    have hle : argSlots args ≤ 128 := by
      rw [argSlots, procMaxArg]
      split <;> omega
    have hk : ∀ size, 0 < size → size ≤ 4096 → ¬ ((kmallocSize size).isNone ∨ true = false) := by
      intro size h1 h2
      rw [kmallocSize, if_neg (by omega), if_neg (by omega)]
      simp [kmallocAllocators]
      omega
    rw [spawnArgs, if_neg (hk _ (by omega) (by omega)), Prog.update_bind,
      if_neg (hk _ (by omega) (by rw [← argSlots]; omega)), Prog.update_bind, read_bind, ← argSlots]
    have hcut : CutUp args [] args { st with
        mem := fun i => args.getD i 0, size := args.length + 1, buf := 0,
        slots := argSlots args + 1 } :=
      ⟨cstr_getD h0, by dsimp only; omega, rfl, fun i w hi => by simp at hi⟩
    obtain ⟨st', rest, hrun, hdone, hs⟩ := hcut.parseArgs (args.length + 1) (by omega)
      (by dsimp only; omega)
    rw [List.length_nil] at hrun
    rw [bind_of_ok hrun, bind_of_ok (storeArg_run none (by rw [hs]; dsimp only; omega))]
    refine ⟨_, _, rfl, rfl, fun i w hi => ?_, update_self .., hfits⟩
    obtain ⟨q, hq, hstr, -⟩ := hdone.argv i w hi
    have hlt : i < (words isSpace args).length := (List.getElem?_eq_some_iff.mp hi).1
    exact ⟨q, (update_of_ne hlt.ne _ _).trans hq, hstr⟩

/-- The string `"ls  -l"`. -/
def lsArgs : List UInt8 := [108, 115, 32, 32, 45, 108]

/-- The state before the call. -/
def noArgs : ArgState := ⟨fun _ => 0, 0, 0, fun _ => none, 0⟩

/-- The arguments of `"ls  -l"` are `"ls"` and `"-l"`. -/
theorem lsArgs_parsed : words isSpace lsArgs = [[108, 115], [45, 108]] ∧
    ∃ argc st', spawnArgs lsArgs true true noArgs = .ok (.ok argc, st') ∧
      ArgsParsed lsArgs argc st' :=
  ⟨by decide, (spawnArgs_iff (by decide) (by decide) noArgs).mpr (by decide)⟩

/-- The string of 257 bytes `"a a ... a"` with 129 words. -/
def manyArgs : List UInt8 := (List.replicate 128 [97, 32]).flatten ++ [97]

/-- The array has 128 entries for the 129 words, and the `NULL` behind the last is stored outside of
it. -/
theorem manyArgs_overrun : 0 ∉ manyArgs ∧ manyArgs.length = 257 ∧
    (words isSpace manyArgs).length = 129 ∧
    argSlots manyArgs = 128 ∧ spawnArgs manyArgs true true noArgs = .error (.wild "argv[argc]") ∧
    ¬ ∃ argc st', spawnArgs manyArgs true true noArgs = .ok (.ok argc, st') ∧
      ArgsParsed manyArgs argc st' := by
  have hrun : spawnArgs manyArgs true true noArgs = .error (.wild "argv[argc]") :=
    Prog.run_of_trapOf (by decide +kernel)
  refine ⟨by decide +kernel, by decide +kernel, by decide +kernel, by decide +kernel, hrun, ?_⟩
  rintro ⟨argc, st', h, -⟩
  rw [hrun] at h
  cases h

end Osv
