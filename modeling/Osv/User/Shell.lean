import Osv.Proc.SpawnArgs

/-!
# The command line of the shell

`gets` reads a line of at most 255 bytes.  `parseline` copies it into an array of 256 bytes, puts a
space over its last byte, and cuts the copy into arguments in place: words between spaces, and texts
between single quotes (`shellArgs`).

The space of an empty line goes in front of the array, and the loop does not look at the 64 entries
of `argv`.  All accesses are inside iff the line is not empty and has fewer than 64 arguments
(`parseline_iff`).  Each loop over the copy is given the bytes that are left of the array, and
reading behind them is a trap.
-/

namespace Osv

open Function (update update_self update_of_ne)
open Prog (bind_of_ok read_bind update_bind wp wp_bind)

/-- End of a line. -/
def lineFeed : UInt8 := 10

/-- The quotation mark. -/
def quote : UInt8 := 39

/-- `MAXLINE`. -/
def maxLine : ℕ := 256

/-- `MAXARGS`. -/
def maxArgs : ℕ := 64

/-! ## The source -/

/-- The bytes that `gets` stores before the 0, with room for `n` of them.  `input` has the bytes
that the calls of `read` return, up to the first that returns none. -/
def gets : (n : ℕ) → (input : List UInt8) → List UInt8
  | 0, _ => []
  | _ + 1, [] => []
  | n + 1, c :: input => if c = lineFeed ∨ c = 13 then [c] else c :: gets n input

/-- The string in `cmdline` after `gets(cmdline, MAXLINE)`. -/
def cmdline (input : List UInt8) : List UInt8 := (gets (maxLine - 1) input).takeWhile (· ≠ 0)

/-- `while (*buf && (*buf == ' '))`. -/
def skipSpaces : (left buf : ℕ) → ArgM ℕ
  | 0, _ => Prog.trap (.wild "*buf")
  | left + 1, buf => do
    let st ← Prog.read
    if st.mem buf ≠ 0 ∧ st.mem buf = space then skipSpaces left (buf + 1) else pure buf

/-- `strchr(s, c)` of a string in the array; `strchr` is the one of a string literal. -/
def strchrAt (c : UInt8) : (left s : ℕ) → ArgM (Option ℕ)
  | 0, _ => Prog.trap (.wild "*s")
  | left + 1, s => do
    let st ← Prog.read
    if st.mem s = c then pure (some s)
    else if st.mem s = 0 then pure none
    else strchrAt c left (s + 1)

/-- The start of the next argument and its delimiter. -/
def nextArg (buf : ℕ) : ArgM (ℕ × Option ℕ) := do
  let st ← Prog.read
  let buf ← skipSpaces (st.size - buf) buf
  let (buf, c) := if st.mem buf = quote then (buf + 1, quote) else (buf, space)
  let delim ← strchrAt c (st.size - buf) buf
  pure (buf, delim)

/-- `while (delim)`, with what is before it in each pass, and the `NULL` behind the last argument.
-/
def lineArgs : (passes argc buf : ℕ) → ArgM Unit
  | 0, _, _ => Prog.trap (.wild "delim")
  | passes + 1, argc, buf => do
    match ← nextArg buf with
    | (_, none) => storeArg argc none
    | (buf, some delim) => do
      storeArg argc (some buf)
      Prog.update fun st => { st with mem := update st.mem delim 0 }
      lineArgs passes (argc + 1) (delim + 1)

/-- Split a line into its words. -/
def parseline (line : List UInt8) : ArgM Unit := do
  let st ← Prog.read
  if line.length < st.size then do
    Prog.update fun st =>
      { st with mem := fun i => if i ≤ line.length then line.getD i 0 else st.mem i }
    if line.length = 0 then Prog.trap (.wild "buf[strlen(buf)-1]")
    else do
      Prog.update fun st => { st with mem := update st.mem (line.length - 1) space }
      lineArgs st.size 0 0
  else Prog.trap (.wild "*d++")

/-- The array and `argv` before a call. -/
def shell (array : ℕ → UInt8) (argv : ℕ → Option ℕ) : ArgState := ⟨array, maxLine, 0, argv, maxArgs⟩

/-! ## The arguments of a line -/

/-- The delimiter of the first argument of a line that starts with no space, and what is before it.
-/
def splitQuote (l : List UInt8) : UInt8 × List UInt8 :=
  if l.head? = some quote then (quote, l.tail) else (space, l)

/-- The arguments of a line: words that a space follows, and texts between quotes.  Behind a quote
without another there is none. -/
def shellArgs : (n : ℕ) → List UInt8 → List (List UInt8)
  | 0, _ => []
  | n + 1, l =>
    let (c, r) := splitQuote (l.dropWhile isSpace)
    if c ∈ r then (r.takeWhile fun x => !decide (x = c)) ::
    shellArgs n ((r.dropWhile fun x => !decide (x = c)).drop 1) else []

/-- Without quotes they are the words, if a space is behind the last one. -/
theorem shellArgs_eq_words {n : ℕ} {l : List UInt8} (hn : l.length < n) (hq : quote ∉ l)
    (hlast : ∀ x, l.getLast? = some x → x = space) : shellArgs n l = words isSpace l := by
  induction n generalizing l with
  | zero => omega
  | succ n ih =>
    have hr := List.dropWhile_suffix isSpace (l := l)
    have hhead : (l.dropWhile isSpace).head? ≠ some quote := fun h =>
        hq (hr.mem (List.mem_of_mem_head? h))
    have hend : ∀ {r : List UInt8}, r <:+ l → ∀ x, r.getLast? = some x → x = space := by
      rintro r ⟨t, rfl⟩ x hx
      exact hlast x (by rw [List.getLast?_append, hx]; rfl)
    rw [shellArgs, splitQuote, if_neg hhead]
    by_cases hl : l.dropWhile isSpace = []
    · rw [← words_dropWhile, hl]
      rfl
    · have hmem : space ∈ l.dropWhile isSpace := by
        have := hend hr _ (List.getLast?_eq_some_getLast hl)
        exact this ▸ List.getLast_mem hl
      have hrest : ((l.dropWhile isSpace).dropWhile fun x => !isSpace x).drop 1 <:+ l :=
        (List.drop_suffix 1 _).trans ((List.dropWhile_suffix _).trans hr)
      have hlen := (List.dropWhile_suffix (fun x => !isSpace x)
          (l := l.dropWhile isSpace)).length_le
      have hpos := List.length_pos_iff.mpr hl
      have := hr.length_le
      rw [words_step hl, ← ih (by rw [List.length_drop]; omega)
        (fun h => hq (hrest.mem h)) (hend hrest)]
      exact if_pos hmem

/-! ## The loops -/

variable {st : ArgState} {s buf left : ℕ} {l : List UInt8}

theorem skipSpaces_run (h : CStr st.mem s l) (hleft : l.length < left) :
    skipSpaces left s st = .ok (s + (l.takeWhile isSpace).length, st) := by
  induction l generalizing s left with
  | nil =>
    obtain ⟨left, rfl⟩ := Nat.exists_eq_add_of_lt hleft
    rw [skipSpaces, read_bind, if_neg fun hs => hs.1 h]
    rfl
  | cons x l ih =>
    obtain ⟨left, rfl⟩ := Nat.exists_eq_add_of_lt hleft
    obtain ⟨hx, hmem, h⟩ := h
    rw [skipSpaces, read_bind, hmem]
    by_cases hsp : x = space
    · rw [if_pos ⟨hx, hsp⟩, ih h (Nat.lt_of_succ_lt_succ hleft), List.takeWhile_cons_of_pos
        (by simp [isSpace, hsp]), List.length_cons, Nat.add_assoc, Nat.add_comm 1]
    · rw [if_neg fun hs => hsp hs.2]
      simp [isSpace, hsp]

/-- The search in the array is the search in the string that is there. -/
theorem strchrAt_run {c : UInt8} (h : CStr st.mem s l) (hleft : l.length < left) :
    strchrAt c left s st = .ok ((strchr l c).map (s + ·), st) := by
  induction l generalizing s left with
  | nil =>
    obtain ⟨left, rfl⟩ := Nat.exists_eq_add_of_lt hleft
    have h0 : st.mem s = 0 := h
    rw [strchrAt, read_bind, h0, strchr]
    by_cases hc : c = 0
    · rw [if_pos hc.symm, if_pos hc]
      rfl
    · rw [if_neg (Ne.symm hc), if_pos rfl, if_neg hc]
      rfl
  | cons x l ih =>
    obtain ⟨left, rfl⟩ := Nat.exists_eq_add_of_lt hleft
    obtain ⟨hx, hmem, h⟩ := h
    rw [strchrAt, read_bind, hmem, strchr]
    by_cases hxc : x = c
    · rw [if_pos hxc, if_pos hxc]
      rfl
    · rw [if_neg hxc, if_neg hx, if_neg hxc, ih h (Nat.lt_of_succ_lt_succ hleft), Option.map_map]
      simp only [Function.comp_def, Nat.add_assoc, Nat.add_comm 1]

theorem strchr_eq {c : UInt8} (hc : c ≠ 0) (l : List UInt8) :
    strchr l c = if c ∈ l then some (l.takeWhile fun x => !decide (x = c)).length else none := by
  induction l with
  | nil => simp [strchr, hc]
  | cons x l ih =>
    by_cases hx : x = c
    · simp [strchr, hx]
    · simp [strchr, hx, Ne.symm hx, ih, apply_ite (Option.map _)]

theorem nextArg_run (h : CStr st.mem buf l) (hfit : buf + l.length < st.size) {c : UInt8}
    {r : List UInt8} (hs : splitQuote (l.dropWhile isSpace) = (c, r)) :
    ∃ b, nextArg buf st = .ok ((b, if c ∈ r then
      some (b + (r.takeWhile fun x => !decide (x = c)).length)
        else none), st) ∧ CStr st.mem b r ∧ b + r.length = buf + l.length ∧ buf ≤ b := by
  have hlen := congrArg List.length (List.takeWhile_append_dropWhile (p := isSpace) (l := l))
  rw [List.length_append] at hlen
  have hd : CStr st.mem (buf + (l.takeWhile isSpace).length) (l.dropWhile isSpace) :=
    drop_length_takeWhile isSpace l ▸ h.drop (by omega)
  rw [nextArg, read_bind, bind_of_ok (skipSpaces_run h (by omega))]
  obtain ⟨b, hb, hr, hfits, hc⟩ : ∃ b, (if st.mem (buf + (l.takeWhile isSpace).length) = quote then
      (buf + (l.takeWhile isSpace).length + 1, quote) else
        (buf + (l.takeWhile isSpace).length, space)) = (b, c) ∧
      CStr st.mem b r ∧ (b + r.length = buf + l.length ∧ buf ≤ b) ∧ c ≠ 0 := by
    rw [splitQuote] at hs
    cases hx : l.dropWhile isSpace with
    | nil =>
      rw [hx] at hs hd hlen
      cases hs
      have h0 : st.mem (buf + (l.takeWhile isSpace).length) = 0 := hd
      rw [h0]
      exact ⟨_, rfl, hd, ⟨by rw [← hlen]; rfl, by omega⟩, by decide⟩
    | cons x d =>
      rw [hx, List.head?_cons, List.tail_cons] at hs
      rw [hx] at hd hlen
      rw [hd.2.1]
      by_cases hq : x = quote
      · rw [if_pos (congrArg some hq)] at hs
        cases hs
        rw [List.length_cons] at hlen
        exact ⟨_, if_pos hq, hd.2.2, by omega, by decide⟩
      · rw [if_neg fun h => hq (Option.some.inj h)] at hs
        cases hs
        exact ⟨_, if_neg hq, hd, by omega, by decide⟩
  rw [hb]
  dsimp only
  rw [bind_of_ok (strchrAt_run hr (by omega)), strchr_eq hc, apply_ite (Option.map _)]
  exact ⟨b, rfl, hr, hfits⟩

/-- The pointers of the arguments are in `argv`, and a `NULL` behind the last. -/
structure ArgsStored (args : List (List UInt8)) (st : ArgState) : Prop where
  argv : ∀ i w, args[i]? = some w → ∃ q, st.argv i = some q ∧ CStr st.mem q w
  last : st.argv args.length = none

/-- The loop stores all arguments, and is stopped exactly if there are no entries for them. -/
theorem wp_lineArgs {done : List (List UInt8)} {passes : ℕ} (h : CStr st.mem buf l)
    (hfit : buf + l.length < st.size) (hpasses : l.length < passes)
    (hargv : ∀ i w, done[i]? = some w → ∃ q, st.argv i = some q ∧ CStr st.mem q w ∧
    q + w.length < buf) : wp (lineArgs passes done.length buf)
      (fun _ st' => (done ++ shellArgs passes l).length < st.slots ∧
      ArgsStored (done ++ shellArgs passes l) st')
      (fun _ => st.slots ≤ (done ++ shellArgs passes l).length) st := by
  induction passes generalizing l buf done st with
  | zero => omega
  | succ passes ih =>
    rw [shellArgs]
    generalize hs : splitQuote (l.dropWhile isSpace) = p
    obtain ⟨c, r⟩ := p
    obtain ⟨b, hrun, hr, hbr, hle⟩ := nextArg_run h hfit hs
    rw [lineArgs, wp_bind]
    refine Prog.wp_of_ok hrun ?_
    dsimp only
    by_cases hc : c ∈ r
    · rw [if_pos hc, if_pos hc]
      have hne : (r.dropWhile fun x => !decide (x = c)) ≠ [] := by
        rw [Ne, List.dropWhile_eq_nil_iff]
        exact fun hall => by simpa using hall c hc
      obtain ⟨hword, hrest, hlen⟩ := hr.cut hne
      generalize (r.takeWhile fun x => !decide (x = c)) = w at *
      generalize (r.dropWhile fun x => !decide (x = c)).drop 1 = rest at *
      dsimp only
      rw [wp_bind]
      by_cases hslot : done.length < st.slots
      · refine Prog.wp_of_ok (storeArg_run (some b) hslot) ?_
        rw [wp_bind, Prog.wp_update]
        set st1 : ArgState := { st with
          argv := update st.argv done.length (some b)
          mem := update st.mem (b + w.length) 0 } with hst1
        have hnext := @ih st1 (b + w.length + 1) rest (done ++ [w]) hrest
            (by rw [hst1]; dsimp only; omega)
          (by omega) (argv_snoc hargv (fun q hq => update_of_ne (by omega) _ _)
            (by omega) hword (by omega))
        rw [List.length_append, List.append_assoc] at hnext
        exact hnext
      · rw [storeArg, wp_bind, Prog.wp_read, if_neg hslot]
        show st.slots ≤ _
        rw [List.length_append]
        omega
    · rw [if_neg hc, if_neg hc, List.append_nil]
      dsimp only
      by_cases hslot : done.length < st.slots
      · refine Prog.wp_of_ok (storeArg_run none hslot) ⟨hslot, fun i w hi => ?_, update_self ..⟩
        obtain ⟨q, hq, hstr, -⟩ := hargv i w hi
        have hi' : i < done.length := (List.getElem?_eq_some_iff.mp hi).1
        exact ⟨q, (update_of_ne hi'.ne _ _).trans hq, hstr⟩
      · rw [storeArg, wp_bind, Prog.wp_read, if_neg hslot]
        exact Nat.le_of_not_lt hslot

/-! ## Every line -/

theorem gets_length_le (n : ℕ) (input : List UInt8) : (gets n input).length ≤ n := by
  induction n generalizing input with
  | zero => exact Nat.le_refl 0
  | succ n ih =>
    cases input with
    | nil => exact Nat.zero_le _
    | cons c input =>
      rw [gets]
      split
      · exact Nat.succ_le_succ (Nat.zero_le n)
      · exact Nat.succ_le_succ (ih input)

theorem parseline_run {body : List UInt8} {x : UInt8} (h0 : 0 ∉ body)
    (hlen : (body ++ [x]).length < maxLine) (array : ℕ → UInt8) (argv : ℕ → Option ℕ) :
    ∃ mem, CStr mem 0 (body ++ [space]) ∧
      parseline (body ++ [x]) (shell array argv) = lineArgs maxLine 0 0
        ⟨mem, maxLine, 0, argv, maxArgs⟩ := by
  refine ⟨update (fun i => if i ≤ (body ++ [x]).length then (body ++ [x]).getD i 0 else array i)
    body.length space,
    (cstr_getD (by simpa using ⟨h0, by decide⟩)).frame fun q _ hq => ?_, ?_⟩
  · rw [Nat.zero_add, List.length_append, List.length_singleton] at hq
    by_cases hlast : q = body.length
    · rw [hlast, update_self]
      simp
    · rw [update_of_ne hlast, if_pos (by simpa using hq)]
      rcases Nat.lt_or_ge q body.length with hlt | hge
      · simp [List.getElem?_append, hlt]
      · obtain rfl : q = body.length + 1 := by omega
        simp
  · have hsize : (body ++ [x]).length < (shell array argv).size := hlen
    rw [parseline, read_bind, if_pos hsize, update_bind, if_neg (by simp), update_bind]
    simp [shell]

/-- For every line, `parseline` stays in its array and in `argv`, and stores the words of a line
without quotes, iff the line is not empty and has fewer than 64 arguments. -/
theorem parseline_iff (input : List UInt8) (array : ℕ → UInt8) (argv : ℕ → Option ℕ) :
    (∃ st, parseline (cmdline input) (shell array argv) = .ok ((), st) ∧
      ∀ body, cmdline input = body ++ [lineFeed] → quote ∉ body →
        ArgsStored (words isSpace body) st) ↔
    cmdline input ≠ [] ∧
      (shellArgs maxLine ((cmdline input).dropLast ++ [space])).length < maxArgs := by
  have hlen : (cmdline input).length < maxLine :=
    Nat.lt_of_le_of_lt ((List.takeWhile_sublist _).length_le.trans (gets_length_le _ input))
      (by decide)
  have h0 : 0 ∉ cmdline input := fun h => by simpa using List.mem_takeWhile_imp h
  rcases List.eq_nil_or_concat (cmdline input) with hnil | ⟨body, x, hline⟩
  · rw [hnil]
    refine iff_of_false ?_ fun h => h.1 rfl
    rintro ⟨st, hrun, -⟩
    cases hrun
  rw [List.concat_eq_append] at hline
  rw [hline] at hlen h0 ⊢
  obtain ⟨mem, hcopy, hrun⟩ := parseline_run (fun h => h0 (List.mem_append_left _ h))
      hlen array argv
  have hfit : (body ++ [space]).length < maxLine := by simpa using hlen
  have key := @wp_lineArgs ⟨mem, maxLine, 0, argv, maxArgs⟩ 0 _ [] maxLine hcopy
    (by rw [Nat.zero_add]; exact hfit) hfit (fun i w hi => by simp at hi)
  rw [List.nil_append, List.length_nil] at key
  rw [hrun, List.dropLast_concat]
  constructor
  · rintro ⟨st, hok, -⟩
    exact ⟨by simp, (Prog.wp_ok key hok).1⟩
  · rintro ⟨-, hcount⟩
    obtain ⟨_, st, hok, -, hargs⟩ := Prog.wp_returns
      (Prog.wp_mono key (fun _ _ h => h) fun _ h => Nat.not_le_of_lt hcount h)
    refine ⟨st, hok, fun body' hbody hq => ?_⟩
    obtain ⟨rfl, -⟩ := List.append_inj' hbody rfl
    rw [shellArgs_eq_words hfit (by simpa using ⟨hq, by decide⟩) (by simp),
      words_append rfl, words_nil,
      List.append_nil] at hargs
    exact hargs

/-- The line of 255 bytes `"a a ... a\n"` with 127 words. -/
def manyWords : List UInt8 := (List.replicate 127 [97, 32]).flatten ++ [lineFeed]

/-- End of file at once leaves an empty line, and 127 words do not fit. -/
theorem lines_outside : cmdline [] = [] ∧
    parseline (cmdline []) (shell (fun _ => 0) fun _ => none) =
      .error (.wild "buf[strlen(buf)-1]") ∧
    cmdline manyWords = manyWords ∧
    parseline (cmdline manyWords) (shell (fun _ => 0) fun _ => none) =
      .error (.wild "argv[argc]") :=
  ⟨rfl, rfl, by decide +kernel, Prog.run_of_trapOf (by decide +kernel)⟩

end Osv
