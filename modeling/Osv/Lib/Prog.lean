import Mathlib.Logic.Basic

/-!
# Programs that read and write a state and can trap

A *program* takes a state to a result with a new state, or stops with a trap.
It is the shape of every C function that works on global data and holds an
assertion: `return` is a result, a failed assertion or a panic is a trap, and a
trap ends the whole run.

`Prog.wp m Q E s` says what a run of `m` from `s` establishes.  A run that
returns `a` in `s'` satisfies `Q a s'`, and a run that traps with `e` satisfies
`E e`.  With `E` false nothing may trap, with `E` true the trap is ignored.
The rules push `wp` through the combinators, so that a proof about a program
follows its text, and `Prog.wp_mono` is how a caller uses what is known about a
callee without opening it.

`Prog.Keeps` is the frame rule of the development.  A program keeps a part of
the state when every run that returns leaves that part as it was.  `Prog.Preserves`
is the same for a property of the state.
-/

/-- A program over states `σ` with results in `α` and traps in `ε`. -/
def Prog (ε σ α : Type) : Type := σ → Except ε (α × σ)

namespace Prog

variable {ε σ τ α β : Type}

instance : Monad (Prog ε σ) where
  pure a := fun s => .ok (a, s)
  bind m f := fun s =>
    match m s with
    | .ok (a, s') => f a s'
    | .error e => .error e

/-- The current state. -/
def read : Prog ε σ σ := fun s => .ok (s, s)

/-- A value computed from the current state. -/
def reads (f : σ → α) : Prog ε σ α := fun s => .ok (f s, s)

/-- Change the state. -/
def update (f : σ → σ) : Prog ε σ Unit := fun s => .ok ((), f s)

/-- Stop with a trap. -/
def trap (e : ε) : Prog ε σ α := fun _ => .error e

/-- Go on only if `p` holds of the current state. -/
def check (p : σ → Bool) (e : ε) : Prog ε σ Unit := fun s =>
  if p s then .ok ((), s) else .error e

/-! ## Running a program -/

@[simp] theorem pure_run (a : α) (s : σ) : (pure a : Prog ε σ α) s = .ok (a, s) := rfl

theorem bind_run (m : Prog ε σ α) (f : α → Prog ε σ β) (s : σ) : (m >>= f) s = match m s with
      | .ok (a, s') => f a s'
      | .error e => .error e := rfl

@[simp] theorem read_run (s : σ) : (read : Prog ε σ σ) s = .ok (s, s) := rfl

@[simp] theorem reads_run (f : σ → α) (s : σ) : (reads f : Prog ε σ α) s = .ok (f s, s) := rfl

@[simp] theorem update_run (f : σ → σ) (s : σ) : (update f : Prog ε σ Unit) s = .ok ((), f s) := rfl

theorem check_run (p : σ → Bool) (e : ε) (s : σ) : (check p e : Prog ε σ Unit)
    s = if p s then .ok ((), s) else .error e := rfl

variable {m : Prog ε σ α} {s : σ} {f : α → Prog ε σ β}

/-- A sequence returns exactly when its first part returns and the rest returns from there. -/
theorem bind_ok {s'' : σ} {b : β} : (m >>= f)
    s = .ok (b, s'') ↔ ∃ a s', m s = .ok (a, s') ∧ f a s' = .ok (b, s'') := by
  rw [bind_run]
  constructor
  · intro h
    cases hm : m s with
    | error e => rw [hm] at h; cases h
    | ok r =>
      obtain ⟨a, s'⟩ := r
      rw [hm] at h
      exact ⟨a, s', rfl, h⟩
  · rintro ⟨a, s', hm, hf⟩
    rw [hm]
    exact hf

variable {a : α}

/-- A sequence whose first part returns is the rest, run from there. -/
theorem bind_of_ok {s' : σ} (h : m s = .ok (a, s')) : (m >>= f) s = f a s' := by
  rw [bind_run, h]

/-- What a run returns, if it returns. -/
def result (m : Prog ε σ α) (s : σ) : Option α :=
  match m s with
  | .ok r => some r.1
  | .error _ => none

/-- The state a run leaves, or the state it started in when it traps. -/
def final (m : Prog ε σ α) (s : σ) : σ :=
  match m s with
  | .ok r => r.2
  | .error _ => s

theorem run_of_result (h : m.result s = some a) : m s = .ok (a, m.final s) := by
  unfold result at h
  unfold final
  cases hm : m s with
  | error e => rw [hm] at h; cases h
  | ok r => rw [hm] at h; cases h; rfl

/-- How a run traps, if it traps. -/
def trapOf (m : Prog ε σ α) (s : σ) : Option ε :=
  match m s with
  | .ok _ => none
  | .error e => some e

variable {e : ε}

theorem run_of_trapOf (h : m.trapOf s = some e) : m s = .error e := by
  unfold trapOf at h
  cases hm : m s with
  | ok r => rw [hm] at h; cases h
  | error e' => rw [hm] at h; cases h; rfl

theorem read_bind (f : σ → Prog ε σ β) (s : σ) : (read >>= f) s = f s s := rfl

theorem reads_bind (g : σ → α) (f : α → Prog ε σ β) (s : σ) : (reads g >>= f) s = f (g s) s := rfl

theorem update_bind (g : σ → σ) (f : Unit → Prog ε σ β) (s : σ) : (update g >>= f) s = f () (g s) :=
  rfl

/-- The run goes on from the new state, which has a name of its own. -/
theorem update_bind_ok {g : σ → σ} {f : Unit → Prog ε σ β} {r : β × σ} : (update g >>= f)
    s = .ok r ↔ ∃ t, t = g s ∧ f () t = .ok r := by
  rw [update_bind]
  exact ⟨fun h => ⟨g s, rfl, h⟩, fun ⟨_, ht, h⟩ => ht ▸ h⟩

variable {p : σ → Bool}

theorem check_bind_ok {f : Unit → Prog ε σ β} {r : β × σ} : (check p e >>= f)
    s = .ok r ↔ p s = true ∧ f () s = .ok r := by
  rw [bind_run, check_run]
  cases p s <;> simp

/-! ## Part of a state, and lists of calls -/

/-- Run a program on a part of the state. -/
def zoom (get : τ → σ) (set : τ → σ → τ) (m : Prog ε σ α) : Prog ε τ α := fun t =>
  match m (get t) with
  | .ok (a, s) => .ok (a, set t s)
  | .error e => .error e

variable {set : τ → σ → τ} {get : τ → σ}

theorem zoom_of_ok {t : τ} (h : m (get t) = .ok (a, s)) : zoom get set m t = .ok (a, set t s) := by
  unfold zoom
  rw [h]

theorem zoom_ok {t t' : τ} : zoom get set m t = .ok (a, t') ↔ ∃ s,
    m (get t) = .ok (a, s) ∧ t' = set t s := by
  unfold zoom
  constructor
  · intro h
    cases hm : m (get t) with
    | error e => rw [hm] at h; cases h
    | ok r => rw [hm] at h; cases h; exact ⟨r.2, rfl, rfl⟩
  · rintro ⟨s, hm, rfl⟩
    rw [hm]

/-- Make a call for each element of a list, from the left. -/
def forEach (l : List α) (f : α → Prog ε σ Unit) : Prog ε σ Unit :=
  match l with
  | [] => pure ()
  | a :: rest => do
    f a
    forEach rest f

@[simp] theorem forEach_nil (f : α → Prog ε σ Unit) (s : σ) : forEach [] f s = .ok ((), s) := rfl

theorem forEach_cons (a : α) (l : List α) (f : α → Prog ε σ Unit) :
    forEach (a :: l) f = (f a >>= fun _ => forEach l f) := rfl

theorem forEach_singleton (a : α) (f : α → Prog ε σ Unit) (s : σ) : forEach [a] f s = f a s := by
  rw [forEach_cons, bind_run]
  cases f a s with
  | error e | ok r => rfl

theorem forEach_append (l l' : List α) (f : α → Prog ε σ Unit) (s : σ) :
    forEach (l ++ l') f s = (forEach l f >>= fun _ => forEach l' f) s := by
  induction l generalizing s with
  | nil => rfl
  | cons a l ih =>
    rw [List.cons_append, forEach_cons, forEach_cons, bind_run, bind_run, bind_run]
    cases f a s with
    | error e => rfl
    | ok r => exact ih r.2

variable {P : σ → Prop}

/-- What every call keeps, the list of calls keeps. -/
theorem forEach_inv {f : α → Prog ε σ Unit} {l : List α}
    (hf : ∀ a ∈ l, ∀ s u s', P s → f a s = .ok (u, s') → P s') :
    ∀ {s s' : σ} {u : Unit}, P s → forEach l f s = .ok (u, s') → P s' := by
  induction l with
  | nil => intro s s' u hs h; cases h; exact hs
  | cons a l ih =>
    intro s s' u hs h
    rw [forEach_cons] at h
    obtain ⟨v, s1, h1, h2⟩ := bind_ok.mp h
    exact ih (fun b hb => hf b (List.mem_cons_of_mem _ hb)) (hf a List.mem_cons_self s v s1 hs h1)
      h2

theorem forEach_map (g : β → α) (l : List β) (f : α → Prog ε σ Unit) :
    forEach (l.map g) f = forEach l fun b => f (g b) := by
  induction l with
  | nil => rfl
  | cons b l ih => rw [List.map_cons, forEach_cons, forEach_cons, ih]

theorem forEach_flatMap (g : β → List α) (l : List β) (f : α → Prog ε σ Unit) (s : σ) :
    forEach (l.flatMap g) f s = forEach l (fun b => forEach (g b) f) s := by
  induction l generalizing s with
  | nil => rfl
  | cons b l ih =>
    rw [List.flatMap_cons, forEach_append, forEach_cons, bind_run, bind_run]
    cases forEach (g b) f s with
    | error e => rfl
    | ok r => exact ih r.2

/-- Two lists of calls agree when the calls agree on the states that they keep. -/
theorem forEach_congr {f g : α → Prog ε σ Unit} {l : List α}
    (hfg : ∀ a ∈ l, ∀ s, P s → f a s = g a s)
    (hg : ∀ a ∈ l, ∀ s u s', P s → g a s = .ok (u, s') → P s') :
    ∀ {s : σ}, P s → forEach l f s = forEach l g s := by
  induction l with
  | nil => intro s _; rfl
  | cons a l ih =>
    intro s hs
    rw [forEach_cons, forEach_cons, bind_run, bind_run, hfg a List.mem_cons_self s hs]
    cases hr : g a s with
    | error e => rfl
    | ok r =>
      exact ih (fun b hb => hfg b (List.mem_cons_of_mem _ hb))
        (fun b hb => hg b (List.mem_cons_of_mem _ hb)) (hg a List.mem_cons_self s _ _ hs hr)

/-! ## What a run establishes -/

/-- Every outcome of running `m` from `s`: `Q` of a result, `E` of a trap. -/
def wp (m : Prog ε σ α) (Q : α → σ → Prop) (E : ε → Prop) (s : σ) : Prop :=
  match m s with
  | .ok (a, s') => Q a s'
  | .error e => E e

variable {E : ε → Prop} {Q : α → σ → Prop}

@[simp] theorem wp_pure : wp (pure a : Prog ε σ α) Q E s ↔ Q a s := Iff.rfl

@[simp] theorem wp_read {Q : σ → σ → Prop} : wp (read : Prog ε σ σ) Q E s ↔ Q s s := Iff.rfl

theorem wp_zoom {Q : α → τ → Prop} {t : τ} :
    wp (zoom get set m) Q E t ↔ wp m (fun a s => Q a (set t s)) E (get t) := by
  unfold wp zoom
  cases m (get t) with
  | error e | ok r => exact Iff.rfl

@[simp] theorem wp_update {f : σ → σ} {Q : Unit → σ → Prop} :
    wp (update f : Prog ε σ Unit) Q E s ↔ Q () (f s) := Iff.rfl

@[simp] theorem wp_check {Q : Unit → σ → Prop} :
    wp (check p e : Prog ε σ Unit) Q E s ↔ (p s = true → Q () s) ∧ (p s = false → E e) := by
  unfold wp check
  cases h : p s <;> simp

@[simp] theorem wp_bind {Q : β → σ → Prop} :
    wp (m >>= f) Q E s ↔ wp m (fun a s' => wp (f a) Q E s') E s := by
  unfold wp
  rw [bind_run]
  cases m s with
  | error e | ok r => exact Iff.rfl

theorem wp_mono {Q' : α → σ → Prop} {E' : ε → Prop} (h : wp m Q E s) (hQ : ∀ a s', Q a s' → Q' a s')
    (hE : ∀ e, E e → E' e) : wp m Q' E' s := by
  unfold wp at h ⊢
  cases hm : m s with
  | error e => rw [hm] at h; exact hE e h
  | ok r => rw [hm] at h; exact hQ r.1 r.2 h

/-- A run that cannot trap returns, with the result `Q` speaks of. -/
theorem wp_returns (h : wp m Q (fun _ => False) s) : ∃ a s', m s = .ok (a, s') ∧ Q a s' := by
  unfold wp at h
  cases hm : m s with
  | error e => rw [hm] at h; exact h.elim
  | ok r => rw [hm] at h; exact ⟨r.1, r.2, rfl, h⟩

theorem wp_traps (h : wp m (fun _ _ => False) (· = e) s) : m s = .error e := by
  unfold wp at h
  cases hm : m s with
  | ok r => rw [hm] at h; exact h.elim
  | error e' => rw [hm] at h; exact congrArg _ h

theorem wp_ok {s' : σ} (h : wp m Q E s) (hm : m s = .ok (a, s')) : Q a s' := by
  unfold wp at h
  rw [hm] at h
  exact h

theorem wp_of_ok {s' : σ} (hm : m s = .ok (a, s')) (h : Q a s') : wp m Q E s := by
  unfold wp
  rw [hm]
  exact h

/-- To know every outcome it is enough to know every run. -/
theorem wp_of_runs (hQ : ∀ a s', m s = .ok (a, s') → Q a s') (hE : ∀ e, m s = .error e → E e) :
    wp m Q E s := by
  unfold wp
  cases hm : m s with
  | error e => exact hE e hm
  | ok r => exact hQ r.1 r.2 hm

/-- A loop over the numbers below `n`, where what holds before a round says how many have been made.
-/
theorem forEach_range {P : Nat → σ → Prop} {f : Nat → Prog ε σ Unit} {n : Nat}
    (hf : ∀ i < n, ∀ s, P i s → ∃ s', f i s = .ok ((), s') ∧ P (i + 1) s') (hs : P 0 s) :
    ∃ s', forEach (List.range n) f s = .ok ((), s') ∧ P n s' := by
  induction n with
  | zero => exact ⟨s, rfl, hs⟩
  | succ n ih =>
    obtain ⟨s1, h1, hP1⟩ := ih fun i hi => hf i (Nat.lt_succ_of_lt hi)
    obtain ⟨s2, h2, hP2⟩ := hf n (Nat.lt_succ_self n) s1 hP1
    refine ⟨s2, ?_, hP2⟩
    rw [List.range_succ, forEach_append, bind_of_ok h1, forEach_cons, bind_of_ok h2, forEach_nil]

/-! ## What a program preserves -/

/-- Every run that returns leads from a state with `P` to one with `P`. -/
def Preserves (P : σ → Prop) (m : Prog ε σ α) : Prop :=
  ∀ s a s', P s → m s = .ok (a, s') → P s'

theorem preserves_reads (f : σ → α) : Preserves P (reads f : Prog ε σ α) := by
  intro s a' s' hs h
  cases h
  exact hs

theorem preserves_read : Preserves P (read : Prog ε σ σ) := preserves_reads _

theorem preserves_pure (a : α) : Preserves P (pure a : Prog ε σ α) :=
  preserves_reads fun _ => a

theorem preserves_update {f : σ → σ} (hf : ∀ s, P s → P (f s)) :
    Preserves P (update f : Prog ε σ Unit) := by
  intro s a' s' hs h
  cases h
  exact hf s hs

theorem preserves_bind (hm : Preserves P m) (hf : ∀ a, Preserves P (f a)) :
    Preserves P (m >>= f) := by
  intro s b s'' hs h
  obtain ⟨a, s', h1, h2⟩ := bind_ok.mp h
  exact hf a s' b s'' (hm s a s' hs h1) h2

variable {n : Prog ε σ α}

theorem preserves_ite {p : Prop} [Decidable p] (hm : Preserves P m) (hn : Preserves P n) :
    Preserves P (if p then m else n) := by
  split
  · exact hm
  · exact hn

/-! ## Programs that return -/

/-- From every state with `P` the program returns, in a state with `P`. -/
def Total (P : σ → Prop) (m : Prog ε σ α) : Prop :=
  ∀ s, P s → ∃ a s', m s = .ok (a, s') ∧ P s'

theorem total_reads (f : σ → α) : Total P (reads f : Prog ε σ α) :=
  fun s hs => ⟨f s, s, rfl, hs⟩

theorem total_read : Total P (read : Prog ε σ σ) := total_reads _

theorem total_pure (a : α) : Total P (pure a : Prog ε σ α) := total_reads fun _ => a

theorem total_update {f : σ → σ} (hf : ∀ s, P s → P (f s)) : Total P (update f : Prog ε σ Unit) :=
  fun s hs => ⟨(), f s, rfl, hf s hs⟩

theorem total_bind (hm : Total P m) (hf : ∀ a, Total P (f a)) : Total P (m >>= f) := by
  intro s hs
  obtain ⟨a, s1, h1, hs1⟩ := hm s hs
  obtain ⟨b, s2, h2, hs2⟩ := hf a s1 hs1
  exact ⟨b, s2, by rw [bind_of_ok h1, h2], hs2⟩

theorem total_ite {p : Prop} [Decidable p] (hm : Total P m) (hn : Total P n) :
    Total P (if p then m else n) := by
  split
  · exact hm
  · exact hn

theorem total_check (h : ∀ s, P s → p s = true) : Total P (check p e : Prog ε σ Unit) := by
  intro s hs
  exact ⟨(), s, by rw [check_run, if_pos (h s hs)], hs⟩

theorem total_zoom (hset : ∀ t s, get (set t s) = s) (hm : Total P m) :
    Total (fun t => P (get t)) (zoom get set m) := by
  intro t ht
  obtain ⟨a, s, h, hs⟩ := hm (get t) ht
  exact ⟨a, set t s, zoom_of_ok h, show P (get (set t s)) by rwa [hset]⟩

/-! ## What a program leaves alone -/

/-- Every run that returns leaves the part `π` of the state as it was. -/
def Keeps (π : σ → τ) (m : Prog ε σ α) : Prop :=
  ∀ s a s', m s = .ok (a, s') → π s' = π s

variable {π : σ → τ}

theorem Keeps.map {ρ : Type} {m : Prog ε σ α} (h : Keeps π m) (f : τ → ρ) :
    Keeps (fun s => f (π s)) m :=
  fun s a s' hm => congrArg f (h s a s' hm)

theorem keeps_pure (a : α) : Keeps π (pure a : Prog ε σ α) := by
  intro s a' s' h
  cases h
  rfl

theorem keeps_reads (f : σ → α) : Keeps π (reads f : Prog ε σ α) := by
  intro s a' s' h
  cases h
  rfl

theorem keeps_read : Keeps π (read : Prog ε σ σ) := keeps_reads _

theorem keeps_trap (e : ε) : Keeps π (trap e : Prog ε σ α) := by
  intro s a' s' h
  cases h

theorem keeps_check (p : σ → Bool) (e : ε) : Keeps π (check p e : Prog ε σ Unit) := by
  intro s a' s' h
  rw [check_run] at h
  split at h
  · cases h; rfl
  · cases h

theorem keeps_update {f : σ → σ} (h : ∀ s, π (f s) = π s) : Keeps π (update f : Prog ε σ Unit) := by
  intro s a' s' hs
  cases hs
  exact h s

theorem Keeps.preserves (hm : Keeps π m) {P : τ → Prop} : Preserves (fun s => P (π s)) m := by
  intro s a s' hs h
  rw [hm s a s' h]
  exact hs

theorem preserves_check (p : σ → Bool) (e : ε) : Preserves P (check p e : Prog ε σ Unit) :=
  (keeps_check p e).preserves (π := id) (P := P)

theorem keeps_bind (hm : Keeps π m) (hf : ∀ a, Keeps π (f a)) : Keeps π (m >>= f) := by
  intro s b s'' h
  obtain ⟨a, s', h1, h2⟩ := bind_ok.mp h
  exact (hf a s' b s'' h2).trans (hm s a s' h1)

theorem keeps_ite {p : Prop} [Decidable p] (hm : Keeps π m) (hn : Keeps π n) :
    Keeps π (if p then m else n) := by
  split
  · exact hm
  · exact hn

/-- What a program keeps can be used of its outcome. -/
theorem Keeps.wp_intro (hk : Keeps π m) (h : wp m (fun a s' => π s' = π s → Q a s') E s) :
    wp m Q E s :=
  wp_of_runs (fun a s' hm => wp_ok h hm (hk s a s' hm)) fun e hm => by
    unfold wp at h
    rw [hm] at h
    exact h

end Prog
