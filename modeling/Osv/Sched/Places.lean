import Osv.Sched.Basic
import Mathlib.Data.List.Nodup

/-!
# Where threads are

Abstractly, the scheduler is a map that gives each thread a place, and a step moves a
thread or two.  `Located` says that the state of the scheduler is such a map: the
queues, the lists and the CPUs hold a thread exactly where the map has it.  So a
thread cannot be in two places, and a started thread has one.

A thread that goes to sleep gives up its CPU in several steps.  From the moment
it is on the waiter list, that list is its place, and a CPU that takes it off the list
before the switch has to wait for `sched_lock` until the switch is over.
-/

namespace Osv

open Function (update update_self update_of_ne update_idem)

/-- A place of a thread. -/
inductive Place (κ : Type) where
  /-- Current on the CPU, and not on its way to sleep. -/
  | cpu (c : κ)
  | ready
  /-- On the waiter list. -/
  | waiting (cv : Cv)
  /-- Taken off a waiter list by the CPU, which has not made it ready yet. -/
  | waker (c : κ)
  | zombie

namespace Sched

section Facts

variable {κ : Type}

/-- The thread is at the place. -/
def At (s : Sched κ) (t : Tid) : Place κ → Prop
  | .cpu c => s.current c = t ∧ (s.act c).on = true
  | .ready => t ∈ s.readyQueue
  | .waiting cv => t ∈ s.waiters cv
  | .waker c => ∃ loop, s.act c = .waking t loop
  | .zombie => t ∈ s.started ∧ s.state t = .zombie

/-- The condition variable whose lock the current thread holds, by where its code is. -/
def lockOf : Act → Option Cv
  | .queued cv => some cv
  | .waking _ loop => loop
  | .broadcasting cv => some cv
  | .run | .switching => none

/-- The state is the map, and what keeps it so. -/
structure Located (M : Machine κ) (s : Sched κ) (f : Tid → Option (Place κ)) : Prop where
  at_iff : ∀ t p, s.At t p ↔ f t = some p
  idle : ∀ c p, f (M.idle c) = some p → p = .cpu c
  started : ∀ t p, f t = some p → t ∈ s.started ∨ ∃ c, t = M.idle c
  not_idle : ∀ t ∈ s.started, ∀ c, t ≠ M.idle c
  nodup_ready : s.readyQueue.Nodup
  nodup_waiters : ∀ cv, (s.waiters cv).Nodup
  ready : ∀ t ∈ s.readyQueue, s.state t = .ready
  waiting : ∀ cv, ∀ t ∈ s.waiters cv,
    s.state t = .sleeping ∨ ∃ c, s.current c = t ∧ s.act c = .queued cv
  queued : ∀ c cv, s.act c = .queued cv → s.current c ∈ s.waiters cv
  held : ∀ c cv, lockOf (s.act c) = some cv → s.holder (M.guard cv) = some (s.current c)
  switching : ∀ c, s.act c = .switching → s.schedLock = some c
  current_inj : Function.Injective s.current
  idle_current : ∀ c c', s.current c' = M.idle c → c' = c
  duty : ∀ d ∈ s.duty, d.2 ∈ s.started ∧ s.state d.2 = .zombie

theorem nodup_snoc {l : List Tid} {t : Tid} (h : l.Nodup) (ht : t ∉ l) : (l ++ [t]).Nodup := by
  rw [← List.concat_eq_append]
  exact List.Nodup.concat ht h

theorem at_move {s s' : Sched κ} {f : Tid → Option (Place κ)} {t : Tid} {o : Option (Place κ)}
    (h : ∀ u p, s.At u p ↔ f u = some p) (hother : ∀ u, u ≠ t → ∀ p, s'.At u p ↔ s.At u p)
    (ht : ∀ p, s'.At t p ↔ o = some p) (u : Tid) (p : Place κ) :
    s'.At u p ↔ update f t o u = some p := by
  by_cases hu : u = t
  · subst hu
    rw [ht, update_self]
  · rw [hother u hu, h, update_of_ne hu]

namespace Located

variable {M : Machine κ} {s : Sched κ} {f : Tid → Option (Place κ)} {c : κ} {t : Tid}

/-! ## Facts -/

section

variable (I : Located M s f)

include I

theorem place_eq {p q : Place κ} (hp : s.At t p) (hq : s.At t q) : p = q := by
  rw [I.at_iff] at hp hq
  exact Option.some.inj (hp.symm.trans hq)

theorem elsewhere {p q : Place κ} (hp : s.At t p) (hne : p ≠ q) : ¬ s.At t q :=
  fun hq => hne (I.place_eq hp hq)

theorem at_current (hon : (s.act c).on = true) : f (s.current c) = some (.cpu c) :=
  (I.at_iff _ (.cpu c)).mp ⟨rfl, hon⟩

theorem held_inj {c' : κ} {cv cv' : Cv} (h : s.holder (M.guard cv) = some (s.current c))
    (h' : lockOf (s.act c') = some cv') (hg : M.guard cv' = M.guard cv) : c' = c := by
  have hc := I.held c' cv' h'
  rw [hg, h] at hc
  exact I.current_inj (Option.some.inj hc).symm

theorem no_switching (h : s.schedLock = none) (c : κ) : s.act c ≠ .switching := by
  intro hc
  rw [I.switching c hc] at h
  cases h

theorem not_current {p : Place κ} (hp : s.At t p) (hcpu : ∀ c, p ≠ .cpu c)
    (hwait : ∀ cv, p ≠ .waiting cv) (hact : s.act c ≠ .switching) : s.current c ≠ t := by
  rintro rfl
  cases h : s.act c with
  | run | waking _ _ | broadcasting _ => exact hcpu c (I.place_eq hp ⟨rfl, by rw [h]; rfl⟩)
  | queued cv => exact hwait cv (I.place_eq hp (I.queued c cv h))
  | switching => exact hact h

theorem mem_started {p : Place κ} (hp : s.At t p) (hcpu : ∀ c, p ≠ .cpu c) : t ∈ s.started := by
  rw [I.at_iff] at hp
  rcases I.started t p hp with h | ⟨c, rfl⟩
  · exact h
  · exact absurd (I.idle c p hp) (hcpu c)

theorem current_started (hon : (s.act c).on = true) (hidle : s.current c ≠ M.idle c) :
    s.current c ∈ s.started := by
  rcases I.started _ _ (I.at_current hon) with h | ⟨d, hd⟩
  · exact h
  · exact absurd (I.idle_current d c hd ▸ hd) hidle

theorem setHolder {l : Lock} (o : Option Tid)
    (h : ∀ c cv, lockOf (s.act c) = some cv → M.guard cv ≠ l) :
    Located M { s with holder := update s.holder l o } f :=
  { I with held := fun c cv hc => (update_of_ne (h c cv hc) _ _).trans (I.held c cv hc) }

theorem start (hnew : t ∉ s.started) (hidle : ∀ c, t ≠ M.idle c) :
    Located M { s.schedReady t with started := t :: s.started, fresh := t :: s.fresh }
      (update f t (some .ready)) := by
  have hnone : ∀ p, ¬ s.At t p := by
    intro p hp
    rw [I.at_iff] at hp
    rcases I.started t p hp with h | ⟨c, rfl⟩
    · exact hnew h
    · exact hidle c rfl
  have hnotready : t ∉ s.readyQueue := hnone .ready
  have hnotwait : ∀ cv, t ∉ s.waiters cv := fun cv => hnone (.waiting cv)
  rw [schedReady]
  refine { I with
    at_iff := at_move I.at_iff (fun u hu p => ?_) fun p => ?_
    idle := fun c p h => ?_
    started := fun u p h => ?_
    not_idle := fun u hu c => ?_
    nodup_ready := nodup_snoc I.nodup_ready hnotready
    ready := fun u hu => ?_
    waiting := fun cv u hu => ?_
    duty := fun d hd => ?_ }
  · cases p <;> simp only [At] <;> grind
  · have := hnone p
    cases p <;> simp only [At] at this ⊢ <;> grind
  · grind [I.idle c p]
  · grind [I.started u p]
  · grind [I.not_idle u]
  · grind [I.ready u]
  · grind [I.waiting cv u hu]
  · grind [I.duty d hd]

theorem pop {next : Tid} {rest : List Tid} (hq : s.readyQueue = next :: rest) :
    Located M { s with readyQueue := rest } (update f next none) := by
  have hready : s.At next .ready := by
    rw [At, hq]
    exact List.mem_cons_self
  have hnodup := I.nodup_ready
  rw [hq, List.nodup_cons] at hnodup
  have hstarted := I.mem_started hready (fun c => by simp)
  refine { I with
    at_iff := at_move I.at_iff (fun u hu p => ?_) fun p => ?_
    idle := fun c p h => ?_
    started := fun u p h => ?_
    nodup_ready := hnodup.2
    ready := fun u hu => I.ready u (hq ▸ List.mem_cons_of_mem next hu) }
  · cases p <;> simp only [At]
    grind
  · have := fun h => I.elsewhere (q := p) hready h
    cases p <;> simp only [At] at this ⊢ <;> grind
  · grind [I.idle c p, I.not_idle next hstarted c]
  · grind [I.started u p]

end

end Located

end Facts

/-! ## Steps -/

variable {loop : Option Cv} {cv : Cv}

namespace Located

variable {κ : Type} [DecidableEq κ] {M : Machine κ} {s : Sched κ}
    {f : Tid → Option (Place κ)} {c : κ}
  {t : Tid}
variable (I : Located M s f)

include I

theorem wait (hact : s.act c = .run) (hidle : s.current c ≠ M.idle c)
    (hheld : s.holder (M.guard cv) = some (s.current c)) :
    Located M ({ s with waiters := update s.waiters cv (s.waiters cv ++ [s.current c]) }.setAct
      c (.queued cv)) (update f (s.current c) (some (.waiting cv))) := by
  have hon : (s.act c).on = true := by rw [hact]; rfl
  have hcpu : s.At (s.current c) (.cpu c) := ⟨rfl, hon⟩
  have helse : ∀ q, Place.cpu c ≠ q → ¬ s.At (s.current c) q := fun q => I.elsewhere hcpu
  have hnotin : ∀ cv', s.current c ∉ s.waiters cv' := fun cv' => helse (.waiting cv') (by simp)
  have hstarted := I.current_started hon hidle
  rw [Sched.setAct]
  refine { I with
    at_iff := at_move I.at_iff (fun u hu p => ?_) fun p => ?_
    idle := fun d p h => ?_
    started := fun u p h => ?_
    nodup_waiters := fun cv' => ?_
    waiting := fun cv' u hu => ?_
    queued := fun d cv' hd => ?_
    held := fun d cv' hd => ?_
    switching := fun d hd => ?_ }
  · cases p <;> simp only [At] <;> grind [Act.on]
  · have := helse p
    cases p <;> simp only [At] at this ⊢ <;> grind [Act.on, I.current_inj.eq_iff]
  · grind [I.idle d p, I.idle_current d c]
  · grind [I.started u p]
  · grind [I.nodup_waiters cv', nodup_snoc (I.nodup_waiters cv) (hnotin cv)]
  · grind [I.waiting cv' u]
  · grind [I.queued d cv']
  · grind [I.held d cv', lockOf]
  · grind [I.switching d]

theorem setAct {a : Act} (hon : (s.act c).on = true) (ha : a.on = true)
    (hnot : ∀ t loop, s.act c ≠ .waking t loop) (hnot' : ∀ t loop, a ≠ .waking t loop)
    (hheld : ∀ cv, lockOf a = some cv → s.holder (M.guard cv) = some (s.current c)) :
    Located M (s.setAct c a) f := by
  rw [Sched.setAct]
  refine { I with
    at_iff := fun u p => Iff.trans ?_ (I.at_iff u p)
    waiting := fun cv u hu => ?_
    queued := fun d cv hd => ?_
    held := fun d cv hd => ?_
    switching := fun d hd => ?_ }
  · cases p <;> simp only [At] <;> grind
  · grind [I.waiting cv u hu, Act.on]
  · grind [I.queued d cv, Act.on]
  · grind [I.held d cv]
  · grind [I.switching d, Act.on]

theorem wakeFirst {rest : List Tid} (hw : s.waiters cv = t :: rest) (hon : (s.act c).on = true)
    (hnot : ∀ t loop, s.act c ≠ .waking t loop) (hheld : s.holder (M.guard cv) = some (s.current c))
    (hloop : loop = none ∨ loop = some cv) :
    Located M ({ s with waiters := update s.waiters cv rest }.setAct c (.waking t loop))
      (update f t (some (.waker c))) := by
  have hwait : s.At t (.waiting cv) := by
    rw [At, hw]
    exact List.mem_cons_self
  have helse : ∀ q, Place.waiting cv ≠ q → ¬ s.At t q := fun q => I.elsewhere hwait
  have hnodup := I.nodup_waiters cv
  rw [hw, List.nodup_cons] at hnodup
  have hstarted := I.mem_started hwait (fun c => by simp)
  -- the list belongs to this CPU, so nobody on it is on its way to sleep
  have hqueued : ∀ d, d ≠ c → s.act d ≠ .queued cv := by
    intro d hd h
    exact hd (I.held_inj hheld (by rw [h]; rfl) rfl)
  rw [Sched.setAct]
  refine { I with
    at_iff := at_move I.at_iff (fun u hu p => ?_) fun p => ?_
    idle := fun d p h => ?_
    started := fun u p h => ?_
    nodup_waiters := fun cv' => ?_
    waiting := fun cv' u hu => ?_
    queued := fun d cv' hd => ?_
    held := fun d cv' hd => ?_
    switching := fun d hd => ?_ }
  · cases p <;> simp only [At] <;> grind [Act.on]
  · have := helse p
    have hself := update_self c (Act.waking t loop) s.act
    cases p <;> simp only [At] at this ⊢ <;> grind [Act.on]
  · grind [I.idle d p, I.not_idle t hstarted d]
  · grind [I.started u p]
  · grind [I.nodup_waiters cv']
  · grind [I.waiting cv' u, Act.on]
  · grind [I.queued d cv', Act.on]
  · grind [I.held d cv', lockOf]
  · grind [I.switching d]

theorem ready_woken (hact : s.act c = .waking t loop) :
    Located M ((s.schedReady t).setAct c (loop.elim .run .broadcasting))
      (update f t (some .ready)) := by
  have hwaker : s.At t (.waker c) := ⟨loop, hact⟩
  have helse : ∀ q, Place.waker c ≠ q → ¬ s.At t q := fun q => I.elsewhere hwaker
  have hnotin : t ∉ s.readyQueue := helse .ready (by simp)
  have hnotwait : ∀ cv, t ∉ s.waiters cv := fun cv => helse (.waiting cv) (by simp)
  have hzombie : ¬ (t ∈ s.started ∧ s.state t = .zombie) := helse .zombie (by simp)
  have hstarted := I.mem_started hwaker (fun c => by simp)
  have hon : (s.act c).on = true := by rw [hact]; rfl
  have ha : (loop.elim Act.run .broadcasting).on = true := by cases loop <;> rfl
  have hnot : ∀ u l, loop.elim Act.run .broadcasting ≠ .waking u l := by cases loop <;> simp
  have hlock : lockOf (loop.elim Act.run .broadcasting) = lockOf (s.act c) := by
      rw [hact]; cases loop <;> rfl
  rw [Sched.setAct, schedReady]
  refine { I with
    at_iff := at_move I.at_iff (fun u hu p => ?_) fun p => ?_
    idle := fun d p h => ?_
    started := fun u p h => ?_
    nodup_ready := nodup_snoc I.nodup_ready hnotin
    ready := fun u hu => ?_
    waiting := fun cv u hu => ?_
    queued := fun d cv hd => ?_
    held := fun d cv hd => ?_
    switching := fun d hd => ?_
    duty := fun d hd => ?_ }
  · cases p <;> simp only [At] <;> grind
  · have := helse p
    cases p <;> simp only [At] at this ⊢ <;> grind [Place.waker.injEq]
  · grind [I.idle d p, I.not_idle t hstarted d]
  · grind [I.started u p]
  · grind [I.ready u]
  · grind [I.waiting cv u hu]
  · grind [I.queued d cv, Act.on]
  · grind [I.held d cv]
  · grind [I.switching d, Act.on]
  · grind [I.duty d hd]

/-- The place of a thread that gives up its CPU. -/
def leaveTo (M : Machine κ) (s : Sched κ) (c : κ) : ThreadState → Option (Place κ)
  | .ready => if s.current c = M.idle c then none else some .ready
  | .zombie => some .zombie
  | .running | .sleeping => none

/-- `sched_sched` up to `sched`, for a thread that goes on later or exits. -/
theorem leave {next : ThreadState} (hact : s.act c = .run) (hlock : s.schedLock = none)
    (hnext : next = .ready ∨ next = .zombie ∧ s.current c ≠ M.idle c) :
    Located M (s.leave M c next none) (update f (s.current c) (leaveTo M s c next)) := by
  have hon : (s.act c).on = true := by rw [hact]; rfl
  have hcpu : s.At (s.current c) (.cpu c) := ⟨rfl, hon⟩
  have helse : ∀ q, Place.cpu c ≠ q → ¬ s.At (s.current c) q := fun q => I.elsewhere hcpu
  have hnotready : s.current c ∉ s.readyQueue := helse .ready (by simp)
  have hnotwait : ∀ cv, s.current c ∉ s.waiters cv := fun cv => helse (.waiting cv) (by simp)
  have hzombie : ¬ (s.current c ∈ s.started ∧ s.state (s.current c) = .zombie) :=
      helse .zombie (by simp)
  have hstarted := I.started _ _ (I.at_current hon)
  have hmem := I.current_started hon
  rw [Sched.leave]
  refine { I with
    at_iff := at_move I.at_iff (fun u hu p => ?_) fun p => ?_
    idle := fun d p h => ?_
    started := fun u p h => ?_
    nodup_ready := ?_
    ready := fun u hu => ?_
    waiting := fun cv u hu => ?_
    queued := fun d cv hd => ?_
    held := fun d cv hd => ?_
    switching := fun d hd => ?_
    duty := fun d hd => ?_ }
  · cases p <;> simp only [At] <;> grind
  · have := helse p
    cases p <;> simp only [At] at this ⊢ <;> grind [leaveTo, Act.on, I.current_inj.eq_iff]
  · grind [I.idle d p, I.idle_current d c, leaveTo]
  · grind [I.started u p]
  · grind [I.nodup_ready, nodup_snoc I.nodup_ready hnotready]
  · grind [I.ready u]
  · grind [I.waiting cv u hu]
  · grind [I.queued d cv]
  · grind [I.held d cv, lockOf]
  · grind [I.no_switching hlock d]
  · grind [I.duty d hd]

theorem sleep (hact : s.act c = .queued cv) (hlock : s.schedLock = none) :
    Located M (s.leave M c .sleeping (some (M.guard cv))) f := by
  have hwait : s.At (s.current c) (.waiting cv) := I.queued c cv hact
  have helse : ∀ q, Place.waiting cv ≠ q → ¬ s.At (s.current c) q := fun q => I.elsewhere hwait
  have hnotready : s.current c ∉ s.readyQueue := helse .ready (by simp)
  have hzombie : ¬ (s.current c ∈ s.started ∧ s.state (s.current c) = .zombie) :=
      helse .zombie (by simp)
  have hguard : ∀ d cv', d ≠ c → lockOf (s.act d) = some cv' →
      M.guard cv' ≠ M.guard cv := fun d cv' hd h hg =>
    hd (I.held_inj (I.held c cv (by rw [hact]; rfl)) h hg)
  rw [Sched.leave]
  refine { I with
    at_iff := fun u p => Iff.trans ?_ (I.at_iff u p)
    nodup_ready := I.nodup_ready
    ready := fun u hu => ?_
    waiting := fun cv' u hu => ?_
    queued := fun d cv' hd => ?_
    held := fun d cv' hd => ?_
    switching := fun d hd => ?_
    duty := fun d hd => ?_ }
  · have := helse p
    cases p <;> simp only [At] at this ⊢ <;> grind [Act.on]
  · grind [I.ready u]
  · grind [I.waiting cv' u hu]
  · grind [I.queued d cv']
  · grind [I.held d cv', lockOf]
  · grind [I.no_switching hlock d]
  · grind [I.duty d hd]

theorem switchThread {next : Tid} (hact : s.act c = .switching) (hnone : ∀ p, ¬ s.At next p)
    (hcur : ∀ d, d ≠ c → s.current d ≠ next) (hnext : next ∈ s.started ∨ next = M.idle c)
    (hprev : s.state (s.current c) = .zombie → s.current c ∈ s.started) :
    Located M (s.switchThread c next) (update f next (some (.cpu c))) := by
  have hidle : ∀ d, M.idle d = next → d = c := by
    intro d hd
    rcases hnext with h | h
    · exact absurd hd.symm (I.not_idle next h d)
    · exact M.idle_inj (hd.trans h)
  have hlock := I.switching c hact
  have hnotready : next ∉ s.readyQueue := hnone .ready
  have hnotwait : ∀ cv, next ∉ s.waiters cv := fun cv => hnone (.waiting cv)
  have hzombie : ¬ (next ∈ s.started ∧ s.state next = .zombie) := hnone .zombie
  rw [Sched.switchThread]
  refine { I with
    at_iff := at_move I.at_iff (fun u hu p => ?_) fun p => ?_
    idle := fun d p h => ?_
    started := fun u p h => ?_
    ready := fun u hu => ?_
    waiting := fun cv u hu => ?_
    queued := fun d cv hd => ?_
    held := fun d cv hd => ?_
    switching := fun d hd => ?_
    current_inj := fun d e h => ?_
    idle_current := fun d e h => ?_
    duty := fun d hd => ?_ }
  · cases p <;> simp only [At] <;> grind [Act.on]
  · have := hnone p
    cases p <;> simp only [At] at this ⊢ <;> grind [Act.on]
  · grind [I.idle d p]
  · grind [I.started u p]
  · grind [I.ready u]
  · exact (I.waiting cv u hu).imp (fun h => by grind) fun ⟨d, h⟩ => ⟨d, by grind⟩
  · grind [I.queued d cv]
  · grind [I.held d cv, lockOf]
  · grind [I.switching d]
  · grind [I.current_inj.eq_iff]
  · grind [I.idle_current d e]
  · grind [I.duty d]

/-- `sched`: the head of the ready queue is ready, and the switch to it or to the idle thread leaves
every thread at one place. -/
theorem sched (hact : s.act c = .switching) (hprev : s.state (s.current c) = .zombie →
    s.current c ∈ s.started) :
    ∃ next s', s.sched M c = .ok s' ∧ s'.schedLock = none ∧ s'.started = s.started ∧
      Located M s' (update f next (some (.cpu c))) := by
  have hswitch : ∀ d, d ≠ c → s.act d ≠ .switching := by
    intro d hd h
    have hlock := (I.switching d h).symm.trans (I.switching c hact)
    exact hd (Option.some.inj hlock)
  cases hq : s.readyQueue with
  | nil =>
    refine ⟨M.idle c, s.switchThread c (M.idle c), by rw [Sched.sched, hq], rfl, rfl, ?_⟩
    refine I.switchThread hact (fun p hp => ?_) (fun d hd h => hd (I.idle_current c d h)) (.inr rfl)
      hprev
    have hcpu := I.idle c p ((I.at_iff _ p).mp hp)
    subst hcpu
    rw [At, hact] at hp
    cases hp.2
  | cons next rest =>
    have hready : s.At next .ready := by
      rw [At, hq]
      exact List.mem_cons_self
    have I' := I.pop hq
    refine ⟨next, Sched.switchThread { s with readyQueue := rest } c next, ?_, rfl, rfl, ?_⟩
    · rw [Sched.sched, hq]
      exact if_pos (I.ready next hready)
    · have h := Located.switchThread (s := { s with readyQueue := rest }) I' hact (fun p hp => ?_)
        (fun d hd => I.not_current hready (by simp) (by simp) (hswitch d hd))
        (.inl (I.mem_started hready (by simp))) hprev
      · rwa [update_idem] at h
      · rw [I'.at_iff, update_self] at hp
        cases hp

omit [DecidableEq κ] in
theorem threadCleanup (hact : s.act c = .run)
    (hduty : s.duty.find? (fun d => d.1 = s.current c) = some (s.current c, t)) :
    ∃ s', s.threadCleanup c t = .ok s' ∧ Located M s' f ∧ s'.act = s.act ∧ s'.state = s.state ∧
      s'.current = s.current ∧ s'.started = s.started := by
  have hzombie : s.At t .zombie := I.duty _ (List.mem_of_find?_eq_some hduty)
  have hne : s.current c ≠ t := I.not_current hzombie (by simp) (by simp) (by simp [hact])
  refine ⟨{ s with duty := s.duty.erase (s.current c, t), cleaned := s.cleaned ++ [t] },
    by rw [Sched.threadCleanup, if_pos hne], ?_, rfl, rfl, rfl, rfl⟩
  exact { I with duty := fun d hd => I.duty d (List.mem_of_mem_erase hd) }

end Located

/-! ## Runs -/

section Runs

variable {κ : Type} [DecidableEq κ] {M : Machine κ} {s : Sched κ}

/-- Every thread has its place, and only a thread that has gone to sleep is between its last step
and the switch. -/
def Inv (M : Machine κ) (s : Sched κ) : Prop :=
  ∃ f, Located M s f ∧ (∀ t ∈ s.started, f t ≠ none) ∧
    ∀ c, s.act c = .switching → s.state (s.current c) = .sleeping

omit [DecidableEq κ] in
theorem Inv.init (h : s.Init M) : Inv M s := by
  obtain ⟨hcur, hact, hrq, hw, -, -, hst, -, hduty, -⟩ := h
  classical
  refine ⟨fun t => if h : ∃ c, M.idle c = t then some (.cpu h.choose) else none, ?_, ?_, ?_⟩
  · have hidle : ∀ c, ∃ d, M.idle d = M.idle c := fun c => ⟨c, rfl⟩
    have hchoose : ∀ c, (hidle c).choose = c := fun c => M.idle_inj (hidle c).choose_spec
    refine ⟨fun t p => ?_, fun c p h => ?_, fun t p h =>
      ?_, by simp [hst], by simp [hrq], by simp [hw],
      by simp [hrq], by simp [hw], by simp [hact], by simp [hact, lockOf], by simp [hact],
      hcur ▸ M.idle_inj, fun c d h => M.idle_inj (hcur ▸ h), by simp [hduty]⟩
    · by_cases ht : ∃ c, M.idle c = t
      · obtain ⟨c, rfl⟩ := ht
        simp only [dif_pos (hidle c), hchoose c, Option.some.injEq]
        cases p with
        | cpu d => simp [At, hcur, hact, Act.on, M.idle_inj.eq_iff, eq_comm]
        | ready | waiting cv | waker d | zombie => simp [At, hrq, hw, hact, hst]
      · simp only [dif_neg ht]
        refine iff_of_false (fun h => ?_) (by simp)
        cases p with
        | cpu d => exact ht ⟨d, by rw [← h.1, hcur]⟩
        | ready | waiting cv | waker d | zombie => simp [At, hrq, hw, hact, hst] at h
    · simp only [dif_pos (hidle c), hchoose c] at h
      exact (Option.some.inj h).symm
    · by_cases ht : ∃ c, M.idle c = t
      · obtain ⟨c, rfl⟩ := ht
        exact .inr ⟨c, rfl⟩
      · simp only [dif_neg ht] at h
        cases h
  · simp [hst]
  · simp [hact]

theorem switching_of_setAct {a : Act} {c d : κ} (ha : a ≠ .switching)
    (hd : update s.act c a d = .switching) : s.act d = .switching := by
  by_cases hdc : d = c
  · rw [hdc, update_self] at hd
    exact absurd hd ha
  · rwa [update_of_ne hdc] at hd

omit [DecidableEq κ] in
theorem placed_move {l : List Tid} {f : Tid → Option (Place κ)} (h : ∀ u ∈ l, f u ≠ none) {t : Tid}
    {p : Place κ} : ∀ u ∈ l, update f t (some p) u ≠ none := by
  intro u hu
  by_cases hut : u = t
  · simp [hut]
  · rw [update_of_ne hut]
    exact h u hu

theorem Inv.wakeFirst (h : Inv M s) {c : κ} (hon : (s.act c).on = true)
    (hnot : ∀ t loop, s.act c ≠ .waking t loop) (hheld : s.holder (M.guard cv) = some (s.current c))
    (hloop : loop = none ∨ loop = some cv) : Inv M (s.wakeFirst c cv loop) := by
  obtain ⟨f, I, hplaced, hsleep⟩ := h
  rw [Sched.wakeFirst]
  split
  · exact ⟨f, I.setAct hon rfl hnot (by simp) (by simp [lockOf]), hplaced,
      fun d hd => hsleep d (switching_of_setAct (by simp) hd)⟩
  · rename_i t rest hw
    exact ⟨_, I.wakeFirst hw hon hnot hheld hloop, placed_move hplaced,
      fun d hd => hsleep d (switching_of_setAct (by simp) hd)⟩

/-- Every step is made, and keeps the invariant. -/
theorem Inv.step (h : Inv M s) {op : SchedOp κ} (hop : op.Enabled M s) :
    ∃ s', op.exec M s = .ok s' ∧ Inv M s' := by
  have hinv := h
  obtain ⟨f, I, hplaced, hsleep⟩ := h
  have hfree : ∀ {s' f'}, Located M s' f' → s'.schedLock = none →
      ∀ c, s'.act c = .switching → s'.state (s'.current c) = .sleeping :=
    fun I' hlock c hc => absurd hc (I'.no_switching hlock c)
  cases op with
  | acquire c l =>
    obtain ⟨-, hnone⟩ := hop
    refine ⟨_, rfl, f, I.setHolder _ (fun d cv hd hg => ?_), hplaced, hsleep⟩
    have := I.held d cv hd
    rw [hg, hnone] at this
    cases this
  | release c l =>
    obtain ⟨hact, hheld⟩ := hop
    refine ⟨_, rfl, f, I.setHolder _ (fun d cv hd hg => ?_), hplaced, hsleep⟩
    have := I.held d cv hd
    rw [hg, hheld] at this
    rw [I.current_inj (Option.some.inj this).symm, hact] at hd
    cases hd
  | start c t =>
    obtain ⟨-, hlock, hnew, hidle⟩ := hop
    refine ⟨_, rfl, _, I.start hnew hidle, fun u hu => ?_, hfree (I.start hnew hidle) hlock⟩
    rcases List.mem_cons.mp hu with rfl | hu
    · simp
    · exact placed_move hplaced u hu
  | yield c =>
    obtain ⟨hact, hlock⟩ := hop
    have I' := I.leave hact hlock (.inl rfl)
    obtain ⟨next, s', hs', hlock', hst, I''⟩ := I'.sched (update_self ..)
      (fun h => absurd ((update_self ..).symm.trans h) (by simp))
    refine ⟨s', hs', _, I'', hst ▸ placed_move fun u hu => ?_, hfree I'' hlock'⟩
    by_cases hc : u = s.current c
    · rw [hc, update_self]
      simp [Located.leaveTo, ← hc, I.not_idle u hu c]
    · rw [update_of_ne hc]
      exact hplaced u hu
  | exit c =>
    obtain ⟨hact, hlock, hidle, -⟩ := hop
    have I' := I.leave hact hlock (.inr ⟨rfl, hidle⟩)
    obtain ⟨next, s', hs', hlock', hst, I''⟩ := I'.sched (update_self ..)
      (fun _ => I.current_started (by rw [hact]; rfl) hidle)
    exact ⟨s', hs', _, I'', hst ▸ placed_move (placed_move hplaced), hfree I'' hlock'⟩
  | wait c cv =>
    obtain ⟨hact, hidle, -, hheld⟩ := hop
    exact ⟨_, rfl, _, I.wait hact hidle hheld, placed_move hplaced,
      fun d hd => hsleep d (switching_of_setAct (by simp) hd)⟩
  | sleep c cv =>
    obtain ⟨hact, hlock⟩ := hop
    have I' := I.sleep hact hlock
    refine ⟨_, rfl, f, I', hplaced, fun d hd => ?_⟩
    have hdc : c = d := Option.some.inj (I'.switching d hd)
    subst hdc
    exact update_self ..
  | switch c =>
    obtain ⟨next, s', hs', hlock', hst, I'⟩ := I.sched hop
      (fun h => absurd ((hsleep c hop).symm.trans h) (by simp))
    exact ⟨s', hs', _, I', hst ▸ placed_move hplaced, hfree I' hlock'⟩
  | signal c cv =>
    obtain ⟨hact, hheld⟩ := hop
    exact ⟨_, rfl, hinv.wakeFirst (by rw [hact]; rfl) (by simp [hact]) hheld (.inl rfl)⟩
  | broadcast c cv =>
    obtain ⟨hact, hheld⟩ := hop
    have I' := I.setAct (a := .broadcasting cv) (by rw [hact]; rfl) rfl (by simp [hact]) (by simp)
      (fun cv' h => Option.some.inj h ▸ hheld)
    exact ⟨_, rfl, f, I', hplaced, fun d hd => hsleep d (switching_of_setAct (by simp) hd)⟩
  | iterate c cv =>
    have hheld := I.held c cv (by rw [show s.act c = _ from hop]; rfl)
    exact ⟨_, rfl, hinv.wakeFirst (by rw [show s.act c = _ from hop]; rfl)
      (by simp [show s.act c = _ from hop]) hheld (.inr rfl)⟩
  | ready c t loop =>
    obtain ⟨hact, hlock⟩ := hop
    exact ⟨_, rfl, _, I.ready_woken hact, placed_move hplaced, hfree (I.ready_woken hact) hlock⟩
  | cleanup c t =>
    obtain ⟨hact, hduty⟩ := hop
    obtain ⟨s', hs', I', ha, hstate, hcur, hst⟩ := I.threadCleanup hact hduty
    exact ⟨s', hs', f, I', hst ▸ hplaced, ha ▸ hstate ▸ hcur ▸ hsleep⟩

theorem Inv.reachable (h : s.Reachable M) : Inv M s := by
  refine Run.Reachable.invariant h (fun s h0 => .init h0) fun s s' _ I hstep => ?_
  obtain ⟨op, hop, hexec⟩ := hstep
  obtain ⟨s'', hs'', I'⟩ := I.step hop
  rw [hexec] at hs''
  exact Except.ok.inj hs'' ▸ I'

end Runs

end Sched

/-- Every started thread is at exactly one place: current on a CPU, on the ready queue, on a waiter
list, taken off one and not yet ready, or a zombie.  No thread is current on two CPUs or twice on a
list.  The threads on the ready queue are ready, and neither they nor the zombies are current.
Those on a waiter list are sleeping or on their way there.  And no assertion fails. -/
theorem one_place {κ : Type} [DecidableEq κ] {M : Machine κ} {s : Sched κ} (h : s.Reachable M) :
    (∀ t ∈ s.started, ∃! p, s.At t p) ∧ Function.Injective s.current ∧
      (s.readyQueue.Nodup ∧ ∀ t ∈ s.readyQueue, s.state t = .ready ∧ ∀ c, s.current c ≠ t) ∧
      (∀ cv, (s.waiters cv).Nodup ∧ ∀ t ∈ s.waiters cv,
        s.state t = .sleeping ∨ ∃ c, s.current c = t ∧ s.act c = .queued cv) ∧
      (∀ t ∈ s.started, s.state t = .zombie → ∀ c, s.current c ≠ t) ∧
      ∀ op : SchedOp κ, op.Enabled M s → ∃ s', op.exec M s = .ok s' := by
  have hinv := Sched.Inv.reachable h
  obtain ⟨f, I, hplaced, hsleep⟩ := hinv
  have hnot : ∀ t p, s.At t p → (∀ c, p ≠ .cpu c) → (∀ cv, p ≠ .waiting cv) →
      s.state t ≠ .sleeping → ∀ c, s.current c ≠ t := by
    intro t p hp hcpu hwait hstate c hc
    refine I.not_current hp hcpu hwait (fun hsw => hstate ?_) hc
    exact hc ▸ hsleep c hsw
  refine ⟨fun t ht => ?_, I.current_inj, ⟨I.nodup_ready, fun t ht => ⟨I.ready t ht, ?_⟩⟩,
    fun cv => ⟨I.nodup_waiters cv, I.waiting cv⟩, fun t ht hz => ?_, fun op hop => ?_⟩
  · obtain ⟨p, hp⟩ := Option.ne_none_iff_exists'.mp (hplaced t ht)
    have hat := (I.at_iff t p).mpr hp
    exact ⟨p, hat, fun q hq => I.place_eq hq hat⟩
  · exact hnot t .ready ht (by simp) (by simp) (by simp [I.ready t ht])
  · exact hnot t .zombie ⟨ht, hz⟩ (by simp) (by simp) (by simp [hz])
  · obtain ⟨s', hs', -⟩ := Sched.Inv.step ⟨f, I, hplaced, hsleep⟩ hop
    exact ⟨s', hs'⟩

/-- Thread 2 goes to sleep on the first CPU, and the second takes it off the waiter list before the
switch. -/
def wokenEarly : List (SchedOp Bool) :=
  [.start false 2, .yield false, .acquire false 0, .wait false 0, .sleep false 0, .acquire true 0,
    .signal true 0]

/-- Thread 2 is still current on the first CPU, and it has one place, in the hands of the second. -/
theorem wokenEarly_place : ∃ s : Sched Bool, s.current false = 2 ∧ s.At 2 (.waker true) ∧
    ∃! p, s.At 2 p := by
  obtain ⟨s, h, hcur, hact, hstarted⟩ := twoIdle_reachable.performed
    (P := fun s => s.current false = 2 ∧ s.act true = .waking 2 none ∧ 2 ∈ s.started) wokenEarly
    (by decide +kernel)
  exact ⟨s, hcur, ⟨none, hact⟩, (one_place h).1 2 hstarted⟩

end Osv
