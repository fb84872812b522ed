import Xv6.Proc.ThreadInterrupts

namespace Xv6.Interrupts
open Lib Function
open ProcTable (Slot ProcState initproc)

/-! ## Every step -/

section
variable {C : Type}

/-- What a step of CPU `c` leaves: when the thread has undone its last `push_off`, interrupts are as
they were before the first. -/
structure Kept (s : State C) (c : C) (t : State C) : Prop where
  sound : Sound t
  leaves : ∀ p, s.current c = some p → 0 < (s.thread (.proc p)).depth → (t.thread (.proc p)).depth = 0 →
    (t.cpu c).sie = (s.thread (.proc p)).entry

def Panic.Allowed : Panic → Prop
  | .acquire | .schedLocks => True
  | _ => False

def Outcome (s : State C) (c : C) : Except Panic (State C) → Prop
  | .ok t => Kept s c t
  | .error e => e.Allowed

variable {s t : State C} {c : C} {p : Slot}

theorem Kept.same_depth (sound : Sound t)
    (depth : ∀ p, s.current c = some p → (t.thread (.proc p)).depth = (s.thread (.proc p)).depth) : Kept s c t where
  sound := sound
  leaves p current deep outermost := by
    rw [depth p current] at outermost
    omega

theorem initial_sound : Sound (initial : State C) where
  running _ := ⟨rfl, nofun, nofun, nofun, nofun, ⟨rfl, rfl⟩, nofun, List.nodup_nil⟩
  mine _ := nofun
  parked _ _ := ⟨.inl rfl, rfl, rfl, nofun⟩
  waiting _ _ := nofun
  alone _ _ _ := nofun
  state _ _ := nofun
  switching _ _ := nofun
  role _ := ⟨trivial, nofun⟩

variable [DecidableEq C]

theorem setMe_depth {x : Thread} (depth : x.depth = (s.me c).depth) (current : s.current c = some p) :
    ((s.setMe c x).thread (.proc p)).depth = (s.thread (.proc p)).depth := by
  rw [← State.me_some current, ← depth, ← State.self_some current]
  exact congrArg Thread.depth (update_self ..)

section

variable (sound : Sound s)

include sound

theorem releaseLock_kept {l : Lock} {scanned : Option Slot} (held : l ∈ (s.me c).held)
    (few : (s.me c).held.length ≤ (s.me c).depth) (last : scanned = none ∨ (s.me c).depth = 1)
    (masked : scanned = none → (s.me c).pc.Masked) (role : (s.me c).pc.OfThread → scanned = none)
    (before : (s.me c).pc ≠ .sched) : Outcome s c (releaseLock s c l scanned) := by
  rw [releaseLock, if_pos (sound.mine c l held)]
  exact .same_depth (sound.released held few last masked role before) fun p => setMe_depth rfl

theorem choose_sound {i : Slot} (idle : s.current c = none) (place : (s.me c).pc = .test i) : Sound (choose s c i) := by
  by_cases runnable : s.state i = .runnable
  · exact sound.chosen idle place runnable
  · rw [choose, if_neg runnable]
    have ok := sound.running c
    have fits := ok.fits
    rw [place] at fits
    have passed : Ok (s.cpu c) { s.me c with pc := .done i } :=
      ⟨ok.noff, ok.off, fun _ => False.elim, (by simp), (by simp), fits, ok.frames, ok.nodup⟩
    have busy (p : Slot) : s.current c ≠ some p := fun current => absurd (idle.symm.trans current) (by simp)
    refine sound.acts passed (fun _ _ => rfl) (fun thread => ?_) (sound.mine c) (fun _ _ _ => id)
      (fun p current => absurd current (busy p)) (fun p current => absurd current (busy p)) fun _ _ => rfl
    have before := thread.1
    rw [place] at before
    exact absurd before id

theorem sched_kept (current : s.current c = some p) (place : (s.me c).pc = .sched) : Outcome s c (sched s c p) := by
  have ok := sound.running c
  have fits := ok.fits
  rw [place] at fits
  obtain ⟨held, notRunning⟩ := sound.switching c p current place
  have off := ok.off fits.1
  rw [sched, if_neg (not_not.mpr (sound.mine c _ held))]
  by_cases one : (s.cpu c).noff = 1
  · rw [if_neg (not_not.mpr one), if_neg notRunning, if_neg (by rw [off]; decide)]
    refine Kept.same_depth (sound.switched current place one off) fun q currentQ => ?_
    exact setMe_depth rfl currentQ
  · rw [if_pos one]
    trivial

theorem write_kept {v : ProcState} (place : (s.me c).pc = .body) (lock : s.lock (.proc p) = some c)
    (may : mayWrite (s.state p) v = true) : Kept s c (write s p v) := by
  -- the other process does not run, because of its state or its lock
  have out : ∀ d, s.current d ≠ some p := by grind [mayWrite, sound.out]
  have kept (x : Thread) (parked : Parked p x) (role : x.OfThread) : Kept s c ((s.setState p v).setThread (.proc p) x) := by
    refine .same_depth (sound.write out parked role) fun q current => ?_
    have apart : Who.proc q ≠ (.proc p : Who C) := fun same => out c (Who.proc.inj same ▸ current)
    exact congrArg Thread.depth (update_of_ne apart ..)
  rw [write]
  split
  next => exact kept _ ⟨.inl rfl, rfl, rfl, nofun⟩ ⟨trivial, nofun⟩
  next =>
    have same : (s.setState p v).setThread (.proc p) (s.thread (.proc p)) = s.setState p v :=
      congrArg (fun thread => { s.setState p v with thread := thread }) (update_eq_self ..)
    rw [← same]
    exact kept _ (sound.parked p out) (sound.role p)

theorem exec_kept {a : Act} {outcome : Except Panic (State C)} (taken : exec s c a = some outcome) :
    Outcome s c outcome := by
  have ok := sound.running c
  have fits := ok.fits
  unfold exec at taken
  split at taken
  next caller place =>
    obtain ⟨l, lock, taken⟩ := Option.bind_eq_some_iff.mp taken
    rw [acquireLock] at taken
    split at taken
    next =>
      cases taken
      trivial
    next =>
      split at taken
      next free =>
        cases taken
        exact Kept.same_depth (sound.acquired place lock free) fun p => setMe_depth rfl
      next => cases taken
  next l place =>
    rw [place] at fits
    split at taken
    next held =>
      cases taken
      refine releaseLock_kept sound held fits (.inl rfl) (fun _ => ?_) (fun _ => rfl) ?_
      all_goals rw [place]
      · trivial
      · exact nofun
    next => cases taken
  next i place idle =>
    cases taken
    rw [place] at fits
    have held : Lock.proc i ∈ (s.me c).held := by
      rw [fits.2]
      exact List.mem_singleton.mpr rfl
    have few : (s.me c).held.length ≤ (s.me c).depth := by
      rw [fits.1, fits.2]
      exact Nat.le_refl 1
    refine releaseLock_kept sound held few (.inr fits.1) nofun ?_ ?_
    all_goals rw [place]
    · exact False.elim
    · exact nofun
  next i place idle =>
    cases taken
    exact Kept.same_depth (choose_sound sound idle place) fun p current => absurd (idle.symm.trans current) nofun
  next v p place current =>
    split at taken
    next may =>
      cases taken
      exact Kept.same_depth (sound.leaves current place may.1 may.2) fun q => setMe_depth rfl
    next => cases taken
  next p place current =>
    cases taken
    exact sched_kept sound current place
  next p v place =>
    split at taken
    next may =>
      cases taken
      exact write_kept sound place may.1 may.2
    next => cases taken
  next =>
    obtain ⟨moved, local', isOutcome⟩ := Option.map_eq_some_iff.mp taken
    obtain ⟨r, x, rfl, moves⟩ := localStep_local ok local'
    rw [← isOutcome]
    refine ⟨sound.local moves, fun p current deep outermost => ?_⟩
    have after : ((s.setCpu c r).setMe c x).thread (.proc p) = x := by
      rw [← State.self_some current]
      exact update_self ..
    have cpu : ((s.setCpu c r).setMe c x).cpu c = r := update_self ..
    have role := sound.role p
    rw [← State.me_some current] at role deep ⊢
    rw [after] at outermost
    rw [cpu]
    exact moves.leaves role deep outermost

end

/-! ## Every run -/

theorem step_sound {e : C × Act} (taken : step s e = some t) (sound : Sound s) : Sound t := by
  rw [step] at taken
  split at taken
  next t' done =>
    cases taken
    exact (exec_kept sound done).sound
  next => cases taken

/-- In every run, on any CPUs: interrupts are off while the thread of a process has a `push_off` to
undo, they are as they were before the outermost when it has undone it, and `pop_off` never panics.
Nor does `sched`, if the thread holds no other lock, and it leaves to return on any CPU. -/
theorem interrupts_follow_threads {es : List (C × Act)} (reached : run step initial es = some s) :
    (∀ c p, s.current c = some p → 0 < (s.thread (.proc p)).depth → (s.cpu c).sie = false) ∧
    (∀ c p a t, s.current c = some p → step s (c, a) = some t → 0 < (s.thread (.proc p)).depth →
      (t.thread (.proc p)).depth = 0 → (t.cpu c).sie = (s.thread (.proc p)).entry) ∧
    (∀ c a, exec s c a ≠ some (.error .popOff) ∧ exec s c a ≠ some (.error .popOffInterruptible)) ∧
    ∀ c p, s.current c = some p → (s.thread (.proc p)).pc = .sched → (s.thread (.proc p)).depth = 1 →
      ∃ t, step s (c, .go) = some t := by
  have sound : Sound s := run_inductive (fun _ _ _ => step_sound) initial_sound reached
  refine ⟨fun c p current deep => ?_, fun c p a t current taken deep outermost => ?_, fun c a => ⟨?_, ?_⟩,
    fun c p current place one => ?_⟩
  · rw [← State.me_some current] at deep
    exact (sound.running c).off deep
  · rw [step] at taken
    split at taken
    next t' done =>
      cases taken
      exact (exec_kept sound done).leaves p current deep outermost
    next => cases taken
  · intro panics
    exact exec_kept sound panics
  · intro panics
    exact exec_kept sound panics
  · rw [← State.me_some current] at place one
    have ok := sound.running c
    obtain ⟨held, notRunning⟩ := sound.switching c p current place
    have noff : (s.cpu c).noff = 1 := by
      rw [ok.noff, one]
      rfl
    have off : (s.cpu c).sie = false := ok.off (by omega)
    have leaves : exec s c .go = some (sched s c p) := by
      simp only [exec, place, current]
    refine ⟨(goto s c (.resume (s.cpu c).intena)).setCurrent c none, ?_⟩
    rw [step, leaves, sched, if_neg (not_not.mpr (sound.mine c _ held)), if_neg (not_not.mpr noff), if_neg notRunning,
      if_neg (by rw [off]; decide)]

end

def dispatch (c : Bool) : List (Bool × Act) := [(c, .go), (c, .go), (c, .go), (c, .go), (c, .go)]

/-- The first process starts on one CPU, where a timer interrupt makes it yield, and goes on on the other. -/
def migrate : List (Bool × Act) :=
  dispatch false ++ [(false, .release (.proc 0)), (false, .go), (false, .trap), (false, .acquire (.proc 0)),
  (false, .go), (false, .go),
    (false, .sched .runnable), (false, .go), (false, .go)] ++ dispatch true ++ [(true, .go)]

theorem interrupts_follow_threads_migrate : ∃ s, run step initial migrate = some s ∧ s.current true = some 0 ∧
    (s.thread (.proc 0)).depth = 1 ∧ (s.cpu true).sie = false ∧
    ∀ c a, exec s c a ≠ some (.error .popOff) ∧ exec s c a ≠ some (.error .popOffInterruptible) := by
  refine exists_some_of (fun s => s.current true = some 0 ∧ (s.thread (.proc 0)).depth = 1) (by decide +kernel)
    fun s reached ⟨current, depth⟩ => ?_
  have follows := interrupts_follow_threads reached
  exact ⟨current, depth, follows.1 true 0 current (by omega), follows.2.2.1⟩

/-- A lock is held on one CPU, where no trap comes before its release; a lock taken twice, or other locks in
`sched`, is all that can panic. -/
theorem spinlocks_exclude {C : Type} [DecidableEq C] {s : State C} {es : List (C × Act)}
    (reached : run step initial es = some s) :
    (∀ c d l, l ∈ (s.me c).held → l ∈ (s.me d).held → c = d) ∧
    (∀ c l, l ∈ (s.me c).held → exec s c .trap = none) ∧
    ∀ c a why, exec s c a = some (.error why) → why = .acquire ∨ why = .schedLocks := by
  have sound : Sound s := run_inductive (fun _ _ _ => step_sound) initial_sound reached
  refine ⟨fun c d l here there => ?_, fun c l here => ?_, fun c a why panics => ?_⟩
  · exact Option.some.inj ((sound.mine c l here).symm.trans (sound.mine d l there))
  · have ok := sound.running c
    have deep : 0 < (s.me c).depth := by
      by_contra none
      have fits := Nat.eq_zero_of_not_pos none ▸ ok.fits
      simp [fits.empty] at here
    simp [exec, localStep, ok.off deep]
  · have allowed : why.Allowed := exec_kept sound panics
    cases why <;> simp_all [Panic.Allowed]

theorem spinlocks_exclude_migrate : ∃ s, run step initial migrate = some s ∧ .proc 0 ∈ (s.me true).held ∧
    exec s true .trap = none :=
  exists_some_of (fun s => .proc 0 ∈ (s.me true).held) (by decide +kernel) fun _ reached here =>
    ⟨here, (spinlocks_exclude reached).2.1 true _ here⟩

end Xv6.Interrupts
