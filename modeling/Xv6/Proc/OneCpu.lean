import Xv6.Proc.Handoff

namespace Xv6.Scheduler
open Lib
open Function (update update_self update_of_ne)
open ProcTable (Slot ProcState Chan Proc initproc freeproc)

attribute [local simp] State.setLock SchedPc.locks

section
variable {Cpu : Type} {s t : State Cpu} {c : Cpu} {pc : SchedPc}

theorem Inv.held_sched (inv : Inv s) (on : s.running c = .scheduler pc) (l : Lock) :
    s.lock l = some c ↔ l ∈ pc.locks := by
  rw [inv.lock, heldBy, on]

theorem initial_inv (cond : Nat → Bool) : Inv (initial cond : State Cpu) := by
  constructor
  · intro p
    exact proper_of_plain rfl
  · intro l c
    simp [initial, heldBy]
  · intro c p place
    cases place
  · intro c c' p place
    cases place
  · intro c p place
    cases place
  · intro c i place
    cases place
  · intro p _ _
    exact ⟨rfl, rfl⟩
  · intro q np found
    cases found
  · intro q np found
    cases found
  · intro q q' np found
    cases found

variable [DecidableEq Cpu]

/-! ## The scheduler -/

theorem Inv.sched {v : Slot → Proc} {lock : Lock → Option Cpu} (inv : Inv s)
    (on : ∀ p, s.running c ≠ .thread p) (mine : ∀ l, lock l = some c ↔ l ∈ pc.locks)
    (theirs : ∀ l c', c' ≠ c → (lock l = some c' ↔ s.lock l = some c')) (states : ∀ q, (v q).state ≠ (s.proc q).state →
      (∀ c', s.running c' ≠ .thread q) ∧ (v q).state = .running ∧ (s.proc q).state = .runnable)
    (switching : ∀ i, pc = .switch i → (v i).state = .running ∧ ∀ c', s.running c' ≠ .thread i) :
    Inv { s with proc := v, lock := lock, running := update s.running c (.scheduler pc) } := by
  have still {c' : Cpu} {q : Slot} (place : update s.running c (.scheduler pc) c' = .thread q) :
      c' ≠ c ∧ s.running c' = .thread q := by grind
  constructor
  · exact inv.proper
  · grind [heldBy, inv.lock]
  · intro c' q place
    exact inv.back c' q (still place).2
  · grind [inv.solo]
  · grind [inv.state]
  · intro c' i place
    have off (elsewhere : ∀ c', s.running c' ≠ .thread i) (c'' : Cpu) :
        update s.running c (.scheduler pc) c'' ≠ .thread i := fun place' =>
      elsewhere c'' (still place').2
    by_cases same : c' = c
    · grind
    · simp only [update_of_ne same] at place
      obtain ⟨state, elsewhere⟩ := inv.switching c' i place
      refine ⟨?_, off elsewhere⟩
      by_contra changed
      obtain ⟨-, now, -⟩ := states i (by rw [state]; exact changed)
      exact changed now
  · intro q off waiting
    have elsewhere (c' : Cpu) : s.running c' ≠ .thread q := by grind
    apply inv.parked q elsewhere
    by_cases changed : (v q).state = (s.proc q).state
    · exact changed ▸ waiting
    · rw [(states q changed).2.2]
      trivial
  · intro q np found
    have used := inv.forking q np found
    by_contra changed
    have before := (states np (by rw [used]; exact changed)).2.2
    rw [used] at before
    cases before
  · exact inv.spawned
  · exact inv.alone

theorem Inv.switch_to {i : Slot} (inv : Inv s) (on : s.running c = .scheduler (.switch i)) :
    Inv ({ s with saved := update s.saved c (.release i) }.run c (.thread i)) := by
  obtain ⟨state, off⟩ := inv.switching c i on
  have resumable := inv.parked i off (by rw [state]; trivial)
  have held := inv.held_sched on
  have there {c' : Cpu} (other : c' ≠ c) :
      ({ s with saved := update s.saved c (.release i) }.run c (.thread i)).running c' = s.running c' := by
    simp [State.run, other]
  have here : ({ s with saved := update s.saved c (.release i) }.run c (.thread i)).running c = .thread i := by
    simp [State.run]
  constructor
  · exact inv.proper
  · intro l c'
    by_cases same : c' = c
    · subst same
      simp only [heldBy, here]
      change s.lock l = some c' ↔ l ∈ locks i (s.pc i)
      rw [resumable.locks]
      exact held l
    · have before := inv.lock l c'
      simp only [heldBy, there same]
      exact before
  · intro c' q place
    by_cases same : c' = c
    · subst same
      obtain rfl := Running.thread.inj (here.symm.trans place)
      simp [State.run]
    · rw [there same] at place
      simp only [State.run, update_of_ne same]
      exact inv.back c' q place
  · intro c' c'' q place place'
    by_cases same : c' = c
    · grind
    · by_cases same' : c'' = c
      · grind
      · grind [inv.solo]
  · intro c' q place
    by_cases same : c' = c
    · subst same
      obtain rfl := Running.thread.inj (here.symm.trans place)
      exact state.trans resumable.state.symm
    · rw [there same] at place
      exact inv.state c' q place
  · intro c' j place
    have other : c' ≠ c := by
      rintro rfl
      rw [here] at place
      cases place
    rw [there other] at place
    obtain ⟨state', off'⟩ := inv.switching c' j place
    have different : j ≠ i := by
      rintro rfl
      have mine := (held (.proc j)).mpr (by simp)
      have theirs := (inv.held_sched place (.proc j)).mpr (by simp)
      exact other (Option.some.inj (theirs.symm.trans mine))
    refine ⟨state', ?_⟩
    intro c'' place'
    by_cases same : c'' = c
    · grind
    · rw [there same] at place'
      exact off' c'' place'
  · intro q idle waiting
    refine inv.parked q ?_ waiting
    intro c' place
    by_cases same : c' = c
    · rw [same, on] at place
      cases place
    · exact idle c' ((there same).trans place)
  · exact inv.forking
  · exact inv.spawned
  · exact inv.alone

theorem schedStep_inv (inv : Inv s) (on : s.running c = .scheduler pc) (taken : schedStep s c pc = some t) : Inv t := by
  have notThread (p : Slot) : s.running c ≠ .thread p := by simp [on]
  have held := inv.held_sched on
  cases pc with
  | acquire i =>
    simp only [schedStep] at taken
    split_ifs at taken with free
    cases taken
    apply inv.sched notThread
    · intro l
      by_cases same : l = .proc i
      · simp [same]
      · have none := held l
        simpa [same] using none
    · intro l c' other
      by_cases same : l = .proc i
      · subst same
        simp [free, other.symm]
      · simp [same]
    · intro q changed
      exact absurd rfl changed
    · intro j
      simp
  | test i =>
    simp only [schedStep] at taken
    split_ifs at taken with runnable
    · cases taken
      have lockHeld : s.lock (.proc i) = some c := (held _).mpr (by simp)
      have off := inv.off_cpu lockHeld (notThread i) (by simp [runnable])
      have mine (l : Lock) : s.lock l = some c ↔ l ∈ (SchedPc.switch i).locks := held l
      apply inv.sched notThread mine (fun _ _ _ => Iff.rfl)
      · grind
      · grind
    · cases taken
      have mine (l : Lock) : s.lock l = some c ↔ l ∈ (SchedPc.release i).locks := held l
      exact inv.sched notThread mine (fun _ _ _ => Iff.rfl) (fun q changed => absurd rfl changed) (by simp)
  | switch i =>
    cases taken
    exact inv.switch_to on
  | release i =>
    cases taken
    have lockHeld : s.lock (.proc i) = some c := (held _).mpr (by simp)
    apply inv.sched notThread
    · intro l
      by_cases same : l = .proc i
      · simp [same]
      · have none := held l
        simpa [same] using none
    · intro l c' other
      by_cases same : l = .proc i
      · subst same
        simp [lockHeld, other.symm]
      · simp [same]
    · intro q changed
      exact absurd rfl changed
    · intro j
      simp

theorem step_inv {e : Cpu × Choice} (taken : step s e = some t) (inv : Inv s) : Inv t := by
  unfold step at taken
  cases place : s.running e.1 with
  | scheduler pc =>
    simp only [place] at taken
    exact schedStep_inv inv place taken
  | thread p =>
    simp only [place] at taken
    obtain ⟨instr, found, executed⟩ := Option.bind_eq_some_iff.mp taken
    obtain ⟨typed, proper⟩ := fetch_typed (inv.proper p) found
    exact execute_inv inv place typed proper executed

/-! ## One CPU for each process -/

def Reaping (s : State Cpu) (c : Cpu) (p np : Slot) : Prop :=
  s.running c = .thread p ∧ s.pc p = .waitTest np ∧ (s.proc np).state = .zombie

theorem one_cpu {cond : Nat → Bool} {es : List (Cpu × Choice)} (reached : run step (initial cond) es = some s) :
    (∀ c c' p, s.running c = .thread p → s.running c' = .thread p → c = c') ∧
    (∀ p, (s.proc p).state = .runnable → s.lock (.proc p) = none → ∀ c, s.running c ≠ .thread p) ∧
    ∀ c p np, Reaping s c p np → ∀ c', s.running c' ≠ .thread np := by
  have inv : Inv s := run_inductive (fun _ _ _ => step_inv) (initial_inv cond) reached
  refine ⟨inv.solo, ?_, ?_⟩
  · intro p runnable free c on
    have away : expected (s.pc p) ≠ .running := by
      rw [← inv.state c p on, runnable]
      simp
    have held := (inv.lock (.proc p) c).mpr (by
      rw [held_thread on]
      exact expected_away away)
    rw [free] at held
    cases held
  · rintro c p np ⟨on, place, zombie⟩
    have held : s.lock (.proc np) = some c := by
      rw [inv.lock, held_thread on, place]
      simp [locks]
    have elsewhere : s.running c ≠ .thread np := by
      intro same
      obtain rfl := Running.thread.inj (on.symm.trans same)
      have state := inv.state c p on
      rw [place, zombie] at state
      cases state
    exact inv.off_cpu held elsewhere (by simp [zombie])

end

-- The first CPU runs init, which forks; the second one then runs the child.
def twoCpus : List (Fin 2 × Choice) :=
  List.replicate 4 (0, .go true) ++ [(0, .call .fork)] ++ List.replicate 13 (0, .go true) ++
    List.replicate 6 (1, .go true)

theorem one_cpu_twoCpus : ∃ s : State (Fin 2), run step (initial fun _ => false) twoCpus = some s ∧
    s.running 0 = .thread 0 ∧ s.running 1 = .thread 1 ∧
    ∀ c c' p, s.running c = .thread p → s.running c' = .thread p → c = c' := by
  refine exists_some_of (fun s => s.running 0 = .thread 0 ∧ s.running 1 = .thread 1) (by decide +kernel)
    fun s reached ⟨first, second⟩ => ?_
  exact ⟨first, second, (one_cpu reached).1⟩

end Xv6.Scheduler
