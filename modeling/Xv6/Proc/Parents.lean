import Xv6.Proc.Moves

namespace Xv6.ProcTable
open Lib

/-! ## Parents -/

def Fits (s : State) (p : Slot) : Task → Prop
  | .adopt np => s.phase p = .alive ∧ s.phase np = .used
  | .start np => s.phase p = .alive ∧ s.phase np = .used ∧ (s.proc np).parent = some p
  | .exiting _ => p ≠ initproc ∧ ∀ c, (s.proc c).parent ≠ some p

def Task.child : Task → Option Slot
  | .adopt np | .start np => some np
  | .exiting _ => none

structure Family (s : State) : Prop where
  unused : ∀ c, s.phase c = .unused → (s.proc c).parent = none
  parents : ∀ c q, (s.proc c).parent = some q → s.phase q = .alive
  orphans : ∀ c, c ≠ initproc → s.phase c = .alive ∨ s.phase c = .zombie → (s.proc c).parent ≠ none
  init : s.phase initproc = .alive
  tasks : ∀ p task, s.task p = some task → Fits s p task
  alone : ∀ p q task task' np, s.task p = some task → s.task q = some task' →
    task.child = some np → task'.child = some np → p = q

section
variable {s t : State} {p q np : Slot} {task : Task}

theorem phase_eq_unused : s.phase p = .unused ↔ (s.proc p).state = .unused := by
  unfold State.phase
  cases (s.proc p).state <;> simp [ProcState.phase]

theorem Fits.used (fits : Fits s p task) (child : task.child = some np) : s.phase p = .alive ∧ s.phase np = .used := by
  cases task with
  | adopt np' =>
    obtain rfl : np' = np := Option.some.inj child
    exact fits
  | start np' =>
    obtain rfl : np' = np := Option.some.inj child
    exact ⟨fits.1, fits.2.1⟩
  | exiting status => cases child

theorem Fits.keep (fits : Fits s p task)
    (forks : ∀ np, task.child = some np →
      t.phase p = s.phase p ∧ t.phase np = s.phase np ∧ (t.proc np).parent = (s.proc np).parent)
    (childless : ∀ c, (t.proc c).parent = some p → task.child = none → (s.proc c).parent = some p) : Fits t p task := by
  cases task with
  | adopt np =>
    obtain ⟨self, phase, -⟩ := forks np rfl
    exact ⟨self.trans fits.1, phase.trans fits.2⟩
  | start np =>
    obtain ⟨self, phase, parent⟩ := forks np rfl
    exact ⟨self.trans fits.1, phase.trans fits.2.1, parent.trans fits.2.2⟩
  | exiting status => exact ⟨fits.1, fun c child => fits.2 c (childless c child rfl)⟩

section

variable (family : Family s)

include family

theorem Family.quiet (slots : ∀ q, Same s t q) (tasks : ∀ q, t.task q = s.task q) : Family t where
  unused c := by
    rw [(slots c).phase, (slots c).parent]
    exact family.unused c
  parents c q := by
    rw [(slots c).parent, (slots q).phase]
    exact family.parents c q
  orphans c := by
    rw [(slots c).parent, (slots c).phase]
    exact family.orphans c
  init := by
    rw [(slots _).phase]
    exact family.init
  tasks p task found :=
    (family.tasks p task (tasks p ▸ found)).keep (fun np _ => ⟨(slots p).phase, (slots np).phase, (slots np).parent⟩)
      fun c child _ => (slots c).parent ▸ child
  alone p q task task' np := by
    rw [tasks p, tasks q]
    exact family.alone p q task task' np

theorem Family.fits_of {x : Slot} (slots : ∀ q, q ≠ x → Same s t q) (found : s.task p = some task)
    (notP : s.phase x ≠ .alive) (notChild : task.child ≠ some x) (parent : ∀ q, (t.proc x).parent = some q → q ≠ p) :
    Fits t p task := by
  have fits := family.tasks p task found
  refine fits.keep (fun np child => ?_) fun c child _ => ?_
  · have self : p ≠ x := by
      rintro rfl
      exact notP (fits.used child).1
    have other : np ≠ x := by
      rintro rfl
      exact notChild child
    exact ⟨(slots p self).phase, (slots np other).phase, (slots np other).parent⟩
  · by_cases same : c = x
    · exact absurd rfl (parent p (same ▸ child))
    · exact (slots c same).parent ▸ child

/-- Only slot `x` changes; a process that stops living there is not init and has no children. -/
theorem Family.except {x : Slot} (slots : ∀ q, q ≠ x → Same s t q)
    (unused : t.phase x = .unused → (t.proc x).parent = none)
    (mother : ∀ q, (t.proc x).parent = some q → s.phase q = .alive)
    (stays : s.phase x = .alive → t.phase x = .alive ∨ x ≠ initproc ∧ ∀ c, (t.proc c).parent ≠ some x)
    (orphan : x ≠ initproc → t.phase x = .alive ∨ t.phase x = .zombie → (t.proc x).parent ≠ none)
    (tasks : ∀ q task, t.task q = some task → Fits t q task)
    (alone : ∀ p q task task' np, t.task p = some task → t.task q = some task' → task.child = some np →
      task'.child = some np → p = q) : Family t := by
  have kept {q : Slot} (alive : s.phase q = .alive) :
      t.phase q = .alive ∨ q ≠ initproc ∧ ∀ c, (t.proc c).parent ≠ some q := by
    by_cases same : q = x
    · exact same ▸ stays (same ▸ alive)
    · exact .inl ((slots q same).phase.trans alive)
  refine ⟨fun c free => ?_, fun c q child => ?_, fun c other phase => ?_, ?_, tasks, alone⟩
  · by_cases same : c = x
    · exact same ▸ unused (same ▸ free)
    · rw [(slots c same).parent]
      exact family.unused c ((slots c same).phase ▸ free)
  · have alive : s.phase q = .alive := by
      by_cases same : c = x
      · exact mother q (same ▸ child)
      · exact family.parents c q ((slots c same).parent ▸ child)
    exact (kept alive).resolve_right fun none => none.2 c child
  · by_cases same : c = x
    · exact same ▸ orphan (same ▸ other) (same ▸ phase)
    · rw [(slots c same).parent]
      exact family.orphans c other ((slots c same).phase ▸ phase)
  · exact (kept family.init).resolve_right fun none => none.1 rfl

/-! ## One lemma for each move that matters -/

theorem Family.allocated (live : s.phase p = .alive) (before : s.phase np = .unused)
    (after : t.phase np = .used) (parent : (t.proc np).parent = (s.proc np).parent) (slots : ∀ q, q ≠ np → Same s t q)
    (fresh : t.task np = none) (task : t.task p = some (.adopt np)) (tasks : ∀ q, q ≠ p → q ≠ np → t.task q = s.task q) :
    Family t := by
  have bare : (t.proc np).parent = none := by rw [parent, family.unused np before]
  have old {q : Slot} {other : Task} (found : t.task q = some other) (notP : q ≠ p) : s.task q = some other := by
    grind
  have notChild {q : Slot} {other : Task} (found : s.task q = some other) : other.child ≠ some np := by
    intro child
    have used := ((family.tasks q other found).used child).2
    rw [before] at used
    cases used
  refine family.except slots (by simp [after]) (by simp [bare]) (by simp [before]) (by simp [after]) ?_ ?_
  · intro q other found
    by_cases same : q = p
    · subst same
      obtain rfl := Option.some.inj (task.symm.trans found)
      have apart : q ≠ np := by
        rintro rfl
        rw [live] at before
        cases before
      exact ⟨(slots q apart).phase.trans live, after⟩
    · grind [family.fits_of]
  · intro q q' other other' c found found' child child'
    by_cases same : q = p
    · by_cases same' : q' = p
      · rw [same, same']
      · subst same
        obtain rfl := Option.some.inj (task.symm.trans found)
        exact absurd (child'.trans child.symm) (notChild (old found' same'))
    · by_cases same' : q' = p
      · subst same'
        obtain rfl := Option.some.inj (task.symm.trans found')
        exact absurd (child.trans child'.symm) (notChild (old found same))
      · exact family.alone q q' other other' c (old found same) (old found' same') child child'

theorem Family.freed (before : s.phase np = .unused ∨ s.phase np = .zombie)
    (after : t.phase np = .unused) (parent : (t.proc np).parent = none) (slots : ∀ q, q ≠ np → Same s t q)
    (tasks : ∀ q, t.task q = s.task q) : Family t := by
  have notAlive : s.phase np ≠ .alive := by rcases before with h | h <;> simp [h]
  refine family.except slots (fun _ => parent) (by simp [parent]) (absurd · notAlive) (by simp [after]) ?_ ?_
  · intro q task found
    rw [tasks q] at found
    apply family.fits_of slots found notAlive
    · intro child
      have used := ((family.tasks q task found).used child).2
      rcases before with h | h <;> simp [h] at used
    · simp [parent]
  · grind [family.alone]

theorem Family.adopted (place : s.task p = some (.adopt np)) (parent : (t.proc np).parent = some p)
    (phase : t.phase np = s.phase np) (slots : ∀ q, q ≠ np → Same s t q) (task : t.task p = some (.start np))
    (tasks : ∀ q, q ≠ p → t.task q = s.task q) : Family t := by
  obtain ⟨live, used⟩ := family.tasks p _ place
  have apart : p ≠ np := by
    rintro rfl
    rw [live] at used
    cases used
  rw [used] at phase
  refine family.except slots (by simp [phase]) (by simp [parent, live]) (by simp [used]) (by simp [phase]) ?_ ?_
  · intro q task' found
    by_cases same : q = p
    · subst same
      obtain rfl := Option.some.inj (task.symm.trans found)
      exact ⟨(slots q apart).phase.trans live, phase, parent⟩
    · rw [tasks q same] at found
      apply family.fits_of slots found (by simp [used])
      · intro child
        exact same (family.alone q p _ _ np found place child rfl)
      · grind
  · have old {q c : Slot} {task' : Task} (found : t.task q = some task') (child : task'.child = some c) :
        ∃ before, s.task q = some before ∧ before.child = some c := by
      by_cases same : q = p
      · subst same
        obtain rfl := Option.some.inj (task.symm.trans found)
        exact ⟨_, place, child⟩
      · exact ⟨task', tasks q same ▸ found, child⟩
    intro q q' task' task'' c found found' child child'
    obtain ⟨_, found, child⟩ := old found child
    obtain ⟨_, found', child'⟩ := old found' child'
    exact family.alone q q' _ _ c found found' child child'

theorem Family.started (place : s.task p = some (.start np)) (after : t.phase np = .alive)
    (parent : (t.proc np).parent = (s.proc np).parent) (slots : ∀ q, q ≠ np → Same s t q) (task : t.task p = none)
    (tasks : ∀ q, q ≠ p → t.task q = s.task q) : Family t := by
  obtain ⟨live, used, mother⟩ := family.tasks p _ place
  rw [mother] at parent
  have old {q : Slot} {other : Task} (found : t.task q = some other) : q ≠ p ∧ s.task q = some other := by
    grind
  refine family.except slots (by simp [after]) (by simp [parent, live]) (fun _ => .inl after) (by simp [parent]) ?_ ?_
  · intro q other found
    obtain ⟨notP, found'⟩ := old found
    apply family.fits_of slots found' (by simp [used])
    · intro child
      exact notP (family.alone q p _ _ np found' place child rfl)
    · grind
  · grind [family.alone]

variable {status : Int}

theorem Family.exits (notInit : p ≠ initproc) (phases : ∀ q, t.phase q = s.phase q)
    (parents : ∀ q, (t.proc q).parent = if (s.proc q).parent = some p then some initproc else (s.proc q).parent)
    (idle : s.task p = none) (task : t.task p = some (.exiting status)) (tasks : ∀ q, q ≠ p → t.task q = s.task q) :
    Family t := by
  have old {q : Slot} {other : Task} (found : t.task q = some other) (notP : q ≠ p) : s.task q = some other := by
    rw [← tasks q notP, found]
  constructor
  · grind [family.unused]
  · grind [family.init, family.parents]
  · grind [family.orphans]
  · rw [phases]
    exact family.init
  · intro q other found
    by_cases same : q = p
    · subst same
      obtain rfl := Option.some.inj (task.symm.trans found)
      refine ⟨notInit, ?_⟩
      intro c child
      rw [parents] at child
      split_ifs at child with mine
      · exact notInit (Option.some.inj child).symm
      · exact mine child
    · have fits := family.tasks q other (old found same)
      cases other with
      | adopt np => simpa only [Fits, phases] using fits
      | start np => grind [Fits]
      | exiting status' =>
        refine ⟨fits.1, ?_⟩
        intro c child
        rw [parents] at child
        split_ifs at child
        · exact fits.1 (Option.some.inj child).symm
        · exact fits.2 c child
  · intro q q' other other' c found found' child child'
    have forks {r : Slot} {task' : Task} (found : t.task r = some task') (child : task'.child = some c) : r ≠ p := by
      rintro rfl
      obtain rfl := Option.some.inj (task.symm.trans found)
      cases child
    exact family.alone q q' _ _ c (old found (forks found child)) (old found' (forks found' child')) child child'

theorem Family.dies (place : s.task p = some (.exiting status))
    (live : s.phase p = .alive) (after : t.phase p = .zombie) (parent : (t.proc p).parent = (s.proc p).parent)
    (slots : ∀ q, q ≠ p → Same s t q) (tasks : ∀ q, t.task q = s.task q) : Family t := by
  obtain ⟨notInit, childless⟩ := family.tasks p _ place
  have parents (q : Slot) : (t.proc q).parent = (s.proc q).parent := by
    by_cases same : q = p
    · rw [same, parent]
    · exact (slots q same).parent
  refine family.except slots (by simp [after]) (fun q child => family.parents p q (parent ▸ child))
    (fun _ => .inr ⟨notInit, fun c => parents c ▸ childless c⟩) (fun other _ => parent ▸ family.orphans p other (.inl live)) ?_ ?_
  · intro q other found
    rw [tasks q] at found
    have fits := family.tasks q other found
    refine fits.keep (fun np child => ?_) fun c child _ => parents c ▸ child
    have self : q ≠ p := by
      rintro rfl
      obtain rfl := Option.some.inj (place.symm.trans found)
      cases child
    have apart : np ≠ p := by grind [fits.used]
    exact ⟨(slots q self).phase, (slots np apart).phase, parents np⟩
  · grind [family.alone]

end

theorem step_family {e : Event} (taken : step s e = some t) (family : Family s) : Family t := by
  cases step_move taken with
  | quiet e silent slots tasks => exact family.quiet slots tasks
  | allocated p np i place slot live before after parent pid slots fresh task tasks =>
    exact family.allocated live (phase_of before) (phase_of after) parent slots fresh task tasks
  | allocFailed p np i place slot before after parent slots tasks =>
    exact family.freed (.inl (phase_of before)) (phase_of after) parent slots tasks
  | adopted p np ok place parent phase pid xstate slots task tasks =>
    exact family.adopted (task_of place) parent phase slots task tasks
  | started p np ok place after parent pid slots task tasks =>
    exact family.started (task_of place) after parent slots task tasks
  | exits p status place other live phases parents pids xstates task tasks =>
    exact family.exits other phases parents (task_of place) task tasks
  | dies p ok status place live after parent pid xstate slots tasks =>
    exact family.dies (task_of place) live after parent slots tasks
  | reaped p np i havekids place slot child before after parent slots tasks =>
    exact family.freed (.inr (phase_of before)) (phase_of after) parent slots tasks

theorem initial_family : Family initial := by
  have phase (c : Slot) : initial.phase c = if c = initproc then .alive else .unused := by
    simp only [State.phase, initial]
    split_ifs <;> rfl
  have parent (c : Slot) : (initial.proc c).parent = none := by
    simp only [initial]
    split_ifs <;> rfl
  have idle (c : Slot) : initial.task c = none := rfl
  constructor
  · intro c _
    exact parent c
  · intro c q child
    rw [parent] at child
    cases child
  · intro c other
    simp [phase, other]
  · simp [phase]
  · intro p task found
    cases found
  · grind

/-! ## No zombie without a living parent -/

theorem living_parents {es : List Event} (reached : run step initial es = some s) :
    (∀ p, p ≠ initproc →
      (s.proc p).state = .sleeping ∨ (s.proc p).state = .runnable ∨ (s.proc p).state = .running ∨
        (s.proc p).state = .zombie →
      ∃ q, (s.proc p).parent = some q ∧ (s.proc q).state ≠ .unused ∧ (s.proc q).state ≠ .zombie) ∧
    ∀ p, (s.proc p).state = .unused → (s.proc p).parent = none := by
  have family : Family s := run_inductive (fun _ _ _ => step_family) initial_family reached
  refine ⟨?_, fun p unused => family.unused p (phase_eq_unused.mpr unused)⟩
  intro p other states
  have phase : s.phase p = .alive ∨ s.phase p = .zombie := by grind [State.phase, ProcState.phase]
  obtain ⟨q, parent⟩ := Option.ne_none_iff_exists'.mp (family.orphans p other phase)
  have alive := family.parents p q parent
  refine ⟨q, parent, ?_, ?_⟩
  · intro unused
    simp [State.phase, unused, ProcState.phase] at alive
  · intro zombie
    simp [State.phase, zombie, ProcState.phase] at alive

end

-- init's child forks and exits; its own child is then a child of init.
def forkForkExit : List Event :=
  [.schedule 0, .fork 0, .next 0 true, .next 0 true, .next 0 true, .next 0 true, .schedule 1,
    .fork 1, .next 1 true, .next 1 true, .next 1 true, .next 1 true, .next 1 true, .exit 1 7, .next 1 true]

theorem living_parents_forkForkExit : ∃ s, run step initial forkForkExit = some s ∧
    (s.proc 1).state = .zombie ∧ (s.proc 2).parent = some 0 ∧
    ∃ q, (s.proc 1).parent = some q ∧ (s.proc q).state ≠ .unused ∧ (s.proc q).state ≠ .zombie := by
  refine exists_some_of (fun s => (s.proc 1).state = .zombie ∧ (s.proc 2).parent = some 0) (by decide +kernel)
    fun s reached ⟨zombie, adopted⟩ => ⟨zombie, adopted, ?_⟩
  exact (living_parents reached).1 1 (by decide) (.inr (.inr (.inr zombie)))

end Xv6.ProcTable
