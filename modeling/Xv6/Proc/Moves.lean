import Xv6.Proc.Kill

namespace Xv6.ProcTable
open Lib Function

attribute [local simp] freeproc State.goto State.set

/-! ## The life of a slot

What the steps of the process table do to the parents, the pids and the exit statuses. A process
that sleeps, is runnable or runs is alive. -/

inductive Phase where
  | unused | used | alive | zombie
  deriving DecidableEq

def ProcState.phase : ProcState → Phase
  | .unused => .unused
  | .used => .used
  | .sleeping | .runnable | .running => .alive
  | .zombie => .zombie

inductive Task where
  | adopt (np : Slot)
  | start (np : Slot)
  | exiting (status : Int)

def Pc.task : Pc → Option Task
  | .adopt np => some (.adopt np)
  | .start np => some (.start np)
  | .exiting status => some (.exiting status)
  | .outside | .allocproc _ | .waiting _ _ | .rewait | .killing _ _ | .asleep _ => none

namespace State

def phase (s : State) (p : Slot) : Phase := (s.proc p).state.phase

def task (s : State) (p : Slot) : Option Task := (s.pc p).task

end State

inductive Entry where
  | forked (np : Slot) (pid : BitVec 32)
  | exited (p : Slot) (status : Int)
  | waited (p np : Slot)

def allocEntry (s : State) (i : Nat) : Option Entry :=
  if below : i < NPROC then
    if (s.proc ⟨i, below⟩).state = .unused then some (.forked ⟨i, below⟩ s.nextpid) else none
  else none

def waitEntry (s : State) (p : Slot) (i : Nat) : Option Entry :=
  if below : i < NPROC then
    if (s.proc ⟨i, below⟩).parent = some p ∧ (s.proc ⟨i, below⟩).state = .zombie then
      some (.waited p ⟨i, below⟩)
    else none
  else none

def entry (s : State) : Event → Option Entry
  | .exit p status => some (.exited p status)
  | .next p ok =>
    if ok then
      match s.pc p with
      | .allocproc i => allocEntry s i
      | .waiting i _ => waitEntry s p i
      | _ => none
    else none
  | _ => none

attribute [local simp] entry

structure Same (s t : State) (q : Slot) : Prop where
  phase : t.phase q = s.phase q
  parent : (t.proc q).parent = (s.proc q).parent
  pid : (t.proc q).pid = (s.proc q).pid
  xstate : (t.proc q).xstate = (s.proc q).xstate

inductive Move (s t : State) : Event → Prop where
  | quiet (e : Event) (silent : entry s e = none) (slots : ∀ q, Same s t q)
      (tasks : ∀ q, t.task q = s.task q) : Move s t e
  | allocated (p np : Slot) (i : Nat) (place : s.pc p = .allocproc i) (slot : np.val = i)
      (live : s.phase p = .alive) (before : (s.proc np).state = .unused)
      (after : (t.proc np).state = .used) (parent : (t.proc np).parent = (s.proc np).parent)
      (pid : (t.proc np).pid = s.nextpid) (slots : ∀ q, q ≠ np → Same s t q) (fresh : t.task np = none)
      (task : t.task p = some (.adopt np)) (tasks : ∀ q, q ≠ p → q ≠ np → t.task q = s.task q) :
      Move s t (.next p true)
  | allocFailed (p np : Slot) (i : Nat) (place : s.pc p = .allocproc i) (slot : np.val = i)
      (before : (s.proc np).state = .unused) (after : (t.proc np).state = .unused)
      (parent : (t.proc np).parent = none) (slots : ∀ q, q ≠ np → Same s t q)
      (tasks : ∀ q, t.task q = s.task q) : Move s t (.next p false)
  | adopted (p np : Slot) (ok : Bool) (place : s.pc p = .adopt np) (parent : (t.proc np).parent = some p)
      (phase : t.phase np = s.phase np) (pid : (t.proc np).pid = (s.proc np).pid)
      (xstate : (t.proc np).xstate = (s.proc np).xstate) (slots : ∀ q, q ≠ np → Same s t q)
      (task : t.task p = some (.start np)) (tasks : ∀ q, q ≠ p → t.task q = s.task q) : Move s t (.next p ok)
  | started (p np : Slot) (ok : Bool) (place : s.pc p = .start np) (after : t.phase np = .alive)
      (parent : (t.proc np).parent = (s.proc np).parent) (pid : (t.proc np).pid = (s.proc np).pid)
      (slots : ∀ q, q ≠ np → Same s t q) (task : t.task p = none)
      (tasks : ∀ q, q ≠ p → t.task q = s.task q) : Move s t (.next p ok)
  | exits (p : Slot) (status : Int) (place : s.pc p = .outside) (other : p ≠ initproc)
      (live : s.phase p = .alive) (phases : ∀ q, t.phase q = s.phase q)
      (parents : ∀ q, (t.proc q).parent = if (s.proc q).parent = some p then some initproc else (s.proc q).parent)
      (pids : ∀ q, (t.proc q).pid = (s.proc q).pid) (xstates : ∀ q, (t.proc q).xstate = (s.proc q).xstate)
      (task : t.task p = some (.exiting status)) (tasks : ∀ q, q ≠ p → t.task q = s.task q) :
      Move s t (.exit p status)
  | dies (p : Slot) (ok : Bool) (status : Int) (place : s.pc p = .exiting status) (live : s.phase p = .alive)
      (after : t.phase p = .zombie) (parent : (t.proc p).parent = (s.proc p).parent)
      (pid : (t.proc p).pid = (s.proc p).pid) (xstate : (t.proc p).xstate = status)
      (slots : ∀ q, q ≠ p → Same s t q) (tasks : ∀ q, t.task q = s.task q) : Move s t (.next p ok)
  | reaped (p np : Slot) (i : Nat) (havekids : Bool) (place : s.pc p = .waiting i havekids) (slot : np.val = i)
      (child : (s.proc np).parent = some p) (before : (s.proc np).state = .zombie)
      (after : (t.proc np).state = .unused) (parent : (t.proc np).parent = none)
      (slots : ∀ q, q ≠ np → Same s t q) (tasks : ∀ q, t.task q = s.task q) : Move s t (.next p true)

section
variable {s t : State} {p q np : Slot} {v : Proc} {c : Pc} {ok : Bool} {i : Nat} {e : Event}

theorem Same.of_eq (same : t.proc q = s.proc q) : Same s t q :=
  ⟨by rw [State.phase, State.phase, same], by rw [same], by rw [same], by rw [same]⟩

theorem Same.elsewhere (put : t.proc = update s.proc np v) (q : Slot) (other : q ≠ np) : Same s t q :=
  .of_eq (by rw [put, update_of_ne other])

theorem task_goto_self : (s.goto p c).task p = c.task := congrArg Pc.task (update_self ..)

theorem task_goto_of_ne (q : Slot) (other : q ≠ p) : (s.goto p c).task q = s.task q :=
  congrArg Pc.task (update_of_ne other ..)

theorem task_goto (moved : c.task = s.task p) (q : Slot) : (s.goto p c).task q = s.task q := by
  by_cases same : q = p
  · rw [same, task_goto_self, moved]
  · exact task_goto_of_ne q same

theorem Move.quiet_goto (silent : entry s e = none) (moved : c.task = s.task p) : Move s (s.goto p c) e :=
  .quiet e silent (fun _ => Same.of_eq rfl) (task_goto moved)

theorem Move.quiet_put (silent : entry s e = none) (put : t.proc = update s.proc p v)
    (phase : v.state.phase = s.phase p) (kept : v.parent = (s.proc p).parent ∧ v.pid = (s.proc p).pid ∧
    v.xstate = (s.proc p).xstate)
    (tasks : ∀ q, t.task q = s.task q) : Move s t e := by
  refine .quiet e silent (fun q => ?_) tasks
  by_cases same : q = p
  · have new : t.proc q = v := by rw [put, same, update_self]
    rw [same] at new ⊢
    exact ⟨by rw [State.phase, new, phase], by rw [new, kept.1], by rw [new, kept.2.1], by rw [new, kept.2.2]⟩
  · exact .elsewhere put q same

theorem phase_of {state : ProcState} (is : (s.proc p).state = state) : s.phase p = state.phase := congrArg ProcState.phase is

theorem task_of (place : s.pc p = c) : s.task p = c.task := congrArg Pc.task place

/-! ## One lemma for each critical section -/

theorem allocSlot_move (running : (s.proc p).state = .running) (place : s.pc p = .allocproc i) :
    Move s (allocSlot s p i ok) (.next p ok) := by
  have task := task_of place
  simp only [allocSlot]
  split_ifs with below unused granted
  · have other : p ≠ ⟨i, below⟩ := by
      rintro rfl
      rw [running] at unused
      cases unused
    subst granted
    refine .allocated p ⟨i, below⟩ i place rfl (phase_of running) unused ?_ ?_ ?_ (Same.elsewhere rfl) ?_ task_goto_self ?_
    · simp [State.blame]
    · simp [State.blame]
    · simp [State.blame]
    · rw [task_goto_of_ne _ other.symm, task_goto_self]
      rfl
    · intro q notP notNp
      rw [task_goto_of_ne q notP, task_goto_of_ne q notNp]
      rfl
  · obtain rfl : ok = false := by simpa using granted
    refine .allocFailed p ⟨i, below⟩ i place rfl unused ?_ ?_ (Same.elsewhere rfl) (task_goto (s := s) task.symm)
    · simp
    · simp
  · exact .quiet_goto (by simp [place, allocEntry, unused]) task.symm
  · exact .quiet_goto (by simp [place, allocEntry, below]) task.symm

theorem waitSlot_move {havekids : Bool} (running : (s.proc p).state = .running) (place : s.pc p = .waiting i havekids) :
    Move s (waitSlot s p i havekids ok) (.next p ok) := by
  have task := task_of place
  simp only [waitSlot]
  split_ifs with below child zombie copied
  · subst copied
    refine .reaped p ⟨i, below⟩ i havekids place rfl child zombie ?_ ?_ (Same.elsewhere rfl) (task_goto (s := s) task.symm)
    · simp
    · simp
  · exact .quiet _ (by simp [copied]) (fun _ => .of_eq rfl) (task_goto (s := s) task.symm)
  · exact .quiet_goto (by simp [place, waitEntry, zombie]) task.symm
  · exact .quiet_goto (by simp [place, waitEntry, child]) task.symm
  · exact .quiet _ (by simp [place, waitEntry, below]) (fun _ => .of_eq rfl) (task_goto (s := s) task.symm)
  · exact .quiet_put (by simp [place, waitEntry, below]) rfl (phase_of running).symm ⟨rfl, rfl, rfl⟩
      (task_goto (s := s) task.symm)

theorem killSlot_move {pid : BitVec 32} (place : s.pc p = .killing pid i) : Move s (killSlot s p pid i) (.next p ok) := by
  have task := task_of place
  have silent : entry s (.next p ok) = none := by simp [place]
  simp only [killSlot]
  split_ifs with below same sleeping
  · exact .quiet_put silent rfl (phase_of sleeping).symm ⟨rfl, rfl, rfl⟩ (task_goto (s := s) task.symm)
  · exact .quiet_put silent rfl rfl ⟨rfl, rfl, rfl⟩ (task_goto (s := s) task.symm)
  · exact .quiet_goto silent task.symm
  · exact .quiet_goto silent task.symm

theorem nextSection_move (running : (s.proc p).state = .running) (taken : nextSection s p ok = some t) :
    Move s t (.next p ok) := by
  unfold nextSection at taken
  cases place : s.pc p with
  | outside | asleep inWait => simp [place] at taken
  | allocproc i => grind [allocSlot_move]
  | adopt np =>
    simp only [place] at taken
    split_ifs at taken
    cases taken
    refine .adopted p np ok place ?_ ?_ ?_ ?_ (Same.elsewhere rfl) task_goto_self (task_goto_of_ne (s := s))
    · simp
    · simp [State.phase]
    · simp
    · simp
  | start np =>
    simp only [place, Option.some.injEq] at taken
    subst taken
    refine .started p np ok place ?_ ?_ ?_ (Same.elsewhere rfl) task_goto_self (task_goto_of_ne (s := s))
    · simp [State.phase, ProcState.phase]
    · simp
    · simp
  | exiting status =>
    simp only [place, Option.some.injEq] at taken
    subst taken
    refine .dies p ok status place (phase_of running) ?_ ?_ ?_ ?_ (Same.elsewhere rfl) fun _ => rfl
    · simp [State.phase, ProcState.phase]
    · simp
    · simp
    · simp
  | waiting i havekids => grind [waitSlot_move]
  | rewait =>
    simp only [place] at taken
    split_ifs at taken
    cases taken
    exact .quiet _ (by simp [place]) (fun _ => .of_eq rfl) (task_goto (s := s) (task_of place).symm)
  | killing pid i => grind [killSlot_move]

theorem wakeupSlot_move {chan : Chan} : Move s (wakeupSlot s chan q) (.wakeup chan q) := by
  unfold wakeupSlot
  split_ifs with asleep
  · exact .quiet_put rfl rfl (phase_of asleep.1).symm ⟨rfl, rfl, rfl⟩ fun _ => rfl
  · exact .quiet _ rfl (fun _ => .of_eq rfl) fun _ => rfl

theorem schedule_move (runnable : (s.proc p).state = .runnable) : Move s (schedule s p) (.schedule p) := by
  unfold schedule
  cases place : s.pc p with
  | asleep inWait =>
    refine .quiet_put rfl rfl (phase_of runnable).symm ⟨rfl, rfl, rfl⟩ (task_goto (s := s) ?_)
    rw [task_of place]
    cases inWait <;> rfl
  | _ => exact .quiet_put rfl rfl (phase_of runnable).symm ⟨rfl, rfl, rfl⟩ fun _ => rfl

theorem step_move (taken : step s e = some t) : Move s t e := by
  cases e with
  | fork p | kill p pid =>
    obtain ⟨-, place, ⟨⟩⟩ := enter_eq_some taken
    exact .quiet_goto rfl (task_of place).symm
  | exit p status =>
    simp only [step] at taken
    split_ifs at taken with allowed
    obtain ⟨running, place, ⟨⟩⟩ := enter_eq_some taken
    have kept (q : Slot) : ((reparent { s with waitLock := some p } p).proc q).state = (s.proc q).state ∧
        ((reparent { s with waitLock := some p } p).proc q).pid = (s.proc q).pid ∧
        ((reparent { s with waitLock := some p } p).proc q).xstate = (s.proc q).xstate := by grind [reparent]
    refine .exits p status place allowed.1 (phase_of running) (fun q => phase_of (kept q).1) ?_ (fun q => (kept q).2.1)
      (fun q => (kept q).2.2) task_goto_self (task_goto_of_ne (s := s))
    intro q
    simp only [State.goto, reparent]
    split_ifs <;> rfl
  | wait p =>
    simp only [step] at taken
    split_ifs at taken
    obtain ⟨-, place, ⟨⟩⟩ := enter_eq_some taken
    exact .quiet _ rfl (fun _ => .of_eq rfl) (task_goto (s := s) (task_of place).symm)
  | sleep p chan =>
    obtain ⟨running, place, ⟨⟩⟩ := enter_eq_some taken
    exact .quiet_put rfl rfl (phase_of running).symm ⟨rfl, rfl, rfl⟩ (task_goto (s := s) (task_of place).symm)
  | next p ok => grind [step, nextSection_move]
  | trap p =>
    obtain ⟨-, -, ⟨⟩⟩ := enter_eq_some taken
    exact .quiet_put rfl rfl rfl ⟨rfl, rfl, rfl⟩ fun _ => rfl
  | wakeup chan i =>
    cases taken
    exact wakeupSlot_move
  | yield p =>
    simp only [step] at taken
    split_ifs at taken with allowed
    cases taken
    exact .quiet_put rfl rfl (phase_of allowed.1).symm ⟨rfl, rfl, rfl⟩ fun _ => rfl
  | schedule i => grind [step, schedule_move]

end

end Xv6.ProcTable
