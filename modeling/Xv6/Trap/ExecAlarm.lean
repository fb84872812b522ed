import Xv6.Trap.Alarm

namespace Xv6.Trap
open Lib

/-! ## The alarm fields that `exec` should leave as in a new process -/

structure AlarmFields where
  alarmInterval : Int
  alarmHandler : Word
  ticksSinceAlarm : Int
  inAlarmHandler : Bool
deriving DecidableEq

def Alarm.fields (a : Alarm) : AlarmFields :=
  ⟨a.alarmInterval, a.alarmHandler, a.ticksSinceAlarm, a.inAlarmHandler⟩

-- The last lines of allocproc().
def allocprocFields : AlarmFields := ⟨0, 0, 0, false⟩

def nextFields (s : State) (e : Event) (a : AlarmFields) : AlarmFields :=
  if TimerTick e then
    if 0 < a.alarmInterval ∧ a.inAlarmHandler = false then
      if a.alarmInterval ≤ a.ticksSinceAlarm + 1 then { a with ticksSinceAlarm := 0, inAlarmHandler := true }
      else { a with ticksSinceAlarm := a.ticksSinceAlarm + 1 }
    else a
  else if calls s e = some SYS_sigalarm then ⟨toInt32 (s.cpu.reg .a0), s.cpu.reg .a1, 0, false⟩
  else if calls s e = some SYS_sigreturn then { a with inAlarmHandler := false }
  else a

def Execs (s : State) (e : Event) : Prop :=
  calls s e = some SYS_exec ∧ match e with
    | .trap _ env => env.image.isSome
    | _ => False

instance (s : State) : (e : Event) → Decidable (Execs s e)
  | .trap _ env => inferInstanceAs (Decidable (_ ∧ env.image.isSome = true))
  | .user _ _ => isFalse And.right
  | .kill => isFalse And.right
  | .kernelTick => isFalse And.right

section
variable {k : Kernel} {s t : State} {e : Event} {a : AlarmFields}

theorem nextFields_tick (timer : TimerTick e) (a : AlarmFields) : nextFields s e a =
    if 0 < a.alarmInterval ∧ a.inAlarmHandler = false then
      if a.alarmInterval ≤ a.ticksSinceAlarm + 1 then { a with ticksSinceAlarm := 0, inAlarmHandler := true }
      else { a with ticksSinceAlarm := a.ticksSinceAlarm + 1 }
    else a := by
  rw [nextFields, if_pos timer]

theorem nextFields_calm (calm : ¬ TimerTick e) (a : AlarmFields) : nextFields s e a =
    if calls s e = some SYS_sigalarm then ⟨toInt32 (s.cpu.reg .a0), s.cpu.reg .a1, 0, false⟩
    else if calls s e = some SYS_sigreturn then { a with inAlarmHandler := false }
    else a := by
  rw [nextFields, if_neg calm]

theorem nextAlarm_fields (frame : Frame) : (nextAlarm s frame e).fields = nextFields s e s.proc.toAlarm.fields := by
  by_cases timer : TimerTick e
  · rw [nextAlarm_tick frame timer, nextFields_tick timer]
    by_cases running : s.proc.toAlarm.Running
    · by_cases late : s.proc.alarmInterval ≤ s.proc.ticksSinceAlarm + 1
      · rw [if_pos ⟨running, late⟩]
        exact ((if_pos running).trans (if_pos late)).symm
      · rw [if_neg fun due => late due.2, if_pos running]
        exact ((if_pos running).trans (if_neg late)).symm
    · rw [if_neg fun due => running due.1, if_neg running]
      exact (if_neg running).symm
  · rw [nextAlarm_calm frame timer, nextFields_calm timer]
    split_ifs <;> rfl

theorem step_fields (user : InUser k s) (taken : step k s e = some t) : t.proc.fields = nextFields s e s.proc.fields := by
  obtain ⟨frame, -, alarm⟩ := step_alarm user taken
  rw [alarm, nextAlarm_fields]

theorem Execs.calm (execs : Execs s e) : ¬ TimerTick e := by
  intro timer
  have call := execs.1
  rw [timer.silent s] at call
  cases call

theorem nextFields_exec (execs : Execs s e) (a : AlarmFields) : nextFields s e a = a := by
  rw [nextFields_calm execs.calm, execs.1]
  rfl

theorem alarmTick_due {p : Proc} (due : p.toAlarm.Due) : (alarmTick p).trapframe Frame.epc = p.alarmHandler := by
  obtain ⟨running, late⟩ := due
  have passed : 0 < p.alarmInterval ∧ p.inAlarmHandler = false := running
  simp [alarmTick, passed, late]

theorem step_delivers_pc (user : InUser k s) (delivered : Delivers s e) (taken : step k s e = some t) :
    t.context.pc = s.proc.alarmHandler := by
  obtain ⟨timer, due⟩ := delivered
  cases e with
  | user pc reg => exact timer.elim
  | kill => exact timer.elim
  | kernelTick => exact timer.elim
  | trap scause env =>
    obtain ⟨frame, p, -, handled, -, resumed, -⟩ := step_trap user taken
    have handled := usertrap_eq_ok handled
    have interrupt : devintr scause = 2 := timer
    have noCall : scause ≠ 8 := by grind [devintr_ecall]
    rw [dispatch, if_neg noCall, if_pos (by omega), if_pos interrupt] at handled
    cases handled
    rw [resumed]
    exact alarmTick_due due

end

/-! ## A process over several programs -/

/-- A process with, as history, the arguments of its last `sigalarm`, the handler of the last
`sigalarm` since its last `exec`, and the alarm fields that a process just allocated would have if it
had seen the events since that `exec`. -/
structure Traced where
  state : State
  last : Option (Int × Word)
  registered : Option Word
  since : AlarmFields

def Traced.start (s : State) : Traced := ⟨s, none, none, allocprocFields⟩

def trace (k : Kernel) (h : Traced) (e : Event) : Option Traced :=
  (step k h.state e).map fun t =>
    if Execs h.state e then ⟨t, h.last, none, allocprocFields⟩
    else if calls h.state e = some SYS_sigalarm then
      ⟨t, some (toInt32 (h.state.cpu.reg .a0), h.state.cpu.reg .a1), some (h.state.cpu.reg .a1),
        nextFields h.state e h.since⟩
    else ⟨t, h.last, h.registered, nextFields h.state e h.since⟩

structure Confined (k : Kernel) (h : Traced) (e : Event) : Prop where
  cleared : ∀ g, trace k h e = some g → Execs h.state e → g.state.proc.fields = allocprocFields
  redirects : ∀ g, trace k h e = some g → Delivers h.state e → h.registered = some g.state.context.pc
  governed : ∀ g, trace k h e = some g → g.state.proc.fields = g.since

/-- At a successful `exec` the process has never called `sigalarm` or has last called
`sigalarm(0, 0)`. -/
def Disarmed (k : Kernel) (h : Traced) (e : Event) : Prop :=
  ∀ g, trace k h e = some g → Execs h.state e → h.last = none ∨ h.last = some (0, 0)

/-- The last `sigalarm` decides the interval and the handler, and an alarm that is off stays as it
was set. -/
structure Follows (a : AlarmFields) (last : Option (Int × Word)) : Prop where
  set : (a.alarmInterval, a.alarmHandler) = last.getD (0, 0)
  off : a.alarmInterval ≤ 0 → a.ticksSinceAlarm = 0 ∧ a.inAlarmHandler = false

structure TracedInv (k : Kernel) (h : Traced) : Prop where
  user : InUser k h.state
  follows : Follows h.state.proc.fields h.last

structure ConfinedInv (k : Kernel) (h : Traced) : Prop extends TracedInv k h where
  governed : h.state.proc.fields = h.since
  registered : 0 < h.state.proc.alarmInterval → h.registered = some h.state.proc.alarmHandler

section
variable {k : Kernel} {s : State} {h g : Traced} {e : Event} {last : Option (Int × Word)} {a : AlarmFields}

theorem Follows.fresh_iff (follows : Follows a last) : a = allocprocFields ↔ last = none ∨ last = some (0, 0) := by
  obtain ⟨interval, handler, ticks, inHandler⟩ := a
  obtain ⟨set, off⟩ := follows
  constructor
  · intro fresh
    cases fresh
    cases last with
    | none => exact .inl rfl
    | some arguments => exact .inr (congrArg some set.symm)
  · intro quiet
    have zero : last.getD (0, 0) = (0, 0) := by
      rcases quiet with rfl | rfl <;> rfl
    rw [zero] at set
    cases set
    obtain ⟨noTicks, noHandler⟩ := off (Int.le_refl 0)
    simp only at noTicks noHandler
    rw [noTicks, noHandler]
    rfl

theorem Follows.calm (follows : Follows a last)
    (noAlarm : calls s e ≠ some SYS_sigalarm) : Follows (nextFields s e a) last := by
  by_cases timer : TimerTick e
  · rw [nextFields_tick timer]
    split_ifs with running
    · exact ⟨follows.set, fun off => absurd running.1 (Int.not_lt.mpr off)⟩
    · exact ⟨follows.set, fun off => absurd running.1 (Int.not_lt.mpr off)⟩
    · exact follows
  · rw [nextFields_calm timer, if_neg noAlarm]
    split_ifs
    · exact ⟨follows.set, fun off => ⟨(follows.off off).1, rfl⟩⟩
    · exact follows

theorem nextFields_sigalarm (alarm : calls s e = some SYS_sigalarm) (a : AlarmFields) :
    nextFields s e a = ⟨toInt32 (s.cpu.reg .a0), s.cpu.reg .a1, 0, false⟩ := by
  have calm : ¬ TimerTick e := by
    intro timer
    rw [timer.silent s] at alarm
    cases alarm
  rw [nextFields_calm calm, if_pos alarm]

theorem Execs.not_sigalarm (execs : Execs s e) : calls s e ≠ some SYS_sigalarm := by
  rw [execs.1]
  decide

theorem trace_inv (taken : trace k h e = some g) (inv : TracedInv k h) : TracedInv k g := by
  obtain ⟨t, stepped, rfl⟩ := Option.map_eq_some_iff.mp taken
  have user := step_inUser inv.user stepped
  have fields := step_fields inv.user stepped
  by_cases execs : Execs h.state e
  · rw [if_pos execs]
    have kept := inv.follows.calm execs.not_sigalarm
    rw [← fields] at kept
    exact ⟨user, kept⟩
  rw [if_neg execs]
  by_cases alarm : calls h.state e = some SYS_sigalarm
  · rw [if_pos alarm]
    rw [nextFields_sigalarm alarm] at fields
    refine ⟨user, ?_⟩
    rw [fields]
    exact ⟨rfl, fun _ => ⟨rfl, rfl⟩⟩
  · rw [if_neg alarm]
    have kept := inv.follows.calm alarm
    rw [← fields] at kept
    exact ⟨user, kept⟩

theorem nextFields_set (noAlarm : calls s e ≠ some SYS_sigalarm) (a : AlarmFields) :
    (nextFields s e a).alarmInterval = a.alarmInterval ∧ (nextFields s e a).alarmHandler = a.alarmHandler := by
  rw [nextFields, if_neg noAlarm]
  split_ifs <;> exact ⟨rfl, rfl⟩

theorem trace_confined (disarmed : Disarmed k h e) (taken : trace k h e = some g) (inv : ConfinedInv k h) :
    ConfinedInv k g := by
  have quiet := disarmed g taken
  have next := trace_inv taken inv.toTracedInv
  obtain ⟨t, stepped, rfl⟩ := Option.map_eq_some_iff.mp taken
  have fields := step_fields inv.user stepped
  by_cases execs : Execs h.state e
  · rw [if_pos execs] at next ⊢
    have fresh : t.proc.fields = allocprocFields := by
      rw [fields, nextFields_exec execs]
      exact inv.follows.fresh_iff.mpr (quiet execs)
    have off : t.proc.alarmInterval = 0 := congrArg AlarmFields.alarmInterval fresh
    exact ⟨next, fresh, fun armed => absurd armed (by simp only [off]; decide)⟩
  rw [if_neg execs] at next ⊢
  by_cases alarm : calls h.state e = some SYS_sigalarm
  · rw [if_pos alarm] at next ⊢
    have handler : t.proc.alarmHandler = h.state.cpu.reg .a1 := by
      rw [nextFields_sigalarm alarm] at fields
      exact congrArg AlarmFields.alarmHandler fields
    refine ⟨next, ?_, fun _ => congrArg some handler.symm⟩
    rw [← inv.governed]
    exact fields
  · rw [if_neg alarm] at next ⊢
    obtain ⟨interval, handler⟩ := nextFields_set alarm h.state.proc.fields
    rw [← fields] at interval handler
    refine ⟨next, ?_, ?_⟩
    · rw [← inv.governed]
      exact fields
    · intro armed
      have before : 0 < h.state.proc.alarmInterval := lt_of_lt_of_eq armed interval
      exact (inv.registered before).trans (congrArg some handler.symm)

theorem ConfinedInv.confined (inv : ConfinedInv k h) (disarmed : Disarmed k h e) : Confined k h e := by
  constructor
  · intro g taken execs
    have after := trace_confined disarmed taken inv
    rw [after.governed]
    obtain ⟨t, -, rfl⟩ := Option.map_eq_some_iff.mp taken
    rw [if_pos execs]
  · intro g taken delivered
    obtain ⟨t, stepped, same⟩ := Option.map_eq_some_iff.mp taken
    have state : g.state = t := by
      rw [← same]
      split_ifs <;> rfl
    rw [state, step_delivers_pc inv.user delivered stepped]
    exact inv.registered delivered.2.1.1
  · intro g taken
    exact (trace_confined disarmed taken inv).governed

theorem TracedInv.disarmed (inv : TracedInv k h) (confined : Confined k h e) : Disarmed k h e := by
  intro g taken execs
  have cleared := confined.cleared g taken execs
  obtain ⟨t, stepped, rfl⟩ := Option.map_eq_some_iff.mp taken
  rw [if_pos execs] at cleared
  have fields := step_fields inv.user stepped
  rw [nextFields_exec execs] at fields
  exact inv.follows.fresh_iff.mp (fields.symm.trans cleared)

/-- Along every run of a process from its allocation, the alarm is after each `exec` as in a new
process, exactly if the process goes into each `exec` with no `sigalarm` before it or `sigalarm(0, 0)`
as the last. -/
theorem alarm_confined_iff (user : InUser k s) (fresh : s.proc.fields = allocprocFields) (es : List Event) :
    Meets (trace k) (Confined k) (Traced.start s) es ↔ Meets (trace k) (Disarmed k) (Traced.start s) es := by
  have follows : Follows s.proc.fields none := by
    rw [fresh]
    exact ⟨rfl, fun _ => ⟨rfl, rfl⟩⟩
  have off : s.proc.alarmInterval = 0 := congrArg AlarmFields.alarmInterval fresh
  have start : ConfinedInv k (Traced.start s) :=
    ⟨⟨user, follows⟩, fresh, fun armed => absurd armed (by simp [Traced.start, off])⟩
  constructor
  · intro confined
    exact confined.of_invariant (fun _ _ _ _ => trace_inv) (fun _ _ inv => inv.disarmed) start.toTracedInv
  · intro disarmed
    exact disarmed.of_invariant (fun _ _ _ => trace_confined) (fun _ _ inv => inv.confined) start

end

-- A new process at 0x100, as fork() leaves it.
def newborn : State where
  cpu := (interrupted 0).cpu
  proc := { (interrupted 0).proc with toAlarm := ⟨0, 0, 0, fun _ => 0, false⟩ }

def execTrap : Event := .trap 8 { quietEnv with image := some ⟨0x8000000000087f11, 0x0, 0x3fc0⟩ }

-- sigalarm(interval, 0x40), then exec, then a timer tick in the new program.
def execRun (interval handler : Word) : List Event :=
  [loadCall 22 interval handler, ecall, loadCall 7 0 0, execTrap, timerTick]

theorem alarm_confined_iff_cleared :
    Meets (trace sampleKernel) (Confined sampleKernel) (Traced.start newborn) (execRun 0 0) ↔
      Meets (trace sampleKernel) (Disarmed sampleKernel) (Traced.start newborn) (execRun 0 0) :=
  alarm_confined_iff ⟨rfl, rfl, rfl⟩ rfl _

/-- A process that has called `sigalarm(1, 0x40)` is in the new program redirected to 0x40. -/
theorem alarm_leaks : InUser sampleKernel newborn ∧ newborn.proc.fields = allocprocFields ∧
    ∃ h g, run (trace sampleKernel) (Traced.start newborn) ((execRun 1 0x40).take 4) = some h ∧
      h.registered = none ∧ h.state.proc.fields = ⟨1, 0x40, 0, false⟩ ∧ Delivers h.state timerTick ∧
      trace sampleKernel h timerTick = some g ∧ g.state.context.pc = 0x40 ∧
      ¬ Confined sampleKernel h timerTick := by
  refine ⟨⟨rfl, rfl, rfl⟩, rfl, ?_⟩
  obtain ⟨h, ran, unset, armed, delivers, rest⟩ := exists_some
    (o := run (trace sampleKernel) (Traced.start newborn) ((execRun 1 0x40).take 4))
    (P := fun h => h.registered = none ∧ h.state.proc.fields = ⟨1, 0x40, 0, false⟩ ∧ Delivers h.state timerTick ∧
      (trace sampleKernel h timerTick).any fun g => g.state.cpu.pc = 0x40) (by decide +kernel)
  obtain ⟨g, taken, pc⟩ := exists_some rest
  refine ⟨h, g, ran, unset, armed, delivers, taken, pc, ?_⟩
  intro confined
  have redirected := confined.redirects g taken delivers
  rw [unset] at redirected
  cases redirected

end Xv6.Trap
