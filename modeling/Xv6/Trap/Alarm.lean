import Xv6.Trap.Usertrap

namespace Xv6.Trap
open Lib Function

/-! ## The alarm as user mode sees it -/

def calls (s : State) : Event → Option Int
  | .trap scause _ => if scause = 8 then some (toInt32 (s.cpu.reg .a7)) else none
  | _ => none

def TimerTick : Event → Prop
  | .trap scause _ => devintr scause = 2
  | _ => False

instance : (e : Event) → Decidable (TimerTick e)
  | .trap scause _ => inferInstanceAs (Decidable (devintr scause = 2))
  | .user _ _ => isFalse id
  | .kill => isFalse id
  | .kernelTick => isFalse id

def Alarm.Running (a : Alarm) : Prop := 0 < a.alarmInterval ∧ a.inAlarmHandler = false

def Alarm.Due (a : Alarm) : Prop := a.Running ∧ a.alarmInterval ≤ a.ticksSinceAlarm + 1

instance (a : Alarm) : Decidable a.Running := inferInstanceAs (Decidable (_ ∧ _))

instance (a : Alarm) : Decidable a.Due := inferInstanceAs (Decidable (_ ∧ _))

def Delivers (s : State) (e : Event) : Prop := TimerTick e ∧ s.proc.toAlarm.Due

instance (s : State) (e : Event) : Decidable (Delivers s e) := inferInstanceAs (Decidable (_ ∧ _))

def nextAlarm (s : State) (frame : Frame) (e : Event) : Alarm :=
  let a := s.proc.toAlarm
  if Delivers s e then { a with ticksSinceAlarm := 0, alarmTf := frame, inAlarmHandler := true }
  else if TimerTick e then
    if a.Running then { a with ticksSinceAlarm := a.ticksSinceAlarm + 1 } else a
  else if calls s e = some SYS_sigalarm then
    ⟨toInt32 (s.cpu.reg .a0), s.cpu.reg .a1, 0, a.alarmTf, false⟩
  else if calls s e = some SYS_sigreturn then { a with inAlarmHandler := false }
  else a

section
variable {k : Kernel} {s t : State} {e : Event} {scause sepc : Word} {env : Env} {p q : Proc} {f : Frame}

theorem alarmTick_alarm (p : Proc) : (alarmTick p).toAlarm =
    if p.toAlarm.Due then
      { p.toAlarm with ticksSinceAlarm := 0, alarmTf := p.trapframe, inAlarmHandler := true }
    else if p.toAlarm.Running then { p.toAlarm with ticksSinceAlarm := p.ticksSinceAlarm + 1 }
    else p.toAlarm := by grind [alarmTick, Alarm.Due, Alarm.Running]

theorem sysExec_alarm (env : Env) (p : Proc) : (sysExec env p).1.toAlarm = p.toAlarm := by
  cases loaded : env.image with
  | none => rw [sysExec, loaded]
  | some image =>
    rw [sysExec, loaded]
    rfl

theorem syscall_alarm (returned : syscall env p = .ok q) : q.toAlarm =
    if toInt32 (p.trapframe Reg.a7.offset) = SYS_sigalarm then (sysSigalarm p).1.toAlarm
    else if toInt32 (p.trapframe Reg.a7.offset) = SYS_sigreturn then (sysSigreturn p).1.toAlarm
    else p.toAlarm := by
  simp only [syscall] at returned
  split_ifs at returned with known exits alarm sigreturn loads
  · cases returned
    rw [if_pos alarm]
    rfl
  · cases returned
    rw [if_neg alarm, if_pos sigreturn]
    rfl
  · cases returned
    rw [if_neg alarm, if_neg sigreturn]
    exact sysExec_alarm env p
  · cases returned
    rw [if_neg alarm, if_neg sigreturn]
    rfl
  · cases returned
    rw [if_neg fun alarm => known (by rw [alarm]; decide), if_neg fun sigreturn => known (by rw [sigreturn]; decide)]
    rfl

theorem usertrap_alarm (returned : usertrap scause sepc env p = .ok q) : q.toAlarm = if scause = 8 then
      if toInt32 (p.trapframe Reg.a7.offset) = SYS_sigalarm then (sysSigalarm p).1.toAlarm
      else if toInt32 (p.trapframe Reg.a7.offset) = SYS_sigreturn then (sysSigreturn p).1.toAlarm
      else p.toAlarm
    else if devintr scause = 2 then (alarmTick (p.store Frame.epc sepc)).toAlarm
    else p.toAlarm := by
  have handled := usertrap_eq_ok returned
  simp only [dispatch] at handled
  split_ifs at handled with call killed interrupt timer
  · rw [if_pos call]
    have alarm := syscall_alarm handled
    exact alarm
  · cases handled
    rw [if_neg call, if_pos timer]
  · cases handled
    rw [if_neg call, if_neg timer]
    rfl
  · cases handled
    rw [if_neg call, if_neg (by omega)]
    rfl

theorem devintr_ecall : devintr 8 = 0 := by
  decide

theorem TimerTick.silent (timer : TimerTick e) (s : State) : calls s e = none := by
  cases e with
  | trap scause env =>
    refine if_neg ?_
    rintro rfl
    cases timer
  | _ => rfl

variable (frame : Frame)

theorem nextAlarm_tick (timer : TimerTick e) : nextAlarm s frame e =
    if s.proc.toAlarm.Due then
      { s.proc.toAlarm with ticksSinceAlarm := 0, alarmTf := frame, inAlarmHandler := true }
    else if s.proc.toAlarm.Running then
      { s.proc.toAlarm with ticksSinceAlarm := s.proc.ticksSinceAlarm + 1 }
    else s.proc.toAlarm := by
  by_cases due : s.proc.toAlarm.Due
  · rw [nextAlarm, if_pos ⟨timer, due⟩, if_pos due]
  · rw [nextAlarm, if_neg fun delivered => due delivered.2, if_pos timer, if_neg due]

theorem nextAlarm_calm (calm : ¬ TimerTick e) : nextAlarm s frame e =
    if calls s e = some SYS_sigalarm then
      ⟨toInt32 (s.cpu.reg .a0), s.cpu.reg .a1, 0, s.proc.alarmTf, false⟩
    else if calls s e = some SYS_sigreturn then { s.proc.toAlarm with inAlarmHandler := false }
    else s.proc.toAlarm := by
  rw [nextAlarm, if_neg fun delivered => calm delivered.1, if_neg calm]

theorem nextAlarm_other (calm : ¬ TimerTick e) (silent : calls s e = none) : nextAlarm s frame e = s.proc.toAlarm := by
  rw [nextAlarm_calm frame calm, silent]
  rfl

theorem usertrap_nextAlarm {frame : Frame} (regs : ∀ r : Reg, frame r.offset = s.cpu.reg r)
    (returned : usertrap scause s.cpu.pc env { s.proc with trapframe := frame } = .ok q) :
    q.toAlarm = nextAlarm s (update frame Frame.epc s.cpu.pc) (.trap scause env) := by
  rw [usertrap_alarm returned]
  by_cases call : scause = 8
  · have calm : ¬ TimerTick (.trap scause env) := by
      rw [TimerTick, call, devintr_ecall]
      decide
    rw [if_pos call, nextAlarm_calm _ calm, calls, if_pos call]
    simp only [regs, Option.some.injEq, sysSigalarm, sysSigreturn, argint, argaddr, argraw]
  · by_cases timer : devintr scause = 2
    · have tick : TimerTick (.trap scause env) := timer
      rw [if_neg call, if_pos timer, alarmTick_alarm, nextAlarm_tick _ tick]
      rfl
    · have calm : ¬ TimerTick (.trap scause env) := timer
      rw [if_neg call, if_neg timer, nextAlarm_other _ calm (if_neg call)]

theorem step_alarm (user : InUser k s) (taken : step k s e = some t) :
    ∃ frame, (Delivers s e → frame Frame.epc = s.cpu.pc ∧ ∀ r : Reg, frame r.offset = s.cpu.reg r) ∧
      t.proc.toAlarm = nextAlarm s frame e := by
  have idle (calm : ¬ TimerTick e) (silent : calls s e = none)
      (same : t.proc.toAlarm = s.proc.toAlarm) : ∃ frame, (Delivers s e → frame Frame.epc = s.cpu.pc ∧
        ∀ r : Reg, frame r.offset = s.cpu.reg r) ∧ t.proc.toAlarm = nextAlarm s frame e :=
    ⟨s.proc.trapframe, fun delivered => absurd delivered.1 calm, same.trans (nextAlarm_other _ calm silent).symm⟩
  cases e with
  | user pc reg | kill | kernelTick =>
    cases taken
    exact idle id rfl rfl
  | trap scause env =>
    obtain ⟨frame, p, regs, handled, same, -, -⟩ := step_trap user taken
    refine ⟨update frame Frame.epc s.cpu.pc, fun _ => ⟨update_self _ _ _, ?_⟩, ?_⟩
    · intro r
      have above := r.offset_ge
      rw [update_of_ne (by simp only [Frame.epc]; omega), regs r]
    · rw [same, usertrapret_alarm]
      exact usertrap_nextAlarm regs handled

/-! ## The saved frame between a delivery and `sigreturn` -/

structure Shielded (f : Frame) (a : Alarm) : Prop where
  saved : a.alarmTf = f
  quiet : ¬ a.Running

theorem step_delivers (user : InUser k s) (delivered : Delivers s e) (taken : step k s e = some t) :
    Shielded t.proc.alarmTf t.proc.toAlarm ∧ t.proc.alarmTf Frame.epc = s.cpu.pc ∧
      ∀ r : Reg, t.proc.alarmTf r.offset = s.cpu.reg r := by
  obtain ⟨frame, context, alarm⟩ := step_alarm user taken
  rw [nextAlarm, if_pos delivered] at alarm
  refine ⟨⟨rfl, ?_⟩, ?_⟩
  · rw [alarm]
    rintro ⟨-, ⟨⟩⟩
  · rw [alarm]
    exact context delivered

theorem nextAlarm_shielded (shielded : Shielded f s.proc.toAlarm) (noAlarm : calls s e ≠ some SYS_sigalarm)
    (stays : calls s e ≠ some SYS_sigreturn) (frame : Frame) : nextAlarm s frame e = s.proc.toAlarm := by
  have no : ¬ Delivers s e := fun delivered => shielded.quiet delivered.2.1
  simp [nextAlarm, no, shielded.quiet, noAlarm, stays]

theorem step_shielded (user : InUser k s) (shielded : Shielded f s.proc.toAlarm) (noAlarm : calls s e ≠ some SYS_sigalarm)
    (stays : calls s e ≠ some SYS_sigreturn) (taken : step k s e = some t) : Shielded f t.proc.toAlarm := by
  obtain ⟨frame, -, alarm⟩ := step_alarm user taken
  rw [alarm, nextAlarm_shielded shielded noAlarm stays]
  exact shielded

theorem syscall_sigreturn (number : toInt32 (p.trapframe Reg.a7.offset) = SYS_sigreturn) :
    syscall env p = .ok ((sysSigreturn p).1.store Reg.a0.offset (sysSigreturn p).2) := by
  simp only [syscall, number]
  rfl

theorem usertrap_sigreturn (number : toInt32 (p.trapframe Reg.a7.offset) = SYS_sigreturn)
    (returned : usertrap 8 sepc env p = .ok q) : q.trapframe = update p.alarmTf Reg.a0.offset 0 := by
  have handled := usertrap_eq_ok returned
  simp only [dispatch, ↓reduceIte] at handled
  split_ifs at handled with killed
  rw [syscall_sigreturn (by exact number)] at handled
  cases handled
  rfl

theorem step_sigreturn (user : InUser k s) (call : calls s e = some SYS_sigreturn) (taken : step k s e = some t) :
    t.context = ⟨s.proc.alarmTf Frame.epc, update (fun r => s.proc.alarmTf r.offset) .a0 0⟩ := by
  cases e with
  | user pc reg => cases call
  | kill => cases call
  | kernelTick => cases call
  | trap scause env =>
    obtain ⟨frame, p, regs, handled, -, resumed, -⟩ := step_trap user taken
    simp only [calls, ← regs] at call
    split_ifs at call with ecall
    subst ecall
    have restored := usertrap_sigreturn (by simpa using call) handled
    have epc : p.trapframe Frame.epc = s.proc.alarmTf Frame.epc := by
      rw [restored]
      rfl
    have all : (fun r : Reg => p.trapframe r.offset) = update (fun r => s.proc.alarmTf r.offset) .a0 0 := by
      funext r
      rw [restored]
      by_cases first : r = .a0
      · rw [first, update_self, update_self]
      · rw [update_of_ne (by simpa using first), update_of_ne first]
    rw [resumed, Proc.context, epc, all]

/-! ## `sigreturn` after a handler -/

def HandlerStep (s : State) (e : Event) : Prop :=
  calls s e ≠ some SYS_sigalarm ∧ calls s e ≠ some SYS_exec ∧ calls s e ≠ some SYS_sigreturn

theorem handler_shielded {es : List Event} (user : InUser k s) (shielded : Shielded f s.proc.toAlarm)
    (handler : Meets (step k) HandlerStep s es) (ran : run (step k) s es = some t) :
    InUser k t ∧ Shielded f t.proc.toAlarm := by
  have preserved (s : State) (e : Event) (t : State) (permitted : HandlerStep s e)
      (taken : step k s e = some t) (before : InUser k s ∧ Shielded f s.proc.toAlarm) :
      InUser k t ∧ Shielded f t.proc.toAlarm := by
    obtain ⟨noAlarm, -, noReturn⟩ := permitted
    exact ⟨step_inUser before.1 taken, step_shielded before.1 before.2 noAlarm noReturn taken⟩
  exact run_invariant preserved handler ⟨user, shielded⟩ ran

/-- The context that `sigreturn` resumes is the interrupted one exactly when that had `a0 = 0`. -/
theorem sigreturn_restores_iff {u v : State} {tick sigreturn : Event} {es : List Event}
    (user : InUser k s) (delivered : Delivers s tick) (entered : step k s tick = some t)
    (handler : Meets (step k) HandlerStep t es) (ran : run (step k) t es = some u)
    (call : calls u sigreturn = some SYS_sigreturn) (left : step k u sigreturn = some v) :
    v.context = s.context ↔ s.cpu.reg .a0 = 0 := by
  obtain ⟨shielded, epc, regs⟩ := step_delivers user delivered entered
  obtain ⟨userThen, still⟩ := handler_shielded (step_inUser user entered) shielded handler ran
  have resumed := step_sigreturn userThen call left
  rw [still.saved, epc, funext regs] at resumed
  rw [resumed]
  constructor
  · intro same
    have a0 := congrFun (congrArg Context.reg same) .a0
    exact (by simpa [State.context] using a0.symm)
  · intro zero
    rw [State.context, ← zero, update_eq_self]

end

def sampleKernel : Kernel := ⟨0x8000000000087fff, 0x3fffffd000, 0x80002a5c⟩

-- A process interrupted at 0x100 with `a0` in the register, its alarm set for the next tick.
def interrupted (a0 : Word) : State where
  cpu := ⟨0x100, update (fun _ => 9) .a0 a0, 0, trapframeVa, 0x8000000000087f00⟩
  proc := ⟨⟨1, 0x40, 0, fun _ => 0, false⟩, 0x8000000000087f00,
    update (fun _ => 0) Frame.kernelTrap sampleKernel.usertrap, false⟩

def quietEnv : Env := ⟨0, none, false, 0, fun _ => 0⟩

def timerTick : Event := .trap 0x8000000000000001 quietEnv

-- User code that loads the system call number and its first two arguments.
def loadCall (num a0 a1 : Word) : Event :=
  .user 0x44 (update (update (update (fun _ => 5) .a7 num) .a0 a0) .a1 a1)

def ecall : Event := .trap 8 quietEnv

-- The handler asks for the time, is interrupted by a tick, and loads the number of `sigreturn`.
def handlerRun : List Event := [loadCall 14 0 0, ecall, timerTick, loadCall 23 0 0]

theorem handlerRun_permitted (k : Kernel) (s : State) : Meets (step k) HandlerStep s handlerRun := by
  refine ⟨by simp [HandlerStep, loadCall, calls], ?_⟩
  rintro t ⟨⟩
  refine ⟨by simp [HandlerStep, ecall, calls]; decide, fun u _ => ?_⟩
  refine ⟨by simp [HandlerStep, timerTick, calls], fun v _ => ?_⟩
  exact ⟨by simp [HandlerStep, loadCall, calls], fun _ _ => trivial⟩

theorem handlerRun_split {k : Kernel} {s v : State} (whole : run (step k) s ([timerTick] ++ handlerRun ++ [ecall]) = some v) :
    ∃ t u, step k s timerTick = some t ∧ run (step k) t handlerRun = some u ∧
      calls u ecall = some SYS_sigreturn ∧ step k u ecall = some v := by
  obtain ⟨u, before, left⟩ := run_snoc_some whole
  obtain ⟨t, first, ran⟩ := run_append_some before
  obtain ⟨w, -, loaded⟩ := run_snoc_some
    (show run (step k) t ([loadCall 14 0 0, ecall, timerTick] ++ [loadCall 23 0 0]) = some u from ran)
  refine ⟨t, u, by simpa using first, ran, ?_, left⟩
  cases loaded
  rfl

theorem sigreturn_restores_iff_zero : ∃ t u v, step sampleKernel (interrupted 0) timerTick = some t ∧
    run (step sampleKernel) t handlerRun = some u ∧ step sampleKernel u ecall = some v ∧
    (v.context = (interrupted 0).context ↔ (interrupted 0).cpu.reg .a0 = 0) := by
  obtain ⟨v, whole⟩ := Option.isSome_iff_exists.mp (show (run (step sampleKernel) (interrupted 0)
    ([timerTick] ++ handlerRun ++ [ecall])).isSome by decide +kernel)
  obtain ⟨t, u, entered, ran, call, left⟩ := handlerRun_split whole
  exact ⟨t, u, v, entered, ran, left, sigreturn_restores_iff ⟨rfl, rfl, rfl⟩ (by decide) entered
    (handlerRun_permitted _ t) ran call left⟩

/-- Interrupted with 5 in `a0`, the process resumes with 0 there. -/
theorem sigreturn_loses_a0 : ∃ t u v, InUser sampleKernel (interrupted 5) ∧
    Delivers (interrupted 5) timerTick ∧ step sampleKernel (interrupted 5) timerTick = some t ∧
    Meets (step sampleKernel) HandlerStep t handlerRun ∧ run (step sampleKernel) t handlerRun = some u ∧
    calls u ecall = some SYS_sigreturn ∧ step sampleKernel u ecall = some v ∧
    v.context ≠ (interrupted 5).context := by
  obtain ⟨v, whole, lost⟩ := exists_some (o := run (step sampleKernel) (interrupted 5)
    ([timerTick] ++ handlerRun ++ [ecall])) (P := fun v => v.cpu.reg .a0 ≠ 5) (by decide +kernel)
  obtain ⟨t, u, entered, ran, call, left⟩ := handlerRun_split whole
  refine ⟨t, u, v, ⟨rfl, rfl, rfl⟩, by decide, entered, handlerRun_permitted _ t, ran, call, left, ?_⟩
  exact fun same => lost (congrFun (congrArg Context.reg same) .a0)

/-! ## Alarms while a handler runs -/

/-- A process with, as history, the frame that an alarm saved and no `sigreturn` has taken back, and,
if `sigalarm` has set a new alarm since, its interval and the user-mode ticks that it has seen. -/
structure Watched where
  state : State
  pending : Option Frame
  rearmed : Option (Int × Int)

def watch (k : Kernel) (w : Watched) (e : Event) : Option Watched :=
  (step k w.state e).map fun t =>
    if Delivers w.state e then ⟨t, some t.proc.alarmTf, none⟩
    else if calls w.state e = some SYS_sigreturn then ⟨t, none, none⟩
    else if calls w.state e = some SYS_sigalarm then
      let interval := toInt32 (w.state.cpu.reg .a0)
      ⟨t, w.pending, if 0 < interval then some (interval, 0) else none⟩
    else if TimerTick e then ⟨t, w.pending, w.rearmed.map fun (interval, ticks) => (interval, ticks + 1)⟩
    else ⟨t, w.pending, w.rearmed⟩

def NotReentered (w : Watched) (e : Event) : Prop :=
  ∀ f, w.pending = some f → w.state.proc.alarmTf = f ∧ ¬ Delivers w.state e

/-- A handler that calls `sigalarm(n, _)` with `n` positive reaches `sigreturn` or its next `sigalarm`
before the `n`-th timer tick. -/
def InTime (w : Watched) (e : Event) : Prop :=
  w.pending.isSome → TimerTick e → ∀ interval ticks, w.rearmed = some (interval, ticks) → ticks + 1 < interval

def Tracks (a : Alarm) : Option (Int × Int) → Prop
  | none => ¬ a.Running
  | some (interval, ticks) => a.Running ∧ a.alarmInterval = interval ∧ a.ticksSinceAlarm = ticks

structure WatchInv (k : Kernel) (w : Watched) : Prop where
  user : InUser k w.state
  saved : ∀ f, w.pending = some f → w.state.proc.alarmTf = f
  tracks : w.pending.isSome → Tracks w.state.proc.toAlarm w.rearmed

section
variable {k : Kernel} {s : State} {w v : Watched} {e : Event}

theorem Tracks.tick {a b : Alarm} {r : Option (Int × Int)} (tracks : Tracks a r)
    (next : b = if a.Running then { a with ticksSinceAlarm := a.ticksSinceAlarm + 1 } else a) :
    b.alarmTf = a.alarmTf ∧ Tracks b (r.map fun (interval, ticks) => (interval, ticks + 1)) := by
  cases r with
  | none =>
    rw [if_neg tracks] at next
    exact ⟨by rw [next], by rw [next]; exact tracks⟩
  | some pair =>
    obtain ⟨running, interval, ticks⟩ := tracks
    rw [if_pos running] at next
    exact ⟨by rw [next], by rw [next]; exact ⟨running, interval, congrArg (· + 1) ticks⟩⟩

theorem watch_inv (taken : watch k w e = some v) (inv : WatchInv k w) : WatchInv k v := by
  obtain ⟨t, stepped, rfl⟩ := Option.map_eq_some_iff.mp taken
  have user := step_inUser inv.user stepped
  obtain ⟨frame, -, alarm⟩ := step_alarm inv.user stepped
  by_cases delivered : Delivers w.state e
  · rw [if_pos delivered]
    obtain ⟨shielded, -⟩ := step_delivers inv.user delivered stepped
    exact ⟨user, fun f same => Option.some.inj same, fun _ => shielded.quiet⟩
  rw [if_neg delivered]
  by_cases timer : TimerTick e
  · rw [nextAlarm_tick frame timer, if_neg fun due => delivered ⟨timer, due⟩] at alarm
    have silent := timer.silent w.state
    simp only [silent, timer, reduceCtorEq, ↓reduceIte]
    refine ⟨user, ?_, ?_⟩
    · grind [inv.saved]
    · intro pending
      exact ((inv.tracks pending).tick alarm).2
  · rw [nextAlarm_calm frame timer] at alarm
    by_cases sigreturn : calls w.state e = some SYS_sigreturn
    · rw [if_pos sigreturn]
      refine ⟨user, ?_, ?_⟩
      · rintro f ⟨⟩
      · rintro ⟨⟩
    rw [if_neg sigreturn]
    by_cases sigalarm : calls w.state e = some SYS_sigalarm
    · rw [if_pos sigalarm] at alarm ⊢
      refine ⟨user, ?_, ?_⟩
      · intro f saved
        rw [alarm]
        exact inv.saved f saved
      · intro pending
        rw [alarm]
        by_cases positive : 0 < toInt32 (w.state.cpu.reg .a0)
        · simp only [positive, ↓reduceIte]
          exact ⟨⟨positive, rfl⟩, rfl, rfl⟩
        · simp only [positive, ↓reduceIte]
          exact fun running => positive running.1
    · rw [if_neg sigalarm, if_neg sigreturn] at alarm
      rw [if_neg sigalarm, if_neg timer]
      refine ⟨user, ?_, ?_⟩
      · intro f saved
        rw [alarm]
        exact inv.saved f saved
      · intro pending
        rw [alarm]
        exact inv.tracks pending

theorem WatchInv.notReentered_iff (inv : WatchInv k w) (e : Event) : NotReentered w e ↔ InTime w e := by
  constructor
  · intro notReentered pending timer interval ticks rearmed
    obtain ⟨f, saved⟩ := Option.isSome_iff_exists.mp pending
    have tracks := inv.tracks pending
    rw [rearmed] at tracks
    obtain ⟨running, rfl, rfl⟩ := tracks
    by_contra late
    exact (notReentered f saved).2 ⟨timer, running, by omega⟩
  · intro inTime f saved
    have pending : w.pending.isSome := by simp [saved]
    refine ⟨inv.saved f saved, ?_⟩
    rintro ⟨timer, running, late⟩
    have tracks := inv.tracks pending
    cases rearmed : w.rearmed with
    | none =>
      rw [rearmed] at tracks
      exact tracks running
    | some pair =>
      rw [rearmed] at tracks
      have early := inTime pending timer pair.1 pair.2 rearmed
      obtain ⟨-, interval, ticks⟩ := tracks
      omega

/-- Along every run, no alarm is delivered between a delivery and the next `sigreturn`, and the saved
frame stays as the delivery left it, exactly if no alarm that a handler sets goes off inside it. -/
theorem alarm_not_reentered_iff (user : InUser k s) (es : List Event) :
    Meets (watch k) NotReentered ⟨s, none, none⟩ es ↔ Meets (watch k) InTime ⟨s, none, none⟩ es := by
  have start : WatchInv k ⟨s, none, none⟩ := ⟨user, by simp, by simp⟩
  exact meets_congr (fun _ _ _ _ => watch_inv) (fun _ e inv => inv.notReentered_iff e) start

end

-- The handler sets an alarm of one tick and is interrupted by that tick.
def rearmRun : List Event := [timerTick, loadCall 22 1 0x40, ecall, timerTick]

theorem alarm_not_reentered_iff_sample :
    Meets (watch sampleKernel) NotReentered ⟨interrupted 0, none, none⟩ (timerTick :: handlerRun) ↔
      Meets (watch sampleKernel) InTime ⟨interrupted 0, none, none⟩ (timerTick :: handlerRun) :=
  alarm_not_reentered_iff ⟨rfl, rfl, rfl⟩ _

/-- The second alarm replaces the saved frame before the first handler has returned. -/
theorem alarm_reentered : InUser sampleKernel (interrupted 5) ∧
    ¬ Meets (watch sampleKernel) NotReentered ⟨interrupted 5, none, none⟩ rearmRun := by
  refine ⟨⟨rfl, rfl, rfl⟩, ?_⟩
  intro meets
  obtain ⟨w, ran, pending, delivers⟩ : ∃ w, run (watch sampleKernel) ⟨interrupted 5, none, none⟩
      [timerTick, loadCall 22 1 0x40, ecall] = some w ∧ w.pending.isSome ∧ Delivers w.state timerTick :=
    exists_some (by decide +kernel)
  obtain ⟨f, saved⟩ := Option.isSome_iff_exists.mp pending
  have kept := (meets_append.mp (show Meets _ _ _ ([timerTick, loadCall 22 1 0x40, ecall] ++ [timerTick]) from meets)).2 w ran
  exact (kept.1 f saved).2 delivers

end Xv6.Trap
