import Xv6.Trap.ExecAlarm

namespace Xv6.Trap
open Lib

/-! ## Counting the ticks of an alarm -/

def Delivered (s t : State) : Prop := s.proc.inAlarmHandler = false ∧ t.proc.inAlarmHandler = true

instance (s t : State) : Decidable (Delivered s t) := inferInstanceAs (Decidable (_ ∧ _))

/-- A process with, as history, the timer ticks that it has taken in user mode outside of a handler
since its last `sigalarm` or the last alarm delivered to it. -/
structure Counted where
  state : State
  ticks : Nat

def counted (k : Kernel) (h : Counted) (e : Event) : Option Counted :=
  (step k h.state e).map fun t =>
    ⟨t, if calls h.state e = some SYS_sigalarm ∨ Delivered h.state t then 0
      else if TimerTick e ∧ h.state.proc.inAlarmHandler = false then h.ticks + 1
      else h.ticks⟩

/-- While an alarm is set, `ticks_since_alarm` is the number of those ticks and has not come to the
interval. -/
structure CountInv (k : Kernel) (h : Counted) : Prop where
  user : InUser k h.state
  exact : 0 < h.state.proc.alarmInterval → h.state.proc.ticksSinceAlarm = h.ticks
  below : 0 < h.state.proc.alarmInterval → h.state.proc.ticksSinceAlarm < h.state.proc.alarmInterval

section
variable {k : Kernel} {s t : State} {h g : Counted} {e : Event}

section

variable (user : InUser k s) (taken : step k s e = some t)

include user taken

theorem delivered_iff : Delivered s t ↔ Delivers s e := by
  have after : t.proc.inAlarmHandler = (nextFields s e s.proc.fields).inAlarmHandler :=
    congrArg AlarmFields.inAlarmHandler (step_fields user taken)
  constructor
  · rintro ⟨outside, inside⟩
    rw [inside] at after
    by_cases timer : TimerTick e
    · rw [nextFields_tick timer] at after
      refine ⟨timer, ?_⟩
      split_ifs at after with running late
      · exact ⟨running, late⟩
      · exact absurd (after.trans outside) (by decide)
      · exact absurd (after.trans outside) (by decide)
    · rw [nextFields_calm timer] at after
      split_ifs at after
      exact absurd (after.trans outside) (by decide)
  · rintro ⟨timer, running, late⟩
    have passed : 0 < s.proc.fields.alarmInterval ∧ s.proc.fields.inAlarmHandler = false := running
    have due : s.proc.fields.alarmInterval ≤ s.proc.fields.ticksSinceAlarm + 1 := late
    rw [nextFields_tick timer, if_pos passed, if_pos due] at after
    exact ⟨running.2, after⟩

theorem counted_tick (timer : TimerTick e) (n : Nat) :
    counted k ⟨s, n⟩ e = some ⟨t, if s.proc.toAlarm.Due then 0
      else if s.proc.inAlarmHandler = false then n + 1 else n⟩ := by
  have due : Delivered s t ↔ s.proc.toAlarm.Due := by
    rw [delivered_iff user taken]
    exact and_iff_right timer
  simp only [counted, taken, Option.map_some, timer.silent s, reduceCtorEq, false_or, timer, true_and, due]

theorem counted_calm (calm : ¬ TimerTick e) (n : Nat) :
    counted k ⟨s, n⟩ e = some ⟨t, if calls s e = some SYS_sigalarm then 0 else n⟩ := by
  have quiet : ¬ Delivered s t := fun delivered => calm ((delivered_iff user taken).mp delivered).1
  simp only [counted, taken, Option.map_some, quiet, or_false, calm, false_and, ↓reduceIte]

end

theorem counted_inv (taken : counted k h e = some g) (inv : CountInv k h) : CountInv k g := by
  obtain ⟨s, n⟩ := h
  obtain ⟨t, stepped, -⟩ := Option.map_eq_some_iff.mp taken
  have user := step_inUser inv.user stepped
  obtain ⟨frame, -, alarm⟩ := step_alarm inv.user stepped
  by_cases timer : TimerTick e
  · rw [counted_tick inv.user stepped timer] at taken
    rw [nextAlarm_tick frame timer] at alarm
    cases taken
    by_cases due : s.proc.toAlarm.Due
    · rw [if_pos due] at alarm
      simp only [if_pos due]
      refine ⟨user, fun _ => ?_, fun _ => ?_⟩
      · rw [alarm]
        rfl
      · rw [alarm]
        exact due.1.1
    · rw [if_neg due] at alarm
      simp only [if_neg due]
      by_cases running : s.proc.toAlarm.Running
      · rw [if_pos running] at alarm
        rw [if_pos running.2]
        have early : ¬ s.proc.alarmInterval ≤ s.proc.ticksSinceAlarm + 1 := fun late => due ⟨running, late⟩
        have same : s.proc.ticksSinceAlarm = n := inv.exact running.1
        refine ⟨user, fun _ => ?_, fun _ => ?_⟩
        · rw [alarm]
          exact congrArg (· + 1) same
        · rw [alarm]
          exact Int.not_le.mp early
      · rw [if_neg running] at alarm
        -- An alarm is set but its handler runs, so neither count moves.
        have handler (set : 0 < s.proc.alarmInterval) : ¬ s.proc.inAlarmHandler = false :=
          fun outside => running ⟨set, outside⟩
        refine ⟨user, fun set => ?_, fun set => ?_⟩
        · rw [alarm] at set ⊢
          rw [if_neg (handler set)]
          exact inv.exact set
        · rw [alarm] at set ⊢
          exact inv.below set
  · rw [counted_calm inv.user stepped timer] at taken
    rw [nextAlarm_calm frame timer] at alarm
    cases taken
    by_cases sigalarm : calls s e = some SYS_sigalarm
    · rw [if_pos sigalarm] at alarm
      simp only [if_pos sigalarm]
      refine ⟨user, fun _ => ?_, fun set => ?_⟩
      · rw [alarm]
        rfl
      · rw [alarm] at set ⊢
        exact set
    · rw [if_neg sigalarm] at alarm
      simp only [if_neg sigalarm]
      have kept : t.proc.alarmInterval = s.proc.alarmInterval ∧ t.proc.ticksSinceAlarm = s.proc.ticksSinceAlarm := by
        rw [alarm]
        split_ifs <;> exact ⟨rfl, rfl⟩
      refine ⟨user, fun set => ?_, fun set => ?_⟩
      · rw [kept.1] at set
        rw [kept.2]
        exact inv.exact set
      · rw [kept.1] at set ⊢
        rw [kept.2]
        exact inv.below set

theorem CountInv.delivered (inv : CountInv k h) (taken : step k h.state e = some t) (delivered : Delivered h.state t) :
    TimerTick e ∧ 0 < h.state.proc.alarmInterval ∧ (h.ticks : Int) + 1 = h.state.proc.alarmInterval := by
  obtain ⟨timer, running, late⟩ := (delivered_iff inv.user taken).mp delivered
  have count := inv.exact running.1
  have below := inv.below running.1
  exact ⟨timer, running.1, by omega⟩

/-- In every run of a process the tick at which an alarm is delivered is, of those taken in user mode
outside of a handler since the last `sigalarm` or delivery, the one whose number is the interval. -/
theorem alarm_period_exact {es : List Event} (user : InUser k s) (fresh : s.proc.fields = allocprocFields)
    (ran : run (counted k) ⟨s, 0⟩ es = some h) :
    (0 < h.state.proc.alarmInterval → 0 ≤ h.state.proc.ticksSinceAlarm ∧
      h.state.proc.ticksSinceAlarm < h.state.proc.alarmInterval) ∧
    ∀ e t, step k h.state e = some t →
      (Delivered h.state t → TimerTick e ∧ (h.ticks : Int) + 1 = h.state.proc.alarmInterval) ∧
      (h.state.proc.alarmInterval ≤ 0 → ¬ Delivered h.state t) := by
  have off : s.proc.alarmInterval = 0 := congrArg AlarmFields.alarmInterval fresh
  have unset : ¬ 0 < s.proc.alarmInterval := by omega
  have start : CountInv k ⟨s, 0⟩ := ⟨user, fun set => absurd set unset, fun set => absurd set unset⟩
  have inv := run_inductive (fun _ _ _ => counted_inv) start ran
  refine ⟨fun set => ⟨?_, inv.below set⟩, fun e t taken => ⟨fun delivered => ?_, fun none delivered => ?_⟩⟩
  · have count := inv.exact set
    omega
  · grind [inv.delivered]
  · obtain ⟨-, set, -⟩ := inv.delivered taken delivered
    omega

end

-- sigalarm(2, 0x40), a tick, sigalarm(1, 0x40): the second call starts the count again.
def resetRun : List Event := [loadCall 22 2 0x40, ecall, timerTick, loadCall 22 1 0x40, ecall]

theorem alarm_period_exact_reset : ∃ h t, run (counted sampleKernel) ⟨newborn, 0⟩ resetRun = some h ∧
    step sampleKernel h.state timerTick = some t ∧ Delivered h.state t ∧
    (h.ticks : Int) + 1 = h.state.proc.alarmInterval := by
  obtain ⟨h, ran, rest⟩ := exists_some (o := run (counted sampleKernel) ⟨newborn, 0⟩ resetRun)
    (P := fun h => (step sampleKernel h.state timerTick).any fun t => Delivered h.state t) (by decide +kernel)
  obtain ⟨t, taken, delivered⟩ := exists_some rest
  have period := alarm_period_exact ⟨rfl, rfl, rfl⟩ rfl ran
  exact ⟨h, t, ran, taken, delivered, ((period.2 timerTick t taken).1 delivered).2⟩

end Xv6.Trap
