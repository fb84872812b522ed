import Xv6.Proc.Parents

namespace Xv6.ProcTable
open Lib

/-! ## Taking pids -/

def takesPid (s : State) : Event → Bool
  | .next p _ => match s.pc p with
      | .allocproc i => if below : i < NPROC then decide ((s.proc ⟨i, below⟩).state = .unused) else false
      | _ => false
  | _ => false

def pidsTaken (s : State) : List Event → Nat
  | [] => 0
  | e :: es => (if takesPid s e then 1 else 0) + match step s e with
      | none => 0
      | some t => pidsTaken t es

def PidLeft (s : State) (e : Event) : Prop := takesPid s e = true → s.nextpid.toNat < 2 ^ 31

section
variable {s t : State} {p q np : Slot} {ok : Bool} {i : Nat} {e : Event} {pid : BitVec 32}

theorem allocSlot_nextpid : (allocSlot s p i ok).nextpid =
    if (if below : i < NPROC then decide ((s.proc ⟨i, below⟩).state = .unused) else false) then s.nextpid + 1 else s.nextpid := by
  simp only [allocSlot]
  split_ifs <;> simp_all [State.goto, State.set, State.blame]

theorem waitSlot_nextpid {havekids : Bool} : (waitSlot s p i havekids ok).nextpid = s.nextpid := by
  simp only [waitSlot]
  split_ifs <;> rfl

theorem killSlot_nextpid : (killSlot s p pid i).nextpid = s.nextpid := by
  simp only [killSlot]
  split_ifs <;> rfl

theorem wakeupSlot_nextpid {chan : Chan} : (wakeupSlot s chan p).nextpid = s.nextpid := by
  unfold wakeupSlot
  split_ifs <;> rfl

theorem schedule_nextpid : (schedule s p).nextpid = s.nextpid := by
  unfold schedule
  cases s.pc p <;> rfl

theorem nextSection_nextpid (taken : nextSection s p ok = some t) :
    t.nextpid = if takesPid s (.next p ok) then s.nextpid + 1 else s.nextpid := by
  unfold nextSection at taken
  cases place : s.pc p with
  | allocproc i => grind [takesPid, allocSlot_nextpid]
  | waiting i havekids => grind [takesPid, waitSlot_nextpid]
  | killing pid i => grind [takesPid, killSlot_nextpid]
  | outside | asleep inWait => simp [place] at taken
  | adopt np =>
    simp only [place] at taken
    split_ifs at taken
    cases taken
    simp [takesPid, place, State.goto, State.set]
  | start np =>
    simp only [place, Option.some.injEq] at taken
    simp [← taken, takesPid, place, State.goto, State.set]
  | exiting status =>
    simp only [place, Option.some.injEq] at taken
    simp [← taken, takesPid, place, State.set]
  | rewait => grind [takesPid, State.goto]

theorem step_nextpid (taken : step s e = some t) : t.nextpid = if takesPid s e then s.nextpid + 1 else s.nextpid := by
  cases e with
  | next p ok => grind [step, nextSection_nextpid]
  | fork p | kill p pid | sleep p chan | trap p =>
    obtain ⟨-, -, ⟨⟩⟩ := enter_eq_some taken
    rfl
  | exit p status | wait p =>
    simp only [step] at taken
    split_ifs at taken
    obtain ⟨-, -, ⟨⟩⟩ := enter_eq_some taken
    rfl
  | wakeup chan i =>
    cases taken
    exact wakeupSlot_nextpid
  | yield p =>
    simp only [step] at taken
    split_ifs at taken
    cases taken
    rfl
  | schedule i =>
    simp only [step] at taken
    split_ifs at taken
    cases taken
    exact schedule_nextpid

theorem step_nextpid_toNat (left : PidLeft s e) (taken : step s e = some t) :
    t.nextpid.toNat = s.nextpid.toNat + if takesPid s e then 1 else 0 := by
  rw [step_nextpid taken]
  split
  next takes =>
    have small := left takes
    exact Nat.mod_eq_of_lt (by simp; omega)
  next => rfl

theorem meets_pidLeft {es : List Event} (few : s.nextpid.toNat + pidsTaken s es ≤ 2 ^ 31) : Meets step PidLeft s es := by
  induction es generalizing s with
  | nil => trivial
  | cons e es ih =>
    rw [pidsTaken] at few
    have left : PidLeft s e := by
      intro takes
      rw [if_pos takes] at few
      omega
    refine ⟨left, fun t taken => ih ?_⟩
    rw [taken] at few
    rw [step_nextpid_toNat left taken]
    dsimp only at few
    omega

/-! ## Pids in use -/

structure Pids (s : State) : Prop where
  family : Family s
  low : 2 ≤ s.nextpid.toNat
  range : ∀ p, s.phase p ≠ .unused → 0 < (s.proc p).pid.toNat ∧ (s.proc p).pid.toNat < s.nextpid.toNat
  distinct : ∀ p q, s.phase p ≠ .unused → s.phase q ≠ .unused → (s.proc p).pid = (s.proc q).pid → p = q

theorem Pids.keep (pids : Pids s) (family : Family t) (more : s.nextpid.toNat ≤ t.nextpid.toNat)
    (slots : ∀ q, t.phase q ≠ .unused → s.phase q ≠ .unused ∧ (t.proc q).pid = (s.proc q).pid) : Pids t where
  family := family
  low := Nat.le_trans pids.low more
  range p used := by
    obtain ⟨before, same⟩ := slots p used
    obtain ⟨pos, below⟩ := pids.range p before
    rw [same]
    exact ⟨pos, Nat.lt_of_lt_of_le below more⟩
  distinct p q usedP usedQ equal := by grind [pids.distinct]

theorem Pids.allocated (pids : Pids s) (family : Family t) (more : t.nextpid.toNat = s.nextpid.toNat + 1)
    (pid : (t.proc np).pid = s.nextpid) (slots : ∀ q, q ≠ np → Same s t q) : Pids t := by
  have old (q : Slot) (other : q ≠ np) (used : t.phase q ≠ .unused) :
      0 < (t.proc q).pid.toNat ∧ (t.proc q).pid.toNat < s.nextpid.toNat := by
    rw [(slots q other).pid]
    exact pids.range q ((slots q other).phase ▸ used)
  refine ⟨family, by have := pids.low; omega, fun p used => ?_, fun p q usedP usedQ equal => ?_⟩
  · grind [pids.low]
  · by_cases newP : p = np
    · grind
    · by_cases newQ : q = np
      · grind
      · rw [(slots p newP).pid, (slots q newQ).pid] at equal
        exact pids.distinct p q ((slots p newP).phase ▸ usedP) ((slots q newQ).phase ▸ usedQ) equal

theorem Same.used (same : Same s t q) (used : t.phase q ≠ .unused) : s.phase q ≠ .unused ∧ (t.proc q).pid = (s.proc q).pid :=
  ⟨same.phase ▸ used, same.pid⟩

theorem step_pids (left : PidLeft s e) (taken : step s e = some t) (pids : Pids s) : Pids t := by
  have next := step_nextpid_toNat left taken
  have more : s.nextpid.toNat ≤ t.nextpid.toNat := by omega
  have family := step_family taken pids.family
  cases step_move taken with
  | quiet e silent slots tasks => exact pids.keep family more fun q => (slots q).used
  | allocated p np i place slot live before after parent pid slots fresh task tasks =>
    refine pids.allocated family ?_ pid slots
    have takes : takesPid s (.next p true) = true := by
      subst slot
      simp [takesPid, place, before]
    rw [next, if_pos takes]
  | allocFailed p np i place slot before after parent slots tasks
  | reaped p np i havekids place slot child before after parent slots tasks =>
    refine pids.keep family more fun q used => (slots q fun same => used ?_).used used
    exact phase_eq_unused.mpr (same ▸ after)
  | adopted p np ok place parent phase pid xstate slots task tasks =>
    refine pids.keep family more fun q used => ?_
    by_cases same : q = np
    · subst same
      exact ⟨phase ▸ used, pid⟩
    · exact (slots q same).used used
  | started p np ok place after parent pid slots task tasks =>
    have fits : Fits s p (.start np) := pids.family.tasks p _ (by rw [State.task, place, Pc.task])
    refine pids.keep family more fun q used => ?_
    by_cases same : q = np
    · subst same
      refine ⟨?_, pid⟩
      rw [fits.2.1]
      decide
    · exact (slots q same).used used
  | exits p status place other live phases parents equal xstates task tasks =>
    exact pids.keep family more fun q used => ⟨phases q ▸ used, equal q⟩
  | dies p ok status place live after parent pid xstate slots tasks =>
    refine pids.keep family more fun q used => ?_
    by_cases same : q = p
    · grind
    · exact (slots q same).used used

theorem initial_pids : Pids initial where
  family := initial_family
  low := by decide
  range p used := by grind [phase_eq_unused, initial, unusedProc]
  distinct p q usedP usedQ _ := by
    have only (p : Slot) (used : initial.phase p ≠ .unused) : p = initproc := by
      by_contra other
      exact used (by simp [phase_eq_unused, initial, other, unusedProc])
    rw [only p usedP, only q usedQ]

theorem forked_pid (forked : entry s e = some (.forked np pid)) : takesPid s e = true ∧ pid = s.nextpid := by
  cases e with
  | next p ok =>
    simp only [entry] at forked
    split_ifs at forked
    cases place : s.pc p with
    | allocproc i => grind [allocEntry, takesPid]
    | waiting i havekids => grind [waitEntry]
    | _ => simp [place] at forked
  | exit p status => cases forked
  | _ => cases forked

/-- In every run that takes at most 2³¹ - 2 pids after the one of init, the pids of the processes are
different, and every pid that `fork` returns is positive. -/
theorem pids_unique {es : List Event} (reached : run step initial es = some s) (few : pidsTaken initial es ≤ 2 ^ 31 - 2) :
    (∀ p q, (s.proc p).state ≠ .unused → (s.proc q).state ≠ .unused → (s.proc p).pid = (s.proc q).pid → p = q) ∧
    ∀ before e after t np pid, es = before ++ e :: after → run step initial before = some t →
      entry t e = some (.forked np pid) → 0 < pid.toInt := by
  have start : initial.nextpid.toNat = 2 := by decide
  have meets : Meets step PidLeft initial es := meets_pidLeft (by omega)
  have pids : Pids s := run_invariant (fun _ _ _ => step_pids) meets initial_pids reached
  refine ⟨fun p q usedP usedQ => ?_, fun before e after t np pid split reachedT forked => ?_⟩
  · exact pids.distinct p q (mt phase_eq_unused.mp usedP) (mt phase_eq_unused.mp usedQ)
  · subst split
    obtain ⟨earlier, rest⟩ := meets_append.mp meets
    obtain ⟨takes, rfl⟩ := forked_pid forked
    have small := (rest t reachedT).1 takes
    have pidsT : Pids t := run_invariant (fun _ _ _ => step_pids) earlier initial_pids reachedT
    have low := pidsT.low
    rw [BitVec.toInt_eq_toNat_of_lt (by omega)]
    omega

end

theorem pids_unique_forkForkExit : ∃ s, run step initial forkForkExit = some s ∧ pidsTaken initial forkForkExit = 2 ∧
    ∀ p q, (s.proc p).state ≠ .unused → (s.proc q).state ≠ .unused → (s.proc p).pid = (s.proc q).pid → p = q := by
  have taken : pidsTaken initial forkForkExit = 2 := by decide +kernel
  refine exists_some_of (fun s => s.nextpid = 4) (by decide +kernel) fun s reached _ => ?_
  exact ⟨taken, (pids_unique reached (by rw [taken]; decide)).1⟩

/-! ## The counter wraps around -/

def initProc : Proc := { unusedProc with state := .running, pid := 1 }

def two (c₀ : Pc) (v : Proc) (c₁ : Pc) (n : BitVec 32) (lock : Option Slot) : State where
  proc p := if p = 0 then initProc else if p = 1 then v else unusedProc
  pc p := if p = 0 then c₀ else if p = 1 then c₁ else .outside
  nextpid := n
  waitLock := lock
  blamed _ := false

section
variable {c₀ c₁ : Pc} {v : Proc} {n : BitVec 32} {lock : Option Slot}

@[simp] theorem two_set (w : Proc) : (two c₀ v c₁ n lock).set 1 w = two c₀ w c₁ n lock := by
  simp only [two, State.set, State.mk.injEq, and_self, and_true]
  funext p
  by_cases one : p = 1
  · subst one
    rfl
  · simp [one]

@[simp] theorem two_goto_zero (c : Pc) : (two c₀ v c₁ n lock).goto 0 c = two c v c₁ n lock := by
  simp only [two, State.goto, State.mk.injEq, and_self, and_true, true_and]
  funext p
  by_cases zero : p = 0
  · subst zero
    rfl
  · simp [zero]

@[simp] theorem two_goto_one (c : Pc) : (two c₀ v c₁ n lock).goto 1 c = two c₀ v c n lock := by
  simp only [two, State.goto, State.mk.injEq, and_self, and_true, true_and]
  funext p
  by_cases one : p = 1
  · subst one
    rfl
  · simp [one]

@[simp] theorem two_blame : (two c₀ v c₁ n lock).blame 1 false = two c₀ v c₁ n lock := by
  have same : Function.update (fun _ : Slot => false) 1 false = fun _ => false := Function.update_eq_self 1 fun _ => false
  simp only [two, State.blame, same]

end

def child (n : BitVec 32) (state : ProcState) (parent : Option Slot) : Proc :=
  { unusedProc with pid := n, state := state, parent := parent }

theorem two_reparent (c₀ c₁ : Pc) (n k : BitVec 32) (state : ProcState) (lock : Option Slot) :
    reparent (two c₀ (child k state (some 0)) c₁ n lock) 1 = two c₀ (child k state (some 0)) c₁ n lock := by
  have none (p : Slot) : ((two c₀ (child k state (some 0)) c₁ n lock).proc p).parent ≠ some 1 := by
    simp only [two]
    split_ifs <;> simp [initProc, unusedProc, child]
  simp only [reparent, none, ↓reduceIte]

theorem run_scan (c : Pc) (n : BitVec 32) :
    run step (two .outside unusedProc c n none) [.fork 0, .next 0 true] = some (two (.allocproc 1) unusedProc c n none) := by
  have enters : step (two .outside unusedProc c n none) (.fork 0) = some (two (.allocproc 0) unusedProc c n none) :=
    congrArg some (two_goto_zero _)
  have passes : step (two (.allocproc 0) unusedProc c n none) (.next 0 true) = some (two (.allocproc 1) unusedProc c n none) :=
    congrArg some (two_goto_zero _)
  simp only [run_cons, run_nil, enters, passes, Option.bind_some]

theorem run_born (c : Pc) (n : BitVec 32) :
    run step (two (.allocproc 1) unusedProc c n none) [.next 0 true, .next 0 true, .next 0 true] =
      some (two .outside (child n .runnable (some 0)) .outside (n + 1) none) := by
  have finds : step (two (.allocproc 1) unusedProc c n none) (.next 0 true) =
      some (two (.adopt 1) (child n .used none) .outside (n + 1) none) := by
    change some (((((two (.allocproc 1) unusedProc c (n + 1) none).set 1 (child n .used none)).blame 1 false).goto 1
      .outside).goto 0 (.adopt 1)) = _
    rw [two_set, two_blame, two_goto_one, two_goto_zero]
  have adopts : step (two (.adopt 1) (child n .used none) .outside (n + 1) none) (.next 0 true) =
      some (two (.start 1) (child n .used (some 0)) .outside (n + 1) none) := by
    change some (((two (.adopt 1) (child n .used none) .outside (n + 1) none).set 1 (child n .used (some 0))).goto 0
      (.start 1)) = _
    rw [two_set, two_goto_zero]
  have starts : step (two (.start 1) (child n .used (some 0)) .outside (n + 1) none) (.next 0 true) =
      some (two .outside (child n .runnable (some 0)) .outside (n + 1) none) := by
    change some (((two (.start 1) (child n .used (some 0)) .outside (n + 1) none).set 1 (child n .runnable (some 0))).goto 0
      .outside) = _
    rw [two_set, two_goto_zero]
  simp only [run_cons, run_nil, finds, adopts, starts, Option.bind_some]

theorem run_exit (n k : BitVec 32) :
    run step (two .outside (child k .runnable (some 0)) .outside n none) [.schedule 1, .exit 1 0, .next 1 true] =
      some (two .outside (child k .zombie (some 0)) (.exiting 0) n none) := by
  have runs : step (two .outside (child k .runnable (some 0)) .outside n none) (.schedule 1) =
      some (two .outside (child k .running (some 0)) .outside n none) :=
    congrArg some (two_set _)
  have exits : step (two .outside (child k .running (some 0)) .outside n none) (.exit 1 0) =
      some (two .outside (child k .running (some 0)) (.exiting 0) n (some 1)) := by
    change some ((reparent (two .outside (child k .running (some 0)) .outside n (some 1)) 1).goto 1 (.exiting 0)) = _
    rw [two_reparent, two_goto_one]
  have dies : step (two .outside (child k .running (some 0)) (.exiting 0) n (some 1)) (.next 1 true) =
      some (two .outside (child k .zombie (some 0)) (.exiting 0) n none) := by
    change some ((two .outside (child k .running (some 0)) (.exiting 0) n none).set 1 (child k .zombie (some 0))) = _
    rw [two_set]
  simp only [run_cons, run_nil, runs, exits, dies, Option.bind_some]

theorem run_wait (c : Pc) (n k : BitVec 32) :
    run step (two .outside (child k .zombie (some 0)) c n none) [.wait 0, .next 0 true, .next 0 true] =
      some (two .outside unusedProc c n none) := by
  have enters : step (two .outside (child k .zombie (some 0)) c n none) (.wait 0) =
      some (two (.waiting 0 false) (child k .zombie (some 0)) c n (some 0)) := by
    change some ((two .outside (child k .zombie (some 0)) c n (some 0)).goto 0 (.waiting 0 false)) = _
    rw [two_goto_zero]
  have passes : step (two (.waiting 0 false) (child k .zombie (some 0)) c n (some 0)) (.next 0 true) =
      some (two (.waiting 1 false) (child k .zombie (some 0)) c n (some 0)) :=
    congrArg some (two_goto_zero _)
  have reaps : step (two (.waiting 1 false) (child k .zombie (some 0)) c n (some 0)) (.next 0 true) =
      some (two .outside unusedProc c n none) := by
    change some (((two (.waiting 1 false) (child k .zombie (some 0)) c n none).goto 0 .outside).set 1 unusedProc) = _
    rw [two_goto_zero, two_set]
  simp only [run_cons, run_nil, enters, passes, reaps, Option.bind_some]

theorem run_cycles (n : Nat) : ∃ es c, run step initial es = some (two .outside unusedProc c (2 + BitVec.ofNat 32 n) none) := by
  induction n with
  | zero =>
    have runs : step initial (.schedule 0) = some (two .outside unusedProc .outside 2 none) := by
      refine congrArg some (State.mk.injEq .. ▸ ⟨?_, ?_, rfl, rfl, rfl⟩)
      · funext p
        by_cases zero : p = 0
        · subst zero
          rfl
        · simp [initial, initproc, zero]
      · funext p
        simp [initial]
    exact ⟨[.schedule 0], .outside, runs⟩
  | succ n ih =>
    obtain ⟨es, c, before⟩ := ih
    have next : 2 + BitVec.ofNat 32 (n + 1) = 2 + BitVec.ofNat 32 n + 1 := by
      rw [← BitVec.ofNat_add_ofNat, BitVec.add_assoc]
      rfl
    have cycle := run_trans (run_trans (run_scan c (2 + BitVec.ofNat 32 n)) (run_born ..)) (run_trans (run_exit ..) (run_wait ..))
    rw [next]
    exact ⟨_, _, run_trans before cycle⟩

/-- After 2³¹ - 2 children `fork` returns a negative pid, and after 2³² - 1 the pid of init. -/
theorem pids_wrap :
    (∃ es s e t np pid, run step initial es = some s ∧ step s e = some t ∧ entry s e = some (.forked np pid) ∧ pid.toInt < 0) ∧
    ∃ es s, run step initial es = some s ∧ (s.proc 0).state ≠ .unused ∧ (s.proc 1).state ≠ .unused ∧
      (s.proc 0).pid = (s.proc 1).pid := by
  constructor
  · obtain ⟨es, c, cycles⟩ := run_cycles (2 ^ 31 - 2)
    have negative : (2 + BitVec.ofNat 32 (2 ^ 31 - 2)).toInt < 0 := by decide
    exact ⟨_, _, .next 0 true, _, 1, _, run_trans cycles (run_scan ..), rfl, rfl, negative⟩
  · obtain ⟨es, c, cycles⟩ := run_cycles (2 ^ 32 - 1)
    have again : 1 = 2 + BitVec.ofNat 32 (2 ^ 32 - 1) := by decide
    exact ⟨_, _, run_trans cycles (run_trans (run_scan ..) (run_born ..)), nofun, nofun, again⟩

end Xv6.ProcTable
