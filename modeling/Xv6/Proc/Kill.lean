import Xv6.Proc.Table

namespace Xv6.ProcTable
open Lib

/-! ## What a slot may hold -/

structure CleanSlot (p : Proc) (blamed : Bool) : Prop where
  unused : p.state = .unused → p.killed = false ∧ p.chan = none ∧ p.pid = 0
  killed : p.killed = true → blamed = true

def Clean (s : State) : Prop := ∀ p, CleanSlot (s.proc p) (s.blamed p)

-- The pid and the slot that the next critical section of a running kill() compares.
def killVisit (s : State) : Event → Option (BitVec 32 × Slot)
  | .next p _ => match s.pc p with
      | .killing pid i => if below : i < NPROC then some (pid, ⟨i, below⟩) else none
      | _ => none
  | _ => none

def KillFindsAllocated (s : State) (e : Event) : Prop :=
  ∀ visit ∈ killVisit s e, (s.proc visit.2).state = .unused → visit.1 ≠ 0

instance (s : State) (e : Event) : Decidable (KillFindsAllocated s e) :=
  match found : killVisit s e with
  | none => isTrue (by simp [KillFindsAllocated, found])
  | some visit => decidable_of_iff ((s.proc visit.2).state = .unused → visit.1 ≠ 0)
      (by simp [KillFindsAllocated, found])

section
variable {s t : State} {p q np : Slot} {v : Proc} {ok : Bool} {i : Nat}

theorem CleanSlot.freeproc (v : Proc) (b : Bool) : CleanSlot (freeproc v) b := by
  refine ⟨fun _ => ⟨rfl, rfl, rfl⟩, ?_⟩
  rintro ⟨⟩

theorem CleanSlot.allocated {b : Bool} (allocated : v.state ≠ .unused) (killed : v.killed = true → b = true) :
    CleanSlot v b :=
  ⟨fun unused => absurd unused allocated, killed⟩

theorem Clean.set (clean : Clean s) (new : CleanSlot v (s.blamed p)) : Clean (s.set p v) := by
  intro q
  by_cases same : q = p
  · subst same
    simpa [State.set] using new
  · simpa [State.set, same] using clean q

theorem Clean.set_allocated (clean : Clean s) (allocated : v.state ≠ .unused) (same : v.killed = (s.proc p).killed) :
    Clean (s.set p v) :=
  clean.set (.allocated allocated fun killed => (clean p).killed (same ▸ killed))

theorem Clean.set_blame {b : Bool} (clean : Clean s) (new : CleanSlot v b) : Clean ((s.set p v).blame p b) := by
  intro q
  by_cases same : q = p
  · subst same
    simpa [State.set, State.blame] using new
  · simpa [State.set, State.blame, same] using clean q

theorem Clean.goto (clean : Clean s) (p : Slot) (c : Pc) : Clean (s.goto p c) := clean

theorem enter_eq_some {after : Option State} (taken : enter s p after = some t) :
    (s.proc p).state = .running ∧ s.pc p = .outside ∧ after = some t := by grind [enter]

/-! ## One lemma for each critical section -/

section

variable (clean : Clean s)

include clean

theorem allocSlot_clean : Clean (allocSlot s p i ok) := by
  simp only [allocSlot]
  split_ifs with below unused granted
  · have before := (clean ⟨i, below⟩).unused unused
    refine (Clean.goto (Clean.goto (Clean.set_blame (s := { s with nextpid := s.nextpid + 1 }) clean ?_) _ _) _ _)
    refine .allocated (by simp) ?_
    intro killed
    rw [before.1] at killed
    cases killed
  · exact Clean.goto (Clean.set (s := { s with nextpid := s.nextpid + 1 }) clean (.freeproc _ _)) _ _
  · exact clean.goto _ _
  · exact clean.goto _ _

theorem reparent_clean : Clean (reparent s p) := by
  intro q
  have before := clean q
  simp only [reparent]
  split_ifs
  · exact ⟨before.unused, before.killed⟩
  · exact before

theorem waitSlot_clean {havekids : Bool} : Clean (waitSlot s p i havekids ok) := by
  simp only [waitSlot]
  split_ifs with below child zombie copied
  · exact Clean.set (s := State.goto { s with waitLock := none } p .outside) clean (.freeproc _ _)
  · exact clean
  · exact clean.goto _ _
  · exact clean.goto _ _
  · exact clean
  · grind [Clean, Clean.goto, Clean.set_allocated]

theorem killSlot_clean {pid : BitVec 32}
    (found : ∀ below : i < NPROC, (s.proc ⟨i, below⟩).state = .unused → pid ≠ 0) : Clean (killSlot s p pid i) := by
  simp only [killSlot]
  split_ifs with below same sleeping
  · refine Clean.goto (Clean.set_blame clean ?_) _ _
    exact .allocated (by simp) (fun _ => by simp [sleeping])
  · have allocated : (s.proc ⟨i, below⟩).state ≠ .unused := by
      intro unused
      exact found below unused (same ▸ ((clean ⟨i, below⟩).unused unused).2.2)
    refine Clean.goto (Clean.set_blame clean ?_) _ _
    exact .allocated allocated (fun _ => by simp [allocated])
  · exact clean.goto _ _
  · exact clean.goto _ _

theorem wakeupSlot_clean {chan : Chan} : Clean (wakeupSlot s chan p) := by
  grind [wakeupSlot, clean.set_allocated]

theorem schedule_clean : Clean (schedule s p) := by
  grind [schedule, Clean.goto, clean.set_allocated]

theorem nextSection_clean (found : KillFindsAllocated s (.next p ok)) (taken : nextSection s p ok = some t) :
    Clean t := by
  unfold nextSection at taken
  cases place : s.pc p with
  | outside | asleep inWait => simp [place] at taken
  | allocproc i => grind [allocSlot_clean]
  | adopt np =>
    simp only [place] at taken
    split_ifs at taken
    cases taken
    refine Clean.goto ?_ _ _
    exact clean.set ⟨(clean np).unused, (clean np).killed⟩
  | start np => grind [Clean.goto, clean.set_allocated]
  | exiting status =>
    simp only [place, Option.some.injEq] at taken
    rw [← taken]
    exact Clean.set_allocated (s := { s with waitLock := none }) clean (by simp) rfl
  | waiting i havekids => grind [waitSlot_clean]
  | rewait => grind [Clean, Clean.goto]
  | killing pid i =>
    simp only [place, Option.some.injEq] at taken
    rw [← taken]
    refine killSlot_clean clean ?_
    intro below
    exact found (pid, ⟨i, below⟩) (by simp [killVisit, place, below])

end

theorem step_clean {e : Event} (found : KillFindsAllocated s e) (taken : step s e = some t) (clean : Clean s) : Clean t := by
  cases e with
  | fork p | kill p pid =>
    obtain ⟨-, -, ⟨⟩⟩ := enter_eq_some taken
    exact clean
  | exit p status =>
    simp only [step] at taken
    split_ifs at taken
    obtain ⟨-, -, ⟨⟩⟩ := enter_eq_some taken
    exact Clean.goto (reparent_clean (s := { s with waitLock := some p }) clean) _ _
  | wait p =>
    simp only [step] at taken
    split_ifs at taken
    obtain ⟨-, -, ⟨⟩⟩ := enter_eq_some taken
    exact clean
  | sleep p chan => grind [step, enter_eq_some, Clean.goto, clean.set_allocated]
  | next p ok => grind [step, nextSection_clean]
  | trap p =>
    obtain ⟨running, -, ⟨⟩⟩ := enter_eq_some taken
    exact clean.set_blame (.allocated (by simp [running]) (fun _ => rfl))
  | wakeup chan i =>
    cases taken
    exact wakeupSlot_clean clean
  | yield p => grind [step, clean.set_allocated]
  | schedule i => grind [step, schedule_clean]

theorem clean_initial : Clean initial := by
  intro p
  by_cases first : p = initproc
  · simp only [initial, first, ↓reduceIte]
    exact .allocated (by simp) (by simp [unusedProc])
  · simp only [initial, first, ↓reduceIte]
    exact ⟨fun _ => ⟨rfl, rfl, rfl⟩, by simp [unusedProc]⟩

/-! ## Every interleaving -/

theorem allocSlot_adopt (found : (allocSlot s p i ok).pc p = .adopt np) :
    (s.proc np).state = .unused ∧ ((allocSlot s p i ok).proc np).killed = (s.proc np).killed := by
  simp only [allocSlot] at found ⊢
  split_ifs at found ⊢ with below unused granted
  · obtain rfl : (⟨i, below⟩ : Slot) = np := by simpa [State.goto] using found
    exact ⟨unused, by simp [State.goto, State.blame, State.set]⟩
  all_goals simp [State.goto] at found

/-- In every interleaving in which no `kill(0)` looks at an UNUSED slot, UNUSED slots are clean, so a
slot that `allocproc` returns is not killed, and a killed process has been hit by a `kill` with its
own pid while it was allocated, or has taken an unexpected trap. -/
theorem kill_hits_its_target {es : List Event} (meets : Meets step KillFindsAllocated initial es)
    (reached : run step initial es = some s) :
    (∀ q, (s.proc q).state = .unused → (s.proc q).killed = false ∧ (s.proc q).chan = none) ∧
    (∀ p i ok t np, s.pc p = .allocproc i → step s (.next p ok) = some t → t.pc p = .adopt np →
      (t.proc np).killed = false) ∧
    (∀ q, (s.proc q).state ≠ .unused → (s.proc q).killed = true → s.blamed q = true) := by
  have clean : Clean s := run_invariant (fun _ _ _ => step_clean) meets clean_initial reached
  refine ⟨?_, ?_, ?_⟩
  · intro q unused
    exact ⟨((clean q).unused unused).1, ((clean q).unused unused).2.1⟩
  · intro p i ok t np place taken found
    simp only [step, nextSection, place] at taken
    split_ifs at taken
    cases taken
    obtain ⟨unused, same⟩ := allocSlot_adopt found
    rw [same]
    exact ((clean np).unused unused).1
  · intro q _ killed
    exact (clean q).killed killed

end

-- init forks, and the child is killed by its pid before it first runs.
def forkKill : List Event :=
  [.schedule 0, .fork 0, .next 0 true, .next 0 true, .next 0 true, .next 0 true, .kill 0 2, .next 0 true, .next 0 true]

theorem kill_hits_its_target_forkKill : ∃ s, run step initial forkKill = some s ∧
    (s.proc 1).killed = true ∧
    (∀ q, (s.proc q).state = .unused → (s.proc q).killed = false ∧ (s.proc q).chan = none) ∧
    (∀ p i ok t np, s.pc p = .allocproc i → step s (.next p ok) = some t → t.pc p = .adopt np →
      (t.proc np).killed = false) ∧
    (∀ q, (s.proc q).state ≠ .unused → (s.proc q).killed = true → s.blamed q = true) := by
  refine exists_some_of (fun s => (s.proc 1).killed = true) (by decide +kernel) fun s reached killed => ?_
  exact ⟨killed, kill_hits_its_target (by decide +kernel) reached⟩

/-- `kill(0)` passes over init and marks the free slot behind it, in which the next child starts. -/
theorem kill_zero_hits_unused : ∃ s, run step initial [.schedule 0, .kill 0 0, .next 0 true, .next 0 true] =
    some s ∧ (s.proc 1).state = .unused ∧ (s.proc 1).killed = true :=
  exists_some (by decide +kernel)

end Xv6.ProcTable
