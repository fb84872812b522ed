import Xv6.Proc.Scheduler

namespace Xv6.Scheduler
open Lib
open ProcTable (Slot ProcState Chan Proc initproc freeproc)

attribute [local simp] Waker.locks locks

/-! ## What a thread's place says -/

def expected : Pc → ProcState
  | .yieldSwtch _ => .runnable
  | .sleepSwtch _ => .sleeping
  | .exitRelease | .exitSwtch => .zombie
  | _ => .running

def forks : Pc → Option Slot
  | .forkContext np | .forkRelease np | .forkWaitLock np | .forkParent np | .forkWaitRelease np | .forkLock np
  | .forkState np => some np
  | .yieldAcquire k | .yieldState k | .yieldSwtch k | .yieldRelease k => forks k
  | _ => none

def spawned : Pc → Option Slot
  | .forkRelease np | .forkWaitLock np | .forkParent np | .forkWaitRelease np | .forkLock np
  | .forkState np => some np
  | .yieldAcquire k | .yieldState k | .yieldSwtch k | .yieldRelease k => spawned k
  | _ => none

def interrupted : Pc → Option Pc
  | .yieldAcquire k | .yieldState k | .yieldSwtch k | .yieldRelease k => some k
  | _ => none

def Proper (self : Slot) (pc : Pc) : Prop :=
  ∀ k, interrupted pc = some k → locks self k = [] ∧ interrupted k = none

structure SameFork (pc k : Pc) : Prop where
  forks : forks k = forks pc
  spawned : spawned k = spawned pc

structure NoFork (k : Pc) : Prop where
  forks : forks k = none
  spawned : spawned k = none

structure Stays (p : Slot) (pc k : Pc) : Prop where
  locks : ∀ l, l ∈ locks p k ↔ l ∈ locks p pc
  state : expected k = expected pc

structure StaysRunning (p : Slot) (pc k : Pc) : Prop extends Stays p pc k where
  running : expected pc = .running

section
variable (m : Memory) (self : Slot) (pc : Pc)

inductive Typed : Instr → Prop where
  | jump (k : Pc) (stays : Stays self pc k) (fork : SameFork pc k) : Typed (.jump k)
  | acquire (l : Lock) (k : Pc) (locks : ∀ l', l' ∈ locks self k ↔ l' = l ∨ l' ∈ locks self pc)
      (state : expected k = expected pc) (fork : SameFork pc k) : Typed (.acquire l k)
  | release (l : Lock) (k : Pc) (held : l ∈ locks self pc)
      (locks : ∀ l', l' ∈ locks self k ↔ l' ≠ l ∧ l' ∈ locks self pc) (state : expected k = expected pc)
      (fork : SameFork pc k) : Typed (.release l k)
  | field (q : Slot) (v : Proc) (k : Pc) (same : v.state = (m.proc q).state) (stays : Stays self pc k)
      (fork : SameFork pc k) : Typed (.write q v k)
  | leave (v : Proc) (k : Pc) (held : .proc self ∈ locks self pc) (before : expected pc = .running)
      (after : v.state = expected k) (locks : ∀ l, l ∈ locks self k ↔ l ∈ locks self pc)
      (fork : SameFork pc k) : Typed (.write self v k)
  | wake (q : Slot) (v : Proc) (k : Pc) (held : .proc q ∈ locks self pc) (before : (m.proc q).state = .sleeping)
      (after : v.state = .runnable) (stays : StaysRunning self pc k) (fork : SameFork pc k) : Typed (.write q v k)
  | reap (q : Slot) (v : Proc) (k : Pc) (held : .proc q ∈ locks self pc) (before : (m.proc q).state = .zombie)
      (after : v.state = .unused) (stays : StaysRunning self pc k) (fork : SameFork pc k) : Typed (.write q v k)
  | abort (q : Slot) (v : Proc) (k : Pc) (held : .proc q ∈ locks self pc) (child : forks pc = some q)
      (after : v.state = .unused) (stays : StaysRunning self pc k) (fork : NoFork k) : Typed (.write q v k)
  | start (q : Slot) (v : Proc) (k : Pc) (held : .proc q ∈ locks self pc) (child : forks pc = some q)
      (ready : spawned pc = some q) (after : v.state = .runnable) (stays : StaysRunning self pc k) (fork : NoFork k) :
      Typed (.write q v k)
  | allocpid (q : Slot) (v : Proc) (k : Pc) (held : .proc q ∈ locks self pc)
      (before : (m.proc q).state = .unused) (after : v.state = .used) (stays : StaysRunning self pc k) (fresh : NoFork pc)
      (child : forks k = some q) (bare : spawned k = none) : Typed (.allocpid q v k)
  | context (q : Slot) (k : Pc) (child : forks pc = some q) (same : forks k = some q) (ready : spawned k = some q)
      (stays : StaysRunning self pc k) : Typed (.context q k)
  | setCond (ch : Nat) (b : Bool) (k : Pc) (stays : Stays self pc k) (fork : SameFork pc k) : Typed (.setCond ch b k)
  | swtch (k : Pc) (held : locks self pc = [.proc self]) (away : expected pc ≠ .running)
      (saved : locks self k = [.proc self]) (state : expected k = .running)
      (fork : SameFork pc k) : Typed (.swtch k)

end

def Instr.next : Instr → Pc
  | .jump k | .acquire _ k | .release _ k | .write _ _ k | .allocpid _ _ k | .context _ k | .setCond _ _ k
  | .swtch k => k

section
variable {m : Memory} {self : Slot} {ok : Bool} {pc : Pc} {instr : Instr}

theorem expected_of_free (free : locks self pc = []) : expected pc = .running := by
  cases pc <;> first | rfl | cases free

variable (r : Sleeper)

theorem lk_ne_proc (q : Slot) : r.lk ≠ .proc q := by
  cases r <;> simp [Sleeper.lk]

theorem locks_after_sleep : locks self r.after = [r.lk] := by
  cases r <;> rfl

theorem locks_after_wakeup (r : Waker) : locks self r.after = r.locks := by
  cases r <;> rfl

theorem proc_notMem_wakerLocks (r : Waker) (q : Slot) : .proc q ∉ r.locks := by
  cases r <;> simp

theorem after_sleep_plain : expected r.after = .running ∧ forks r.after = none ∧ spawned r.after = none ∧
    interrupted r.after = none := by
  cases r <;> exact ⟨rfl, rfl, rfl, rfl⟩

theorem after_wakeup_plain (r : Waker) : expected r.after = .running ∧ forks r.after = none ∧ spawned r.after = none ∧
    interrupted r.after = none := by
  cases r <;> exact ⟨rfl, rfl, rfl, rfl⟩

theorem mem_release_first {l : Lock} {rest : List Lock} (absent : l ∉ rest) (l' : Lock) :
    l' ∈ rest ↔ l' ≠ l ∧ l' ∈ l :: rest := by grind

theorem mem_release_second {l l₁ : Lock} (other : l₁ ≠ l) (l' : Lock) : l' ∈ [l₁] ↔ l' ≠ l ∧ l' ∈ [l₁, l] := by
  grind

theorem proper_of_plain (plain : interrupted pc = none) : Proper self pc := by
  intro k found
  rw [plain] at found
  cases found

theorem code_typed (proper : Proper self pc) (found : code m self ok pc = some instr) :
    Typed m self pc instr ∧ Proper self instr.next := by
  have plain {k : Pc} (none : interrupted k = none) : Proper self k := proper_of_plain none
  cases pc with
  | kernel => cases found
  | zombie => cases found
  | forkret | sleepUnlock r | forkSkip np | forkFail np | forkRelease np | forkWaitRelease np
  | forkUnlock np | waitRelease | consumeRelease ch | produceRelease ch =>
    cases found
    exact ⟨.release _ _ (by simp) (by simp) rfl ⟨rfl, rfl⟩, plain rfl⟩
  | yieldAcquire k =>
    cases found
    exact ⟨.acquire _ _ (by simp) rfl ⟨rfl, rfl⟩, proper⟩
  | sleepAcquire r | exitLock status | forkWaitLock np | forkLock np | waitAcquire
  | consumeAcquire ch | produceAcquire ch =>
    cases found
    exact ⟨.acquire _ _ (by simp) rfl ⟨rfl, rfl⟩, plain rfl⟩
  | yieldState k =>
    cases found
    exact ⟨.leave _ _ (by simp) rfl rfl (by simp) ⟨rfl, rfl⟩, proper⟩
  | sleepState r | exitState status =>
    cases found
    exact ⟨.leave _ _ (by simp) rfl rfl (by simp) ⟨rfl, rfl⟩, plain rfl⟩
  | yieldSwtch k =>
    cases found
    exact ⟨.swtch _ rfl (by simp [expected]) rfl rfl ⟨rfl, rfl⟩, proper⟩
  | sleepSwtch r | exitSwtch =>
    cases found
    exact ⟨.swtch _ rfl (by simp [expected]) rfl rfl ⟨rfl, rfl⟩, plain rfl⟩
  | yieldRelease k =>
    cases found
    obtain ⟨free, calm⟩ := proper k rfl
    refine ⟨.release _ _ (by simp) ?_ (expected_of_free free) ⟨rfl, rfl⟩, plain calm⟩
    rw [free]
    simp
  | sleepRelease r =>
    cases found
    exact ⟨.release _ _ (by simp) (mem_release_second (lk_ne_proc r self).symm) rfl ⟨rfl, rfl⟩, plain rfl⟩
  | sleepChan r | sleepTidy r | forkParent np =>
    cases found
    exact ⟨.field _ _ _ rfl ⟨by simp, rfl⟩ ⟨rfl, rfl⟩, plain rfl⟩
  | sleepReacquire r =>
    cases found
    obtain ⟨state, forks, spawned, calm⟩ := after_sleep_plain r
    refine ⟨.acquire _ _ ?_ state ⟨forks, spawned⟩, plain calm⟩
    rw [locks_after_sleep]
    simp
  | wakeAcquire chan i r =>
    cases found
    unfold wakeAcquireCode
    cases slotAt i with
    | none =>
      obtain ⟨state, forks, spawned, calm⟩ := after_wakeup_plain r
      refine ⟨.jump _ ⟨?_, state⟩ ⟨forks, spawned⟩, plain calm⟩
      rw [locks_after_wakeup]
      simp
    | some q =>
      dsimp only
      split_ifs
      · exact ⟨.jump _ ⟨by simp, rfl⟩ ⟨rfl, rfl⟩, plain rfl⟩
      · exact ⟨.acquire _ _ (by simp) rfl ⟨rfl, rfl⟩, plain rfl⟩
  | wakeTest chan q r =>
    cases found
    unfold wakeTestCode
    split_ifs with asleep
    · exact ⟨.wake _ _ _ (by simp) asleep.1 rfl ⟨⟨by simp, rfl⟩, rfl⟩ ⟨rfl, rfl⟩, plain rfl⟩
    · exact ⟨.jump _ ⟨by simp, rfl⟩ ⟨rfl, rfl⟩, plain rfl⟩
  | wakeRelease chan q r =>
    cases found
    exact ⟨.release _ _ (by simp) (mem_release_first (proc_notMem_wakerLocks r q)) rfl ⟨rfl, rfl⟩, plain rfl⟩
  | exitAcquire status =>
    simp only [code] at found
    split_ifs at found
    cases found
    exact ⟨.acquire _ _ (by simp) rfl ⟨rfl, rfl⟩, plain rfl⟩
  | reparent i status =>
    cases found
    unfold reparentCode
    cases slotAt i with
    | none => exact ⟨.jump _ ⟨by simp, rfl⟩ ⟨rfl, rfl⟩, plain rfl⟩
    | some q =>
      dsimp only
      split_ifs
      · exact ⟨.field _ _ _ rfl ⟨by simp, rfl⟩ ⟨rfl, rfl⟩, plain rfl⟩
      · exact ⟨.jump _ ⟨by simp, rfl⟩ ⟨rfl, rfl⟩, plain rfl⟩
  | exitWakeup status =>
    cases found
    exact ⟨.jump _ ⟨by simp, rfl⟩ ⟨rfl, rfl⟩, plain rfl⟩
  | exitRelease =>
    cases found
    exact ⟨.release _ _ (by simp) (mem_release_second (by simp)) rfl ⟨rfl, rfl⟩, plain rfl⟩
  | forkAcquire i =>
    cases found
    unfold forkAcquireCode
    cases slotAt i with
    | none => exact ⟨.jump _ ⟨by simp, rfl⟩ ⟨rfl, rfl⟩, plain rfl⟩
    | some np => exact ⟨.acquire _ _ (by simp) rfl ⟨rfl, rfl⟩, plain rfl⟩
  | forkTest np =>
    cases found
    unfold forkTestCode
    split_ifs with unused
    · exact ⟨.allocpid _ _ _ (by simp) unused rfl ⟨⟨by simp, rfl⟩, rfl⟩ ⟨rfl, rfl⟩ rfl rfl, plain rfl⟩
    · exact ⟨.jump _ ⟨by simp, rfl⟩ ⟨rfl, rfl⟩, plain rfl⟩
  | forkContext np =>
    simp only [code] at found
    split_ifs at found
    · cases found
      exact ⟨.context _ _ rfl rfl rfl ⟨⟨by simp, rfl⟩, rfl⟩, plain rfl⟩
    · cases found
      exact ⟨.abort _ _ _ (by simp) rfl rfl ⟨⟨by simp, rfl⟩, rfl⟩ ⟨rfl, rfl⟩, plain rfl⟩
  | forkState np =>
    cases found
    exact ⟨.start _ _ _ (by simp) rfl rfl rfl ⟨⟨by simp, rfl⟩, rfl⟩ ⟨rfl, rfl⟩, plain rfl⟩
  | waitScan i havekids =>
    cases found
    unfold waitScanCode
    cases slotAt i with
    | none =>
      split_ifs
      · exact ⟨.jump _ ⟨by simp, rfl⟩ ⟨rfl, rfl⟩, plain rfl⟩
      · exact ⟨.jump _ ⟨by simp [Sleeper.lk], rfl⟩ ⟨rfl, rfl⟩, plain rfl⟩
    | some np =>
      dsimp only
      split_ifs
      · exact ⟨.acquire _ _ (by simp) rfl ⟨rfl, rfl⟩, plain rfl⟩
      · exact ⟨.jump _ ⟨by simp, rfl⟩ ⟨rfl, rfl⟩, plain rfl⟩
  | waitTest np =>
    cases found
    unfold waitTestCode
    split_ifs with zombie
    · exact ⟨.reap _ _ _ (by simp) zombie rfl ⟨⟨by simp, rfl⟩, rfl⟩ ⟨rfl, rfl⟩, plain rfl⟩
    · exact ⟨.jump _ ⟨by simp, rfl⟩ ⟨rfl, rfl⟩, plain rfl⟩
    · exact ⟨.jump _ ⟨by simp, rfl⟩ ⟨rfl, rfl⟩, plain rfl⟩
  | waitSkip np | waitUnlock np =>
    cases found
    exact ⟨.release _ _ (by simp) (mem_release_first (show Lock.proc np ∉ [Lock.wait] by simp)) rfl ⟨rfl, rfl⟩, plain rfl⟩
  | killAcquire pid i =>
    cases found
    unfold killAcquireCode
    cases slotAt i with
    | none => exact ⟨.jump _ ⟨by simp, rfl⟩ ⟨rfl, rfl⟩, plain rfl⟩
    | some q => exact ⟨.acquire _ _ (by simp) rfl ⟨rfl, rfl⟩, plain rfl⟩
  | killTest pid q =>
    cases found
    unfold killTestCode
    split_ifs with same asleep
    · exact ⟨.wake _ _ _ (by simp) asleep rfl ⟨⟨by simp, rfl⟩, rfl⟩ ⟨rfl, rfl⟩, plain rfl⟩
    · exact ⟨.field _ _ _ rfl ⟨by simp, rfl⟩ ⟨rfl, rfl⟩, plain rfl⟩
    · exact ⟨.jump _ ⟨by simp, rfl⟩ ⟨rfl, rfl⟩, plain rfl⟩
  | killRelease pid q found' =>
    cases found
    cases found' with
    | false | true => exact ⟨.release _ _ (by simp) (by simp) rfl ⟨rfl, rfl⟩, plain rfl⟩
  | consumeTest ch =>
    simp only [code] at found
    split_ifs at found
    · cases found
      exact ⟨.jump _ ⟨by simp, rfl⟩ ⟨rfl, rfl⟩, plain rfl⟩
    · cases found
      exact ⟨.jump _ ⟨by simp [Sleeper.lk], rfl⟩ ⟨rfl, rfl⟩, plain rfl⟩
  | consumeDone ch =>
    cases found
    exact ⟨.setCond _ _ _ ⟨by simp, rfl⟩ ⟨rfl, rfl⟩, plain rfl⟩
  | produceSet ch =>
    cases found
    exact ⟨.setCond _ _ _ ⟨by simp, rfl⟩ ⟨rfl, rfl⟩, plain rfl⟩

theorem interruptible_free (on : interruptible self pc = true) : locks self pc = [] ∧ interrupted pc = none := by
  cases pc <;> simp_all [interruptible, interrupted]

theorem call_entry (c : Call) : locks self c.entry = [] ∧ expected c.entry = .running ∧ NoFork c.entry ∧
    interrupted c.entry = none := by
  cases c <;> exact ⟨rfl, rfl, ⟨rfl, rfl⟩, rfl⟩

theorem fetch_typed {choice : Choice} (proper : Proper self pc) (found : fetch m self choice pc = some instr) :
    Typed m self pc instr ∧ Proper self instr.next := by
  cases choice with
  | go ok => exact code_typed proper found
  | interrupt =>
    simp only [fetch] at found
    split_ifs at found with on
    cases found
    obtain ⟨free, plain⟩ := interruptible_free on
    constructor
    · refine .jump _ ⟨?_, (expected_of_free free).symm⟩ ⟨rfl, rfl⟩
      rw [free]
      simp
    · rintro k ⟨⟩
      exact ⟨free, plain⟩
  | call c =>
    simp only [fetch] at found
    split at found
    · cases found
      obtain ⟨free, state, fork, plain⟩ := @call_entry self c
      refine ⟨.jump _ ⟨?_, state⟩ ⟨fork.forks, fork.spawned⟩, proper_of_plain plain⟩
      rw [free]
      simp
    · cases found

end

end Xv6.Scheduler
