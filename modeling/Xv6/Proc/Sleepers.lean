import Xv6.Proc.OneCpu

namespace Xv6.Scheduler
open Lib
open Function (update update_of_ne)
open ProcTable (Slot ProcState Chan Proc initproc freeproc)

/-! ## Sleepers and wakers -/

def about : Pc → Option Sleeper
  | .sleepAcquire r | .sleepRelease r | .sleepChan r | .sleepState r | .sleepSwtch r => some r
  | _ => none

def parked : Pc → Option Sleeper
  | .sleepTidy r => some r
  | _ => none

/-- The wakeup of a producer: its channel, the producer's condition, and the first slot not yet visited. -/
def scan : Pc → Option (Chan × Nat × Nat)
  | .wakeAcquire chan i (.produce ch) => some (chan, ch, i)
  | .wakeTest chan q (.produce ch) => some (chan, ch, q.val)
  | .wakeRelease chan q (.produce ch) => some (chan, ch, q.val + 1)
  | _ => none

structure Plain (k : Pc) : Prop where
  about : about k = none
  parked : parked k = none
  scan : scan k = none

section
variable (m : Memory) (self : Slot) (pc : Pc)

inductive Turn : Instr → Prop where
  | plain (instr : Instr) (next : Plain instr.next) (awake : expected pc ≠ .sleeping) : Turn instr
  | test (ch : Nat) (place : pc = .consumeTest ch) : Turn (.jump (.sleepAcquire (.consume ch)))
  | wait : Turn (.jump (.sleepAcquire .wait))
  | lockOwn (r : Sleeper) (place : pc = .sleepAcquire r) : Turn (.acquire (.proc self) (.sleepRelease r))
  | unlock (r : Sleeper) (place : pc = .sleepRelease r) : Turn (.release r.lk (.sleepChan r))
  | chan (r : Sleeper) (place : pc = .sleepChan r) :
      Turn (.write self { m.proc self with chan := some (r.chan self) } (.sleepState r))
  | state (r : Sleeper) (place : pc = .sleepState r) :
      Turn (.write self { m.proc self with state := .sleeping } (.sleepSwtch r))
  | sleep (r : Sleeper) (place : pc = .sleepSwtch r) : Turn (.swtch (.sleepTidy r))
  | produce (ch : Nat) (place : pc = .produceSet ch) :
      Turn (.setCond ch true (.wakeAcquire (.other ch) 0 (.produce ch)))
  | skip (chan : Chan) (ch : Nat) (place : pc = .wakeAcquire chan self (.produce ch)) :
      Turn (.jump (.wakeAcquire chan (self + 1) (.produce ch)))
  | lock (chan : Chan) (q : Slot) (ch : Nat) (place : pc = .wakeAcquire chan q (.produce ch)) :
      Turn (.acquire (.proc q) (.wakeTest chan q (.produce ch)))
  | visit (chan : Chan) (q : Slot) (ch : Nat) (place : pc = .wakeTest chan q (.produce ch)) :
      Turn (wakeTestCode m chan q (.produce ch))
  | release (chan : Chan) (q : Slot) (ch : Nat) (place : pc = .wakeRelease chan q (.produce ch)) :
      Turn (.release (.proc q) (.wakeAcquire chan (q + 1) (.produce ch)))

end

section
variable {m : Memory} {self q : Slot} {ok : Bool} {pc : Pc} {instr : Instr} {choice : Choice}

theorem about_locks {r : Sleeper} (place : about pc = some r) : r.lk ∈ locks self pc ∨ .proc self ∈ locks self pc := by
  cases pc <;> simp_all [about, locks]

theorem plain_of_free (free : locks self pc = []) : Plain pc := by
  cases pc with
  | wakeAcquire chan i r => cases r <;> first | exact ⟨rfl, rfl, rfl⟩ | cases free
  | _ => first | exact ⟨rfl, rfl, rfl⟩ | cases free

theorem slotAt_some {i : Nat} (found : slotAt i = some q) : i = q.val := by grind [slotAt]

theorem wakeAcquire_turn (chan : Chan) (i : Nat) (r : Waker) :
    Turn m self (.wakeAcquire chan i r) (wakeAcquireCode self chan i r) := by
  unfold wakeAcquireCode
  cases found : slotAt i with
  | none => cases r <;> exact .plain _ ⟨rfl, rfl, rfl⟩ nofun
  | some q =>
    obtain rfl := slotAt_some found
    dsimp only
    split_ifs with same
    · subst same
      cases r with
      | produce ch => exact .skip chan ch rfl
      | _ => exact .plain _ ⟨rfl, rfl, rfl⟩ nofun
    · cases r with
      | produce ch => exact .lock chan q ch rfl
      | _ => exact .plain _ ⟨rfl, rfl, rfl⟩ nofun

theorem wakeTest_turn (chan : Chan) (q : Slot) (r : Waker) : Turn m self (.wakeTest chan q r) (wakeTestCode m chan q r) := by
  cases r with
  | produce ch => exact .visit chan q ch rfl
  | _ =>
    unfold wakeTestCode
    split_ifs <;> exact .plain _ ⟨rfl, rfl, rfl⟩ nofun

attribute [local simp] expected

theorem code_turn (proper : Proper self pc) (found : code m self ok pc = some instr) : Turn m self pc instr := by
  cases pc with
  | kernel => cases found
  | zombie => cases found
  | yieldRelease k =>
    cases found
    exact .plain _ (plain_of_free (proper k rfl).1) (by simp)
  | sleepAcquire r =>
    cases found
    exact .lockOwn r rfl
  | sleepRelease r =>
    cases found
    exact .unlock r rfl
  | sleepChan r =>
    cases found
    exact .chan r rfl
  | sleepState r =>
    cases found
    exact .state r rfl
  | sleepSwtch r =>
    cases found
    exact .sleep r rfl
  | sleepReacquire r =>
    cases found
    cases r <;> exact .plain _ ⟨rfl, rfl, rfl⟩ (by simp)
  | wakeAcquire chan i r =>
    cases found
    exact wakeAcquire_turn chan i r
  | wakeTest chan q r =>
    cases found
    exact wakeTest_turn chan q r
  | wakeRelease chan q r =>
    cases found
    cases r with
    | produce ch => exact .release chan q ch rfl
    | _ => exact .plain _ ⟨rfl, rfl, rfl⟩ (by simp)
  | exitAcquire status =>
    simp only [code] at found
    split_ifs at found
    cases found
    exact .plain _ ⟨rfl, rfl, rfl⟩ (by simp)
  | reparent i status =>
    cases found
    unfold reparentCode
    cases slotAt i with
    | none => exact .plain _ ⟨rfl, rfl, rfl⟩ (by simp)
    | some q =>
      dsimp only
      split_ifs <;> exact .plain _ ⟨rfl, rfl, rfl⟩ (by simp)
  | forkAcquire i =>
    cases found
    unfold forkAcquireCode
    cases slotAt i <;> exact .plain _ ⟨rfl, rfl, rfl⟩ (by simp)
  | forkTest np =>
    cases found
    unfold forkTestCode
    split_ifs <;> exact .plain _ ⟨rfl, rfl, rfl⟩ (by simp)
  | forkContext np =>
    simp only [code] at found
    split_ifs at found <;> obtain rfl := Option.some.inj found <;> exact .plain _ ⟨rfl, rfl, rfl⟩ (by simp)
  | waitScan i havekids =>
    cases found
    unfold waitScanCode
    cases slotAt i with
    | none =>
      split_ifs
      · exact .plain _ ⟨rfl, rfl, rfl⟩ (by simp)
      · exact .wait
    | some np =>
      dsimp only
      split_ifs <;> exact .plain _ ⟨rfl, rfl, rfl⟩ (by simp)
  | waitTest np =>
    cases found
    unfold waitTestCode
    split_ifs <;> exact .plain _ ⟨rfl, rfl, rfl⟩ (by simp)
  | killAcquire pid i =>
    cases found
    unfold killAcquireCode
    cases slotAt i <;> exact .plain _ ⟨rfl, rfl, rfl⟩ (by simp)
  | killTest pid q =>
    cases found
    unfold killTestCode
    split_ifs <;> exact .plain _ ⟨rfl, rfl, rfl⟩ (by simp)
  | killRelease pid q hit =>
    cases found
    cases hit <;> exact .plain _ ⟨rfl, rfl, rfl⟩ (by simp)
  | consumeTest ch =>
    simp only [code] at found
    split_ifs at found
    · cases found
      exact .plain _ ⟨rfl, rfl, rfl⟩ (by simp)
    · cases found
      exact .test ch rfl
  | produceSet ch =>
    cases found
    exact .produce ch rfl
  | _ =>
    cases found
    exact .plain _ ⟨rfl, rfl, rfl⟩ (by simp)

theorem fetch_turn (proper : Proper self pc) (found : fetch m self choice pc = some instr) : Turn m self pc instr := by
  cases choice with
  | go ok => exact code_turn proper found
  | interrupt =>
    simp only [fetch] at found
    split_ifs at found with on
    cases found
    refine .plain _ ⟨rfl, rfl, rfl⟩ ?_
    rw [expected_of_free (interruptible_free on).1]
    rintro ⟨⟩
  | call c =>
    simp only [fetch] at found
    split at found
    · cases found
      obtain ⟨free, -⟩ := @call_entry self c
      exact .plain _ (plain_of_free free) (by rintro ⟨⟩)
    · cases found

def Instr.written : Instr → Option (Slot × Proc)
  | .write q v _ | .allocpid q v _ => some (q, v)
  | _ => none

theorem fetch_chan {v : Proc} (found : fetch m self choice pc = some instr)
    (written : instr.written = some (q, v)) (other : q ≠ self) : v.chan = (m.proc q).chan ∨ v.state = .unused := by
  cases choice with
  | go ok =>
    replace found : code m self ok pc = some instr := found
    cases pc <;> simp only [code, Option.some.injEq, reduceCtorEq] at found <;>
      grind [freeproc, wakeAcquireCode, wakeTestCode, reparentCode, forkAcquireCode, forkTestCode, waitScanCode,
        waitTestCode, killAcquireCode, killTestCode, Instr.written]
  | interrupt =>
    simp only [fetch] at found
    split_ifs at found
    cases found
    cases written
  | call c =>
    simp only [fetch] at found
    split at found
    · cases found
      cases written
    · cases found

theorem Typed.asleep {v : Proc} (typed : Typed m self pc instr) (written : instr.written = some (q, v))
    (other : q ≠ self) (asleep : v.state = .sleeping) : (m.proc q).state = .sleeping := by
  cases typed with
  | field q v k same =>
    cases written
    rw [← same, asleep]
  | leave v k =>
    cases written
    exact absurd rfl other
  | wake q v k held before =>
    cases written
    exact before
  | reap q v k held before after | abort q v k held child after | start q v k held child ready after
  | allocpid q v k held before after =>
    cases written
    rw [asleep] at after
    cases after
  | _ => cases written

end

/-! ## The effects of a step -/

section
variable {Cpu : Type} [DecidableEq Cpu] {s t : State Cpu} {c : Cpu} {p q : Slot} {instr : Instr}

section

variable (executed : execute s c p instr = some t)

include executed

theorem execute_pc : t.pc p = instr.next := by
  cases instr with
  | acquire l k =>
    simp only [execute] at executed
    split_ifs at executed
    cases executed
    exact goto_pc _ p k
  | swtch k =>
    cases executed
    exact goto_pc s p k
  | _ =>
    cases executed
    exact goto_pc _ p _

theorem execute_proc (q : Slot) : t.proc q = s.proc q ∨ instr.written = some (q, t.proc q) := by
  have write (r : Slot) (v : Proc) : update s.proc r v q = s.proc q ∨
      some (r, v) = some (q, update s.proc r v q) := by grind
  cases instr with
  | acquire l k =>
    simp only [execute] at executed
    split_ifs at executed
    cases executed
    exact .inl rfl
  | write r v k | allocpid r v k =>
    cases executed
    exact write r v
  | _ =>
    cases executed
    exact .inl rfl

theorem execute_running :
    t.running = s.running ∨ ∃ k, instr = .swtch k ∧ t.running = update s.running c (.scheduler (s.saved c)) := by
  cases instr with
  | acquire l k =>
    simp only [execute] at executed
    split_ifs at executed
    cases executed
    exact .inl rfl
  | swtch k =>
    cases executed
    exact .inr ⟨k, rfl, rfl⟩
  | _ =>
    cases executed
    exact .inl rfl

end

structure Kept (s t : State Cpu) (q : Slot) : Prop where
  pc : t.pc q = s.pc q ∨ t.pc q = .forkret ∧ (t.proc q).state ≠ .sleeping
  asleep : (t.proc q).state = .sleeping → (s.proc q).state = .sleeping
  chan : (t.proc q).state ≠ .unused → (t.proc q).chan = (s.proc q).chan
  on : ∀ c, s.running c = .thread q → t.running c = .thread q

theorem execute_kept (inv : Inv s) (on : s.running c = .thread p)
    (found : fetch s.toMemory p choice (s.pc p) = some instr) (executed : execute s c p instr = some t) (other : q ≠ p) :
    Kept s t q := by
  obtain ⟨typed, -⟩ := fetch_typed (inv.proper p) found
  constructor
  · cases instr with
    | acquire l k =>
      simp only [execute] at executed
      split_ifs at executed
      cases executed
      exact .inl (goto_pc_of_ne _ k q other)
    | context r k =>
      cases executed
      by_cases same : q = r
      · subst same
        cases typed with
        | context _ _ child =>
          refine .inr ⟨?_, ?_⟩
          · rw [goto_pc_of_ne _ k q other]
            exact goto_pc s q .forkret
          · change (s.proc q).state ≠ .sleeping
            rw [inv.forking p q child]
            rintro ⟨⟩
      · grind [goto_pc_of_ne]
    | swtch k =>
      cases executed
      exact .inl (goto_pc_of_ne s k q other)
    | _ =>
      cases executed
      exact .inl (goto_pc_of_ne _ _ q other)
  · intro asleep
    rcases execute_proc executed q with same | written
    · rwa [← same]
    · exact typed.asleep written other asleep
  · grind [execute_proc, fetch_chan]
  · intro c' place
    rcases execute_running executed with same | ⟨k, -, switched⟩
    · rw [same, place]
    · have different : c' ≠ c := by grind
      rw [switched, update_of_ne different, place]

theorem schedStep_kept {pc : SchedPc} (on : s.running c = .scheduler pc) (taken : schedStep s c pc = some t) (q : Slot) :
    Kept s t q := by
  have stays (r : Running) (c' : Cpu) (place : s.running c' = .thread q) : update s.running c r c' = .thread q := by grind
  cases pc with
  | acquire i =>
    simp only [schedStep] at taken
    split_ifs at taken
    cases taken
    exact ⟨.inl rfl, id, fun _ => rfl, stays _⟩
  | test i =>
    simp only [schedStep] at taken
    split_ifs at taken
    · cases taken
      refine ⟨.inl rfl, ?_, ?_, stays _⟩
      · change (update s.proc i _ q).state = _ → _
        by_cases same : q = i
        · subst same
          simp
        · simp [same]
      · intro _
        change (update s.proc i _ q).chan = _
        by_cases same : q = i
        · subst same
          simp
        · simp [same]
    · cases taken
      exact ⟨.inl rfl, id, fun _ => rfl, stays _⟩
  | switch i | release i =>
    cases taken
    exact ⟨.inl rfl, id, fun _ => rfl, stays _⟩

end

end Xv6.Scheduler
