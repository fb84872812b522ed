import Xv6.Lib.Run
import Xv6.Param

namespace Xv6.ProcTable
open Lib

/-! ## The process table

Every stretch of code that runs under one `p->lock`, or under `wait_lock`, is one step. Between two
such stretches other processes run, so what a process does next is part of the state. -/

abbrev Slot := Fin NPROC

inductive ProcState where
  | unused | used | sleeping | runnable | running | zombie
  deriving DecidableEq

inductive Chan where
  | proc (p : Slot)
  | other (address : Nat)
  deriving DecidableEq

structure Proc where
  state : ProcState
  chan : Option Chan
  killed : Bool
  xstate : Int
  pid : BitVec 32
  parent : Option Slot

inductive Pc where
  | outside
  | allocproc (i : Nat) -- in fork: the next slot to look at
  | adopt (np : Slot) -- in fork: about to set np->parent
  | start (np : Slot) -- in fork: about to make np RUNNABLE
  | exiting (status : Int) -- holds wait_lock, children given to init
  | waiting (i : Nat) (havekids : Bool) -- holds wait_lock, the next slot to look at
  | rewait -- in wait: woken up, wait_lock not yet taken again
  | killing (pid : BitVec 32) (i : Nat)
  | asleep (inWait : Bool)

/-- `blamed` is history: since the slot was last allocated, a `kill` with its pid has found it
allocated, or its process has taken an unexpected trap. -/
structure State where
  proc : Slot → Proc
  pc : Slot → Pc
  nextpid : BitVec 32
  waitLock : Option Slot
  blamed : Slot → Bool

def initproc : Slot := 0

def freeproc (p : Proc) : Proc :=
  { p with
    pid := 0
    parent := none
    chan := none
    killed := false
    xstate := 0
    state := .unused }

namespace State

def set (s : State) (p : Slot) (v : Proc) : State := { s with proc := Function.update s.proc p v }

def goto (s : State) (p : Slot) (c : Pc) : State := { s with pc := Function.update s.pc p c }

def blame (s : State) (p : Slot) (b : Bool) : State :=
  { s with blamed := Function.update s.blamed p b }

end State

/-! ## The critical sections -/

/-- `allocproc` at slot `i`, with the lock of that slot held until `fork` has copied the parent;
`ok` is whether all of the memory was there. -/
def allocSlot (s : State) (p : Slot) (i : Nat) (ok : Bool) : State :=
  if below : i < NPROC then
    let np : Slot := ⟨i, below⟩
    if (s.proc np).state = .unused then
      let found := { s.proc np with pid := s.nextpid, state := .used }
      let s := { s with nextpid := s.nextpid + 1 }
      if ok then (((s.set np found).blame np false).goto np .outside).goto p (.adopt np)
      else (s.set np (freeproc found)).goto p .outside
    else s.goto p (.allocproc (i + 1))
  else s.goto p .outside

def reparent (s : State) (p : Slot) : State :=
  { s with proc := fun pp =>
      if (s.proc pp).parent = some p then { s.proc pp with parent := some initproc } else s.proc pp }

/-- `wait` at slot `i`; `copied` is whether the exit status reached the caller, if it is asked for. -/
def waitSlot (s : State) (p : Slot) (i : Nat) (havekids copied : Bool) : State :=
  if below : i < NPROC then
    let np : Slot := ⟨i, below⟩
    if (s.proc np).parent = some p then
      if (s.proc np).state = .zombie then
        let s := { s with waitLock := none }.goto p .outside
        if copied then s.set np (freeproc (s.proc np)) else s
      else s.goto p (.waiting (i + 1) true)
    else s.goto p (.waiting (i + 1) havekids)
  else if !havekids || (s.proc p).killed then { s with waitLock := none }.goto p .outside
  else
    ({ s with waitLock := none }.set p { s.proc p with chan := some (.proc p), state := .sleeping }).goto p (.asleep true)

def killSlot (s : State) (p : Slot) (pid : BitVec 32) (i : Nat) : State :=
  if below : i < NPROC then
    let v : Slot := ⟨i, below⟩
    let victim := s.proc v
    if victim.pid = pid then
      let woken := if victim.state = .sleeping then .runnable else victim.state
      ((s.set v { victim with killed := true, state := woken }).blame v
        (s.blamed v || victim.state ≠ .unused)).goto p .outside
    else s.goto p (.killing pid (i + 1))
  else s.goto p .outside

def wakeupSlot (s : State) (chan : Chan) (i : Slot) : State :=
  if (s.proc i).state = .sleeping ∧ (s.proc i).chan = some chan then
    s.set i { s.proc i with state := .runnable }
  else s

/-- The scheduler picks `i`; a process that comes back from `sched()` inside `sleep` clears its
channel before it lets go of its lock. -/
def schedule (s : State) (i : Slot) : State :=
  let running := { s.proc i with state := .running }
  match s.pc i with
  | .asleep inWait => (s.set i { running with chan := none }).goto i (if inWait then .rewait else .outside)
  | _ => s.set i running

/-! ## Interleavings -/

inductive Event where
  | fork (p : Slot)
  | exit (p : Slot) (status : Int)
  | wait (p : Slot)
  | kill (p : Slot) (pid : BitVec 32)
  | sleep (p : Slot) (chan : Chan)
  | next (p : Slot) (ok : Bool) -- the next critical section of the call p is in
  | trap (p : Slot) -- an unexpected trap in user mode
  | wakeup (chan : Chan) (i : Slot) -- any wakeup(chan) reaches slot i
  | yield (p : Slot)
  | schedule (i : Slot)

def nextSection (s : State) (p : Slot) (ok : Bool) : Option State :=
  match s.pc p with
  | .allocproc i => some (allocSlot s p i ok)
  | .adopt np =>
    if s.waitLock = none then
      some ((s.set np { s.proc np with parent := some p }).goto p (.start np))
    else none
  | .start np => some ((s.set np { s.proc np with state := .runnable }).goto p .outside)
  | .exiting status =>
    some ({ s with waitLock := none }.set p { s.proc p with xstate := status, state := .zombie })
  | .waiting i havekids => some (waitSlot s p i havekids ok)
  | .rewait => if s.waitLock = none then some ({ s with waitLock := some p }.goto p (.waiting 0 false)) else none
  | .killing pid i => some (killSlot s p pid i)
  | .outside => none
  | .asleep _ => none

def enter (s : State) (p : Slot) (after : Option State) : Option State :=
  match (s.proc p).state, s.pc p with
  | .running, .outside => after
  | _, _ => none

def step (s : State) : Event → Option State
  | .fork p => enter s p (some (s.goto p (.allocproc 0)))
  | .exit p status =>
    if p ≠ initproc ∧ s.waitLock = none then
      enter s p (some ((reparent { s with waitLock := some p } p).goto p (.exiting status)))
    else none
  | .wait p =>
    if s.waitLock = none then
      enter s p (some ({ s with waitLock := some p }.goto p (.waiting 0 false)))
    else none
  | .kill p pid => enter s p (some (s.goto p (.killing pid 0)))
  | .sleep p chan =>
    enter s p (some ((s.set p { s.proc p with chan := some chan, state := .sleeping }).goto p (.asleep false)))
  | .next p ok => if (s.proc p).state = .running then nextSection s p ok else none
  | .trap p =>
    enter s p (some ((s.set p { s.proc p with killed := true }).blame p true))
  | .wakeup chan i => some (wakeupSlot s chan i)
  | .yield p =>
    if (s.proc p).state = .running ∧ s.waitLock ≠ some p then
      some (s.set p { s.proc p with state := .runnable })
    else none
  | .schedule i => if (s.proc i).state = .runnable then some (schedule s i) else none

def unusedProc : Proc := ⟨.unused, none, false, 0, 0, none⟩

/-- The table after `userinit`, whose `allocproc` found the first slot. -/
def initial : State where
  proc p := if p = initproc then { unusedProc with state := .runnable, pid := 1 } else unusedProc
  pc _ := .outside
  nextpid := 2
  waitLock := none
  blamed _ := false

end Xv6.ProcTable
