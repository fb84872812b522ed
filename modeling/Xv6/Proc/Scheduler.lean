import Xv6.Proc.Table

namespace Xv6.Scheduler
open Lib Function
open ProcTable (Slot ProcState Chan Proc initproc freeproc)

/-! ## Kernel threads

Each process has a kernel thread whose next instruction is its `Pc`; that is also the context which
`swtch` saves and restores. `acquire`, `release`, `swtch` and the writes to the process table are
single steps. Besides the calls of `proc.c` a thread may wait for a condition that a spinlock
protects, or make it true: the condition, its lock and its channel have one number. -/

inductive Lock where
  | proc (p : Slot)
  | wait
  | user (ch : Nat)
  deriving DecidableEq

inductive Sleeper where
  | wait
  | consume (ch : Nat)

inductive Waker where
  | kernel
  | reparent (i : Nat) (status : Int)
  | exit (status : Int)
  | produce (ch : Nat)

inductive Pc where
  | forkret
  | kernel -- user code, or code of the kernel without a spinlock
  | yieldAcquire (interrupted : Pc)
  | yieldState (interrupted : Pc)
  | yieldSwtch (interrupted : Pc)
  | yieldRelease (interrupted : Pc)
  | sleepAcquire (r : Sleeper)
  | sleepRelease (r : Sleeper)
  | sleepChan (r : Sleeper)
  | sleepState (r : Sleeper)
  | sleepSwtch (r : Sleeper)
  | sleepTidy (r : Sleeper)
  | sleepUnlock (r : Sleeper)
  | sleepReacquire (r : Sleeper)
  | wakeAcquire (chan : Chan) (i : Nat) (r : Waker)
  | wakeTest (chan : Chan) (q : Slot) (r : Waker)
  | wakeRelease (chan : Chan) (q : Slot) (r : Waker)
  | exitAcquire (status : Int)
  | reparent (i : Nat) (status : Int)
  | exitWakeup (status : Int)
  | exitLock (status : Int)
  | exitState (status : Int)
  | exitRelease
  | exitSwtch
  | zombie -- sched() does not return
  | forkAcquire (i : Nat)
  | forkTest (np : Slot)
  | forkSkip (np : Slot)
  | forkContext (np : Slot)
  | forkFail (np : Slot)
  | forkRelease (np : Slot)
  | forkWaitLock (np : Slot)
  | forkParent (np : Slot)
  | forkWaitRelease (np : Slot)
  | forkLock (np : Slot)
  | forkState (np : Slot)
  | forkUnlock (np : Slot)
  | waitAcquire
  | waitScan (i : Nat) (havekids : Bool)
  | waitTest (np : Slot)
  | waitSkip (np : Slot)
  | waitUnlock (np : Slot)
  | waitRelease
  | killAcquire (pid : BitVec 32) (i : Nat)
  | killTest (pid : BitVec 32) (q : Slot)
  | killRelease (pid : BitVec 32) (q : Slot) (found : Bool)
  | consumeAcquire (ch : Nat)
  | consumeTest (ch : Nat)
  | consumeDone (ch : Nat)
  | consumeRelease (ch : Nat)
  | produceAcquire (ch : Nat)
  | produceSet (ch : Nat)
  | produceRelease (ch : Nat)

inductive Call where
  | wakeup (chan : Chan)
  | exit (status : Int)
  | fork
  | wait
  | kill (pid : BitVec 32)
  | consume (ch : Nat)
  | produce (ch : Nat)

/-- What the environment decides at a step: a timer interrupt, the call that a thread makes, or
whether memory is there, an address is mapped, and the like. -/
inductive Choice where
  | go (ok : Bool)
  | interrupt
  | call (c : Call)

structure Memory where
  proc : Slot → Proc
  nextpid : BitVec 32
  cond : Nat → Bool

inductive Instr where
  | jump (k : Pc)
  | acquire (l : Lock) (k : Pc)
  | release (l : Lock) (k : Pc)
  | write (q : Slot) (v : Proc) (k : Pc)
  | allocpid (q : Slot) (v : Proc) (k : Pc) -- write, with the next pid taken
  | context (q : Slot) (k : Pc) -- the context of q starts at forkret
  | setCond (ch : Nat) (b : Bool) (k : Pc)
  | swtch (k : Pc)

namespace Sleeper

def lk : Sleeper → Lock
  | .wait => .wait
  | .consume ch => .user ch

def chan (self : Slot) : Sleeper → Chan
  | .wait => .proc self
  | .consume ch => .other ch

def after : Sleeper → Pc
  | .wait => .waitScan 0 false
  | .consume ch => .consumeTest ch

end Sleeper

namespace Waker

def locks : Waker → List Lock
  | .kernel => []
  | .reparent _ _ => [.wait]
  | .exit _ => [.wait]
  | .produce ch => [.user ch]

def after : Waker → Pc
  | .kernel => .kernel
  | .reparent i status => .reparent i status
  | .exit status => .exitLock status
  | .produce ch => .produceRelease ch

end Waker

def locks (self : Slot) : Pc → List Lock
  | .forkret | .yieldState _ | .yieldSwtch _ | .yieldRelease _ => [.proc self]
  | .kernel | .yieldAcquire _ => []
  | .sleepAcquire r => [r.lk]
  | .sleepRelease r => [.proc self, r.lk]
  | .sleepChan _ | .sleepState _ | .sleepSwtch _ | .sleepTidy _ | .sleepUnlock _ => [.proc self]
  | .sleepReacquire _ => []
  | .wakeAcquire _ _ r => r.locks
  | .wakeTest _ q r | .wakeRelease _ q r => .proc q :: r.locks
  | .exitAcquire _ => []
  | .reparent _ _ | .exitWakeup _ | .exitLock _ => [.wait]
  | .exitState _ | .exitRelease => [.proc self, .wait]
  | .exitSwtch | .zombie => [.proc self]
  | .forkAcquire _ => []
  | .forkTest np | .forkSkip np | .forkContext np | .forkFail np | .forkRelease np => [.proc np]
  | .forkWaitLock _ => []
  | .forkParent _ | .forkWaitRelease _ => [.wait]
  | .forkLock _ => []
  | .forkState np | .forkUnlock np => [.proc np]
  | .waitAcquire => []
  | .waitScan _ _ | .waitRelease => [.wait]
  | .waitTest np | .waitSkip np | .waitUnlock np => [.proc np, .wait]
  | .killAcquire _ _ => []
  | .killTest _ q | .killRelease _ q _ => [.proc q]
  | .consumeAcquire _ | .produceAcquire _ => []
  | .consumeTest ch | .consumeDone ch | .consumeRelease ch | .produceSet ch | .produceRelease ch => [.user ch]

def Call.entry : Call → Pc
  | .wakeup chan => .wakeAcquire chan 0 .kernel
  | .exit status => .exitAcquire status
  | .fork => .forkAcquire 0
  | .wait => .waitAcquire
  | .kill pid => .killAcquire pid 0
  | .consume ch => .consumeAcquire ch
  | .produce ch => .produceAcquire ch

/-! ## The code -/

section
variable (m : Memory) (self : Slot) (ok : Bool)

def slotAt (i : Nat) : Option Slot := if below : i < NPROC then some ⟨i, below⟩ else none

def wakeAcquireCode (chan : Chan) (i : Nat) (r : Waker) : Instr :=
  match slotAt i with
  | none => .jump r.after
  | some q => if q = self then .jump (.wakeAcquire chan (i + 1) r) else .acquire (.proc q) (.wakeTest chan q r)

def wakeTestCode (chan : Chan) (q : Slot) (r : Waker) : Instr :=
  if (m.proc q).state = .sleeping ∧ (m.proc q).chan = some chan then
    .write q { m.proc q with state := .runnable } (.wakeRelease chan q r)
  else .jump (.wakeRelease chan q r)

def reparentCode (i : Nat) (status : Int) : Instr :=
  match slotAt i with
  | none => .jump (.exitWakeup status)
  | some pp =>
    if (m.proc pp).parent = some self then
      .write pp { m.proc pp with parent := some initproc } (.wakeAcquire (.proc initproc) 0 (.reparent (i + 1) status))
    else .jump (.reparent (i + 1) status)

-- A null parent would be the channel 0.
def parentChan : Chan :=
  match (m.proc self).parent with
  | some p => .proc p
  | none => .other 0

def forkAcquireCode (i : Nat) : Instr :=
  match slotAt i with
  | none => .jump .kernel
  | some np => .acquire (.proc np) (.forkTest np)

def forkTestCode (np : Slot) : Instr :=
  if (m.proc np).state = .unused then
    .allocpid np { m.proc np with pid := m.nextpid, state := .used } (.forkContext np)
  else .jump (.forkSkip np)

def waitScanCode (i : Nat) (havekids : Bool) : Instr :=
  match slotAt i with
  | none => if !havekids || (m.proc self).killed then .jump .waitRelease else .jump (.sleepAcquire .wait)
  | some np =>
    if (m.proc np).parent = some self then .acquire (.proc np) (.waitTest np)
    else .jump (.waitScan (i + 1) havekids)

/-- `ok` is whether the exit status could be copied out, if it is asked for. -/
def waitTestCode (np : Slot) : Instr :=
  if (m.proc np).state = .zombie then
    if ok then .write np (freeproc (m.proc np)) (.waitUnlock np) else .jump (.waitUnlock np)
  else .jump (.waitSkip np)

def killAcquireCode (pid : BitVec 32) (i : Nat) : Instr :=
  match slotAt i with
  | none => .jump .kernel
  | some q => .acquire (.proc q) (.killTest pid q)

def killTestCode (pid : BitVec 32) (q : Slot) : Instr :=
  if (m.proc q).pid = pid then
    let state := if (m.proc q).state = .sleeping then .runnable else (m.proc q).state
    .write q { m.proc q with killed := true, state := state } (.killRelease pid q true)
  else .jump (.killRelease pid q false)

def code : Pc → Option Instr
  | .forkret => some (.release (.proc self) .kernel)
  | .kernel => none
  | .yieldAcquire k => some (.acquire (.proc self) (.yieldState k))
  | .yieldState k => some (.write self { m.proc self with state := .runnable } (.yieldSwtch k))
  | .yieldSwtch k => some (.swtch (.yieldRelease k))
  | .yieldRelease k => some (.release (.proc self) k)
  | .sleepAcquire r => some (.acquire (.proc self) (.sleepRelease r))
  | .sleepRelease r => some (.release r.lk (.sleepChan r))
  | .sleepChan r => some (.write self { m.proc self with chan := some (r.chan self) } (.sleepState r))
  | .sleepState r => some (.write self { m.proc self with state := .sleeping } (.sleepSwtch r))
  | .sleepSwtch r => some (.swtch (.sleepTidy r))
  | .sleepTidy r => some (.write self { m.proc self with chan := none } (.sleepUnlock r))
  | .sleepUnlock r => some (.release (.proc self) (.sleepReacquire r))
  | .sleepReacquire r => some (.acquire r.lk r.after)
  | .wakeAcquire chan i r => some (wakeAcquireCode self chan i r)
  | .wakeTest chan q r => some (wakeTestCode m chan q r)
  | .wakeRelease chan q r => some (.release (.proc q) (.wakeAcquire chan (q.val + 1) r))
  | .exitAcquire status => if self = initproc then none else some (.acquire .wait (.reparent 0 status))
  | .reparent i status => some (reparentCode m self i status)
  | .exitWakeup status => some (.jump (.wakeAcquire (parentChan m self) 0 (.exit status)))
  | .exitLock status => some (.acquire (.proc self) (.exitState status))
  | .exitState status => some (.write self { m.proc self with xstate := status, state := .zombie } .exitRelease)
  | .exitRelease => some (.release .wait .exitSwtch)
  | .exitSwtch => some (.swtch .zombie)
  | .zombie => none
  | .forkAcquire i => some (forkAcquireCode i)
  | .forkTest np => some (forkTestCode m np)
  | .forkSkip np => some (.release (.proc np) (.forkAcquire (np.val + 1)))
  | .forkContext np =>
    if ok then some (.context np (.forkRelease np)) else some (.write np (freeproc (m.proc np)) (.forkFail np))
  | .forkFail np => some (.release (.proc np) .kernel)
  | .forkRelease np => some (.release (.proc np) (.forkWaitLock np))
  | .forkWaitLock np => some (.acquire .wait (.forkParent np))
  | .forkParent np => some (.write np { m.proc np with parent := some self } (.forkWaitRelease np))
  | .forkWaitRelease np => some (.release .wait (.forkLock np))
  | .forkLock np => some (.acquire (.proc np) (.forkState np))
  | .forkState np => some (.write np { m.proc np with state := .runnable } (.forkUnlock np))
  | .forkUnlock np => some (.release (.proc np) .kernel)
  | .waitAcquire => some (.acquire .wait (.waitScan 0 false))
  | .waitScan i havekids => some (waitScanCode m self i havekids)
  | .waitTest np => some (waitTestCode m ok np)
  | .waitSkip np => some (.release (.proc np) (.waitScan (np.val + 1) true))
  | .waitUnlock np => some (.release (.proc np) .waitRelease)
  | .waitRelease => some (.release .wait .kernel)
  | .killAcquire pid i => some (killAcquireCode pid i)
  | .killTest pid q => some (killTestCode m pid q)
  | .killRelease pid q found =>
    some (.release (.proc q) (if found then .kernel else .killAcquire pid (q.val + 1)))
  | .consumeAcquire ch => some (.acquire (.user ch) (.consumeTest ch))
  | .consumeTest ch =>
    if m.cond ch then some (.jump (.consumeDone ch)) else some (.jump (.sleepAcquire (.consume ch)))
  | .consumeDone ch => some (.setCond ch ok (.consumeRelease ch))
  | .consumeRelease ch => some (.release (.user ch) .kernel)
  | .produceAcquire ch => some (.acquire (.user ch) (.produceSet ch))
  | .produceSet ch => some (.setCond ch true (.wakeAcquire (.other ch) 0 (.produce ch)))
  | .produceRelease ch => some (.release (.user ch) .kernel)

def interruptible : Pc → Bool
  | .yieldAcquire _ => false
  | pc => (locks self pc).isEmpty

/-- The handler of the timer interrupt calls `yield`. -/
def fetch (choice : Choice) (pc : Pc) : Option Instr :=
  match choice with
  | .go ok => code m self ok pc
  | .interrupt => if interruptible self pc then some (.jump (.yieldAcquire pc)) else none
  | .call c => match pc with
      | .kernel => some (.jump c.entry)
      | _ => none

end

/-! ## CPUs -/

inductive SchedPc where
  | acquire (i : Slot)
  | test (i : Slot)
  | switch (i : Slot)
  | release (i : Slot) -- also where the scheduler goes on when a process has switched back to it
  deriving DecidableEq

inductive Running where
  | scheduler (pc : SchedPc)
  | thread (p : Slot)
  deriving DecidableEq

structure State (Cpu : Type) extends Memory where
  lock : Lock → Option Cpu
  pc : Slot → Pc
  running : Cpu → Running
  saved : Cpu → SchedPc -- c->context

section
variable {Cpu : Type} [DecidableEq Cpu]

namespace State

def goto (s : State Cpu) (p : Slot) (k : Pc) : State Cpu := { s with pc := update s.pc p k }

def setLock (s : State Cpu) (l : Lock) (c : Option Cpu) : State Cpu :=
  { s with lock := update s.lock l c }

def setProc (s : State Cpu) (q : Slot) (v : Proc) : State Cpu := { s with proc := update s.proc q v }

def run (s : State Cpu) (c : Cpu) (r : Running) : State Cpu :=
  { s with running := update s.running c r }

end State

def execute (s : State Cpu) (c : Cpu) (p : Slot) : Instr → Option (State Cpu)
  | .jump k => some (s.goto p k)
  | .acquire l k => if s.lock l = none then some ((s.setLock l (some c)).goto p k) else none
  | .release l k => some ((s.setLock l none).goto p k)
  | .write q v k => some ((s.setProc q v).goto p k)
  | .allocpid q v k => some (({ s with nextpid := s.nextpid + 1 }.setProc q v).goto p k)
  | .context q k => some ((s.goto q .forkret).goto p k)
  | .setCond ch b k => some ({ s with cond := update s.cond ch b }.goto p k)
  | .swtch k => some ((s.goto p k).run c (.scheduler (s.saved c)))

def nextSlot (i : Slot) : Slot := Fin.ofNat NPROC (i.val + 1)

def schedStep (s : State Cpu) (c : Cpu) : SchedPc → Option (State Cpu)
  | .acquire i =>
    if s.lock (.proc i) = none then some ((s.setLock (.proc i) (some c)).run c (.scheduler (.test i))) else none
  | .test i =>
    if (s.proc i).state = .runnable then
      some ((s.setProc i { s.proc i with state := .running }).run c (.scheduler (.switch i)))
    else some (s.run c (.scheduler (.release i)))
  | .switch i => some ({ s with saved := update s.saved c (.release i) }.run c (.thread i))
  | .release i => some ((s.setLock (.proc i) none).run c (.scheduler (.acquire (nextSlot i))))

def step (s : State Cpu) (e : Cpu × Choice) : Option (State Cpu) :=
  match s.running e.1 with
  | .scheduler pc => schedStep s e.1 pc
  | .thread p => (fetch s.toMemory p e.2 (s.pc p)).bind (execute s e.1 p)

/-- Every CPU enters `scheduler()`, and the first process is runnable. -/
def initial (cond : Nat → Bool) : State Cpu where
  proc := ProcTable.initial.proc
  nextpid := 2
  cond := cond
  lock _ := none
  pc _ := .forkret
  running _ := .scheduler (.acquire 0)
  saved _ := .acquire 0

end

end Xv6.Scheduler
