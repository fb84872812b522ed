import Xv6.Proc.Table

namespace Xv6.Interrupts
open Lib Function
open ProcTable (Slot ProcState initproc)

/-! ## `push_off` and `pop_off` -/

inductive Panic where
  | popOffInterruptible
  | popOff
  | acquire
  | release
  | schedLock
  | schedLocks
  | schedRunning
  | schedInterruptible

/-- The interrupt-enable bit of a CPU, and `noff` and `intena` of its `struct cpu`. -/
structure Regs where
  sie : Bool
  noff : Int
  intena : Bool

def pushOff (old : Bool) (r : Regs) : Regs where
  sie := false
  noff := r.noff + 1
  intena := if r.noff = 0 then old else r.intena

def popOff (r : Regs) : Except Panic Regs :=
  if r.sie then .error .popOffInterruptible
  else if r.noff < 1 then .error .popOff
  else
    let noff := r.noff - 1
    .ok ⟨if noff = 0 ∧ r.intena then true else r.sie, noff, r.intena⟩

/-! ## Threads

The kernel thread of a process runs any code: it calls `push_off`, `pop_off`, `acquire`, `release`
and `sched` as it likes, as long as it gives back only what it has taken. The scheduler of a CPU is a
thread with a code of its own, and so is a trap handler on top of either. -/

inductive Lock where
  | proc (p : Slot)
  | other (n : Nat)
  deriving DecidableEq

inductive Caller where
  | plain
  | acquire (l : Lock)
  | scan (i : Slot) -- acquire(&p->lock) in scheduler()

inductive Pc where
  | body
  | pushOff (old : Bool) (caller : Caller) -- intr_get() has returned
  | spin (caller : Caller)
  | popOff (scanned : Option Slot) -- in release(), in scheduler() with its p
  | sched
  | resume (intena : Bool) -- in sched(), back from swtch()
  | forkret
  | loop -- for(;;) in scheduler()
  | scan (i : Nat)
  | test (i : Slot)
  | done (i : Slot)

def Caller.lock : Caller → Option Lock
  | .plain => none
  | .acquire l => some l
  | .scan i => some (.proc i)

def Caller.after : Caller → Pc
  | .plain | .acquire _ => .body
  | .scan i => .test i

/-- `frames` are the places that traps have interrupted. The rest is history: the locks that the
thread has acquired, the `push_off` calls that it has not undone, and whether interrupts were on when
it called the outermost of them. -/
structure Thread where
  pc : Pc
  frames : List Pc
  held : List Lock
  depth : Nat
  entry : Bool

inductive Act where
  | go -- the function that the thread is in goes on
  | pushOff
  | popOff
  | acquire (l : Lock)
  | release (l : Lock)
  | intrOn
  | intrOff
  | sched (state : ProcState)
  | write (p : Slot) (state : ProcState)
  | trap
  | sret

def localStep (r : Regs) (x : Thread) (a : Act) : Option (Except Panic (Regs × Thread)) :=
  let pop (k : Pc) := (popOff r).map fun r => (r, { x with depth := x.depth - 1, pc := k })
  match a, x.pc with
  | .go, .pushOff old caller =>
    let pushed := { x with depth := x.depth + 1, entry := if x.depth = 0 then old else x.entry }
    some (.ok (pushOff old r, { pushed with pc := if caller.lock.isSome then .spin caller else caller.after }))
  | .go, .popOff none => some (pop .body)
  | .go, .popOff (some i) => some (pop (.scan (i.val + 1)))
  | .go, .resume intena => some (.ok ({ r with intena := intena }, { x with pc := .body }))
  | .go, .loop => some (.ok ({ r with sie := true }, { x with pc := .scan 0 }))
  | .go, .scan i =>
    if below : i < NPROC then some (.ok (r, { x with pc := .pushOff r.sie (.scan ⟨i, below⟩) }))
    else some (.ok (r, { x with pc := .loop }))
  | .pushOff, .body => some (.ok (r, { x with pc := .pushOff r.sie .plain }))
  | .acquire l, .body => some (.ok (r, { x with pc := .pushOff r.sie (.acquire l) }))
  | .popOff, .body => if x.held.length < x.depth then some (pop .body) else none
  | .intrOn, .body => if x.depth = 0 then some (.ok ({ r with sie := true }, x)) else none
  | .intrOff, .body => if x.depth = 0 then some (.ok ({ r with sie := false }, x)) else none
  | .trap, _ =>
    if r.sie then some (.ok ({ r with sie := false }, { x with pc := .body, frames := x.pc :: x.frames }))
    else none
  | .sret, .body => match x.frames with
      | k :: rest =>
        if x.depth = 0 then some (.ok ({ r with sie := true }, { x with pc := k, frames := rest })) else none
      | [] => none
  | _, _ => none

/-! ## CPUs -/

inductive Who (C : Type) where
  | proc (p : Slot)
  | scheduler (c : C)
  deriving DecidableEq

structure State (C : Type) where
  cpu : C → Regs
  current : C → Option Slot -- the process that runs there
  lock : Lock → Option C -- lk->cpu, if lk->locked
  state : Slot → ProcState
  thread : Who C → Thread

/-- The thread that `allocproc` sets up; it starts with its lock held by the scheduler. -/
def fresh (p : Slot) : Thread := ⟨.forkret, [], [.proc p], 1, false⟩

/-- What one process may do to the state of another: `allocproc`, `freeproc`, `fork`, `wakeup` and `kill`. -/
def mayWrite : ProcState → ProcState → Bool
  | .unused, .used | .used, .unused | .used, .runnable | .sleeping, .runnable | .zombie, .unused => true
  | _, _ => false

/-- What a process may set its own state to before it calls `sched`. -/
def mayLeave : ProcState → Bool
  | .sleeping | .runnable | .zombie => true
  | .unused | .used | .running => false

section
variable {C : Type} [DecidableEq C]

namespace State

def self (s : State C) (c : C) : Who C :=
  match s.current c with
  | some p => .proc p
  | none => .scheduler c

def me (s : State C) (c : C) : Thread := s.thread (s.self c)

def setThread (s : State C) (w : Who C) (x : Thread) : State C := { s with thread := update s.thread w x }

def setMe (s : State C) (c : C) (x : Thread) : State C := s.setThread (s.self c) x

def setCpu (s : State C) (c : C) (r : Regs) : State C := { s with cpu := update s.cpu c r }

def setLock (s : State C) (l : Lock) (c : Option C) : State C := { s with lock := update s.lock l c }

def setState (s : State C) (p : Slot) (v : ProcState) : State C := { s with state := update s.state p v }

def setCurrent (s : State C) (c : C) (p : Option Slot) : State C := { s with current := update s.current c p }

end State

def goto (s : State C) (c : C) (k : Pc) : State C := s.setMe c { s.me c with pc := k }

def acquireLock (s : State C) (c : C) (l : Lock) (k : Pc) : Option (Except Panic (State C)) :=
  if s.lock l = some c then some (.error .acquire)
  else if s.lock l = none then
    some (.ok ((s.setLock l (some c)).setMe c { s.me c with pc := k, held := l :: (s.me c).held }))
  else none

def releaseLock (s : State C) (c : C) (l : Lock) (scanned : Option Slot) : Except Panic (State C) :=
  if s.lock l = some c then
    .ok ((s.setLock l none).setMe c { s.me c with pc := .popOff scanned, held := (s.me c).held.erase l })
  else .error .release

/-- `sched` up to `swtch`, which leaves the thread in the scheduler of its CPU. -/
def sched (s : State C) (c : C) (p : Slot) : Except Panic (State C) :=
  if s.lock (.proc p) ≠ some c then .error .schedLock
  else if (s.cpu c).noff ≠ 1 then .error .schedLocks
  else if s.state p = .running then .error .schedRunning
  else if (s.cpu c).sie then .error .schedInterruptible
  else .ok ((goto s c (.resume (s.cpu c).intena)).setCurrent c none)

def Thread.start (x : Thread) (scheduler : Thread) : Thread :=
  match x.pc with
  | .forkret => { x with pc := .body, entry := scheduler.entry }
  | _ => x

/-- `scheduler` with the lock of `i` held, up to `swtch`. -/
def choose (s : State C) (c : C) (i : Slot) : State C :=
  if s.state i = .runnable then
    ((((goto s c (.done i)).setState i .running).setThread (.proc i) ((s.thread (.proc i)).start (s.me c)))).setCurrent c (some i)
  else goto s c (.done i)

def write (s : State C) (p : Slot) (v : ProcState) : State C :=
  if v = .used then (s.setState p v).setThread (.proc p) (fresh p) else s.setState p v

def exec (s : State C) (c : C) (a : Act) : Option (Except Panic (State C)) :=
  match a, (s.me c).pc, s.current c with
  | .go, .spin caller, _ => caller.lock.bind fun l => acquireLock s c l caller.after
  | .release l, .body, _ => if l ∈ (s.me c).held then some (releaseLock s c l none) else none
  | .go, .done i, none => some (releaseLock s c (.proc i) (some i))
  | .go, .test i, none => some (.ok (choose s c i))
  | .sched v, .body, some p =>
    if .proc p ∈ (s.me c).held ∧ mayLeave v then some (.ok (goto (s.setState p v) c .sched)) else none
  | .go, .sched, some p => some (sched s c p)
  | .write p v, .body, _ =>
    if s.lock (.proc p) = some c ∧ mayWrite (s.state p) v then some (.ok (write s p v)) else none
  | a, _, _ => (localStep (s.cpu c) (s.me c) a).map fun outcome => outcome.map fun (r, x) => (s.setCpu c r).setMe c x

def step (s : State C) (e : C × Act) : Option (State C) :=
  match exec s e.1 e.2 with
  | some (.ok t) => some t
  | _ => none

/-- Every CPU enters `scheduler()` with interrupts off. -/
def initial : State C where
  cpu _ := ⟨false, 0, false⟩
  current _ := none
  lock _ := none
  state p := if p = initproc then .runnable else .unused
  thread
    | .proc p => fresh p
    | .scheduler _ => ⟨.loop, [], [], 0, false⟩

end

end Xv6.Interrupts
