import Xv6.Param

namespace Xv6.GroupCommit

inductive Panic where
  | committing
  | tooBig
  | outsideTrans
  deriving DecidableEq, Repr

/-- `struct log`; the list `lh` is `lh.block[0..lh.n)`. -/
structure Log where
  size : Int
  outstanding : Int
  committing : Bool
  lh : List Nat
  deriving DecidableEq, Repr

/-- One pass of the loop of `begin_op` under `log.lock`; `none` is a call of `sleep`. -/
def beginOp (log : Log) : Option Log :=
  if log.committing then none
  else if log.lh.length + (log.outstanding + 1) * MAXOPBLOCKS > LOGSIZE then none
  else some { log with outstanding := log.outstanding + 1 }

/-- The absorption loop of `log_write` and the store after it. -/
def recordBlock : List Nat → Nat → List Nat
  | [], b => [b]
  | x :: xs, b => if x = b then b :: xs else x :: recordBlock xs b

def logWrite (log : Log) (b : Nat) : Except Panic Log :=
  if (LOGSIZE : Int) ≤ log.lh.length ∨ log.size - 1 ≤ log.lh.length then .error .tooBig
  else if log.outstanding < 1 then .error .outsideTrans
  else .ok { log with lh := recordBlock log.lh b }

/-- The first critical section of `end_op`, with the value of `do_commit`. -/
def endOp (log : Log) : Except Panic (Log × Bool) :=
  let log := { log with outstanding := log.outstanding - 1 }
  if log.committing then .error .committing
  else if log.outstanding = 0 then .ok ({ log with committing := true }, true)
  else .ok (log, false)

/-- Where a process stands inside `commit()`, which runs without `log.lock`. -/
inductive CommitPc where
  | start
  | writeLog (tail : Nat)
  | writeHead
  | install (tail : Nat)
  | clear
  | eraseHead
  | finish
  deriving DecidableEq, Repr

inductive Pc where
  | idle
  | sleeping
  | inOp (op : Nat)
  | commit (place : CommitPc)
  deriving DecidableEq, Repr

def Pc.isOp : Pc → Bool
  | .inOp _ => true
  | _ => false

def Pc.isCommit : Pc → Bool
  | .commit _ => true
  | _ => false

def Pc.pastHead : Pc → Bool
  | .commit (.install _) | .commit .clear | .commit .eraseHead | .commit .finish => true
  | _ => false

/-- History only: operation `op` logged `block` when `tx` transactions had reached the disk. -/
structure Write where
  op : Nat
  block : Nat
  tx : Nat
  deriving DecidableEq, Repr

/-- `header` is the block list of the on-disk header. The last three fields are history: the
headers written by `commit()`, the number of operations begun and their `log_write`s. -/
structure State (ι : Type) where
  log : Log
  pc : ι → Pc
  header : List Nat
  panicked : Option Panic
  committed : List (List Nat)
  started : Nat
  writes : List Write

inductive Event (ι : Type) where
  | beginOp (p : ι)
  | logWrite (p : ι) (b : Nat)
  | endOp (p : ι)
  | commit (p : ι)
  deriving DecidableEq, Repr

variable {ι : Type} [DecidableEq ι] {p : ι}

def State.goto (s : State ι) (p : ι) (pc : Pc) : State ι :=
  { s with pc := Function.update s.pc p pc }

section
variable (s : State ι) (p q : ι) (pc : Pc)

@[simp, grind =] theorem goto_pc : (s.goto p pc).pc q = if q = p then pc else s.pc q := by
  simp [State.goto, Function.update_apply]

@[simp, grind =] theorem goto_log : (s.goto p pc).log = s.log := rfl

@[simp, grind =] theorem goto_writes : (s.goto p pc).writes = s.writes := rfl

@[simp, grind =] theorem goto_committed : (s.goto p pc).committed = s.committed := rfl

@[simp, grind =] theorem goto_panicked : (s.goto p pc).panicked = s.panicked := rfl

end

/-- One step of `commit()`, and after it the last critical section of `end_op`. -/
def commitStep (s : State ι) (p : ι) : CommitPc → State ι
  | .start => if s.log.lh.length > 0 then s.goto p (.commit (.writeLog 0)) else s.goto p (.commit .finish)
  | .writeLog tail =>
    if tail < s.log.lh.length then s.goto p (.commit (.writeLog (tail + 1)))
    else s.goto p (.commit .writeHead)
  | .writeHead =>
    { s.goto p (.commit (.install 0)) with
      header := s.log.lh, committed := s.committed ++ [s.log.lh] }
  | .install tail =>
    if tail < s.log.lh.length then s.goto p (.commit (.install (tail + 1)))
    else s.goto p (.commit .clear)
  | .clear => { s.goto p (.commit .eraseHead) with log := { s.log with lh := [] } }
  | .eraseHead => { s.goto p (.commit .finish) with header := s.log.lh }
  | .finish => { s.goto p .idle with log := { s.log with committing := false } }

def step (s : State ι) (e : Event ι) : Option (State ι) :=
  if s.panicked.isSome then none
  else match e with
    | .beginOp p =>
      if s.pc p = .idle ∨ s.pc p = .sleeping then
        match beginOp s.log with
        | none => some (s.goto p .sleeping)
        | some log => some { s.goto p (.inOp s.started) with log := log, started := s.started + 1 }
      else none
    | .logWrite p b =>
      match s.pc p with
      | .inOp op =>
        match logWrite s.log b with
        | .error e => some { s with panicked := some e }
        | .ok log => some { s with log := log, writes := ⟨op, b, s.committed.length⟩ :: s.writes }
      | _ => none
    | .endOp p =>
      match s.pc p with
      | .inOp _ =>
        match endOp s.log with
        | .error e => some { s with panicked := some e }
        | .ok (log, true) => some { s.goto p (.commit .start) with log := log }
        | .ok (log, false) => some { s.goto p .idle with log := log }
      | _ => none
    | .commit p =>
      match s.pc p with
      | .commit place => some (commitStep s p place)
      | _ => none

/-- The log as `initlog` leaves it, for a superblock with `nlog = size`. -/
def initial (ι : Type) (size : Int) : State ι where
  log := ⟨size, 0, false, []⟩
  pc _ := .idle
  header := []
  panicked := none
  committed := []
  started := 0
  writes := []

/-! ## What a step can do -/

def Admitted (log log' : Log) : Prop :=
  log.committing = false ∧ log.lh.length + (log.outstanding + 1) * MAXOPBLOCKS ≤ LOGSIZE ∧
    log' = { log with outstanding := log.outstanding + 1 }

theorem beginOp_eq_some {log log' : Log} : beginOp log = some log' ↔ Admitted log log' := by
  unfold beginOp Admitted
  split_ifs <;> grind

theorem step_beginOp {s t : State ι} (h : step s (.beginOp p) = some t) :
    (s.pc p = .idle ∨ s.pc p = .sleeping) ∧
      (t = s.goto p .sleeping ∨
        ∃ log, Admitted s.log log ∧ t = { s.goto p (.inOp s.started) with log := log, started := s.started + 1 }) := by
  unfold step at h
  split_ifs at h
  dsimp only at h
  split_ifs at h with free
  refine ⟨free, ?_⟩
  cases attempt : beginOp s.log with
  | none => grind
  | some log => grind [beginOp_eq_some.mp]

theorem step_logWrite {s t : State ι} {b : Nat} (h : step s (.logWrite p b) = some t) :
    ∃ op, s.pc p = .inOp op ∧
      ((((LOGSIZE : Int) ≤ s.log.lh.length ∨ s.log.size - 1 ≤ s.log.lh.length) ∧
          t = { s with panicked := some .tooBig }) ∨
        ((s.log.lh.length : Int) < LOGSIZE ∧ (s.log.lh.length : Int) < s.log.size - 1 ∧
          ((s.log.outstanding < 1 ∧ t = { s with panicked := some .outsideTrans }) ∨
            t = { s with log := { s.log with lh := recordBlock s.log.lh b },
                         writes := ⟨op, b, s.committed.length⟩ :: s.writes }))) := by
  unfold step at h
  split_ifs at h
  cases place : s.pc p with
  | inOp op => grind [logWrite]
  | _ => simp [place] at h

theorem step_endOp {s t : State ι} (h : step s (.endOp p) = some t) :
    ∃ op, s.pc p = .inOp op ∧
      ((s.log.committing = true ∧ t = { s with panicked := some .committing }) ∨
        (s.log.committing = false ∧ s.log.outstanding = 1 ∧
          t = { s.goto p (.commit .start) with
                log := { s.log with outstanding := 0, committing := true } }) ∨
        (s.log.committing = false ∧ s.log.outstanding ≠ 1 ∧
          t = { s.goto p .idle with
                log := { s.log with outstanding := s.log.outstanding - 1 } })) := by
  unfold step at h
  split_ifs at h
  cases place : s.pc p with
  | inOp op =>
    refine ⟨op, rfl, ?_⟩
    simp only [place, endOp] at h
    cases busy : s.log.committing with
    | true => simp_all
    | false => grind
  | _ => simp [place] at h

theorem step_commit {s t : State ι} (h : step s (.commit p) = some t) :
    ∃ place, s.pc p = .commit place ∧ t = commitStep s p place := by grind [step]

theorem step_unpanicked {s t : State ι} {e : Event ι} (h : step s e = some t) : s.panicked = none := by
  unfold step at h
  split_ifs at h with panicked
  simpa using panicked

end Xv6.GroupCommit
