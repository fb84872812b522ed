import Xv6.Bio.Cache
import Xv6.Log.Operations
import Xv6.Log.Commit

namespace Xv6.BlockStore
open Lib Function
open Bio (Buf Bcache)
open Commit (Block Layout storeHead)
open GroupCommit (Log)

/-! ## Transactions over the buffer cache

Each process runs the code of `bread`, `brelse` and `end_op` one lock section, sleep-lock operation,
copy or disk transfer at a time. In between it may begin an operation, read and change blocks, and
pass what it has changed to `log_write`. -/

inductive Reader where
  | user
  | logTo (tail : Nat)
  | logFrom (tail : Nat) (dst : Buf)
  | head (again : Bool) -- `write_head`, the first or the one that erases the transaction
  | installLog (tail : Nat)
  | installDst (tail : Nat) (lbuf : Buf)

inductive Pc where
  | user
  | bread (x : Nat) (r : Reader)
  | lockBuf (x : Nat) (b : Buf) (r : Reader)
  | fill (x : Nat) (b : Buf) (r : Reader)
  | relse (b : Buf) (k : Pc)
  | unref (b : Buf) (k : Pc)
  | commit
  | writeLog (tail : Nat)
  | logRead (tail : Nat) (dst : Buf)
  | logCopy (tail : Nat) (dst src : Buf)
  | logBwrite (tail : Nat) (dst src : Buf)
  | head (again : Bool) (b : Buf)
  | headBwrite (again : Bool) (b : Buf)
  | install (tail : Nat)
  | installRead (tail : Nat) (lbuf : Buf)
  | installCopy (tail : Nat) (lbuf dbuf : Buf)
  | installBwrite (tail : Nat) (lbuf dbuf : Buf)
  | installUnpin (tail : Nat) (lbuf dbuf : Buf)
  | clear
  | finish

def Reader.after (b : Buf) : Reader → Pc
  | .user => .user
  | .logTo tail => .logRead tail b
  | .logFrom tail dst => .logCopy tail dst b
  | .head again => .head again b
  | .installLog tail => .installRead tail b
  | .installDst tail lbuf => .installCopy tail lbuf b

inductive Stop where
  | bget (why : Bio.Stop)
  | brelse
  | bwrite
  | log (why : GroupCommit.Panic)

/-- The second group of fields is history: the references that `bget` has given out and `brelse` has
not taken back, the buffers that were changed and not yet logged, the contents of each block at its
last `log_write`, and the blocks that this transaction has passed to `bpin` and to `bunpin`. -/
structure State (ι : Type) where
  bcache : Bcache
  data : Buf → Block
  lock : Buf → Option ι
  disk : Nat → Block
  log : Log
  pc : ι → Pc
  inOp : ι → Bool
  stopped : Option Stop
  refs : List (ι × Buf)
  dirty : Buf → Bool
  store : Nat → Block
  pinned : List Nat
  unpinned : List Nat

inductive Instr where
  | jump (k : Pc)
  | bget (x : Nat) (r : Reader)
  | acquire (b : Buf) (k : Pc)
  | fill (b : Buf) (k : Pc)
  | copy (b : Buf) (v : Block) (k : Pc)
  | bwrite (b : Buf) (k : Pc)
  | release (b : Buf) (k : Pc)
  | unref (b : Buf) (k : Pc)
  | unpin (b : Buf) (k : Pc)
  | clear (k : Pc)
  | finish (k : Pc)

inductive Event (ι : Type) where
  | next (p : ι)
  | beginOp (p : ι)
  | endOp (p : ι)
  | bread (p : ι) (x : Nat)
  | change (p : ι) (b : Buf) (v : Block)
  | logWrite (p : ι) (b : Buf)
  | brelse (p : ι) (b : Buf)

section
variable {ι : Type} [DecidableEq ι] (l : Layout)

def lhBlock (s : State ι) (tail : Nat) : Nat := s.log.lh.getD tail 0

def code (s : State ι) : Pc → Option Instr
  | .user => none
  | .bread x r => some (.bget x r)
  | .lockBuf x b r => some (.acquire b (.fill x b r))
  | .fill _ b r => some (.fill b (r.after b))
  | .relse b k => some (.release b (.unref b k))
  | .unref b k => some (.unref b k)
  | .commit => some (.jump (if 0 < s.log.lh.length then .writeLog 0 else .finish))
  | .writeLog tail =>
    some (.jump (if tail < s.log.lh.length then .bread (l.start + tail + 1) (.logTo tail)
      else .bread l.start (.head false)))
  | .logRead tail dst => some (.jump (.bread (lhBlock s tail) (.logFrom tail dst)))
  | .logCopy tail dst src => some (.copy dst (s.data src) (.logBwrite tail dst src))
  | .logBwrite tail dst src => some (.bwrite dst (.relse src (.relse dst (.writeLog (tail + 1)))))
  | .head again b =>
    some (.copy b (storeHead (s.data b) (s.log.lh.map (BitVec.ofNat 32))) (.headBwrite again b))
  | .headBwrite again b => some (.bwrite b (.relse b (if again then .finish else .install 0)))
  | .install tail =>
    some (.jump (if tail < s.log.lh.length then .bread (l.start + tail + 1) (.installLog tail) else .clear))
  | .installRead tail lbuf => some (.jump (.bread (lhBlock s tail) (.installDst tail lbuf)))
  | .installCopy tail lbuf dbuf => some (.copy dbuf (s.data lbuf) (.installBwrite tail lbuf dbuf))
  | .installBwrite tail lbuf dbuf => some (.bwrite dbuf (.installUnpin tail lbuf dbuf))
  | .installUnpin tail lbuf dbuf => some (.unpin dbuf (.relse lbuf (.relse dbuf (.install (tail + 1)))))
  | .clear => some (.clear (.bread l.start (.head true)))
  | .finish => some (.finish .user)

namespace State

def goto (s : State ι) (p : ι) (k : Pc) : State ι := { s with pc := update s.pc p k }

def stop (s : State ι) (why : Stop) : State ι := { s with stopped := some why }

def blockno (s : State ι) (b : Buf) : Nat := (s.bcache.buf b).blockno

end State

def execute (s : State ι) (p : ι) : Instr → Option (State ι)
  | .jump k => some (s.goto p k)
  | .bget x r =>
    match Bio.bget s.bcache ROOTDEV x with
    | .ok (c, b) => some ({ s with bcache := c, refs := (p, b) :: s.refs }.goto p (.lockBuf x b r))
    | .error why => some (s.stop (.bget why))
  | .acquire b k =>
    if s.lock b = none then some ({ s with lock := update s.lock b (some p) }.goto p k) else none
  | .fill b k =>
    if (s.bcache.buf b).valid then some (s.goto p k)
    else some ({ s with
      data := update s.data b (s.disk (s.blockno b))
      bcache := s.bcache.setBuf b { s.bcache.buf b with valid := true } }.goto p k)
  | .copy b v k => some ({ s with data := update s.data b v }.goto p k)
  | .bwrite b k =>
    if s.lock b = some p then
      some ({ s with disk := update s.disk (s.blockno b) (s.data b) }.goto p k)
    else some (s.stop .bwrite)
  | .release b k =>
    if s.lock b = some p then some ({ s with lock := update s.lock b none }.goto p k)
    else some (s.stop .brelse)
  | .unref b k => some ({ s with bcache := Bio.brelse s.bcache b, refs := s.refs.erase (p, b) }.goto p k)
  | .unpin b k =>
    some ({ s with bcache := Bio.bunpin s.bcache b, unpinned := s.unpinned ++ [s.blockno b] }.goto p k)
  | .clear k =>
    some ({ s with log := { s.log with lh := [] }, pinned := [], unpinned := [] }.goto p k)
  | .finish k => some ({ s with log := { s.log with committing := false } }.goto p k)

def Home (x : Nat) : Prop := ¬ l.InLog x

instance (x : Nat) : Decidable (Home l x) := inferInstanceAs (Decidable (¬ (l.start ≤ x ∧ x < l.start + l.size)))

def Owns (s : State ι) (p : ι) (b : Buf) : Prop :=
  s.lock b = some p ∧ s.inOp p = true ∧ Home l (s.blockno b)

instance (s : State ι) (p : ι) (b : Buf) : Decidable (Owns l s p b) :=
  inferInstanceAs (Decidable (_ ∧ _ ∧ _))

/-- `log_write`, which pins the buffer of a block that is new in the transaction. -/
def recordWrite (s : State ι) (b : Buf) (log : Log) : State ι :=
  { s with
    log := log
    bcache := if s.blockno b ∈ s.log.lh then s.bcache else Bio.bpin s.bcache b
    pinned := if s.blockno b ∈ s.log.lh then s.pinned else s.pinned ++ [s.blockno b]
    store := update s.store (s.blockno b) (s.data b)
    dirty := update s.dirty b false }

def userStep (s : State ι) (p : ι) : Event ι → Option (State ι)
  | .next _ => none
  | .beginOp _ =>
    if s.inOp p then none
    else (GroupCommit.beginOp s.log).map fun log => { s with log := log, inOp := update s.inOp p true }
  | .endOp _ =>
    if s.inOp p then
      match GroupCommit.endOp s.log with
      | .error why => some (s.stop (.log why))
      | .ok (log, true) => some ({ s with log := log, inOp := update s.inOp p false }.goto p .commit)
      | .ok (log, false) => some { s with log := log, inOp := update s.inOp p false }
    else none
  | .bread _ x => some (s.goto p (.bread x .user))
  | .change _ b v =>
    if Owns l s p b then
      some { s with data := update s.data b v, dirty := update s.dirty b true }
    else none
  | .logWrite _ b =>
    if Owns l s p b then
      match GroupCommit.logWrite s.log (s.blockno b) with
      | .error why => some (s.stop (.log why))
      | .ok log => some (recordWrite s b log)
    else none
  | .brelse _ b => if s.lock b = some p ∧ s.dirty b = false then some (s.goto p (.relse b .user)) else none

def Event.process : Event ι → ι
  | .next p | .beginOp p | .endOp p | .bread p _ | .change p _ _ | .logWrite p _ | .brelse p _ => p

def step (s : State ι) (e : Event ι) : Option (State ι) :=
  if s.stopped.isSome then none
  else match s.pc e.process with
    | .user => userStep l s e.process e
    | pc => match e with
      | .next p => (code l s pc).bind (execute s p)
      | _ => none

/-- After `initlog`: no transaction is in the log. -/
def initial (disk : Nat → Block) : State ι where
  bcache := Bio.binit
  data _ := fun _ => 0
  lock _ := none
  disk := disk
  log := ⟨l.size, 0, false, []⟩
  pc _ := .user
  inOp _ := false
  stopped := none
  refs := []
  dirty _ := false
  store := disk
  pinned := []
  unpinned := []

end

/-! ### Fields after a step -/

section
variable {ι : Type} [DecidableEq ι] (s : State ι) (p q : ι) (k : Pc) (b : Buf) (x : Nat)

@[simp, grind =] theorem goto_pc : (s.goto p k).pc q = if q = p then k else s.pc q := Function.update_apply ..
@[simp, grind =] theorem goto_bcache : (s.goto p k).bcache = s.bcache := rfl
@[simp, grind =] theorem goto_data : (s.goto p k).data b = s.data b := rfl
@[simp, grind =] theorem goto_lock : (s.goto p k).lock b = s.lock b := rfl
@[simp, grind =] theorem goto_disk : (s.goto p k).disk x = s.disk x := rfl
@[simp, grind =] theorem goto_inOp : (s.goto p k).inOp q = s.inOp q := rfl
@[simp, grind =] theorem goto_refs : (s.goto p k).refs = s.refs := rfl
@[simp, grind =] theorem goto_dirty : (s.goto p k).dirty b = s.dirty b := rfl
@[simp, grind =] theorem goto_store : (s.goto p k).store x = s.store x := rfl
@[simp, grind =] theorem goto_pinned : (s.goto p k).pinned = s.pinned := rfl
@[simp, grind =] theorem goto_unpinned : (s.goto p k).unpinned = s.unpinned := rfl
@[simp, grind =] theorem goto_blockno : (s.goto p k).blockno b = s.blockno b := rfl

end

end Xv6.BlockStore
