import Xv6.Lib.Run
import Xv6.Param

namespace Xv6.Itable
open Lib Function

/-! ## The inode table of `fs.c`

Any number of processes get, lock, change and put inodes. A section under `itable.lock`, a sleep-lock
operation, and a read or write of one inode in its buffer are single steps. -/

/-- `struct dinode`, and the copy of it in a table entry. -/
structure Dinode where
  type : Int
  major : Int
  minor : Int
  nlink : Int
  size : Nat
  addrs : Fin (NDIRECT + 1) → Nat

structure Inode where
  dev : Nat
  inum : Nat
  ref : Nat
  valid : Bool
  copy : Dinode

abbrev Entry := Fin NINODE

inductive Panic where
  | iget
  | ialloc
  | ilock
  | noType
  deriving DecidableEq

inductive Pc where
  | user
  | ilockAcquire (e : Entry)
  | ilockValid (e : Entry)
  | ilockSet (e : Entry)
  | ialloc (dev : Nat) (type : Int) (inum : Nat)
  | iallocGet (dev inum : Nat)
  | iputTrunc (e : Entry)
  | iputTruncUpdate (e : Entry)
  | iputType (e : Entry)
  | iputUpdate (e : Entry)
  | iputInvalid (e : Entry)
  | iputRelease (e : Entry)
  | iputDrop (e : Entry)
  deriving DecidableEq

/-- `refs` and `dirty` are history: the references that `iget` and `idup` have given out and `iput` has
not taken back, and the entries that were changed since their last `iupdate`. -/
structure State (ι : Type) where
  table : Entry → Inode
  lock : Entry → Option ι
  disk : Nat → Nat → Dinode
  ninodes : Nat
  pc : ι → Pc
  stopped : Option Panic
  refs : List (ι × Entry)
  dirty : Entry → Bool

inductive Event (ι : Type) where
  | next (p : ι)
  | iget (p : ι) (dev inum : Nat)
  | idup (p q : ι) (e : Entry) -- for itself, or for a child
  | pass (p q : ι) (e : Entry) -- an open file goes from one process to another
  | ilock (p : ι) (e : Entry)
  | iunlock (p : ι) (e : Entry)
  | change (p : ι) (e : Entry) (v : Dinode)
  | iupdate (p : ι) (e : Entry)
  | ialloc (p : ι) (dev : Nat) (type : Int)
  | iput (p : ι) (e : Entry)

section
variable {ι : Type} [DecidableEq ι]

namespace State

def goto (s : State ι) (p : ι) (k : Pc) : State ι := { s with pc := update s.pc p k }

def setEntry (s : State ι) (e : Entry) (v : Inode) : State ι := { s with table := update s.table e v }

def setCopy (s : State ι) (e : Entry) (v : Dinode) : State ι := s.setEntry e { s.table e with copy := v }

def setLock (s : State ι) (e : Entry) (p : Option ι) : State ι := { s with lock := update s.lock e p }

def dinode (s : State ι) (e : Entry) : Dinode := s.disk (s.table e).dev (s.table e).inum

def setDisk (s : State ι) (dev inum : Nat) (v : Dinode) : State ι :=
  { s with disk := update s.disk dev (update (s.disk dev) inum v) }

def stop (s : State ι) (why : Panic) : State ι := { s with stopped := some why }

end State

/-- The entry that `iget` uses: the one with the inode, or else the first free one. -/
def findEntry (s : State ι) (dev inum : Nat) : Option Entry :=
  (List.finRange NINODE).find? fun e => (s.table e).ref > 0 && (s.table e).dev == dev && (s.table e).inum == inum

def findFree (s : State ι) : Option Entry := (List.finRange NINODE).find? fun e => (s.table e).ref == 0

def iget (s : State ι) (p : ι) (dev inum : Nat) : State ι :=
  match findEntry s dev inum with
  | some e => { s.setEntry e { s.table e with ref := (s.table e).ref + 1 } with refs := (p, e) :: s.refs }
  | none => match findFree s with
    | none => s.stop .iget
    | some e => { s.setEntry e { s.table e with dev := dev, inum := inum, ref := 1, valid := false } with
        refs := (p, e) :: s.refs }

def drop (s : State ι) (p : ι) (e : Entry) : State ι :=
  { s.setEntry e { s.table e with ref := (s.table e).ref - 1 } with refs := s.refs.erase (p, e) }

/-- The first section of `iput`; the second one is at `iputDrop`. -/
def iput (s : State ι) (p : ι) (e : Entry) : Option (State ι) :=
  if (s.table e).ref = 1 ∧ (s.table e).valid ∧ (s.table e).copy.nlink = 0 then
    if s.lock e = none then some ((s.setLock e (some p)).goto p (.iputTrunc e)) else none
  else some (drop s p e)

def kernelStep (s : State ι) (p : ι) : Pc → Option (State ι)
  | .user => none
  | .ilockAcquire e =>
    if s.lock e = none then some ((s.setLock e (some p)).goto p (.ilockValid e)) else none
  | .ilockValid e =>
    if (s.table e).valid then some (s.goto p .user) else some ((s.setCopy e (s.dinode e)).goto p (.ilockSet e))
  | .ilockSet e =>
    let s := s.setEntry e { s.table e with valid := true }
    if (s.table e).copy.type = 0 then some (s.stop .noType) else some (s.goto p .user)
  | .ialloc dev type inum =>
    if inum < s.ninodes then
      if (s.disk dev inum).type = 0 then
        some ((s.setDisk dev inum ⟨type, 0, 0, 0, 0, fun _ => 0⟩).goto p (.iallocGet dev inum))
      else some (s.goto p (.ialloc dev type (inum + 1)))
    else some (s.stop .ialloc)
  | .iallocGet dev inum => some ((iget s p dev inum).goto p .user)
  | .iputTrunc e =>
    some ((s.setCopy e { (s.table e).copy with size := 0, addrs := fun _ => 0 }).goto p (.iputTruncUpdate e))
  | .iputTruncUpdate e =>
    some ((s.setDisk (s.table e).dev (s.table e).inum (s.table e).copy).goto p (.iputType e))
  | .iputType e => some ((s.setCopy e { (s.table e).copy with type := 0 }).goto p (.iputUpdate e))
  | .iputUpdate e =>
    some ((s.setDisk (s.table e).dev (s.table e).inum (s.table e).copy).goto p (.iputInvalid e))
  | .iputInvalid e => some ((s.setEntry e { s.table e with valid := false }).goto p (.iputRelease e))
  | .iputRelease e => some ((s.setLock e none).goto p (.iputDrop e))
  | .iputDrop e => some ((drop s p e).goto p .user)

def Spare (s : State ι) (p : ι) (e : Entry) : Prop :=
  (if s.lock e = some p then 1 else 0) < s.refs.count (p, e)

instance (s : State ι) (p : ι) (e : Entry) : Decidable (Spare s p e) := inferInstanceAs (Decidable (_ < _))

/-- What the callers in `fs.c` and `sysfile.c` do: they use entries that they have a reference to,
change an inode only under its lock and never its type, and call `iupdate` before they unlock it. -/
def userStep (s : State ι) (p : ι) : Event ι → Option (State ι)
  | .next _ => none
  | .iget _ dev inum => some (iget s p dev inum)
  | .idup _ q e =>
    if (p, e) ∈ s.refs then
      some { s.setEntry e { s.table e with ref := (s.table e).ref + 1 } with refs := (q, e) :: s.refs }
    else none
  | .pass _ q e => if Spare s p e then some { s with refs := (q, e) :: s.refs.erase (p, e) } else none
  | .ilock _ e =>
    if (p, e) ∈ s.refs then
      if (s.table e).ref < 1 then some (s.stop .ilock) else some (s.goto p (.ilockAcquire e))
    else none
  | .iunlock _ e => if s.lock e = some p ∧ s.dirty e = false then some (s.setLock e none) else none
  | .change _ e v =>
    if s.lock e = some p ∧ v.type = (s.table e).copy.type then
      some { s.setCopy e v with dirty := update s.dirty e true }
    else none
  | .iupdate _ e =>
    if s.lock e = some p then
      some { s.setDisk (s.table e).dev (s.table e).inum (s.table e).copy with
        dirty := update s.dirty e false }
    else none
  | .ialloc _ dev type => if type = 0 then none else some (s.goto p (.ialloc dev type 1))
  | .iput _ e => if Spare s p e then iput s p e else none

def Event.process : Event ι → ι
  | .next p | .iget p _ _ | .idup p _ _ | .pass p _ _ | .ilock p _ | .iunlock p _ | .change p _ _
  | .iupdate p _ | .ialloc p _ _ | .iput p _ => p

def step (s : State ι) (ev : Event ι) : Option (State ι) :=
  if s.stopped.isSome then none
  else match s.pc ev.process with
    | .user => userStep s ev.process ev
    | pc => match ev with
      | .next p => kernelStep s p pc
      | _ => none

def initial (ninodes : Nat) (disk : Nat → Nat → Dinode) : State ι where
  table _ := ⟨0, 0, 0, false, ⟨0, 0, 0, 0, 0, fun _ => 0⟩⟩
  lock _ := none
  disk := disk
  ninodes := ninodes
  pc _ := .user
  stopped := none
  refs := []
  dirty _ := false

end

end Xv6.Itable
