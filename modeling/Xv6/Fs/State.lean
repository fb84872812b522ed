import Xv6.Lib.Prog
import Xv6.Fs.Path

namespace Xv6.Fs
open Lib Function

/-! ## The state

One device. The contents of a directory are its slots of 16 bytes; the contents of other files are
left out, since no call here reads them. -/

abbrev T_DIR : Int := 1
abbrev T_FILE : Int := 2
abbrev T_DEVICE : Int := 3

abbrev O_WRONLY : BitVec 32 := 0x001
abbrev O_RDWR : BitVec 32 := 0x002
abbrev O_CREATE : BitVec 32 := 0x200
abbrev O_TRUNC : BitVec 32 := 0x400

def short (n : Int) : Int := n.bmod 65536

structure Dinode where
  type : Int
  major : Int
  minor : Int
  nlink : Int
  size : Nat
  deriving DecidableEq

structure Dirent where
  inum : Nat
  name : Name
  deriving DecidableEq

abbrev direntSize : Nat := 16

structure Inode where
  inum : Nat
  ref : Int
  valid : Bool
  copy : Dinode
  deriving DecidableEq

abbrev Entry := Fin NINODE
abbrev FileId := Fin NFILE
abbrev Fd := Fin NOFILE
abbrev Slot := Fin NPROC
abbrev Page := Nat

inductive FdType where
  | none
  | pipe
  | inode
  | device
  deriving DecidableEq

structure File where
  type : FdType
  ref : Int
  readable : Bool
  writable : Bool
  pipe : Page
  ip : Entry
  off : Nat
  major : Int
  deriving DecidableEq

structure Pipe where
  readopen : Bool
  writeopen : Bool
  deriving DecidableEq

def Pipe.close (pi : Pipe) (writable : Bool) : Pipe :=
  if writable then { pi with writeopen := false } else { pi with readopen := false }

inductive Status where
  | unused
  | used
  | runnable -- and running, and sleeping
  | zombie
  deriving DecidableEq

structure Proc where
  status : Status
  ofile : Fd → Option FileId
  cwd : Option Entry

/-- `allocs` and `frees` are history: how often a page was taken for a pipe and given back. -/
structure State where
  disk : Nat → Dinode
  slots : Nat → Nat → Dirent
  ninodes : Nat
  table : Entry → Inode
  lock : Entry → Option Slot
  outstanding : Int
  file : FileId → File
  pipe : Page → Option Pipe
  allocs : Page → Nat
  frees : Page → Nat
  proc : Slot → Proc

inductive Panic where
  | igetNoInodes
  | iallocNoInodes
  | ilock
  | noType
  | iunlock
  | dirlookupNotDir
  | dirlookupRead
  | dirlinkRead
  | dirlink
  | isdirempty
  | unlinkNlink
  | unlinkWritei
  | createDots
  | createDirlink
  | filedup
  | fileclose
  | fileread
  | filewrite
  | initExiting
  | kerneltrap -- a null pointer is used
  | freedPipe -- a pipe is used after it was freed; the kernel does not notice
  deriving DecidableEq

inductive Stop where
  | panic (why : Panic)
  | wait
  deriving DecidableEq

def initproc : Slot := 0

/-! ## Atomic operations -/

inductive Req where
  | panic (why : Panic)
  | beginOp
  | endOp
  | ninodes
  | iget (inum : Nat) (made : Bool) -- `made` at the end of `ialloc`
  | idup (e : Entry)
  | acquire (e : Entry) -- `ilock` up to `acquiresleep`
  | fill (e : Entry) -- the rest of `ilock`
  | inode (e : Entry)
  | inum (e : Entry)
  | store (e : Entry) (d : Dinode)
  | iupdate (e : Entry)
  | iunlock (e : Entry)
  | putLast (e : Entry) -- the first section of `iput`: is the inode to be freed?
  | itrunc (e : Entry)
  | invalidate (e : Entry)
  | releasesleep (e : Entry)
  | dropRef (e : Entry)
  | readDirent (e : Entry) (off : Nat)
  | writeDirent (e : Entry) (off : Nat) (de : Dirent)
  | tryAlloc (inum : Nat) (type : Int) -- one turn of the loop of `ialloc`
  | filealloc
  | filedup (f : FileId)
  | fileclose (f : FileId) -- the section under `ftable.lock`
  | setInode (f : FileId) (device : Option Int) (ip : Entry) (readable writable : Bool)
  | setPipe (f : FileId) (page : Page) (writable : Bool)
  | newPipe (page : Option Page) -- `kalloc`, with what it returns, and the pipe's first values
  | pipeclose (page : Page) (writable : Bool)
  | ofile (fd : Fd)
  | setOfile (fd : Fd) (f : Option FileId)
  | cwd
  | setCwd (e : Option Entry)
  | allocproc (np : Option Slot)
  | freeproc (np : Slot)
  | dupFile (np : Slot) (fd : Fd)
  | dupCwd (np : Slot)
  | setRunnable (np : Slot)
  | setZombie

@[reducible] def Answer : Req → Type
  | .panic _ => Empty
  | .ninodes | .inum _ => Nat
  | .iget .. | .cwd => Entry
  | .inode _ => Dinode
  | .putLast _ | .writeDirent .. | .tryAlloc .. => Bool
  | .readDirent .. => Option Dirent
  | .filealloc | .ofile _ => Option FileId
  | .fileclose _ => Option File
  | .newPipe _ => Option Page
  | .allocproc _ => Option Slot
  | _ => Unit

namespace State

def setEntry (s : State) (e : Entry) (v : Inode) : State := { s with table := update s.table e v }

def addRef (s : State) (e : Entry) (n : Int) : State :=
  s.setEntry e { s.table e with ref := (s.table e).ref + n }

def setCopy (s : State) (e : Entry) (d : Dinode) : State := s.setEntry e { s.table e with copy := d }

def setLock (s : State) (e : Entry) (p : Option Slot) : State := { s with lock := update s.lock e p }

def setDisk (s : State) (inum : Nat) (d : Dinode) : State := { s with disk := update s.disk inum d }

def iupdate (s : State) (e : Entry) : State := s.setDisk (s.table e).inum (s.table e).copy

def setSlots (s : State) (inum : Nat) (v : Nat → Dirent) : State :=
  { s with slots := update s.slots inum v }

def setFile (s : State) (f : FileId) (v : File) : State := { s with file := update s.file f v }

def setProc (s : State) (p : Slot) (v : Proc) : State := { s with proc := update s.proc p v }

def setPipe (s : State) (page : Page) (v : Option Pipe) : State := { s with pipe := update s.pipe page v }

/-- The entry that `iget` uses: the one with the inode, or else the first free one. -/
def findEntry (s : State) (inum : Nat) : Option Entry :=
  (List.finRange NINODE).find? fun e => (s.table e).ref > 0 && (s.table e).inum == inum

def findFree (s : State) : Option Entry := (List.finRange NINODE).find? fun e => (s.table e).ref == 0

def iget (s : State) (inum : Nat) : Except Stop (Entry × State) :=
  match s.findEntry inum with
  | some e => .ok (e, s.addRef e 1)
  | none => match s.findFree with
      | none => .error (.panic .igetNoInodes)
      | some e => .ok (e, s.setEntry e { s.table e with inum := inum, ref := 1, valid := false })

def fill (s : State) (e : Entry) : Except Stop (Unit × State) :=
  if (s.table e).valid then .ok ((), s)
  else
    let d := s.disk (s.table e).inum
    if d.type = 0 then .error (.panic .noType)
    else .ok ((), s.setEntry e { s.table e with copy := d, valid := true })

def putLast (s : State) (self : Slot) (e : Entry) : Except Stop (Bool × State) :=
  if (s.table e).ref = 1 ∧ (s.table e).valid ∧ (s.table e).copy.nlink = 0 then
    if s.lock e = none then .ok (true, s.setLock e (some self)) else .error .wait
  else .ok (false, s.addRef e (-1))

def itrunc (s : State) (e : Entry) : State :=
  ((s.setCopy e { (s.table e).copy with size := 0 }).iupdate e).setSlots (s.table e).inum fun _ => ⟨0, []⟩

def readDirent (s : State) (e : Entry) (off : Nat) : Option Dirent :=
  if off + direntSize ≤ (s.table e).copy.size ∧ off + direntSize < 2 ^ 32 then
    some (s.slots (s.table e).inum (off / direntSize))
  else none

/-- `writei` of one directory slot; blocks do not run out. -/
def writeDirent (s : State) (e : Entry) (off : Nat) (de : Dirent) : Bool × State :=
  let d := (s.table e).copy
  if off > d.size ∨ off + direntSize ≥ 2 ^ 32 then (false, s)
  else if off + direntSize > MAXFILE * BSIZE then (false, s)
  else
    let s := s.setSlots (s.table e).inum (update (s.slots (s.table e).inum) (off / direntSize) de)
    let s := if off + direntSize > d.size then s.setCopy e { d with size := off + direntSize } else s
    (true, s.iupdate e)

def tryAlloc (s : State) (inum : Nat) (type : Int) : Bool × State :=
  if (s.disk inum).type = 0 then (true, s.setDisk inum ⟨type, 0, 0, 0, 0⟩) else (false, s)

def filealloc (s : State) : Option FileId × State :=
  match (List.finRange NFILE).find? fun f => (s.file f).ref == 0 with
  | none => (none, s)
  | some f => (some f, s.setFile f { s.file f with ref := 1 })

def fileclose (s : State) (f : FileId) : Except Stop (Option File × State) :=
  let ff := s.file f
  if ff.ref < 1 then .error (.panic .fileclose)
  else if ff.ref - 1 > 0 then .ok (none, s.setFile f { ff with ref := ff.ref - 1 })
  else .ok (some ff, s.setFile f { ff with ref := 0, type := .none })

def newPipe (s : State) : Option Page → Except Stop (Option Page × State)
  | none => .ok (none, s)
  | some page =>
    if s.pipe page = none then
      .ok (some page, { s.setPipe page (some ⟨true, true⟩) with
        allocs := update s.allocs page (s.allocs page + 1) })
    else .error .wait

def pipeclose (s : State) (page : Page) (writable : Bool) : Except Stop (Unit × State) :=
  match s.pipe page with
  | none => .error (.panic .freedPipe)
  | some pi =>
    let pi := pi.close writable
    if pi.readopen = false ∧ pi.writeopen = false then
      .ok ((), { s.setPipe page none with frees := update s.frees page (s.frees page + 1) })
    else .ok ((), s.setPipe page (some pi))

def dupFile (s : State) (self np : Slot) (fd : Fd) : Except Stop (Unit × State) :=
  match (s.proc self).ofile fd with
  | none => .ok ((), s)
  | some f =>
    if (s.file f).ref < 1 then .error (.panic .filedup)
    else .ok ((), (s.setFile f { s.file f with ref := (s.file f).ref + 1 }).setProc np
      { s.proc np with ofile := update (s.proc np).ofile fd (some f) })

def dupCwd (s : State) (self np : Slot) : Except Stop (Unit × State) :=
  match (s.proc self).cwd with
  | none => .error (.panic .kerneltrap)
  | some e => .ok ((), (s.addRef e 1).setProc np { s.proc np with cwd := some e })

end State

def perform (self : Slot) : (r : Req) → Comp State Stop (Answer r)
  | .panic why => fun _ => .error (.panic why)
  | .beginOp => fun s => .ok ((), { s with outstanding := s.outstanding + 1 })
  | .endOp => fun s => .ok ((), { s with outstanding := s.outstanding - 1 })
  | .ninodes => fun s => .ok (s.ninodes, s)
  | .iget inum _ => fun s => s.iget inum
  | .idup e => fun s => .ok ((), s.addRef e 1)
  | .acquire e => fun s =>
    if (s.table e).ref < 1 then .error (.panic .ilock)
    else if s.lock e = none then .ok ((), s.setLock e (some self))
    else .error .wait
  | .fill e => fun s => s.fill e
  | .inode e => fun s => .ok ((s.table e).copy, s)
  | .inum e => fun s => .ok ((s.table e).inum, s)
  | .store e d => fun s => .ok ((), s.setCopy e d)
  | .iupdate e => fun s => .ok ((), s.iupdate e)
  | .iunlock e => fun s =>
    if s.lock e = some self ∧ (s.table e).ref ≥ 1 then .ok ((), s.setLock e none)
    else .error (.panic .iunlock)
  | .putLast e => fun s => s.putLast self e
  | .itrunc e => fun s => .ok ((), s.itrunc e)
  | .invalidate e => fun s => .ok ((), s.setEntry e { s.table e with valid := false })
  | .releasesleep e => fun s => .ok ((), s.setLock e none)
  | .dropRef e => fun s => .ok ((), s.addRef e (-1))
  | .readDirent e off => fun s => .ok (s.readDirent e off, s)
  | .writeDirent e off de => fun s => .ok (s.writeDirent e off de)
  | .tryAlloc inum type => fun s => .ok (s.tryAlloc inum type)
  | .filealloc => fun s => .ok (s.filealloc)
  | .filedup f => fun s =>
    if (s.file f).ref < 1 then .error (.panic .filedup)
    else .ok ((), s.setFile f { s.file f with ref := (s.file f).ref + 1 })
  | .fileclose f => fun s => s.fileclose f
  | .setInode f device ip readable writable => fun s =>
    let v := match device with
      | some major => { s.file f with type := .device, major := major }
      | none => { s.file f with type := .inode, off := 0 }
    .ok ((), s.setFile f { v with ip := ip, readable := readable, writable := writable })
  | .setPipe f page writable => fun s =>
    .ok ((), s.setFile f { s.file f with
      type := .pipe, readable := !writable, writable := writable, pipe := page })
  | .newPipe page => fun s => s.newPipe page
  | .pipeclose page writable => fun s => s.pipeclose page writable
  | .ofile fd => fun s => .ok ((s.proc self).ofile fd, s)
  | .setOfile fd f => fun s =>
    .ok ((), s.setProc self { s.proc self with ofile := update (s.proc self).ofile fd f })
  | .cwd => fun s => match (s.proc self).cwd with
      | none => .error (.panic .kerneltrap)
      | some e => .ok (e, s)
  | .setCwd e => fun s => .ok ((), s.setProc self { s.proc self with cwd := e })
  | .allocproc np => fun s => match np with
      | none => .ok (none, s)
      | some q =>
        if (s.proc q).status = .unused then .ok (some q, s.setProc q { s.proc q with status := .used })
        else .error .wait
  | .freeproc np => fun s => .ok ((), s.setProc np { s.proc np with status := .unused })
  | .dupFile np fd => fun s => s.dupFile self np fd
  | .dupCwd np => fun s => s.dupCwd self np
  | .setRunnable np => fun s => .ok ((), s.setProc np { s.proc np with status := .runnable })
  | .setZombie => fun s => .ok ((), s.setProc self { s.proc self with status := .zombie })

/-! ## `fs.c` -/

abbrev Op := Prog Answer

def ask (r : Req) : Op (Answer r) := Prog.request r

def panic {α : Type} (why : Panic) : Op α := do
  nomatch ← ask (.panic why)

def ilock (ip : Entry) : Op Unit := do
  ask (.acquire ip)
  ask (.fill ip)

def iunlock (ip : Entry) : Op Unit := ask (.iunlock ip)

def iput (ip : Entry) : Op Unit := do
  if ← ask (.putLast ip) then
    ask (.itrunc ip)
    let d ← ask (.inode ip)
    ask (.store ip { d with type := 0 })
    ask (.iupdate ip)
    ask (.invalidate ip)
    ask (.releasesleep ip)
    ask (.dropRef ip)

def iunlockput (ip : Entry) : Op Unit := do
  iunlock ip
  iput ip

def iallocFrom (type : Int) : Nat → Nat → Op Entry
  | 0, _ => panic .iallocNoInodes
  | n + 1, inum => do
    if ← ask (.tryAlloc inum type) then ask (.iget inum true) else iallocFrom type n (inum + 1)

def ialloc (type : Int) : Op Entry := do
  let ninodes ← ask .ninodes
  iallocFrom type (ninodes - 1) 1

/-- The loops of `dirlookup`, `dirlink` and `isdirempty` over `n` slots: the first one from `off` on that is
`wanted`, and where the loop ends. -/
def scanFrom (dp : Entry) (short : Panic) (wanted : Dirent → Bool) : Nat → Nat → Op (Option Dirent × Nat)
  | 0, off => pure (none, off)
  | n + 1, off => do
    match ← ask (.readDirent dp off) with
    | none => panic short
    | some de => if wanted de then pure (some de, off) else scanFrom dp short wanted n (off + direntSize)

def slotCount (size : Nat) : Nat := (size + direntSize - 1) / direntSize

def dirlookup (dp : Entry) (name : Name) : Op (Option (Entry × Nat)) := do
  let d ← ask (.inode dp)
  if d.type ≠ T_DIR then panic .dirlookupNotDir
  else do
    match ← scanFrom dp .dirlookupRead (fun de => de.inum ≠ 0 ∧ de.name = name) (slotCount d.size) 0 with
    | (none, _) => pure none
    | (some de, off) => do
      let ip ← ask (.iget de.inum false)
      pure (some (ip, off))

def dirlink (dp : Entry) (name : Name) (inum : Nat) : Op Int := do
  match ← dirlookup dp name with
  | some (ip, _) => do
    iput ip
    pure (-1)
  | none => do
    let d ← ask (.inode dp)
    let (_, off) ← scanFrom dp .dirlinkRead (·.inum = 0) (slotCount d.size) 0
    if ← ask (.writeDirent dp off ⟨inum % 65536, name⟩) then pure 0 else panic .dirlink

/-- The loop of `namex` at `ip`, with `name` as the last element that was taken. -/
def namexFrom (parent : Bool) (ip : Entry) (name : Name) : List Name → Op (Option (Entry × Name))
  | [] =>
    if parent then do
      iput ip
      pure none
    else pure (some (ip, name))
  | elem :: rest => do
    ilock ip
    let d ← ask (.inode ip)
    if d.type ≠ T_DIR then do
      iunlockput ip
      pure none
    else if parent ∧ rest = [] then do
      iunlock ip
      pure (some (ip, elem))
    else do
      match ← dirlookup ip elem with
      | none => do
        iunlockput ip
        pure none
      | some (next, _) => do
        iunlockput ip
        namexFrom parent next elem rest

def namex (path : Path) (parent : Bool) : Op (Option (Entry × Name)) := do
  if path.head? = some slash then do
    let ip ← ask (.iget ROOTINO false)
    namexFrom parent ip [] (elements path)
  else do
    let ip ← ask .cwd
    ask (.idup ip)
    namexFrom parent ip [] (elements path)

def namei (path : Path) : Op (Option Entry) := do
  let found ← namex path false
  pure (found.map Prod.fst)

def nameiparent (path : Path) : Op (Option (Entry × Name)) := namex path true

end Xv6.Fs
