import Xv6.Fs.State

namespace Xv6.Fs
open Lib

/-! ## `file.c` and `pipe.c` -/

def fileclose (f : FileId) : Op Unit := do
  match ← ask (.fileclose f) with
  | none => pure ()
  | some ff =>
    match ff.type with
    | .pipe => ask (.pipeclose ff.pipe ff.writable)
    | .inode | .device => do
      ask .beginOp
      iput ff.ip
      ask .endOp
    | .none => pure ()

/-- The read end and the write end of a new pipe; `page` is what `kalloc` returns. -/
def pipealloc (page : Option Page) : Op (Option (FileId × FileId)) := do
  match ← ask .filealloc with
  | none => pure none
  | some f0 => do
    match ← ask .filealloc with
    | none => do
      fileclose f0
      pure none
    | some f1 => do
      match ← ask (.newPipe page) with
      | none => do
        fileclose f0
        fileclose f1
        pure none
      | some pi => do
        ask (.setPipe f0 pi false)
        ask (.setPipe f1 pi true)
        pure (some (f0, f1))

/-! ## `sysfile.c`

A path that is `none` is one that `argstr` fails on. -/

def argfd (fd : Int) : Op (Option (Fd × FileId)) := do
  if range : fd.toNat < NOFILE then
    if fd < 0 then pure none
    else do
      match ← ask (.ofile ⟨fd.toNat, range⟩) with
      | none => pure none
      | some f => pure (some (⟨fd.toNat, range⟩, f))
  else pure none

def fdallocFrom (f : FileId) : List Fd → Op (Option Fd)
  | [] => pure none
  | fd :: rest => do
    match ← ask (.ofile fd) with
    | none => do
      ask (.setOfile fd (some f))
      pure (some fd)
    | some _ => fdallocFrom f rest

def fdalloc (f : FileId) : Op (Option Fd) := fdallocFrom f (List.finRange NOFILE)

def sysDup (fd : Int) : Op Int := do
  match ← argfd fd with
  | none => pure (-1)
  | some (_, f) => do
    match ← fdalloc f with
    | none => pure (-1)
    | some new => do
      ask (.filedup f)
      pure new.val

def sysClose (fd : Int) : Op Int := do
  match ← argfd fd with
  | none => pure (-1)
  | some (fd, f) => do
    ask (.setOfile fd none)
    fileclose f
    pure 0

def addLinks (ip : Entry) (n : Int) : Op Unit := do
  let d ← ask (.inode ip)
  ask (.store ip { d with nlink := short (d.nlink + n) })
  ask (.iupdate ip)

def linkBad (ip : Entry) : Op Int := do
  ilock ip
  addLinks ip (-1)
  iunlockput ip
  ask .endOp
  pure (-1)

def link (old new : Path) : Op Int := do
  ask .beginOp
  match ← namei old with
  | none => do
    ask .endOp
    pure (-1)
  | some ip => do
    ilock ip
    let d ← ask (.inode ip)
    if d.type = T_DIR then do
      iunlockput ip
      ask .endOp
      pure (-1)
    else do
      addLinks ip 1
      iunlock ip
      match ← nameiparent new with
      | none => linkBad ip
      | some (dp, name) => do
        ilock dp
        let inum ← ask (.inum ip)
        if (← dirlink dp name inum) < 0 then do
          iunlockput dp
          linkBad ip
        else do
          iunlockput dp
          iput ip
          ask .endOp
          pure 0

def sysLink : Option Path → Option Path → Op Int
  | some old, some new => link old new
  | _, _ => pure (-1)

def isdirempty (dp : Entry) : Op Bool := do
  let d ← ask (.inode dp)
  let (de, _) ← scanFrom dp .isdirempty (·.inum ≠ 0) (slotCount d.size - 2) (2 * direntSize)
  pure de.isNone

def unlinkBad (dp : Entry) : Op Int := do
  iunlockput dp
  ask .endOp
  pure (-1)

def fullDirectory (ip : Entry) : Op Bool := do
  let d ← ask (.inode ip)
  if d.type = T_DIR then do
    let empty ← isdirempty ip
    pure (!empty)
  else pure false

def unlinkDots (dp ip : Entry) : Op Unit := do
  let d ← ask (.inode ip)
  if d.type = T_DIR then addLinks dp (-1) else pure ()

/-- `sys_unlink` from the write of the empty entry on. -/
def unlinkEntry (dp ip : Entry) (off : Nat) : Op Int := do
  if ← ask (.writeDirent dp off ⟨0, []⟩) then do
    unlinkDots dp ip
    iunlockput dp
    addLinks ip (-1)
    iunlockput ip
    ask .endOp
    pure 0
  else panic .unlinkWritei

def unlink (path : Path) : Op Int := do
  ask .beginOp
  match ← nameiparent path with
  | none => do
    ask .endOp
    pure (-1)
  | some (dp, name) => do
    ilock dp
    if name = dot ∨ name = dotdot then unlinkBad dp
    else do
      match ← dirlookup dp name with
      | none => unlinkBad dp
      | some (ip, off) => do
        ilock ip
        let d ← ask (.inode ip)
        if d.nlink < 1 then panic .unlinkNlink
        else do
          if ← fullDirectory ip then do
            iunlockput ip
            unlinkBad dp
          else unlinkEntry dp ip off

def sysUnlink : Option Path → Op Int
  | some path => unlink path
  | none => pure (-1)

/-- The entries `.` and `..` of a new directory. -/
def createDots (dp ip : Entry) : Op Unit := do
  addLinks dp 1
  let inum ← ask (.inum ip)
  if (← dirlink ip dot inum) < 0 then panic .createDots
  else do
    let up ← ask (.inum dp)
    if (← dirlink ip dotdot up) < 0 then panic .createDots else pure ()

/-- `create` from the allocation of the inode on. -/
def createNew (dp : Entry) (name : Name) (type major minor : Int) : Op Entry := do
  let ip ← ialloc type
  ilock ip
  let d ← ask (.inode ip)
  ask (.store ip { d with major := short major, minor := short minor, nlink := 1 })
  ask (.iupdate ip)
  (if type = T_DIR then createDots dp ip else pure ())
  let inum ← ask (.inum ip)
  if (← dirlink dp name inum) < 0 then panic .createDirlink
  else do
    iunlockput dp
    pure ip

def create (path : Path) (type major minor : Int) : Op (Option Entry) := do
  match ← nameiparent path with
  | none => pure none
  | some (dp, name) => do
    ilock dp
    match ← dirlookup dp name with
    | some (ip, _) => do
      iunlockput dp
      ilock ip
      let d ← ask (.inode ip)
      if type = T_FILE ∧ (d.type = T_FILE ∨ d.type = T_DEVICE) then pure (some ip)
      else do
        iunlockput ip
        pure none
    | none => do
      let ip ← createNew dp name type major minor
      pure (some ip)

/-- `sys_open` from the allocation of the file on, with `ip` locked. -/
def openFile (ip : Entry) (omode : BitVec 32) : Op Int := do
  let d ← ask (.inode ip)
  if d.type = T_DEVICE ∧ (d.major < 0 ∨ d.major ≥ NDEV) then do
    iunlockput ip
    ask .endOp
    pure (-1)
  else do
    match ← ask .filealloc with
    | none => do
      iunlockput ip
      ask .endOp
      pure (-1)
    | some f => do
      match ← fdalloc f with
      | none => do
        fileclose f
        iunlockput ip
        ask .endOp
        pure (-1)
      | some fd => do
        ask (.setInode f (if d.type = T_DEVICE then some d.major else none) ip
          (omode &&& O_WRONLY = 0) (omode &&& O_WRONLY ≠ 0 ∨ omode &&& O_RDWR ≠ 0))
        (if omode &&& O_TRUNC ≠ 0 ∧ d.type = T_FILE then ask (.itrunc ip) else pure ())
        iunlock ip
        ask .endOp
        pure fd.val

def openPath (path : Path) (omode : BitVec 32) : Op Int := do
  ask .beginOp
  if omode &&& O_CREATE ≠ 0 then do
    match ← create path T_FILE 0 0 with
    | none => do
      ask .endOp
      pure (-1)
    | some ip => openFile ip omode
  else do
    match ← namei path with
    | none => do
      ask .endOp
      pure (-1)
    | some ip => do
      ilock ip
      let d ← ask (.inode ip)
      if d.type = T_DIR ∧ omode ≠ 0 then do
        iunlockput ip
        ask .endOp
        pure (-1)
      else openFile ip omode

def sysOpen : Option Path → BitVec 32 → Op Int
  | some path, omode => openPath path omode
  | none, _ => pure (-1)

def makeNode (path : Option Path) (type major minor : Int) : Op Int := do
  ask .beginOp
  match path with
  | none => do
    ask .endOp
    pure (-1)
  | some path => do
    match ← create path type major minor with
    | none => do
      ask .endOp
      pure (-1)
    | some ip => do
      iunlockput ip
      ask .endOp
      pure 0

def sysMkdir (path : Option Path) : Op Int := makeNode path T_DIR 0 0

def sysMknod (path : Option Path) (major minor : Int) : Op Int := makeNode path T_DEVICE major minor

def sysChdir (path : Option Path) : Op Int := do
  ask .beginOp
  match path with
  | none => do
    ask .endOp
    pure (-1)
  | some path => do
    match ← namei path with
    | none => do
      ask .endOp
      pure (-1)
    | some ip => do
      ilock ip
      let d ← ask (.inode ip)
      if d.type ≠ T_DIR then do
        iunlockput ip
        ask .endOp
        pure (-1)
      else do
        iunlock ip
        let cwd ← ask .cwd
        iput cwd
        ask .endOp
        ask (.setCwd (some ip))
        pure 0

/-- What `exec` does to inodes: `loads` says whether it comes to `end_op` without an error in the
image, `commits` whether it has none after that. -/
def exec (path : Path) (loads commits : Bool) : Op Int := do
  ask .beginOp
  match ← namei path with
  | none => do
    ask .endOp
    pure (-1)
  | some ip => do
    ilock ip
    if loads then do
      iunlockput ip
      ask .endOp
      pure (if commits then 0 else -1)
    else do
      iunlockput ip
      ask .endOp
      pure (-1)

/-- A path that is `none` also stands for arguments that cannot be fetched. -/
def sysExec : Option Path → Bool → Bool → Op Int
  | some path, loads, commits => exec path loads commits
  | none, _, _ => pure (-1)

/-- What `sys_pipe` does when a descriptor or a `copyout` fails. -/
def pipeBad (rf wf : FileId) : Op Int := do
  fileclose rf
  fileclose wf
  pure (-1)

/-- `copied` says whether both calls of `copyout` succeed. -/
def sysPipe (page : Option Page) (copied : Bool) : Op Int := do
  match ← pipealloc page with
  | none => pure (-1)
  | some (rf, wf) => do
    match ← fdalloc rf with
    | none => pipeBad rf wf
    | some fd0 => do
      match ← fdalloc wf with
      | none => do
        ask (.setOfile fd0 none)
        pipeBad rf wf
      | some fd1 =>
        if copied then pure 0
        else do
          ask (.setOfile fd0 none)
          ask (.setOfile fd1 none)
          pipeBad rf wf

/-! ## `fork` and `exit` of `proc.c` -/

def dupFiles (np : Slot) : List Fd → Op Unit
  | [] => pure ()
  | fd :: rest => do
    ask (.dupFile np fd)
    dupFiles np rest

/-- `np` is what `allocproc` finds, `copied` the outcome of `uvmcopy`. The slot stands for the pid. -/
def fork (np : Option Slot) (copied : Bool) : Op Int := do
  match ← ask (.allocproc np) with
  | none => pure (-1)
  | some np =>
    if copied then do
      dupFiles np (List.finRange NOFILE)
      ask (.dupCwd np)
      ask (.setRunnable np)
      pure np.val
    else do
      ask (.freeproc np)
      pure (-1)

def closeFiles : List Fd → Op Unit
  | [] => pure ()
  | fd :: rest => do
    match ← ask (.ofile fd) with
    | none => closeFiles rest
    | some f => do
      fileclose f
      ask (.setOfile fd none)
      closeFiles rest

def exit (self : Slot) : Op Int := do
  if self = initproc then panic .initExiting
  else do
    closeFiles (List.finRange NOFILE)
    ask .beginOp
    let cwd ← ask .cwd
    iput cwd
    ask .endOp
    ask (.setCwd none)
    ask .setZombie
    pure 0

inductive Call where
  | sysOpen (path : Option Path) (omode : BitVec 32)
  | sysLink (old new : Option Path)
  | sysUnlink (path : Option Path)
  | sysMkdir (path : Option Path)
  | sysMknod (path : Option Path) (major minor : Int)
  | sysChdir (path : Option Path)
  | sysExec (path : Option Path) (loads commits : Bool)
  | sysClose (fd : Int)
  | sysDup (fd : Int)
  | sysPipe (page : Option Page) (copied : Bool)
  | fork (np : Option Slot) (copied : Bool)
  | exit

def syscall (self : Slot) : Call → Op Int
  | .sysOpen path omode => sysOpen path omode
  | .sysLink old new => sysLink old new
  | .sysUnlink path => sysUnlink path
  | .sysMkdir path => sysMkdir path
  | .sysMknod path major minor => sysMknod path major minor
  | .sysChdir path => sysChdir path
  | .sysExec path loads commits => sysExec path loads commits
  | .sysClose fd => sysClose fd
  | .sysDup fd => sysDup fd
  | .sysPipe page copied => sysPipe page copied
  | .fork np copied => fork np copied
  | .exit => exit self

/-! ## `fileread` and `filewrite`

The bytes of regular files are left out, those of directories are not: whatever a write puts into a
directory becomes its entries. -/

inductive Io where
  | file (f : FileId) -- the fields of an open file
  | setOff (f : FileId) (off : Nat)
  | writei (e : Entry) (off n got : Nat) (data : Nat → Dirent)

@[reducible] def IoAnswer : Io → Type
  | .file _ => File
  | .setOff .. => Unit
  | .writei .. => Int

/-- `writei` when `either_copyin` gets `got` bytes; `data` are the slots as the bytes leave them. -/
def State.writei (s : State) (e : Entry) (off n got : Nat) (data : Nat → Dirent) : Int × State :=
  let d := (s.table e).copy
  if off > d.size ∨ off + n ≥ 2 ^ 32 then (-1, s)
  else if off + n > MAXFILE * BSIZE then (-1, s)
  else
    let tot := min got n
    let slots := s.slots (s.table e).inum
    let s := s.setSlots (s.table e).inum fun i =>
      if off < (i + 1) * direntSize ∧ i * direntSize < off + tot then data i else slots i
    (tot, (s.setCopy e { d with size := max d.size (off + tot) }).iupdate e)

def performIo : (r : Io) → Comp State Stop (IoAnswer r)
  | .file f => fun s => .ok (s.file f, s)
  | .setOff f off => fun s => .ok ((), s.setFile f { s.file f with off := off })
  | .writei e off n got data => fun s => .ok (s.writei e off n got data)

def performAll (self : Slot) : (r : Req ⊕ Io) → Comp State Stop (Sum.elim Answer IoAnswer r)
  | .inl r => perform self r
  | .inr r => performIo r

abbrev IoOp := Prog (Sum.elim Answer IoAnswer)

def io (r : Io) : IoOp (IoAnswer r) := .ask (.inr r) .ret

/-- `fileread` and `filewrite` of a file that is not open for it, a pipe or a device: `r` is what the pipe or
the device returns. -/
def transfer (ff : File) (allowed : Bool) (r : Int) (why : Panic) (inode : IoOp Int) : IoOp Int :=
  if allowed = false then pure (-1)
  else
    match ff.type with
    | .pipe => pure r
    | .device => if ff.major < 0 ∨ ff.major ≥ NDEV then pure (-1) else pure r
    | .inode => inode
    | .none => (panic why).left

/-- `r` is what `readi` or the read of a pipe or device returns. -/
def fileread (f : FileId) (r : Int) : IoOp Int := do
  let ff ← io (.file f)
  transfer ff ff.readable r .fileread do
    (ilock ff.ip).left
    let off := (← io (.file f)).off
    (if r > 0 then io (.setOff f ((off + r.toNat) % 2 ^ 32)) else pure ())
    (iunlock ff.ip).left
    pure r

/-- `int max = ((MAXOPBLOCKS-1-1-2) / 2) * BSIZE` -/
def maxWrite : Nat := ((MAXOPBLOCKS - 1 - 1 - 2) / 2) * BSIZE

/-- What one round of the loop of `filewrite` gets from user memory. -/
structure Chunk where
  got : Nat
  data : Nat → Dirent

/-- The loop of `filewrite`: how many bytes it writes. -/
def filewriteFrom (f : FileId) (ip : Entry) (n : Int) (chunk : Nat → Chunk) : Nat → Nat → IoOp Nat
  | 0, i => pure i
  | fuel + 1, i =>
    if i < n then do
      let n1 := min (n.toNat - i) maxWrite
      (ask .beginOp).left
      (ilock ip).left
      let ff ← io (.file f)
      let r ← io (.writei ip ff.off n1 (chunk i).got (chunk i).data)
      (if r > 0 then io (.setOff f (ff.off + r.toNat)) else pure ())
      (iunlock ip).left
      (ask .endOp).left
      if r ≠ n1 then pure i else filewriteFrom f ip n chunk fuel (i + n1)
    else pure i

/-- `r` is what the write of a pipe or device returns. A round of the loop writes something or is the
last one, so `n` rounds are enough. -/
def filewrite (f : FileId) (n r : Int) (chunk : Nat → Chunk) : IoOp Int := do
  let ff ← io (.file f)
  transfer ff ff.writable r .filewrite do
    let i ← filewriteFrom f ff.ip n chunk n.toNat 0
    pure (if i = n then n else -1)

def sysRead (fd r : Int) : IoOp Int := do
  match ← (argfd fd).left with
  | none => pure (-1)
  | some (_, f) => fileread f r

def sysWrite (fd n r : Int) (chunk : Nat → Chunk) : IoOp Int := do
  match ← (argfd fd).left with
  | none => pure (-1)
  | some (_, f) => filewrite f n r chunk

end Xv6.Fs
