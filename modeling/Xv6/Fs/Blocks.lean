import Xv6.Lib.Run
import Xv6.Fs.State

namespace Xv6.Blocks
open Lib Fs

/-! ## The disk

The dinodes and the bitmap are kept apart from the other blocks. `core i` is the copy of inode `i`
in the inode table, when it has a valid one; `data b` gives the bytes of block `b`. -/

/-- The geometry: `nblocks` data blocks stand at the end of a disk of `size` blocks. -/
structure Superblock where
  size : Nat
  nblocks : Nat
  ninodes : Nat
  size_lt : size < 2 ^ 32
  nblocks_lt : nblocks < size

def Superblock.dataStart (sb : Superblock) : Nat := sb.size - sb.nblocks

structure Dinode where
  type : Int
  major : Int
  minor : Int
  nlink : Int
  size : Nat
  addrs : Nat → Nat

abbrev Bytes := Nat → UInt8

structure State where
  sb : Superblock
  dinode : Nat → Dinode
  core : Nat → Option Dinode
  bit : Nat → Bool
  data : Nat → Bytes

inductive Panic where
  | outOfBlocks
  | freeingFreeBlock
  | bmapOutOfRange
  | noInodes
  | noType
  | dirlookupNotDir
  | dirlookupRead
  | dirlinkRead
  | dirlink
  | isdiremptyReadi
  | unlinkNlink
  | unlinkWritei
  | createDots
  | createDirlink
  | blocked
  deriving DecidableEq

abbrev Op := Comp State Panic

/-! ## Words and strings of bytes in a block -/

def word (c : Bytes) (i : Nat) : Nat :=
  (c (4 * i)).toNat + 2 ^ 8 * (c (4 * i + 1)).toNat + 2 ^ 16 * (c (4 * i + 2)).toNat + 2 ^ 24 * (c (4 * i + 3)).toNat

def setWord (c : Bytes) (i v : Nat) : Bytes := fun o =>
  if o = 4 * i then .ofNat v
  else if o = 4 * i + 1 then .ofNat (v / 2 ^ 8)
  else if o = 4 * i + 2 then .ofNat (v / 2 ^ 16)
  else if o = 4 * i + 3 then .ofNat (v / 2 ^ 24)
  else c o

def setBytes (c : Bytes) (o : Nat) (bytes : List UInt8) : Bytes := fun k =>
  if o ≤ k ∧ k < o + bytes.length then bytes.getD (k - o) 0 else c k

/-! ## Inodes and blocks -/

namespace State

def ip (s : State) (i : Nat) : Dinode := (s.core i).getD (s.dinode i)

def setIp (s : State) (i : Nat) (d : Dinode) : State :=
  { s with core := Function.update s.core i (some d) }

def setAddr (s : State) (i k b : Nat) : State :=
  s.setIp i { s.ip i with addrs := Function.update (s.ip i).addrs k b }

def setData (s : State) (b : Nat) (c : Bytes) : State :=
  { s with data := Function.update s.data b c }

def setBit (s : State) (b : Nat) (used : Bool) : State :=
  { s with bit := Function.update s.bit b used }

def update (s : State) (i : Nat) : State :=
  { s with dinode := Function.update s.dinode i (s.ip i) }

def forget (s : State) (i : Nat) : State :=
  { s with core := Function.update s.core i none }

end State

def iupdate (i : Nat) : Op Unit := modify (·.update i)

def ilock (i : Nat) : Op Unit := do
  let s ← get
  match s.core i with
  | some _ => pure ()
  | none => do
    modify (·.setIp i (s.dinode i))
    if (s.dinode i).type = 0 then throw .noType else pure ()

def balloc : Op Nat := do
  let s ← get
  match (List.range s.sb.size).find? (fun b => !s.bit b) with
  | some b => do
    modify (·.setBit b true)
    modify (·.setData b fun _ => 0)
    pure b
  | none => throw .outOfBlocks

def bfree (b : Nat) : Op Unit := do
  let s ← get
  if s.bit b then modify (·.setBit b false) else throw .freeingFreeBlock

/-- `ip->addrs[k]`, taking a block for it when there is none. -/
def bmapAddr (i k : Nat) : Op Nat := do
  let s ← get
  if (s.ip i).addrs k = 0 then do
    let addr ← balloc
    modify (·.setAddr i k addr)
    pure addr
  else pure ((s.ip i).addrs k)

def bmap (i bn : Nat) : Op Nat :=
  if bn < NDIRECT then bmapAddr i bn
  else if bn - NDIRECT < NINDIRECT then do
    let table ← bmapAddr i NDIRECT
    let s ← get
    if word (s.data table) (bn - NDIRECT) = 0 then do
      let addr ← balloc
      modify fun s => s.setData table (setWord (s.data table) (bn - NDIRECT) addr)
      pure addr
    else pure (word (s.data table) (bn - NDIRECT))
  else throw .bmapOutOfRange

def itruncAddr (i k : Nat) : Op Unit := do
  let s ← get
  if (s.ip i).addrs k = 0 then pure () else do
    bfree ((s.ip i).addrs k)
    modify (·.setAddr i k 0)

def itruncSlot (table j : Nat) : Op Unit := do
  let s ← get
  if word (s.data table) j = 0 then pure () else bfree (word (s.data table) j)

def itrunc (i : Nat) : Op Unit := do
  (List.range NDIRECT).forM (itruncAddr i)
  let s ← get
  (if (s.ip i).addrs NDIRECT = 0 then pure () else do
    (List.range NINDIRECT).forM (itruncSlot ((s.ip i).addrs NDIRECT))
    itruncAddr i NDIRECT)
  modify fun s => s.setIp i { s.ip i with size := 0 }
  iupdate i

/-! ## Reading and writing -/

def readiFrom (i : Nat) : (fuel off left : Nat) → Op (List UInt8)
  | 0, _, _ => pure []
  | fuel + 1, off, left =>
    if left = 0 then pure [] else do
      let b ← bmap i (off / BSIZE)
      let m := min left (BSIZE - off % BSIZE)
      let s ← get
      let rest ← readiFrom i fuel (off + m) (left - m)
      pure ((List.range m).map (fun k => s.data b (off % BSIZE + k)) ++ rest)

/-- Into kernel memory, where `either_copyout` does not fail. -/
def readi (i off n : Nat) : Op (List UInt8) := do
  let s ← get
  if off > (s.ip i).size ∨ off + n ≥ 2 ^ 32 then pure []
  else
    let left := min n ((s.ip i).size - off)
    readiFrom i left off left

/-- Where the bytes come from: of the `m` bytes at `tot`, those that `either_copyin` copies before
it returns, and whether it succeeds. -/
abbrev Source := (tot m : Nat) → List UInt8 × Bool

def kernelBytes (bytes : List UInt8) : Source := fun tot m => ((bytes.drop tot).take m, true)

/-- The loop of `writei`; it yields `tot` and `off`. -/
def writeiFrom (i : Nat) (src : Source) : (fuel tot off left : Nat) → Op (Nat × Nat)
  | 0, tot, off, _ => pure (tot, off)
  | fuel + 1, tot, off, left =>
    if left = 0 then pure (tot, off) else do
      let b ← bmap i (off / BSIZE)
      let m := min left (BSIZE - off % BSIZE)
      let copied := src tot m
      modify fun s => s.setData b (setBytes (s.data b) (off % BSIZE) (copied.1.take m))
      if copied.2 then writeiFrom i src fuel (tot + m) (off + m) (left - m) else pure (tot, off)

def writei (i : Nat) (src : Source) (off n : Nat) : Op (Option Nat) := do
  let s ← get
  if off > (s.ip i).size ∨ off + n ≥ 2 ^ 32 then pure none
  else if off + n > MAXFILE * BSIZE then pure none
  else do
    let done ← writeiFrom i src n 0 off n
    modify fun s => s.setIp i { s.ip i with size := max (s.ip i).size done.2 }
    iupdate i
    pure (some done.1)

/-! ## Directories -/

def direntInum (de : List UInt8) : Nat := (de.getD 0 0).toNat + 2 ^ 8 * (de.getD 1 0).toNat

def direntName (de : List UInt8) : Name := ((de.drop 2).take DIRSIZ).takeWhile (· != 0)

def dirent (inum : Nat) (name : Name) : List UInt8 :=
  [.ofNat inum, .ofNat (inum / 2 ^ 8)] ++ (name ++ List.replicate DIRSIZ 0).take DIRSIZ

/-- The loops of `dirlookup`, `dirlink` and `isdirempty`: the first entry from `off` on that is `wanted`, and
where the loop ends. -/
def scanFrom (dp : Nat) (short : Panic) (wanted : List UInt8 → Bool) : (fuel off : Nat) → Op (Option (List UInt8) × Nat)
  | 0, off => pure (none, off)
  | fuel + 1, off => do
    let s ← get
    if off < (s.ip dp).size then do
      let de ← readi dp off direntSize
      if de.length ≠ direntSize then throw short
      else if wanted de then pure (some de, off)
      else scanFrom dp short wanted fuel (off + direntSize)
    else pure (none, off)

/-- The number and the offset of the entry for `name`. -/
def dirlookup (dp : Nat) (name : Name) : Op (Option (Nat × Nat)) := do
  let s ← get
  if (s.ip dp).type ≠ T_DIR then throw .dirlookupNotDir
  else do
    let (de, off) ← scanFrom dp .dirlookupRead (fun de => direntInum de ≠ 0 ∧ direntName de = name) (s.ip dp).size 0
    pure (de.map fun de => (direntInum de, off))

/-- When the name is there, the entry that `dirlookup` got is put back at once. It was not valid
unless someone else holds the inode, so this never frees it. -/
def dirlink (dp : Nat) (name : Name) (inum : Nat) : Op Bool := do
  let found ← dirlookup dp name
  if found.isSome then pure false else do
    let s ← get
    let (_, off) ← scanFrom dp .dirlinkRead (direntInum · = 0) (s.ip dp).size 0
    let wrote ← writei dp (kernelBytes (dirent inum name)) off direntSize
    if wrote = some direntSize then pure true else throw .dirlink

def isdirempty (dp : Nat) : Op Bool := do
  let s ← get
  let (de, _) ← scanFrom dp .isdiremptyReadi (direntInum · ≠ 0) (s.ip dp).size (2 * direntSize)
  pure de.isNone

/-! ## Inodes that come and go -/

def ialloc (type : Int) : Op Nat := do
  let s ← get
  match (List.range s.sb.ninodes).find? (fun i => i ≠ 0 ∧ (s.dinode i).type = 0) with
  | some i => do
    modify fun s => { s with dinode := Function.update s.dinode i ⟨type, 0, 0, 0, 0, fun _ => 0⟩ }
    pure i
  | none => throw .noInodes

/-- `last` tells that the reference dropped is the only one. -/
def iput (i : Nat) (last : Bool) : Op Unit := do
  let s ← get
  if last then do
    (match s.core i with
    | some d => if d.nlink = 0 then do
          itrunc i
          modify fun s => s.setIp i { s.ip i with type := 0 }
          iupdate i
        else pure ()
    | none => pure ())
    modify (·.forget i)
  else pure ()

def addLinks (i : Nat) (n : Int) : Op Unit := do
  modify fun s => s.setIp i { s.ip i with nlink := short ((s.ip i).nlink + n) }
  iupdate i

def createDots (dp ip : Nat) : Op Unit := do
  addLinks dp 1
  let one ← dirlink ip dot ip
  if one then do
    let two ← dirlink ip dotdot dp
    if two then pure () else throw .createDots
  else throw .createDots

def create (dp : Nat) (name : Name) (type major minor : Int) (last : Nat → Bool) : Op (Option Nat) := do
  ilock dp
  let found ← dirlookup dp name
  match found with
  | some (ip, _) => do
    iput dp (last dp)
    ilock ip
    let s ← get
    if type = T_FILE ∧ ((s.ip ip).type = T_FILE ∨ (s.ip ip).type = T_DEVICE) then pure (some ip)
    else do
      iput ip (last ip)
      pure none
  | none => do
    let ip ← ialloc type
    ilock ip
    modify fun s => s.setIp ip { s.ip ip with major := major, minor := minor, nlink := 1 }
    iupdate ip
    (if type = T_DIR then createDots dp ip else pure ())
    let added ← dirlink dp name ip
    if added then do
      iput dp (last dp)
      pure (some ip)
    else throw .createDirlink

/-- `sys_unlink` once the entry is found and may go. -/
def unlinkEntry (dp ip off : Nat) (last : Nat → Bool) : Op Bool := do
  let wrote ← writei dp (kernelBytes (List.replicate direntSize 0)) off direntSize
  if wrote = some direntSize then do
    let s ← get
    (if (s.ip ip).type = T_DIR then addLinks dp (-1) else pure ())
    iput dp (last dp)
    addLinks ip (-1)
    iput ip (last ip)
    pure true
  else throw .unlinkWritei

/-- The part of `sys_unlink` after `nameiparent`. -/
def unlink (dp : Nat) (name : Name) (last : Nat → Bool) : Op Bool := do
  ilock dp
  if name = dot ∨ name = dotdot then do
    iput dp (last dp)
    pure false
  else do
    let found ← dirlookup dp name
    match found with
    | none => do
      iput dp (last dp)
      pure false
    | some (ip, off) => do
      -- the lock of dp is held, so taking it again would wait forever
      (if ip = dp then throw .blocked else pure ())
      ilock ip
      let s ← get
      if (s.ip ip).nlink < 1 then throw .unlinkNlink
      else if (s.ip ip).type = T_DIR then do
        let empty ← isdirempty ip
        if empty then unlinkEntry dp ip off last
        else do
          iput ip (last ip)
          iput dp (last dp)
          pure false
      else unlinkEntry dp ip off last

/-! ## Runs of operations -/

/-- An operation on inodes that the caller has references to. `recycle i` gives the table entry of
inode `i` to another inode, as `iget` does once the last reference is gone. -/
inductive Call where
  | writei (i : Nat) (src : Source) (off n : Nat)
  | itrunc (i : Nat)
  | iput (i : Nat) (last : Bool)
  | ialloc (type : Int)
  | dirlink (dp : Nat) (name : Name) (inum : Nat)
  | create (dp : Nat) (name : Name) (type major minor : Int) (last : Nat → Bool)
  | unlink (dp : Nat) (name : Name) (last : Nat → Bool)
  | recycle (i : Nat)

def call : Call → Op Unit
  | .writei i src off n => do ilock i; discard (writei i src off n)
  | .itrunc i => do ilock i; itrunc i
  | .iput i last => iput i last
  | .ialloc type => discard (ialloc type)
  | .dirlink dp name inum => do ilock dp; discard (dirlink dp name inum)
  | .create dp name type major minor last => discard (create dp name type major minor last)
  | .unlink dp name last => discard (unlink dp name last)
  | .recycle i => modify (·.forget i)

def step (s : State) (c : Call) : Option State :=
  match (call c).run s with
  | .ok (_, t) => some t
  | .error _ => none

/-! ## The places of block numbers -/

inductive Place where
  | addr (i k : Nat)
  | slot (i j : Nat)
  deriving DecidableEq

def State.blockAt (s : State) : Place → Nat
  | .addr i k => if (s.ip i).type ≠ 0 ∧ k ≤ NDIRECT then (s.ip i).addrs k else 0
  | .slot i j =>
    if (s.ip i).type ≠ 0 ∧ j < NINDIRECT ∧ (s.ip i).addrs NDIRECT ≠ 0 then
      word (s.data ((s.ip i).addrs NDIRECT)) j
    else 0

end Xv6.Blocks
