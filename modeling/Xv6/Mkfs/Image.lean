import Xv6.Fs.Blocks

namespace Xv6.Mkfs
open Lib Blocks
open Fs (T_DIR T_FILE short Name dot dotdot)

/-! ## The layout

`[ boot block | sb block | log | inode blocks | free bit map | data blocks ]` -/

abbrev FSSIZE : Nat := 1000
abbrev NINODES : Nat := 200
abbrev FSMAGIC : Nat := 0x10203040

abbrev IPB : Nat := BSIZE / 64

abbrev BPB : Nat := BSIZE * 8

abbrev nbitmap : Nat := FSSIZE / (BSIZE * 8) + 1
abbrev ninodeblocks : Nat := NINODES / IPB + 1
abbrev nlog : Nat := LOGSIZE
abbrev nmeta : Nat := 2 + nlog + ninodeblocks + nbitmap
abbrev nblocks : Nat := FSSIZE - nmeta
abbrev inodestart : Nat := 2 + nlog
abbrev bmapstart : Nat := 2 + nlog + ninodeblocks

/-! ## Structures on disk

`xshort` and `xint` store numbers with the low byte first, which is how the kernel reads them. -/

def ushort (n : Int) : Nat := (n % 65536).toNat

def dinodeWord (d : Dinode) : Nat → Nat
  | 0 => ushort d.type + 2 ^ 16 * ushort d.major
  | 1 => ushort d.minor + 2 ^ 16 * ushort d.nlink
  | 2 => d.size
  | k + 3 => d.addrs k

/-- The block with the `struct dinode` at index `slot` replaced. -/
def setDinode (c : Bytes) (slot : Nat) (d : Dinode) : Bytes := fun o =>
  if o / 64 = slot then .ofNat (dinodeWord d (o % 64 / 4) / 2 ^ (8 * (o % 4))) else c o

def getDinode (c : Bytes) (slot : Nat) : Dinode where
  type := short (word c (16 * slot) % 2 ^ 16 : Nat)
  major := short (word c (16 * slot) / 2 ^ 16 : Nat)
  minor := short (word c (16 * slot + 1) % 2 ^ 16 : Nat)
  nlink := short (word c (16 * slot + 1) / 2 ^ 16 : Nat)
  size := word c (16 * slot + 2)
  addrs k := if k ≤ NDIRECT then word c (16 * slot + (k + 3)) else 0

def superblock : Bytes := fun o =>
  .ofNat ([FSMAGIC, FSSIZE, nblocks, NINODES, nlog, 2, inodestart, bmapstart].getD (o / 4) 0 / 2 ^ (8 * (o % 4)))

/-! ## The program -/

structure Image where
  sect : Nat → Bytes
  freeinode : Nat
  freeblock : Nat

inductive Fault where
  | read
  | fbn
  | rootino
  | slash
  | used
  deriving DecidableEq

abbrev Op := Comp Image Fault

def wsect (sec : Nat) (buf : Bytes) : Op Unit :=
  modify fun m => { m with sect := Function.update m.sect sec buf }

def rsect (sec : Nat) : Op Bytes := do
  let m ← get
  if sec < FSSIZE then pure (m.sect sec) else throw .read

def winode (inum : Nat) (ip : Dinode) : Op Unit := do
  let buf ← rsect (inum / IPB + inodestart)
  wsect (inum / IPB + inodestart) (setDinode buf (inum % IPB) ip)

def rinode (inum : Nat) : Op Dinode := do
  let buf ← rsect (inum / IPB + inodestart)
  pure (getDinode buf (inum % IPB))

def ialloc (type : Int) : Op Nat := do
  let m ← get
  modify fun m => { m with freeinode := m.freeinode + 1 }
  winode m.freeinode ⟨type, 0, 0, 1, 0, fun _ => 0⟩
  pure m.freeinode

def nextBlock : Op Nat := do
  let m ← get
  modify fun m => { m with freeblock := m.freeblock + 1 }
  pure m.freeblock

def appendAddr (din : Dinode) (k : Nat) : Op Dinode := do
  if din.addrs k = 0 then do
    let b ← nextBlock
    pure { din with addrs := Function.update din.addrs k b }
  else pure din

/-- The block at index `fbn`, with `din` as it is then. -/
def appendBlock (din : Dinode) (fbn : Nat) : Op (Dinode × Nat) :=
  if fbn < NDIRECT then do
    let din ← appendAddr din fbn
    pure (din, din.addrs fbn)
  else do
    let din ← appendAddr din NDIRECT
    let indirect ← rsect (din.addrs NDIRECT)
    if word indirect (fbn - NDIRECT) = 0 then do
      let b ← nextBlock
      wsect (din.addrs NDIRECT) (setWord indirect (fbn - NDIRECT) b)
      pure (din, b)
    else pure (din, word indirect (fbn - NDIRECT))

def iappendFrom : (fuel : Nat) → (din : Dinode) → (off : Nat) → (p : List UInt8) → Op (Dinode × Nat)
  | 0, din, off, _ => pure (din, off)
  | fuel + 1, din, off, p =>
    if p.length = 0 then pure (din, off)
    else do
      let fbn := off / BSIZE
      if fbn < MAXFILE then do
        let (din, x) ← appendBlock din fbn
        let n1 := min p.length ((fbn + 1) * BSIZE - off)
        let buf ← rsect x
        wsect x (setBytes buf (off - fbn * BSIZE) (p.take n1))
        iappendFrom fuel din (off + n1) (p.drop n1)
      else throw .fbn

def iappend (inum : Nat) (p : List UInt8) : Op Unit := do
  let din ← rinode inum
  let (din, off) ← iappendFrom p.length din din.size p
  winode inum { din with size := off }

def bitmap (used : Nat) : Bytes :=
  (List.range used).foldl (fun buf i => Function.update buf (i / 8) (buf (i / 8) ||| .ofNat (2 ^ (i % 8)))) fun _ => 0

def balloc (used : Nat) : Op Unit :=
  if used < BSIZE * 8 then wsect bmapstart (bitmap used) else throw .used

/-- A file given to mkfs, and the pieces in which the host's `read` returns it. -/
structure Input where
  path : List UInt8
  pieces : List (List UInt8)
  terminated : 0 ∉ path
  short : ∀ p ∈ pieces, p ≠ [] ∧ p.length ≤ BSIZE

def Input.bytes (f : Input) : List UInt8 := f.pieces.flatten

def Input.file (f : Input) : List UInt8 :=
  if f.path.take 5 = [117, 115, 101, 114, 47] then f.path.drop 5 else f.path

/-- The name without `user/` and one leading `_`. -/
def Input.shortname (f : Input) : Name :=
  if f.file.head? = some 95 then f.file.drop 1 else f.file

def addFile (rootino : Nat) (f : Input) : Op Unit :=
  if 47 ∈ f.file then throw .slash
  else do
    let inum ← ialloc T_FILE
    iappend rootino (dirent inum f.shortname)
    f.pieces.forM (iappend inum)

def clear (n : Nat) : Op Unit := (List.range n).forM fun i => wsect i fun _ => 0

/-- The end of `main`, where the size of the root directory is rounded up. -/
def finish (rootino : Nat) : Op Unit := do
  let din ← rinode rootino
  winode rootino { din with size := (din.size / BSIZE + 1) * BSIZE }
  let m ← get
  balloc m.freeblock

def main (files : List Input) : Op Unit := do
  modify fun m => { m with freeblock := nmeta }
  clear FSSIZE
  wsect 1 superblock
  let rootino ← ialloc T_DIR
  if rootino = ROOTINO then do
    iappend rootino (dirent rootino dot)
    iappend rootino (dirent rootino dotdot)
    files.forM (addFile rootino)
    finish rootino
  else throw .rootino

def blank : Image := ⟨fun _ _ => 0, 1, 0⟩

/-! ## The kernel's reading of an image -/

/-- The file system that the kernel finds on a disk: the fields of the superblock as `readsb` copies
them, the dinodes at `IBLOCK`, and the bits at `BBLOCK` that `balloc` looks at. -/
def mount (disk : Nat → Bytes) : Option State :=
  let size := word (disk 1) 1
  let blocks := word (disk 1) 2
  let ninodes := word (disk 1) 3
  let inodestart := word (disk 1) 6
  let bmapstart := word (disk 1) 7
  if sane : word (disk 1) 0 = FSMAGIC ∧ size < 2 ^ 32 ∧ blocks < size then
    some {
      sb := ⟨size, blocks, ninodes, sane.2.1, sane.2.2⟩
      dinode := fun i =>
        if i < ninodes then getDinode (disk (i / IPB + inodestart)) (i % IPB) else ⟨0, 0, 0, 0, 0, fun _ => 0⟩
      core := fun _ => none
      bit := fun b => (disk (b / BPB + bmapstart) (b % BPB / 8)).toNat.testBit (b % BPB % 8)
      data := disk }
  else none

end Xv6.Mkfs
