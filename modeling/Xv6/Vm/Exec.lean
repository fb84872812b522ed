import Xv6.Vm.PageTable

namespace Xv6.Vm
open Lib

/-! ## ELF files -/

abbrev File := List Byte

-- What readi(ip, 0, _, off, n) copies, for 32-bit off and n.
def readAt (file : File) (off n : Nat) : List Byte :=
  if file.length < off ∨ (off + n) % 2 ^ 32 < off then [] else (file.drop off).take n

def leNat : List Byte → Nat
  | [] => 0
  | b :: bytes => b.toNat + 256 * leNat bytes

def field (bytes : List Byte) (offset size : Nat) : Nat := leNat ((bytes.drop offset).take size)

def ELF_MAGIC : Nat := 0x464C457F
def ELF_PROG_LOAD : Nat := 1
def sizeofElfhdr : Nat := 64
def sizeofProghdr : Nat := 56

structure Elfhdr where
  magic : Nat
  entry : Nat
  phoff : Nat
  phnum : Nat

def elfhdr (bytes : List Byte) : Elfhdr where
  magic := field bytes 0 4
  entry := field bytes 24 8
  phoff := field bytes 32 8
  phnum := field bytes 56 2

structure Proghdr where
  type : Nat
  off : Nat
  vaddr : Nat
  filesz : Nat
  memsz : Nat

def proghdr (bytes : List Byte) : Proghdr where
  type := field bytes 0 4
  off := field bytes 8 8
  vaddr := field bytes 16 8
  filesz := field bytes 32 8
  memsz := field bytes 40 8

/-! ## `exec.c`

`exec` builds a whole new page table and only then gives up the old one; the part up to that point
is `buildImage`. The result `none` of a part is a jump to `bad`, with the size reached so far. -/

section
variable (L : Layout)

-- The loop of loadseg(): n pages from i on; sz and offset are 32-bit.
def loadLoop (pagetable va : Nat) (file : File) (offset sz : Nat) : Nat → Nat → M Bool
  | 0, _ => return true
  | n + 1, i => do
    match ← walkaddr pagetable (va + i) with
    | none => throw .loadseg
    | some pa =>
      let count := if sz - i < PGSIZE then sz - i else PGSIZE
      let bytes := readAt file ((offset + i) % 2 ^ 32) count
      memmove pa bytes
      if bytes.length ≠ count then return false
      else loadLoop pagetable va file offset sz n (i + PGSIZE)

def loadseg (pagetable va : Nat) (file : File) (offset sz : Nat) : M Bool :=
  loadLoop pagetable va file offset sz ((sz + (PGSIZE - 1)) / PGSIZE) 0

-- One loadable segment: the new size, and whether to go on.
def loadSegment (pagetable : Nat) (file : File) (ph : Proghdr) (sz : Nat) : M (Nat × Bool) := do
  if ph.memsz < ph.filesz then return (sz, false)
  else if (ph.vaddr + ph.memsz) % 2 ^ 64 < ph.vaddr then return (sz, false)
  else
    let sz1 ← uvmalloc L pagetable sz ((ph.vaddr + ph.memsz) % 2 ^ 64)
    if sz1 = 0 then return (sz, false)
    else if ph.vaddr % PGSIZE ≠ 0 then return (sz1, false)
    else
      let loaded ← loadseg pagetable ph.vaddr file (ph.off % 2 ^ 32) (ph.filesz % 2 ^ 32)
      return (sz1, loaded)

-- The loop over the program headers; off is an int that is passed on as unsigned.
def loadProgram (pagetable : Nat) (file : File) : Nat → Nat → Nat → M (Nat × Bool)
  | 0, _, sz => return (sz, true)
  | n + 1, off, sz => do
    let bytes := readAt file off sizeofProghdr
    if bytes.length ≠ sizeofProghdr then return (sz, false)
    else
      let ph := proghdr bytes
      if ph.type ≠ ELF_PROG_LOAD then
        loadProgram pagetable file n ((off + sizeofProghdr) % 2 ^ 32) sz
      else
        match ← loadSegment L pagetable file ph sz with
        | (sz, true) => loadProgram pagetable file n ((off + sizeofProghdr) % 2 ^ 32) sz
        | (sz, false) => return (sz, false)

end

def sub64 (a b : Nat) : Nat := (a + (2 ^ 64 - b % 2 ^ 64)) % 2 ^ 64

def wordBytes (w : Nat) : List Byte := (List.range 8).map fun i => BitVec.ofNat 8 (w >>> (8 * i))

-- Push the strings; the result is sp and the pointers, in the order of argv.
def pushStrings (pagetable stackbase : Nat) : List (List Byte) → Nat → M (Option (Nat × List Nat))
  | [], sp => return some (sp, [])
  | arg :: argv, sp => do
    let sp := sub64 sp (arg.length + 1)
    let sp := sp - sp % 16
    if sp < stackbase then return none
    else if ← copyout pagetable sp (arg ++ [0]) then
      match ← pushStrings pagetable stackbase argv sp with
      | none => return none
      | some (bottom, pointers) => return some (bottom, sp :: pointers)
    else return none

def pushArgs (pagetable stackbase sp : Nat) (argv : List (List Byte)) : M (Option Nat) := do
  match ← pushStrings pagetable stackbase argv sp with
  | none => return none
  | some (sp, pointers) =>
    let ustack := pointers ++ [0]
    let sp := sub64 sp (ustack.length * 8)
    let sp := sp - sp % 16
    if sp < stackbase then return none
    else if ← copyout pagetable sp (ustack.flatMap wordBytes) then return some sp
    else return none

structure Image where
  pagetable : Nat
  sz : Nat
  sp : Nat
  entry : Nat

section
variable (L : Layout)

-- From the stack pages on; the failure result carries the size to free.
def buildStack (pagetable : Nat) (argv : List (List Byte)) (sz : Nat) : M (Nat × Option Nat) := do
  let sz := pgRoundUp sz
  let sz1 ← uvmalloc L pagetable sz (sz + 2 * PGSIZE)
  if sz1 = 0 then return (sz, none)
  else
    uvmclear pagetable (sz1 - 2 * PGSIZE)
    let sp ← pushArgs pagetable (sz1 - PGSIZE) sz1 argv
    return (sz1, sp)

/-- `exec` up to its commit; a new page table that does not come to that is freed again. -/
def buildImage (trapframe : Nat) (file : File) (argv : List (List Byte)) : M (Option Image) := do
  let header := readAt file 0 sizeofElfhdr
  let elf := elfhdr header
  if header.length ≠ sizeofElfhdr ∨ elf.magic ≠ ELF_MAGIC then return none
  else
    match ← procPagetable L trapframe with
    | none => return none
    | some pagetable =>
      match ← loadProgram L pagetable file elf.phnum (elf.phoff % 2 ^ 32) 0 with
      | (sz, false) =>
        procFreepagetable L pagetable sz
        return none
      | (sz, true) =>
        match ← buildStack L pagetable argv sz with
        | (sz, none) =>
          procFreepagetable L pagetable sz
          return none
        | (sz, some sp) => return some ⟨pagetable, sz, sp, elf.entry⟩

end

end Xv6.Vm
