import Mathlib

namespace Xv6

/-! ## The constants of `param.h`, `fs.h`, `riscv.h` and `memlayout.h` -/

abbrev NPROC : Nat := 64
abbrev BSIZE : Nat := 1024
abbrev ROOTDEV : Nat := 1
abbrev MAXOPBLOCKS : Nat := 10
abbrev LOGSIZE : Nat := MAXOPBLOCKS * 3
abbrev NBUF : Nat := MAXOPBLOCKS * 3
abbrev NINODE : Nat := 50
abbrev NDIRECT : Nat := 12
abbrev NINDIRECT : Nat := BSIZE / 4
abbrev MAXFILE : Nat := NDIRECT + NINDIRECT
abbrev DIRSIZ : Nat := 14
abbrev ROOTINO : Nat := 1
abbrev NOFILE : Nat := 16
abbrev NFILE : Nat := 100
abbrev NDEV : Nat := 10

abbrev PGSIZE : Nat := 4096
abbrev MAXVA : Nat := 2 ^ (9 + 9 + 9 + 12 - 1)
abbrev TRAMPOLINE : Nat := MAXVA - PGSIZE
abbrev TRAPFRAME : Nat := TRAMPOLINE - PGSIZE
abbrev KERNBASE : Nat := 0x80000000
abbrev PHYSTOP : Nat := KERNBASE + 128 * 1024 * 1024
abbrev MAXARG : Nat := 32
abbrev MAXPATH : Nat := 128

instance : NeZero NPROC := ⟨by decide⟩
instance : NeZero NBUF := ⟨by decide⟩
instance : NeZero NINODE := ⟨by decide⟩
instance entries_ne_zero : NeZero 512 := ⟨by decide⟩

end Xv6
