import Xv6.Vm.Memory

namespace Xv6.Vm
open Lib

/-! ## `vm.c` -/

def walkLevel (level pagetable va : Nat) (alloc : Bool) : M (Option Nat) := do
  let pte ← load pagetable (px level va)
  if pte &&& PTE_V ≠ 0 then return some (pte2pa pte)
  else if !alloc then return none
  else
    match ← kalloc with
    | none => return none
    | some q =>
      setPage q fun _ => 0
      store pagetable (px level va) (pa2pte q ||| PTE_V)
      return some q

/-- The page and the index of the entry for `va`. -/
def walk (pagetable va : Nat) (alloc : Bool) : M (Option (Nat × Fin 512)) := do
  if MAXVA ≤ va then throw .walk
  match ← walkLevel 2 pagetable va alloc with
  | none => return none
  | some middle =>
    match ← walkLevel 1 middle va alloc with
    | none => return none
    | some bottom => return some (bottom, px 0 va)

def walkaddr (pagetable va : Nat) : M (Option Nat) := do
  if MAXVA ≤ va then return none
  else
    match ← walk pagetable va false with
    | none => return none
    | some (q, k) =>
      let pte ← load q k
      if pte &&& PTE_V = 0 ∨ pte &&& PTE_U = 0 then return none
      else return some (pte2pa pte)

section
variable (L : Layout)

-- The loop of mappages() over n pages; false is the result -1.
def mapLoop (pagetable : Nat) : Nat → Nat → Nat → Word → M Bool
  | 0, _, _, _ => return true
  | n + 1, a, pa, perm => do
    match ← walk pagetable a true with
    | none => return false
    | some (q, k) =>
      let pte ← load q k
      if pte &&& PTE_V ≠ 0 then throw .remap
      store q k (pa2pte pa ||| perm ||| PTE_V)
      mapLoop pagetable n (a + PGSIZE) (pa + PGSIZE) perm

def mappages (pagetable va size pa : Nat) (perm : Word) : M Bool := do
  if size = 0 then throw .mappagesSize
  let a := pgRoundDown va
  let last := pgRoundDown ((va + size - 1) % 2 ^ 64)
  -- The rounds until a == last, with last below a where the sum wraps.
  mapLoop pagetable ((last + 2 ^ 64 - a) % 2 ^ 64 / PGSIZE + 1) a pa perm

/-- The source's bound `va + npages * PGSIZE` would wrap from 2 ^ 52 pages on, which no caller asks for; here it does not. -/
def unmapLoop (pagetable : Nat) (doFree : Bool) : Nat → Nat → M Unit
  | 0, _ => return ()
  | n + 1, a => do
    match ← walk pagetable a false with
    | none => throw .uvmunmapWalk
    | some (q, k) =>
      let pte ← load q k
      if pte &&& PTE_V = 0 then throw .uvmunmapNotMapped
      if pteFlags pte = PTE_V then throw .uvmunmapNotLeaf
      if doFree then kfree L (pte2pa pte)
      store q k 0
      unmapLoop pagetable doFree n (a + PGSIZE)

def uvmunmap (pagetable va npages : Nat) (doFree : Bool) : M Unit := do
  if va % PGSIZE ≠ 0 then throw .uvmunmapAligned
  unmapLoop L pagetable doFree npages va

def uvmcreate : M (Option Nat) := do
  match ← kalloc with
  | none => return none
  | some pagetable =>
    setPage pagetable fun _ => 0
    return some pagetable

def uvminit (pagetable : Nat) (src : List Byte) : M Unit := do
  if PGSIZE ≤ src.length then throw .inituvm
  match ← kalloc with
  | none => throw .fault
  | some mem =>
    setPage mem fun _ => 0
    let _ ← mappages pagetable 0 PGSIZE mem (PTE_W ||| PTE_R ||| PTE_X ||| PTE_U)
    memmove mem src

def uvmdealloc (pagetable oldsz newsz : Nat) : M Nat := do
  if oldsz ≤ newsz then return oldsz
  else
    if pgRoundUp newsz < pgRoundUp oldsz then
      let npages := (pgRoundUp oldsz - pgRoundUp newsz) / PGSIZE
      uvmunmap L pagetable (pgRoundUp newsz) npages true
    return newsz

-- The loop of uvmalloc(): n pages from address a on, having begun at oldsz.
def allocLoop (pagetable oldsz : Nat) : Nat → Nat → M Bool
  | 0, _ => return true
  | n + 1, a => do
    match ← kalloc with
    | none =>
      let _ ← uvmdealloc L pagetable a oldsz
      return false
    | some mem =>
      setPage mem fun _ => 0
      if ← mappages pagetable a PGSIZE mem (PTE_W ||| PTE_X ||| PTE_R ||| PTE_U) then
        allocLoop pagetable oldsz n (a + PGSIZE)
      else
        kfree L mem
        let _ ← uvmdealloc L pagetable a oldsz
        return false

def uvmalloc (pagetable oldsz newsz : Nat) : M Nat := do
  if newsz < oldsz then return oldsz
  else
    let oldsz := pgRoundUp oldsz
    if ← allocLoop L pagetable oldsz ((newsz - oldsz + (PGSIZE - 1)) / PGSIZE) oldsz then return newsz
    else return 0

-- freewalk() with the depth of its recursion bounded: a page table has three levels.
def freewalk : Nat → Nat → M Unit
  | 0, _ => throw .stack
  | depth + 1, pagetable => do
    (List.finRange 512).forM fun i => do
      let pte ← load pagetable i
      if pte &&& PTE_V ≠ 0 ∧ pte &&& (PTE_R ||| PTE_W ||| PTE_X) = 0 then
        freewalk depth (pte2pa pte)
        store pagetable i 0
      else if pte &&& PTE_V ≠ 0 then throw .freewalkLeaf
    kfree L pagetable

def uvmfree (pagetable sz : Nat) : M Unit := do
  if 0 < sz then uvmunmap L pagetable 0 (pgRoundUp sz / PGSIZE) true
  freewalk L 3 pagetable

-- The loop of uvmcopy(): n pages from address i on; the result is where it stopped short.
def copyLoop (old new : Nat) : Nat → Nat → M (Option Nat)
  | 0, _ => return none
  | n + 1, i => do
    match ← walk old i false with
    | none => throw .uvmcopyPte
    | some (q, k) =>
      let pte ← load q k
      if pte &&& PTE_V = 0 then throw .uvmcopyPresent
      let flags := pteFlags pte
      match ← kalloc with
      | none => return some i
      | some mem =>
        let m ← get
        setPage mem (m.page (pte2pa pte))
        if ← mappages new i PGSIZE mem flags then copyLoop old new n (i + PGSIZE)
        else
          kfree L mem
          return some i

def uvmcopy (old new sz : Nat) : M Bool := do
  match ← copyLoop L old new ((sz + (PGSIZE - 1)) / PGSIZE) 0 with
  | none => return true
  | some i =>
    uvmunmap L new 0 (i / PGSIZE) true
    return false

def uvmclear (pagetable va : Nat) : M Unit := do
  match ← walk pagetable va false with
  | none => throw .uvmclear
  | some (q, k) =>
    let pte ← load q k
    store q k (pte &&& ~~~PTE_U)

-- copyout(), one page at a time; every round but the last writes up to the end of a page.
def copyoutLoop (pagetable : Nat) : Nat → Nat → List Byte → M Bool
  | _, _, [] => return true
  | 0, _, _ :: _ => return true
  | rounds + 1, dstva, src@(_ :: _) => do
    let va0 := pgRoundDown dstva
    match ← walkaddr pagetable va0 with
    | none => return false
    | some pa0 =>
      let n := PGSIZE - (dstva - va0)
      memmove (pa0 + (dstva - va0)) (src.take n)
      copyoutLoop pagetable rounds ((va0 + PGSIZE) % 2 ^ 64) (src.drop n)

def copyout (pagetable dstva : Nat) (src : List Byte) : M Bool :=
  copyoutLoop pagetable src.length dstva src

/-! ## The page table of a process -/

def procPagetable (trapframe : Nat) : M (Option Nat) := do
  match ← uvmcreate with
  | none => return none
  | some pagetable =>
    if ← mappages pagetable TRAMPOLINE PGSIZE L.trampoline (PTE_R ||| PTE_X) then
      if ← mappages pagetable TRAPFRAME PGSIZE trapframe (PTE_R ||| PTE_W) then
        return some pagetable
      else
        uvmunmap L pagetable TRAMPOLINE 1 false
        uvmfree L pagetable 0
        return none
    else
      uvmfree L pagetable 0
      return none

def procFreepagetable (pagetable sz : Nat) : M Unit := do
  uvmunmap L pagetable TRAMPOLINE 1 false
  uvmunmap L pagetable TRAPFRAME 1 false
  uvmfree L pagetable sz

end

end Xv6.Vm
