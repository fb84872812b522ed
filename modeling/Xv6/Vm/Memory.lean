import Xv6.Lib.Fault
import Xv6.Param

namespace Xv6.Vm
open Lib Function

/-! ## Page-table entries -/

abbrev Word := BitVec 64

def PTE_V : Word := 1
def PTE_R : Word := 2
def PTE_W : Word := 4
def PTE_X : Word := 8
def PTE_U : Word := 16

def pa2pte (pa : Nat) : Word := (BitVec.ofNat 64 pa >>> 12) <<< 10

def pte2pa (pte : Word) : Nat := ((pte >>> 10) <<< 12).toNat

def pteFlags (pte : Word) : Word := pte &&& 0x3ff

def px (level va : Nat) : Fin 512 := Fin.ofNat 512 (va >>> (12 + 9 * level))

-- 64-bit sizes and addresses are natural numbers below 2 ^ 64.
def pgRoundUp (sz : Nat) : Nat := (sz + (PGSIZE - 1)) % 2 ^ 64 / PGSIZE * PGSIZE

def pgRoundDown (a : Nat) : Nat := a / PGSIZE * PGSIZE

/-! ## Physical memory and its allocator -/

abbrev Byte := BitVec 8

abbrev Page := Fin 512 → Word

structure Layout where
  kend : Nat
  trampoline : Nat
  aligned : PGSIZE ∣ trampoline
  inKernel : KERNBASE ≤ trampoline ∧ trampoline + PGSIZE ≤ kend
  inRam : kend ≤ PHYSTOP

def smallLayout : Layout := ⟨0x80026000, 0x80007000, by decide, by decide, by decide⟩

/-- `page` gives the contents of the page at each page address. `draws` decides the next calls of
`kalloc`: `none` lets the call fail and `some n` lets it return the `n`-th free page, where the list
in the source always gives its first; without a draw it is the first. -/
structure Machine where
  page : Nat → Page
  freelist : List Nat
  draws : List (Option Nat)

inductive Panic where
  | kfree | walk | mappagesSize | remap
  | uvmunmapAligned | uvmunmapWalk | uvmunmapNotMapped | uvmunmapNotLeaf
  | freewalkLeaf | uvmcopyPte | uvmcopyPresent | uvmclear | loadseg | inituvm
  | stack -- freewalk() recursing deeper than the three levels of a page table
  | fault -- a null pointer used by userinit()
  | initExiting
  deriving DecidableEq

abbrev M (α : Type) := Comp Machine Panic α

def setPage (q : Nat) (contents : Page) : M Unit :=
  modify fun m => { m with page := update m.page q contents }

def load (q : Nat) (k : Fin 512) : M Word := do
  let m ← get
  return m.page q k

def store (q : Nat) (k : Fin 512) (w : Word) : M Unit :=
  modify fun m => { m with page := update m.page q (update (m.page q) k w) }

def pick (m : Machine) : Option Nat :=
  (m.draws.headD (some 0)).bind fun n => m.freelist[n % m.freelist.length]?

def kalloc : M (Option Nat) := do
  let r := pick (← get)
  modify fun m => { m with draws := m.draws.tail }
  match r with
  | none => return none
  | some r =>
    modify fun m => { m with freelist := m.freelist.erase r }
    setPage r fun _ => 0x0505050505050505
    return some r

def kfree (L : Layout) (pa : Nat) : M Unit := do
  if pa % PGSIZE ≠ 0 ∨ pa < L.kend ∨ PHYSTOP ≤ pa then throw .kfree
  setPage pa fun _ => 0x0101010101010101
  modify fun m => { m with freelist := pa :: m.freelist }

/-! ## Bytes -/

def setByte (contents : Page) (offset : Nat) (b : Byte) : Page :=
  let k := Fin.ofNat 512 (offset / 8)
  let shift := 8 * (offset % 8)
  update contents k ((contents k &&& ~~~((0xff : Word) <<< shift)) ||| (b.setWidth 64 <<< shift))

def getByte (contents : Page) (offset : Nat) : Byte :=
  (contents (Fin.ofNat 512 (offset / 8)) >>> (8 * (offset % 8))).setWidth 8

def putBytes (contents : Page) (offset : Nat) : List Byte → Page
  | [] => contents
  | b :: bytes => putBytes (setByte contents offset b) (offset + 1) bytes

-- memmove() of bytes that stay within the page of pa.
def memmove (pa : Nat) (bytes : List Byte) : M Unit := do
  let m ← get
  setPage (pgRoundDown pa) (putBytes (m.page (pgRoundDown pa)) (pa % PGSIZE) bytes)

/-! ## Bytes of a page -/

theorem byteMask_getLsbD (n : Nat) : (0xff : Word).getLsbD n = decide (n < 8) := by
  have ones : (0xff : Word) = (BitVec.allOnes 8).setWidth 64 := by decide
  rw [ones, BitVec.getLsbD_setWidth, BitVec.getLsbD_allOnes]
  by_cases low : n < 8
  · have inside : n < 64 := by omega
    simp [low, inside]
  · simp [low]

theorem putByte_getLsbD (w : Word) (b : Byte) {shift j : Nat} (small : j < 64) :
    ((w &&& ~~~((0xff : Word) <<< shift)) ||| (b.setWidth 64 <<< shift)).getLsbD j =
      if shift ≤ j ∧ j < shift + 8 then b.getLsbD (j - shift) else w.getLsbD j := by
  simp only [BitVec.getLsbD_or, BitVec.getLsbD_and, BitVec.getLsbD_not, BitVec.getLsbD_shiftLeft, byteMask_getLsbD,
    BitVec.getLsbD_setWidth, small]
  by_cases below : j < shift
  · grind
  · grind

theorem getByte_setByte (contents : Page) {o o' : Nat} (b : Byte) (inside : o < PGSIZE) (inside' : o' < PGSIZE) :
    getByte (setByte contents o b) o' = if o' = o then b else getByte contents o' := by
  have word {o : Nat} (inside : o < PGSIZE) : (Fin.ofNat 512 (o / 8)).val = o / 8 := by
    simp only [PGSIZE, Fin.ofNat] at *
    omega
  by_cases same : o / 8 = o' / 8
  · unfold getByte setByte
    rw [← same]
    apply BitVec.eq_of_getLsbD_eq
    intro i small
    have range : 8 * (o' % 8) + i < 64 := by omega
    rw [Function.update_self, BitVec.getLsbD_setWidth, BitVec.getLsbD_ushiftRight, putByte_getLsbD _ _ range]
    by_cases equal : o' = o
    · grind
    · grind
  · have other : Fin.ofNat 512 (o' / 8) ≠ Fin.ofNat 512 (o / 8) := by grind
    have different : o' ≠ o := fun equal => same (by rw [equal])
    simp only [getByte, setByte, Function.update_of_ne other, different, ↓reduceIte]

theorem getByte_putBytes (contents : Page) {o o' : Nat} (bytes : List Byte) (inside : o + bytes.length ≤ PGSIZE)
    (inside' : o' < PGSIZE) :
    getByte (putBytes contents o bytes) o' =
      if o ≤ o' then bytes.getD (o' - o) (getByte contents o') else getByte contents o' := by
  induction bytes generalizing contents o with
  | nil => simp [putBytes]
  | cons b bytes ih =>
    simp only [List.length_cons] at inside
    rw [putBytes, ih (setByte contents o b) (by omega), getByte_setByte contents b (by omega) inside']
    by_cases above : o + 1 ≤ o'
    · grind
    · grind

end Xv6.Vm
