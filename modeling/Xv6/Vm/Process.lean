import Xv6.Proc.Table
import Xv6.Vm.Exec

namespace Xv6.Vm
open Lib ProcTable

/-! ## Processes and the memory they own

The scheduling states of a process make no difference here: a process that `fork` has set going is
`runnable` until it exits. -/

structure Proc where
  state : ProcState
  parent : Option Slot
  xstate : Nat
  sz : Nat
  pagetable : Nat
  trapframe : Nat
  alarmTf : Nat

structure World where
  machine : Machine
  proc : Slot → Proc
  held : List Nat -- pages that the rest of the kernel has from kalloc()

/-- History: a call of `freeproc`, with the world before it and the pages that it freed. -/
structure Freeproc where
  slot : Slot
  before : World
  freed : List Nat

structure Kernel extends World where
  calls : List Freeproc

abbrev K (α : Type) := Comp Kernel Panic α

def vm {α : Type} (f : M α) : K α := zoom (·.machine) (fun m k => { k with machine := m }) f

def setProc (i : Slot) (change : Proc → Proc) : K Unit :=
  modify fun k => { k with proc := Function.update k.proc i (change (k.proc i)) }

def getProc (i : Slot) : K Proc := do
  let k ← get
  return k.proc i

section
variable (L : Layout)

def kfreeIf (pa : Nat) : M Unit := if pa ≠ 0 then kfree L pa else pure ()

def procFreepagetableIf (pagetable sz : Nat) : M Unit :=
  if pagetable ≠ 0 then procFreepagetable L pagetable sz else pure ()

def freeproc (i : Slot) : K Unit := do
  let before ← get
  let p ← getProc i
  vm (kfreeIf L p.trapframe)
  vm (kfreeIf L p.alarmTf)
  setProc i fun p => { p with trapframe := 0 }
  vm (procFreepagetableIf L p.pagetable p.sz)
  setProc i fun p => { p with pagetable := 0, sz := 0, parent := none, xstate := 0, state := .unused }
  modify fun k =>
    let count := k.machine.freelist.length - before.machine.freelist.length
    { k with calls := ⟨i, before.toWorld, k.machine.freelist.take count⟩ :: k.calls }

def findUnused (k : Kernel) : Option Slot :=
  (List.finRange NPROC).find? fun i => (k.proc i).state = .unused

def allocproc : K (Option Slot) := do
  match findUnused (← get) with
  | none => return none
  | some i =>
    setProc i fun p => { p with state := .used }
    match ← vm kalloc with
    | none =>
      setProc i fun p => { p with trapframe := 0 }
      freeproc L i
      return none
    | some trapframe =>
      setProc i fun p => { p with trapframe := trapframe }
      match ← vm kalloc with
      | none =>
        setProc i fun p => { p with alarmTf := 0 }
        freeproc L i
        return none
      | some alarmTf =>
        setProc i fun p => { p with alarmTf := alarmTf }
        match ← vm (procPagetable L trapframe) with
        | none =>
          setProc i fun p => { p with pagetable := 0 }
          freeproc L i
          return none
        | some pagetable =>
          setProc i fun p => { p with pagetable := pagetable }
          return some i

def initcode : List Byte :=
  [0x17, 0x05, 0x00, 0x00, 0x13, 0x05, 0x45, 0x02, 0x97, 0x05, 0x00, 0x00, 0x93, 0x85, 0x35, 0x02,
    0x93, 0x08, 0x70, 0x00, 0x73, 0x00, 0x00, 0x00, 0x93, 0x08, 0x20, 0x00, 0x73, 0x00, 0x00, 0x00,
    0xef, 0xf0, 0x9f, 0xff, 0x2f, 0x69, 0x6e, 0x69, 0x74, 0x00, 0x00, 0x24, 0x00, 0x00, 0x00, 0x00,
    0x00, 0x00, 0x00, 0x00]

-- The words of struct trapframe that these functions write.
def tfEpc : Fin 512 := 3
def tfSp : Fin 512 := 6
def tfA0 : Fin 512 := 14
def tfA1 : Fin 512 := 15
def tfWords : Nat := 36

def userinit : K Unit := do
  match ← allocproc L with
  | none => throw .fault
  | some i =>
    let p ← getProc i
    vm (uvminit p.pagetable initcode)
    setProc i fun p => { p with sz := PGSIZE }
    vm (store p.trapframe tfEpc 0)
    vm (store p.trapframe tfSp (BitVec.ofNat 64 PGSIZE))
    setProc i fun p => { p with state := .runnable }

-- n is an int and sz an unsigned int.
def growproc (i : Slot) (n : Int) : K Bool := do
  let p ← getProc i
  let sz := p.sz % 2 ^ 32
  let newsz := ((sz + n) % 2 ^ 32).toNat
  if 0 < n then
    let sz := (← vm (uvmalloc L p.pagetable sz newsz)) % 2 ^ 32
    if sz = 0 then return false
    else
      setProc i fun p => { p with sz := sz }
      return true
  else if n < 0 then
    let sz := (← vm (uvmdealloc L p.pagetable sz newsz)) % 2 ^ 32
    setProc i fun p => { p with sz := sz }
    return true
  else
    setProc i fun p => { p with sz := sz }
    return true

def fork (i : Slot) : K (Option Slot) := do
  match ← allocproc L with
  | none => return none
  | some np =>
    let p ← getProc i
    let child ← getProc np
    if ← vm (uvmcopy L p.pagetable child.pagetable p.sz) then
      setProc np fun c => { c with sz := p.sz }
      let k ← get
      let frame := k.machine.page p.trapframe
      let own := k.machine.page child.trapframe
      vm (setPage child.trapframe fun w => if w.val < tfWords then frame w else own w)
      vm (store child.trapframe tfA0 0)
      setProc np fun c => { c with parent := some i }
      setProc np fun c => { c with state := .runnable }
      return some np
    else
      freeproc L np
      return none

def exec (i : Slot) (file : Option File) (argv : List (List Byte)) : K Bool := do
  match file with
  | none => return false
  | some file =>
    let p ← getProc i
    match ← vm (buildImage L p.trapframe file argv) with
    | none => return false
    | some image =>
      vm (store p.trapframe tfA1 (BitVec.ofNat 64 image.sp))
      setProc i fun p => { p with pagetable := image.pagetable, sz := image.sz }
      vm (store p.trapframe tfEpc (BitVec.ofNat 64 image.entry))
      vm (store p.trapframe tfSp (BitVec.ofNat 64 image.sp))
      vm (procFreepagetable L p.pagetable p.sz)
      return true

def exit (i : Slot) (status : Nat) : K Unit := do
  if i = initproc then throw .initExiting
  modify fun k => { k with proc := fun j =>
    if (k.proc j).parent = some i then { k.proc j with parent := some initproc } else k.proc j }
  setProc i fun p => { p with xstate := status, state := .zombie }

def intBytes (n : Nat) : List Byte := (List.range 4).map fun i => BitVec.ofNat 8 (n >>> (8 * i))

def findZombie (k : Kernel) (i : Slot) : Option Slot :=
  (List.finRange NPROC).find? fun j => (k.proc j).parent = some i ∧ (k.proc j).state = .zombie

def copyoutIf (pagetable addr : Nat) (src : List Byte) : M Bool :=
  if addr ≠ 0 then copyout pagetable addr src else pure true

-- One round of wait(); without a zombie child it fails or sleeps and nothing changes.
def wait (i : Slot) (addr : Nat) : K (Option Slot) := do
  match findZombie (← get) i with
  | none => return none
  | some np =>
    let p ← getProc i
    let child ← getProc np
    if ← vm (copyoutIf p.pagetable addr (intBytes child.xstate)) then
      freeproc L np
      return some np
    else return none

/-! ## Runs -/

inductive Op where
  | userinit
  | fork (i : Slot)
  | exec (i : Slot) (file : Option File) (argv : List (List Byte))
  | growproc (i : Slot) (n : BitVec 32)
  | exit (i : Slot) (status : Nat)
  | wait (i : Slot) (addr : Nat)
  | take -- the rest of the kernel calls kalloc()
  | give (q : Nat) -- and kfree() of a page it holds

def take : K Unit := do
  match ← vm kalloc with
  | none => return ()
  | some q => modify fun k => { k with held := q :: k.held }

def give (q : Nat) : K Unit := do
  vm (kfree L q)
  modify fun k => { k with held := k.held.erase q }

def perform : Op → K Unit
  | .userinit => userinit L
  | .fork i => discard (fork L i)
  | .exec i file argv => discard (exec L i file argv)
  | .growproc i n => discard (growproc L i n.toInt)
  | .exit i status => exit i status
  | .wait i addr => discard (wait L i addr)
  | .take => take
  | .give q => give L q

def enabled (k : Kernel) : Op → Prop
  | .userinit => ∀ i, (k.proc i).state = .unused
  | .fork i => (k.proc i).state = .runnable
  | .exec i _ argv => (k.proc i).state = .runnable ∧ argv.length < MAXARG
  | .growproc i _ => (k.proc i).state = .runnable
  | .exit i _ => (k.proc i).state = .runnable
  | .wait i _ => (k.proc i).state = .runnable
  | .take => True
  | .give q => q ∈ k.held

instance (k : Kernel) : (op : Op) → Decidable (enabled k op)
  | .userinit => inferInstanceAs (Decidable (∀ i, (k.proc i).state = .unused))
  | .fork i => inferInstanceAs (Decidable ((k.proc i).state = .runnable))
  | .exec i _ argv => inferInstanceAs (Decidable ((k.proc i).state = .runnable ∧ argv.length < MAXARG))
  | .growproc i _ => inferInstanceAs (Decidable ((k.proc i).state = .runnable))
  | .exit i _ => inferInstanceAs (Decidable ((k.proc i).state = .runnable))
  | .wait i _ => inferInstanceAs (Decidable ((k.proc i).state = .runnable))
  | .take => isTrue trivial
  | .give q => inferInstanceAs (Decidable (q ∈ k.held))

structure State where
  kernel : Kernel
  panicked : Option Panic

/-- An operation with the draws that decide its calls of `kalloc`. -/
structure Event where
  op : Op
  draws : List (Option Nat)

def Kernel.withDraws (k : Kernel) (draws : List (Option Nat)) : Kernel :=
  { k with machine := { k.machine with draws := draws } }

def step (s : State) (e : Event) : Option State :=
  if s.panicked = none ∧ enabled s.kernel e.op then
    match (perform L e.op).run (s.kernel.withDraws e.draws) with
    | .ok (_, k) => some ⟨k, none⟩
    | .error panic => some { s with panicked := some panic }
  else none

end

end Xv6.Vm
