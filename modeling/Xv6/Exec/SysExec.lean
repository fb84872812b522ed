import Xv6.Vm.Operations

namespace Xv6.Exec
open Lib Vm
open ProcTable (Slot)

/-! ## Reading user memory -/

-- n bytes from pa on, which lie within one page.
def bytesAt (m : Machine) (pa n : Nat) : List Byte :=
  (List.range n).map fun i => getByte (m.page (pgRoundDown pa)) (pa % PGSIZE + i)

-- The bytes stored at dst, and whether the result is 0. Every round but the last copies up to the end
-- of a page.
def copyinLoop (pagetable : Nat) : Nat → Nat → Nat → M (List Byte × Bool)
  | _, _, 0 => return ([], true)
  | 0, _, _ + 1 => return ([], true)
  | rounds + 1, srcva, len => do
    let va0 := pgRoundDown srcva
    match ← walkaddr pagetable va0 with
    | none => return ([], false)
    | some pa0 =>
      let n := min (PGSIZE - (srcva - va0)) len
      let bytes := bytesAt (← get) (pa0 + (srcva - va0)) n
      let (rest, copied) ← copyinLoop pagetable rounds ((va0 + PGSIZE) % 2 ^ 64) (len - n)
      return (bytes ++ rest, copied)

def copyin (pagetable srcva len : Nat) : M (List Byte × Bool) := copyinLoop pagetable len srcva len

-- The bytes stored at dst, and whether the last of them is the NUL.
def copyinstrLoop (pagetable : Nat) : Nat → Nat → Nat → M (List Byte × Bool)
  | _, _, 0 => return ([], false)
  | 0, _, _ + 1 => return ([], false)
  | rounds + 1, srcva, max => do
    let va0 := pgRoundDown srcva
    match ← walkaddr pagetable va0 with
    | none => return ([], false)
    | some pa0 =>
      let n := min (PGSIZE - (srcva - va0)) max
      let bytes := bytesAt (← get) (pa0 + (srcva - va0)) n
      let string := bytes.takeWhile (· ≠ 0)
      if string.length < n then return (string ++ [0], true)
      else
        let (rest, gotNull) ← copyinstrLoop pagetable rounds ((va0 + PGSIZE) % 2 ^ 64) (max - n)
        return (bytes ++ rest, gotNull)

def copyinstr (pagetable srcva max : Nat) : M (List Byte × Bool) := copyinstrLoop pagetable max srcva max

def fetchaddr (p : Proc) (addr : Nat) : M (Option Nat) := do
  if p.sz ≤ addr ∨ p.sz < (addr + 8) % 2 ^ 64 then return none
  else
    let (bytes, copied) ← copyin p.pagetable addr 8
    return if copied then some (leNat bytes) else none

def fetchstr (p : Proc) (addr max : Nat) : M (List Byte × Bool) := copyinstr p.pagetable addr max

def argaddr (p : Proc) (a : Fin 512) : M Nat := do
  return (← load p.trapframe a).toNat

/-! ## The file system as `exec` uses it

`Files` is what the path and the file say while `exec` runs; `Holding` is what the calling process
has of the file system: open transactions, inode references and inode locks. -/

structure Files where
  namei : List Byte → Option Nat
  content : Nat → File

structure Holding where
  ops : Nat
  refs : List Nat
  locks : List Nat

structure State where
  kernel : Kernel
  name : Slot → List Byte
  holding : Holding

abbrev X (α : Type) := Comp State Panic α

def kernel {α : Type} (f : K α) : X α := zoom (·.kernel) (fun k s => { s with kernel := k }) f

def hold (change : Holding → Holding) : X Unit := modify fun s => { s with holding := change s.holding }

def beginOp : X Unit := hold fun h => { h with ops := h.ops + 1 }

def endOp : X Unit := hold fun h => { h with ops := h.ops - 1 }

def namei (fs : Files) (path : List Byte) : X (Option Nat) := do
  match fs.namei path with
  | none => return none
  | some ip =>
    hold fun h => { h with refs := ip :: h.refs }
    return some ip

def ilock (ip : Nat) : X Unit := hold fun h => { h with locks := ip :: h.locks }

def iunlockput (ip : Nat) : X Unit :=
  hold fun h => { h with locks := h.locks.erase ip, refs := h.refs.erase ip }

/-! ## `exec` -/

/-- What fits `char *argv[MAXARG]` with its terminating 0; `exec` then never sees `argc >= MAXARG`. -/
structure Argv where
  strings : List (List Byte)
  fits : strings.length < MAXARG

def slash : Byte := 47

-- safestrcpy(p->name, last, sizeof(p->name)), where last begins after the last slash of path.
def programName (path : List Byte) : List Byte :=
  ((path.reverse.takeWhile (· ≠ slash)).reverse).take 15

section
variable (L : Layout) (fs : Files)

def exec (i : Slot) (path : List Byte) (argv : Argv) : X (Option Nat) := do
  beginOp
  match ← namei fs path with
  | none =>
    endOp
    return none
  | some ip =>
    ilock ip
    let p ← kernel (getProc i)
    let header := readAt (fs.content ip) 0 sizeofElfhdr
    let elf := elfhdr header
    if header.length ≠ sizeofElfhdr ∨ elf.magic ≠ ELF_MAGIC then
      iunlockput ip
      endOp
      return none
    else
      match ← kernel (vm (procPagetable L p.trapframe)) with
      | none =>
        iunlockput ip
        endOp
        return none
      | some pagetable =>
        match ← kernel (vm (loadProgram L pagetable (fs.content ip) elf.phnum (elf.phoff % 2 ^ 32) 0)) with
        | (sz, false) =>
          kernel (vm (procFreepagetable L pagetable sz))
          iunlockput ip
          endOp
          return none
        | (sz, true) =>
          iunlockput ip
          endOp
          match ← kernel (vm (buildStack L pagetable argv.strings sz)) with
          | (sz, none) =>
            kernel (vm (procFreepagetable L pagetable sz))
            return none
          | (sz, some sp) =>
            kernel (vm (store p.trapframe tfA1 (BitVec.ofNat 64 sp)))
            modify fun s => { s with name := Function.update s.name i (programName path) }
            kernel (setProc i fun p => { p with pagetable := pagetable, sz := sz })
            kernel (vm (store p.trapframe tfEpc (BitVec.ofNat 64 elf.entry)))
            kernel (vm (store p.trapframe tfSp (BitVec.ofNat 64 sp)))
            kernel (vm (procFreepagetable L p.pagetable p.sz))
            return some argv.strings.length

/-! ## `sys_exec` -/

abbrev Strings (n : Nat) := { strings : List (List Byte) // strings.length < n }

def Strings.cons {n : Nat} (s : List Byte) (rest : Strings n) : Strings (n + 1) :=
  ⟨s :: rest.val, by simpa using rest.property⟩

-- The loop of sys_exec() with n entries of argv[] left: the pages taken, and the strings unless it
-- jumps to bad.
def fetchArgv (p : Proc) : (n : Nat) → Nat → M (List Nat × Option (Strings n))
  | 0, _ => return ([], none)
  | n + 1, uargv => do
    match ← fetchaddr p uargv with
    | none => return ([], none)
    | some uarg =>
      if uarg = 0 then return ([], some ⟨[], Nat.succ_pos n⟩)
      else
        match ← kalloc with
        | none => return ([], none)
        | some q =>
          let (bytes, gotNull) ← fetchstr p uarg PGSIZE
          memmove q bytes
          if gotNull then
            let (pages, rest) ← fetchArgv p n ((uargv + 8) % 2 ^ 64)
            return (q :: pages, rest.map (Strings.cons bytes.dropLast))
          else return ([q], none)

def sysExec (i : Slot) : X (Option Nat) := do
  let p ← kernel (getProc i)
  let (bytes, gotNull) ← kernel (vm (do fetchstr p (← argaddr p tfA0) MAXPATH))
  if gotNull then
    let (pages, argv) ← kernel (vm (do fetchArgv p MAXARG (← argaddr p tfA1)))
    match argv with
    | none =>
      kernel (vm (pages.forM (kfree L)))
      return none
    | some argv =>
      let ret ← exec L fs i bytes.dropLast ⟨argv.val, argv.property⟩
      kernel (vm (pages.forM (kfree L)))
      return ret
  else return none

end

open Function

section
variable {L : Layout} {role role' : Roles} {m t : Machine} {r q va n j len rounds : Nat} {X : Nat → Word} {pages : List Nat}
  {b : Byte}

/-! ## What `copyin` and `copyinstr` read -/

def upToNul : List Byte → List Byte × Bool
  | [] => ([], false)
  | b :: bytes => if b = 0 then ([0], true) else (b :: (upToNul bytes).1, (upToNul bytes).2)

attribute [local simp] upToNul

theorem upToNul_append (front rest : List Byte) : upToNul (front ++ rest) =
    if (front.takeWhile (· ≠ 0)).length < front.length then (front.takeWhile (· ≠ 0) ++ [0], true)
    else (front ++ (upToNul rest).1, (upToNul rest).2) := by
  induction front with
  | nil => simp
  | cons b front ih =>
    by_cases zero : b = 0
    · simp [zero]
    · rw [List.cons_append, upToNul, if_neg zero, ih, List.takeWhile_cons_of_pos (by simpa using zero)]
      simp only [List.length_cons, Nat.add_lt_add_iff_right]
      split_ifs <;> rfl

theorem bytesAt_length (m : Machine) (pa n : Nat) : (bytesAt m pa n).length = n := by
  simp [bytesAt]

section

variable (user : UserSpace L role m r X)

include user

theorem bytesAt_page (access : X (va / PGSIZE) &&& PTE_U ≠ 0) (low : va < MAXVA)
    (inside : va % PGSIZE + n ≤ PGSIZE) (byte : (bytesAt m (pte2pa (X (va / PGSIZE)) + va % PGSIZE) n)[j]? = some b) :
    userByte m r (va + j) = some b := by
  have aligned : pte2pa (X (va / PGSIZE)) % PGSIZE = 0 :=
    (user.space.heap.ram _ (by rw [(user.used (div_lt_vpns low) access).2]; simp)).1
  obtain ⟨short, value⟩ := List.getElem?_eq_some_iff.mp byte
  rw [bytesAt_length] at short
  have base : pgRoundDown (pte2pa (X (va / PGSIZE)) + va % PGSIZE) = pte2pa (X (va / PGSIZE)) := by
    simp only [pgRoundDown, PGSIZE] at *
    omega
  have offset : (pte2pa (X (va / PGSIZE)) + va % PGSIZE) % PGSIZE = va % PGSIZE := by
    simp only [PGSIZE] at *
    omega
  rw [userByte, user.samePage access low (by omega), Option.map_some, memByte_frame aligned (by omega), ← value]
  simp [bytesAt, base, offset]

theorem walkaddr_round {Q : Option Nat → Machine → Prop} (n_eq : n = min (PGSIZE - va % PGSIZE) (len + 1))
    (found : userBytes m r va (len + 1) = bytesAt m (pte2pa (X (va / PGSIZE)) + va % PGSIZE) n ++
      userBytes m r ((pgRoundDown va + PGSIZE) % 2 ^ 64) (len + 1 - n) → Q (some (pte2pa (X (va / PGSIZE)))) m)
    (lost : userBytes m r va (len + 1) = [] → Q none m) : wp (walkaddr r (pgRoundDown va)) Q m := by
  have small : va % PGSIZE < PGSIZE := Nat.mod_lt _ (by decide)
  apply (walkaddr_page user va).mono
  rintro _ t ⟨same, rfl⟩
  obtain rfl : m = t := same.symm
  split_ifs with reach
  · obtain ⟨low, access⟩ := reach
    have append := userBytes_append (k := len + 1 - n)
      (fun j b byte => bytesAt_page (n := n) user access low (by omega) byte)
    rw [bytesAt_length, Nat.add_sub_cancel' (by omega)] at append
    refine found ?_
    by_cases last : len + 1 - n = 0
    · rw [append, last, userBytes, userBytes]
    · rw [append, next_page low (n := n) (by omega)]
  · refine lost (userBytes_none ?_)
    rw [userByte, user.userAddr, if_neg reach, Option.map_none]

theorem copyinLoop_reads (va : Nat) (enough : len ≤ rounds) :
    wp (copyinLoop r rounds va len) (fun result t => t = m ∧
      result = (userBytes m r va len, decide ((userBytes m r va len).length = len))) m := by
  induction rounds generalizing va len with
  | zero =>
    obtain rfl : len = 0 := by omega
    simp [copyinLoop, userBytes]
  | succ rounds ih =>
    cases len with
    | zero => simp [copyinLoop, userBytes]
    | succ len =>
      simp only [copyinLoop, wp_bind, Nat.succ_eq_add_one, sub_pgRoundDown]
      have small : va % PGSIZE < PGSIZE := Nat.mod_lt _ (by decide)
      refine walkaddr_round user (rfl : _ = min _ (len + 1)) (fun round => ?_) fun lost => ?_
      · simp only [wp_bind, wp_get]
        apply (ih _ (by omega)).mono
        rintro _ _ ⟨rfl, rfl⟩
        simp only [wp_pure]
        refine ⟨trivial, Prod.ext round.symm ?_⟩
        rw [round, List.length_append, bytesAt_length]
        apply decide_eq_decide.mpr
        omega
      · simp only [wp_pure]
        rw [lost]
        exact ⟨trivial, rfl⟩

theorem copyinstrLoop_reads (va : Nat) (enough : len ≤ rounds) :
    wp (copyinstrLoop r rounds va len) (fun result t => t = m ∧ result = upToNul (userBytes m r va len)) m := by
  induction rounds generalizing va len with
  | zero =>
    obtain rfl : len = 0 := by omega
    simp [copyinstrLoop, userBytes]
  | succ rounds ih =>
    cases len with
    | zero => simp [copyinstrLoop, userBytes]
    | succ len =>
      simp only [copyinstrLoop, wp_bind, Nat.succ_eq_add_one, sub_pgRoundDown]
      have small : va % PGSIZE < PGSIZE := Nat.mod_lt _ (by decide)
      refine walkaddr_round user (rfl : _ = min _ (len + 1)) (fun round => ?_) fun lost => ?_
      · simp only [wp_bind, wp_get]
        rw [round, upToNul_append, bytesAt_length]
        split_ifs with ended
        · simp only [wp_pure]
          exact ⟨trivial, trivial⟩
        · apply (ih _ (by omega)).bind
          rintro _ _ ⟨rfl, rfl⟩
          simp only [wp_pure]
          exact ⟨trivial, trivial⟩
      · simp only [wp_pure]
        rw [lost]
        exact ⟨trivial, rfl⟩

end

variable {w : World} {i : Slot} {p : Proc} {proc : Slot → Proc} {held : List Nat}

section

variable (owns : Owns L role w fun _ => False) (used : (w.proc i).state ≠ .unused)

include owns used

theorem fetchstr_same {addr n : Nat} : wp (fetchstr (w.proc i) addr n) (fun _ t => t = w.machine) w.machine := by
  obtain ⟨X, space, mapped⟩ := (owns.live i id used).space
  exact (copyinstrLoop_reads (mapped.userSpace space) addr (Nat.le_refl n)).mono fun _ _ => And.left

theorem fetchaddr_same {addr : Nat} : wp (fetchaddr (w.proc i) addr) (fun _ t => t = w.machine) w.machine := by
  obtain ⟨X, space, mapped⟩ := (owns.live i id used).space
  unfold fetchaddr
  split_ifs
  · simp only [wp_pure]
  · simp only [wp_bind]
    apply (copyinLoop_reads (mapped.userSpace space) addr (Nat.le_refl 8)).mono
    rintro found _ ⟨rfl, -⟩
    simp only [wp_pure]

end

/-! ## The copies of the arguments -/

structure Took (role : Roles) (m : Machine) (role' : Roles) (t : Machine) (pages : List Nat) : Prop where
  nodup : pages.Nodup
  free : ∀ q ∈ pages, role q = .free
  roles : ∀ p, role' p = if p ∈ pages then .held else role p
  same : ∀ p, p ∉ pages → t.page p = m.page p

theorem Took.nil (page : t.page = m.page) : Took role m role t [] :=
  ⟨List.nodup_nil, by simp, by simp, fun _ _ => by rw [page]⟩

theorem Took.cons {u : Machine} (free : role q = .free) (elsewhere : ∀ p, p ≠ q → t.page p = m.page p)
    (took : Took (update role q .held) t role' u pages) : Took role m role' u (q :: pages) := by
  have fresh : q ∉ pages := by
    intro member
    simpa using took.free q member
  refine ⟨List.nodup_cons.mpr ⟨fresh, took.nodup⟩, ?_, ?_, ?_⟩
  · grind [free]
  · grind [took.roles]
  · intro p outside
    obtain ⟨other, outside⟩ := not_or.mp (List.mem_cons.not.mp outside)
    rw [took.same p outside, elsewhere p other]

theorem memmove_elsewhere {bytes : List Byte} (ram : Ram L q) :
    wp (memmove q bytes) (fun _ t => t.freelist = m.freelist ∧ ∀ p, p ≠ q → t.page p = m.page p) m := by
  have aligned : pgRoundDown q = q := by
    have whole := ram.1
    simp only [pgRoundDown, PGSIZE] at *
    omega
  simp only [memmove, wp_bind, wp_get, wp_setPage, aligned]
  exact ⟨trivial, fun p other => update_of_ne other _ _⟩

theorem fetchArgv_took {n uargv : Nat}
    (owns : Owns L role ⟨m, proc, held⟩ fun _ => False) (used : (proc i).state ≠ .unused) :
    wp (fetchArgv (proc i) n uargv) (fun result t => ∃ role',
      Owns L role' ⟨t, proc, held⟩ (fun _ => False) ∧ Took role m role' t result.1) m := by
  induction n generalizing role m uargv with
  | zero =>
    simp only [fetchArgv, wp_pure]
    exact ⟨role, owns, Took.nil rfl⟩
  | succ n ih =>
    simp only [fetchArgv, wp_bind]
    apply (fetchaddr_same (w := ⟨m, proc, held⟩) owns used).mono
    rintro (_ | uarg) u same
    · simp only [wp_pure]
      exact ⟨role, same ▸ owns, Took.nil (congrArg Machine.page same)⟩
    obtain rfl : m = u := same.symm
    dsimp only
    split_ifs
    · simp only [wp_pure]
      exact ⟨role, owns, Took.nil rfl⟩
    rw [wp_bind]
    apply kalloc_rule owns.heap
    · intro t _ page freelist
      simp only [wp_pure]
      exact ⟨role, owns.inUse (freelist ▸ owns.heap) (page ▸ Keeps.refl), Took.nil page⟩
    · intro q t free heap page _
      have taken : Owns L (update role q .held) ⟨t, proc, held⟩ fun _ => False :=
        owns.hand free heap page (by simp) rfl
      simp only [wp_bind]
      apply (fetchstr_same taken used).mono
      rintro ⟨bytes, gotNull⟩ _ rfl
      apply (memmove_elsewhere (taken.heap.ram q (by simp))).bind
      rintro _ u ⟨freelist, elsewhere⟩
      have written : Owns L (update role q .held) ⟨u, proc, held⟩ fun _ => False :=
        taken.touch (by simp [Role.spaceOf, Role.tableOf]) elsewhere freelist
      have outside (p : Nat) (other : p ≠ q) : u.page p = m.page p := by
        rw [elsewhere p other]
        simp only [page]
        rw [update_of_ne other]
      cases gotNull with
      | false =>
        simp only [Bool.false_eq_true, ↓reduceIte, wp_pure]
        exact ⟨_, written, (Took.nil rfl).cons free outside⟩
      | true =>
        simp only [↓reduceIte, wp_bind]
        apply (ih written).mono
        rintro ⟨pages, rest⟩ v ⟨role', owns', took⟩
        simp only [wp_pure]
        exact ⟨role', owns', took.cons free outside⟩

structure Gave (role : Roles) (m : Machine) (role' : Roles) (t : Machine) (pages : List Nat) : Prop where
  roles : ∀ p, role' p = if p ∈ pages then .free else role p
  same : ∀ p, p ∉ pages → t.page p = m.page p

theorem kfree_gave (owns : Owns L role ⟨m, proc, held⟩ fun _ => False)
    (nodup : pages.Nodup) (copies : ∀ q ∈ pages, role q = .held ∧ q ∉ held) :
    wp (pages.forM (kfree L)) (fun _ t => ∃ role',
      Owns L role' ⟨t, proc, held⟩ (fun _ => False) ∧ Gave role m role' t pages) m := by
  induction pages generalizing role m with
  | nil => exact (wp_pure _ _ _).mpr ⟨role, owns, by simp, fun _ _ => rfl⟩
  | cons q pages ih =>
    obtain ⟨fresh, nodup⟩ := List.nodup_cons.mp nodup
    obtain ⟨use, unlisted⟩ := copies q (by simp)
    change wp (kfree L q >>= fun _ => pages.forM (kfree L)) _ m
    rw [wp_bind]
    apply kfree_rule (owns.heap.ram q (by simp [use]))
    intro t page freelist
    have given : Owns L (update role q .free) ⟨t, proc, held⟩ fun _ => False :=
      owns.giveBack use unlisted page freelist
    apply (ih given nodup _).mono
    · rintro _ u ⟨role', owns', gave⟩
      refine ⟨role', owns', ?_, ?_⟩
      · grind [gave.roles]
      · intro p outside
        obtain ⟨other, outside⟩ := not_or.mp (List.mem_cons.not.mp outside)
        rw [gave.same p outside, page, update_of_ne other]
    · grind

end

end Xv6.Exec
