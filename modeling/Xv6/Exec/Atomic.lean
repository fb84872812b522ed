import Xv6.Exec.SysExec
import Xv6.Vm.AddressSpace

namespace Xv6.Exec
open Lib Vm
open ProcTable (Slot)

/-! ## `exec` with the file system around it -/

section
variable {L : Layout} {fs : Files} {s : State} {i : Slot} {path : List Byte} {argv : Argv} {k : Kernel} {role : Roles}

@[simp] theorem wp_kernel {α : Type} (f : K α) (Q : α → State → Prop) :
    wp (kernel f) Q s ↔ wp f (fun a k => Q a { s with kernel := k }) s.kernel := by
  simp [kernel]

@[simp] theorem wp_hold (change : Holding → Holding) (Q : PUnit → State → Prop) :
    wp (hold change) Q s ↔ Q ⟨⟩ { s with holding := change s.holding } := by
  simp [hold]

def State.after (s : State) (i : Slot) (path : List Byte) (done : Bool) (k : Kernel) : State :=
  { s with kernel := k, name := if done then Function.update s.name i (programName path) else s.name }

theorem exec_wp {Q : Option Nat → State → Prop} (memory : wp (Vm.exec L i ((fs.namei path).map fs.content) argv.strings)
      (fun done k => Q (if done then some argv.strings.length else none) (s.after i path done k)) s.kernel) :
    wp (exec L fs i path argv) Q s := by
  cases found : fs.namei path with
  | none =>
    simp only [found, Option.map_none, Vm.exec, wp_pure] at memory
    simp only [exec, namei, found, beginOp, endOp, wp_bind, wp_hold, wp_pure, Nat.add_sub_cancel]
    exact memory
  | some ip =>
    simp only [found, Option.map_some, Vm.exec, wp_bind, wp_getProc, wp_vm, buildImage] at memory
    simp only [exec, namei, found, beginOp, endOp, ilock, iunlockput, wp_bind, wp_hold, wp_kernel, wp_getProc, wp_pure]
    split_ifs at memory ⊢ with bad
    · simp only [wp_pure, wp_bind, wp_hold, List.erase_cons_head, Nat.add_sub_cancel] at memory ⊢
      exact memory
    · simp only [wp_bind, wp_kernel, wp_vm] at memory ⊢
      apply memory.mono
      rintro (_ | pagetable) t memory
      · simp only [wp_pure, wp_bind, wp_hold, List.erase_cons_head, Nat.add_sub_cancel] at memory ⊢
        exact memory
      · simp only [wp_bind, wp_kernel, wp_vm] at memory ⊢
        apply memory.mono
        rintro ⟨sz, _ | _⟩ u memory
        · simp only [wp_bind, wp_hold, wp_kernel, wp_vm, List.erase_cons_head, Nat.add_sub_cancel] at memory ⊢
          apply memory.mono
          intro _ v memory
          simp only [wp_pure] at memory ⊢
          exact memory
        · simp only [wp_bind, wp_hold, wp_kernel, wp_vm, List.erase_cons_head, Nat.add_sub_cancel] at memory ⊢
          apply memory.mono
          rintro ⟨sz', _ | sp⟩ v memory
          · simp only [wp_bind, wp_kernel, wp_vm] at memory ⊢
            apply memory.mono
            intro _ v memory
            simp only [wp_pure] at memory ⊢
            exact memory
          · simp only [wp_pure, wp_bind, wp_kernel, wp_vm, wp_store, wp_modify, wp_setProc] at memory ⊢
            exact memory

theorem exec_returns (inv : Inv L role s.kernel) (used : (s.kernel.proc i).state ≠ .unused) :
    wp (exec L fs i path argv) (fun ret t => ∃ done k, Execs L role s.kernel i done k ∧
      ret = (if done then some argv.strings.length else none) ∧ t = s.after i path done k) s := by
  apply exec_wp
  apply (exec_replaces inv used).mono
  intro done k after
  exact ⟨done, k, after, rfl, rfl⟩

end

/-! ## Executables cannot stop the kernel -/

theorem exec_survives {L : Layout} {s : State} {i : Slot} (fs : Files) (path : List Byte) (argv : Argv)
    (sound : ∃ role, Inv L role s.kernel) (used : (s.kernel.proc i).state ≠ .unused) :
    ∃ ret t, (exec L fs i path argv).run s = .ok (ret, t) ∧ (ret = some argv.strings.length ∨ ret = none) := by
  obtain ⟨role, inv⟩ := sound
  obtain ⟨ret, t, ran, done, k, -, result, -⟩ := (exec_returns inv used).run_eq
  refine ⟨ret, t, ran, ?_⟩
  cases done with
  | true => exact .inl result
  | false => exact .inr result

/-! ## The first program -/

-- initcode at its ecall: a0 points to its string "/init" and a1 to its argv.
def atEcall (k : Kernel) : State where
  kernel :=
    let frame := (k.proc 0).trapframe
    { k with machine := { k.machine with page := put (put k.machine.page frame tfA0 0x24) frame tfA1 0x2b } }
  name _ := []
  holding := ⟨0, [], []⟩

theorem atEcall_sound {L : Layout} (sound : ∃ role, Inv L role k) (used : (k.proc 0).state ≠ .unused) :
    ∃ role, Inv L role (atEcall k).kernel := by
  obtain ⟨role, inv⟩ := sound
  refine ⟨role, inv.owns.touchFrame (i := 0) id used ?_ rfl, inv.calls⟩
  intro p other
  dsimp only
  rw [put_other other, put_other other]

def slashInit : List Byte := [47, 105, 110, 105, 116]

-- An executable without segments.
def emptyProgram : File := [0x7f, 0x45, 0x4c, 0x46] ++ List.replicate 60 0

def oneFile : Files := ⟨fun path => if path = slashInit then some 2 else none, fun _ => emptyProgram⟩

theorem booted : ∃ s, step smallLayout bootState ⟨.userinit, []⟩ = some s ∧ (s.kernel.proc 0).state ≠ .unused ∧
    (∃ role, Inv smallLayout role (atEcall s.kernel).kernel) ∧
    Ready smallLayout (s.kernel.proc 0).trapframe emptyProgram (atEcall s.kernel).kernel.machine := by
  refine exists_some_of (fun s => (s.kernel.proc 0).state ≠ .unused ∧ ((buildImage smallLayout (s.kernel.proc 0).trapframe
    emptyProgram []).run (atEcall s.kernel).kernel.machine).toOption.any (·.1.isSome)) (by decide +kernel) fun s first tests => ?_
  obtain ⟨used, builds⟩ := tests
  have started : Started smallLayout s := ⟨bootState, [], bootState_boot, by decide, first⟩
  obtain ⟨⟨image, t⟩, ran, built⟩ := (Option.any_eq_true _ _).mp builds
  obtain ⟨image, rfl⟩ := Option.isSome_iff_exists.mp built
  exact ⟨used, atEcall_sound started.sound.inv used, image, t, toOption_eq_some.mp ran⟩

theorem exec_survives_init : ∃ s ret t, step smallLayout bootState ⟨.userinit, []⟩ = some s ∧
    (exec smallLayout oneFile 0 slashInit ⟨[slashInit], by decide⟩).run (atEcall s.kernel) = .ok (ret, t) ∧
    (ret = some 1 ∨ ret = none) := by
  obtain ⟨s, first, used, sound, -⟩ := booted
  obtain ⟨ret, t, ran, result⟩ := exec_survives oneFile slashInit ⟨[slashInit], by decide⟩ sound used
  exact ⟨s, ret, t, first, ran, result⟩

/-! ## `sys_exec` is all or nothing -/

def SpacePage (k : Kernel) (i : Slot) (p : Nat) : Prop :=
  TablePage k.machine.page (k.proc i).pagetable p ∨ UserPage k.machine.page (k.proc i).pagetable p

structure Unchanged (i : Slot) (s t : State) : Prop where
  proc : t.kernel.proc = s.kernel.proc
  name : t.name = s.name
  memory : ∀ p, Owner s.kernel.toWorld i p → t.kernel.machine.page p = s.kernel.machine.page p
  freelist : t.kernel.machine.freelist.Perm s.kernel.machine.freelist

/-- Free are now, once each, the pages that were free and do not belong to the new image, and those of
the old one. -/
structure Exchanged (i : Slot) (s t : State) : Prop where
  nodup : t.kernel.machine.freelist.Nodup
  freelist : ∀ p, p ∈ t.kernel.machine.freelist ↔
    p ∈ s.kernel.machine.freelist ∧ ¬ SpacePage t.kernel i p ∨ SpacePage s.kernel i p

section
variable {L : Layout} {fs : Files} {s : State} {role : Roles} {i : Slot}

theorem spacePage_iff (inv : Inv L role k) (used : (k.proc i).state ≠ .unused) (p : Nat) :
    SpacePage k i p ↔ (role p).spaceOf = some (k.proc i).pagetable := by
  obtain ⟨X, space, -⟩ := (inv.owns.live i id used).space
  constructor
  · rintro (table | user)
    · exact space.tablePage table
    · exact space.userPage user
  · exact space.pageOf

structure Called (L : Layout) (role : Roles) (s : State) (i : Slot) (ret : Option Nat) (role' : Roles) (t : State) :
    Prop where
  inv : Inv L role' t.kernel
  holding : t.holding = s.holding
  rest : t.kernel.held = s.kernel.held
  held : ∀ p, role' p = .held ↔ role p = .held
  failed : ret = none → t.kernel.proc = s.kernel.proc ∧ t.name = s.name ∧
    (∀ p, (role p).InUse → t.kernel.machine.page p = s.kernel.machine.page p) ∧
    ∀ p, role' p = .free ↔ role p = .free
  done : ret ≠ none → (t.kernel.proc i).state ≠ .unused ∧ ∀ p, role' p = .free ↔
    role p = .free ∧ (role' p).spaceOf ≠ some (t.kernel.proc i).pagetable ∨
      (role p).spaceOf = some (s.kernel.proc i).pagetable

theorem Called.refl (inv : Inv L role s.kernel) : Called L role s i none role s :=
  ⟨inv, rfl, rfl, fun _ => Iff.rfl, fun _ => ⟨rfl, rfl, fun _ _ => rfl, fun _ => Iff.rfl⟩, by simp⟩

theorem exec_called {path : List Byte} {argv : Argv} (inv : Inv L role s.kernel) (settled : ∀ p, role p ≠ .scratch)
    (used : (s.kernel.proc i).state ≠ .unused) :
    wp (exec L fs i path argv) (fun ret t => ∃ role', Called L role s i ret role' t) s := by
  apply (exec_returns inv used).mono
  rintro _ _ ⟨done, k, ⟨role', after, rest, outcome⟩, rfl, rfl⟩
  have inUse : Role.held.InUse := by simp [Role.InUse]
  cases done with
  | false =>
    obtain ⟨undone, proc⟩ := outcome
    refine ⟨role', after, rfl, rest, undone.keeps.iff inUse, ?_, by simp⟩
    intro _
    exact ⟨proc, rfl, fun p used => (undone.keeps.old p used).2, undone.free_iff settled⟩
  | true =>
    obtain ⟨replaced, -, proc⟩ := outcome
    refine ⟨role', after, rfl, rest, ?_, by simp, ?_⟩
    · exact replaced.others _ inUse (by simp [Role.spaceOf, Role.tableOf]) (by simp [Role.spaceOf, Role.tableOf])
    · intro _
      refine ⟨?_, replaced.free_iff inv.owns.heap settled⟩
      change (k.proc i).state ≠ .unused
      rw [proc, Function.update_self]
      exact used

def State.withMachine (s : State) (t : Machine) : State :=
  { s with kernel := { s.kernel with machine := t } }

theorem Called.wrap {role1 role2 role3 : Roles} {t : State} {m m' : Machine} {ret : Option Nat} {pages : List Nat}
    (took : Took role s.kernel.machine role1 m pages) (called : Called L role1 (s.withMachine m) i ret role2 t)
    (gave : Gave role2 t.kernel.machine role3 m' pages) (inv : Inv L role3 (t.withMachine m').kernel) :
    Called L role s i ret role3 (t.withMachine m') := by
  have inside (p : Nat) (member : p ∈ pages) : role p = .free ∧ role1 p = .held ∧ role3 p = .free :=
    ⟨took.free p member, by rw [took.roles p, if_pos member], by rw [gave.roles p, if_pos member]⟩
  have outside (p : Nat) (other : p ∉ pages) : role1 p = role p ∧ role3 p = role2 p :=
    ⟨by rw [took.roles p, if_neg other], by rw [gave.roles p, if_neg other]⟩
  refine ⟨inv, called.holding, called.rest, ?_, ?_, ?_⟩
  · grind [called.held]
  · intro failed
    obtain ⟨proc, name, memory, free⟩ := called.failed failed
    refine ⟨proc, name, ?_, ?_⟩
    · intro p used
      have other : p ∉ pages := by
        intro member
        rw [took.free p member] at used
        exact used.2.1 rfl
      have kept := memory p (by rwa [(outside p other).1])
      exact (gave.same p other).trans (kept.trans (took.same p other))
    · grind
  · intro done
    obtain ⟨running, free⟩ := called.done done
    refine ⟨running, fun p => ?_⟩
    by_cases member : p ∈ pages
    · grind [Role.spaceOf, Role.tableOf]
    · obtain ⟨before, after⟩ := outside p member
      rw [after, ← before]
      exact free p

theorem sysExec_called (inv : Inv L role s.kernel) (settled : ∀ p, role p ≠ .scratch)
    (used : (s.kernel.proc i).state ≠ .unused) :
    wp (sysExec L fs i) (fun ret t => ∃ role', Called L role s i ret role' t) s := by
  simp only [sysExec, wp_bind, wp_kernel, wp_getProc, wp_vm, argaddr, wp_load, wp_pure]
  apply (fetchstr_same inv.owns used).mono
  rintro ⟨bytes, gotNull⟩ m same
  obtain rfl : s.kernel.machine = m := same.symm
  cases gotNull with
  | false =>
    simp only [Bool.false_eq_true, ↓reduceIte, wp_pure]
    exact ⟨role, Called.refl inv⟩
  | true =>
    simp only [↓reduceIte, wp_bind, wp_kernel, wp_vm, wp_load, wp_pure]
    apply (fetchArgv_took inv.owns used).mono
    rintro ⟨pages, argv⟩ t ⟨role1, owns1, took⟩
    have inv1 : Inv L role1 (s.withMachine t).kernel := ⟨owns1, inv.calls⟩
    have settled1 (p : Nat) : role1 p ≠ .scratch := by grind [took.roles]
    -- Freeing the copies ends the call, whether it has come to `exec` or not.
    have free {ret : Option Nat} {role2 : Roles} {u : State} (called : Called L role1 (s.withMachine t) i ret role2 u) :
        wp (pages.forM (kfree L)) (fun _ m' => ∃ role', Called L role s i ret role' (u.withMachine m'))
          u.kernel.machine := by
      have copies (q : Nat) (member : q ∈ pages) : role2 q = .held ∧ q ∉ u.kernel.held := by
        refine ⟨(called.held q).mpr (by rw [took.roles q, if_pos member]), ?_⟩
        rw [called.rest]
        intro listed
        have taken := took.free q member
        rw [inv.owns.held q listed] at taken
        cases taken
      apply (kfree_gave called.inv.owns took.nodup copies).mono
      rintro _ m' ⟨role3, owns3, gave⟩
      exact ⟨role3, Called.wrap took called gave ⟨owns3, called.inv.calls⟩⟩
    cases argv with
    | none =>
      simp only [wp_bind, wp_kernel, wp_vm, wp_pure]
      exact free (Called.refl inv1)
    | some argv =>
      simp only [wp_bind]
      apply (exec_called inv1 settled1 used).mono
      rintro ret u ⟨role2, called⟩
      simp only [wp_bind, wp_kernel, wp_vm, wp_pure]
      exact free called

theorem exec_all_or_nothing (fs : Files) (sound : ∃ role, Inv L role s.kernel) (used : (s.kernel.proc i).state ≠ .unused) :
    ∃ ret t, (sysExec L fs i).run s = .ok (ret, t) ∧ t.holding = s.holding ∧
      match ret with
      | none => Unchanged i s t
      | some _ => Exchanged i s t := by
  obtain ⟨role, inv, settled⟩ := sound.elim fun role inv => inv.settle
  obtain ⟨ret, t, ran, role', called⟩ := (sysExec_called inv settled used).run_eq
  refine ⟨ret, t, ran, called.holding, ?_⟩
  have before := inv.owns.heap
  have after := called.inv.owns.heap
  cases ret with
  | none =>
    obtain ⟨proc, name, memory, free⟩ := called.failed rfl
    refine ⟨proc, name, ?_, ?_⟩
    · intro p owner
      exact memory p (inv.owns.roleOf id used owner).inUse
    · apply (List.perm_ext_iff_of_nodup after.nodup before.nodup).mpr
      intro p
      rw [← after.free, ← before.free, free]
  | some argc =>
    obtain ⟨running, free⟩ := called.done (by simp)
    refine ⟨after.nodup, ?_⟩
    intro p
    rw [← after.free, ← before.free, spacePage_iff inv used, spacePage_iff called.inv running]
    exact free p

end

theorem exec_all_or_nothing_init : ∃ s ret t, step smallLayout bootState ⟨.userinit, []⟩ = some s ∧
    (sysExec smallLayout oneFile 0).run (atEcall s.kernel) = .ok (ret, t) ∧
    t.holding = (atEcall s.kernel).holding ∧
    (ret = none → Unchanged 0 (atEcall s.kernel) t) ∧ (ret ≠ none → Exchanged 0 (atEcall s.kernel) t) := by
  obtain ⟨s, first, used, sound, -⟩ := booted
  obtain ⟨ret, t, ran, holding, outcome⟩ := exec_all_or_nothing oneFile sound used
  refine ⟨s, ret, t, first, ran, holding, ?_, ?_⟩
  · rintro rfl
    exact outcome
  · grind

/-! ## The arguments as the new program finds them -/

structure ArgumentBlock (k : Kernel) (i : Slot) (argv : List (List Byte)) (argc sp : Nat) (pointers : List Nat) :
    Prop where
  count : argc = argv.length ∧ pointers.length = argv.length
  registers : k.machine.page (k.proc i).trapframe tfA1 = BitVec.ofNat 64 sp ∧
    k.machine.page (k.proc i).trapframe tfSp = BitVec.ofNat 64 sp ∧ sp < 2 ^ 64
  aligned : sp % 16 = 0 ∧ ∀ q ∈ pointers, q % 16 = 0
  inPage : (k.proc i).sz ≤ sp + PGSIZE ∧ sp + (argc + 1) * 8 ≤ (k.proc i).sz ∧
    ∀ (j : Nat) arg q, argv[j]? = some arg → pointers[j]? = some q →
      (k.proc i).sz ≤ q + PGSIZE ∧ q + arg.length + 1 ≤ (k.proc i).sz
  array : ∀ (j : Nat) q, (pointers ++ [0])[j]? = some q →
    userBytes k.machine (k.proc i).pagetable (sp + j * 8) 8 = wordBytes q
  strings : HoldsStrings k.machine (k.proc i).pagetable argv pointers
  below : ∀ q ∈ pointers, sp + (argc + 1) * 8 ≤ q
  apart : ∀ (j j' : Nat) arg q arg' q', j < j' → argv[j]? = some arg → pointers[j]? = some q →
    argv[j']? = some arg' → pointers[j']? = some q' → q' + arg'.length + 1 ≤ q
  exactly : pointers.map Int.ofNat = placeStrings (k.proc i).sz argv ∧ (sp : Int) = blockEnd (k.proc i).sz argv
  guard : ∀ va, (k.proc i).sz ≤ va + 2 * PGSIZE → va + PGSIZE < (k.proc i).sz →
    userAddr k.machine.page (k.proc i).pagetable va = none

section
variable {argv : List (List Byte)} {pointers : List Nat}

theorem argumentBlock_of_block {image : Image} {t : Machine} {i : Slot}
    (block : Block t image.pagetable image.sz image.sp argv pointers) (committed : Committed image t i k)
    (guard : ∀ va, image.sz ≤ va + 2 * PGSIZE → va + PGSIZE < image.sz → userAddr t.page image.pagetable va = none)
    (small : (k.proc i).sz < 2 ^ 64) : ArgumentBlock k i argv argv.length image.sp pointers := by
  have count := placeStrings_length block.placed
  have last : blockEnd image.sz argv ≤ stringsEnd image.sz argv - ((argv.length + 1) * 8 : Nat) := lower_le
  have first : stringsEnd image.sz argv ≤ image.sz := stringsEnd_le
  have aligned : blockEnd image.sz argv % 16 = 0 := lower_mod
  have low := block.low
  have end_eq := block.end_eq
  -- Every pointer belongs to a string.
  have stringOf (q : Nat) (member : q ∈ pointers) : ∃ (j : Nat) (arg : List Byte), argv[j]? = some arg ∧
    pointers[j]? = some q := by
    obtain ⟨j, entry⟩ := List.getElem?_of_mem member
    have inside := (List.getElem?_eq_some_iff.mp entry).1
    exact ⟨j, argv.get ⟨j, by omega⟩, by simp, entry⟩
  rw [committed.sz] at small
  refine ⟨⟨rfl, count⟩, ⟨committed.a1, committed.sp, by omega⟩, ⟨by omega, ?_⟩, ⟨?_, ?_, ?_⟩, ?_, ?_, ?_, ?_, ?_, ?_⟩
  · intro q member
    obtain ⟨j, arg, string, entry⟩ := stringOf q member
    exact (placeStrings_bounds block.placed string entry).1
  · rw [committed.sz]
    exact low
  · rw [committed.sz]
    omega
  · intro j arg q string entry
    obtain ⟨-, least, most⟩ := placeStrings_bounds block.placed string entry
    rw [committed.sz]
    omega
  · intro j q entry
    rw [committed.pagetable, ← block.word entry]
    exact userBytes_congr fun o _ => committed.bytes _
  · intro j arg q string entry
    rw [committed.pagetable, ← block.strings j arg q string entry]
    exact userBytes_congr fun o _ => committed.bytes _
  · intro q member
    obtain ⟨j, arg, string, entry⟩ := stringOf q member
    have least := (placeStrings_bounds block.placed string entry).2.1
    omega
  · intro j j' arg q arg' q' before string entry string' entry'
    exact placeStrings_apart block.placed before string entry string' entry'
  · rw [committed.sz]
    exact ⟨block.placed, end_eq⟩
  · intro va
    rw [committed.sz, committed.pagetable, committed.addresses]
    exact guard va

end

/-! ## `exec` -/

section
variable {L : Layout} {fs : Files} {s : State} {i : Slot} {path : List Byte} {argv : Argv}

/-- `path` names a program, and its image can be built for no arguments. -/
def RestReady (L : Layout) (fs : Files) (s : State) (i : Slot) (path : List Byte) : Prop :=
  ∃ ip, fs.namei path = some ip ∧ Ready L (s.kernel.proc i).trapframe (fs.content ip) s.kernel.machine

theorem exec_block (inv : Inv L role s.kernel) (used : (s.kernel.proc i).state ≠ .unused) (fs : Files)
    (path : List Byte) (argv : Argv) (short : ∀ arg ∈ argv.strings, arg.length < PGSIZE) :
    wp (exec L fs i path argv) (fun ret t =>
      (ret = none ↔ ¬ (RestReady L fs s i path ∧ Fits argv.strings)) ∧
      ∀ argc, ret = some argc → ∃ sp pointers, ArgumentBlock t.kernel i argv.strings argc sp pointers) s := by
  apply exec_wp
  cases found : fs.namei path with
  | none =>
    have never : ¬ RestReady L fs s i path := by
      rintro ⟨ip, named, -⟩
      rw [found] at named
      cases named
    simp only [Option.map_none, Vm.exec, wp_pure]
    exact ⟨iff_of_true rfl fun both => never both.1, by simp⟩
  | some ip =>
    have ready : RestReady L fs s i path ↔ Ready L (s.kernel.proc i).trapframe (fs.content ip) s.kernel.machine := by
      constructor
      · rintro ⟨ip', named, built⟩
        obtain rfl : ip = ip' := by simpa [found] using named
        exact built
      · exact fun built => ⟨ip, found, built⟩
    apply (exec_commits inv used (buildImage_builds inv.owns.heap short argv.fits)).mono
    rintro done k ⟨⟨role', after, -, replaced⟩, outcome⟩
    rw [ready]
    cases done with
    | false =>
      obtain ⟨t, refused⟩ := outcome
      exact ⟨iff_of_true rfl refused, by simp⟩
    | true =>
      obtain ⟨image, t, ⟨both, ⟨pointers, block⟩, guard⟩, committed⟩ := outcome
      refine ⟨iff_of_false (by simp) (not_not_intro both), ?_⟩
      rintro argc ⟨⟩
      have running : (k.proc i).state ≠ .unused := by
        rw [replaced.2.2, Function.update_self]
        exact used
      obtain ⟨X, space, mapped⟩ := (after.owns.live i id running).space
      have bound := mapped.user.bound space
      have small : (k.proc i).sz < 2 ^ 64 := by
        simp only [npages, MEMORY, PHYSTOP, KERNBASE, PGSIZE] at bound
        omega
      exact ⟨image.sp, pointers, argumentBlock_of_block block committed guard small⟩

theorem exec_argument_block (fs : Files) (path : List Byte) (argv : Argv) (sound : ∃ role, Inv L role s.kernel)
    (used : (s.kernel.proc i).state ≠ .unused) (short : ∀ arg ∈ argv.strings, arg.length < PGSIZE) :
    ∃ ret t, (exec L fs i path argv).run s = .ok (ret, t) ∧
      (∀ argc, ret = some argc → ∃ sp pointers, ArgumentBlock t.kernel i argv.strings argc sp pointers) ∧
      (ret = none ↔ ¬ (RestReady L fs s i path ∧ Fits argv.strings)) := by
  obtain ⟨role, inv⟩ := sound
  obtain ⟨ret, t, ran, result, block⟩ := (exec_block inv used fs path argv short).run_eq
  exact ⟨ret, t, ran, block, result⟩

end

theorem exec_argument_block_init : ∃ s t sp pointers, step smallLayout bootState ⟨.userinit, []⟩ = some s ∧
    (exec smallLayout oneFile 0 slashInit ⟨[slashInit], by decide⟩).run (atEcall s.kernel) = .ok (some 1, t) ∧
    ArgumentBlock t.kernel 0 [slashInit] 1 sp pointers := by
  obtain ⟨s, first, used, sound, ready⟩ := booted
  obtain ⟨ret, t, ran, block, result⟩ := exec_argument_block oneFile slashInit ⟨[slashInit], by decide⟩ sound used (by decide)
  have fits : Fits [slashInit] := by decide
  cases ret with
  | none => exact absurd ⟨⟨2, rfl, ready⟩, fits⟩ (result.mp rfl)
  | some argc =>
    obtain ⟨sp, pointers, found⟩ := block argc rfl
    obtain rfl : argc = 1 := found.count.1
    exact ⟨s, t, sp, pointers, first, ran, found⟩

end Xv6.Exec
