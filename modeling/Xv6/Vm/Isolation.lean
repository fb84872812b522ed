import Xv6.Vm.AddressSpace

namespace Xv6.Vm
open Lib ProcTable

/-! ## Memory as a process sees it -/

def byteAt (k : Kernel) (i : Slot) (va : Nat) : Option Byte :=
  (translate k.machine.page (k.proc i).pagetable (va / PGSIZE)).map fun pte =>
    getByte (k.machine.page (pte2pa pte)) (va % PGSIZE)

def permissions (k : Kernel) (i : Slot) (va : Nat) : Option Word :=
  (translate k.machine.page (k.proc i).pagetable (va / PGSIZE)).map pteFlags

-- A store instruction in user mode; false is a page fault.
def userStore (pagetable va : Nat) (b : Byte) : M Bool := do
  let m ← get
  match translate m.page pagetable (va / PGSIZE % VPNS) with
  | none => return false
  | some pte =>
    if (va < MAXVA ∨ 2 ^ 64 - MAXVA ≤ va) ∧ pte &&& PTE_U ≠ 0 ∧ pte &&& PTE_W ≠ 0 then
      memmove (pte2pa pte + va % PGSIZE) [b]
      return true
    else return false

inductive Access where
  | store (va : Nat) (b : Byte)
  | copyout (dstva : Nat) (src : List Byte)
  | sbrk (n : BitVec 32)

section
variable (L : Layout) (i : Slot)

def access : Access → K Unit
  | .store va b => do
    let p ← getProc i
    discard (vm (userStore p.pagetable va b))
  | .copyout dstva src => do
    let p ← getProc i
    discard (vm (copyout p.pagetable dstva src))
  | .sbrk n => discard (growproc L i n.toInt)

def accessStep (k : Kernel) (e : Access × List (Option Nat)) : Option Kernel :=
  match (access L i e.1).run (k.withDraws e.2) with
  | .ok (_, k') => some k'
  | .error _ => none

end

/-! ## One process at a time -/

section
variable {L : Layout} {role role' : Roles} {k k' : Kernel} {m t : Machine} {i j np : Slot} {r va tf sz : Nat}
  {X Z : Nat → Word}

theorem page_lt_user (low : va < TRAPFRAME) : va / PGSIZE < USER := by grind

theorem userStore_moves {b : Byte} (space : Space L role m r X) (mapped : Mapped L tf sz X) :
    wp (userStore r va b) (fun _ t => Moves L role m role t r X) m := by
  have below : va / PGSIZE % VPNS < VPNS := Nat.mod_lt _ (by decide)
  simp only [userStore, wp_bind, wp_get, space.translate mapped below]
  split_ifs with empty
  · simp only [wp_pure]
    exact Moves.refl space
  · dsimp only
    split_ifs with allowed
    · have user : va / PGSIZE % VPNS < USER := by
        by_contra above
        exact allowed.2.1 (mapped.fixed_user (by omega) below)
      apply (memmove_user space (space.user _ user empty).2 (Nat.mod_lt va (by decide))).bind
      intro _ t moves
      simpa only [wp_pure] using moves
    · simp only [wp_pure]
      exact Moves.refl space

theorem access_private {a : Access} (inv : Inv L role k) (used : (k.proc i).state ≠ .unused) :
    wp (access L i a) (fun _ k' => ∃ role', Private L role k i role' k') k := by
  obtain ⟨X, space, mapped⟩ := (inv.owns.live i id used).space
  cases a with
  | store va b =>
    simp only [access, wp_bind, wp_getProc, wp_discard, wp_vm]
    apply (userStore_moves space mapped).mono
    intro _ t moves
    exact ⟨role, Private.same inv used moves mapped⟩
  | copyout dstva src =>
    simp only [access, wp_bind, wp_getProc, wp_discard, wp_vm]
    apply (copyout_moves space mapped).mono
    intro _ t moves
    exact ⟨role, Private.same inv used moves mapped⟩
  | sbrk n =>
    rw [access, wp_discard]
    exact growproc_private inv used

def SameView (k k' : Kernel) (j : Slot) : Prop :=
  ∀ va, va < TRAPFRAME → byteAt k' j va = byteAt k j va ∧ permissions k' j va = permissions k j va

theorem Private.view (change : Private L role k i role' k') (inv : Inv L role k) (used : (k.proc i).state ≠ .unused)
    (usedJ : (k.proc j).state ≠ .unused) (other : j ≠ i) : k'.proc j = k.proc j ∧ SameView k k' j := by
  obtain ⟨sz, proc⟩ := change.proc
  obtain ⟨Y, moves⟩ := change.moves
  obtain ⟨X, space, mapped⟩ := (inv.owns.live j id usedJ).space
  have apart := inv.owns.distinct j i id id other usedJ used
  have same : k'.proc j = k.proc j := by rw [proc, Function.update_of_ne other]
  have space' := space.apart moves.space.heap moves.keeps apart
  refine ⟨same, fun va low => ?_⟩
  have below := page_lt_user low
  simp only [byteAt, permissions, same, space.translate mapped (user_lt_vpns below),
    space'.translate mapped (user_lt_vpns below)]
  split_ifs with empty
  · exact ⟨rfl, trivial⟩
  · have owner := (space.user _ below empty).2
    have outside : (role (pte2pa (X (va / PGSIZE)))).OutsideSpace (k.proc i).pagetable := by
      rw [owner]
      exact ⟨Role.inUse_of_spaceOf rfl, by simpa [Role.spaceOf] using apart⟩
    simp only [Option.map_some, (moves.keeps.old _ outside).2, and_self]

/-! ## Runs of one process -/

theorem accessStep_private {e : Access × List (Option Nat)} (inv : Inv L role k) (used : (k.proc i).state ≠ .unused) :
    ∃ k' role', accessStep L i k e = some k' ∧ Private L role (k.withDraws e.2) i role' k' := by
  obtain ⟨_, k', ran, role', change⟩ := (access_private (L := L) (inv.withDraws e.2) used (a := e.1)).run_eq
  exact ⟨k', role', by simp only [accessStep, ran], change⟩

theorem accesses_invisible {es : List (Access × List (Option Nat))} (inv : Inv L role k) (used : (k.proc i).state ≠ .unused)
    (usedJ : (k.proc j).state ≠ .unused) (other : j ≠ i) : ∃ k', run (accessStep L i) k es = some k' ∧ SameView k k' j := by
  induction es generalizing role k with
  | nil => exact ⟨k, rfl, fun _ _ => ⟨rfl, rfl⟩⟩
  | cons e es ih =>
    obtain ⟨k1, role1, taken, change⟩ := accessStep_private inv used (e := e)
    obtain ⟨same, view⟩ := change.view (inv.withDraws e.2) used usedJ other
    obtain ⟨sz, proc⟩ := change.proc
    have used1 : (k1.proc i).state ≠ .unused := by
      rw [proc, Function.update_self]
      exact used
    have usedJ1 : (k1.proc j).state ≠ .unused := by
      rw [same]
      exact usedJ
    obtain ⟨k', rest, later⟩ := ih change.inv used1 usedJ1
    refine ⟨k', by rw [run_cons, taken]; exact rest, fun va low => ?_⟩
    obtain ⟨bytes, flags⟩ := view va low
    obtain ⟨bytes', flags'⟩ := later va low
    exact ⟨bytes'.trans bytes, flags'.trans flags⟩

/-! ## `fork` -/

theorem kalloc_starved (short : ¬ Supply m 1) : wp kalloc (fun found _ => found = none) m := by
  unfold kalloc
  simp only [wp_bind, wp_get, wp_modify, pick_eq_none.mpr short, wp_pure]

theorem fork_starved (short : ¬ Supply k.machine 1) : ends (fork L i) (fun _ => True) (fun result _ => result = none) k := by
  have allocates : ends (allocproc L) (fun _ => True) (fun result _ => result = none) k := by
    simp only [allocproc, ends_bind, ends_get]
    cases findUnused k with
    | none => exact (ends_pure ..).mpr rfl
    | some j =>
      simp only [ends_bind]
      apply wp.ends
      rw [wp_setProc, ends_bind]
      apply wp.ends
      rw [wp_vm]
      apply (kalloc_starved short).mono
      rintro _ t rfl
      simp only [ends_bind]
      apply wp.ends
      rw [wp_setProc]
      apply (ends_true _ _).bind
      intro _ _ _
      exact (ends_pure ..).mpr rfl
  simp only [fork, ends_bind]
  apply allocates.mono
  rintro _ k1 rfl
  exact (ends_pure ..).mpr rfl

theorem fork_clean (forked : (fork L i).run k = .ok (some np, k')) : AllocClean k := by
  intro short
  have fails := (fork_starved short).of_run forked
  cases fails

theorem Twin.view (twin : Twin L role k i np) (low : va < (k.proc i).sz) :
    byteAt k i va ≠ none ∧ byteAt k np va = byteAt k i va ∧ permissions k np va = permissions k i va := by
  obtain ⟨Z, X, old, source, space, mapped, copied⟩ := twin.copied
  have page : va / PGSIZE < npages (k.proc i).sz := by
    simp only [npages, PGSIZE]
    omega
  have fits := memory_lt_user (source.user.bound old)
  have below : va / PGSIZE < USER := by omega
  have usedZ := (source.user _ below).mpr page
  have usedX := (mapped.user _ below).mpr (by rwa [twin.size])
  obtain ⟨flags, contents⟩ := copied _ page
  simp only [byteAt, permissions, old.translate source (user_lt_vpns below), space.translate mapped (user_lt_vpns below),
    usedZ, usedX, ↓reduceIte, Option.map_some, flags, contents]
  exact ⟨by simp, trivial, trivial⟩

theorem Twin.disjoint {p : Nat} (twin : Twin L role k i np) (inv : Inv L role k)
    (parent : UserPage k.machine.page (k.proc i).pagetable p) : ¬ UserPage k.machine.page (k.proc np).pagetable p := by
  intro child
  obtain ⟨Z, X, old, -, space, -, -⟩ := twin.copied
  have one := old.userPage parent
  rw [space.userPage child] at one
  exact inv.owns.distinct np i id id twin.different.symm twin.child twin.parent (Option.some.inj one)

theorem fork_isolates (sound : ∃ role, Inv L role k) (used : (k.proc i).state ≠ .unused)
    (forked : (fork L i).run k = .ok (some np, k')) :
    ((k'.proc np).sz = (k'.proc i).sz ∧ ∀ va, va < (k'.proc i).sz →
      byteAt k' i va ≠ none ∧ byteAt k' np va = byteAt k' i va ∧ permissions k' np va = permissions k' i va) ∧
    (∀ p, UserPage k'.machine.page (k'.proc i).pagetable p → ¬ UserPage k'.machine.page (k'.proc np).pagetable p) ∧
    ∀ a b, a = i ∧ b = np ∨ a = np ∧ b = i → ∀ es : List (Access × List (Option Nat)),
      ∃ t, run (accessStep L a) k' es = some t ∧ SameView k' t b := by
  obtain ⟨role, inv⟩ := sound
  obtain ⟨_, _, ran, role', after, child⟩ := (fork_twin inv used (fork_clean forked)).run_eq
  cases forked.symm.trans ran
  have twin := child np rfl
  refine ⟨⟨twin.size, fun va low => twin.view low⟩, fun p parent => twin.disjoint after parent, ?_⟩
  rintro a b (⟨rfl, rfl⟩ | ⟨rfl, rfl⟩) es
  · exact accesses_invisible after twin.parent twin.child twin.different.symm
  · exact accesses_invisible after twin.child twin.parent twin.different

end

theorem fork_isolates_init : ∃ s k', step smallLayout bootState ⟨.userinit, []⟩ = some s ∧
    (fork smallLayout 0).run s.kernel = .ok (some 1, k') ∧ byteAt k' 1 36 = byteAt k' 0 36 ∧
    ∃ t, run (accessStep smallLayout 1) k' [(.store 36 0, []), (.sbrk (-4096), [])] = some t ∧ SameView k' t 0 := by
  obtain ⟨s, first, used, rest⟩ := exists_some (o := step smallLayout bootState ⟨.userinit, []⟩)
    (P := fun s => (s.kernel.proc 0).state ≠ .unused ∧
      ((fork smallLayout 0).run s.kernel).toOption.any fun (np, k') => np = some 1 ∧ (k'.proc 0).sz = 4096) (by decide +kernel)
  obtain ⟨⟨np, k'⟩, forked, rfl, size⟩ := exists_some rest
  have started : Started smallLayout s := ⟨bootState, [], bootState_boot, by decide, first⟩
  have ran := toOption_eq_some.mp forked
  obtain ⟨⟨-, same⟩, -, apart⟩ := fork_isolates started.sound.inv used ran
  exact ⟨s, k', first, ran, (same 36 (by rw [size]; decide)).2.1, apart 1 0 (.inr ⟨rfl, rfl⟩) _⟩

end Xv6.Vm
