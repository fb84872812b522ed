import Xv6.Vm.System

namespace Xv6.Vm
open Lib ProcTable

/-! ## Page ownership over the process life cycle -/

def Started (L : Layout) (s : State) : Prop :=
  ∃ b draws, Boot L b ∧ Supply (b.kernel.withDraws draws).machine 8 ∧ step L b ⟨.userinit, draws⟩ = some s

structure Exclusive (k : Kernel) : Prop where
  nodup : k.machine.freelist.Nodup
  unowned : ∀ p ∈ k.machine.freelist, ∀ i, (k.proc i).state ≠ .unused → ¬ Owner k.toWorld i p
  justified : ∀ call ∈ k.calls, Justified call

section
variable {L : Layout} {s : State}

theorem Sound.exclusive (sound : Sound L s) : Exclusive s.kernel := by
  obtain ⟨role, inv⟩ := sound.inv
  refine ⟨inv.owns.heap.nodup, ?_, inv.calls⟩
  intro p free i used owner
  exact inv.owns.not_free id used owner free

theorem Started.sound (started : Started L s) : Sound L s := by
  obtain ⟨b, draws, boot, supply, taken⟩ := started
  refine step_sound ⟨?_, ?_⟩ taken boot.sound
  · intro starved
    exact absurd (supply.mono (by omega)) starved
  · intro _ _
    exact supply

end

/-! ## Runs from a small boot state -/

def pagesFrom (start n : Nat) : List Nat := (List.range n).map fun i => start + PGSIZE * i

def bootState : State :=
  ⟨⟨⟨⟨fun _ _ => 0, pagesFrom 0x80026000 20, []⟩, fun _ => ⟨.unused, none, 0, 0, 0, 0, 0⟩, []⟩, []⟩, none⟩

theorem bootState_boot : Boot smallLayout bootState where
  ram := by decide
  nodup := by decide
  procs _ := rfl
  rest := ⟨rfl, rfl, rfl⟩

theorem bootState_started {t : State} {es : List Event}
    (taken : run (step smallLayout) bootState (⟨.userinit, []⟩ :: es) = some t) :
    ∃ s, Started smallLayout s ∧ step smallLayout bootState ⟨.userinit, []⟩ = some s ∧
      run (step smallLayout) s es = some t := by
  obtain ⟨s, first, rest⟩ := Option.bind_eq_some_iff.mp taken
  exact ⟨s, ⟨bootState, [], bootState_boot, by decide, first⟩, first, rest⟩

/-! ## No page has two owners -/

section
variable {L : Layout} {s t : State} {es : List Event}

theorem pages_exclusive (started : Started L s) (ops : ∀ e ∈ es, e.op ≠ .userinit) (clean : Meets (step L) Clean s es)
    (taken : run (step L) s es = some t) : Exclusive t.kernel := by
  have guarded : Meets (step L) Guarded s es :=
    clean.mono fun _ e member clean => ⟨clean, fun same => absurd same (ops e member)⟩
  exact (run_sound guarded started.sound taken).exclusive

end

def forkExit : List Event := [⟨.fork 0, []⟩, ⟨.exit 1 0, []⟩, ⟨.fork 0, [some 2, none]⟩]

theorem pages_exclusive_forkExit : ∃ s t, Started smallLayout s ∧ run (step smallLayout) s forkExit = some t ∧
    t.kernel.machine.freelist.length = 4 ∧ Exclusive t.kernel := by
  obtain ⟨t, reached, count⟩ := exists_some (o := run (step smallLayout) bootState (⟨.userinit, []⟩ :: forkExit))
    (P := fun t => t.kernel.machine.freelist.length = 4) (by decide +kernel)
  obtain ⟨s, started, first, taken⟩ := bootState_started reached
  have clean : Meets (step smallLayout) Clean bootState (⟨.userinit, []⟩ :: forkExit) := by decide +kernel
  refine ⟨s, t, started, taken, count, pages_exclusive started ?_ (clean.2 s first) taken⟩
  simp [forkExit]

/-- The first `fork` fails for lack of a page table, and its slot keeps the freed `alarm_tf`; the second
fails at its first page and frees the `alarm_tf` again. -/
def staleAlarm : List Event := [⟨.fork 0, [some 0, some 0, none]⟩, ⟨.fork 0, [none]⟩]

theorem alarm_freed_twice : ∃ s t, Started smallLayout s ∧ run (step smallLayout) s staleAlarm = some t ∧
    ¬ t.kernel.machine.freelist.Nodup := by
  obtain ⟨t, reached, twice⟩ := exists_some (o := run (step smallLayout) bootState (⟨.userinit, []⟩ :: staleAlarm))
    (P := fun t => ¬ t.kernel.machine.freelist.Nodup) (by decide +kernel)
  obtain ⟨s, started, -, taken⟩ := bootState_started reached
  exact ⟨s, t, started, taken, twice⟩

/-! ## What a page table maps -/

def leafAt (page : Nat → Page) (v : Nat) : Nat → Nat → Option Word
  | 0, q =>
    let pte := page q (idx 0 v)
    if pte &&& PTE_V ≠ 0 ∧ pte &&& PTE_RWX ≠ 0 then some pte else none
  | level + 1, q =>
    let pte := page q (idx (level + 1) v)
    if pte &&& PTE_V = 0 then none
    else if pte &&& PTE_RWX ≠ 0 then some pte
    else leafAt page v level (pte2pa pte)

def translate (page : Nat → Page) (pagetable v : Nat) : Option Word := leafAt page v 2 pagetable

structure AddressSpace (page : Nat → Page) (p : Proc) : Prop where
  mapped : ∀ v, v < VPNS → (translate page p.pagetable v ≠ none ↔
    v * PGSIZE < pgRoundUp p.sz ∨ v * PGSIZE = TRAMPOLINE ∨ v * PGSIZE = TRAPFRAME)
  distinct : ∀ u v pte pte', u ≠ v → u * PGSIZE < pgRoundUp p.sz → v * PGSIZE < pgRoundUp p.sz →
    translate page p.pagetable u = some pte → translate page p.pagetable v = some pte' →
    pte2pa pte ≠ pte2pa pte'

section
variable {L : Layout} {role : Roles} {m : Machine} {k : Kernel} {i : Slot} {r v tf sz : Nat} {X : Nat → Word}

theorem Mapped.isLeaf (mapped : Mapped L tf sz X) (space : Space L role m r X) (below : v < VPNS) (used : X v ≠ 0) :
    IsLeaf (X v) := by
  by_cases user : v < USER
  · exact (space.user v user used).1
  · by_cases frame : v = USER
    · rw [frame, mapped.trapframe]
      exact isLeaf_leaf _ (by decide)
    · by_cases tramp : v = USER + 1
      · rw [tramp, mapped.trampoline]
        exact isLeaf_leaf _ (by decide)
      · exact absurd (mapped.rest v (by omega) below) used

theorem Space.translate (space : Space L role m r X) (mapped : Mapped L tf sz X) (below : v < VPNS) :
    translate m.page r v = if X v = 0 then none else some (X v) := by
  have found := space.lookup v below
  simp only [Vm.translate, leafAt]
  simp only [Vm.lookup] at found
  rcases space.table.top (idx 2 v) with zero | ⟨q, top, middle⟩
  · grind
  · have ramQ := space.heap.ram q (by simp [middle])
    simp only [top, link_valid_ne, ↓reduceIte, pte2pa_link ramQ, link_access, ne_eq, not_true_eq_false] at found ⊢
    rcases space.table.middle q _ (idx 1 v) middle with zero | ⟨b, down, bottom⟩
    · grind
    · have ramB := space.heap.ram b (by simp [bottom])
      simp only [down, link_valid_ne, ↓reduceIte, pte2pa_link ramB, link_access, not_true_eq_false]
        at found ⊢
      rw [found]
      by_cases used : X v = 0
      · simp [used]
      · have isLeaf := mapped.isLeaf space below used
        rw [if_pos ⟨isLeaf.valid, isLeaf.access⟩, if_neg used]

theorem Mapped.used_iff (mapped : Mapped L tf sz X) (space : Space L role m r X) (below : v < VPNS) :
    X v ≠ 0 ↔ v * PGSIZE < pgRoundUp sz ∨ v * PGSIZE = TRAMPOLINE ∨ v * PGSIZE = TRAPFRAME := by
  have small := mapped.user.bound space
  have size := pgRoundUp_eq small
  have high := memory_lt_user small
  have user := mapped.user v
  have rest := mapped.rest v
  rw [size, trapframe_eq, trampoline_eq]
  have scale {a b : Nat} : a * PGSIZE = b * PGSIZE ↔ a = b := Nat.mul_left_inj (by decide)
  have scale' {a b : Nat} : a * PGSIZE < b * PGSIZE ↔ a < b := Nat.mul_lt_mul_right (by decide)
  rw [scale, scale, scale']
  by_cases low : v < USER
  · rw [user low]
    omega
  · by_cases frame : v = USER
    · rw [frame, mapped.trapframe]
      simpa using (isLeaf_leaf _ (by decide)).ne_zero
    · by_cases tramp : v = USER + 1
      · rw [tramp, mapped.trampoline]
        simpa using (isLeaf_leaf _ (by decide)).ne_zero
      · rw [rest (by omega) below]
        simp
        omega

theorem Space.translate_iff (space : Space L role m r X) (mapped : Mapped L tf sz X) (below : v < VPNS) :
    Vm.translate m.page r v ≠ none ↔ v * PGSIZE < pgRoundUp sz ∨ v * PGSIZE = TRAMPOLINE ∨ v * PGSIZE = TRAPFRAME := by
  rw [space.translate mapped below, ← mapped.used_iff space below]
  by_cases zero : X v = 0
  · simp
  · rw [if_neg zero]
    exact iff_of_true (by simp) zero

theorem Inv.addressSpace (inv : Inv L role k) (live : (k.proc i).state ≠ .unused) :
    AddressSpace k.machine.page (k.proc i) := by
  obtain ⟨X, space, mapped⟩ := (inv.owns.live i id live).space
  constructor
  · intro v below
    exact space.translate_iff mapped below
  · intro u v pte pte' different lowU lowV foundU foundV same
    have small := mapped.user.bound space
    have high := memory_lt_user small
    rw [pgRoundUp_eq small] at lowU lowV
    have belowU : u < USER := by
      have := Nat.lt_of_mul_lt_mul_right lowU
      omega
    have belowV : v < USER := by
      have := Nat.lt_of_mul_lt_mul_right lowV
      omega
    rw [space.translate mapped (user_lt_vpns belowU)] at foundU
    rw [space.translate mapped (user_lt_vpns belowV)] at foundV
    split_ifs at foundU foundV with zeroU zeroV
    cases foundU
    cases foundV
    have ownerU := (space.user u belowU zeroU).2
    have ownerV := (space.user v belowV zeroV).2
    rw [same, ownerV] at ownerU
    exact different (by simpa using ownerU.symm)

end

/-! ## The address spaces of a run -/

theorem address_spaces_exact {L : Layout} {s t : State} {es : List Event} (boot : Boot L s)
    (guarded : Meets (step L) Guarded s es) (taken : run (step L) s es = some t) :
    (∀ i, (t.kernel.proc i).state ≠ .unused → AddressSpace t.kernel.machine.page (t.kernel.proc i)) ∧
      ∀ panic, t.panicked = some panic → panic = .fault ∨ panic = .initExiting := by
  have sound := run_sound guarded boot.sound taken
  obtain ⟨role, inv⟩ := sound.inv
  exact ⟨fun i live => inv.addressSpace live, sound.panicked⟩

def sbrkRun : List Event :=
  [⟨.userinit, []⟩, ⟨.growproc 0 5000, [some 3]⟩, ⟨.fork 0, []⟩, ⟨.growproc 1 (-5000), []⟩]

theorem address_spaces_exact_sbrkRun : ∃ t, run (step smallLayout) bootState sbrkRun = some t ∧
    (t.kernel.proc 0).sz = 9096 ∧ (t.kernel.proc 1).sz = 4096 ∧
    AddressSpace t.kernel.machine.page (t.kernel.proc 0) := by
  refine exists_some_of (fun t => (t.kernel.proc 0).sz = 9096 ∧ (t.kernel.proc 1).sz = 4096 ∧
    (t.kernel.proc 0).state ≠ .unused) (by decide +kernel) fun t taken ⟨parent, child, used⟩ => ?_
  exact ⟨parent, child, (address_spaces_exact bootState_boot (by decide +kernel) taken).1 0 used⟩

def shortBoot : Event := ⟨.userinit, List.replicate 6 (some 0) ++ [none]⟩

def alarmReused : List Event :=
  [⟨.userinit, []⟩, ⟨.fork 0, [some 0, some 0, none]⟩, ⟨.growproc 0 4096, []⟩, ⟨.fork 0, [none]⟩, ⟨.growproc 0 4096, []⟩]

theorem address_spaces_broken : Boot smallLayout bootState ∧
    (∃ s t, run (step smallLayout) bootState [shortBoot] = some s ∧
      ¬ AddressSpace s.kernel.machine.page (s.kernel.proc 0) ∧
      step smallLayout s ⟨.fork 0, []⟩ = some t ∧ t.panicked = some .uvmcopyPte) ∧
    ∃ t, run (step smallLayout) bootState alarmReused = some t ∧
      ¬ AddressSpace t.kernel.machine.page (t.kernel.proc 0) := by
  refine ⟨bootState_boot, ?_, ?_⟩
  · obtain ⟨s, taken, size, absent, forked⟩ := exists_some (o := run (step smallLayout) bootState [shortBoot])
      (P := fun s => (s.kernel.proc 0).sz = 4096 ∧
        translate s.kernel.machine.page (s.kernel.proc 0).pagetable 0 = none ∧
        (step smallLayout s ⟨.fork 0, []⟩).any fun t => t.panicked = some .uvmcopyPte) (by decide +kernel)
    obtain ⟨t, last, panicked⟩ := exists_some forked
    refine ⟨s, t, taken, fun space => ?_, last, panicked⟩
    exact (space.mapped 0 (by decide)).mpr (.inl (by rw [size]; decide)) absent
  · refine exists_some_of (fun t => (t.kernel.proc 0).sz = 12288 ∧
      (translate t.kernel.machine.page (t.kernel.proc 0).pagetable 1).map pte2pa = some 0x8002f000 ∧
      (translate t.kernel.machine.page (t.kernel.proc 0).pagetable 2).map pte2pa = some 0x8002f000) (by decide +kernel) ?_
    intro t taken ⟨size, first, second⟩ space
    obtain ⟨pte, one, page⟩ := Option.map_eq_some_iff.mp first
    obtain ⟨pte', two, page'⟩ := Option.map_eq_some_iff.mp second
    refine space.distinct 1 2 pte pte' (by decide) ?_ ?_ one two (page.trans page'.symm)
    · rw [size]
      decide
    · rw [size]
      decide

end Xv6.Vm
