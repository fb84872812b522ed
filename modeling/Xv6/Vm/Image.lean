import Xv6.Vm.Grow

namespace Xv6.Vm
open Lib

/-! ## How many pages a new mapping takes

`mappages` needs two pages where the table has no part for the address yet, and none where it has a
bottom page. -/

theorem Supply.mono {m : Machine} {a b : Nat} (supply : Supply m b) (fewer : a ≤ b) : Supply m a :=
  ⟨by have := supply.1; omega, fun j inside => supply.2 j (by omega)⟩

theorem Draws.refl {m t : Machine} (freelist : t.freelist = m.freelist) (draws : t.draws = m.draws) : Draws m t 0 := by
  intro n
  simp only [Supply, freelist, draws, Nat.add_zero]

section
variable {L : Layout} {role role' : Roles} {m t : Machine} {r v q b : Nat} {X : Nat → Word}

section

variable (space : Space L role m r X)

include space

theorem walk_fresh {va : Nat} (below : va < MAXVA) (empty : m.page r (px 2 va) = 0) :
    wp (walk r va true) (fun found t => (found = none → ¬ Supply m 2) ∧ (found ≠ none → Draws m t 2) ∧
      ∀ i, i ≠ px 2 va → t.page r i = m.page r i) m := by
  have high : ¬ MAXVA ≤ va := by omega
  simp only [walk, high, ↓reduceIte, wp_bind]
  apply walkLevel_grow space.heap empty
  · intro t short page _
    simp only [wp_pure]
    refine ⟨fun _ supply => short (supply.mono (by decide)), by simp, ?_⟩
    simp [page]
  · intro q t free heap page drawn
    have notRoot : r ≠ q := role_ne space.table.root free (by simp)
    have empty' : t.page q (px 1 va) = 0 := by simp [page, put_apply, notRoot.symm]
    have root (i : Fin 512) (other : i ≠ px 2 va) : t.page r i = m.page r i := by
      simp [page, put_apply, other, notRoot]
    simp only [wp_bind]
    apply walkLevel_grow heap empty'
    · intro u short page' _
      simp only [wp_pure]
      refine ⟨fun _ supply => short ((drawn 1).mp supply), by simp, ?_⟩
      simpa [page'] using root
    · intro b u free' _ page' drawn'
      simp only [wp_pure]
      refine ⟨by simp, fun _ => drawn.trans drawn', ?_⟩
      intro i other
      have notRoot' : r ≠ b := by
        rintro rfl
        simp [notRoot, space.table.root] at free'
      simp only [page', put_apply, notRoot, false_and, ↓reduceIte, Function.update_of_ne notRoot']
      exact root i other

theorem walk_present {va : Nat} {Q : Option (Nat × Fin 512) → Machine → Prop}
    (below : va < MAXVA) (bottom : role b = .bottom r (px 2 va) (px 1 va)) :
    wp (walk r va true) Q m ↔ Q (some (b, px 0 va)) m := by
  obtain ⟨q, middle, down⟩ := space.table.middleBack b _ _ bottom
  have top := space.table.topBack q _ middle
  have high : ¬ MAXVA ≤ va := by omega
  simp only [walk, high, ↓reduceIte, wp_bind]
  rw [walkLevel_link top (space.heap.ram q (by simp [middle]))]
  simp only [wp_bind]
  rw [walkLevel_link down (space.heap.ram b (by simp [bottom])), wp_pure]

theorem Space.bottom_of_mapped (below : v < VPNS) (mapped : X v ≠ 0) : ∃ b, role b = .bottom r (idx 2 v) (idx 1 v) := by
  by_contra missing
  apply mapped
  rw [← space.lookup v below]
  exact space.table.lookup_missing space.heap.ram (not_exists.mp missing)

variable {perm : Word}

theorem mappages_fresh {pa : Nat} (below : v < USER + 2) (empty : m.page r (idx 2 v) = 0) (unmapped : X v = 0) :
    wp (mappages r (v * PGSIZE) PGSIZE pa perm) (fun mapped t => (mapped = false → ¬ Supply m 2) ∧
      (mapped = true → Draws m t 2) ∧ ∀ i, i ≠ idx 2 v → t.page r i = m.page r i) m := by
  have index : px 2 (v * PGSIZE) = idx 2 v := by rw [px_eq_idx, mul_div_pgsize]
  have fresh := walk_fresh space (mul_lt_maxva below) (by rwa [index])
  rw [index] at fresh
  refine mappages_rule space below unmapped fresh ?_ ?_
  · rintro role' t - ⟨failed, -, root⟩
    exact ⟨fun _ => failed rfl, nofun, root⟩
  · rintro role' b t grown bottom ⟨-, drawn, root⟩
    have notRoot : r ≠ b := role_ne grown.1.table.root bottom (by simp)
    refine ⟨nofun, fun _ => drawn nofun, fun i other => ?_⟩
    exact (congrFun (put_other notRoot _ _) i).trans (root i other)

theorem mappages_present {pa : Nat} (below : v < USER + 2)
    (bottom : role b = .bottom r (idx 2 v) (idx 1 v)) (unmapped : X v = 0) :
    wp (mappages r (v * PGSIZE) PGSIZE pa perm) (fun mapped t => mapped = true ∧ Draws m t 0 ∧
      t.page r = m.page r) m := by
  have present : role b = .bottom r (px 2 (v * PGSIZE)) (px 1 (v * PGSIZE)) := by
    rw [px_eq_idx, px_eq_idx, mul_div_pgsize]
    exact bottom
  have found : wp (walk r (v * PGSIZE) true) (fun found t => found = some (b, px 0 (v * PGSIZE)) ∧ t = m) m :=
    (walk_present space (mul_lt_maxva below) present).mpr ⟨rfl, rfl⟩
  refine mappages_rule space below unmapped found (fun _ _ _ => (nomatch ·.1)) ?_
  rintro role' b' t grown - ⟨same, rfl⟩
  obtain ⟨rfl, -⟩ := Prod.mk.inj (Option.some.inj same)
  have notRoot : r ≠ b' := role_ne space.table.root bottom (by simp)
  exact ⟨rfl, Draws.refl rfl rfl, put_other notRoot _ _⟩

end

end

open Function

/-! ## The address space of a process -/

structure Mapped (L : Layout) (trapframe sz : Nat) (X : Nat → Word) : Prop where
  user : Maps X (npages sz)
  trapframe : X USER = leaf trapframe (PTE_R ||| PTE_W)
  trampoline : X (USER + 1) = leaf L.trampoline (PTE_R ||| PTE_X)
  rest : ∀ v, USER + 2 ≤ v → v < VPNS → X v = 0

theorem trapframe_eq : TRAPFRAME = USER * PGSIZE := by decide

theorem trampoline_eq : TRAMPOLINE = (USER + 1) * PGSIZE := by decide

section
variable {L : Layout} {role role' role'' : Roles} {m t : Machine} {r tf sz sz' : Nat} {X Y : Nat → Word}

theorem Mapped.resize (mapped : Mapped L tf sz X) (fixed : ∀ u, USER ≤ u → Y u = X u) (user : Maps Y (npages sz')) :
    Mapped L tf sz' Y where
  user := user
  trapframe := (fixed _ (Nat.le_refl _)).trans mapped.trapframe
  trampoline := (fixed _ (Nat.le_succ _)).trans mapped.trampoline
  rest v above below := (fixed v (by omega)).trans (mapped.rest v above below)

/-! ## Freeing it -/

theorem Moves.gone {t' : Machine} (moves : Moves L role m role' t r X)
    (releases : Releases role m.freelist role' t.freelist r) (gone : Gone L role' t role'' t' r) : Gone L role m role'' t' r :=
  ⟨gone.heap, moves.keeps.trans gone.keeps, releases.trans gone.releases, gone.gone⟩

theorem uvmfree_gone (space : Space L role m r X) (maps : Maps X (npages sz)) (rest : ∀ v, USER ≤ v → v < VPNS → X v = 0) :
    wp (uvmfree L r sz) (fun _ t => ∃ role', Gone L role m role' t r) m := by
  have small := maps.bound space
  have fits := memory_lt_user small
  simp only [uvmfree]
  split_ifs with positive
  · have unmap := uvmunmap_user (v := 0) (n := npages sz) space
      (fun u _ inside => (maps u (by omega)).mpr (by omega)) (by omega)
    rw [pgRoundUp_eq small, mul_div_pgsize, wp_bind]
    apply unmap.mono
    rintro _ t ⟨role', moves, releases⟩
    apply (freewalk_root (moves.space.husk _)).mono
    · rintro _ u ⟨role'', gone⟩
      exact ⟨role'', moves.gone releases gone⟩
    · intro v below
      simp only [cut]
      split_ifs with inside
      · rfl
      · by_cases user : v < USER
        · by_contra used
          exact inside ⟨Nat.zero_le v, by simpa using (maps v user).mp used⟩
        · exact rest v (by omega) below
  · obtain rfl : sz = 0 := by omega
    apply freewalk_root (space.husk _)
    intro v below
    by_cases user : v < USER
    · by_contra used
      exact absurd ((maps v user).mp used) (by simp [npages, PGSIZE])
    · exact rest v (by omega) below

theorem isLeaf_trapframe (mapped : Mapped L tf sz X) : IsLeaf (X USER) := by
  rw [mapped.trapframe]
  exact isLeaf_leaf _ (by decide)

theorem isLeaf_trampoline (mapped : Mapped L tf sz X) : IsLeaf (X (USER + 1)) := by
  rw [mapped.trampoline]
  exact isLeaf_leaf _ (by decide)

theorem procFreepagetable_gone (space : Space L role m r X) (mapped : Mapped L tf sz X) :
    wp (procFreepagetable L r sz) (fun _ t => ∃ role', Gone L role m role' t r) m := by
  simp only [procFreepagetable, wp_bind, trapframe_eq, trampoline_eq]
  apply (uvmunmap_fixed space (by omega) (by omega) (isLeaf_trampoline mapped)).mono
  rintro _ t ⟨freelist, moves⟩
  have trapframe : IsLeaf (update X (USER + 1) 0 USER) := by
    rw [update_of_ne (by omega)]
    exact isLeaf_trapframe mapped
  apply (uvmunmap_fixed moves.space (by omega) (by omega) trapframe).bind
  rintro _ u ⟨freelist', moves'⟩
  have releases : Releases role m.freelist role u.freelist r :=
    ⟨fun _ => .inl rfl, by rw [freelist', freelist]⟩
  have user : Maps (update (update X (USER + 1) 0) USER 0) (npages sz) := by grind [mapped.user.congr]
  apply (uvmfree_gone moves'.space user _).mono
  · rintro _ u' ⟨role', gone⟩
    exact ⟨role', (moves.trans moves').gone releases gone⟩
  · intro v above below
    by_cases first : v = USER
    · simp [first]
    · by_cases second : v = USER + 1
      · simp [second]
      · grind [mapped.rest]

/-! ## Making it -/

structure Undone (L : Layout) (role : Roles) (m : Machine) (role' : Roles) (t : Machine) : Prop where
  heap : Heap L role' t.freelist
  keeps : Keeps Role.InUse role m.page role' t.page
  settled : Settled role role'

theorem Undone.same (heap : Heap L role m.freelist) (page : t.page = m.page) (freelist : t.freelist = m.freelist) :
    Undone L role m role t :=
  ⟨freelist ▸ heap, page ▸ Keeps.refl, Settled.refl⟩

theorem Undone.free_iff (undone : Undone L role m role' t) (settled : ∀ p, role p ≠ .scratch) (p : Nat) :
    role' p = .free ↔ role p = .free := by
  constructor
  · grind [Role.inUse_or, undone.settled.none, undone.keeps.old]
  · grind [Role.inUse_or, undone.settled.none, undone.settled.scratch, undone.keeps.new]

def Creates (L : Layout) (role : Roles) (m : Machine) (P : (Nat → Word) → Prop) (F : Nat → Machine → Prop)
    (created : Option Nat) (t : Machine) : Prop :=
  ∃ role', match created with
    | none => Undone L role m role' t
    | some r => role r = .free ∧ F r t ∧ ∃ X, P X ∧ Moves L role m role' t r X

section

variable (heap : Heap L role m.freelist)

include heap

theorem uvmcreate_creates :
    wp uvmcreate (Creates L role m (· = fun _ => 0) fun r t => Draws m t 1 ∧ ∀ i, t.page r i = 0) m := by
  simp only [uvmcreate, wp_bind]
  apply kalloc_rule heap
  · intro t _ page freelist
    simp only [wp_pure]
    exact ⟨role, Undone.same heap page freelist⟩
  · intro r t free heap' page drawn
    simp only [wp_bind, wp_setPage, wp_pure]
    have outside (p : Nat) : (role p).spaceOf ≠ some r := heap.childless (by simp [free]) p
    have alone {p : Nat} {ρ : Role} (use : update role r (.root r) p = ρ) (inside : ρ.spaceOf = some r) :
        ρ = .root r := by grind
    have root : Heap L (update role r (.root r)) t.freelist := by
      have assigned := heap'.assign_root (q := r) (by simp)
      rwa [update_idem] at assigned
    refine ⟨update role r (.root r), free, ⟨drawn, by simp⟩, _, rfl, ⟨root, ?_, ?_, ?_, ?_⟩, ?_,
      settled_update (by simp [free]) (by simp) (by simp)⟩
    · constructor
      · simp
      · simp
      · intro q i middle
        exact absurd (alone middle rfl) (by simp)
      · intro q i j middle
        exact absurd (alone middle rfl) (by simp)
      · intro b i j bottom
        exact absurd (alone bottom rfl) (by simp)
    · intro v _
      simp [lookup]
    · simp
    · intro p v user
      exact absurd (alone user rfl) (by simp)
    · rw [page, update_idem]
      apply keeps_update
      · simp [free, Role.OutsideSpace, Role.InUse]
      · simp [Role.OutsideSpace, Role.spaceOf, Role.tableOf]

theorem creates_none {u : Machine} {P : (Nat → Word) → Prop} {F : Nat → Machine → Prop} (new : role r = .free)
    (moves : Moves L role m role' t r X)
    (gone : Gone L role' t role'' u r) : Creates L role m P F none u := by
  have keeps := moves.keeps.trans gone.keeps
  refine ⟨role'', gone.heap, ⟨?_, ?_⟩, moves.settled.trans gone.releases.settled⟩
  · intro p inUse
    exact keeps.old p ⟨inUse, heap.childless (by simp [new]) p⟩
  · intro p inUse
    exact keeps.new p ⟨inUse, gone.gone p⟩

theorem procPagetable_creates (tf : Nat) :
    wp (procPagetable L tf) (Creates L role m (Mapped L tf 0) fun r t => Draws m t 3 ∧ t.page r 0 = 0) m := by
  simp only [procPagetable, wp_bind, trapframe_eq, trampoline_eq]
  apply (uvmcreate_creates heap).mono
  rintro (_ | r) t ⟨role', outcome⟩
  · simp only [wp_pure]
    exact ⟨role', outcome⟩
  · obtain ⟨new, ⟨drawn, bare⟩, _, rfl, moves⟩ := outcome
    simp only [wp_bind]
    apply ((mappages_fixed moves.space (by omega) (by omega) rfl).and
      (mappages_fresh moves.space (by omega) (bare _) rfl)).mono
    rintro (_ | _) t1 ⟨⟨role1, moves1⟩, -, drawn1, root1⟩
    · simp only [Bool.false_eq_true, ↓reduceIte, wp_bind] at moves1 ⊢
      have nothing : Maps (fun _ => 0) (npages 0) := by
        intro v _
        simp [npages, PGSIZE]
      apply (uvmfree_gone moves1.space nothing fun _ _ _ => rfl).mono
      rintro _ u ⟨role2, gone⟩
      simp only [wp_pure]
      exact creates_none heap new (moves.trans moves1) gone
    · simp only [↓reduceIte, wp_bind] at moves1 ⊢
      have mapped : update (fun _ => (0 : Word)) (USER + 1) (leaf L.trampoline (PTE_R ||| PTE_X)) (USER + 1) ≠ 0 := by
        simpa using (isLeaf_leaf L.trampoline (by decide)).ne_zero
      -- The trapframe lies next to the trampoline, so its part of the table is there already.
      obtain ⟨b, bottom⟩ := moves1.space.bottom_of_mapped (by decide) mapped
      have neighbour : role1 b = .bottom r (idx 2 USER) (idx 1 USER) := bottom
      apply ((mappages_fixed moves1.space (by omega) (by omega) (by simp)).and
        (mappages_present moves1.space (by omega) neighbour (by simp))).mono
      rintro _ t2 ⟨⟨role2, moves2⟩, rfl, drawn2, root2⟩
      simp only [↓reduceIte, wp_pure] at moves2 ⊢
      refine ⟨role2, new, ⟨(drawn.trans (drawn1 rfl)).trans drawn2, ?_⟩, _, ?_, (moves.trans moves1).trans moves2⟩
      · rw [root2, root1 0 (by decide), bare]
      · constructor
        · intro v below
          rw [update_of_ne (by omega), update_of_ne (by omega)]
          simp [npages, PGSIZE]
        · simp
        · simp
        · grind

end

end

end Xv6.Vm
