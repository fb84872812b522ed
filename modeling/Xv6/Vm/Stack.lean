import Xv6.Vm.ArgumentBlock

namespace Xv6.Vm
open Lib

section
variable {L : Layout} {role : Roles} {m t : Machine} {r v tf sz stackbase offset : Nat} {X Y : Nat → Word} {argv : List
  (List Byte)} {file : File}

/-! ## Segments -/

def AllUser (X : Nat → Word) : Prop := ∀ v, v < USER → X v ≠ 0 → X v &&& PTE_U ≠ 0

theorem size_lt_maxva (small : npages sz ≤ MEMORY) : sz < MAXVA := by
  simp only [npages, MEMORY, MAXVA, PHYSTOP, KERNBASE, PGSIZE] at *
  omega

theorem loadLoop_moves {va size n i : Nat} (space : Space L role m r X) (mapped : Mapped L tf sz X)
    (allUser : AllUser X) (inside : n ≠ 0 → va + i + (n - 1) * PGSIZE < sz) :
    wp (loadLoop r va file offset size n i) (fun _ t => Moves L role m role t r X) m := by
  induction n generalizing m i with
  | zero =>
    simp only [loadLoop, wp_pure]
    exact Moves.refl space
  | succ n ih =>
    have last := inside (by omega)
    have small := mapped.user.bound space
    have page : (va + i) / PGSIZE < npages sz := by
      simp only [npages, PGSIZE] at *
      omega
    have fits := memory_lt_user small
    have low := size_lt_maxva small
    simp only [loadLoop, wp_bind]
    apply (walkaddr_user space mapped).mono
    rintro (_ | pa) _ ⟨rfl, found⟩
    · exfalso
      have used := (mapped.user _ (by omega)).mpr page
      rcases found (by omega) with zero | clear
      · exact used zero
      · exact allUser _ (by omega) used clear
    · obtain ⟨v, user⟩ := found
      simp only [wp_bind]
      generalize (if size - i < PGSIZE then size - i else PGSIZE) = count
      rw [← Nat.add_zero pa]
      apply (memmove_user space user (by decide)).mono
      intro _ t moves
      split_ifs
      · simp only [wp_pure]
        exact moves
      · refine (ih moves.space fun more => ?_).mono fun _ _ => moves.trans
        obtain ⟨k, rfl⟩ := Nat.exists_eq_succ_of_ne_zero more
        simp only [Nat.succ_eq_add_one, Nat.add_sub_cancel, Nat.succ_mul] at last ⊢
        omega

theorem loadseg_moves {va size : Nat} (space : Space L role m r X) (mapped : Mapped L tf sz X)
    (allUser : AllUser X) (inside : va + size ≤ sz) :
    wp (loadseg r va file offset size) (fun _ t => Moves L role m role t r X) m := by
  apply loadLoop_moves space mapped allUser
  simp only [PGSIZE]
  omega

theorem leNat_lt (bytes : List Byte) : leNat bytes < 256 ^ bytes.length := by
  induction bytes with
  | nil => simp [leNat]
  | cons b bytes ih => grind [b.isLt, leNat]

theorem field_lt (bytes : List Byte) (offset : Nat) : field bytes offset 8 < 2 ^ 64 := by
  have short : ((bytes.drop offset).take 8).length ≤ 8 := by
    simp only [List.length_take]
    omega
  calc field bytes offset 8 < 256 ^ ((bytes.drop offset).take 8).length := leNat_lt _
    _ ≤ 256 ^ 8 := Nat.pow_le_pow_right (by decide) short
    _ = 2 ^ 64 := by decide

def Building (L : Layout) (role : Roles) (m : Machine) (r tf sz : Nat) (t : Machine) : Prop :=
  ∃ role' X, Moves L role m role' t r X ∧ Mapped L tf sz X ∧ AllUser X

theorem Building.trans {role' : Roles} {u : Machine} {sz' : Nat} (moves : Moves L role m role' t r X)
    (later : Building L role' t r tf sz' u) : Building L role m r tf sz' u := by
  obtain ⟨role'', Y, moves', built⟩ := later
  exact ⟨role'', Y, moves.trans moves', built⟩

section

variable (space : Space L role m r X) (mapped : Mapped L tf sz X) (allUser : AllUser X)

include space mapped allUser

theorem uvmalloc_building (newsz : Nat) :
    wp (uvmalloc L r sz newsz) (fun sz1 t =>
      (sz1 = 0 → Building L role m r tf sz t) ∧
      (sz1 ≠ 0 → sz1 = max sz newsz ∧ Building L role m r tf sz1 t)) m := by
  apply (uvmalloc_maps space mapped.user).mono
  rintro sz1 t ⟨role', Y, moves, same, failed, grown⟩
  have fixed (u : Nat) (above : USER ≤ u) : Y u = X u := same u (.inr above)
  refine ⟨fun zero => ?_, fun positive => ?_⟩
  · have maps := failed zero
    refine ⟨role', Y, moves, mapped.resize fixed maps, ?_⟩
    intro v below used
    have kept : Y v = X v := same v (.inl ((maps v below).mp used))
    rw [kept] at used ⊢
    exact allUser v below used
  · obtain ⟨size, maps, user⟩ := grown positive
    refine ⟨size, role', Y, moves, mapped.resize fixed maps, ?_⟩
    intro v below used
    rcases user v below with kept | new
    · rw [kept] at used ⊢
      exact allUser v below used
    · exact new

theorem loadSegment_building {ph : Proghdr} (vaddr : ph.vaddr < 2 ^ 64) (memsz : ph.memsz < 2 ^ 64) :
    wp (loadSegment L r file ph sz) (fun result t => Building L role m r tf result.1 t) m := by
  have start : Building L role m r tf sz m := ⟨role, X, Moves.refl space, mapped, allUser⟩
  simp only [loadSegment]
  split_ifs with large wraps unaligned
  · simpa only [wp_pure] using start
  · simpa only [wp_pure] using start
  · apply (uvmalloc_building space mapped allUser _).bind
    rintro sz1 t ⟨failed, grown⟩
    split_ifs with zero
    · simpa only [wp_pure] using failed zero
    · simpa only [wp_pure] using (grown zero).2
  · apply (uvmalloc_building space mapped allUser _).bind
    rintro sz1 t ⟨failed, grown⟩
    split_ifs with zero
    · simpa only [wp_pure] using failed zero
    · obtain ⟨size, role', Y, moves, mapped', allUser'⟩ := grown zero
      apply (loadseg_moves moves.space mapped' allUser' _).bind
      · intro loaded u moves'
        simp only [wp_pure]
        exact ⟨role', Y, moves.trans moves', mapped', allUser'⟩
      · omega

theorem loadProgram_building (file : File)
    (n off : Nat) : wp (loadProgram L r file n off sz) (fun result t => Building L role m r tf result.1 t) m := by
  induction n generalizing role m off sz X with
  | zero =>
    simp only [loadProgram, wp_pure]
    exact ⟨role, X, Moves.refl space, mapped, allUser⟩
  | succ n ih =>
    simp only [loadProgram]
    split_ifs
    · simp only [wp_pure]
      exact ⟨role, X, Moves.refl space, mapped, allUser⟩
    · exact ih space mapped allUser _
    · apply (loadSegment_building space mapped allUser (field_lt _ _) (field_lt _ _)).bind
      rintro ⟨sz1, _ | _⟩ t ⟨role', Y, moves, mapped', allUser'⟩
      · simp only [wp_pure]
        exact ⟨role', Y, moves, mapped', allUser'⟩
      · exact (ih moves.space mapped' allUser' _).mono fun _ _ => Building.trans moves

end

open Function

/-! ## The stack -/

theorem Space.clearUser {b : Nat} (space : Space L role m r X) (below : v < USER) (used : X v ≠ 0)
    (bottom : role b = .bottom r (idx 2 v) (idx 1 v)) (written : t.page = put m.page b (idx 0 v) (X v &&& ~~~PTE_U))
    (freelist : t.freelist = m.freelist) : Moves L role m role t r (update X v (X v &&& ~~~PTE_U)) := by
  obtain ⟨isLeaf, user⟩ := space.user v below used
  refine ⟨?_, ?_, Settled.refl⟩
  · apply space.write (user_lt_vpns below) bottom (freelist ▸ space.heap) Keeps.refl written
    · intro u inside mapped
      by_cases same : u = v
      · simp [same, isLeaf.clear, pte2pa_clear, user]
      · simp only [ne_eq, same, not_false_eq_true, update_of_ne] at mapped ⊢
        exact space.user u inside mapped
    · intro p u owner
      by_cases same : u = v
      · grind [space.owned, isLeaf.clear.ne_zero, pte2pa_clear]
      · simpa [same] using space.owned p u owner
  · rw [written]
    apply keeps_store
    simp [bottom, Role.OutsideSpace, Role.spaceOf, Role.tableOf]

section

variable (space : Space L role m r X) (mapped : Mapped L tf sz X)

include space mapped

theorem uvmclear_mapped (inside : v < npages sz) :
    wp (uvmclear r (v * PGSIZE)) (fun _ t => Moves L role m role t r (update X v (X v &&& ~~~PTE_U)) ∧
      Mapped L tf sz (update X v (X v &&& ~~~PTE_U))) m := by
  have fits := memory_lt_user (mapped.user.bound space)
  have used := (mapped.user v (by omega)).mpr inside
  simp only [uvmclear, wp_bind]
  apply (walk_find space (mul_lt_maxva (by omega))).mono
  rintro _ _ ⟨rfl, ⟨-, zero⟩ | ⟨b, rfl, bottom⟩⟩
  · rw [mul_div_pgsize] at zero
    exact absurd zero used
  · rw [mul_div_pgsize] at bottom
    obtain ⟨isLeaf, -⟩ := space.user v (by omega) used
    simp only [mul_div_pgsize, wp_bind, wp_load, space.entry (user_lt_vpns (by omega)) bottom, wp_store]
    refine ⟨space.clearUser (by omega) used bottom rfl rfl, mapped.resize ?_ ?_⟩
    · intro u above
      rw [update_of_ne (by omega)]
    · intro u below
      by_cases same : u = v
      · subst same
        simpa [inside] using isLeaf.clear.ne_zero
      · simpa [same] using mapped.user u below

theorem pushStrings_moves {sp : Nat} : wp (pushStrings r stackbase argv sp) (fun _ t => Moves L role m role t r X) m := by
  induction argv generalizing m sp with
  | nil =>
    simp only [pushStrings, wp_pure]
    exact Moves.refl space
  | cons arg argv ih =>
    simp only [pushStrings]
    split_ifs
    · simp only [wp_pure]
      exact Moves.refl space
    · apply (copyout_moves space mapped).bind
      rintro (_ | _) t moves
      · grind [wp_pure]
      · simp only [↓reduceIte, wp_bind]
        apply (ih moves.space).mono
        rintro (_ | _) u moves' <;> simp only [wp_pure] <;> exact moves.trans moves'

theorem pushArgs_moves {sp : Nat} : wp (pushArgs r stackbase sp argv) (fun _ t => Moves L role m role t r X) m := by
  simp only [pushArgs, wp_bind]
  apply (pushStrings_moves space mapped).mono
  rintro (_ | ⟨bottom, pointers⟩) t moves
  · simp only [wp_pure]
    exact moves
  · dsimp only
    split_ifs
    · simp only [wp_pure]
      exact moves
    · apply (copyout_moves moves.space mapped).bind
      rintro (_ | _) u moves' <;> simp only [Bool.false_eq_true, ↓reduceIte, wp_pure] <;>
        exact moves.trans moves'

end

structure Prepared (L : Layout) (tf sz : Nat) (X : Nat → Word) : Prop where
  mapped : Mapped L tf sz X
  pages : ∃ n, sz = (n + 2) * PGSIZE ∧ X n &&& PTE_U = 0 ∧ X (n + 1) &&& PTE_U ≠ 0

theorem buildStack_prefix (space : Space L role m r X) (mapped : Mapped L tf sz X) (allUser : AllUser X) :
    (∃ role' Y u sz', Moves L role m role' u r Y ∧ Mapped L tf sz' Y ∧
      ∀ argv Q, Q (sz', none) u → wp (buildStack L r argv sz) Q m) ∨
    ∃ role' Y u sz', Moves L role m role' u r Y ∧ Prepared L tf sz' Y ∧
      ∀ argv Q, wp (pushArgs r (sz' - PGSIZE) sz' argv) (fun sp => Q (sz', sp)) u → wp (buildStack L r argv sz) Q m := by
  have small := mapped.user.bound space
  have rounded : pgRoundUp sz = npages sz * PGSIZE := pgRoundUp_eq small
  have mapped' : Mapped L tf (pgRoundUp sz) X := by
    apply mapped.resize (fun _ _ => rfl)
    rw [rounded, npages_mul]
    exact mapped.user
  obtain ⟨sz1, t, ran, failed, grown⟩ :=
    (uvmalloc_building space mapped' allUser (pgRoundUp sz + 2 * PGSIZE)).run_eq
  by_cases zero : sz1 = 0
  · obtain ⟨role', Y, moves, built, -⟩ := failed zero
    refine .inl ⟨role', Y, t, pgRoundUp sz, moves, built, fun argv Q post => ?_⟩
    simpa only [buildStack, wp_bind, wp_of_run ran, zero, ↓reduceIte, wp_pure] using post
  · obtain ⟨size, role', Y, moves, built, allUser'⟩ := grown zero
    have whole : sz1 = (npages sz + 2) * PGSIZE := by
      rw [size, rounded]
      simp only [PGSIZE]
      omega
    have guard : sz1 - 2 * PGSIZE = npages sz * PGSIZE := by
      omega
    have count : npages sz1 = npages sz + 2 := by
      rw [whole, npages_mul]
    have fits := memory_lt_user (built.user.bound moves.space)
    obtain ⟨_, u, ran', moves', cleared⟩ :=
      (uvmclear_mapped (v := npages sz) moves.space built (by omega)).run_eq
    refine .inr ⟨role', _, u, sz1, moves.trans moves', ⟨cleared, npages sz, whole, ?_, ?_⟩, fun argv Q post => ?_⟩
    · grind
    · rw [update_of_ne (by omega)]
      exact allUser' _ (by omega) ((built.user _ (by omega)).mpr (by omega))
    · simp only [buildStack, wp_bind, wp_of_run ran, zero, ↓reduceIte, guard, wp_of_run ran']
      apply post.mono
      intro sp u' rest
      simpa only [wp_pure] using rest

/-! ## `exec` up to its commit -/

def finishImage (L : Layout) (r sz entry : Nat) (argv : List (List Byte)) : M (Option Image) := do
  match ← pushArgs r (sz - PGSIZE) sz argv with
  | none =>
    procFreepagetable L r sz
    return none
  | some sp => return some ⟨r, sz, sp, entry⟩

theorem buildImage_prefix (heap : Heap L role m.freelist) (tf : Nat) (file : File) :
    (∃ role' u, Undone L role m role' u ∧ ∀ argv Q, Q none u → wp (buildImage L tf file argv) Q m) ∨
    ∃ r sz entry role' u X, role r = .free ∧ Moves L role m role' u r X ∧ Prepared L tf sz X ∧
      ∀ argv Q, wp (finishImage L r sz entry argv) Q u → wp (buildImage L tf file argv) Q m := by
  by_cases bad : (readAt file 0 sizeofElfhdr).length ≠ sizeofElfhdr ∨ (elfhdr (readAt file 0 sizeofElfhdr)).magic ≠ ELF_MAGIC
  · refine .inl ⟨role, m, Undone.same heap rfl rfl, fun argv Q post => ?_⟩
    simpa only [buildImage, bad, ↓reduceIte, wp_pure] using post
  obtain ⟨created, t, made, role1, outcome⟩ := (procPagetable_creates heap tf).run_eq
  cases created with
  | none => grind [buildImage, wp_bind, wp_of_run, wp_pure]
  | some r =>
    obtain ⟨new, -, X, mapped, moves⟩ := outcome
    have allUser : AllUser X := by
      intro v below used
      exact absurd ((mapped.user v below).mp used) (by simp [npages, PGSIZE])
    have giveUp {role2 : Roles} {u : Machine} {Y : Nat → Word} {size : Nat} (moves2 : Moves L role m role2 u r Y)
        (built : Mapped L tf size Y) :
        ∃ role3 u', (procFreepagetable L r size).run u = .ok ((), u') ∧ Undone L role m role3 u' := by
      obtain ⟨_, u', freed, role3, gone⟩ := (procFreepagetable_gone moves2.space built).run_eq
      obtain ⟨role4, undone⟩ := creates_none (P := fun _ => True) (F := fun _ _ => True) heap new moves2 gone
      exact ⟨role4, u', freed, undone⟩
    obtain ⟨⟨size, loaded⟩, u, ran, role2, Y, moves2, built, allUser2⟩ :=
      (loadProgram_building moves.space mapped allUser file (elfhdr (readAt file 0 sizeofElfhdr)).phnum
        ((elfhdr (readAt file 0 sizeofElfhdr)).phoff % 2 ^ 32)).run_eq
    cases loaded with
    | false =>
      obtain ⟨role3, u', freed, undone⟩ := giveUp (moves.trans moves2) built
      refine .inl ⟨role3, u', undone, fun argv Q post => ?_⟩
      simpa only [buildImage, bad, ↓reduceIte, wp_bind, wp_of_run made, wp_of_run ran, wp_of_run freed, wp_pure]
        using post
    | true =>
      rcases buildStack_prefix moves2.space built allUser2 with
        ⟨role3, Z, v, size', moves3, built3, stack⟩ | ⟨role3, Z, v, size', moves3, prepared, stack⟩
      · obtain ⟨role4, u', freed, undone⟩ := giveUp ((moves.trans moves2).trans moves3) built3
        refine .inl ⟨role4, u', undone, fun argv Q post => ?_⟩
        simp only [buildImage, bad, ↓reduceIte, wp_bind, wp_of_run made, wp_of_run ran]
        apply stack
        simpa only [wp_bind, wp_of_run freed, wp_pure] using post
      · refine .inr ⟨r, size', (elfhdr (readAt file 0 sizeofElfhdr)).entry, role3, v, Z, new,
          (moves.trans moves2).trans moves3, prepared, fun argv Q post => ?_⟩
        simp only [buildImage, bad, ↓reduceIte, wp_bind, wp_of_run made, wp_of_run ran]
        apply stack
        simp only [finishImage, wp_bind] at post
        apply post.mono
        rintro (_ | sp) u' rest
        · exact rest
        · exact rest

theorem buildImage_creates (heap : Heap L role m.freelist) (tf : Nat) (file : File) (argv : List (List Byte)) :
    wp (buildImage L tf file argv) (fun image t => ∃ role', match image with
      | none => Undone L role m role' t
      | some image => role image.pagetable = .free ∧ ∃ X, Mapped L tf image.sz X ∧
          Moves L role m role' t image.pagetable X) m := by
  rcases buildImage_prefix heap tf file with
    ⟨role', u, undone, fails⟩ | ⟨r, sz, entry, role', u, X, new, moves, prepared, finish⟩
  · exact fails argv _ ⟨role', undone⟩
  · apply finish
    simp only [finishImage, wp_bind]
    apply (pushArgs_moves moves.space prepared.mapped).mono
    rintro (_ | sp) t moves'
    · simp only [wp_bind]
      apply (procFreepagetable_gone moves'.space prepared.mapped).mono
      rintro _ u' ⟨role2, gone⟩
      simp only [wp_pure]
      exact creates_none (P := fun _ => True) (F := fun _ _ => True) heap new (moves.trans moves') gone
    · simp only [wp_pure]
      exact ⟨role', new, X, prepared.mapped, moves.trans moves'⟩

theorem Prepared.stackPage (prepared : Prepared L tf sz X) (space : Space L role m r X) :
    ∃ base, sz = base + PGSIZE ∧ base % PGSIZE = 0 ∧ StackPage L role m r base X ∧
      ∀ va, base ≤ va + PGSIZE → va < base → userAddr m.page r va = none := by
  obtain ⟨n, rfl, guard, unguarded⟩ := prepared.pages
  have user := prepared.mapped.userSpace space
  have count := npages_mul (n + 2)
  have fits := memory_lt_user (prepared.mapped.user.bound space)
  refine ⟨(n + 1) * PGSIZE, by simp only [PGSIZE]; omega, by simp, ⟨user, ?_, ?_⟩, ?_⟩
  · simp only [PGSIZE]
    omega
  · intro va low high
    have page : va / PGSIZE = n + 1 := by
      simp only [PGSIZE] at *
      omega
    have below : va < MAXVA := by grind
    rw [user.userAddr, page, if_pos ⟨below, unguarded⟩]
    simp
  · intro va low high
    have page : va / PGSIZE = n := by
      simp only [PGSIZE] at *
      omega
    rw [user.userAddr, page, if_neg fun both => both.2 guard]

def Ready (L : Layout) (tf : Nat) (file : File) (m : Machine) : Prop :=
  ∃ image t, (buildImage L tf file []).run m = .ok (some image, t)

def Builds (L : Layout) (tf : Nat) (file : File) (argv : List (List Byte)) (m : Machine) : Option Image → Machine → Prop
  | none, _ => ¬ (Ready L tf file m ∧ Fits argv)
  | some image, t => (Ready L tf file m ∧ Fits argv) ∧
      (∃ pointers, Block t image.pagetable image.sz image.sp argv pointers) ∧
      ∀ va, image.sz ≤ va + 2 * PGSIZE → va + PGSIZE < image.sz → userAddr t.page image.pagetable va = none

theorem finishImage_block {entry : Nat} (space : Space L role m r X)
    (prepared : Prepared L tf sz X) (short : ∀ arg ∈ argv, arg.length < PGSIZE) (few : argv.length < MAXARG) :
    wp (finishImage L r sz entry argv) (fun image t => match image with
      | none => ¬ Fits argv
      | some image => Fits argv ∧ (∃ pointers, Block t image.pagetable image.sz image.sp argv pointers) ∧
          ∀ va, image.sz ≤ va + 2 * PGSIZE → va + PGSIZE < image.sz → userAddr t.page image.pagetable va = none) m := by
  obtain ⟨base, rfl, aligned, stack, guard⟩ := prepared.stackPage space
  have fits : Fits argv ↔ (base : Int) ≤ blockEnd (base + PGSIZE : Nat) argv := by
    rw [fits_iff ((base + PGSIZE : Nat) : Int) (by simp only [PGSIZE] at *; omega)]
    omega
  simp only [finishImage, wp_bind, Nat.add_sub_cancel]
  apply (pushArgs_places stack short few).mono
  rintro (_ | sp) t ⟨moves, outcome⟩
  · simp only [wp_bind]
    apply (procFreepagetable_gone moves.space prepared.mapped).mono
    intro _ u _
    simp only [wp_pure]
    rw [fits]
    omega
  · obtain ⟨pointers, block⟩ := outcome
    have user := (stack.moves moves).user
    simp only [wp_pure]
    refine ⟨?_, ⟨pointers, block⟩, fun va low high => ?_⟩
    · rw [fits, ← block.end_eq]
      have := block.low
      omega
    · grind [stack.user.userAddr, user.userAddr]

theorem buildImage_builds (heap : Heap L role m.freelist)
    (short : ∀ arg ∈ argv, arg.length < PGSIZE) (few : argv.length < MAXARG) :
    wp (buildImage L tf file argv) (Builds L tf file argv m) m := by
  rcases buildImage_prefix heap tf file with
    ⟨role', u, undone, fails⟩ | ⟨r, sz, entry, role', u, X, new, moves, prepared, finish⟩
  · have never : ¬ Ready L tf file m := by
      rintro ⟨image, t, ran⟩
      have none := fails [] (fun image _ => image = none) rfl
      rw [wp_of_run ran] at none
      cases none
    exact fails argv _ fun both => never both.1
  · have ready : Ready L tf file m := by
      obtain ⟨image, t, ran, outcome⟩ :=
        (finish [] _ (finishImage_block moves.space prepared (by simp) (by decide))).run_eq
      cases image with
      | none => exact absurd (by decide : Fits []) outcome
      | some image => exact ⟨image, t, ran⟩
    apply finish
    apply (finishImage_block moves.space prepared short few).mono
    rintro (_ | image) t outcome
    · exact fun both => outcome both.2
    · exact ⟨⟨ready, outcome.1⟩, outcome.2⟩

end

end Xv6.Vm
