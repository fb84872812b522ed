import Xv6.Vm.AddressSpace

namespace Xv6.Vm
open Lib ProcTable

/-! ## Page tables of processes -/

/-- Every page of memory has a role, and those of `r` hold the page table and the memory of a process
with the trapframe `tf` and the size `sz`. -/
structure UserTable (L : Layout) (role : Roles) (m : Machine) (r tf sz : Nat) : Prop where
  settled : ∀ p, role p ≠ .scratch
  space : ∃ X, Space L role m r X ∧ Mapped L tf sz X

def MapsBelow (page : Nat → Page) (r sz : Nat) : Prop :=
  ∀ v, v < VPNS → (translate page r v ≠ none ↔
    v * PGSIZE < pgRoundUp sz ∨ v * PGSIZE = TRAMPOLINE ∨ v * PGSIZE = TRAPFRAME)

/-- Freeing in `t` the page table of `r` appends to the free list, each once, the pages that the table
had in `m` or that were free in `m`, and that are not free in `t`. -/
def FreesTaken (L : Layout) (m t : Machine) (r sz : Nat) : Prop :=
  ∃ u pages, (procFreepagetable L r sz).run t = .ok ((), u) ∧ u.freelist = pages ++ t.freelist ∧ pages.Nodup ∧
    ∀ p, p ∈ pages ↔ (TablePage m.page r p ∨ UserPage m.page r p ∨ p ∈ m.freelist) ∧ p ∉ t.freelist

section
variable {L : Layout} {role role' : Roles} {m t : Machine} {r tf sz oldsz newsz child : Nat} {X Y : Nat → Word}

theorem Space.page_iff (space : Space L role m r X) (p : Nat) :
    TablePage m.page r p ∨ UserPage m.page r p ↔ (role p).spaceOf = some r :=
  ⟨fun page => page.elim space.tablePage space.userPage, space.pageOf⟩

theorem Moves.pool (moves : Moves L role m role' t r Y) (settled : ∀ p, role p ≠ .scratch) (p : Nat) :
    role' p = .free ∨ (role' p).spaceOf = some r ↔ role p = .free ∨ (role p).spaceOf = some r := by
  constructor
  · intro after
    rcases Role.inUse_or (role p) with nothing | free | lost | inUse
    · grind [moves.settled.none]
    · exact .inl free
    · exact absurd lost (settled p)
    · by_contra outside
      rw [(moves.keeps.old p ⟨inUse, fun inside => outside (.inr inside)⟩).1] at after
      exact outside after
  · intro before
    rcases Role.inUse_or (role' p) with nothing | free | lost | inUse
    · grind [moves.settled.none]
    · exact .inl free
    · exact absurd (moves.settled.scratch p lost) (settled p)
    · by_contra outside
      rw [← moves.keeps.new p ⟨inUse, fun inside => outside (.inr inside)⟩] at before
      exact outside before

theorem Gone.free_iff (gone : Gone L role m role' t r) (p : Nat) :
    role' p = .free ↔ role p = .free ∨ (role p).spaceOf = some r := by
  constructor
  · grind [gone.releases.roles]
  · grind [gone.releases.roles, gone.gone]

theorem Moves.freesTaken (moves : Moves L role m role' t r Y) (settled : ∀ p, role p ≠ .scratch) (space : Space L role m r X)
    (mapped : Mapped L tf sz Y) : FreesTaken L m t r sz := by
  obtain ⟨_, u, ran, role'', gone⟩ := (procFreepagetable_gone moves.space mapped).run_eq
  obtain ⟨pages, appended⟩ := gone.releases.suffix
  have nodup := gone.heap.nodup
  rw [← appended] at nodup
  obtain ⟨once, -, apart⟩ := List.nodup_append.mp nodup
  refine ⟨u, pages, ran, appended.symm, once, fun p => ?_⟩
  have member : p ∈ pages ↔ p ∈ u.freelist ∧ p ∉ t.freelist := by grind
  rw [member, ← gone.heap.free, gone.free_iff, moves.pool settled, ← or_assoc, space.page_iff, ← space.heap.free, or_comm]

/-! ## Growth and copying -/

inductive Grew (L : Layout) (m t : Machine) (r oldsz newsz sz : Nat) : Prop where
  | grown : sz = newsz → MapsBelow t.page r newsz →
      (∀ v, v * PGSIZE < pgRoundUp oldsz → translate t.page r v = translate m.page r v) →
      (∀ v, pgRoundUp oldsz ≤ v * PGSIZE → v * PGSIZE < pgRoundUp newsz →
        ∃ pte, translate t.page r v = some pte ∧ t.page (pte2pa pte) = fun _ => 0) →
      FreesTaken L m t r newsz → Grew L m t r oldsz newsz sz
  | failed : sz = 0 → (∀ v, v < VPNS → translate t.page r v = translate m.page r v) →
      FreesTaken L m t r oldsz → Grew L m t r oldsz newsz sz

theorem Fills.grew (settled : ∀ p, role p ≠ .scratch) (space : Space L role m r X)
    (mapped : Mapped L tf oldsz X) (fills : Fills L role m role' t r (npages oldsz) (npages newsz) X Y) :
    Grew L m t r oldsz newsz newsz := by
  have after : Mapped L tf newsz Y := mapped.resize (fun u high => fills.same u (.inr high)) fills.maps
  have small := mapped.user.bound space
  have small' := fills.maps.bound fills.moves.space
  have low := memory_lt_user small
  have low' := memory_lt_user small'
  apply Grew.grown rfl (fun _ => fills.moves.space.translate_iff after)
  · intro v below
    rw [pgRoundUp_eq small] at below
    have inside : v < npages oldsz := Nat.lt_of_mul_lt_mul_right below
    have page := user_lt_vpns (inside.trans low)
    rw [fills.moves.space.translate after page, space.translate mapped page, fills.same v (.inl inside)]
  · intro v above below
    rw [pgRoundUp_eq small] at above
    rw [pgRoundUp_eq small'] at below
    have inside : v < npages newsz := Nat.lt_of_mul_lt_mul_right below
    have new := (fills.new v (Nat.le_of_mul_le_mul_right above (by decide)) inside).2
    refine ⟨Y v, ?_, new⟩
    rw [fills.moves.space.translate after (user_lt_vpns (inside.trans low')),
      if_neg ((fills.maps v (inside.trans low')).mpr inside)]
  · exact fills.moves.freesTaken settled space after

theorem Allocated.grew (settled : ∀ p, role p ≠ .scratch) (space : Space L role m r X)
    (mapped : Mapped L tf oldsz X) (undone : Allocated L role m r (npages oldsz) (npages newsz) X false t) :
    Grew L m t r oldsz newsz 0 := by
  obtain ⟨role', Y, moves, same, maps⟩ := undone
  have after : Mapped L tf oldsz Y := mapped.resize (fun u high => same u (.inr high)) maps
  have entry := mapped.user.eq_of_same maps same
  apply Grew.failed rfl
  · intro v below
    rw [moves.space.translate after below, space.translate mapped below, entry]
  · exact moves.freesTaken settled space after

theorem uvmalloc_grew (table : UserTable L role m r tf oldsz) (grows : oldsz ≤ newsz) :
    wp (uvmalloc L r oldsz newsz) (fun sz t => Grew L m t r oldsz newsz sz) m := by
  obtain ⟨settled, X, space, mapped⟩ := table
  apply (uvmalloc_fills space mapped.user grows).mono
  rintro sz t (⟨rfl, role', Y, fills⟩ | ⟨rfl, undone⟩)
  · exact fills.grew settled space mapped
  · exact undone.grew settled space mapped

def CopiedTo (L : Layout) (m t : Machine) (child sz : Nat) (copied : Bool) : Prop :=
  MapsBelow t.page child (if copied then sz else 0) ∧ FreesTaken L m t child (if copied then sz else 0)

theorem uvmcopy_copiedTo {tf' : Nat} (parent : UserTable L role m r tf sz) (table : UserTable L role m child tf' 0)
    (distinct : r ≠ child) : wp (uvmcopy L r child sz) (fun copied t => CopiedTo L m t child sz copied) m := by
  obtain ⟨settled, Z, old, source⟩ := parent
  obtain ⟨-, X, space, mapped⟩ := table
  have empty : Maps X 0 := mapped.user
  apply (uvmcopy_maps old space distinct source.user empty).mono
  rintro copied t ⟨role', Y, moves, fixed, maps, -⟩
  have after : Mapped L tf' (if copied then sz else 0) Y := by
    apply mapped.resize fixed
    cases copied with
    | false => grind [Maps, mapped.user]
    | true => exact maps
  exact ⟨fun _ => moves.space.translate_iff after, moves.freesTaken settled space after⟩

/-! ## Any memory of a process -/

theorem Inv.userTable {k : Kernel} {i : Slot} (inv : Inv L role k) (live : (k.proc i).state ≠ .unused) :
    ∃ role', UserTable L role' k.machine (k.proc i).pagetable (k.proc i).trapframe (k.proc i).sz := by
  obtain ⟨role', settled, nothingLost⟩ := inv.settle
  exact ⟨role', nothingLost, (settled.owns.live i id live).space⟩

theorem UserTable.beside {tf' : Nat} (table : UserTable L role m r tf sz)
    (made : (procPagetable L tf').run m = .ok (some child, t)) :
    ∃ role', UserTable L role' t r tf sz ∧ UserTable L role' t child tf' 0 ∧ r ≠ child := by
  obtain ⟨settled, X, space, mapped⟩ := table
  obtain ⟨_, _, ran, creates⟩ := (procPagetable_creates space.heap tf').run_eq
  cases made.symm.trans ran
  obtain ⟨role', fresh, -, Y, mapped', moves⟩ := creates
  have distinct : r ≠ child := role_ne space.table.root fresh (by simp)
  have settled' (p : Nat) : role' p ≠ .scratch := fun lost => settled p (moves.settled.scratch p lost)
  exact ⟨role', ⟨settled', X, space.apart moves.space.heap moves.keeps distinct, mapped⟩,
    ⟨settled', Y, moves.space, mapped'⟩, distinct⟩

theorem resizing_atomic {oldsz newsz child tf' : Nat} (table : UserTable L role m r tf oldsz) :
    (∃ sz t, (uvmalloc L r oldsz newsz).run m = .ok (sz, t) ∧
      (newsz < oldsz → sz = oldsz ∧ t = m ∧ FreesTaken L m t r oldsz) ∧
      (oldsz ≤ newsz → Grew L m t r oldsz newsz sz)) ∧
    (UserTable L role m child tf' 0 → r ≠ child →
      ∃ copied t, (uvmcopy L r child oldsz).run m = .ok (copied, t) ∧ CopiedTo L m t child oldsz copied) := by
  constructor
  · by_cases shrinks : newsz < oldsz
    · obtain ⟨settled, X, space, mapped⟩ := table
      have unchanged : (uvmalloc L r oldsz newsz).run m = .ok (oldsz, m) := by
        simp only [uvmalloc, shrinks, ↓reduceIte]
        rfl
      exact ⟨oldsz, m, unchanged, fun _ => ⟨rfl, rfl, (Moves.refl space).freesTaken settled space mapped⟩,
        fun grows => absurd shrinks (by omega)⟩
    · obtain ⟨sz, t, ran, grew⟩ := (uvmalloc_grew table (by omega : oldsz ≤ newsz)).run_eq
      exact ⟨sz, t, ran, fun less => absurd less shrinks, fun _ => grew⟩
  · intro fresh distinct
    obtain ⟨copied, t, ran, done⟩ := (uvmcopy_copiedTo table fresh distinct).run_eq
    exact ⟨copied, t, ran, done⟩

end

theorem bootState_first {s : State} (first : step smallLayout bootState ⟨.userinit, []⟩ = some s) :
    (∃ role, Inv smallLayout role s.kernel) ∧ (s.kernel.proc 0).state ≠ .unused ∧ (s.kernel.proc 0).sz = 4096 := by
  have computed : (step smallLayout bootState ⟨.userinit, []⟩).map
      (fun s => ((s.kernel.proc 0).state, (s.kernel.proc 0).sz)) = some (.runnable, 4096) := by
    decide +kernel
  rw [first] at computed
  obtain ⟨runs, size⟩ : (s.kernel.proc 0).state = .runnable ∧ (s.kernel.proc 0).sz = 4096 := by
    simpa using computed
  have started : Started smallLayout s := ⟨bootState, [], bootState_boot, by decide, first⟩
  exact ⟨started.sound.inv, by simp [runs], size⟩

def twoTables : Option (Machine × Nat × Nat × Nat) := do
  let s ← step smallLayout bootState ⟨.userinit, []⟩
  let p := s.kernel.proc 0
  let (child, t) ← ((procPagetable smallLayout 0x87fff000).run s.kernel.machine).toOption
  return (t, p.pagetable, p.trapframe, ← child)

theorem twoTables_userTable {r tf child : Nat} {t : Machine} (made : twoTables = some (t, r, tf, child)) :
    ∃ role, UserTable smallLayout role t r tf 4096 ∧ UserTable smallLayout role t child 0x87fff000 0 ∧ r ≠ child := by
  simp only [twoTables, Option.bind_eq_bind, Option.bind_eq_some_iff, toOption_eq_some] at made
  obtain ⟨s, first, ⟨found, u⟩, ran, c, rfl, same⟩ := made
  obtain ⟨rfl, rfl, rfl, rfl⟩ : u = t ∧ (s.kernel.proc 0).pagetable = r ∧ (s.kernel.proc 0).trapframe = tf ∧ c = child := by
    simpa using same
  obtain ⟨⟨role, inv⟩, used, size⟩ := bootState_first first
  obtain ⟨role', table⟩ := inv.userTable used
  rw [size] at table
  exact table.beside ran

theorem resizing_atomic_booted : ∃ role t r tf child, twoTables = some (t, r, tf, child) ∧
    UserTable smallLayout role t r tf 4096 ∧ UserTable smallLayout role t child 0x87fff000 0 ∧
    (∃ sz u, (uvmalloc smallLayout r 4096 8192).run t = .ok (sz, u) ∧ Grew smallLayout t u r 4096 8192 sz) ∧
    ∃ copied u, (uvmcopy smallLayout r child 4096).run t = .ok (copied, u) ∧
      CopiedTo smallLayout t u child 4096 copied := by
  obtain ⟨⟨t, r, tf, child⟩, made⟩ := Option.isSome_iff_exists.mp (show twoTables.isSome by decide +kernel)
  obtain ⟨role, table, fresh, distinct⟩ := twoTables_userTable made
  obtain ⟨⟨sz, u, ran, -, grew⟩, copies⟩ := @resizing_atomic smallLayout role t r tf 4096 8192 child 0x87fff000 table
  exact ⟨role, t, r, tf, child, made, table, fresh, ⟨sz, u, ran, grew (by decide)⟩, copies fresh distinct⟩

/-- A new size below the old one is no failure: the old size comes back. -/
theorem uvmalloc_shrink_unmet : ∃ role t r tf child, twoTables = some (t, r, tf, child) ∧
    UserTable smallLayout role t r tf 4096 ∧ (uvmalloc smallLayout r 4096 0).run t = .ok (4096, t) := by
  obtain ⟨⟨t, r, tf, child⟩, made⟩ := Option.isSome_iff_exists.mp (show twoTables.isSome by decide +kernel)
  obtain ⟨role, table, -⟩ := twoTables_userTable made
  exact ⟨role, t, r, tf, child, made, table, rfl⟩

/-! ## `sys_sbrk` -/

def argint0 (k : Kernel) (i : Slot) : Int := ((k.machine.page (k.proc i).trapframe tfA0).setWidth 32).toInt

-- addr is an int too.
def sysSbrk (L : Layout) (i : Slot) : K Int := do
  let n := argint0 (← get) i
  let addr := (BitVec.ofNat 32 (← getProc i).sz).toInt
  if ← growproc L i n then return addr else return -1

/-- The break has moved by `n` and the old one comes back, or nothing has changed and -1 comes back. -/
inductive Moved (k k' : Kernel) (i : Slot) (n ret : Int) : Prop where
  | moved : ret = (k.proc i).sz → ((k'.proc i).sz : Int) = (k.proc i).sz + n →
      MapsBelow k'.machine.page (k'.proc i).pagetable (k'.proc i).sz → Moved k k' i n ret
  | failed : ret = -1 → (k'.proc i).sz = (k.proc i).sz →
      (∀ v, v < VPNS → translate k'.machine.page (k'.proc i).pagetable v = translate k.machine.page (k.proc i).pagetable v) →
      Moved k k' i n ret

section
variable {L : Layout} {k k' : Kernel} {i : Slot} {role : Roles}

theorem argint0_bounds : -2 ^ 31 ≤ argint0 k i ∧ argint0 k i < 2 ^ 31 :=
  ⟨BitVec.le_toInt _, BitVec.toInt_lt⟩

theorem target_eq {sz : Nat} {n : Int} (small : sz < 2 ^ 31) (low : -2 ^ 31 ≤ n) (high : n < 2 ^ 31) :
    (target sz n : Int) = if sz + n < 0 then sz + n + 2 ^ 32 else sz + n := by
  unfold target
  split_ifs <;> omega

theorem sbrk_moves (inv : Inv L role k) (used : (k.proc i).state ≠ .unused) :
    wp (sysSbrk L i) (fun ret k' => Moved k k' i (argint0 k i) ret ↔ 0 ≤ (k.proc i).sz + argint0 k i) k := by
  obtain ⟨X, space, mapped⟩ := (inv.owns.live i id used).space
  obtain ⟨low, high⟩ := argint0_bounds (k := k) (i := i)
  have small : (k.proc i).sz < 2 ^ 31 := by
    have bound := mapped.user.bound space
    simp only [npages, MEMORY, PHYSTOP, KERNBASE, PGSIZE] at bound
    omega
  have addr : (BitVec.ofNat 32 (k.proc i).sz).toInt = (k.proc i).sz := by grind [BitVec.toNat_ofNat]
  have sum := target_eq small low high
  simp only [sysSbrk, wp_bind, wp_get, wp_getProc, addr]
  apply (growproc_maps space mapped).mono
  rintro done k' ⟨role', t, Y, sz, moves, resized, rfl, outcome⟩
  cases done with
  | false =>
    simp only [Bool.false_eq_true, ↓reduceIte, wp_pure] at outcome ⊢
    obtain ⟨grow, rfl, same⟩ := outcome
    refine iff_of_true (.failed rfl (by simp) fun v below => ?_) (by omega)
    simp only [Function.update_self]
    rw [moves.space.translate resized below, space.translate mapped below, same]
  | true =>
    simp only [↓reduceIte, wp_pure] at outcome ⊢
    constructor
    · rintro (⟨-, size, -⟩ | ⟨minus, -, -⟩)
      · omega
      · omega
    · intro enough
      have size : (sz : Int) = (k.proc i).sz + argint0 k i := by grind
      refine .moved rfl (by simpa using size) fun v below => ?_
      simp only [Function.update_self]
      exact moves.space.translate_iff resized below

theorem sbrk_exact (sound : ∃ role, Inv L role k) (used : (k.proc i).state ≠ .unused) :
    ∃ ret k', (sysSbrk L i).run k = .ok (ret, k') ∧
      (Moved k k' i (argint0 k i) ret ↔ 0 ≤ (k.proc i).sz + argint0 k i) := by
  obtain ⟨role, inv⟩ := sound
  exact (sbrk_moves inv used).run_eq

def Kernel.withArg (k : Kernel) (i : Slot) (w : Word) : Kernel :=
  { k with machine := { k.machine with page := put k.machine.page (k.proc i).trapframe tfA0 w } }

theorem Inv.withArg {w : Word} (inv : Inv L role k) (used : (k.proc i).state ≠ .unused) : Inv L role (k.withArg i w) :=
  ⟨inv.owns.touchFrame (i := i) id used (fun _ other => put_other other _ _) rfl, inv.calls⟩

end

def firstSbrk (n : BitVec 32) : Option Kernel :=
  (step smallLayout bootState ⟨.userinit, []⟩).map fun s => s.kernel.withArg 0 (n.setWidth 64)

theorem firstSbrk_sound {k : Kernel} {n : BitVec 32} (called : firstSbrk n = some k) :
    (∃ role, Inv smallLayout role k) ∧ (k.proc 0).state ≠ .unused ∧ (k.proc 0).sz = 4096 ∧ argint0 k 0 = n.toInt := by
  obtain ⟨s, first, rfl⟩ := Option.map_eq_some_iff.mp called
  obtain ⟨⟨role, inv⟩, used, size⟩ := bootState_first first
  refine ⟨⟨role, inv.withArg used⟩, used, size, ?_⟩
  simp [argint0, Kernel.withArg, put]

theorem sbrk_exact_first : ∃ k ret k', firstSbrk 5000 = some k ∧ (sysSbrk smallLayout 0).run k = .ok (ret, k') ∧
    Moved k k' 0 5000 ret := by
  obtain ⟨k, called⟩ := Option.isSome_iff_exists.mp (show (firstSbrk 5000).isSome by decide +kernel)
  obtain ⟨sound, used, size, arg⟩ := firstSbrk_sound called
  obtain ⟨ret, k', ran, moved⟩ := sbrk_exact sound used
  rw [arg, size] at moved
  exact ⟨k, ret, k', called, ran, moved.mpr (by decide)⟩

theorem sbrk_past_zero : ∃ k ret k', firstSbrk (-4097) = some k ∧ (sysSbrk smallLayout 0).run k = .ok (ret, k') ∧
    ret = 4096 ∧ (k.proc 0).sz = 4096 ∧ (k'.proc 0).sz = 4096 ∧ ¬ Moved k k' 0 (-4097) ret := by
  obtain ⟨k, called, before, rest⟩ := exists_some (o := firstSbrk (-4097)) (P := fun k => (k.proc 0).sz = 4096 ∧
    ((sysSbrk smallLayout 0).run k).toOption.any fun (ret, k') => ret = 4096 ∧ (k'.proc 0).sz = 4096) (by decide +kernel)
  obtain ⟨⟨ret, k'⟩, ran, rfl, after⟩ := exists_some rest
  refine ⟨k, 4096, k', called, toOption_eq_some.mp ran, rfl, before, after, ?_⟩
  rintro (⟨-, size, -⟩ | ⟨minus, -, -⟩)
  · rw [before, after] at size
    cases size
  · cases minus

end Xv6.Vm
