import Xv6.Vm.Lifecycle

namespace Xv6.Vm
open Lib ProcTable Function

section
variable {L : Layout} {role role' : Roles} {w : World} {t : Machine} {k : Kernel} {i : Slot}
  {X : Nat → Word} {n : Int}
  {q r : Nat}

/-! ## `exit` and `wait` -/

theorem exit_inv {status : Nat} (inv : Inv L role k) (used : (k.proc i).state ≠ .unused) (notInit : i ≠ initproc) :
    wp (exit i status) (fun _ => Inv L role) k := by
  simp only [exit, notInit, ↓reduceIte, wp_bind, wp_modify, wp_setProc]
  refine ⟨inv.owns.relabel ?_ ?_, inv.calls⟩
  · grind
  · grind

theorem findZombie_state {np : Slot} (found : findZombie k i = some np) : (k.proc np).state = .zombie := by
  have both := List.find?_some found
  simp only [decide_eq_true_eq] at both
  exact both.2

theorem freeproc_inv (inv : Inv L role k) (used : (k.proc i).state ≠ .unused) :
    wp (freeproc L i) (fun _ k' => ∃ role', Inv L role' k') k := by
  have apart (j : Slot) (other : j ≠ i) (usedJ : (k.proc j).state ≠ .unused) :=
    inv.owns.distinct j i id id other usedJ used
  apply (freeproc_owns (inv.owns.weaken fun _ => False.elim) (inv.owns.live i id used).parts apart).mono
  rintro _ k' ⟨role', call, owns, logged, justified, -⟩
  refine ⟨role', owns, ?_⟩
  rw [logged]
  simpa using ⟨justified, inv.calls⟩

theorem copyoutIf_moves {m : Machine} {tf sz addr : Nat} {src : List Byte} (space : Space L role m r X)
    (mapped : Mapped L tf sz X) : wp (copyoutIf r addr src) (fun _ t => Moves L role m role t r X) m := by
  grind [copyoutIf, copyout_moves, wp_pure, Moves.refl]

theorem wait_inv {addr : Nat} (inv : Inv L role k) (used : (k.proc i).state ≠ .unused) :
    wp (wait L i addr) (fun _ k' => ∃ role', Inv L role' k') k := by
  simp only [wait, wp_bind, wp_get]
  cases found : findZombie k i with
  | none =>
    simp only [wp_pure]
    exact ⟨role, inv⟩
  | some np =>
    have zombie := findZombie_state found
    obtain ⟨X, space, mapped⟩ := (inv.owns.live i id used).space
    simp only [wp_bind, wp_getProc, wp_vm]
    apply (copyoutIf_moves space mapped).mono
    intro copied t moves
    have moved : Inv L role ⟨⟨t, k.proc, k.held⟩, k.calls⟩ := ⟨inv.owns.moved moves used mapped, inv.calls⟩
    cases copied with
    | false => grind [wp_pure]
    | true => grind [wp_bind, freeproc_inv, wp_pure]

/-! ## `growproc` -/

structure Private (L : Layout) (role : Roles) (k : Kernel) (i : Slot) (role' : Roles) (k' : Kernel) : Prop where
  inv : Inv L role' k'
  moves : ∃ Y, Moves L role k.machine role' k'.machine (k.proc i).pagetable Y
  proc : ∃ sz, k'.proc = update k.proc i { k.proc i with sz := sz }

theorem Private.same {Y : Nat → Word} (inv : Inv L role k) (used : (k.proc i).state ≠ .unused)
    (moves : Moves L role k.machine role' t (k.proc i).pagetable Y) (mapped : Mapped L (k.proc i).trapframe (k.proc i).sz Y) :
    Private L role k i role' ⟨⟨t, k.proc, k.held⟩, k.calls⟩ :=
  ⟨⟨inv.owns.moved moves used mapped, inv.calls⟩, ⟨Y, moves⟩, (k.proc i).sz, by simp⟩

def target (sz : Nat) (n : Int) : Nat := ((sz + n) % 2 ^ 32).toNat

theorem growproc_maps (space : Space L role k.machine (k.proc i).pagetable X)
    (mapped : Mapped L (k.proc i).trapframe (k.proc i).sz X) :
    wp (growproc L i n) (fun done k' => ∃ role' t Y sz, Moves L role k.machine role' t (k.proc i).pagetable Y ∧
      Mapped L (k.proc i).trapframe sz Y ∧
      k' = ⟨⟨t, update k.proc i { k.proc i with sz := sz }, k.held⟩, k.calls⟩ ∧
      if done then sz = if 0 < n then max (k.proc i).sz (target (k.proc i).sz n)
        else min (k.proc i).sz (target (k.proc i).sz n)
      else 0 < n ∧ sz = (k.proc i).sz ∧ ∀ v, Y v = X v) k := by
  have small := mapped.user.bound space
  have low : (k.proc i).sz % 2 ^ 32 = (k.proc i).sz := by
    simp only [npages, MEMORY, PHYSTOP, KERNBASE, PGSIZE] at small
    omega
  have newsz : target (k.proc i).sz n < 2 ^ 32 := by
    unfold target
    omega
  simp only [growproc, wp_bind, wp_getProc, low, ← target.eq_def]
  split_ifs with grow shrink
  · rw [wp_bind, wp_vm]
    apply (uvmalloc_maps space mapped.user).mono
    rintro sz t ⟨role', Y, moves, same, failed, grown⟩
    have fixed (u : Nat) (above : USER ≤ u) : Y u = X u := same u (.inr above)
    by_cases zero : sz = 0
    · simp only [zero, Nat.zero_mod, ↓reduceIte, wp_pure]
      refine ⟨role', t, Y, _, moves, mapped.resize fixed (failed zero), by simp, ?_⟩
      simpa using ⟨grow, mapped.user.eq_of_same (failed zero) same⟩
    · obtain ⟨size, maps, -⟩ := grown zero
      have whole : sz % 2 ^ 32 = sz := by omega
      simp only [whole, zero, ↓reduceIte, wp_bind, wp_setProc, wp_pure]
      exact ⟨role', t, Y, sz, moves, mapped.resize fixed maps, rfl, size⟩
  · rw [wp_bind, wp_vm]
    apply (uvmdealloc_maps space mapped.user).mono
    rintro sz t ⟨role', Y, moves, size, maps, same, -⟩
    have whole : sz % 2 ^ 32 = sz := by omega
    simp only [whole, wp_bind, wp_setProc, wp_pure]
    exact ⟨role', t, Y, sz, moves, mapped.resize (fun u above => same u (.inr above)) maps, rfl, size⟩
  · obtain rfl : n = 0 := by omega
    have same : target (k.proc i).sz 0 = (k.proc i).sz := by
      unfold target
      omega
    simp only [wp_bind, wp_setProc, wp_pure]
    exact ⟨role, k.machine, X, (k.proc i).sz, Moves.refl space, mapped, rfl, by simp [same]⟩

theorem growproc_private (inv : Inv L role k) (used : (k.proc i).state ≠ .unused) :
    wp (growproc L i n) (fun _ k' => ∃ role', Private L role k i role' k') k := by
  obtain ⟨X, space, mapped⟩ := (inv.owns.live i id used).space
  apply (growproc_maps space mapped).mono
  rintro done k' ⟨role', t, Y, sz, moves, resized, rfl, -⟩
  exact ⟨role', ⟨inv.owns.resize moves used used rfl rfl rfl resized, inv.calls⟩, ⟨Y, moves⟩, sz, rfl⟩

theorem growproc_inv (inv : Inv L role k) (used : (k.proc i).state ≠ .unused) :
    wp (growproc L i n) (fun _ k' => ∃ role', Inv L role' k') k := by
  apply (growproc_private inv used).mono
  rintro _ k' ⟨role', after⟩
  exact ⟨role', after.inv⟩

/-! ## `fork` -/

structure Twin (L : Layout) (role : Roles) (k : Kernel) (i np : Slot) : Prop where
  different : i ≠ np
  parent : (k.proc i).state ≠ .unused
  child : (k.proc np).state ≠ .unused
  size : (k.proc np).sz = (k.proc i).sz
  copied : ∃ Z X, Space L role k.machine (k.proc i).pagetable Z ∧ Mapped L (k.proc i).trapframe (k.proc i).sz Z ∧
    Space L role k.machine (k.proc np).pagetable X ∧ Mapped L (k.proc np).trapframe (k.proc np).sz X ∧
    Copied k.machine Z X (npages (k.proc i).sz)

section

variable (inv : Inv L role k) (used : (k.proc i).state ≠ .unused) (clean : AllocClean k)

include inv used clean

theorem fork_twin :
    wp (fork L i) (fun result k' => ∃ role', Inv L role' k' ∧ ∀ np, result = some np → Twin L role' k' i np) k := by
  simp only [fork, wp_bind]
  apply (allocproc_inv inv clean).mono
  rintro (_ | np) k1 ⟨role1, inv1, outcome⟩
  · simp only [wp_pure]
    exact ⟨role1, inv1, by simp⟩
  · obtain ⟨unused, others, newState, newSize, -⟩ := outcome
    have different : i ≠ np := by
      rintro rfl
      exact used unused
    have usedI : (k1.proc i).state ≠ .unused := by rwa [others i different]
    have usedNp : (k1.proc np).state ≠ .unused := by simp [newState]
    obtain ⟨Z, old, source⟩ := (inv1.owns.live i id usedI).space
    obtain ⟨X, space, mapped⟩ := (inv1.owns.live np id usedNp).space
    have nothing : Maps X 0 := by
      have maps := mapped.user
      rwa [newSize] at maps
    simp only [wp_bind, wp_getProc, wp_vm]
    apply (uvmcopy_maps old space (inv1.owns.distinct i np id id different usedI usedNp) source.user nothing).mono
    rintro (_ | _) t ⟨role2, Y, moves, fixed, maps, copied⟩
    · simp only [Bool.false_eq_true, ↓reduceIte, wp_bind] at maps ⊢
      have kept : Mapped L (k1.proc np).trapframe (k1.proc np).sz Y := by
        apply mapped.resize fixed
        rwa [newSize]
      have moved : Inv L role2 ⟨⟨t, k1.proc, k1.held⟩, k1.calls⟩ :=
        ⟨inv1.owns.moved moves usedNp kept, inv1.calls⟩
      apply (freeproc_inv moved usedNp).mono
      rintro _ k' ⟨role3, after⟩
      simp only [wp_pure]
      exact ⟨role3, after, by simp⟩
    · simp only [↓reduceIte, wp_bind, wp_setProc, wp_get, wp_vm, wp_setPage, wp_store,
        update_idem, update_self, wp_pure] at maps ⊢
      have resized : Owns L role2 ⟨t, update k1.proc np ⟨.runnable, some i, (k1.proc np).xstate,
          (k1.proc i).sz, (k1.proc np).pagetable, (k1.proc np).trapframe, (k1.proc np).alarmTf⟩, k1.held⟩
          fun _ => False :=
        inv1.owns.resize moves usedNp (by simp) rfl rfl rfl (mapped.resize fixed maps)
      have elsewhere (p : Nat) (other : p ≠ (k1.proc np).trapframe) {frame : Page} {k : Fin 512} {w : Word} :
          put (update t.page (k1.proc np).trapframe frame) (k1.proc np).trapframe k w p = t.page p := by
        rw [put_other other, update_of_ne other]
      refine ⟨role2, ⟨resized.touchFrame (i := np) id (by simp) ?_ rfl, inv1.calls⟩, ?_⟩
      · grind
      · rintro _ ⟨⟩
        have frame : role2 (k1.proc np).trapframe = .trapframe np :=
          (moves.keeps.iff (by simp [Role.OutsideSpace, Role.InUse, Role.spaceOf, Role.tableOf]) _).mpr
            (inv1.owns.live np id usedNp).trapframe
        have old' := old.apart moves.space.heap moves.keeps (inv1.owns.distinct i np id id different usedI usedNp)
        have user {r v : Nat} {W : Nat → Word} (space : Space L role2 t r W) (below : v < USER) (mapped : W v ≠ 0) :
            pte2pa (W v) ≠ (k1.proc np).trapframe :=
          role_ne (space.user v below mapped).2 frame (by simp)
        refine ⟨different, ?_, by simp, by simp [different], Z, Y, ?_, ?_, ?_, ?_, ?_⟩
        · simpa [different] using usedI
        · simp only [ne_eq, different, not_false_eq_true, update_of_ne]
          exact old'.touch (by rw [frame]; rfl) (fun p other => elsewhere p other) rfl
        · simpa [different] using source
        · simp only [update_self]
          exact moves.space.touch (by rw [frame]; rfl) (fun p other => elsewhere p other) rfl
        · simpa using mapped.resize fixed maps
        · have fits := memory_lt_user (source.user.bound old)
          intro u inside
          simp only [ne_eq, different, not_false_eq_true, update_of_ne] at inside
          have below : u < USER := by omega
          dsimp only
          rw [elsewhere _ (user moves.space below ((maps u below).mpr inside)),
            elsewhere _ (user old' below ((source.user u below).mpr inside))]
          exact copied rfl u inside

theorem fork_inv : wp (fork L i) (fun _ k' => ∃ role', Inv L role' k') k := by
  apply (fork_twin inv used clean).mono
  rintro _ k' ⟨role', after, -⟩
  exact ⟨role', after⟩

end

/-! ## `exec` -/

structure Replaced (role role' : Roles) (old new : Nat) : Prop where
  settled : Settled role role'
  fresh : role new = .free
  others : ∀ ρ : Role, ρ.InUse → ρ.spaceOf ≠ some old → ρ.spaceOf ≠ some new → ∀ p, role' p = ρ ↔ role p = ρ
  freed : ∀ p, (role p).spaceOf = some old → role' p = .free
  gone : ∀ p, (role' p).spaceOf ≠ some old

theorem Moves.replaced {role'' : Roles} {t t' u u' : Machine} {old new : Nat}
    (moves : Moves L role t role' t' new X) (fresh : role new = .free) (different : old ≠ new)
    (gone : Gone L role' u role'' u' old) : Replaced role role'' old new where
  settled := moves.settled.trans gone.releases.settled
  fresh := fresh
  others ρ inUse notOld notNew p :=
    (gone.keeps.iff ⟨inUse, notOld⟩ p).trans (moves.keeps.iff ⟨inUse, notNew⟩ p)
  freed p inside := by
    have other : (role p).spaceOf ≠ some new := by
      rw [inside]
      simpa using different
    have same := (moves.keeps.old p ⟨Role.inUse_of_spaceOf inside, other⟩).1
    rcases gone.releases.roles p with kept | ⟨free, -⟩
    · exact absurd (by rw [kept, same, inside]) (gone.gone p)
    · exact free
  gone := gone.gone

theorem Replaced.free_iff {old new : Nat} {freelist : List Nat} (replaced : Replaced role role' old new)
    (heap : Heap L role freelist) (settled : ∀ p, role p ≠ .scratch) (p : Nat) :
    role' p = .free ↔ role p = .free ∧ (role' p).spaceOf ≠ some new ∨ (role p).spaceOf = some old := by
  have notNew : (role p).spaceOf ≠ some new := heap.childless (by simp [replaced.fresh]) p
  constructor
  · intro free
    rcases Role.inUse_or (role p) with outside | same | lost | inUse
    · rw [(replaced.settled.none p).mpr outside] at free
      cases free
    · grind
    · exact absurd lost (settled p)
    · by_contra other
      have kept := (replaced.others _ inUse (fun inside => other (.inr inside)) notNew p).mpr rfl
      exact inUse.2.1 (kept.symm.trans free)
  · rintro (⟨free, outsideNew⟩ | inside)
    · rcases Role.inUse_or (role' p) with outside | same | lost | inUse
      · rw [(replaced.settled.none p).mp outside] at free
        cases free
      · exact same
      · exact absurd (replaced.settled.scratch p lost) (settled p)
      · rw [← (replaced.others _ inUse (replaced.gone p) outsideNew p).mp rfl, free]
    · exact replaced.freed p inside

def Execs (L : Layout) (role : Roles) (k : Kernel) (i : Slot) (done : Bool) (k' : Kernel) : Prop :=
  ∃ role', Inv L role' k' ∧ k'.held = k.held ∧
    if done then Replaced role role' (k.proc i).pagetable (k'.proc i).pagetable ∧
      (∀ p, (role p).InUse → p ≠ (k.proc i).trapframe → (role p).spaceOf ≠ some (k.proc i).pagetable →
        k'.machine.page p = k.machine.page p) ∧
      k'.proc = update k.proc i { k.proc i with pagetable := (k'.proc i).pagetable, sz := (k'.proc i).sz }
    else Undone L role k.machine role' k'.machine ∧ k'.proc = k.proc

structure Committed (image : Image) (t : Machine) (i : Slot) (k' : Kernel) : Prop where
  pagetable : (k'.proc i).pagetable = image.pagetable
  sz : (k'.proc i).sz = image.sz
  a1 : k'.machine.page (k'.proc i).trapframe tfA1 = BitVec.ofNat 64 image.sp
  sp : k'.machine.page (k'.proc i).trapframe tfSp = BitVec.ofNat 64 image.sp
  addresses : ∀ va, userAddr k'.machine.page image.pagetable va = userAddr t.page image.pagetable va
  bytes : ∀ va, userByte k'.machine image.pagetable va = userByte t image.pagetable va

section

variable (inv : Inv L role k) (used : (k.proc i).state ≠ .unused)

include inv used

variable {argv : List (List Byte)} {file : Option File}

theorem exec_commits {file : File} {P : Option Image → Machine → Prop}
    (built : wp (buildImage L (k.proc i).trapframe file argv) P k.machine) :
    wp (exec L i (some file) argv) (fun done k' => Execs L role k i done k' ∧
      if done then ∃ image t, P (some image) t ∧ Committed image t i k' else ∃ t, P none t) k := by
  simp only [exec, wp_bind, wp_getProc, wp_vm]
  apply (built.and (buildImage_creates inv.owns.heap _ _ _)).mono
  rintro (_ | image) t ⟨outcome, role1, creates⟩
  · simp only [wp_pure]
    exact ⟨⟨role1, ⟨inv.owns.inUse creates.heap creates.keeps, inv.calls⟩, rfl, creates, rfl⟩, t, outcome⟩
  · obtain ⟨new, Y, mapped', moves⟩ := creates
    simp only [wp_bind, wp_vm, wp_store, wp_setProc]
    have fresh (j : Slot) (usedJ : (k.proc j).state ≠ .unused) : (k.proc j).pagetable ≠ image.pagetable := by
      intro same
      have root := (inv.owns.live j id usedJ).root
      rw [same, new] at root
      cases root
    have owns1 : Owns L role1 ⟨t, k.proc, k.held⟩ fun _ => False :=
      inv.owns.outside moves.space.heap moves.keeps fun j _ => fresh j
    have elsewhere (p : Nat) (other : p ≠ (k.proc i).trapframe) :
        put (put (put t.page (k.proc i).trapframe tfA1 (BitVec.ofNat 64 image.sp)) (k.proc i).trapframe tfEpc
          (BitVec.ofNat 64 image.entry)) (k.proc i).trapframe tfSp (BitVec.ofNat 64 image.sp) p = t.page p := by
      rw [put_other other, put_other other, put_other other]
    have registers (reg : Fin 512) (either : reg = tfA1 ∨ reg = tfSp) :
        put (put (put t.page (k.proc i).trapframe tfA1 (BitVec.ofNat 64 image.sp)) (k.proc i).trapframe tfEpc
          (BitVec.ofNat 64 image.entry)) (k.proc i).trapframe tfSp (BitVec.ofNat 64 image.sp) (k.proc i).trapframe reg =
          BitVec.ofNat 64 image.sp := by
      rcases either with rfl | rfl <;> simp [put_apply, tfA1, tfEpc, tfSp]
    generalize put (put (put t.page (k.proc i).trapframe tfA1 (BitVec.ofNat 64 image.sp)) (k.proc i).trapframe
      tfEpc (BitVec.ofNat 64 image.entry)) (k.proc i).trapframe tfSp (BitVec.ofNat 64 image.sp) = pages
      at elsewhere registers
    have owns2 : Owns L role1 ⟨⟨pages, t.freelist, t.draws⟩, k.proc, k.held⟩ fun _ => False :=
      Owns.touchFrame (w := ⟨t, k.proc, k.held⟩) owns1 (i := i) id used elsewhere rfl
    obtain ⟨frame, alarm, X, old, mapped⟩ := owns2.live i id used
    have space : Space L role1 ⟨pages, t.freelist, t.draws⟩ image.pagetable Y :=
      moves.space.touch (by rw [frame]; rfl) elsewhere rfl
    apply (procFreepagetable_gone old mapped).mono
    rintro _ t' ⟨role2, gone⟩
    have apart (j : Slot) (other : j ≠ i) (usedJ : (k.proc j).state ≠ .unused) :=
      inv.owns.distinct j i id id other usedJ used
    have owns3 : Owns L role2 ⟨t', k.proc, k.held⟩ (· = i) :=
      (owns2.weaken fun _ => False.elim).outside gone.heap gone.keeps apart
    have outside {ρ : Role} (use : ρ = .trapframe i ∨ ρ = .alarm i) : ρ.OutsideSpace (k.proc i).pagetable := by
      rcases use with rfl | rfl <;> simp [Role.OutsideSpace, Role.InUse, Role.spaceOf, Role.tableOf]
    have space' : Space L role2 t' image.pagetable Y := space.apart gone.heap gone.keeps (fresh i used).symm
    have kept (p v : Nat) (user : role1 p = .user image.pagetable v) : t'.page p = t.page p := by
      have notFrame : p ≠ (k.proc i).trapframe := role_ne user frame (by simp)
      have notOld : (role1 p).OutsideSpace (k.proc i).pagetable := by
        rw [user]
        exact ⟨Role.inUse_of_spaceOf rfl, by simpa [Role.spaceOf] using (fresh i used).symm⟩
      rw [(gone.keeps.old p notOld).2]
      exact elsewhere p notFrame
    have same := (mapped'.userSpace moves.space).same (mapped'.userSpace space') kept
    have saved : t'.page (k.proc i).trapframe = pages (k.proc i).trapframe :=
      (gone.keeps.old _ (by rw [frame]; exact outside (.inl rfl))).2
    simp only [wp_pure]
    refine ⟨⟨role2, ⟨(owns3.setOut rfl _).close_live ?_ ?_ ?_, inv.calls⟩, rfl, ?_, ?_, ?_⟩, image, t, outcome, ?_⟩
    · simp only [update_self]
      exact ⟨(gone.keeps.iff (outside (.inl rfl)) _).mpr frame,
        (gone.keeps.iff (outside (.inr rfl)) _).mpr alarm, Y, space', mapped'⟩
    · simpa using used
    · grind
    · grind [moves.replaced]
    · intro p inUse notFrame notOld
      have notNew : (role p).spaceOf ≠ some image.pagetable := inv.owns.heap.childless (by simp [new]) p
      obtain ⟨sameRole, samePage⟩ := moves.keeps.old p ⟨inUse, notNew⟩
      rw [← samePage, ← elsewhere p notFrame]
      exact (gone.keeps.old p (by rw [sameRole]; exact ⟨inUse, notOld⟩)).2
    · simp only [update_self]
    · constructor
      · simp only [update_self]
      · simp only [update_self]
      · simp only [update_self]
        rw [saved, registers tfA1 (.inl rfl)]
      · simp only [update_self]
        rw [saved, registers tfSp (.inr rfl)]
      · exact fun va => (same va).1
      · exact fun va => (same va).2

theorem exec_replaces : wp (exec L i file argv) (Execs L role k i) k := by
  cases file with
  | none =>
    simp only [exec, wp_pure]
    exact ⟨role, inv, rfl, Undone.same inv.owns.heap rfl rfl, rfl⟩
  | some file =>
    have built := (buildImage_creates inv.owns.heap (k.proc i).trapframe file argv)
    exact (exec_commits inv used built).mono fun _ _ => And.left

theorem exec_inv : wp (exec L i file argv) (fun _ k' => ∃ role', Inv L role' k') k := by
  apply (exec_replaces inv used).mono
  rintro done k' ⟨role', after, -⟩
  exact ⟨role', after⟩

end

/-! ## The rest of the kernel -/

theorem take_inv (inv : Inv L role k) : wp take (fun _ k' => ∃ role', Inv L role' k') k := by
  simp only [take, wp_bind, wp_vm]
  apply kalloc_rule inv.owns.heap
  · intro t _ page freelist
    simp only [wp_pure]
    exact ⟨role, inv.owns.inUse (freelist ▸ inv.owns.heap) (page ▸ Keeps.refl), inv.calls⟩
  · intro q t free heap page _
    simp only [wp_modify]
    have handed : Owns L (update role q .held) ⟨t, k.proc, k.held⟩ fun _ => False :=
      inv.owns.hand free heap page (by simp) rfl
    have fresh : q ∉ k.held := by
      intro member
      simp [inv.owns.held q member] at free
    refine ⟨_, ⟨handed.heap, ?_, ?_, handed.idle, handed.live, handed.distinct⟩, inv.calls⟩
    · grind [handed.held]
    · exact List.nodup_cons.mpr ⟨fresh, inv.owns.heldNodup⟩

theorem give_inv (inv : Inv L role k) (member : q ∈ k.held) : wp (give L q) (fun _ k' => ∃ role', Inv L role' k') k := by
  have held := inv.owns.held q member
  have ram := inv.owns.heap.ram q (by simp [held])
  simp only [give, wp_bind, wp_vm]
  apply kfree_rule ram
  intro t page freelist
  simp only [wp_modify]
  have fewer : Owns L role ⟨k.machine, k.proc, k.held.erase q⟩ fun _ => False :=
    ⟨inv.owns.heap, fun p inside => inv.owns.held p (List.mem_of_mem_erase inside),
      inv.owns.heldNodup.erase q, inv.owns.idle, inv.owns.live, inv.owns.distinct⟩
  have unlisted : q ∉ k.held.erase q := inv.owns.heldNodup.not_mem_erase
  exact ⟨update role q .free, fewer.giveBack held unlisted page freelist, inv.calls⟩

end

end Xv6.Vm
