import Xv6.Vm.Operations

namespace Xv6.Vm
open Lib ProcTable
open Function (update update_self update_of_ne update_idem)

section
variable {L : Layout} {role role' : Roles} {m t : Machine} {k : Kernel} {i : Slot} {r : Nat} {X : Nat → Word} {s : State}

/-! ## `userinit` -/

theorem uvminit_maps {src : List Byte} (space : Space L role m r X) (maps : Maps X 0) (bare : m.page r 0 = 0)
    (short : src.length < PGSIZE) (enough : Supply m 1 → Supply m 3) :
    ends (uvminit r src) (· = .fault) (fun _ t => ∃ role' Y, Moves L role m role' t r Y ∧ Maps Y 1 ∧
      ∀ u, USER ≤ u → Y u = X u) m := by
  have fits : ¬ PGSIZE ≤ src.length := by omega
  have user : 0 < USER := by decide
  have empty : X 0 = 0 := by
    by_contra used
    exact absurd ((maps 0 user).mp used) (by omega)
  simp only [uvminit, fits, ↓reduceIte, ends_bind]
  apply wp.ends
  apply kalloc_rule space.heap
  · intro t _ _ _
    exact (ends_throw ..).mpr rfl
  · intro mem t free heap page drawn
    have supply : Supply m 3 := enough ((drawn 0).mpr (by simp [Supply]))
    apply wp.ends
    simp only [wp_bind, wp_setPage]
    have notRoot : r ≠ mem := role_ne space.table.root free (by simp)
    have fetched := space.fetch (t := { t with page := update t.page mem fun _ => 0 }) free heap
      (by rw [page, update_idem])
    have bare' : update t.page mem (fun _ => 0) r (idx 2 0) = 0 := by
      rw [update_of_ne notRoot, page, update_of_ne notRoot]
      exact bare
    have more : Supply { t with page := update t.page mem fun _ => 0 } 2 := (drawn 2).mp supply
    apply ((mappages_user fetched.space user empty (by simp) (by decide) (by decide)).and
      (mappages_fresh fetched.space (by omega) bare' empty)).mono
    rintro mapped t' ⟨⟨role', ⟨rfl, -⟩ | ⟨rfl, kept, -, moves⟩⟩, failed, -⟩
    · exact absurd more (failed rfl)
    · have used : leaf mem (PTE_W ||| PTE_R ||| PTE_X ||| PTE_U) ≠ 0 := (isLeaf_leaf mem (by decide)).ne_zero
      have ram := fetched.space.heap.ram mem (by simp)
      have owner := (moves.space.user 0 user (by simpa using used)).2
      rw [update_self, pte2pa_leaf ram.below ram.1 (by decide)] at owner
      rw [← Nat.add_zero mem]
      apply (memmove_user moves.space owner (by decide)).mono
      intro _ u written
      refine ⟨role', _, (fetched.moves moves (by simp [kept])).trans written, maps.update used, ?_⟩
      intro u above
      exact update_of_ne (by omega) _ _

/-- Once the pages for the first process are there, `uvminit` gets the three that it needs. -/
def BootSupplied (m : Machine) : Prop := Supply m 6 → Supply m 8

instance (m : Machine) : Decidable (BootSupplied m) := by
  unfold BootSupplied
  infer_instance

theorem userinit_inv (inv : Inv L role k) (clean : AllocClean k) (supplied : BootSupplied k.machine) :
    ends (userinit L) (· = .fault) (fun _ k' => ∃ role', Inv L role' k') k := by
  unfold userinit
  rw [ends_bind]
  apply wp.ends
  apply (allocproc_inv inv clean).mono
  rintro (_ | i) k1 ⟨role1, inv1, outcome⟩
  · exact (ends_throw ..).mpr rfl
  · obtain ⟨-, -, used, size, drawn, bare⟩ := outcome
    have live : (k1.proc i).state ≠ .unused := by simp [used]
    have enough (one : Supply k1.machine 1) : Supply k1.machine 3 :=
      (drawn 3).mp (supplied ((drawn 1).mpr one))
    obtain ⟨X, space, mapped⟩ := (inv1.owns.live i id live).space
    have nothing : Maps X 0 := by
      have maps := mapped.user
      rwa [size] at maps
    rw [ends_bind]
    apply wp.ends
    rw [wp_getProc, ends_bind, vm, ends_zoom]
    apply (uvminit_maps space nothing bare (by decide) enough).mono
    rintro _ t ⟨role2, Y, moves, maps, fixed⟩
    apply wp.ends
    simp only [wp_bind, wp_setProc, wp_vm, wp_store, update_idem, update_self]
    have one : Maps Y (npages PGSIZE) := maps
    have resized : Owns L role2 ⟨t, update k1.proc i { k1.proc i with sz := PGSIZE, state := .runnable },
        k1.held⟩ fun _ => False :=
      inv1.owns.resize moves live (by simp) rfl rfl rfl (mapped.resize fixed one)
    refine ⟨role2, resized.touchFrame (i := i) id (by simp) ?_ rfl, inv1.calls⟩
    intro p other
    simp only [update_self] at other
    dsimp only
    rw [put_other other, put_other other]

/-! ## Every operation -/

theorem enabled_withDraws (k : Kernel) (draws : List (Option Nat)) (op : Op) :
    enabled (k.withDraws draws) op ↔ enabled k op := by
  cases op <;> rfl

theorem Inv.withDraws (inv : Inv L role k) (draws : List (Option Nat)) : Inv L role (k.withDraws draws) :=
  ⟨inv.owns.inUse inv.owns.heap Keeps.refl, inv.calls⟩

def Clean (s : State) (e : Event) : Prop :=
  match e.op with
  | .userinit | .fork _ => AllocClean (s.kernel.withDraws e.draws)
  | _ => True

def Supplied (s : State) (e : Event) : Prop :=
  e.op = .userinit → BootSupplied (s.kernel.withDraws e.draws).machine

instance (s : State) (e : Event) : Decidable (Clean s e) := by
  unfold Clean
  split <;> infer_instance

instance (s : State) (e : Event) : Decidable (Supplied s e) :=
  match h : e.op with
  | .userinit => decidable_of_iff (BootSupplied (s.kernel.withDraws e.draws).machine) (by simp [Supplied, h])
  | .fork _ | .exec _ _ _ | .growproc _ _ | .exit _ _ | .wait _ _ | .take | .give _ =>
    isTrue (by simp [Supplied, h])

theorem wp_discard {σ ε α : Type} (f : Comp σ ε α) (Q : PUnit → σ → Prop) (s : σ) :
    wp (Functor.discard f) Q s ↔ wp f (fun _ => Q ⟨⟩) s :=
  wp_map f (fun _ => PUnit.unit) Q s

def Excused (panic : Panic) : Prop := panic = .fault ∨ panic = .initExiting

theorem perform_inv {op : Op} (inv : Inv L role k) (on : enabled k op)
    (clean : op = .userinit ∨ (∃ i, op = .fork i) → AllocClean k) (supplied : op = .userinit → BootSupplied k.machine) :
    ends (perform L op) Excused (fun _ k' => ∃ role', Inv L role' k') k := by
  have live {i : Slot} (runs : (k.proc i).state = .runnable) : (k.proc i).state ≠ .unused := by simp [runs]
  cases op with
  | userinit =>
    have built := userinit_inv inv (clean (.inl rfl)) (supplied rfl)
    unfold ends at built ⊢
    simp only [perform]
    split at built
    · exact built
    · exact .inl built
  | fork i =>
    apply wp.ends
    rw [perform, wp_discard]
    exact fork_inv inv (live on) (clean (.inr ⟨i, rfl⟩))
  | exec i file argv =>
    apply wp.ends
    rw [perform, wp_discard]
    exact exec_inv inv (live on.1)
  | growproc i n =>
    apply wp.ends
    rw [perform, wp_discard]
    exact growproc_inv inv (live on)
  | exit i status =>
    by_cases first : i = initproc
    · simp only [perform, exit, first, ↓reduceIte, ends_bind, ends_throw]
      exact .inr rfl
    · exact ((exit_inv inv (live on) first).mono fun _ _ after => ⟨role, after⟩).ends
  | wait i addr =>
    apply wp.ends
    rw [perform, wp_discard]
    exact wait_inv inv (live on)
  | take => exact (take_inv inv).ends
  | give q => exact (give_inv inv on).ends

/-! ## Runs -/

structure Sound (L : Layout) (s : State) : Prop where
  inv : ∃ role, Inv L role s.kernel
  panicked : ∀ panic, s.panicked = some panic → Excused panic

def Guarded (s : State) (e : Event) : Prop := Clean s e ∧ Supplied s e

instance (s : State) (e : Event) : Decidable (Guarded s e) := inferInstanceAs (Decidable (_ ∧ _))

theorem step_sound {t : State} {e : Event} (guarded : Guarded s e) (taken : step L s e = some t) (sound : Sound L s) :
    Sound L t := by
  obtain ⟨role, inv⟩ := sound.inv
  unfold step at taken
  split_ifs at taken with ready
  have after := perform_inv (L := L) (inv.withDraws e.draws) ((enabled_withDraws _ _ _).mpr ready.2) ?_ guarded.2
  · unfold ends at after
    split at taken
    · rename_i k outcome
      simp only [outcome] at after
      cases taken
      exact ⟨after, by simp⟩
    · rename_i panic outcome
      simp only [outcome] at after
      cases taken
      refine ⟨⟨role, inv⟩, ?_⟩
      rintro _ ⟨⟩
      exact after
  · intro allocates
    have clean := guarded.1
    unfold Clean at clean
    rcases allocates with fresh | ⟨i, forks⟩
    · simpa only [fresh] using clean
    · simpa only [forks] using clean

theorem run_sound {t : State} {es : List Event} (meets : Meets (step L) Guarded s es) (sound : Sound L s)
    (taken : run (step L) s es = some t) : Sound L t :=
  run_invariant (fun _ _ _ => step_sound) meets sound taken

/-- The kernel as main() hands it to userinit(): `proc[]` is all zero and some pages of memory are free. -/
structure Boot (L : Layout) (s : State) : Prop where
  ram : ∀ p ∈ s.kernel.machine.freelist, Ram L p
  nodup : s.kernel.machine.freelist.Nodup
  procs : ∀ i, s.kernel.proc i = ⟨.unused, none, 0, 0, 0, 0, 0⟩
  rest : s.kernel.held = [] ∧ s.kernel.calls = [] ∧ s.panicked = none

theorem Boot.sound (boot : Boot L s) : Sound L s := by
  classical
  obtain ⟨held, calls, panicked⟩ := boot.rest
  have idle (i : Slot) : (s.kernel.proc i).state = .unused := by rw [boot.procs i]
  refine ⟨⟨fun p => if p ∈ s.kernel.machine.freelist then .free else .none, ⟨⟨?_, boot.nodup, ?_, ?_, ?_⟩,
    ?_, ?_, ?_, ?_, ?_⟩, ?_⟩, ?_⟩
  · simp
  · grind [boot.ram]
  · intro p r inside
    split_ifs at inside <;> cases inside
  · intro p r root
    split_ifs at root
  · simp [held]
  · simp [held]
  · intro i _ _
    rw [boot.procs i]
    exact ⟨rfl, rfl, rfl⟩
  · intro i _ used
    exact absurd (idle i) used
  · intro i j _ _ _ used
    exact absurd (idle i) used
  · simp [calls]
  · simp [panicked]

end

end Xv6.Vm
