import Xv6.Vm.Ownership

namespace Xv6.Vm
open Lib ProcTable Function

structure Inv (L : Layout) (role : Roles) (k : Kernel) : Prop where
  owns : Owns L role k.toWorld fun _ => False
  calls : ∀ call ∈ k.calls, Justified call

section
variable {L : Layout} {role role' : Roles} {w : World} {t : Machine} {k : Kernel} {out out' : Slot → Prop}
  {Y : Nat → Word} {contents : Page}
  {i : Slot} {q : Nat} {ρ : Role}

theorem Inv.settle (inv : Inv L role k) : ∃ role', Inv L role' k ∧ ∀ p, role' p ≠ .scratch := by
  have same {q : Nat} {ρ : Role} (something : ρ ≠ .none) (inUse : ρ ≠ .scratch) :
      (if role q = .scratch then .none else role q) = ρ ↔ role q = ρ := by grind
  have keeps : Keeps Role.InUse role k.machine.page (fun p => if role p = .scratch then .none else role p)
      k.machine.page :=
    ⟨fun p inUse => ⟨(same inUse.1 inUse.2.2).mpr rfl, rfl⟩,
      fun p inUse => ((same inUse.1 inUse.2.2).mp rfl).symm⟩
  have heap : Heap L (fun p => if role p = .scratch then .none else role p) k.machine.freelist := by
    constructor
    · intro q
      exact (same (by simp) (by simp)).trans (inv.owns.heap.free q)
    · exact inv.owns.heap.nodup
    · grind [inv.owns.heap.ram]
    · intro q r inside
      have inUse := Role.inUse_of_spaceOf inside
      rw [← (same inUse.1 inUse.2.2).mp rfl] at inside
      exact (same (by simp) (by simp)).mpr (inv.owns.heap.rooted q r inside)
    · grind [inv.owns.heap.self]
  refine ⟨_, ⟨inv.owns.inUse heap keeps, inv.calls⟩, ?_⟩
  intro p
  split_ifs with lost
  · simp
  · exact lost

theorem Owns.weaken (owns : Owns L role w out) (more : ∀ i, out i → out' i) : Owns L role w out' where
  heap := owns.heap
  held := owns.held
  heldNodup := owns.heldNodup
  idle i inside := owns.idle i fun o => inside (more i o)
  live i inside := owns.live i fun o => inside (more i o)
  distinct i j inside inside' := owns.distinct i j (fun o => inside (more i o)) fun o => inside' (more j o)

theorem Owns.close_live (owns : Owns L role w (· = i)) (live : Live L role w.machine i (w.proc i))
    (used : (w.proc i).state ≠ .unused)
    (apart : ∀ j, j ≠ i → (w.proc j).state ≠ .unused → (w.proc j).pagetable ≠ (w.proc i).pagetable) :
    Owns L role w fun _ => False := by
  constructor
  · exact owns.heap
  · exact owns.held
  · exact owns.heldNodup
  · grind [owns.idle]
  · grind [owns.live]
  · grind [owns.distinct]

theorem Heap.hand {freelist : List Nat} (heap : Heap L (update role q .scratch) freelist) (notFree : ρ ≠ .free)
    (notSpace : ρ.spaceOf = none) : Heap L (update role q ρ) freelist := by
  have assigned : Heap L (update (update role q .scratch) q ρ) freelist := by
    apply heap.assign (by simp) notFree
    · grind
    · rintro r rfl
      cases notSpace
  rwa [update_idem] at assigned

theorem Owns.hand (owns : Owns L role w out) (free : role q = .free)
    (heap : Heap L (update role q .scratch) t.freelist) (page : t.page = update w.machine.page q contents)
    (notFree : ρ ≠ .free) (notSpace : ρ.spaceOf = none) : Owns L (update role q ρ) ⟨t, w.proc, w.held⟩ out := by
  have heap' := heap.hand notFree notSpace
  apply owns.frame heap'
  · grind [owns.held]
  · intro i _ _ X space
    refine space.frame (S := fun σ => σ.spaceOf ≠ none) heap' ?_ ?_
    · grind [keeps_update, Role.spaceOf, Role.tableOf]
    · intro σ inside
      simp [inside]

/-! ## `allocproc` -/

theorem findUnused_state (found : findUnused k = some i) : (k.proc i).state = .unused := by
  simpa using List.find?_some found

/-- If the first call of `kalloc` fails, the slot that `allocproc` has found keeps no old `alarm_tf`. -/
def AllocClean (k : Kernel) : Prop :=
  ¬ Supply k.machine 1 → ∀ i, findUnused k = some i → (k.proc i).alarmTf = 0

instance (k : Kernel) : Decidable (AllocClean k) := by
  unfold AllocClean
  infer_instance

def Allocates (L : Layout) (k : Kernel) (result : Option Slot) (k' : Kernel) : Prop :=
  ∃ role', Inv L role' k' ∧ match result with
    | none => ∀ j, (k.proc j).state ≠ .unused → k'.proc j = k.proc j
    | some i => (k.proc i).state = .unused ∧ (∀ j, j ≠ i → k'.proc j = k.proc j) ∧
        (k'.proc i).state = .used ∧ (k'.proc i).sz = 0 ∧ Draws k.machine k'.machine 5 ∧
        k'.machine.page (k'.proc i).pagetable 0 = 0

theorem freeproc_undo {p : Proc} (calls : ∀ call ∈ k.calls, Justified call) (unused : (k.proc i).state = .unused)
    (owns : Owns L role ⟨t, k.proc, k.held⟩ (· = i)) (parts : Parts L role t i p)
    (apart : ∀ j, j ≠ i → (k.proc j).state ≠ .unused → (k.proc j).pagetable ≠ p.pagetable) :
    wp (freeproc L i) (fun _ => Allocates L k none) ⟨⟨t, update k.proc i p, k.held⟩, k.calls⟩ := by
  apply (freeproc_owns (i := i) (owns.setOut rfl p) (by simpa using parts) _).mono
  · rintro _ k' ⟨role', call, owns', logged, justified, others, -⟩
    refine ⟨role', ⟨owns', ?_⟩, ?_⟩
    · rw [logged]
      simpa using ⟨justified, calls⟩
    · grind
  · intro j other
    simpa [other] using apart j other

theorem allocproc_inv (inv : Inv L role k) (clean : AllocClean k) : wp (allocproc L) (Allocates L k) k := by
  simp only [allocproc, wp_bind, wp_get]
  cases found : findUnused k with
  | none =>
    simp only [wp_pure]
    exact ⟨role, inv, fun _ _ => rfl⟩
  | some i =>
    have unused := findUnused_state found
    obtain ⟨trapframe, pagetable, sz⟩ := inv.owns.idle i id unused
    have owns : Owns L role k.toWorld (· = i) := inv.owns.weaken fun _ => False.elim
    have apart (j : Slot) (other : j ≠ i) (used : (k.proc j).state ≠ .unused) :
        (k.proc j).pagetable ≠ (k.proc i).pagetable := by
      rw [pagetable]
      exact owns.pagetable_ne_zero other used
    simp only [wp_bind, wp_setProc, wp_vm]
    apply kalloc_rule owns.heap
    · intro t fails page freelist
      simp only [wp_bind, wp_setProc, update_idem, update_self]
      have same : Owns L role ⟨t, k.proc, k.held⟩ (· = i) :=
        owns.inUse (freelist ▸ owns.heap) (page ▸ Keeps.refl)
      refine (freeproc_undo inv.calls unused same ?_ ?_).mono fun _ _ => (wp_pure _ _ _).mpr
      · exact ⟨.inl rfl, .inl (clean fails i found), .inl pagetable⟩
      · exact apart
    · intro tf t free heap page drawn
      have owns1 : Owns L (update role tf (.trapframe i)) ⟨t, k.proc, k.held⟩ (· = i) :=
        owns.hand free heap page (by simp) rfl
      simp only [wp_bind, wp_setProc, update_idem, update_self, wp_vm]
      apply kalloc_rule owns1.heap
      · intro t1 _ page1 freelist1
        simp only [wp_bind, wp_setProc, update_idem, update_self]
        have same : Owns L _ ⟨t1, k.proc, k.held⟩ (· = i) :=
          owns1.inUse (freelist1 ▸ owns1.heap) (page1 ▸ Keeps.refl)
        refine (freeproc_undo inv.calls unused same ?_ ?_).mono fun _ _ => (wp_pure _ _ _).mpr
        · exact ⟨.inr (by simp), .inl rfl, .inl pagetable⟩
        · exact apart
      · intro alarm t1 free1 heap1 page1 drawn1
        have owns2 : Owns L (update (update role tf (.trapframe i)) alarm (.alarm i))
            ⟨t1, k.proc, k.held⟩ (· = i) := owns1.hand free1 heap1 page1 (by simp) rfl
        have different : tf ≠ alarm := by
          rintro rfl
          simp at free1
        have frame2 : update (update role tf (.trapframe i)) alarm (.alarm i) tf = .trapframe i := by simp [different]
        have alarm2 : update (update role tf (.trapframe i)) alarm (.alarm i) alarm = .alarm i := by simp
        generalize update (update role tf (.trapframe i)) alarm (.alarm i) = role2 at *
        simp only [wp_bind, wp_setProc, update_idem, update_self, wp_vm]
        apply (procPagetable_creates owns2.heap _).mono
        rintro (_ | r) t2 ⟨role3, outcome⟩
        · obtain ⟨heap3, keeps3, -⟩ := outcome
          simp only [wp_bind, wp_setProc, update_idem, update_self]
          have same : Owns L role3 ⟨t2, k.proc, k.held⟩ (· = i) := owns2.inUse heap3 keeps3
          refine (freeproc_undo inv.calls unused same ?_ ?_).mono fun _ _ => (wp_pure _ _ _).mpr
          · exact ⟨.inr ((keeps3.iff (by simp [Role.InUse]) tf).mpr frame2),
              .inr ((keeps3.iff (by simp [Role.InUse]) alarm).mpr alarm2), .inl rfl⟩
          · grind
        · obtain ⟨new, ⟨drawn3, root⟩, X, mapped, moves⟩ := outcome
          have apart' (j : Slot) (other : j ≠ i) (used : (k.proc j).state ≠ .unused) : (k.proc j).pagetable ≠ r := by
            intro same
            have root := (owns2.live j other used).root
            rw [same, new] at root
            cases root
          have owns3 : Owns L role3 ⟨t2, k.proc, k.held⟩ (· = i) :=
            owns2.outside moves.space.heap moves.keeps apart'
          have outside {ρ : Role} (frame : ρ = .trapframe i ∨ ρ = .alarm i) : ρ.OutsideSpace r := by
            rcases frame with rfl | rfl <;>
              simp [Role.OutsideSpace, Role.InUse, Role.spaceOf, Role.tableOf]
          simp only [wp_bind, wp_setProc, update_idem, update_self, wp_pure]
          refine ⟨role3, ⟨(owns3.setOut rfl _).close_live ?_ ?_ ?_, inv.calls⟩, unused, ?_, ?_, ?_,
            (drawn.trans drawn1).trans drawn3, ?_⟩
          · simp only [update_self]
            exact ⟨(moves.keeps.iff (outside (.inl rfl)) tf).mpr frame2,
              (moves.keeps.iff (outside (.inr rfl)) alarm).mpr alarm2, X, moves.space, sz ▸ mapped⟩
          · simp
          · grind
          · intro j other
            simp [other]
          · simp
          · simp [sz]
          · simpa using root

/-! ## What the other operations change -/

theorem Owns.resize {p : Proc} (owns : Owns L role w fun _ => False)
    (moves : Moves L role w.machine role' t (w.proc i).pagetable Y) (used : (w.proc i).state ≠ .unused)
    (used' : p.state ≠ .unused) (trapframe : p.trapframe = (w.proc i).trapframe) (alarm : p.alarmTf = (w.proc i).alarmTf)
    (pagetable : p.pagetable = (w.proc i).pagetable) (mapped : Mapped L p.trapframe p.sz Y) :
    Owns L role' ⟨t, update w.proc i p, w.held⟩ fun _ => False := by
  have live := owns.live i id used
  have apart (j : Slot) (other : j ≠ i) (usedJ : (w.proc j).state ≠ .unused) :
      (w.proc j).pagetable ≠ (w.proc i).pagetable := owns.distinct j i id id other usedJ used
  have rest : Owns L role' ⟨t, w.proc, w.held⟩ (· = i) :=
    (owns.weaken fun _ => False.elim).outside moves.space.heap moves.keeps apart
  have outside {ρ : Role} (frame : ρ = .trapframe i ∨ ρ = .alarm i) : ρ.OutsideSpace (w.proc i).pagetable := by
    rcases frame with rfl | rfl <;> simp [Role.OutsideSpace, Role.InUse, Role.spaceOf, Role.tableOf]
  apply (rest.setOut rfl p).close_live
  · simp only [update_self]
    constructor
    · rw [trapframe]
      exact (moves.keeps.iff (outside (.inl rfl)) _).mpr live.trapframe
    · rw [alarm]
      exact (moves.keeps.iff (outside (.inr rfl)) _).mpr live.alarm
    · rw [pagetable]
      exact ⟨Y, moves.space, mapped⟩
  · simpa using used'
  · intro j other
    simpa [other, pagetable] using apart j other

theorem Owns.moved (owns : Owns L role w fun _ => False)
    (moves : Moves L role w.machine role' t (w.proc i).pagetable Y) (used : (w.proc i).state ≠ .unused)
    (mapped : Mapped L (w.proc i).trapframe (w.proc i).sz Y) : Owns L role' ⟨t, w.proc, w.held⟩ fun _ => False := by
  simpa using owns.resize moves used used rfl rfl rfl mapped

theorem Space.touch {m : Machine} {r : Nat} {X : Nat → Word} (space : Space L role m r X) (outside : (role q).spaceOf = none)
    (elsewhere : ∀ p, p ≠ q → t.page p = m.page p) (freelist : t.freelist = m.freelist) : Space L role t r X := by
  refine space.frame (S := fun σ => σ.spaceOf ≠ none) (freelist ▸ space.heap) ?_ ?_
  · exact keeps_elsewhere (by simp [outside]) elsewhere
  · intro σ inside
    simp [inside]

theorem Owns.touch (owns : Owns L role w out) (outside : (role q).spaceOf = none)
    (elsewhere : ∀ p, p ≠ q → t.page p = w.machine.page p) (freelist : t.freelist = w.machine.freelist) :
    Owns L role ⟨t, w.proc, w.held⟩ out := by
  apply owns.frame (freelist ▸ owns.heap) (fun _ _ => rfl)
  intro j _ _ X space
  exact space.touch outside elsewhere freelist

theorem Owns.touchFrame (owns : Owns L role w out) (inside : ¬ out i) (used : (w.proc i).state ≠ .unused)
    (elsewhere : ∀ p, p ≠ (w.proc i).trapframe → t.page p = w.machine.page p) (freelist : t.freelist = w.machine.freelist) :
    Owns L role ⟨t, w.proc, w.held⟩ out := by
  apply owns.touch _ elsewhere freelist
  rw [(owns.live i inside used).trapframe]
  rfl

theorem Owns.giveBack (owns : Owns L role w fun _ => False) (use : role q = .held) (unlisted : q ∉ w.held)
    (page : t.page = update w.machine.page q contents) (freelist : t.freelist = q :: w.machine.freelist) :
    Owns L (update role q .free) ⟨t, w.proc, w.held⟩ fun _ => False := by
  have heap : Heap L (update role q .free) t.freelist := by
    grind [owns.heap.release, owns.heap.ram, owns.heap.childless]
  apply owns.frame heap
  · grind
  · intro i _ _ X space
    refine space.frame (S := fun σ => σ.spaceOf ≠ none) heap ?_ ?_
    · rw [page]
      apply keeps_update <;> simp [use, Role.spaceOf, Role.tableOf]
    · intro σ inside
      simp [inside]

theorem Owns.relabel {proc' : Slot → Proc} (owns : Owns L role w out)
    (states : ∀ i, (proc' i).state = .unused ↔ (w.proc i).state = .unused)
    (same : ∀ i, (proc' i).trapframe = (w.proc i).trapframe ∧ (proc' i).alarmTf = (w.proc i).alarmTf ∧
      (proc' i).pagetable = (w.proc i).pagetable ∧ (proc' i).sz = (w.proc i).sz) :
    Owns L role ⟨w.machine, proc', w.held⟩ out := by
  constructor
  · exact owns.heap
  · exact owns.held
  · exact owns.heldNodup
  · grind [owns.idle]
  · intro i inside used
    obtain ⟨trapframe, alarm, pagetable, sz⟩ := same i
    have live := owns.live i inside fun idle => used ((states i).mpr idle)
    constructor
    · rw [trapframe]
      exact live.trapframe
    · rw [alarm]
      exact live.alarm
    · rw [trapframe, pagetable, sz]
      exact live.space
  · grind [owns.distinct]

end

end Xv6.Vm
