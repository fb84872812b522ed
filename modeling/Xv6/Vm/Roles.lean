import Xv6.Proc.Table
import Xv6.Vm.Entries

namespace Xv6.Vm
open Lib ProcTable Function

/-! ## What each physical page is used for

The proofs assign every page of memory one role. A page has only one, so two tables, or a table and
the free list, cannot share a page. -/

inductive Role where
  | none -- not a page that kalloc() hands out
  | free
  | scratch -- allocated by the running function and not yet put to use
  | held -- in the hands of the rest of the kernel
  | trapframe (i : Slot)
  | alarm (i : Slot)
  | root (r : Nat)
  | middle (r : Nat) (i : Fin 512)
  | bottom (r : Nat) (i j : Fin 512)
  | user (r : Nat) (v : Nat)
  deriving DecidableEq

namespace Role

def tableOf : Role → Option Nat
  | root r => some r
  | middle r _ => some r
  | bottom r _ _ => some r
  | _ => Option.none

def spaceOf : Role → Option Nat
  | user r _ => some r
  | role => role.tableOf

variable {ρ : Role} {r : Nat}

theorem spaceOf_of_tableOf (inside : ρ.tableOf = some r) : ρ.spaceOf = some r := by
  cases ρ with
  | user r v => cases inside
  | _ => exact inside

def InUse (ρ : Role) : Prop := ρ ≠ none ∧ ρ ≠ free ∧ ρ ≠ scratch

def OutsideTable (r : Nat) (ρ : Role) : Prop := ρ ≠ free ∧ ρ.tableOf ≠ some r

def OutsideSpace (r : Nat) (ρ : Role) : Prop := InUse ρ ∧ ρ.spaceOf ≠ some r

theorem inUse_of_spaceOf (inside : ρ.spaceOf = some r) : InUse ρ := by
  refine ⟨?_, ?_, ?_⟩ <;> rintro rfl <;> cases inside

theorem inUse_or (ρ : Role) : ρ = none ∨ ρ = free ∨ ρ = scratch ∨ ρ.InUse := by
  tauto

theorem OutsideSpace.outsideTable (outside : OutsideSpace r ρ) : OutsideTable r ρ :=
  ⟨outside.1.2.1, fun inside => outside.2 (spaceOf_of_tableOf inside)⟩

end Role

abbrev Roles := Nat → Role

section
variable {role : Roles} {p q : Nat} {ρ σ : Role}

theorem role_ne (one : role p = ρ) (other : role q = σ) (different : ρ ≠ σ) : p ≠ q :=
  fun same => different (by rw [← one, ← other, same])

theorem update_role (old : role p = ρ) (other : p ≠ q) : update role q σ p = ρ := by
  simp [other, old]

theorem of_update_role (new : update role q σ p = ρ) (different : σ ≠ ρ) : p ≠ q ∧ role p = ρ := by grind

end

structure Heap (L : Layout) (role : Roles) (freelist : List Nat) : Prop where
  free : ∀ p, role p = .free ↔ p ∈ freelist
  nodup : freelist.Nodup
  ram : ∀ p, role p ≠ .none → Ram L p
  rooted : ∀ p r, (role p).spaceOf = some r → role r = .root r
  self : ∀ p r, role p = .root r → p = r

structure Keeps (S : Role → Prop) (role : Roles) (page : Nat → Page) (role' : Roles)
    (page' : Nat → Page) : Prop where
  old : ∀ p, S (role p) → role' p = role p ∧ page' p = page p
  new : ∀ p, S (role' p) → role' p = role p

section
variable {S T : Role → Prop} {role role' role'' : Roles} {page page' page'' : Nat → Page} {q : Nat} {contents : Page}

theorem Keeps.refl : Keeps S role page role page := ⟨fun _ _ => ⟨rfl, rfl⟩, fun _ _ => rfl⟩

theorem Keeps.trans (first : Keeps S role page role' page') (second : Keeps S role' page' role'' page'') :
    Keeps S role page role'' page'' := by
  constructor
  · grind [first.old, second.old]
  · grind [second.new, first.new]

theorem Keeps.mono (keeps : Keeps T role page role' page') (weaker : ∀ ρ, S ρ → T ρ) : Keeps S role page role' page' :=
  ⟨fun p inside => keeps.old p (weaker _ inside), fun p inside => keeps.new p (weaker _ inside)⟩

theorem Keeps.iff (keeps : Keeps S role page role' page') (inside : S ρ) (p : Nat) : role' p = ρ ↔ role p = ρ := by
  constructor
  · intro new
    rw [← keeps.new p (by rwa [new]), new]
  · intro old
    rw [(keeps.old p (by rwa [old])).1, old]

theorem keeps_update (before : ¬ S (role q)) (after : ¬ S ρ) :
    Keeps S role page (update role q ρ) (update page q contents) := by
  constructor
  · grind
  · grind

theorem keeps_role (before : ¬ S (role q)) (after : ¬ S ρ) : Keeps S role page (update role q ρ) page := by
  have updated : Keeps S role page (update role q ρ) (update page q (page q)) :=
    keeps_update before after
  simpa using updated

theorem keeps_elsewhere (before : ¬ S (role q)) (elsewhere : ∀ p, p ≠ q → page' p = page p) :
    Keeps S role page role page' := by
  constructor
  · grind
  · intro p _
    rfl

theorem keeps_store (before : ¬ S (role q)) : Keeps S role page role (update page q contents) :=
  keeps_elsewhere before fun _ other => update_of_ne other _ _

end

/-- Pages do not change over between the allocator's and the others, and none is left allocated but
without a use. -/
structure Settled (role role' : Roles) : Prop where
  none : ∀ p, role' p = .none ↔ role p = .none
  scratch : ∀ p, role' p = .scratch → role p = .scratch

section
variable {role role' role'' : Roles} {q : Nat} {ρ : Role}

theorem Settled.refl : Settled role role := ⟨fun _ => Iff.rfl, fun _ => id⟩

theorem Settled.trans (first : Settled role role') (second : Settled role' role'') : Settled role role'' :=
  ⟨fun p => (second.none p).trans (first.none p), fun p lost => first.scratch p (second.scratch p lost)⟩

theorem settled_update (managed : role q ≠ .none) (still : ρ ≠ .none) (inUse : ρ ≠ .scratch) :
    Settled role (update role q ρ) := by
  constructor
  · grind
  · grind

theorem Settled.fetched (free : role q = .free) (settled : Settled (update role q .scratch) role')
    (inUse : role' q ≠ .scratch) : Settled role role' := by
  constructor
  · grind [settled.none]
  · intro p lost
    have before := settled.scratch p lost
    by_cases same : p = q
    · exact absurd (same ▸ lost) inUse
    · simpa [same] using before

end

def put (page : Nat → Page) (q : Nat) (k : Fin 512) (w : Word) : Nat → Page :=
  update page q (update (page q) k w)

theorem put_apply (page : Nat → Page) (q : Nat) (k : Fin 512) (w : Word) (p : Nat) (l : Fin 512) :
    put page q k w p l = if p = q ∧ l = k then w else page p l := by
  by_cases same : p = q
  · subst same
    simp [put, update_apply]
  · simp [put, same]

theorem put_other {page : Nat → Page} {p : Nat} (other : p ≠ q) (k : Fin 512) (w : Word) : put page q k w p = page p := by
  simp [put, other]

section
variable {S : Role → Prop} {role : Roles} {page : Nat → Page} {p q : Nat} {ρ : Role}

theorem keeps_update_put {k : Fin 512} {w : Word} (before : ¬ S (role q)) (after : ¬ S ρ)
    (parent : ¬ S (role p)) (other : p ≠ q) : Keeps S role page (update role q ρ) (put (update page q contents) p k w) := by
  have first : Keeps S role page (update role q ρ) (update page q contents) :=
    keeps_update before after
  exact first.trans (keeps_store (by simpa [other] using parent))

end

/-! ## The free list -/

section
variable {L : Layout} {role : Roles} {freelist : List Nat} {p q r : Nat} {ρ : Role}

theorem Heap.alloc (heap : Heap L role freelist) (free : role q = .free) :
    Heap L (update role q .scratch) (freelist.erase q) := by
  constructor
  · grind [heap.nodup.mem_erase_iff, heap.free]
  · exact heap.nodup.erase q
  · grind [heap.ram]
  · intro p r inside
    by_cases same : p = q
    · subst same
      simp [Role.spaceOf, Role.tableOf] at inside
    · have rooted := heap.rooted p r (by simpa [same] using inside)
      by_cases root : r = q
      · subst root
        simp [free] at rooted
      · simpa [root] using rooted
  · grind [heap.self]

theorem Heap.childless (heap : Heap L role freelist) (notRoot : role q ≠ .root q) (p : Nat) : (role p).spaceOf ≠ some q :=
  fun inside => notRoot (heap.rooted p q inside)

theorem Heap.assign (heap : Heap L role freelist) (scratch : role q = .scratch) (notFree : ρ ≠ .free)
    (space : ∀ r, ρ.spaceOf = some r → role r = .root r) (notRoot : ∀ r, ρ ≠ .root r) :
    Heap L (update role q ρ) freelist := by
  constructor
  · grind [heap.free]
  · exact heap.nodup
  · grind [heap.ram]
  · intro p r inside
    have rooted : role r = .root r := by grind [heap.rooted]
    have other : r ≠ q := by
      rintro rfl
      rw [scratch] at rooted
      cases rooted
    simpa [other] using rooted
  · grind [heap.self]

theorem Heap.place (heap : Heap L (update role q .scratch) freelist) (free : role q = .free) (root : role r = .root r)
    (space : ρ.spaceOf = some r) (notRoot : ∀ r, ρ ≠ .root r) : Heap L (update role q ρ) freelist := by
  have placed : Heap L (update (update role q .scratch) q ρ) freelist := by
    apply heap.assign
    · simp
    · rintro rfl
      cases space
    · grind
    · exact notRoot
  rwa [update_idem] at placed

theorem Heap.assign_root (heap : Heap L role freelist) (scratch : role q = .scratch) :
    Heap L (update role q (.root q)) freelist := by
  constructor
  · grind [heap.free]
  · exact heap.nodup
  · grind [heap.ram]
  · intro p r inside
    by_cases root : r = q
    · subst root
      simp
    · have inOld : (role p).spaceOf = some r := by
        by_cases same : p = q
        · subst same
          simp [Role.spaceOf, Role.tableOf, Ne.symm root] at inside
        · simpa [same] using inside
      simpa [root] using heap.rooted p r inOld
  · grind [heap.self]

theorem Heap.release (heap : Heap L role freelist) (used : role q ≠ .free) (ram : Ram L q)
    (childless : ∀ p, p ≠ q → (role p).spaceOf ≠ some q) : Heap L (update role q .free) (q :: freelist) := by
  constructor
  · grind [heap.free]
  · exact List.nodup_cons.mpr ⟨fun member => used ((heap.free q).mpr member), heap.nodup⟩
  · grind [heap.ram]
  · intro p r inside
    by_cases same : p = q
    · subst same
      simp [Role.spaceOf, Role.tableOf] at inside
    · have inOld : (role p).spaceOf = some r := by simpa [same] using inside
      have other : r ≠ q := by
        rintro rfl
        exact childless p same inOld
      simpa [other] using heap.rooted p r inOld
  · grind [heap.self]

/-! ## `kalloc` and `kfree` -/

variable {m t : Machine}

@[simp] theorem wp_setPage (q : Nat) (contents : Page) (Q : PUnit → Machine → Prop) :
    wp (setPage q contents) Q m ↔ Q ⟨⟩ { m with page := update m.page q contents } := by
  simp [setPage]

@[simp] theorem wp_load (q : Nat) (k : Fin 512) (Q : Word → Machine → Prop) : wp (load q k) Q m ↔ Q (m.page q k) m := by
  simp [load]

@[simp] theorem wp_store (q : Nat) (k : Fin 512) (w : Word) (Q : PUnit → Machine → Prop) :
    wp (store q k w) Q m ↔ Q ⟨⟩ { m with page := put m.page q k w } := by
  simp [store, put]

theorem pick_mem (picked : pick m = some q) : q ∈ m.freelist := by
  obtain ⟨n, -, found⟩ := Option.bind_eq_some_iff.mp picked
  exact List.mem_of_getElem? found

def Supply (m : Machine) (n : Nat) : Prop := n ≤ m.freelist.length ∧ ∀ j, j < n → m.draws[j]? ≠ some none

instance (m : Machine) (n : Nat) : Decidable (Supply m n) := inferInstanceAs (Decidable (_ ∧ _))

def Draws (m t : Machine) (c : Nat) : Prop := ∀ n, Supply m (n + c) ↔ Supply t n

theorem Draws.trans {u : Machine} {c d : Nat} (first : Draws m t c) (second : Draws t u d) : Draws m u (c + d) := by
  intro n
  rw [← second n, ← first (n + d)]
  exact iff_of_eq (congrArg _ (by omega))

theorem pick_eq_none : pick m = none ↔ ¬ Supply m 1 := by
  have index (n : Nat) : m.freelist[n % m.freelist.length]? = none ↔ ¬ 1 ≤ m.freelist.length := by
    grind [Nat.mod_lt]
  cases draws : m.draws with
  | nil => simp [pick, Supply, draws]
  | cons draw rest =>
    cases draw with
    | none => simp [pick, Supply, draws]
    | some n => simp [pick, Supply, draws, index]

theorem pick_draws (picked : pick m = some q) (draws : t.draws = m.draws.tail)
    (freelist : t.freelist = m.freelist.erase q) : Draws m t 1 := by
  have first : Supply m 1 := by
    by_contra short
    rw [pick_eq_none.mpr short] at picked
    cases picked
  have count := List.length_erase_of_mem (pick_mem picked)
  intro n
  simp only [Supply, draws, freelist, count, List.getElem?_tail]
  constructor
  · grind
  · rintro ⟨enough, given⟩
    have some := first.1
    refine ⟨by omega, fun j inside => ?_⟩
    cases j with
    | zero => exact first.2 0 (by omega)
    | succ j => exact given j (by omega)

theorem kalloc_rule {Q : Option Nat → Machine → Prop} (heap : Heap L role m.freelist)
    (fails : ∀ t : Machine, ¬ Supply m 1 → t.page = m.page → t.freelist = m.freelist → Q none t)
    (gives : ∀ q (t : Machine), role q = .free → Heap L (update role q .scratch) t.freelist →
      t.page = update m.page q (fun _ => 0x0505050505050505) → Draws m t 1 → Q (some q) t) : wp kalloc Q m := by
  unfold kalloc
  simp only [wp_bind, wp_get, wp_modify]
  cases picked : pick m with
  | none =>
    simp only [wp_pure]
    exact fails _ (pick_eq_none.mp picked) rfl rfl
  | some q =>
    have free : role q = .free := (heap.free q).mpr (pick_mem picked)
    simp only [wp_bind, wp_modify, wp_setPage, wp_pure]
    exact gives q _ free (heap.alloc free) rfl (pick_draws picked rfl rfl)

theorem kfree_rule {Q : Unit → Machine → Prop} (ram : Ram L q)
    (after : ∀ t : Machine, t.page = update m.page q (fun _ => 0x0101010101010101) →
      t.freelist = q :: m.freelist → Q () t) : wp (kfree L q) Q m := by
  have checked : ¬ (q % PGSIZE ≠ 0 ∨ q < L.kend ∨ PHYSTOP ≤ q) := by
    obtain ⟨aligned, above, below⟩ := ram
    omega
  unfold kfree
  simp only [checked, ↓reduceIte, wp_bind, wp_setPage, wp_modify]
  exact after _ rfl rfl

end

end Xv6.Vm
