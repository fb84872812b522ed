import Xv6.Vm.Tree

namespace Xv6.Vm
open Lib Function

attribute [local simp] Role.spaceOf Role.OutsideTable Role.OutsideSpace Role.tableOf

/-! ## Address spaces

An address space is a map from page numbers to entries; the page table of `r` holds it. The user
pages are those below the trapframe. -/

abbrev USER : Nat := TRAPFRAME / PGSIZE

variable {v : Nat}

theorem user_lt_vpns (below : v < USER) : v < VPNS := by grind

structure Space (L : Layout) (role : Roles) (m : Machine) (r : Nat) (X : Nat → Word) : Prop where
  heap : Heap L role m.freelist
  table : Table role m.page r
  lookup : ∀ v, v < VPNS → lookup m.page r v = X v
  user : ∀ v, v < USER → X v ≠ 0 → IsLeaf (X v) ∧ role (pte2pa (X v)) = .user r v
  owned : ∀ p v, role p = .user r v → v < USER ∧ X v ≠ 0 ∧ pte2pa (X v) = p

section
variable {L : Layout} {role role' : Roles} {m t : Machine} {r u v b : Nat} {X : Nat → Word} {w perm : Word}

section

variable (space : Space L role m r X)

include space

theorem Space.entry (below : v < VPNS) (bottom : role b = .bottom r (idx 2 v) (idx 1 v)) : m.page b (idx 0 v) = X v := by
  rw [← space.lookup v below, space.table.lookup_bottom space.heap.ram bottom]

theorem Space.remap (heap : Heap L role' t.freelist) (table : Table role' t.page r)
    (same : ∀ v, v < VPNS → Vm.lookup t.page r v = Vm.lookup m.page r v)
    (users : ∀ p v, role' p = .user r v ↔ role p = .user r v) : Space L role' t r X where
  heap := heap
  table := table
  lookup v below := (same v below).trans (space.lookup v below)
  user v below mapped := by grind [space.user]
  owned p v user := space.owned p v ((users p v).mp user)

theorem Space.frame {S : Role → Prop} (heap : Heap L role' t.freelist)
    (keeps : Keeps S role m.page role' t.page) (inside : ∀ ρ : Role, ρ.spaceOf = some r → S ρ) : Space L role' t r X := by
  have inTable (ρ : Role) (part : ρ.tableOf = some r) : S ρ := inside ρ (Role.spaceOf_of_tableOf part)
  apply space.remap heap
  · exact space.table.keeps keeps inTable
  · intro v _
    exact space.table.lookup_keeps space.heap.ram heap.ram keeps inTable v
  · intro p v
    exact keeps.iff (inside _ rfl) p

theorem Space.tree : Tree L role m r := ⟨space.heap, space.table⟩

end

/-! ## `walk` -/

theorem walk_find {va : Nat} (space : Space L role m r X) (below : va < MAXVA) :
    wp (walk r va false) (fun found t => t = m ∧ (found = none ∧ X (va / PGSIZE) = 0 ∨
      ∃ b, found = some (b, idx 0 (va / PGSIZE)) ∧
        role b = .bottom r (idx 2 (va / PGSIZE)) (idx 1 (va / PGSIZE)))) m := by
  rw [← space.lookup _ (div_lt_vpns below)]
  exact space.tree.walk_find below

def Grown (L : Layout) (role : Roles) (m : Machine) (r : Nat) (X : Nat → Word) (role' : Roles) (t : Machine) : Prop :=
  Space L role' t r X ∧ Keeps (Role.OutsideTable r) role m.page role' t.page

theorem Space.grown (space : Space L role m r X) (grows : Grows L role m r role' t) : Grown L role m r X role' t := by
  refine ⟨?_, grows.keeps⟩
  apply space.remap grows.tree.heap grows.tree.table
  · intro v _
    exact grows.same v
  · intro p v
    exact grows.keeps.iff (by simp) p

theorem Space.same (space : Space L role m r X) (page : t.page = m.page) (freelist : t.freelist = m.freelist) :
    Grown L role m r X role t :=
  space.grown (space.tree.grows page freelist)

theorem walk_grown {va : Nat} (space : Space L role m r X) (below : va < MAXVA) :
    wp (walk r va true) (fun found t => ∃ role', Grown L role m r X role' t ∧
      ∀ b k, found = some (b, k) → k = idx 0 (va / PGSIZE) ∧
        role' b = .bottom r (idx 2 (va / PGSIZE)) (idx 1 (va / PGSIZE))) m := by
  apply (space.tree.walk_grows below).mono
  rintro found t ⟨role', grows, slot⟩
  exact ⟨role', space.grown grows, slot⟩

/-! ## Changing an entry -/

theorem Space.write {page : Nat → Page} (space : Space L role m r X) (below : v < VPNS)
    (bottom : role b = .bottom r (idx 2 v) (idx 1 v)) (heap : Heap L role' t.freelist)
    (keeps : Keeps (fun ρ => ρ.tableOf = some r) role m.page role' page) (written : t.page = put page b (idx 0 v) w)
    (user : ∀ u, u < USER → update X v w u ≠ 0 → IsLeaf (update X v w u) ∧ role' (pte2pa (update X v w u)) = .user r u)
    (owned : ∀ p u, role' p = .user r u → u < USER ∧ update X v w u ≠ 0 ∧
      pte2pa (update X v w u) = p) : Space L role' t r (update X v w) := by
  have table : Table role' page r := space.table.keeps keeps fun _ => id
  have bottom' : role' b = .bottom r (idx 2 v) (idx 1 v) := (keeps.iff rfl b).mpr bottom
  refine ⟨heap, ?_, ?_, user, owned⟩
  · exact written ▸ table.setLeaf bottom' w
  · intro u inside
    rw [written, table.lookup_setLeaf heap.ram bottom' below inside, update_apply]
    by_cases same : u = v
    · simp only [same, ↓reduceIte]
    · rw [space.table.lookup_keeps space.heap.ram heap.ram keeps (fun _ => id), space.lookup u inside]

/-- The address space of `r` comes to be `X`; pages in use outside it stay as they are, and no page
gets lost. -/
structure Moves (L : Layout) (role : Roles) (m : Machine) (role' : Roles) (t : Machine) (r : Nat)
    (X : Nat → Word) : Prop where
  space : Space L role' t r X
  keeps : Keeps (Role.OutsideSpace r) role m.page role' t.page
  settled : Settled role role'

theorem Moves.refl (space : Space L role m r X) : Moves L role m role m r X :=
  ⟨space, Keeps.refl, Settled.refl⟩

theorem Moves.trans {role'' : Roles} {t' : Machine} {Y : Nat → Word} (first : Moves L role m role' t r X)
    (second : Moves L role' t role'' t' r Y) : Moves L role m role'' t' r Y :=
  ⟨second.space, first.keeps.trans second.keeps, first.settled.trans second.settled⟩

theorem Grown.moves (grown : Grown L role m r X role' t) : Moves L role m role' t r X where
  space := grown.1
  keeps := grown.2.mono fun _ => Role.OutsideSpace.outsideTable
  settled :=
    ⟨grown.2.iff (by simp),
      fun p => (grown.2.iff (by simp) p).mp⟩

theorem Space.mapUser {mem : Nat} (space : Space L role m r X) (below : v < USER) (empty : X v = 0)
    (scratch : role mem = .scratch) (small : perm.toNat < 1024) (access : perm &&& PTE_RWX ≠ 0)
    (bottom : role b = .bottom r (idx 2 v) (idx 1 v)) (written : t.page = put m.page b (idx 0 v) (leaf mem perm))
    (freelist : t.freelist = m.freelist) :
    Moves L role m (update role mem (.user r v)) t r (update X v (leaf mem perm)) := by
  have ram : Ram L mem := space.heap.ram mem (by simp [scratch])
  have address : pte2pa (leaf mem perm) = mem := pte2pa_leaf ram.below ram.1 small
  have heap : Heap L (update role mem (.user r v)) t.freelist := by
    rw [freelist]
    apply space.heap.assign scratch
    · simp
    · rintro r' ⟨⟩
      exact space.table.root
    · simp
  refine ⟨?_, ?_, ?_⟩
  · apply space.write _ bottom heap (keeps_role _ _) written
    · intro u inside mapped
      by_cases same : u = v
      · subst same
        simp only [update_self]
        exact ⟨isLeaf_leaf mem access, by simp [address]⟩
      · simp only [ne_eq, same, not_false_eq_true, update_of_ne] at mapped ⊢
        obtain ⟨isLeaf, user⟩ := space.user u inside mapped
        exact ⟨isLeaf, update_role user (role_ne user scratch (by simp))⟩
    · intro p u user
      by_cases same : p = mem
      · subst same
        obtain rfl : v = u := by simpa using user
        exact ⟨below, by simpa using (isLeaf_leaf p access).ne_zero, by simp [address]⟩
      · grind [user, space.owned]
    · exact user_lt_vpns below
    · simp [scratch]
    · simp
  · rw [written]
    have first : Keeps (Role.OutsideSpace r) role m.page (update role mem (.user r v)) m.page :=
      keeps_role (by simp [scratch, Role.InUse]) (by simp)
    apply first.trans
    apply keeps_store
    rw [update_role bottom (role_ne bottom scratch (by simp))]
    simp
  · exact settled_update (by simp [scratch]) (by simp) (by simp)

theorem Space.writeFixed (space : Space L role m r X) (above : USER ≤ v) (below : v < VPNS)
    (bottom : role b = .bottom r (idx 2 v) (idx 1 v)) (written : t.page = put m.page b (idx 0 v) w)
    (freelist : t.freelist = m.freelist) : Space L role t r (update X v w) := by
  have fixed {u : Nat} (inside : u < USER) : u ≠ v := by omega
  apply space.write below bottom (freelist ▸ space.heap) Keeps.refl written
  · intro u inside
    simpa [fixed inside] using space.user u inside
  · grind [user, space.owned]

theorem Space.unmapUser {contents : Page} (space : Space L role m r X) (below : v < USER) (mapped : X v ≠ 0)
    (bottom : role b = .bottom r (idx 2 v) (idx 1 v))
    (written : t.page = put (update m.page (pte2pa (X v)) contents) b (idx 0 v) 0)
    (freelist : t.freelist = pte2pa (X v) :: m.freelist) :
    Moves L role m (update role (pte2pa (X v)) .free) t r (update X v 0) := by
  obtain ⟨-, user⟩ := space.user v below mapped
  have heap : Heap L (update role (pte2pa (X v)) .free) t.freelist := by
    grind [space.heap.release, space.heap.ram, space.heap.childless]
  refine ⟨?_, ?_, settled_update (by simp [user]) (by simp) (by simp)⟩
  · apply space.write (user_lt_vpns below) bottom heap (keeps_update _ _) written
    · intro u inside mapped'
      have other : u ≠ v := by
        rintro rfl
        simp at mapped'
      simp only [ne_eq, other, not_false_eq_true, update_of_ne] at mapped' ⊢
      obtain ⟨isLeaf, user'⟩ := space.user u inside mapped'
      exact ⟨isLeaf, update_role user' (role_ne user' user (by simpa using other))⟩
    · intro p u user'
      obtain ⟨different, old⟩ := of_update_role user' (by simp)
      obtain ⟨inside, mapped', back⟩ := space.owned p u old
      have other : u ≠ v := by
        rintro rfl
        exact different back.symm
      simpa [other] using ⟨inside, mapped', back⟩
    · simp [user]
    · simp
  · rw [written]
    apply keeps_update_put
    · simp [user]
    · simp [Role.InUse]
    · simp [bottom]
    · exact role_ne bottom user (by simp)

/-! ## `mappages` -/

theorem pgRoundDown_mul (v : Nat) : pgRoundDown (v * PGSIZE) = v * PGSIZE := by
  simp only [pgRoundDown, PGSIZE]
  omega

theorem mappages_one (pa : Nat) (perm : Word) (below : v * PGSIZE < MAXVA) :
    mappages r (v * PGSIZE) PGSIZE pa perm = mapLoop r 1 (v * PGSIZE) pa perm := by
  have last : pgRoundDown ((v * PGSIZE + PGSIZE - 1) % 2 ^ 64) = v * PGSIZE := by
    simp only [pgRoundDown, PGSIZE, MAXVA] at *
    omega
  have once : (v * PGSIZE + 2 ^ 64 - v * PGSIZE) % 2 ^ 64 / PGSIZE + 1 = 1 := by
    rw [Nat.add_sub_cancel_left, Nat.mod_self, Nat.zero_div]
  have size : PGSIZE ≠ 0 := by decide
  simp only [mappages, size, ↓reduceIte, pgRoundDown_mul, last, once]

theorem mul_div_pgsize (v : Nat) : v * PGSIZE / PGSIZE = v := by
  simp only [PGSIZE]
  omega

theorem mul_lt_maxva (below : v < USER + 2) : v * PGSIZE < MAXVA := by grind

theorem mappages_rule {pa : Nat} {W : Option (Nat × Fin 512) → Machine → Prop} {Q : Bool → Machine → Prop}
    (space : Space L role m r X) (below : v < USER + 2) (empty : X v = 0) (walked : wp (walk r (v * PGSIZE) true) W m)
    (failed : ∀ role' t, Grown L role m r X role' t → W none t → Q false t)
    (mapped : ∀ role' b t, Grown L role m r X role' t → role' b = .bottom r (idx 2 v) (idx 1 v) → W (some (b, idx 0 v)) t →
      Q true { t with page := put t.page b (idx 0 v) (leaf pa perm) }) :
    wp (mappages r (v * PGSIZE) PGSIZE pa perm) Q m := by
  rw [mappages_one pa perm (mul_lt_maxva below)]
  simp only [mapLoop, wp_bind]
  apply ((walk_grown space (mul_lt_maxva below)).and walked).mono
  rintro (_ | ⟨b, k⟩) t ⟨⟨role', grown, found⟩, walked⟩
  · simp only [wp_pure]
    exact failed role' t grown walked
  · obtain ⟨rfl, bottom⟩ := found b k rfl
    simp only [mul_div_pgsize] at bottom walked ⊢
    have entry : t.page b (idx 0 v) = 0 := by
      rw [grown.1.entry _ bottom, empty]
      simp only [USER, VPNS, TRAPFRAME, TRAMPOLINE, MAXVA, PGSIZE] at *
      omega
    simp only [wp_bind, wp_load, entry, zero_valid, ne_eq, not_true_eq_false, ↓reduceIte, wp_store, wp_pure]
    exact mapped role' b t grown bottom walked

theorem mappages_fixed {pa : Nat} (space : Space L role m r X) (above : USER ≤ v) (below : v < USER + 2)
    (empty : X v = 0) :
    wp (mappages r (v * PGSIZE) PGSIZE pa perm) (fun mapped t => ∃ role',
      Moves L role m role' t r (if mapped then update X v (leaf pa perm) else X)) m := by
  refine mappages_rule space below empty (walk_grown space (mul_lt_maxva below)) ?_ ?_
  · exact fun role' t grown _ => ⟨role', grown.moves⟩
  · intro role' b t grown bottom _
    refine ⟨role', grown.moves.trans ⟨grown.1.writeFixed above ?_ bottom rfl rfl, ?_, Settled.refl⟩⟩
    · grind
    · apply keeps_store
      simp [bottom]

theorem mappages_user {mem : Nat} (space : Space L role m r X) (below : v < USER) (empty : X v = 0)
    (scratch : role mem = .scratch) (small : perm.toNat < 1024) (access : perm &&& PTE_RWX ≠ 0) :
    wp (mappages r (v * PGSIZE) PGSIZE mem perm) (fun mapped t => ∃ role',
      mapped = false ∧ role' mem = .scratch ∧ Moves L role m role' t r X ∨
      mapped = true ∧ role' mem = .user r v ∧
        (∀ p, (role p).OutsideTable r → t.page p = m.page p) ∧
        Moves L role m role' t r (update X v (leaf mem perm))) m := by
  have low : v < USER + 2 := by omega
  refine mappages_rule space low empty (walk_grown space (mul_lt_maxva low)) ?_ ?_
  · intro role' t grown _
    refine ⟨role', .inl ⟨rfl, ?_, grown.moves⟩⟩
    rw [(grown.2.iff _ mem).mpr scratch]
    simp
  · intro role' b t grown bottom _
    have scratch' : role' mem = .scratch :=
      (grown.2.iff (by simp) mem).mpr scratch
    have kept (p : Nat) (outside : (role p).OutsideTable r) : put t.page b (idx 0 v) (leaf mem perm) p = m.page p := by
      obtain ⟨sameRole, samePage⟩ := grown.2.old p outside
      have other : p ≠ b := by
        rintro rfl
        rw [← sameRole, bottom] at outside
        exact outside.2 rfl
      rw [put_other other, samePage]
    exact ⟨_, .inr ⟨rfl, update_self _ _ _, kept, grown.moves.trans
      (grown.1.mapUser below empty scratch' small access bottom rfl rfl)⟩⟩

end

end Xv6.Vm
