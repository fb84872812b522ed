import Xv6.Vm.Table

namespace Xv6.Vm
open Lib Function

attribute [local simp] Role.tableOf Role.OutsideTable

/-! ## A page table beside the free list

Nothing is said here about the entries of the lowest level, so this holds of the page table of the
kernel as well as of those of processes. -/

structure Tree (L : Layout) (role : Roles) (m : Machine) (r : Nat) : Prop where
  heap : Heap L role m.freelist
  table : Table role m.page r

section
variable {L : Layout} {role role' : Roles} {m t : Machine} {r v q b : Nat} {w : Word}

theorem Tree.entry (tree : Tree L role m r) (bottom : role b = .bottom r (idx 2 v) (idx 1 v)) :
    m.page b (idx 0 v) = lookup m.page r v :=
  (tree.table.lookup_bottom tree.heap.ram bottom).symm

theorem Tree.write (tree : Tree L role m r) (below : v < VPNS) (bottom : role b = .bottom r (idx 2 v) (idx 1 v))
    (written : t.page = put m.page b (idx 0 v) w) (freelist : t.freelist = m.freelist) :
    Tree L role t r ∧ ∀ u, u < VPNS → lookup t.page r u = if u = v then w else lookup m.page r u := by
  refine ⟨⟨freelist ▸ tree.heap, ?_⟩, fun u inside => ?_⟩
  · rw [written]
    exact tree.table.setLeaf bottom w
  · rw [written]
    exact tree.table.lookup_setLeaf tree.heap.ram bottom below inside

/-! ## One level of `walk` -/

theorem zero_valid : (0 : Word) &&& PTE_V = 0 := by decide

theorem link_valid_ne (q : Nat) : link q &&& PTE_V ≠ 0 := by
  rw [link_valid]
  decide

section
variable {Q : Option Nat → Machine → Prop} {level va : Nat} {alloc : Bool}

theorem walkLevel_link (down : m.page q (px level va) = link b) (ram : Ram L b) :
    wp (walkLevel level q va alloc) Q m ↔ Q (some b) m := by
  simp only [walkLevel, wp_bind, wp_load, down, ne_eq, link_valid_ne, not_false_eq_true,
    ↓reduceIte, pte2pa_link ram, wp_pure]

theorem walkLevel_stop (empty : m.page q (px level va) = 0) : wp (walkLevel level q va false) Q m ↔ Q none m := by
  simp only [walkLevel, wp_bind, wp_load, empty, zero_valid, ne_eq, not_true_eq_false,
    ↓reduceIte, Bool.not_false, wp_pure]

theorem walkLevel_grow (heap : Heap L role m.freelist) (empty : m.page q (px level va) = 0)
    (fails : ∀ t : Machine, ¬ Supply m 1 → t.page = m.page → t.freelist = m.freelist → Q none t)
    (gives : ∀ b (t : Machine), role b = .free → Heap L (update role b .scratch) t.freelist →
      t.page = put (update m.page b fun _ => 0) q (px level va) (link b) → Draws m t 1 → Q (some b) t) :
    wp (walkLevel level q va true) Q m := by
  simp only [walkLevel, wp_bind, wp_load, empty, zero_valid, ne_eq, not_true_eq_false,
    ↓reduceIte, Bool.not_true, Bool.false_eq_true]
  apply kalloc_rule heap
  · grind [wp_pure]
  · intro b t free heap' page drawn
    simp only [wp_bind, wp_setPage, wp_store, wp_pure]
    refine gives b _ free heap' ?_ drawn
    simp only [page, update_idem, put]
    rfl

end

/-! ## `walk` that does not allocate -/

theorem div_lt_vpns (below : va < MAXVA) : va / PGSIZE < VPNS := by
  simp only [MAXVA, VPNS, PGSIZE] at *
  omega

theorem Tree.walk_find (tree : Tree L role m r) (below : va < MAXVA) :
    wp (walk r va false) (fun found t => t = m ∧ (found = none ∧ lookup m.page r (va / PGSIZE) = 0 ∨
      ∃ b, found = some (b, idx 0 (va / PGSIZE)) ∧
        role b = .bottom r (idx 2 (va / PGSIZE)) (idx 1 (va / PGSIZE)))) m := by
  have missing := tree.table.lookup_missing (v := va / PGSIZE) tree.heap.ram
  have high : ¬ MAXVA ≤ va := by omega
  simp only [walk, high, ↓reduceIte, wp_bind]
  rcases tree.table.top (idx 2 (va / PGSIZE)) with zero | ⟨q, down, middle⟩
  · rw [← px_eq_idx] at zero
    rw [walkLevel_stop zero, wp_pure]
    refine ⟨rfl, .inl ⟨rfl, missing fun b bottom => ?_⟩⟩
    obtain ⟨q, middle, -⟩ := tree.table.middleBack b _ _ bottom
    rw [px_eq_idx, tree.table.topBack q _ middle] at zero
    exact link_ne_zero q zero
  · rw [← px_eq_idx] at down
    rw [walkLevel_link down (tree.heap.ram q (by simp [middle]))]
    rcases tree.table.middle q _ (idx 1 (va / PGSIZE)) middle with zero | ⟨b, down', bottom⟩
    · rw [← px_eq_idx] at zero
      simp only [wp_bind]
      rw [walkLevel_stop zero, wp_pure]
      refine ⟨rfl, .inl ⟨rfl, missing fun b bottom => ?_⟩⟩
      obtain ⟨q', middle', down'⟩ := tree.table.middleBack b _ _ bottom
      obtain rfl := tree.table.middle_unique tree.heap.ram middle middle'
      rw [px_eq_idx, down'] at zero
      exact link_ne_zero b zero
    · rw [← px_eq_idx] at down'
      simp only [wp_bind]
      rw [walkLevel_link down' (tree.heap.ram b (by simp [bottom])), wp_pure]
      exact ⟨rfl, .inr ⟨b, by rw [px_eq_idx], bottom⟩⟩

/-! ## `walk` that allocates -/

structure Grows (L : Layout) (role : Roles) (m : Machine) (r : Nat) (role' : Roles) (t : Machine) : Prop where
  tree : Tree L role' t r
  same : ∀ v, lookup t.page r v = lookup m.page r v
  keeps : Keeps (Role.OutsideTable r) role m.page role' t.page

theorem Tree.grows (tree : Tree L role m r) (page : t.page = m.page) (freelist : t.freelist = m.freelist) :
    Grows L role m r role t := by
  refine ⟨⟨freelist ▸ tree.heap, page ▸ tree.table⟩, fun v => by rw [page], ?_⟩
  rw [page]
  exact Keeps.refl

theorem Grows.trans {role'' : Roles} {t' : Machine} (first : Grows L role m r role' t) (second : Grows L role' t r role'' t') :
    Grows L role m r role'' t' :=
  ⟨second.tree, fun v => (second.same v).trans (first.same v), first.keeps.trans second.keeps⟩

section

variable (tree : Tree L role m r)

include tree

theorem Tree.growMiddle (free : role q = .free)
    (heap : Heap L (update role q .scratch) t.freelist) (empty : m.page r i = 0)
    (page : t.page = put (update m.page q fun _ => 0) r i (link q)) : Grows L role m r (update role q (.middle r i)) t := by
  have heap' : Heap L (update role q (.middle r i)) t.freelist :=
    heap.place free tree.table.root rfl (by simp)
  have table := tree.table.setMiddle tree.heap.ram (.inl ⟨free, empty⟩) (.inl ⟨rfl, rfl⟩) (by simp [free]) fun _ _ => rfl
  refine ⟨⟨heap', page ▸ table⟩, fun v => ?_, ?_⟩
  · rw [page]
    exact tree.table.lookup_addMiddle table tree.heap.ram heap'.ram free
  · rw [page]
    apply keeps_update_put
    · simp [free]
    · simp
    · simp [tree.table.root]
    · exact role_ne tree.table.root free (by simp)

theorem Tree.growBottom {j : Fin 512} (free : role b = .free)
    (heap : Heap L (update role b .scratch) t.freelist) (parent : role q = .middle r i) (empty : m.page q j = 0)
    (page : t.page = put (update m.page b fun _ => 0) q j (link b)) :
    Grows L role m r (update role b (.bottom r i j)) t := by
  have heap' : Heap L (update role b (.bottom r i j)) t.freelist :=
    heap.place free tree.table.root rfl (by simp)
  have table := tree.table.setBottom tree.heap.ram parent (.inl ⟨free, empty⟩) (.inl ⟨rfl, rfl⟩) fun _ => 0
  refine ⟨⟨heap', page ▸ table⟩, fun v => ?_, ?_⟩
  · rw [page]
    exact tree.table.lookup_addBottom table tree.heap.ram heap'.ram free parent empty
  · rw [page]
    apply keeps_update_put
    · simp [free]
    · simp
    · simp [parent]
    · exact role_ne parent free (by simp)

theorem Tree.walkMiddle :
    wp (walkLevel 2 r va true) (fun found t => ∃ role', Grows L role m r role' t ∧
      ∀ q, found = some q → role' q = .middle r (px 2 va)) m := by
  rcases tree.table.top (px 2 va) with zero | ⟨q, down, middle⟩
  · apply walkLevel_grow tree.heap zero
    · intro t _ page freelist
      exact ⟨role, tree.grows page freelist, by simp⟩
    · intro q t free heap page _
      refine ⟨_, tree.growMiddle free heap zero page, ?_⟩
      rintro q' ⟨⟩
      simp
  · rw [walkLevel_link down (tree.heap.ram q (by simp [middle]))]
    refine ⟨role, tree.grows rfl rfl, ?_⟩
    rintro q' ⟨⟩
    exact middle

theorem Tree.walkBottom (middle : role q = .middle r (px 2 va)) :
    wp (walkLevel 1 q va true) (fun found t => ∃ role', Grows L role m r role' t ∧
      ∀ b, found = some b → role' b = .bottom r (px 2 va) (px 1 va)) m := by
  rcases tree.table.middle q _ (px 1 va) middle with zero | ⟨b, down, bottom⟩
  · apply walkLevel_grow tree.heap zero
    · intro t _ page freelist
      exact ⟨role, tree.grows page freelist, by simp⟩
    · intro b t free heap page _
      refine ⟨_, tree.growBottom free heap middle zero page, ?_⟩
      rintro b' ⟨⟩
      simp
  · rw [walkLevel_link down (tree.heap.ram b (by simp [bottom]))]
    refine ⟨role, tree.grows rfl rfl, ?_⟩
    rintro b' ⟨⟩
    exact bottom

theorem Tree.walk_grows (below : va < MAXVA) :
    wp (walk r va true) (fun found t => ∃ role', Grows L role m r role' t ∧
      ∀ b k, found = some (b, k) → k = idx 0 (va / PGSIZE) ∧
        role' b = .bottom r (idx 2 (va / PGSIZE)) (idx 1 (va / PGSIZE))) m := by
  have high : ¬ MAXVA ≤ va := by omega
  simp only [walk, high, ↓reduceIte, wp_bind]
  apply tree.walkMiddle.mono
  rintro (_ | q) t ⟨role', grows, isMiddle⟩
  · simp only [wp_pure]
    exact ⟨role', grows, by simp⟩
  · simp only [wp_bind]
    apply (grows.tree.walkBottom (isMiddle q rfl)).mono
    rintro (_ | b) t' ⟨role'', grows', isBottom⟩
    · simp only [wp_pure]
      exact ⟨role'', grows.trans grows', by simp⟩
    · simp only [wp_pure]
      refine ⟨role'', grows.trans grows', ?_⟩
      rintro b' k ⟨⟩
      rw [← px_eq_idx, ← px_eq_idx, ← px_eq_idx]
      exact ⟨rfl, isBottom b rfl⟩

end

end

end Xv6.Vm
