import Xv6.Vm.Tree

namespace Xv6.Vm
open Lib

/-! ## A page table as a map -/

def mapping (page : Nat → Page) (r v : Nat) : Option (Nat × Word) :=
  let pte := lookup page r v
  if pte &&& PTE_V = 0 then none else some (pte2pa pte, pteFlags pte)

/-- The pages of the table are distinct pages of memory that are not free, and each entry of its upper
two levels is 0 or leads to a page of the next level. -/
def WellFormed (L : Layout) (m : Machine) (r : Nat) : Prop := ∃ role, Tree L role m r

section
variable {L : Layout} {role : Roles} {m t u : Machine} {r v n pa va : Nat} {perm : Word} {page : Nat → Page}

theorem mapping_congr {page' : Nat → Page} (same : lookup page' r v = lookup page r v) :
    mapping page' r v = mapping page r v := by
  rw [mapping, mapping, same]

theorem mapping_eq_none (invalid : lookup page r v &&& PTE_V = 0) : mapping page r v = none :=
  if_pos invalid

theorem leaf_valid (pa : Nat) (perm : Word) : leaf pa perm &&& PTE_V ≠ 0 := by
  rw [leaf, BitVec.or_assoc, pte_and pa _ (by decide), BitVec.and_or_distrib_right]
  intro zero
  exact absurd (BitVec.or_eq_zero_iff.mp zero).2 (by decide)

theorem small_and (small : perm.toNat < 1024) : perm &&& 0x3ff = perm := by
  apply BitVec.eq_of_toNat_eq
  exact (Nat.and_two_pow_sub_one_eq_mod perm.toNat 10).trans (Nat.mod_eq_of_lt small)

theorem pteFlags_leaf_small (pa : Nat) (small : perm.toNat < 1024) : pteFlags (leaf pa perm) = perm ||| PTE_V := by
  rw [pteFlags, leaf, BitVec.or_assoc, pte_and pa _ (by decide), small_and (or_valid_toNat small)]

theorem mapping_leaf (entry : lookup page r v = leaf pa perm) (small : perm.toNat < 1024) :
    mapping page r v = some (pgRoundDown (pa % 2 ^ 64), perm ||| PTE_V) := by
  have address : pte2pa (leaf pa perm) = pgRoundDown (pa % 2 ^ 64) := by
    rw [leaf, BitVec.or_assoc]
    exact pte2pa_page pa (or_valid_toNat small)
  rw [mapping, entry, if_neg (leaf_valid pa perm), address, pteFlags_leaf_small pa small]

/-! ## `walk` -/

theorem walk_high {alloc : Bool} {E : Panic → Prop} {Q : Option (Nat × Fin 512) → Machine → Prop}
    (high : MAXVA ≤ va) (stops : E .walk) : ends (walk r va alloc) E Q m := by
  simpa only [walk, high, ↓reduceIte, ends_bind, ends_throw] using stops

theorem Tree.walk_slot {found : Option (Nat × Fin 512)} (tree : Tree L role m r) (below : va < MAXVA)
    (walked : (walk r va false).run m = .ok (found, t)) :
    t = m ∧ (found = none → lookup m.page r (va / PGSIZE) = 0) ∧
      ∀ b k, found = some (b, k) → k = idx 0 (va / PGSIZE) ∧
        role b = .bottom r (idx 2 (va / PGSIZE)) (idx 1 (va / PGSIZE)) := by
  have post := (tree.walk_find below).ends (E := fun _ => False)
  obtain ⟨rfl, ⟨rfl, zero⟩ | ⟨b, rfl, bottom⟩⟩ := post.of_run walked
  · exact ⟨rfl, fun _ => zero, by simp⟩
  · grind

theorem Tree.walk_distinct {va' : Nat} {slot : Nat × Fin 512} (tree : Tree L role m r) (aligned : va % PGSIZE = 0)
    (aligned' : va' % PGSIZE = 0) (below : va < MAXVA) (below' : va' < MAXVA)
    (walked : (walk r va false).run m = .ok (some slot, m)) (walked' : (walk r va' false).run m = .ok (some slot, m)) :
    va = va' := by
  obtain ⟨-, -, found⟩ := tree.walk_slot below walked
  obtain ⟨-, -, found'⟩ := tree.walk_slot below' walked'
  obtain ⟨zero, bottom⟩ := found slot.1 slot.2 rfl
  obtain ⟨zero', bottom'⟩ := found' slot.1 slot.2 rfl
  obtain ⟨two, one⟩ : idx 2 (va / PGSIZE) = idx 2 (va' / PGSIZE) ∧ idx 1 (va / PGSIZE) = idx 1 (va' / PGSIZE) := by
    simpa [bottom] using bottom'
  have page := idx_injective (div_lt_vpns below) (div_lt_vpns below') two one (zero.symm.trans zero')
  calc va = va / PGSIZE * PGSIZE := (Nat.div_mul_cancel (Nat.dvd_of_mod_eq_zero aligned)).symm
    _ = va' / PGSIZE * PGSIZE := by rw [page]
    _ = va' := Nat.div_mul_cancel (Nat.dvd_of_mod_eq_zero aligned')

/-! ## `mappages` -/

/-- The entries of the `n` pages from `v` on were not valid and now lead to the pages from `pa` on; the
others are as before. -/
structure Adds (m t : Machine) (r v n pa : Nat) (perm : Word) : Prop where
  low : ∀ i, i < n → (v + i) * PGSIZE < MAXVA
  before : ∀ i, i < n → lookup m.page r (v + i) &&& PTE_V = 0
  after : ∀ i, i < n → lookup t.page r (v + i) = leaf (pa + i * PGSIZE) perm
  others : ∀ u, u < VPNS → ¬ (v ≤ u ∧ u < v + n) → lookup t.page r u = lookup m.page r u

theorem Adds.cons (low : v * PGSIZE < MAXVA) (before : lookup m.page r v &&& PTE_V = 0)
    (written : ∀ x, x < VPNS → lookup u.page r x = if x = v then leaf pa perm else lookup m.page r x)
    (rest : Adds u t r (v + 1) n (pa + PGSIZE) perm) : Adds m t r v (n + 1) pa perm := by
  have inside (i : Nat) (less : i < n) : v + (i + 1) < VPNS := by
    have below := rest.low i less
    simp only [MAXVA, VPNS, PGSIZE] at *
    omega
  have next (i : Nat) : v + 1 + i = v + (i + 1) := by omega
  have inside0 : v < VPNS := by
    simp only [MAXVA, VPNS, PGSIZE] at *
    omega
  constructor
  · intro i less
    cases i with
    | zero => exact low
    | succ i =>
      rw [← next]
      exact rest.low i (by omega)
  · intro i less
    cases i with
    | zero => exact before
    | succ i =>
      have invalid := rest.before i (by omega)
      rwa [next, written _ (inside i (by omega)), if_neg (by omega)] at invalid
  · intro i less
    cases i with
    | zero =>
      rw [Nat.add_zero, rest.others v inside0 (by omega), written v inside0, if_pos rfl, Nat.zero_mul, Nat.add_zero]
    | succ i =>
      rw [← next, rest.after i (by omega)]
      congr 1
      simp only [PGSIZE]
      omega
  · intro x below outside
    rw [rest.others x below (by omega), written x below, if_neg (by omega)]

theorem mapLoop_adds (tree : Tree L role m r) :
    ends (mapLoop r n (v * PGSIZE) pa perm) (fun _ => True) (fun mapped t => WellFormed L t r ∧
      (mapped = true → Adds m t r v n pa perm)) m := by
  induction n generalizing role m v pa with
  | zero =>
    simp only [mapLoop, ends_pure]
    refine ⟨⟨role, tree⟩, fun _ => ⟨?_, ?_, ?_, fun _ _ _ => rfl⟩⟩ <;> intro i less <;> cases less
  | succ n ih =>
    simp only [mapLoop, ends_bind]
    by_cases high : MAXVA ≤ v * PGSIZE
    · exact walk_high high trivial
    have low : v * PGSIZE < MAXVA := by omega
    have page : v * PGSIZE / PGSIZE = v := by
      simp only [PGSIZE]
      omega
    have below : v < VPNS := by
      have bound := div_lt_vpns low
      rwa [page] at bound
    apply (tree.walk_grows low).ends.mono
    rintro (_ | ⟨b, k⟩) u ⟨role', grows, found⟩
    · simp only [ends_pure]
      exact ⟨⟨role', grows.tree⟩, by simp⟩
    obtain ⟨rfl, bottom⟩ := found b k rfl
    simp only [page] at bottom ⊢
    simp only [ends_bind]
    apply wp.ends
    simp only [wp_load]
    rw [grows.tree.entry bottom, grows.same]
    split_ifs with valid
    · simp only [ends_bind, ends_throw]
    · simp only [ends_bind]
      apply wp.ends
      simp only [wp_store]
      obtain ⟨tree', written⟩ := grows.tree.write (t := { u with page := put u.page b (idx 0 v) (leaf pa perm) })
        below bottom rfl rfl
      rw [← Nat.succ_mul]
      apply (ih tree').mono
      rintro mapped t ⟨whole, adds⟩
      refine ⟨whole, fun done => ?_⟩
      apply Adds.cons low (not_ne_iff.mp valid) (fun x inside => ?_) (adds done)
      rw [written x inside, grows.same]

/-! ## `uvmunmap` -/

def Leaves (m : Machine) (r v n : Nat) : Prop :=
  ∀ i, i < n → (v + i) * PGSIZE < MAXVA ∧ lookup m.page r (v + i) &&& PTE_V ≠ 0 ∧
    pteFlags (lookup m.page r (v + i)) ≠ PTE_V

structure Removes (m t : Machine) (r v n : Nat) : Prop where
  leaves : Leaves m r v n
  after : ∀ i, i < n → lookup t.page r (v + i) = 0
  others : ∀ u, u < VPNS → ¬ (v ≤ u ∧ u < v + n) → lookup t.page r u = lookup m.page r u

theorem leaves_succ (written : ∀ x, x < VPNS → lookup u.page r x = if x = v then 0 else lookup m.page r x) :
    Leaves m r v (n + 1) ↔ (v * PGSIZE < MAXVA ∧ lookup m.page r v &&& PTE_V ≠ 0 ∧
      pteFlags (lookup m.page r v) ≠ PTE_V) ∧ Leaves u r (v + 1) n := by
  have next (i : Nat) : v + 1 + i = v + (i + 1) := by omega
  have same (i : Nat) (low : (v + (i + 1)) * PGSIZE < MAXVA) :
      lookup u.page r (v + (i + 1)) = lookup m.page r (v + (i + 1)) := by grind
  constructor
  · intro leaves
    refine ⟨leaves 0 (by omega), fun i less => ?_⟩
    have here := leaves (i + 1) (by omega)
    rw [next, same i here.1]
    exact here
  · rintro ⟨first, rest⟩ i less
    cases i with
    | zero => exact first
    | succ i =>
      have here := rest i (by omega)
      rw [next] at here
      rwa [same i here.1] at here

theorem unmapLoop_removes (tree : Tree L role m r) : ends (unmapLoop L r false n (v * PGSIZE)) (fun _ => ¬ Leaves m r v n)
      (fun _ t => WellFormed L t r ∧ Removes m t r v n) m := by
  induction n generalizing m v with
  | zero =>
    simp only [unmapLoop, ends_pure]
    refine ⟨⟨role, tree⟩, ?_, ?_, fun _ _ _ => rfl⟩ <;> intro i less <;> cases less
  | succ n ih =>
    simp only [unmapLoop, ends_bind]
    by_cases high : MAXVA ≤ v * PGSIZE
    · exact walk_high high fun leaves => absurd (leaves 0 (by omega)).1 (Nat.not_lt.mpr high)
    have low : v * PGSIZE < MAXVA := by omega
    have page : v * PGSIZE / PGSIZE = v := by
      simp only [PGSIZE]
      omega
    have below : v < VPNS := by
      have bound := div_lt_vpns low
      rwa [page] at bound
    have first (leaves : Leaves m r v (n + 1)) : lookup m.page r v &&& PTE_V ≠ 0 ∧
        pteFlags (lookup m.page r v) ≠ PTE_V := (leaves 0 (by omega)).2
    apply (tree.walk_find low).ends.mono
    rintro found u ⟨same, slot⟩
    obtain rfl : m = u := same.symm
    rw [page] at slot
    obtain ⟨rfl, zero⟩ | ⟨b, rfl, bottom⟩ := slot
    · grind [ends_throw]
    · simp only [ends_bind]
      apply wp.ends
      simp only [wp_load]
      rw [tree.entry bottom]
      by_cases invalid : lookup m.page r v &&& PTE_V = 0
      · grind [ends_bind, ends_throw]
      by_cases inner : pteFlags (lookup m.page r v) = PTE_V
      · grind [ends_bind, ends_throw]
      simp only [invalid, inner, Bool.false_eq_true, ↓reduceIte, ends_bind]
      apply wp.ends
      simp only [wp_store]
      obtain ⟨tree', written⟩ := tree.write (t := { m with page := put m.page b (idx 0 v) 0 }) below bottom rfl rfl
      have shift := leaves_succ (n := n) written
      rw [← Nat.succ_mul]
      apply ((ih tree').mono_stop fun _ stop leaves => stop (shift.mp leaves).2).mono
      · rintro _ t ⟨whole, removes⟩
        refine ⟨whole, shift.mpr ⟨⟨low, invalid, inner⟩, removes.leaves⟩, ?_, ?_⟩
        · intro i less
          cases i with
          | zero => rw [Nat.add_zero, removes.others v below (by omega), written v below, if_pos rfl]
          | succ i => grind [removes.after]
        · intro x inside outside
          rw [removes.others x inside (by omega), written x inside, if_neg (by omega)]

theorem uvmunmap_removes (tree : Tree L role m r) :
    ends (uvmunmap L r va n false) (fun _ => ¬ (va % PGSIZE = 0 ∧ Leaves m r (va / PGSIZE) n))
      (fun _ t => WellFormed L t r ∧ Removes m t r (va / PGSIZE) n) m := by
  by_cases aligned : va % PGSIZE = 0
  · have page : va / PGSIZE * PGSIZE = va := Nat.div_mul_cancel (Nat.dvd_of_mod_eq_zero aligned)
    simp only [uvmunmap, aligned, ne_eq, not_true_eq_false, ↓reduceIte, true_and]
    have loop := unmapLoop_removes (n := n) (v := va / PGSIZE) tree
    rwa [page] at loop
  · simp only [uvmunmap, ne_eq, aligned, not_false_eq_true, ↓reduceIte, ends_bind, ends_throw, false_and]

theorem Removes.mapping (removes : Removes m t r v n) {u : Nat} (below : u < VPNS) :
    mapping t.page r u = if v ≤ u ∧ u < v + n then none else mapping m.page r u := by
  split_ifs with inside
  · grind [removes.after, Nat.add_sub_cancel', mapping_eq_none]
  · exact mapping_congr (removes.others u below inside)

theorem mappages_adds {size : Nat} (tree : Tree L role m r) :
    ends (mappages r va size pa perm) (fun _ => True) (fun mapped t => WellFormed L t r ∧
      (mapped = true → va / PGSIZE ≤ (va + size - 1) % 2 ^ 64 / PGSIZE ∧
        Adds m t r (va / PGSIZE) ((va + size - 1) % 2 ^ 64 / PGSIZE - va / PGSIZE + 1) pa perm)) m := by
  by_cases none : size = 0
  · simp only [mappages, none, ↓reduceIte, ends_bind, ends_throw]
  simp only [mappages, none, ↓reduceIte]
  apply (mapLoop_adds (v := va / PGSIZE) tree).mono
  rintro mapped t ⟨whole, adds⟩
  refine ⟨whole, fun done => ?_⟩
  have added := adds done
  have first := added.low 0 (Nat.succ_pos _)
  -- A sum that wraps would take the loop beyond the addresses that walk() admits.
  have last := added.low _ (Nat.lt_succ_self _)
  simp only [pgRoundDown, MAXVA, PGSIZE] at added first last ⊢
  have order : va / 4096 ≤ (va + size - 1) % 2 ^ 64 / 4096 := by omega
  refine ⟨order, ?_⟩
  have count : ((va + size - 1) % 2 ^ 64 / 4096 * 4096 + 2 ^ 64 - va / 4096 * 4096) % 2 ^ 64 / 4096 =
      (va + size - 1) % 2 ^ 64 / 4096 - va / 4096 := by omega
  rwa [count] at added

theorem Adds.mapping (adds : Adds m t r v n pa perm) (small : perm.toNat < 1024) {u : Nat} (below : u < VPNS) :
    mapping t.page r u = if v ≤ u ∧ u < v + n then
        some (pgRoundDown ((pa + (u - v) * PGSIZE) % 2 ^ 64), perm ||| PTE_V)
      else mapping m.page r u := by
  split_ifs with inside
  · grind [adds.after, Nat.add_sub_cancel', mapping_leaf]
  · exact mapping_congr (adds.others u below inside)

end

/-! ## The operations of `vm.c` on the map -/

structure FiniteMap (L : Layout) (m : Machine) (r : Nat) : Prop where
  find : ∀ va, va < MAXVA → ∃ found, (walk r va false).run m = .ok (found, m) ∧ match found with
    | none => mapping m.page r (va / PGSIZE) = none
    | some (q, k) => m.page q k = lookup m.page r (va / PGSIZE)
  distinct : ∀ va va' slot, va % PGSIZE = 0 → va' % PGSIZE = 0 → va < MAXVA → va' < MAXVA → va ≠ va' →
    (walk r va false).run m = .ok (some slot, m) → (walk r va' false).run m ≠ .ok (some slot, m)
  grow : ∀ va, va < MAXVA → ∃ found t, (walk r va true).run m = .ok (found, t) ∧ WellFormed L t r ∧
    ∀ v, v < VPNS → mapping t.page r v = mapping m.page r v
  map : ∀ va size pa perm t, perm.toNat < 1024 → (mappages r va size pa perm).run m = .ok (true, t) →
    WellFormed L t r ∧ ∀ v, v < VPNS → mapping t.page r v =
      if va / PGSIZE ≤ v ∧ v ≤ (va + size - 1) % 2 ^ 64 / PGSIZE then
        some (pgRoundDown ((pa + (v - va / PGSIZE) * PGSIZE) % 2 ^ 64), perm ||| PTE_V)
      else mapping m.page r v
  unmap : ∀ va n, (va % PGSIZE = 0 → Leaves m r (va / PGSIZE) n →
      ∃ t, (uvmunmap L r va n false).run m = .ok ((), t)) ∧
    ∀ t, (uvmunmap L r va n false).run m = .ok ((), t) → WellFormed L t r ∧
      ∀ v, v < VPNS → mapping t.page r v =
        if va / PGSIZE ≤ v ∧ v < va / PGSIZE + n then none else mapping m.page r v
  undo : ∀ va size pa perm t, va / PGSIZE = (va + size - 1) % 2 ^ 64 / PGSIZE → perm.toNat < 1024 →
    (mappages r va size pa perm).run m = .ok (true, t) →
    (perm ||| PTE_V ≠ PTE_V → ∃ u, (uvmunmap L r (pgRoundDown va) 1 false).run t = .ok ((), u)) ∧
    ∀ u, (uvmunmap L r (pgRoundDown va) 1 false).run t = .ok ((), u) →
      ∀ v, v < VPNS → mapping u.page r v = mapping m.page r v

theorem page_tables_are_maps {L : Layout} {m : Machine} {r : Nat} (whole : WellFormed L m r) : FiniteMap L m r := by
  obtain ⟨role, tree⟩ := whole
  constructor
  · intro va below
    obtain ⟨found, _, ran, rfl, ⟨rfl, zero⟩ | ⟨b, rfl, bottom⟩⟩ := (tree.walk_find below).run_eq
    · exact ⟨none, ran, mapping_eq_none (by rw [zero, zero_valid])⟩
    · exact ⟨_, ran, tree.entry bottom⟩
  · grind [tree.walk_distinct]
  · intro va below
    obtain ⟨found, t, ran, role', grows, -⟩ := (tree.walk_grows below).run_eq
    exact ⟨found, t, ran, ⟨role', grows.tree⟩, fun v _ => mapping_congr (grows.same v)⟩
  · intro va size pa perm t small ran
    obtain ⟨whole, added⟩ := (mappages_adds tree).of_run ran
    obtain ⟨order, adds⟩ := added rfl
    refine ⟨whole, fun v below => ?_⟩
    rw [adds.mapping small below]
    have range : va / PGSIZE ≤ v ∧ v < va / PGSIZE + ((va + size - 1) % 2 ^ 64 / PGSIZE - va / PGSIZE + 1) ↔
        va / PGSIZE ≤ v ∧ v ≤ (va + size - 1) % 2 ^ 64 / PGSIZE := by omega
    simp only [range]
  · intro va n
    refine ⟨fun aligned leaves => ?_, fun t ran => ?_⟩
    · obtain ⟨_, t, ran, -⟩ := ((uvmunmap_removes tree).total fun _ stop => stop ⟨aligned, leaves⟩).run_eq
      exact ⟨t, ran⟩
    · obtain ⟨whole, removes⟩ := (uvmunmap_removes tree).of_run ran
      exact ⟨whole, fun v below => removes.mapping below⟩
  · intro va size pa perm t one small ran
    obtain ⟨⟨role', tree'⟩, added⟩ := (mappages_adds tree).of_run ran
    obtain ⟨-, adds⟩ := added rfl
    rw [← one, Nat.sub_self] at adds
    have page : pgRoundDown va / PGSIZE = va / PGSIZE := by
      simp only [pgRoundDown, PGSIZE]
      omega
    have aligned : pgRoundDown va % PGSIZE = 0 := by simp [pgRoundDown]
    refine ⟨fun access => ?_, fun u undone v below => ?_⟩
    · have leaves : Leaves t r (pgRoundDown va / PGSIZE) 1 := by
        intro i less
        rw [page]
        have entry := adds.after i less
        refine ⟨adds.low i less, ?_, ?_⟩
        · rw [entry]
          exact leaf_valid _ _
        · rw [entry, pteFlags_leaf_small _ small]
          exact access
      obtain ⟨_, u, undone, -⟩ := ((uvmunmap_removes tree').total fun _ stop => stop ⟨aligned, leaves⟩).run_eq
      exact ⟨u, undone⟩
    · obtain ⟨-, removes⟩ := (uvmunmap_removes tree').of_run undone
      rw [page] at removes
      rw [removes.mapping below]
      split_ifs with inside
      · obtain rfl : v = va / PGSIZE := by omega
        exact (mapping_eq_none (adds.before 0 (by omega))).symm
      · rw [adds.mapping small below, if_neg inside]

-- An empty table at 0x80028000 and two free pages.
def bareTable : Machine := ⟨fun _ _ => 0, [0x80026000, 0x80027000], []⟩

theorem bareTable_wellFormed : WellFormed smallLayout bareTable 0x80028000 := by
  let role : Roles := fun p =>
    if p = 0x80028000 then .root 0x80028000 else if p = 0x80026000 ∨ p = 0x80027000 then .free else .none
  have used (p : Nat) (inUse : role p ≠ .none) : p = 0x80028000 ∨ p = 0x80026000 ∨ p = 0x80027000 := by grind
  have alone (p : Nat) (ρ : Role) (use : role p = ρ) : ρ = .root 0x80028000 ∨ ρ = .free ∨ ρ = .none := by
    simp only [role] at use
    split_ifs at use <;> simp [← use]
  refine ⟨role, ⟨?_, by decide, ?_, ?_, ?_⟩, ⟨rfl, fun _ => .inl rfl, ?_, ?_, ?_⟩⟩
  · intro p
    simp only [role, bareTable, List.mem_cons, List.not_mem_nil, or_false]
    split_ifs with root free
    · simp [root]
    · simpa using free
    · simpa using free
  · intro p inUse
    rcases used p inUse with rfl | rfl | rfl <;> decide
  · intro p r inside
    rcases alone p _ rfl with use | use | use <;> rw [use] at inside
    · obtain rfl : 0x80028000 = r := Option.some.inj inside
      rfl
    · cases inside
    · cases inside
  · grind
  · intro q i middle
    simpa using alone q _ middle
  · intro q i j middle
    simpa using alone q _ middle
  · intro b i j bottom
    simpa using alone b _ bottom

theorem page_tables_are_maps_bare : ∃ t, (mappages 0x80028000 0x1234 0x1000 0x80000000 PTE_R).run bareTable = .ok (true, t) ∧
    mapping t.page 0x80028000 1 = some (0x80000000, PTE_R ||| PTE_V) ∧
    mapping t.page 0x80028000 2 = some (0x80001000, PTE_R ||| PTE_V) ∧
    mapping t.page 0x80028000 3 = mapping bareTable.page 0x80028000 3 := by
  have computed : (((mappages 0x80028000 0x1234 0x1000 0x80000000 PTE_R).run bareTable).toOption.map (·.1)) = some true := by
    decide +kernel
  obtain ⟨⟨mapped, t⟩, ran, rfl⟩ := Option.map_eq_some_iff.mp computed
  rw [toOption_eq_some] at ran
  have maps := ((page_tables_are_maps bareTable_wellFormed).map _ _ _ _ t (by decide) ran).2
  exact ⟨t, ran, maps 1 (by decide), maps 2 (by decide), maps 3 (by decide)⟩

end Xv6.Vm
