import Xv6.Vm.Space

namespace Xv6.Vm
open Lib Function

attribute [local simp] put_apply Role.spaceOf Role.tableOf Role.OutsideSpace

/-! ## `uvmunmap` -/

def cut (X : Nat → Word) (v n : Nat) : Nat → Word := fun u => if v ≤ u ∧ u < v + n then 0 else X u

theorem cut_zero (X : Nat → Word) (v : Nat) : cut X v 0 = X := by
  funext u
  have outside : ¬ (v ≤ u ∧ u < v + 0) := by omega
  simp only [cut, outside, ↓reduceIte]

theorem cut_update (X : Nat → Word) (v n : Nat) : cut (update X v 0) (v + 1) n = cut X v (n + 1) := by
  grind [cut]

structure Releases (role : Roles) (freelist : List Nat) (role' : Roles) (freelist' : List Nat) (r : Nat) :
    Prop where
  roles : ∀ p, role' p = role p ∨ role' p = .free ∧ (role p).spaceOf = some r
  suffix : freelist <:+ freelist'

section
variable {role role' role'' : Roles} {freelist freelist' : List Nat} {q r : Nat}

theorem Releases.refl : Releases role freelist role freelist r := ⟨fun _ => .inl rfl, List.suffix_refl _⟩

theorem Releases.trans {freelist'' : List Nat} (first : Releases role freelist role' freelist' r)
    (second : Releases role' freelist' role'' freelist'' r) : Releases role freelist role'' freelist'' r := by
  refine ⟨fun p => ?_, first.suffix.trans second.suffix⟩
  rcases second.roles p with same | ⟨free, inside⟩
  · rw [same]
    exact first.roles p
  · grind [first.roles]

theorem Releases.settled (releases : Releases role freelist role' freelist' r) : Settled role role' := by
  constructor
  · intro p
    rcases releases.roles p with same | ⟨free, inside⟩
    · rw [same]
    · have used := (Role.inUse_of_spaceOf inside).1
      simp [free, used]
  · grind [releases.roles]

theorem releases_update (inside : (role q).spaceOf = some r) (freed : freelist' = q :: freelist) :
    Releases role freelist (update role q .free) freelist' r := by
  refine ⟨fun p => ?_, freed ▸ List.suffix_cons _ _⟩
  by_cases same : p = q
  · exact .inr ⟨by simp [same], same ▸ inside⟩
  · exact .inl (by simp [same])

end

section
variable {L : Layout} {role role' : Roles} {m t : Machine} {r v n q b : Nat} {X : Nat → Word}

section

variable (space : Space L role m r X) (mapped : ∀ u, v ≤ u → u < v + n → X u ≠ 0) (below : v + n ≤ USER)

include space mapped below

theorem unmapLoop_user :
    wp (unmapLoop L r true n (v * PGSIZE)) (fun _ t => ∃ role', Moves L role m role' t r (cut X v n) ∧
      Releases role m.freelist role' t.freelist r) m := by
  induction n generalizing role m v X with
  | zero =>
    simp only [unmapLoop, wp_pure]
    exact ⟨role, (cut_zero X v).symm ▸ Moves.refl space, Releases.refl⟩
  | succ n ih =>
    have here : X v ≠ 0 := mapped v (by omega) (by omega)
    obtain ⟨isLeaf, user⟩ := space.user v (by omega) here
    simp only [unmapLoop, wp_bind]
    apply (walk_find space (mul_lt_maxva (by omega))).mono
    rintro found _ ⟨rfl, ⟨-, zero⟩ | ⟨b, rfl, bottom⟩⟩
    · rw [mul_div_pgsize] at zero
      exact absurd zero here
    · rw [mul_div_pgsize] at bottom
      have entry := space.entry (user_lt_vpns (by omega)) bottom
      simp only [mul_div_pgsize, wp_bind, wp_load, entry, isLeaf.valid, isLeaf.flags_ne, ↓reduceIte]
      apply kfree_rule (space.heap.ram _ (by simp [user]))
      intro t page freelist
      have moves := space.unmapUser (t := { t with page := put t.page b (idx 0 v) 0 }) (by omega) here
        bottom (by rw [page]) freelist
      rw [← Nat.succ_mul]
      simp only [wp_bind, wp_store]
      apply (ih moves.space _ _).mono
      · rintro _ u ⟨role', moves', releases⟩
        refine ⟨role', ?_, ?_⟩
        · rw [← cut_update]
          exact moves.trans moves'
        · exact (releases_update (by rw [user]; rfl) freelist).trans releases
      · grind
      · omega

theorem uvmunmap_user :
    wp (uvmunmap L r (v * PGSIZE) n true) (fun _ t => ∃ role', Moves L role m role' t r (cut X v n) ∧
      Releases role m.freelist role' t.freelist r) m := by
  have aligned : ¬ v * PGSIZE % PGSIZE ≠ 0 := by simp
  simp only [uvmunmap, aligned, ↓reduceIte]
  exact unmapLoop_user space mapped below

end

theorem uvmunmap_fixed (space : Space L role m r X) (above : USER ≤ v) (below : v < USER + 2) (isLeaf : IsLeaf (X v)) :
    wp (uvmunmap L r (v * PGSIZE) 1 false) (fun _ t => t.freelist = m.freelist ∧
      Moves L role m role t r (update X v 0)) m := by
  have aligned : ¬ v * PGSIZE % PGSIZE ≠ 0 := by simp
  have inside : v < VPNS := by grind
  simp only [uvmunmap, aligned, ↓reduceIte, unmapLoop, wp_bind]
  apply (walk_find space (mul_lt_maxva below)).mono
  rintro found _ ⟨rfl, ⟨-, zero⟩ | ⟨b, rfl, bottom⟩⟩
  · rw [mul_div_pgsize] at zero
    exact absurd zero isLeaf.ne_zero
  · rw [mul_div_pgsize] at bottom
    have entry := space.entry inside bottom
    simp only [mul_div_pgsize, wp_bind, wp_load, entry, isLeaf.valid, isLeaf.flags_ne,
      ↓reduceIte, Bool.false_eq_true, wp_store, wp_pure]
    refine ⟨trivial, space.writeFixed above inside bottom rfl rfl, ?_, Settled.refl⟩
    apply keeps_store
    simp [bottom]

/-! ## `freewalk` -/

structure Husk (L : Layout) (role : Roles) (m : Machine) (r : Nat) : Prop where
  heap : Heap L role m.freelist
  table : Table role m.page r
  empty : ∀ b i j k, role b = .bottom r i j → m.page b k = 0
  unused : ∀ p v, role p ≠ .user r v

structure Shrinks (L : Layout) (role : Roles) (m : Machine) (role' : Roles) (t : Machine) (r : Nat) : Prop where
  husk : Husk L role' t r
  keeps : Keeps (Role.OutsideSpace r) role m.page role' t.page
  releases : Releases role m.freelist role' t.freelist r

variable {i j : Fin 512} {depth : Nat} {contents : Page} {t' : Machine}

theorem Shrinks.refl (husk : Husk L role m r) : Shrinks L role m role m r :=
  ⟨husk, Keeps.refl, Releases.refl⟩

theorem Shrinks.trans (first : Shrinks L role m role' t r)
    (second : Shrinks L role' t role'' t' r) : Shrinks L role m role'' t' r :=
  ⟨second.husk, first.keeps.trans second.keeps, first.releases.trans second.releases⟩

theorem Space.husk (space : Space L role m r X) (nothing : ∀ v, v < VPNS → X v = 0) : Husk L role m r where
  heap := space.heap
  table := space.table
  empty b i j k bottom := by
    obtain ⟨two, one, zero⟩ := idx_vpnOf i j k
    have entry := space.entry (v := vpnOf i j k) (vpnOf_lt i j k) (by rw [two, one]; exact bottom)
    rw [zero] at entry
    exact entry.trans (nothing _ (vpnOf_lt i j k))
  unused p v user := by grind [space.owned, user]

theorem freewalk_empty {Q : Unit → Machine → Prop} (positive : 0 < depth) (empty : ∀ k, m.page q k = 0) (ram : Ram L q)
    (after : ∀ t : Machine, t.page = update m.page q (fun _ => 0x0101010101010101) →
      t.freelist = q :: m.freelist → Q () t) : wp (freewalk L depth q) Q m := by
  obtain ⟨depth, rfl⟩ := Nat.exists_eq_succ_of_ne_zero positive.ne'
  simp only [freewalk, wp_bind]
  generalize List.finRange 512 = entries
  apply (wp_forM (I := fun _ t => t = m) _ rfl).mono
  · rintro _ _ rfl
    exact kfree_rule ram after
  · rintro k rest _ rfl
    simp only [wp_bind, wp_load, empty, zero_valid, ne_eq, not_true_eq_false, false_and, ↓reduceIte, wp_pure]

theorem Husk.drop {p : Nat} {k : Fin 512} (husk : Husk L role m r)
    (below : (∃ i, role q = .middle r i) ∨ ∃ i j, role q = .bottom r i j)
    (above : role p = .root r ∨ ∃ i, role p = .middle r i) (other : p ≠ q)
    (written : t.page = put (update m.page q contents) p k 0) (freelist : t.freelist = q :: m.freelist)
    (table : Table (update role q .free) (put (update m.page q contents) p k 0) r) :
    Shrinks L role m (update role q .free) t r where
  husk := by
    constructor
    · grind [husk.heap.release, husk.heap.ram, husk.heap.childless]
    · exact written ▸ table
    · intro b i j k bottom
      obtain ⟨other, old⟩ := of_update_role bottom (by simp)
      have notAbove : b ≠ p := by grind
      simpa [written, notAbove, other] using husk.empty b i j k old
    · intro p v user
      exact husk.unused p v (of_update_role user (by simp)).2
  keeps := by
    rw [written]
    refine keeps_update_put ?_ (by simp [Role.InUse]) ?_ other
    · rcases below with ⟨i, middle⟩ | ⟨i, j, bottom⟩ <;> simp [*]
    · rcases above with root | ⟨i, middle⟩ <;> simp [*]
  releases := releases_update (by rcases below with ⟨i, middle⟩ | ⟨i, j, bottom⟩ <;> simp [*, Role.spaceOf, Role.tableOf]) freelist

theorem entries_done {old new : Page} {rest : List (Fin 512)} (before : ∀ k, k ∉ j :: rest → old k = 0) (here : new j = 0)
    (others : ∀ k, k ≠ j → new k = old k) (k : Fin 512) (outside : k ∉ rest) :
    new k = 0 := by grind

theorem freewalk_middle (husk : Husk L role m r) (middle : role q = .middle r i) :
    wp (freewalk L 2 q) (fun _ t => ∃ role' u, Shrinks L role m role' u r ∧
      role' q = .middle r i ∧ (∀ j, u.page q j = 0) ∧ u.page r = m.page r ∧
      t.page = update u.page q (fun _ => 0x0101010101010101) ∧ t.freelist = q :: u.freelist) m := by
  have notRoot : r ≠ q := role_ne husk.table.root middle (by simp)
  have all (j : Fin 512) : j ∈ List.finRange 512 := List.mem_finRange j
  rw [freewalk, wp_bind]
  generalize List.finRange 512 = entries at all
  apply (wp_forM (I := fun rest u => ∃ role', Shrinks L role m role' u r ∧ role' q = .middle r i ∧
    (∀ j, j ∉ rest → u.page q j = 0) ∧ u.page r = m.page r) _ _).mono
  · rintro _ u ⟨role', shrinks, middle', empty, same⟩
    apply kfree_rule (shrinks.husk.heap.ram q (by simp [middle']))
    intro t page freelist
    exact ⟨role', u, shrinks, middle', fun j => empty j (by simp), same, page, freelist⟩
  · rintro j rest u ⟨role', shrinks, middle', empty, same⟩
    simp only [wp_bind, wp_load]
    rcases shrinks.husk.table.middle q i j middle' with zero | ⟨b, down, bottom⟩
    · simp only [zero, zero_valid, ne_eq, not_true_eq_false, false_and, ↓reduceIte, wp_pure]
      exact ⟨role', shrinks, middle', entries_done empty zero fun _ _ => rfl, same⟩
    · have access : link b &&& (PTE_R ||| PTE_W ||| PTE_X) = 0 := link_access b
      have ram := shrinks.husk.heap.ram b (by simp [bottom])
      have notMiddle : q ≠ b := role_ne middle' bottom (by simp)
      have notRoot' : r ≠ b := role_ne shrinks.husk.table.root bottom (by simp)
      simp only [down, ne_eq, link_valid_ne, not_false_eq_true, access, and_self, ↓reduceIte, pte2pa_link ram, wp_bind]
      apply freewalk_empty Nat.one_pos (fun k => shrinks.husk.empty b i j k bottom) ram
      intro t page freelist
      simp only [wp_store]
      have drop := shrinks.husk.drop (t := { t with page := put t.page q j 0 }) (.inr ⟨i, j, bottom⟩) (.inr ⟨i, middle'⟩)
        notMiddle (by rw [page]) freelist
        (shrinks.husk.table.setBottom shrinks.husk.heap.ram middle' (.inr bottom) (.inr ⟨rfl, rfl⟩) _)
      refine ⟨_, shrinks.trans drop, update_role middle' notMiddle, ?_, ?_⟩
      · apply entries_done empty
        · simp
        · intro k other
          simp [other, page, notMiddle]
      · rw [put_other notRoot, page, update_of_ne notRoot', same]
  · exact ⟨role, Shrinks.refl husk, middle, fun j outside => absurd (all j) outside, rfl⟩

structure Gone (L : Layout) (role : Roles) (m : Machine) (role' : Roles) (t : Machine) (r : Nat) : Prop where
  heap : Heap L role' t.freelist
  keeps : Keeps (Role.OutsideSpace r) role m.page role' t.page
  releases : Releases role m.freelist role' t.freelist r
  gone : ∀ p, (role' p).spaceOf ≠ some r

theorem Husk.dropRoot (husk : Husk L role m r) (empty : ∀ i, m.page r i = 0)
    (page : t.page = update m.page r contents) (freelist : t.freelist = r :: m.freelist) :
    Gone L role m (update role r .free) t r := by
  have alone (p : Nat) (inside : (role p).spaceOf = some r) : p = r := by
    have noMiddle (q : Nat) (i : Fin 512) (middle : role q = .middle r i) : False :=
      link_ne_zero q ((husk.table.topBack q i middle).symm.trans (empty i))
    cases use : role p with
    | root r' => grind [Role.spaceOf, Role.tableOf, husk.heap.self]
    | middle r' i => grind [Role.spaceOf, Role.tableOf]
    | bottom r' i j => grind [Role.spaceOf, Role.tableOf, husk.table.middleBack]
    | user r' v => grind [Role.spaceOf, husk.unused]
    | _ => simp [use] at inside
  have root := husk.table.root
  constructor
  · grind [husk.heap.release, husk.heap.ram]
  · rw [page]
    apply keeps_update
    · simp [root]
    · simp [Role.InUse]
  · exact releases_update (by rw [root]; rfl) freelist
  · grind [Role.spaceOf, Role.tableOf]

theorem Shrinks.gone (first : Shrinks L role m role' t r)
    (second : Gone L role' t role'' t' r) : Gone L role m role'' t' r :=
  ⟨second.heap, first.keeps.trans second.keeps, first.releases.trans second.releases, second.gone⟩

theorem freewalk_root (husk : Husk L role m r) : wp (freewalk L 3 r) (fun _ t => ∃ role', Gone L role m role' t r) m := by
  have all (i : Fin 512) : i ∈ List.finRange 512 := List.mem_finRange i
  rw [freewalk, wp_bind]
  generalize List.finRange 512 = entries at all
  apply (wp_forM (I := fun rest u => ∃ role', Shrinks L role m role' u r ∧ ∀ i, i ∉ rest → u.page r i = 0) _ _).mono
  · rintro _ u ⟨role', shrinks, empty⟩
    apply kfree_rule (shrinks.husk.heap.ram r (by simp [shrinks.husk.table.root]))
    intro t page freelist
    exact ⟨_, shrinks.gone (shrinks.husk.dropRoot (fun i => empty i (by simp)) page freelist)⟩
  · rintro i rest u ⟨role', shrinks, empty⟩
    simp only [wp_bind, wp_load]
    rcases shrinks.husk.table.top i with zero | ⟨q, down, middle⟩
    · simp only [zero, zero_valid, ne_eq, not_true_eq_false, false_and, ↓reduceIte, wp_pure]
      exact ⟨role', shrinks, entries_done empty zero fun _ _ => rfl⟩
    · have access : link q &&& (PTE_R ||| PTE_W ||| PTE_X) = 0 := link_access q
      have notRoot : r ≠ q := role_ne shrinks.husk.table.root middle (by simp)
      simp only [down, ne_eq, link_valid_ne, not_false_eq_true, access, and_self, ↓reduceIte,
        pte2pa_link (shrinks.husk.heap.ram q (by simp [middle])), wp_bind]
      apply (freewalk_middle shrinks.husk middle).mono
      rintro _ t ⟨role'', u', shrinks', middle', bare, same, page, freelist⟩
      simp only [wp_store]
      have husk' := shrinks'.husk
      have drop := husk'.drop (t := { t with page := put t.page r i 0 }) (.inl ⟨i, middle'⟩) (.inl husk'.table.root)
        notRoot (by rw [page]) freelist
        (husk'.table.setMiddle husk'.heap.ram (.inr middle') (.inr ⟨rfl, rfl⟩) (fun _ => bare) (by simp))
      refine ⟨_, (shrinks.trans shrinks').trans drop, ?_⟩
      apply entries_done empty
      · simp
      · intro k other
        simp [other, page, notRoot, same]
  · exact ⟨role, Shrinks.refl husk, fun i outside => absurd (all i) outside⟩

end

end Xv6.Vm
