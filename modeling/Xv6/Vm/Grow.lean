import Xv6.Vm.Unmap

namespace Xv6.Vm
open Lib Function

/-! ## Sizes -/

def npages (sz : Nat) : Nat := (sz + (PGSIZE - 1)) / PGSIZE

theorem npages_mono {a b : Nat} (le : a ≤ b) : npages a ≤ npages b :=
  Nat.div_le_div_right (by omega)

abbrev MEMORY : Nat := (PHYSTOP - KERNBASE) / PGSIZE

theorem pgRoundUp_eq {sz : Nat} (small : npages sz ≤ MEMORY) : pgRoundUp sz = npages sz * PGSIZE := by
  simp only [npages, MEMORY, PHYSTOP, KERNBASE, PGSIZE, pgRoundUp] at *
  omega

def Maps (X : Nat → Word) (n : Nat) : Prop := ∀ v, v < USER → (X v ≠ 0 ↔ v < n)

section
variable {L : Layout} {role role' : Roles} {m t u : Machine} {r q mem v n r' oldsz newsz o : Nat} {X Y Z : Nat → Word}
  {contents : Page}

section

variable (maps : Maps X n)

include maps

theorem Maps.cut (low : v ≤ n) : Maps (cut X v (n - v)) v := by
  intro u below
  have whole := maps u below
  simp only [Vm.cut]
  split_ifs with inside
  · simp only [ne_eq, not_true_eq_false, false_iff]
    omega
  · rw [whole]
    omega

theorem Maps.update {w : Word} (used : w ≠ 0) : Maps (update X n w) (n + 1) := by
  intro u below
  by_cases same : u = n
  · subst same
    simpa using used
  · have whole := maps u below
    simp only [ne_eq, same, not_false_eq_true, update_of_ne]
    rw [← ne_eq, whole]
    omega

theorem Maps.congr (same : ∀ v, v < USER → Y v = X v) : Maps Y n := by
  intro v below
  rw [same v below]
  exact maps v below

theorem Maps.eq_zero (below : v < USER) (above : n ≤ v) : X v = 0 := by
  by_contra used
  exact absurd ((maps v below).mp used) (by omega)

theorem Maps.eq_of_same (maps' : Maps Y n) (same : ∀ u, u < n ∨ USER ≤ u → Y u = X u) (v : Nat) : Y v = X v := by
  by_cases outside : v < n ∨ USER ≤ v
  · exact same v outside
  · rw [maps.eq_zero (by omega) (by omega), maps'.eq_zero (by omega) (by omega)]

end

theorem Space.bound (space : Space L role m r X) (mapped : ∀ u, u < n → u < USER → X u ≠ 0) : n ≤ MEMORY := by
  by_contra many
  have inside (u : Fin (MEMORY + 1)) : u.val < USER := by grind
  have owner (u : Fin (MEMORY + 1)) : role (pte2pa (X u)) = .user r u :=
    (space.user u (inside u) (mapped u (by omega) (inside u))).2
  have ram (u : Fin (MEMORY + 1)) : Ram L (pte2pa (X u)) := space.heap.ram _ (by simp [owner u])
  have frame (u : Fin (MEMORY + 1)) : (pte2pa (X u) - KERNBASE) / PGSIZE < MEMORY := by
    obtain ⟨aligned, -, top⟩ := ram u
    simp only [MEMORY, PHYSTOP, KERNBASE, PGSIZE] at *
    omega
  have injective : Injective fun u : Fin (MEMORY + 1) => (⟨_, frame u⟩ : Fin MEMORY) := by
    intro u u' same
    have address : pte2pa (X u) = pte2pa (X u') := by
      have quotient := Fin.mk.inj same
      obtain ⟨aligned, low, -⟩ := ram u
      obtain ⟨aligned', low', -⟩ := ram u'
      have base := L.inKernel
      simp only [KERNBASE, PGSIZE] at *
      omega
    have users := (owner u).symm.trans (address ▸ owner u')
    exact Fin.ext (by simpa using users)
  have card := Fintype.card_le_of_injective _ injective
  simp only [Fintype.card_fin] at card
  omega

theorem Maps.bound (maps : Maps X n) (space : Space L role m r X) : n ≤ MEMORY :=
  space.bound fun u low below => (maps u below).mpr low

theorem memory_lt_user (small : n ≤ MEMORY) : n < USER := by grind

/-! ## Pages in flight -/

structure Fetched (L : Layout) (role : Roles) (m t : Machine) (r q : Nat) (X : Nat → Word) : Prop where
  free : role q = .free
  space : Space L (update role q .scratch) t r X
  keeps : Keeps Role.InUse role m.page (update role q .scratch) t.page

theorem Space.fetch (space : Space L role m r X) (free : role q = .free)
    (heap : Heap L (update role q .scratch) t.freelist) (page : t.page = update m.page q contents) :
    Fetched L role m t r q X := by
  have keeps : Keeps Role.InUse role m.page (update role q .scratch) t.page := by
    grind [keeps_update, Role.InUse]
  exact ⟨free, space.frame heap keeps fun _ => Role.inUse_of_spaceOf, keeps⟩

theorem Fetched.moves (fetched : Fetched L role m t r q X)
    (moves : Moves L (update role q .scratch) t role' u r Y) (inUse : role' q ≠ .scratch) :
    Moves L role m role' u r Y where
  space := moves.space
  keeps := (fetched.keeps.mono fun _ outside => outside.1).trans moves.keeps
  settled := moves.settled.fetched fetched.free inUse

theorem Space.discard (space : Space L role m r X) (scratch : role q = .scratch)
    (freelist : t.freelist = q :: m.freelist) (page : t.page = update m.page q contents) :
    Moves L role m (update role q .free) t r X := by
  have keeps : Keeps Role.InUse role m.page (update role q .free) t.page := by
    grind [keeps_update, Role.InUse]
  refine ⟨space.frame ?_ keeps fun _ => Role.inUse_of_spaceOf, keeps.mono fun _ outside => outside.1, ?_⟩
  · grind [space.heap.release, space.heap.ram, space.heap.childless]
  · exact settled_update (by simp [scratch]) (by simp) (by simp)

theorem Space.apart (space : Space L role m r X) (heap : Heap L role' t.freelist)
    (keeps : Keeps (Role.OutsideSpace r') role m.page role' t.page) (distinct : r ≠ r') : Space L role' t r X := by
  apply space.frame heap keeps
  intro ρ inside
  refine ⟨Role.inUse_of_spaceOf inside, ?_⟩
  rw [inside]
  simpa using distinct

/-! ## `uvmdealloc` and `uvmalloc` -/

theorem uvmdealloc_maps (space : Space L role m r X) (maps : Maps X (npages oldsz)) :
    wp (uvmdealloc L r oldsz newsz) (fun sz t => ∃ role' Y, Moves L role m role' t r Y ∧
      sz = min oldsz newsz ∧ Maps Y (npages sz) ∧
      (∀ u, u < npages sz ∨ USER ≤ u → Y u = X u) ∧ Releases role m.freelist role' t.freelist r) m := by
  have small := maps.bound space
  by_cases grows : oldsz ≤ newsz
  · simp only [uvmdealloc, grows, ↓reduceIte, wp_pure]
    refine ⟨role, X, Moves.refl space, by omega, maps, by simp, Releases.refl⟩
  · have fewer : npages newsz ≤ npages oldsz := npages_mono (by omega)
    have least : min oldsz newsz = newsz := by omega
    simp only [uvmdealloc, grows, ↓reduceIte, least]
    rw [pgRoundUp_eq small, pgRoundUp_eq (fewer.trans small)]
    split_ifs with less
    · have count : (npages oldsz * PGSIZE - npages newsz * PGSIZE) / PGSIZE = npages oldsz - npages newsz := by
        rw [← Nat.sub_mul, mul_div_pgsize]
      have fits := memory_lt_user small
      rw [count]
      apply (uvmunmap_user space _ (by omega)).bind
      · rintro _ t ⟨role', moves, releases⟩
        simp only [wp_pure]
        refine ⟨role', _, moves, trivial, maps.cut fewer, ?_, releases⟩
        intro u outside
        simp only [cut]
        rw [if_neg (by omega)]
      · intro u above inside
        exact (maps u (by omega)).mpr (by omega)
    · have equal : npages newsz = npages oldsz := by
        simp only [npages, PGSIZE] at *
        omega
      simp only [wp_pure]
      exact ⟨role, X, Moves.refl space, trivial, equal ▸ maps, by simp, Releases.refl⟩

theorem npages_mul (v : Nat) : npages (v * PGSIZE) = v := by
  simp only [npages, PGSIZE]
  omega

def Allocated (L : Layout) (role : Roles) (m : Machine) (r o n : Nat) (X : Nat → Word) (done : Bool)
    (t : Machine) : Prop :=
  ∃ role' Y, Moves L role m role' t r Y ∧ (∀ u, u < o ∨ USER ≤ u → Y u = X u) ∧
    if done then Maps Y n ∧ ∀ u, u < USER → Y u = X u ∨ Y u &&& PTE_U ≠ 0 else Maps Y o

theorem allocLoop_undo {Q : Bool → Machine → Prop} (moves : Moves L role m role' t r X) (maps : Maps X v)
    (low : o ≤ v) (post : ∀ u, Allocated L role m r o n X false u → Q false u) :
    wp (do let _ ← uvmdealloc L r (v * PGSIZE) (o * PGSIZE); return false) Q t := by
  apply (uvmdealloc_maps moves.space (by rwa [npages_mul])).bind
  rintro sz u ⟨role'', Y, undone, rfl, maps', same, -⟩
  have least : min (v * PGSIZE) (o * PGSIZE) = o * PGSIZE := min_eq_right (Nat.mul_le_mul_right _ low)
  rw [least, npages_mul] at maps' same
  simp only [wp_pure]
  exact post u ⟨role'', Y, moves.trans undone, same, by simpa using maps'⟩

theorem Allocated.step {w : Word} (moves : Moves L role m role' t r (update X v w)) (low : o ≤ v)
    (below : v < USER) (later : Allocated L role' t r o n (update X v w) false u) : Allocated L role m r o n X false u := by
  obtain ⟨role'', Y, further, same, outcome⟩ := later
  refine ⟨role'', Y, moves.trans further, ?_, outcome⟩
  intro p outside
  have other : p ≠ v := by omega
  rw [same p outside, update_of_ne other]

/-- The pages from `v` up to `n` are new and hold zeros; the other entries, and the pages in use but for
those of the table, are as before. -/
structure Fills (L : Layout) (role : Roles) (m : Machine) (role' : Roles) (t : Machine) (r v n : Nat)
    (X Y : Nat → Word) : Prop where
  moves : Moves L role m role' t r Y
  same : ∀ u, u < v ∨ USER ≤ u → Y u = X u
  maps : Maps Y n
  new : ∀ u, v ≤ u → u < n → Y u &&& PTE_U ≠ 0 ∧ t.page (pte2pa (Y u)) = fun _ => 0
  old : ∀ p, (role p).InUse → (role p).tableOf ≠ some r → t.page p = m.page p

theorem Fills.refl (space : Space L role m r X) (maps : Maps X n) : Fills L role m role m r n n X X where
  moves := Moves.refl space
  same _ _ := rfl
  maps := maps
  new u low high := by omega
  old _ _ _ := rfl

theorem Moves.userRole {p : Nat} (moves : Moves L role m role' t r Y) (space : Space L role m r X)
    (user : role p = .user r v) (same : Y v = X v) : role' p = .user r v := by
  obtain ⟨below, used, rfl⟩ := space.owned p v user
  rw [← same] at used ⊢
  exact (moves.space.user v below used).2

section

variable (space : Space L role m r X)

include space

theorem Fills.step {role'' : Roles} {perm : Word} (below : v < USER)
    (user : perm &&& PTE_U ≠ 0) (small : perm.toNat < 1024) (owner : role' mem = .user r v)
    (moves : Moves L role m role' t r (update X v (leaf mem perm))) (empty : X v = 0) (zeros : t.page mem = fun _ => 0)
    (outside : ∀ p, (role p).InUse → (role p).tableOf ≠ some r → t.page p = m.page p)
    (later : Fills L role' t role'' u r (v + 1) n (update X v (leaf mem perm)) Y) :
    Fills L role m role'' u r v n X Y where
  moves := moves.trans later.moves
  same x range := by
    rw [later.same x (by omega), update_of_ne (by omega)]
  maps := later.maps
  new x low high := by
    by_cases here : x = v
    · subst here
      have ram := moves.space.heap.ram mem (by simp [owner])
      rw [later.same x (by omega), update_self, pte2pa_leaf ram.below ram.1 small,
        later.old mem (by simp [owner, Role.InUse]) (by simp [owner, Role.tableOf])]
      exact ⟨leaf_and mem (by decide) user, zeros⟩
    · exact later.new x (by omega) high
  old p inUse notTable := by
    have same : role' p = role p := by
      by_cases inside : (role p).spaceOf = some r
      · -- In the space but not in the table: a user page, and its entry is still there.
        cases use : role p with
        | user r' x => grind [Role.spaceOf, space.owned, moves.userRole]
        | _ => simp_all [Role.spaceOf, Role.tableOf]
      · exact (moves.keeps.old p ⟨inUse, inside⟩).1
    rw [later.old p (same ▸ inUse) (same ▸ notTable), outside p inUse notTable]

theorem allocLoop_fills (maps : Maps X v) (low : o ≤ v) :
    wp (allocLoop L r (o * PGSIZE) n (v * PGSIZE)) (fun done t =>
      if done then ∃ role' Y, Fills L role m role' t r v (v + n) X Y
      else Allocated L role m r o (v + n) X false t) m := by
  induction n generalizing role m v X with
  | zero =>
    simp only [allocLoop, wp_pure]
    exact ⟨role, X, Fills.refl space maps⟩
  | succ n ih =>
    have fits := memory_lt_user (maps.bound space)
    have empty : X v = 0 := maps.eq_zero (by omega) (Nat.le_refl v)
    simp only [allocLoop, wp_bind]
    apply kalloc_rule space.heap
    · intro t _ page freelist
      exact allocLoop_undo (space.same page freelist).moves maps low fun _ undone => undone
    · intro mem t free heap page _
      simp only [wp_bind, wp_setPage]
      have fetched := space.fetch (t := { t with page := update t.page mem fun _ => 0 }) free heap
        (by rw [page, update_idem])
      apply (mappages_user fetched.space (by omega) empty (by simp) (by decide) (by decide)).mono
      rintro _ t' ⟨role', ⟨rfl, scratch, moves⟩ | ⟨rfl, owner, outside, moves⟩⟩
      · simp only [Bool.false_eq_true, ↓reduceIte]
        rw [wp_bind]
        apply kfree_rule (moves.space.heap.ram mem (by simp [scratch]))
        intro u page' freelist
        have discarded := moves.space.discard scratch freelist page'
        exact allocLoop_undo (fetched.moves (moves.trans discarded) (by simp)) maps low fun _ undone => undone
      · have used : leaf mem (PTE_W ||| PTE_X ||| PTE_R ||| PTE_U) ≠ 0 := (isLeaf_leaf mem (by decide)).ne_zero
        have mapped := fetched.moves moves (by simp [owner])
        have zeros : t'.page mem = fun _ => 0 := by grind [Role.OutsideTable, Role.tableOf]
        have others (p : Nat) (inUse : (role p).InUse) (notTable : (role p).tableOf ≠ some r) : t'.page p = m.page p := by
          have other : p ≠ mem := fun same => inUse.2.1 (same ▸ free)
          rw [outside p ⟨by simpa [other] using inUse.2.1, by simpa [other] using notTable⟩]
          simp [page, other]
        rw [← Nat.succ_mul, Nat.add_comm n, ← Nat.add_assoc]
        apply (ih moves.space (maps.update used) (by omega)).mono
        rintro (_ | _) u later
        · exact Allocated.step mapped low (by omega) later
        · obtain ⟨role'', Y, fills⟩ := later
          exact ⟨role'', Y, Fills.step space (by omega) (by decide) (by decide) owner mapped empty zeros others fills⟩

theorem uvmalloc_fills (maps : Maps X (npages oldsz)) (grows : oldsz ≤ newsz) :
    wp (uvmalloc L r oldsz newsz) (fun sz t =>
      sz = newsz ∧ (∃ role' Y, Fills L role m role' t r (npages oldsz) (npages newsz) X Y) ∨
      sz = 0 ∧ Allocated L role m r (npages oldsz) (npages newsz) X false t) m := by
  have small := maps.bound space
  have count : npages oldsz + (newsz - npages oldsz * PGSIZE + (PGSIZE - 1)) / PGSIZE = npages newsz := by
    simp only [npages, PGSIZE]
    omega
  have forward : ¬ newsz < oldsz := by omega
  simp only [uvmalloc, forward, ↓reduceIte, wp_bind]
  rw [pgRoundUp_eq small, ← count]
  apply (allocLoop_fills space maps (Nat.le_refl _)).mono
  rintro (_ | _) t outcome
  · grind [wp_pure]
  · grind [wp_pure]

theorem uvmalloc_maps (maps : Maps X (npages oldsz)) :
    wp (uvmalloc L r oldsz newsz) (fun sz t => ∃ role' Y, Moves L role m role' t r Y ∧
      (∀ u, u < npages oldsz ∨ USER ≤ u → Y u = X u) ∧ (sz = 0 → Maps Y (npages oldsz)) ∧
      (sz ≠ 0 → sz = max oldsz newsz ∧ Maps Y (npages sz) ∧ ∀ u, u < USER → Y u = X u ∨ Y u &&& PTE_U ≠ 0)) m := by
  by_cases shrinks : newsz < oldsz
  · simp only [uvmalloc, shrinks, ↓reduceIte, wp_pure]
    exact ⟨role, X, Moves.refl space, by simp, fun _ => maps, fun _ => ⟨by omega, maps, by simp⟩⟩
  · apply (uvmalloc_fills space maps (by omega)).mono
    rintro sz t (⟨rfl, role', Y, fills⟩ | ⟨rfl, role', Y, moves, same, outcome⟩)
    · refine ⟨role', Y, fills.moves, fills.same, ?_, fun _ => ⟨by omega, fills.maps, fun u below => ?_⟩⟩
      · grind [fills.maps]
      · grind [fills.same, fills.new, fills.maps.eq_zero, maps.eq_zero]
    · exact ⟨role', Y, moves, same, fun _ => outcome, by simp⟩

end

/-! ## `uvmcopy` -/

def Copied (m : Machine) (Z X : Nat → Word) (n : Nat) : Prop :=
  ∀ u, u < n → pteFlags (X u) = pteFlags (Z u) ∧ m.page (pte2pa (X u)) = m.page (pte2pa (Z u))

theorem Copied.step (copied : Copied m Z X v) (old : Space L role m r' Z)
    (space : Space L role m r X) (maps : Maps X v) (below : v < USER) (mapped : ∀ u, u ≤ v → Z u ≠ 0)
    (free : role mem = .free) (outside : ∀ p, (update role mem .scratch p).OutsideTable r →
      t.page p = update m.page mem (m.page (pte2pa (Z v))) p) (ram : Ram L mem) :
    Copied t Z (update X v (leaf mem (pteFlags (Z v)))) (v + 1) := by
  have user {r : Nat} {W : Nat → Word} {u : Nat} (space : Space L role m r W) (low : u < USER) (used : W u ≠ 0) :
      t.page (pte2pa (W u)) = m.page (pte2pa (W u)) := by
    have owner := (space.user u low used).2
    have other : pte2pa (W u) ≠ mem := role_ne owner free (by simp)
    rw [outside _ (by simp [other, owner, Role.OutsideTable, Role.tableOf]), update_of_ne other]
  have source (u : Nat) (low : u ≤ v) := user old (u := u) (by omega) (mapped u low)
  have new : t.page mem = m.page (pte2pa (Z v)) := by
    rw [outside mem (by simp [Role.OutsideTable, Role.tableOf]), update_self]
  intro u low
  by_cases same : u = v
  · subst same
    have isLeaf := (old.user u below (mapped u (by omega))).1
    rw [update_self, pteFlags_leaf isLeaf, pte2pa_leaf ram.below ram.1 (pteFlags_toNat _), new, source u (by omega)]
    exact ⟨rfl, rfl⟩
  · have inside : u < v := by omega
    rw [update_of_ne same, source u (by omega), user space (by omega) ((maps u (by omega)).mpr inside)]
    exact copied u inside

theorem copyLoop_maps (old : Space L role m r' Z) (space : Space L role m r X)
    (distinct : r' ≠ r) (mapped : ∀ u, u < v + n → u < USER ∧ Z u ≠ 0) (maps : Maps X v) (copied : Copied m Z X v) :
    wp (copyLoop L r' r n (v * PGSIZE)) (fun stop t => ∃ role' Y k, Moves L role m role' t r Y ∧
      Maps Y k ∧ (∀ u, USER ≤ u → Y u = X u) ∧
      (stop = none ∧ k = v + n ∧ Copied t Z Y k ∨ stop = some (k * PGSIZE))) m := by
  induction n generalizing role m v X with
  | zero =>
    simp only [copyLoop, wp_pure]
    exact ⟨role, X, v, Moves.refl space, maps, by simp, .inl ⟨trivial, rfl, copied⟩⟩
  | succ n ih =>
    obtain ⟨below, here⟩ := mapped v (by omega)
    obtain ⟨isLeaf, user⟩ := old.user v below here
    have empty : X v = 0 := maps.eq_zero below (Nat.le_refl v)
    simp only [copyLoop, wp_bind]
    apply (walk_find old (mul_lt_maxva (by omega))).mono
    rintro found _ ⟨rfl, ⟨-, zero⟩ | ⟨b, rfl, bottom⟩⟩
    · rw [mul_div_pgsize] at zero
      exact absurd zero here
    · rw [mul_div_pgsize] at bottom
      have entry := old.entry (user_lt_vpns below) bottom
      simp only [mul_div_pgsize, wp_bind, wp_load, entry, isLeaf.valid, ↓reduceIte]
      apply kalloc_rule space.heap
      · intro t _ page freelist
        simp only [wp_pure]
        exact ⟨role, X, v, (space.same page freelist).moves, maps, by simp⟩
      · intro mem t free heap page _
        have other : pte2pa (Z v) ≠ mem := role_ne user free (by simp)
        simp only [wp_bind, wp_get, wp_setPage]
        have fetched := space.fetch (t := { t with page := update t.page mem (t.page (pte2pa (Z v))) }) free heap
          (by rw [page, update_idem])
        apply (mappages_user fetched.space below empty (by simp) (pteFlags_toNat _) isLeaf.flags_access).mono
        rintro _ t' ⟨role', ⟨rfl, scratch, moves⟩ | ⟨rfl, owner, outside, moves⟩⟩
        · simp only [Bool.false_eq_true, ↓reduceIte, wp_bind]
          apply kfree_rule (moves.space.heap.ram mem (by simp [scratch]))
          intro u page' freelist
          simp only [wp_pure]
          have discarded := moves.space.discard scratch freelist page'
          exact ⟨_, X, v, fetched.moves (moves.trans discarded) (by simp), maps, by simp⟩
        · have done := fetched.moves moves (by simp [owner])
          have used := (isLeaf_leaf mem isLeaf.flags_access).ne_zero
          rw [← Nat.succ_mul, Nat.add_comm n, ← Nat.add_assoc]
          have copied' : Copied t' Z (update X v (leaf mem (pteFlags (Z v)))) (v + 1) := by
            apply copied.step old space maps below (fun u low => (mapped u (by omega)).2) free _
              (moves.space.heap.ram mem (by simp [owner]))
            intro p kept
            rw [outside p kept, page, update_idem, update_of_ne other]
          apply (ih (old.apart done.space.heap done.keeps distinct) moves.space _ (maps.update used) copied').mono
          · rintro stop u ⟨role'', Y, k, further, maps', same, outcome⟩
            refine ⟨role'', Y, k, done.trans further, maps', ?_, outcome⟩
            intro w fixed
            have other : w ≠ v := by omega
            rw [same w fixed, update_of_ne other]
          · intro u inside
            exact mapped u (by omega)

theorem uvmcopy_maps {sz : Nat} (old : Space L role m r' Z) (space : Space L role m r X)
    (distinct : r' ≠ r) (source : Maps Z (npages sz)) (maps : Maps X 0) :
    wp (uvmcopy L r' r sz) (fun copied t => ∃ role' Y, Moves L role m role' t r Y ∧
      (∀ u, USER ≤ u → Y u = X u) ∧ Maps Y (if copied then npages sz else 0) ∧
      (copied = true → Copied t Z Y (npages sz))) m := by
  have fits := memory_lt_user (source.bound old)
  simp only [uvmcopy, wp_bind]
  have loop := copyLoop_maps (v := 0) (n := npages sz) old space distinct
    (fun u inside => ⟨by omega, (source u (by omega)).mpr (by omega)⟩) maps
    (fun u inside => absurd inside (Nat.not_lt_zero u))
  apply loop.mono
  rintro _ t ⟨role', Y, k, moves, maps', same, ⟨rfl, rfl, copied⟩ | rfl⟩
  · simp only [wp_pure, ↓reduceIte]
    rw [Nat.zero_add] at maps' copied
    exact ⟨role', Y, moves, same, maps', fun _ => copied⟩
  · have below := memory_lt_user (maps'.bound moves.space)
    have unmap := uvmunmap_user (v := 0) (n := k) moves.space
      (fun u _ inside => (maps' u (by omega)).mpr (by omega)) (by omega)
    simp only [wp_bind, mul_div_pgsize]
    apply unmap.mono
    rintro _ u ⟨role'', undone, -⟩
    simp only [wp_pure, Bool.false_eq_true, ↓reduceIte]
    refine ⟨role'', _, moves.trans undone, ?_, maps'.cut (Nat.zero_le k), by simp⟩
    intro w fixed
    simp only [cut]
    rw [if_neg (by omega), same w fixed]

end

end Xv6.Vm
