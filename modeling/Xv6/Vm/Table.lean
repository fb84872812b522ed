import Xv6.Vm.Roles

namespace Xv6.Vm
open Lib Function

attribute [local simp] put_apply

/-! ## Page tables -/

def lookup (page : Nat → Page) (r v : Nat) : Word :=
  let top := page r (idx 2 v)
  if top &&& PTE_V = 0 then 0
  else
    let middle := page (pte2pa top) (idx 1 v)
    if middle &&& PTE_V = 0 then 0 else page (pte2pa middle) (idx 0 v)

structure Table (role : Roles) (page : Nat → Page) (r : Nat) : Prop where
  root : role r = .root r
  top : ∀ i, page r i = 0 ∨ ∃ q, page r i = link q ∧ role q = .middle r i
  topBack : ∀ q i, role q = .middle r i → page r i = link q
  middle : ∀ q i j, role q = .middle r i → page q j = 0 ∨ ∃ b, page q j = link b ∧ role b = .bottom r i j
  middleBack : ∀ b i j, role b = .bottom r i j → ∃ q, role q = .middle r i ∧ page q j = link b

section
variable {L : Layout} {role role' : Roles} {page page' : Nat → Page} {r u v q b : Nat} {i j k : Fin 512} {S : Role → Prop}
  {w : Word}

section

variable (table : Table role page r) (ram : ∀ p, role p ≠ .none → Ram L p)

include table ram

theorem Table.lookup_bottom (bottom : role b = .bottom r (idx 2 v) (idx 1 v)) : lookup page r v = page b (idx 0 v) := by
  obtain ⟨q, middle, down⟩ := table.middleBack b _ _ bottom
  have top := table.topBack q _ middle
  have ramQ : Ram L q := ram q (by simp [middle])
  have ramB : Ram L b := ram b (by simp [bottom])
  have valid (p : Nat) : link p &&& PTE_V ≠ 0 := by
    rw [link_valid]
    decide
  simp only [lookup, top, valid, ↓reduceIte, pte2pa_link ramQ, down, pte2pa_link ramB]

theorem Table.lookup_missing (missing : ∀ b, role b ≠ .bottom r (idx 2 v) (idx 1 v)) : lookup page r v = 0 := by
  have none : (0 : Word) &&& PTE_V = 0 := by decide
  rcases table.top (idx 2 v) with zero | ⟨q, top, middle⟩
  · simp only [lookup, zero, none, ↓reduceIte]
  · have ramQ : Ram L q := ram q (by simp [middle])
    rcases table.middle q (idx 2 v) (idx 1 v) middle with zero | ⟨b, -, bottom⟩
    · have valid : link q &&& PTE_V ≠ 0 := by
        rw [link_valid]
        decide
      simp only [lookup, top, valid, ↓reduceIte, pte2pa_link ramQ, zero, none]
    · exact absurd bottom (missing b)

theorem Table.middle_unique {q q' : Nat} (one : role q = .middle r i) (other : role q' = .middle r i) : q = q' :=
  link_injective (ram q (by simp [one])) (ram q' (by simp [other]))
    ((table.topBack q i one).symm.trans (table.topBack q' i other))

theorem Table.bottom_unique {j : Fin 512} {b b' : Nat}
    (one : role b = .bottom r i j) (other : role b' = .bottom r i j) : b = b' := by
  obtain ⟨q, middle, down⟩ := table.middleBack b i j one
  obtain ⟨q', middle', down'⟩ := table.middleBack b' i j other
  obtain rfl := table.middle_unique ram middle middle'
  exact link_injective (ram b (by simp [one])) (ram b' (by simp [other])) (down.symm.trans down')

end

/-! ## Frames -/

theorem Table.keeps (table : Table role page r) (keeps : Keeps S role page role' page')
    (inside : ∀ ρ : Role, ρ.tableOf = some r → S ρ) : Table role' page' r := by
  have onRoot := keeps.old r (inside _ (by simp [table.root, Role.tableOf]))
  have middleIff (q : Nat) (i : Fin 512) := keeps.iff (inside (.middle r i) rfl) q
  have bottomIff (b : Nat) (i j : Fin 512) := keeps.iff (inside (.bottom r i j) rfl) b
  have onMiddle {q : Nat} {i : Fin 512} (middle : role q = .middle r i) : page' q = page q :=
    (keeps.old q (inside _ (by simp [middle, Role.tableOf]))).2
  constructor
  · rw [onRoot.1, table.root]
  · intro i
    simp only [onRoot.2, middleIff]
    exact table.top i
  · intro q i middle
    rw [onRoot.2]
    exact table.topBack q i ((middleIff q i).mp middle)
  · intro q i j middle
    have before := (middleIff q i).mp middle
    simp only [onMiddle before, bottomIff]
    exact table.middle q i j before
  · intro b i j bottom
    obtain ⟨q, middle, down⟩ := table.middleBack b i j ((bottomIff b i j).mp bottom)
    exact ⟨q, (middleIff q i).mpr middle, by rw [onMiddle middle, down]⟩

theorem Table.lookup_keeps (table : Table role page r) (ram : ∀ p, role p ≠ .none → Ram L p)
    (ram' : ∀ p, role' p ≠ .none → Ram L p) (keeps : Keeps S role page role' page')
    (inside : ∀ ρ : Role, ρ.tableOf = some r → S ρ) (v : Nat) : lookup page' r v = lookup page r v := by
  have table' := table.keeps keeps inside
  by_cases present : ∃ b, role b = .bottom r (idx 2 v) (idx 1 v)
  · obtain ⟨b, bottom⟩ := present
    have same := keeps.old b (inside _ (by simp [bottom, Role.tableOf]))
    rw [table.lookup_bottom ram bottom, table'.lookup_bottom ram' (same.1.trans bottom), same.2]
  · have missing (b : Nat) : role b ≠ .bottom r (idx 2 v) (idx 1 v) := fun bottom => present ⟨b, bottom⟩
    have missing' (b : Nat) : role' b ≠ .bottom r (idx 2 v) (idx 1 v) :=
      fun bottom => missing b ((keeps.iff (inside _ rfl) b).mp bottom)
    rw [table.lookup_missing ram missing, table'.lookup_missing ram' missing']

/-! ## Growing and shrinking a table -/

section

variable (table : Table role page r)

include table

theorem Table.setLeaf (bottom : role b = .bottom r i j) (w : Word) : Table role (put page b k w) r := by
  have root : r ≠ b := role_ne table.root bottom (by simp)
  constructor
  · exact table.root
  · intro i'
    simpa [root] using table.top i'
  · intro q i' middle
    simpa [root] using table.topBack q i' middle
  · intro q i' j' middle
    have other : q ≠ b := role_ne middle bottom (by simp)
    simpa [other] using table.middle q i' j' middle
  · intro b' i' j' bottom'
    obtain ⟨q, middle, down⟩ := table.middleBack b' i' j' bottom'
    have other : q ≠ b := role_ne middle bottom (by simp)
    exact ⟨q, middle, by simpa [other] using down⟩

variable {ρ : Role} (ram : ∀ p, role p ≠ .none → Ram L p)

include ram

-- A page is linked into the table and unlinked from it by the same two changes, made in opposite directions.
theorem Table.setMiddle (before : role q = .free ∧ page r i = 0 ∨ role q = .middle r i)
    (after : ρ = .middle r i ∧ w = link q ∨ ρ = .free ∧ w = 0) {contents : Page} (empty : role q = .middle r i → ∀ j, page q j = 0)
    (bare : ρ = .middle r i → ∀ j, contents j = 0) :
    Table (update role q ρ) (put (update page q contents) r i w) r := by
  have root : r ≠ q := by grind [table.root]
  have back {q' : Nat} {i' : Fin 512} (old : role q' = .middle r i') (other : q' ≠ q) : i' ≠ i := by
    rintro rfl
    rcases before with ⟨-, zero⟩ | middle
    · exact link_ne_zero q' ((table.topBack q' i' old).symm.trans zero)
    · exact other (table.middle_unique ram old middle)
  constructor
  · exact update_role table.root root
  · intro i'
    by_cases slot : i' = i
    · subst slot
      rcases after with ⟨rfl, rfl⟩ | ⟨rfl, rfl⟩
      · exact .inr ⟨q, by simp, by simp⟩
      · exact .inl (by simp)
    · rcases table.top i' with zero | ⟨q', down, middle⟩
      · exact .inl (by simp [slot, root, zero])
      · have other : q' ≠ q := by grind
        exact .inr ⟨q', by simp [slot, root, down], update_role middle other⟩
  · intro q' i' middle
    by_cases new : q' = q
    · grind [put_apply]
    · have old : role q' = .middle r i' := by simpa [new] using middle
      simpa [root, back old new] using table.topBack q' i' old
  · intro q' i' j middle
    by_cases new : q' = q
    · subst new
      have linked : ρ = .middle r i := by grind
      exact .inl (by simp [Ne.symm root, bare linked j])
    · have old : role q' = .middle r i' := by simpa [new] using middle
      have notRoot : q' ≠ r := role_ne old table.root (by simp)
      rcases table.middle q' i' j old with zero | ⟨b, down, bottom⟩
      · exact .inl (by simp [notRoot, new, zero])
      · have fresh : b ≠ q := by grind
        exact .inr ⟨b, by simp [notRoot, new, down], update_role bottom fresh⟩
  · intro b i' j bottom
    obtain ⟨-, old⟩ := of_update_role bottom (by grind)
    obtain ⟨q', middle, down⟩ := table.middleBack b i' j old
    have other : q' ≠ q := by
      rintro rfl
      rcases before with ⟨free, -⟩ | _
      · cases free.symm.trans middle
      · grind [link_ne_zero]
    have notRoot : q' ≠ r := role_ne middle table.root (by simp)
    exact ⟨q', update_role middle other, by simpa [notRoot, other] using down⟩

theorem Table.setBottom (parent : role q = .middle r i) (before : role b = .free ∧ page q j = 0 ∨ role b = .bottom r i j)
    (after : ρ = .bottom r i j ∧ w = link b ∨ ρ = .free ∧ w = 0) (contents : Page) :
    Table (update role b ρ) (put (update page b contents) q j w) r := by
  have root : r ≠ b := by grind [table.root]
  have notParent : r ≠ q := role_ne table.root parent (by simp)
  constructor
  · exact update_role table.root root
  · intro i'
    rcases table.top i' with zero | ⟨q', down, middle⟩
    · exact .inl (by simp [notParent, root, zero])
    · have other : q' ≠ b := by grind
      exact .inr ⟨q', by simp [notParent, root, down], update_role middle other⟩
  · intro q' i' middle
    obtain ⟨-, old⟩ := of_update_role middle (by grind)
    simpa [root, notParent] using table.topBack q' i' old
  · intro q' i' j' middle
    obtain ⟨other, old⟩ := of_update_role middle (by grind)
    by_cases slot : q' = q ∧ j' = j
    · grind [put_apply]
    · rcases table.middle q' i' j' old with zero | ⟨b', down, bottom⟩
      · exact .inl (by simp [slot, other, zero])
      · have different : b' ≠ b := by grind [table.middle_unique ram]
        exact .inr ⟨b', by simp [slot, other, down], update_role bottom different⟩
  · intro b' i' j' bottom
    by_cases new : b' = b
    · exact ⟨q, by grind, by grind [put_apply]⟩
    · have old : role b' = .bottom r i' j' := by simpa [new] using bottom
      obtain ⟨q', middle, down⟩ := table.middleBack b' i' j' old
      have slot : ¬ (q' = q ∧ j' = j) := by grind [link_ne_zero, table.bottom_unique ram]
      have other : q' ≠ b := by grind
      exact ⟨q', update_role middle other, by simpa [slot, other] using down⟩

end

/-! ## What the changes do to the mapping -/

section

variable (table : Table role page r)

include table

theorem Table.lookup_eq (ram : ∀ p, role p ≠ .none → Ram L p)
    (present : ∀ b, role b = .bottom r (idx 2 v) (idx 1 v) → page b (idx 0 v) = w)
    (missing : (∀ b, role b ≠ .bottom r (idx 2 v) (idx 1 v)) → w = 0) : lookup page r v = w := by
  by_cases found : ∃ b, role b = .bottom r (idx 2 v) (idx 1 v)
  · obtain ⟨b, bottom⟩ := found
    rw [table.lookup_bottom ram bottom, present b bottom]
  · have none := not_exists.mp found
    rw [table.lookup_missing ram none, missing none]

theorem Table.lookup_addMiddle (table' : Table (update role q (.middle r i))
      (put (update page q fun _ => 0) r i (link q)) r) (ram : ∀ p, role p ≠ .none → Ram L p)
    (ram' : ∀ p, update role q (.middle r i) p ≠ .none → Ram L p) (unused : role q = .free) :
    lookup (put (update page q fun _ => 0) r i (link q)) r v = lookup page r v := by
  apply table'.lookup_eq ram'
  · intro b bottom
    obtain ⟨fresh, old⟩ := of_update_role bottom (by simp)
    have notRoot : b ≠ r := role_ne old table.root (by simp)
    rw [table.lookup_bottom ram old]
    simp [notRoot, fresh]
  · intro missing
    refine table.lookup_missing ram fun b bottom => missing b (update_role bottom ?_)
    exact role_ne bottom unused (by simp)

theorem Table.lookup_addBottom (table' : Table (update role b (.bottom r i j))
      (put (update page b fun _ => 0) q j (link b)) r) (ram : ∀ p, role p ≠ .none → Ram L p)
    (ram' : ∀ p, update role b (.bottom r i j) p ≠ .none → Ram L p) (unused : role b = .free) (parent : role q = .middle r i)
    (empty : page q j = 0) : lookup (put (update page b fun _ => 0) q j (link b)) r v = lookup page r v := by
  apply table'.lookup_eq ram'
  · intro b' bottom
    by_cases new : b' = b
    · subst new
      obtain ⟨rfl, rfl⟩ : i = idx 2 v ∧ j = idx 1 v := by simpa using bottom
      have notParent : b' ≠ q := role_ne unused parent (by simp)
      rw [table.lookup_missing ram]
      · simp [notParent]
      · intro c bottom'
        obtain ⟨q', middle, down⟩ := table.middleBack c _ _ bottom'
        obtain rfl := table.middle_unique ram middle parent
        exact link_ne_zero c (down.symm.trans empty)
    · have old : role b' = .bottom r (idx 2 v) (idx 1 v) := by simpa [new] using bottom
      have notParent : b' ≠ q := role_ne old parent (by simp)
      rw [table.lookup_bottom ram old]
      simp [notParent, new]
  · intro missing
    refine table.lookup_missing ram fun b bottom => missing b (update_role bottom ?_)
    exact role_ne bottom unused (by simp)

theorem Table.lookup_setLeaf (ram : ∀ p, role p ≠ .none → Ram L p)
    (bottom : role b = .bottom r (idx 2 u) (idx 1 u)) (belowU : u < VPNS) (belowV : v < VPNS) :
    lookup (put page b (idx 0 u) w) r v = if v = u then w else lookup page r v := by
  have table' : Table role (put page b (idx 0 u) w) r := table.setLeaf bottom w
  by_cases same : v = u
  · subst same
    rw [table'.lookup_bottom ram bottom]
    simp
  · simp only [same, ↓reduceIte]
    apply table'.lookup_eq ram
    · intro b' bottom'
      rw [table.lookup_bottom ram bottom', put_apply, if_neg]
      rintro ⟨rfl, zero⟩
      obtain ⟨two, one⟩ : idx 2 u = idx 2 v ∧ idx 1 u = idx 1 v := by simpa [bottom] using bottom'
      exact same (idx_injective belowV belowU two.symm one.symm zero)
    · exact table.lookup_missing ram

end

end

end Xv6.Vm
